import MuchPIR.Cppcodec.RoundTrip

namespace Cppcodec
open Prog Regroup
set_option autoImplicit true

variable {C : BlockCodec} {V : CodecVariant} {w : Nat} {lengthError : Nat → String}
  (hC : LawfulBlock C w lengthError) (hV : LawfulVariant V w)

section Encoded

theorem length_symbols (ds : List Nat) : (V.symbols ds).length = ds.length := List.length_map _

theorem length_paddingOf (C : BlockCodec) (V : CodecVariant) (n : Nat) :
    (paddingOf C V n).length = if V.generatesPadding then
      (C.encodedBlockSize - n % C.encodedBlockSize) % C.encodedBlockSize else 0 := by
  rw [CodecVariant.generatesPadding]
  cases hsymbol : V.paddingSymbol with
  | none =>
    rw [paddingOf_none hsymbol]
    rfl
  | some c =>
    rw [paddingOf_some hsymbol, List.length_replicate]
    rfl

include hC

/-- The symbols of `n` bytes are the bits of the bytes in blocks of `w`, rounded up. -/
theorem symbolCount_eq (n : Nat) :
    symbolCount w n = n * C.encodedBlockSize / C.binaryBlockSize +
      if n * C.encodedBlockSize % C.binaryBlockSize = 0 then 0 else 1 := by
  have hw := hC.width_pos
  have hb := C.binary_pos
  obtain ⟨hle, hlt⟩ := symbolCount_spec hw n
  have hbits : w * (n * C.encodedBlockSize) = 8 * n * C.binaryBlockSize := by
    calc w * (n * C.encodedBlockSize) = n * (w * C.encodedBlockSize) := by ring
      _ = 8 * n * C.binaryBlockSize := by rw [hC.block_bits]; ring
  have hlower : n * C.encodedBlockSize ≤ C.binaryBlockSize * symbolCount w n := by
    apply Nat.le_of_mul_le_mul_left _ hw
    calc w * (n * C.encodedBlockSize) = 8 * n * C.binaryBlockSize := hbits
      _ ≤ w * symbolCount w n * C.binaryBlockSize := Nat.mul_le_mul_right _ hle
      _ = w * (C.binaryBlockSize * symbolCount w n) := by ring
  have hupper : C.binaryBlockSize * symbolCount w n <
      n * C.encodedBlockSize + C.binaryBlockSize := by
    apply Nat.lt_of_mul_lt_mul_left (a := w)
    calc w * (C.binaryBlockSize * symbolCount w n) = w * symbolCount w n * C.binaryBlockSize := by ring
      _ < (8 * n + w) * C.binaryBlockSize := Nat.mul_lt_mul_of_pos_right hlt hb
      _ = w * (n * C.encodedBlockSize + C.binaryBlockSize) := by rw [Nat.mul_add, hbits]; ring
  have hdiv := Nat.div_add_mod (n * C.encodedBlockSize) C.binaryBlockSize
  have hmod := Nat.mod_lt (n * C.encodedBlockSize) hb
  have hquotient : n * C.encodedBlockSize / C.binaryBlockSize ≤ symbolCount w n := by
    apply Nat.le_of_mul_le_mul_left _ hb
    omega
  split_ifs with hzero
  · apply le_antisymm _ hquotient
    apply Nat.le_of_lt_succ
    apply Nat.lt_of_mul_lt_mul_left (a := C.binaryBlockSize)
    rw [Nat.mul_succ]
    omega
  · apply le_antisymm
    · apply Nat.le_of_lt_succ
      apply Nat.lt_of_mul_lt_mul_left (a := C.binaryBlockSize)
      rw [Nat.mul_succ, Nat.mul_succ]
      omega
    · apply Nat.lt_of_mul_lt_mul_left (a := C.binaryBlockSize)
      omega

theorem padded_count (n : Nat) :
    symbolCount w n + (C.encodedBlockSize - symbolCount w n % C.encodedBlockSize) %
        C.encodedBlockSize =
      (n + (C.binaryBlockSize - 1)) / C.binaryBlockSize * C.encodedBlockSize := by
  have hb := C.binary_pos
  have hB := hC.encoded_pos
  have hdiv := Nat.div_add_mod n C.binaryBlockSize
  have hmod := Nat.mod_lt n hb
  have hcount := symbolCount_add hC.width_pos hC.block_bits (n / C.binaryBlockSize)
    (n % C.binaryBlockSize)
  rw [hdiv] at hcount
  rcases Nat.eq_zero_or_pos (n % C.binaryBlockSize) with hzero | hpos
  · have hround : (n + (C.binaryBlockSize - 1)) / C.binaryBlockSize = n / C.binaryBlockSize := by
      apply Nat.div_eq_of_lt_le
      · rw [Nat.mul_comm]
        omega
      · rw [Nat.mul_comm, Nat.mul_succ]
        omega
    rw [hzero, symbolCount_zero hC.width_pos, Nat.add_zero] at hcount
    rw [hcount, Nat.mul_mod_right, Nat.sub_zero, Nat.mod_self, hround]
    exact Nat.mul_comm _ _
  · have hround : (n + (C.binaryBlockSize - 1)) / C.binaryBlockSize = n / C.binaryBlockSize + 1 := by
      apply Nat.div_eq_of_lt_le
      · rw [Nat.mul_comm, Nat.mul_succ]
        omega
      · rw [Nat.mul_comm, Nat.mul_succ, Nat.mul_succ]
        omega
    have hsymbols := symbolCount_lt hC.width_pos hC.width_le hC.block_bits hmod
    have hsome := symbolCount_pos hC.width_pos hpos
    have hlast : symbolCount w n % C.encodedBlockSize = symbolCount w (n % C.binaryBlockSize) := by
      rw [hcount, Nat.mul_add_mod, Nat.mod_eq_of_lt hsymbols]
    rw [hlast, Nat.mod_eq_of_lt (by omega), hround, hcount, Nat.add_mul, Nat.mul_comm]
    omega

theorem length_encoded (b : Bytes) :
    (encoded C V w b).length = if V.generatesPadding then
      (b.length + (C.binaryBlockSize - 1)) / C.binaryBlockSize * C.encodedBlockSize
    else b.length * C.encodedBlockSize / C.binaryBlockSize +
      if b.length * C.encodedBlockSize % C.binaryBlockSize = 0 then 0 else 1 := by
  rw [encoded, List.length_append, length_symbols, length_regroup, length_paddingOf]
  split_ifs with hpadding hzero
  · exact padded_count hC b.length
  · rw [Nat.add_zero, symbolCount_eq hC, if_pos hzero]
  · rw [Nat.add_zero, symbolCount_eq hC, if_neg hzero]

end Encoded

section Decoded

theorem length_digits_add (text : Bytes) :
    (V.digits text).length + (V.untilEof (text.dropWhile V.reads)).length ≤ text.length := by
  have hdigits : (V.digits text).length ≤ (text.takeWhile V.reads).length := by
    rw [CodecVariant.digits, List.length_map]
    exact List.length_filter_le _ _
  have hrest : (V.untilEof (text.dropWhile V.reads)).length ≤ (text.dropWhile V.reads).length :=
    (List.takeWhile_prefix _).length_le
  have hsplit := congrArg List.length (List.takeWhile_append_dropWhile (p := V.reads) (l := text))
  rw [List.length_append] at hsplit
  omega

include hC

theorem padded_blocks {text : Bytes} (hrequires : V.requiresPadding = true)
    (h : decodeOutcome C V w lengthError text = .ok ()) :
    ∃ q, (V.digits text).length ≤ C.encodedBlockSize * q ∧
      C.encodedBlockSize * q ≤ text.length := by
  have hlength := length_digits_add (V := V) text
  have hdiv := Nat.div_add_mod (V.digits text).length C.encodedBlockSize
  have hmod := Nat.mod_lt (V.digits text).length hC.encoded_pos
  rw [decodeOutcome, outcome] at h
  split at h
  · split_ifs at h with hzero
    exact ⟨(V.digits text).length / C.encodedBlockSize, by omega, by omega⟩
  · next c padding hrest =>
    rw [hrest, List.length_cons] at hlength
    split_ifs at h with hinvalid hfull
    obtain ⟨-, -, hsum⟩ := hfull
    refine ⟨(V.digits text).length / C.encodedBlockSize + 1, ?_, ?_⟩
    · rw [Nat.mul_succ]
      omega
    · rw [Nat.mul_succ]
      omega

theorem width_mul_div (n : Nat) : n * C.binaryBlockSize / C.encodedBlockSize = w * n / 8 := by
  calc n * C.binaryBlockSize / C.encodedBlockSize
      = 8 * (n * C.binaryBlockSize) / (8 * C.encodedBlockSize) :=
        (Nat.mul_div_mul_left _ _ (by norm_num)).symm
    _ = w * n * C.encodedBlockSize / (8 * C.encodedBlockSize) := by
        congr 1
        calc 8 * (n * C.binaryBlockSize) = n * (8 * C.binaryBlockSize) := by ring
          _ = w * n * C.encodedBlockSize := by rw [← hC.block_bits]; ring
    _ = w * n / 8 := Nat.mul_div_mul_right _ _ hC.encoded_pos

/-- The decoder puts no more bytes than the size it announces, also when it fails. -/
theorem length_decoded_le (text : Bytes) :
    (decoded C V w lengthError text).length ≤ if V.requiresPadding then
      text.length / C.encodedBlockSize * C.binaryBlockSize
    else text.length * C.binaryBlockSize / C.encodedBlockSize := by
  have hlength := length_digits_add (V := V) text
  have hdigits : (V.digits text).length ≤ text.length := by omega
  have hblocks : text.length / C.encodedBlockSize * C.binaryBlockSize ≤
      text.length * C.binaryBlockSize / C.encodedBlockSize := by
    rw [Nat.mul_comm, Nat.mul_comm text.length]
    exact Nat.mul_div_le_mul_div_assoc _ _ _
  rw [decoded]
  rcases h : decodeOutcome C V w lengthError text with e | _
  · have hwhole : C.binaryBlockSize * ((V.digits text).length / C.encodedBlockSize) ≤
        text.length / C.encodedBlockSize * C.binaryBlockSize := by
      rw [Nat.mul_comm]
      exact Nat.mul_le_mul_right _ (Nat.div_le_div_right hdigits)
    rw [written, length_bytesOf, length_regroup]
    split_ifs
    · exact hwhole
    · exact hwhole.trans hblocks
  · rw [written, length_bytesOf, length_regroup]
    split_ifs with hrequires
    · obtain ⟨q, hle, hq⟩ := padded_blocks hC hrequires h
      have hbytes : w * (V.digits text).length / 8 ≤ C.binaryBlockSize * q := by
        apply Nat.div_le_of_le_mul
        calc w * (V.digits text).length ≤ w * (C.encodedBlockSize * q) := Nat.mul_le_mul_left _ hle
          _ = 8 * (C.binaryBlockSize * q) := by rw [← Nat.mul_assoc, hC.block_bits, Nat.mul_assoc]
      have hcount : q ≤ text.length / C.encodedBlockSize :=
        (Nat.le_div_iff_mul_le hC.encoded_pos).2 (by rwa [Nat.mul_comm])
      calc w * (V.digits text).length / 8 ≤ C.binaryBlockSize * q := hbytes
        _ ≤ text.length / C.encodedBlockSize * C.binaryBlockSize := by
            rw [Nat.mul_comm]
            exact Nat.mul_le_mul_right _ hcount
    · rw [width_mul_div hC]
      exact Nat.div_le_div_right (Nat.mul_le_mul_left w hdigits)

end Decoded

namespace Codec

variable (K : Codec)

theorem blockSize_le : K.block.binaryBlockSize ≤ K.block.encodedBlockSize ∧
    K.block.encodedBlockSize ≤ 8 := by
  cases K <;> decide

theorem toNat_ofNat (h : n < 2 ^ 64) : (UInt64.ofNat n).toNat = n := UInt64.toNat_ofNat_of_lt' h

theorem toNat_mul {x y : UInt64} (h : x.toNat * y.toNat < 2 ^ 64) :
    (x * y).toNat = x.toNat * y.toNat := by rw [UInt64.toNat_mul, Nat.mod_eq_of_lt h]

theorem toNat_add {x y : UInt64} (h : x.toNat + y.toNat < 2 ^ 64) :
    (x + y).toNat = x.toNat + y.toNat := by rw [UInt64.toNat_add, Nat.mod_eq_of_lt h]

theorem toNat_padded {x b e : UInt64} (hb : 0 < b.toNat) (he : 0 < e.toNat)
    (h : (x.toNat + b.toNat) * e.toNat < 2 ^ 64) :
    ((x + (b - 1) - (x + (b - 1)) % b) * e / b).toNat =
      (x.toNat + (b.toNat - 1)) / b.toNat * e.toNat := by
  have hone : (1 : UInt64) ≤ b := UInt64.le_iff_toNat_le.2 hb
  have hpred : (b - 1).toNat = b.toNat - 1 := UInt64.toNat_sub_of_le b 1 hone
  have hsmall : x.toNat + b.toNat < 2 ^ 64 := (Nat.le_mul_of_pos_right _ he).trans_lt h
  have hsum : (x + (b - 1)).toNat = x.toNat + (b.toNat - 1) := by
    rw [toNat_add (by omega), hpred]
  have hle : (x + (b - 1)) % b ≤ x + (b - 1) := by
    rw [UInt64.le_iff_toNat_le, UInt64.toNat_mod]
    exact Nat.mod_le _ _
  have hdiv := Nat.div_add_mod (x.toNat + (b.toNat - 1)) b.toNat
  have hround : (x + (b - 1) - (x + (b - 1)) % b).toNat =
      b.toNat * ((x.toNat + (b.toNat - 1)) / b.toNat) := by
    rw [UInt64.toNat_sub_of_le _ _ hle, UInt64.toNat_mod, hsum]
    omega
  have hfits : b.toNat * ((x.toNat + (b.toNat - 1)) / b.toNat) * e.toNat < 2 ^ 64 :=
    (Nat.mul_le_mul_right _ (by omega)).trans_lt h
  rw [UInt64.toNat_div, toNat_mul (by rwa [hround]), hround, Nat.mul_assoc,
    Nat.mul_div_cancel_left _ hb]

/-- The size without padding: the last symbol counts whole. -/
theorem toNat_unpadded {x b e : UInt64} (h : x.toNat * e.toNat + 1 < 2 ^ 64) :
    (x * e / b + if x * e % b = 0 then 0 else 1).toNat =
      x.toNat * e.toNat / b.toNat + if x.toNat * e.toNat % b.toNat = 0 then 0 else 1 := by
  have hmul : (x * e).toNat = x.toNat * e.toNat := toNat_mul (by omega)
  have hdiv : (x * e / b).toNat = x.toNat * e.toNat / b.toNat := by rw [UInt64.toNat_div, hmul]
  have hmod : (x * e % b).toNat = x.toNat * e.toNat % b.toNat := by rw [UInt64.toNat_mod, hmul]
  have hle := Nat.div_le_self (x.toNat * e.toNat) b.toNat
  have hzero : x * e % b = 0 ↔ x.toNat * e.toNat % b.toNat = 0 := by
    rw [← UInt64.toNat_inj, hmod, UInt64.toNat_zero]
  by_cases hexact : x * e % b = 0
  · rw [if_pos hexact, if_pos (hzero.1 hexact), UInt64.add_zero, hdiv, Nat.add_zero]
  · rw [if_neg hexact, if_neg (mt hzero.2 hexact), toNat_add (by rw [hdiv, UInt64.toNat_one]; omega),
      hdiv, UInt64.toNat_one]

theorem toNat_blocks {x b e : UInt64} (hle : b.toNat ≤ e.toNat) :
    (x / e * b).toNat = x.toNat / e.toNat * b.toNat := by
  have hsmall : x.toNat / e.toNat * b.toNat < 2 ^ 64 := by
    have hround := Nat.div_mul_le_self x.toNat e.toNat
    exact ((Nat.mul_le_mul_left _ hle).trans hround).trans_lt x.toNat_lt
  rw [toNat_mul (by rwa [UInt64.toNat_div]), UInt64.toNat_div]

theorem toNat_symbols {x b e : UInt64} (hb : 0 < b.toNat) (hle : b.toNat ≤ e.toNat)
    (hsmall : e.toNat ≤ 8) :
    (x / e * b + x % e * b / e).toNat = x.toNat * b.toNat / e.toNat := by
  have he : 0 < e.toNat := by omega
  have hdiv := Nat.div_add_mod x.toNat e.toNat
  have hmod := Nat.mod_lt x.toNat he
  have hsplit : x.toNat * b.toNat / e.toNat =
      x.toNat / e.toNat * b.toNat + x.toNat % e.toNat * b.toNat / e.toNat := by
    conv_lhs => rw [← hdiv, Nat.add_mul, Nat.mul_assoc, Nat.mul_add_div he]
  have hproduct : x.toNat % e.toNat * b.toNat ≤ 8 * 8 :=
    Nat.mul_le_mul (by omega) (by omega)
  have hmul : (x % e * b).toNat = x.toNat % e.toNat * b.toNat := by
    rw [toNat_mul (by rw [UInt64.toNat_mod]; omega), UInt64.toNat_mod]
  have hbound : x.toNat * b.toNat / e.toNat ≤ x.toNat :=
    Nat.div_le_of_le_mul (by rw [Nat.mul_comm e.toNat]; exact Nat.mul_le_mul_left _ hle)
  have hx := x.toNat_lt
  have hblocks := toNat_blocks (x := x) hle
  rw [toNat_add (by rw [hblocks, UInt64.toNat_div, hmul]; omega), hblocks, UInt64.toNat_div, hmul,
    hsplit]

/-- `encoded_size` is right where its product does not wrap around. -/
theorem encodedSize_eq (b : Bytes)
    (h : (b.length + K.block.binaryBlockSize) * K.block.encodedBlockSize < 2 ^ 64) :
    (encodedSize K.block K.variant (UInt64.ofNat b.length)).toNat = (K.encoded b).length := by
  obtain ⟨hle, hsmall⟩ := K.blockSize_le
  have hb := K.block.binary_pos
  have he := K.lawfulBlock.encoded_pos
  have hbToNat := toNat_ofNat (n := K.block.binaryBlockSize) (by omega)
  have heToNat := toNat_ofNat (n := K.block.encodedBlockSize) (by omega)
  have hn : b.length < 2 ^ 64 := by
    have hsum := (Nat.le_mul_of_pos_right (b.length + K.block.binaryBlockSize) he).trans_lt h
    omega
  have hnToNat := toNat_ofNat hn
  rw [encodedSize, encoded, length_encoded K.lawfulBlock]
  split
  · rw [toNat_padded (by rwa [hbToNat]) (by rwa [heToNat]) (by rwa [hnToNat, hbToNat, heToNat]),
      hnToNat, hbToNat, heToNat]
  · have hproduct : b.length * K.block.encodedBlockSize + 1 < 2 ^ 64 := by
      have hpos := Nat.mul_pos hb he
      rw [Nat.add_mul] at h
      omega
    rw [toNat_unpadded (by rwa [hnToNat, heToNat]), hnToNat, hbToNat, heToNat]

theorem decodedMaxSize_eq (text : Bytes) (h : text.length < 2 ^ 64) :
    (decodedMaxSize K.block K.variant (UInt64.ofNat text.length)).toNat =
      if K.variant.requiresPadding then
        text.length / K.block.encodedBlockSize * K.block.binaryBlockSize
      else text.length * K.block.binaryBlockSize / K.block.encodedBlockSize := by
  obtain ⟨hle, hsmall⟩ := K.blockSize_le
  have hb := K.block.binary_pos
  have hbToNat := toNat_ofNat (n := K.block.binaryBlockSize) (by omega)
  have heToNat := toNat_ofNat (n := K.block.encodedBlockSize) (by omega)
  rw [decodedMaxSize]
  split
  · rw [toNat_blocks (by rwa [hbToNat, heToNat]), toNat_ofNat h, hbToNat, heToNat]
  · rw [toNat_symbols (by rwa [hbToNat]) (by rwa [hbToNat, heToNat]) (by rwa [heToNat]),
      toNat_ofNat h, hbToNat, heToNat]

/-- The decoder puts no more bytes than `decoded_max_size` announces, also when it fails. -/
theorem decoded_fits (text : Bytes) (h : text.length < 2 ^ 64) :
    (K.decoded text).length ≤
      (decodedMaxSize K.block K.variant (UInt64.ofNat text.length)).toNat := by
  rw [K.decodedMaxSize_eq text h]
  exact length_decoded_le K.lawfulBlock text

end Codec

end Cppcodec
