import MuchPIR.Cppcodec.Stream

namespace Cppcodec
open Prog Regroup
set_option autoImplicit true

section PutAll

variable (put : Sink ω)

theorem putAll_append (xs ys : Bytes) :
    putAll put (xs ++ ys) = putAll put xs >>= fun _ => putAll put ys := by
  induction xs with
  | nil => rfl
  | cons x xs ih => rw [List.cons_append, putAll, putAll, ih, bind_assoc]

theorem forRange_put (c : UInt8) (lo count : Nat) :
    forRange lo count (fun _ _ => put c) () = putAll put (List.replicate count c) := by
  induction count generalizing lo with
  | zero => rfl
  | succ count ih =>
    rw [forRange, List.replicate_succ, putAll, ← ih (lo + 1)]

end PutAll

section Count

variable {w b : Nat}

theorem symbolCount_add (hw : 0 < w) (hbits : w * k = 8 * b) (n r : Nat) :
    symbolCount w (b * n + r) = k * n + symbolCount w r := by
  have hsum : 8 * (b * n + r) + w - 1 = 8 * r + w - 1 + w * (k * n) := by
    rw [← mul_assoc w, hbits, mul_add, mul_assoc 8 b n]
    omega
  rw [symbolCount, hsum, Nat.add_mul_div_left _ _ hw, symbolCount, Nat.add_comm]

theorem symbolCount_zero (hw : 0 < w) : symbolCount w 0 = 0 := Nat.div_eq_of_lt (by omega)

theorem symbolCount_pos (hw : 0 < w) (hn : 0 < n) : 0 < symbolCount w n :=
  Nat.div_pos (by omega) hw

/-- The bytes fit in their symbols, and all symbols but the last are full. -/
theorem symbolCount_spec (hw : 0 < w) (n : Nat) :
    8 * n ≤ w * symbolCount w n ∧ w * symbolCount w n < 8 * n + w := by
  have hdiv := Nat.div_add_mod (8 * n + w - 1) w
  have hmod := Nat.mod_lt (8 * n + w - 1) hw
  rw [symbolCount]
  omega

/-- The bytes of the symbols that `n` bytes take. -/
theorem mul_symbolCount_div (hw : 0 < w) (hle : w ≤ 8) (n : Nat) :
    w * symbolCount w n / 8 = n := by
  obtain ⟨hle', hlt⟩ := symbolCount_spec hw n
  omega

theorem symbolCount_lt (hw : 0 < w) (hle : w ≤ 8) (hbits : w * k = 8 * b) (h : n < b) :
    symbolCount w n < k := by
  obtain ⟨-, hlt⟩ := symbolCount_spec hw n
  have hmul : w * symbolCount w n < w * k := by omega
  exact Nat.lt_of_mul_lt_mul_left hmul

end Count

section Written

variable (C : BlockCodec) (V : CodecVariant) (w : Nat)

def CodecVariant.symbols (ds : List Nat) : Bytes := ds.map fun d => V.alphabet.getD d 0

/-- The padding behind `n` symbols. -/
def paddingOf (n : Nat) : Bytes :=
  V.paddingSymbol.toList.flatMap (List.replicate ((C.encodedBlockSize - n % C.encodedBlockSize) %
    C.encodedBlockSize))

/-- The text of `b`: its bits in symbols of `w` bits, filled up with zeros, and padding. -/
def encoded (b : Bytes) : Bytes :=
  V.symbols (regroup 8 w (symbolCount w b.length) (digitsOf b)) ++
    paddingOf C V (symbolCount w b.length)

end Written

section Encode

variable {C : BlockCodec} {V : CodecVariant} {w : Nat} {message : Nat → String}
  (hC : LawfulBlock C w message) (hV : LawfulVariant V w) (put : Sink ω)

include hV in
theorem symbol_eq (h : d < 2 ^ w) : V.symbol d = .ok (V.alphabet.getD d 0) := by
  rw [← hV.alphabet_length] at h
  rw [CodecVariant.symbol, fetch, List.getElem?_eq_getElem h, List.getD_eq_getElem _ _ h]

theorem length_digitsOf (b : Bytes) : (digitsOf b).length = b.length := List.length_map _

theorem digitsOf_drop (k : Nat) (b : Bytes) : digitsOf (b.drop k) = (digitsOf b).drop k :=
  List.map_drop

theorem symbols_append (xs ys : List Nat) :
    V.symbols (xs ++ ys) = V.symbols xs ++ V.symbols ys := List.map_append

theorem putAll_symbols_cons (d : Nat) (ds : List Nat) :
    putAll put (V.symbols (d :: ds)) = put (V.alphabet.getD d 0) >>= fun _ =>
      putAll put (V.symbols ds) := rfl

theorem putAll_paddingOf (hB : 0 < C.encodedBlockSize) (h : 0 < n % C.encodedBlockSize) :
    putAll put (paddingOf C V n) = pad V put (C.encodedBlockSize - n % C.encodedBlockSize) := by
  have hmod : (C.encodedBlockSize - n % C.encodedBlockSize) % C.encodedBlockSize =
      C.encodedBlockSize - n % C.encodedBlockSize := Nat.mod_eq_of_lt (Nat.sub_lt hB h)
  rw [paddingOf, pad, hmod]
  rcases V.paddingSymbol with _ | c
  · rfl
  · rw [Option.toList_some, List.flatMap_singleton]
    exact (forRange_put put c 0 _).symm

theorem paddingOf_of_dvd (h : n % C.encodedBlockSize = 0) : paddingOf C V n = [] := by
  rw [paddingOf, h, Nat.sub_zero, Nat.mod_self]
  rcases V.paddingSymbol with _ | c
  · rfl
  · rfl

include hC

theorem encoded_split (src : Bytes) :
    encoded C V w src =
      V.symbols (regroup 8 w (C.encodedBlockSize * (src.length / C.binaryBlockSize))
        (digitsOf src)) ++
      encoded C V w (src.drop (C.binaryBlockSize * (src.length / C.binaryBlockSize))) := by
  have hdiv := Nat.div_add_mod src.length C.binaryBlockSize
  have hdrop : (src.drop (C.binaryBlockSize * (src.length / C.binaryBlockSize))).length =
      src.length % C.binaryBlockSize := by
    rw [List.length_drop]
    omega
  have hcount : symbolCount w src.length = C.encodedBlockSize * (src.length / C.binaryBlockSize) +
      symbolCount w (src.length % C.binaryBlockSize) := by
    have h := symbolCount_add hC.width_pos hC.block_bits (src.length / C.binaryBlockSize)
      (src.length % C.binaryBlockSize)
    rwa [hdiv] at h
  have hbits : 8 * (C.binaryBlockSize * (src.length / C.binaryBlockSize)) =
      w * (C.encodedBlockSize * (src.length / C.binaryBlockSize)) := by
    rw [← mul_assoc, ← hC.block_bits, mul_assoc]
  have hpadding : paddingOf C V (symbolCount w src.length) =
      paddingOf C V (symbolCount w (src.length % C.binaryBlockSize)) := by
    rw [paddingOf, paddingOf, hcount, Nat.mul_add_mod]
  rw [encoded, encoded, hdrop, hpadding, hcount, digitsOf_drop, ← List.append_assoc,
    ← symbols_append]
  congr 2
  exact regroup_split (by norm_num) (by rw [length_digitsOf]; omega) hbits _

include hV

theorem encBlock_eq (hI : I ≤ C.encodedBlockSize) (h : w * I ≤ 8 * src.length) :
    encBlock C V put src I = putAll put (V.symbols (regroup 8 w I (digitsOf src))) := by
  induction I with
  | zero => rfl
  | succ I ih =>
    have hle : w * I ≤ 8 * src.length := (Nat.mul_le_mul_left w (Nat.le_succ I)).trans h
    rw [encBlock, ih (by omega) hle, hC.index_eq hI h, lift_ok_bind,
      symbol_eq hV (digitAt_lt _ _ _), lift_ok_bind, regroup_succ, symbols_append, putAll_append,
      putAll_symbols_cons]
    exact congrArg _ (funext fun _ => (bind_pure_unit ..).symm)

theorem encTail_eq (hpos : 0 < src.length) (hlt : src.length < C.binaryBlockSize)
    (hI : I ≤ C.encodedBlockSize) (hk : C.encodedBlockSize - I < symbolCount w src.length) :
    encTail C V put src (symbolCount w src.length) I = putAll put (V.symbols
      ((regroup 8 w (symbolCount w src.length) (digitsOf src)).drop (C.encodedBlockSize - I))) := by
  have hcount := symbolCount_lt hC.width_pos hC.width_le hC.block_bits hlt
  induction I with
  | zero => omega
  | succ I ih =>
    rw [encTail, drop_regroup hk, putAll_symbols_cons]
    split
    · next hlast =>
      -- the last symbol of the tail
      have hindex : C.encodedBlockSize - (I + 1) = symbolCount w src.length - 1 := by omega
      rw [hindex, hC.indexLast_eq hpos hlt, lift_ok_bind, symbol_eq hV (digitAt_lt _ _ _),
        lift_ok_bind, List.drop_eq_nil_of_le (by rw [length_regroup]; omega)]
      exact (bind_pure_unit ..).symm
    · next hmore =>
      have hbits : w * (C.encodedBlockSize - (I + 1) + 1) ≤ 8 * src.length := by
        obtain ⟨-, hfull⟩ := symbolCount_spec hC.width_pos src.length
        have hmul := Nat.mul_le_mul_left w
          (by omega : C.encodedBlockSize - (I + 1) + 1 + 1 ≤ symbolCount w src.length)
        rw [Nat.mul_succ] at hmul
        omega
      have hnext : C.encodedBlockSize - (I + 1) + 1 = C.encodedBlockSize - I := by omega
      rw [hC.index_eq (by omega) hbits, lift_ok_bind, symbol_eq hV (digitAt_lt _ _ _),
        lift_ok_bind, hnext, ih (by omega) (by omega)]

theorem encodeBlocks_eq (h : C.binaryBlockSize * n ≤ src.length) :
    encodeBlocks C V put n src =
      putAll put (V.symbols (regroup 8 w (C.encodedBlockSize * n) (digitsOf src))) >>=
        fun _ => pure (src.drop (C.binaryBlockSize * n)) := by
  induction n generalizing src with
  | zero => rfl
  | succ n ih =>
    rw [Nat.mul_succ] at h
    have hblock : w * C.encodedBlockSize ≤ 8 * src.length := by
      rw [hC.block_bits]
      omega
    have hrest : C.binaryBlockSize * n ≤ (src.drop C.binaryBlockSize).length := by
      rw [List.length_drop]
      omega
    have hsplit : regroup 8 w (C.encodedBlockSize * (n + 1)) (digitsOf src) =
        regroup 8 w C.encodedBlockSize (digitsOf src) ++
          regroup 8 w (C.encodedBlockSize * n) (digitsOf (src.drop C.binaryBlockSize)) := by
      rw [Nat.mul_succ, Nat.add_comm, digitsOf_drop]
      exact regroup_split (by norm_num) (by rw [length_digitsOf]; omega) hC.block_bits.symm _
    rw [encodeBlocks, encBlock_eq hC hV put le_rfl hblock, ih hrest, hsplit, symbols_append,
      putAll_append, bind_assoc, List.drop_drop, Nat.mul_succ, Nat.add_comm]

/-- The encoder writes the text. It reads no byte outside of the input and does not abort. -/
theorem encode_eq (src : Bytes) : encode C V put src = putAll put (encoded C V w src) := by
  have hb := C.binary_pos
  have hdiv := Nat.div_add_mod src.length C.binaryBlockSize
  have hmod := Nat.mod_lt src.length hb
  rw [encode, encodeBlocks_eq hC hV put (by omega), bind_assoc, pure_bind,
    encoded_split (V := V) hC src, putAll_append]
  congr 1
  funext _
  have hlt : (src.drop (C.binaryBlockSize * (src.length / C.binaryBlockSize))).length <
      C.binaryBlockSize := by
    rw [List.length_drop]
    omega
  generalize src.drop (C.binaryBlockSize * (src.length / C.binaryBlockSize)) = rest at hlt
  rcases Nat.eq_zero_or_pos rest.length with hzero | hpos
  · rw [if_pos hzero, encoded, hzero, symbolCount_zero hC.width_pos,
      paddingOf_of_dvd (Nat.zero_mod _)]
    rfl
  · have hcount := symbolCount_lt hC.width_pos hC.width_le hC.block_bits hlt
    have hmod : symbolCount w rest.length % C.encodedBlockSize = symbolCount w rest.length :=
      Nat.mod_eq_of_lt hcount
    have hpadding := putAll_paddingOf (V := V) put hC.encoded_pos
      (hmod.symm ▸ symbolCount_pos hC.width_pos hpos)
    have htail := encTail_eq hC hV put hpos hlt le_rfl
      (by rw [Nat.sub_self]; exact symbolCount_pos hC.width_pos hpos)
    rw [if_neg hpos.ne', if_neg (by omega), hC.tail_eq hpos hlt, lift_ok_bind, htail, Nat.sub_self,
      List.drop_zero, encoded, putAll_append, hpadding, hmod]

end Encode

end Cppcodec
