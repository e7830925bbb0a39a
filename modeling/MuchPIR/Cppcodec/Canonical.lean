import MuchPIR.Cppcodec.Result

namespace Cppcodec
open Prog Regroup
set_option autoImplicit true

variable {C : BlockCodec} {V : CodecVariant} {w : Nat} {lengthError : Nat → String}
  (hC : LawfulBlock C w lengthError) (hV : LawfulVariant V w)

include hV in
theorem symbols_injOn {ds es : List Nat} (hds : ∀ d ∈ ds, d < 2 ^ w) (hes : ∀ e ∈ es, e < 2 ^ w)
    (h : V.symbols ds = V.symbols es) : ds = es := by
  have hback (xs : List Nat) (hxs : ∀ x ∈ xs, x < 2 ^ w) : (V.symbols xs).map V.lookup = xs := by
    rw [CodecVariant.symbols, List.map_map]
    exact (List.map_congr_left fun x hx => (hV.symbol_read x (hxs x hx)).1).trans (List.map_id xs)
  rw [← hback ds hds, ← hback es hes, h]

include hC in
theorem symbolCount_of_ok {text : Bytes} (h : decodeOutcome C V w lengthError text = .ok ()) :
    symbolCount w (w * (V.digits text).length / 8) = (V.digits text).length := by
  have htail : tailOutcome w lengthError ((V.digits text).length % C.encodedBlockSize) = .ok () := by
    rw [decodeOutcome, outcome] at h
    split at h
    · split_ifs at h with hzero
      · rw [hzero, tailOutcome, Nat.mul_zero, Nat.zero_div, symbolCount_zero hC.width_pos, if_pos rfl]
      · exact h
    · split_ifs at h
      exact h
  generalize (V.digits text).length = m at htail ⊢
  have hdiv := Nat.div_add_mod m C.encodedBlockSize
  have hbits : w * m = 8 * (C.binaryBlockSize * (m / C.encodedBlockSize)) +
      w * (m % C.encodedBlockSize) := by
    conv_lhs => rw [← hdiv, Nat.mul_add, ← Nat.mul_assoc, hC.block_bits, Nat.mul_assoc]
  rw [tailOutcome] at htail
  split_ifs at htail with hcount
  rw [hbits, Nat.mul_add_div (by norm_num), symbolCount_add hC.width_pos hC.block_bits, hcount, hdiv]

include hC hV

theorem encoded_decoded_iff {text : Bytes} (h : decodeOutcome C V w lengthError text = .ok ()) :
    encoded C V w (decoded C V w lengthError text) =
        V.symbols (V.digits text) ++ paddingOf C V (V.digits text).length ↔
      ∀ p, 8 * (w * (V.digits text).length / 8) ≤ p → p < w * (V.digits text).length →
        bitAt w (V.digits text) p = false := by
  have hcount := symbolCount_of_ok hC h
  have hlt : ∀ d ∈ V.digits text, d < 2 ^ w := fun d hd => digits_lt hV hd
  have hbytes (d : Nat) (hd : d ∈ regroup w 8 (w * (V.digits text).length / 8) (V.digits text)) :
      d < 2 ^ 8 := regroup_lt hd
  rw [decoded, h, written, encoded, length_bytesOf, length_regroup, hcount, digitsOf_bytesOf hbytes,
    List.append_left_inj, ← regroup_regroup_eq_iff hC.width_pos (by norm_num) hlt]
  constructor
  · intro hsymbols
    exact symbols_injOn hV (fun d hd => regroup_lt hd) hlt hsymbols
  · intro hdigits
    rw [hdigits]

theorem exists_encoded_iff (text : Bytes) :
    (∃ b, encoded C V w b = text) ↔
      decodeOutcome C V w lengthError text = .ok () ∧
      text = V.symbols (V.digits text) ++ paddingOf C V (V.digits text).length ∧
      ∀ p, 8 * (w * (V.digits text).length / 8) ≤ p → p < w * (V.digits text).length →
        bitAt w (V.digits text) p = false := by
  constructor
  · rintro ⟨b, rfl⟩
    obtain ⟨hok, hback⟩ := decoded_encoded hC hV b
    have hiff := encoded_decoded_iff hC hV hok
    obtain ⟨hdigits, -⟩ := digits_encoded hC hV b
    have htext : encoded C V w b = V.symbols (V.digits (encoded C V w b)) ++
        paddingOf C V (V.digits (encoded C V w b)).length := by
      rw [hdigits, length_regroup]
      rfl
    rw [hback] at hiff
    exact ⟨hok, htext, hiff.1 htext⟩
  · rintro ⟨hok, htext, hbits⟩
    refine ⟨decoded C V w lengthError text, ?_⟩
    rw [(encoded_decoded_iff hC hV hok).2 hbits]
    exact htext.symm

omit hC hV

theorem regroup_of_bytesOf_eq {ds es : List Nat}
    (h : bytesOf (regroup u 8 n ds) = bytesOf (regroup v 8 m es)) :
    regroup u 8 n ds = regroup v 8 m es := by
  rw [← digitsOf_bytesOf fun d (hd : d ∈ regroup u 8 n ds) => regroup_lt hd, h,
    digitsOf_bytesOf fun d (hd : d ∈ regroup v 8 m es) => regroup_lt hd]

namespace Codec

variable (K : Codec)

/-- The texts that the encoder writes: the decoder reads them, they have the symbols of the encoder
and its padding, and their unused bits are zero. -/
theorem encoding_iff (text : Bytes) :
    (∃ b, encode K.block K.variant container.put b [] = (.ok (), text)) ↔
      K.outcome text = .ok () ∧
      text = K.variant.symbols (K.variant.digits text) ++
        paddingOf K.block K.variant (K.variant.digits text).length ∧
      ∀ p, 8 * (K.width * (K.variant.digits text).length / 8) ≤ p →
        p < K.width * (K.variant.digits text).length →
        bitAt K.width (K.variant.digits text) p = false := by
  rw [outcome, ← exists_encoded_iff K.lawfulBlock K.lawfulVariant]
  apply exists_congr
  intro b
  have hput : putAll container.put (K.encoded b) [] = (.ok (), K.encoded b) :=
    (container_receives (K.encoded b).length).putAll_eq (by rw [List.length_nil, Nat.zero_add])
  rw [encoded] at hput
  rw [encode_eq K.lawfulBlock K.lawfulVariant, hput]
  exact ⟨fun h => congrArg Prod.snd h, fun h => congrArg (Prod.mk _) h⟩

/-- Two texts that are read have the same bytes where they have as many digits and differ in unused
bits only. -/
theorem decoded_eq_iff {text text' : Bytes} (h : K.outcome text = .ok ())
    (h' : K.outcome text' = .ok ()) :
    K.decoded text = K.decoded text' ↔
      (K.variant.digits text).length = (K.variant.digits text').length ∧
      ∀ p < 8 * (K.width * (K.variant.digits text).length / 8),
        bitAt K.width (K.variant.digits text) p = bitAt K.width (K.variant.digits text') p := by
  have hcount := symbolCount_of_ok K.lawfulBlock h
  have hcount' := symbolCount_of_ok K.lawfulBlock h'
  have hbytes : K.decoded text = bytesOf (regroup K.width 8
      (K.width * (K.variant.digits text).length / 8) (K.variant.digits text)) := by
    rw [decoded, Cppcodec.decoded, ← outcome, h, written]
  have hbytes' : K.decoded text' = bytesOf (regroup K.width 8
      (K.width * (K.variant.digits text').length / 8) (K.variant.digits text')) := by
    rw [decoded, Cppcodec.decoded, ← outcome, h', written]
  rw [hbytes, hbytes', ← regroup_eq_iff (by norm_num)]
  constructor
  · intro heq
    have hregroup := regroup_of_bytesOf_eq heq
    have hlength := congrArg List.length hregroup
    rw [length_regroup, length_regroup] at hlength
    rw [hlength, hcount'] at hcount
    exact ⟨hcount.symm, by rw [hregroup, hlength]⟩
  · rintro ⟨hlength, hregroup⟩
    rw [hregroup, hlength]

theorem decoded_eq_unused_bit :
    base64Rfc4648.decoded (chars ['Q', 'Q', '=', '=']) =
      base64Rfc4648.decoded (chars ['Q', 'R', '=', '=']) :=
  (decoded_eq_iff .base64Rfc4648 (by decide +kernel) (by decide +kernel)).2
    ⟨by decide +kernel, by decide +kernel⟩

end Codec

end Cppcodec
