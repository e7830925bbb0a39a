import MuchPIR.CharPointer

namespace MuchPIR
open Prog Machine HexPoly Polynomial
set_option autoImplicit true

variable {uintToHexString : List Nat → List Char} {malloc : Memory}

section Words

/-- The bytes of the string that are read as words: without the last eight when their number is a
multiple of eight. -/
def CString.kept (s : CString) : Bytes :=
  if s.strlen % 8 = 0 then s.bytes.take (s.strlen - 8) else s.bytes

theorem lenInt_pos {s : CString} (hne : s.bytes ≠ []) : 0 < s.lenInt := by
  have hlen : 0 < s.strlen := List.length_pos_iff.2 hne
  rw [CString.lenInt]
  omega

theorem inWords_eq {s : CString} (hne : s.bytes ≠ []) :
    s.inWords = List.replicate (8 - s.strlen % 8) 0 ++ s.kept := by
  have hlen : 0 < s.strlen := List.length_pos_iff.2 hne
  have hfront : (List.replicate (8 - s.strlen % 8) (0 : UInt8)).length = 8 - s.strlen % 8 :=
    List.length_replicate
  have hwords : 8 * s.lenInt = 8 * ((s.strlen + 7) / 8) := rfl
  rw [CString.inWords, CString.kept]
  split
  · next hmod =>
    have hkeep : 8 * s.lenInt - (8 - s.strlen % 8) = s.strlen - 8 := by omega
    rw [CString.padded, List.take_append, hfront, hkeep, List.take_of_length_le]
    rw [hfront]
    omega
  · next hmod =>
    apply List.take_of_length_le
    rw [length_padded, CString.paddedSize]
    omega

theorem kept_ne_zero (s : CString) : ∀ b ∈ s.kept, b ≠ 0 := by
  intro b hb
  rw [CString.kept] at hb
  split at hb
  · exact s.noNul b (List.mem_of_mem_take hb)
  · exact s.noNul b hb

theorem toPoly_rowTerms_replicate (k : Nat) (data : Bytes) :
    toPoly (rowTerms (List.replicate k 0 ++ data)) = toPoly (rowTerms data) := by
  induction k with
  | zero => rfl
  | succ k ih =>
    rw [List.replicate_succ, List.cons_append, rowTerms, toPoly, List.map_cons, List.sum_cons,
      ← toPoly, ih]
    simp only [UInt8.toNat_zero, map_zero, zero_mul, zero_add]

theorem toPoly_rowTerms_cons (b : UInt8) (rest : Bytes) :
    toPoly (rowTerms (b :: rest)) = C b.toNat * X ^ rest.length + toPoly (rowTerms rest) := by
  rw [rowTerms, toPoly, List.map_cons, List.sum_cons, ← toPoly]

theorem coeff_toPoly_rowTerms_of_le {data : Bytes} (h : data.length ≤ k) :
    (toPoly (rowTerms data)).coeff k = 0 := by
  induction data with
  | nil => rfl
  | cons b rest ih =>
    rw [List.length_cons] at h
    rw [toPoly_rowTerms_cons, coeff_add, coeff_C_mul_X_pow, if_neg (by omega), ih (by omega)]

theorem coeff_toPoly_rowTerms_head (b : UInt8) (rest : Bytes) :
    (toPoly (rowTerms (b :: rest))).coeff rest.length = b.toNat := by
  rw [toPoly_rowTerms_cons, coeff_add, coeff_C_mul_X_pow, if_pos rfl,
    coeff_toPoly_rowTerms_of_le le_rfl, add_zero]

theorem toPoly_rowTerms_ne {data front : Bytes} (hdata : ∀ b ∈ data, b ≠ 0)
    (hlt : front.length < data.length) :
    toPoly (rowTerms front) ≠ toPoly (rowTerms data) := by
  cases data with
  | nil => exact absurd hlt (Nat.not_lt_zero _)
  | cons b rest =>
    intro heq
    have htop := coeff_toPoly_rowTerms_head b rest
    rw [← heq, coeff_toPoly_rowTerms_of_le (Nat.le_of_lt_succ hlt)] at htop
    exact hdata b List.mem_cons_self (UInt8.toNat_inj.1 htop.symm)

end Words

section Digits

/-- The digits that stand for the words of a string: two for each byte, unless the highest byte
takes only one or is a padding byte. -/
theorem dataInt_digits (hhex : PrintsHex uintToHexString) (malloc : Memory) {s : CString}
    (hne : s.bytes ≠ []) :
    ((∃ b ∈ s.kept.getLast?, 16 ≤ b.toNat) ∧
      uintToHexString (s.dataInt malloc) = s.inWords.reverse.flatMap bytePair) ∨
    ((¬∃ b ∈ s.kept.getLast?, 16 ≤ b.toNat) ∧
      (uintToHexString (s.dataInt malloc)).length < s.lenInt * 16) := by
  have hwords := length_inWords s
  have hpos := lenInt_pos hne
  rw [hhex.dataInt]
  rcases hlast : s.kept.getLast? with _ | b
  · have hzero : leNat s.inWords = 0 := by
      rw [inWords_eq hne, List.getLast?_eq_none_iff.1 hlast, List.append_nil, leNat_replicate_zero]
    refine Or.inr ⟨fun ⟨_, h, _⟩ => Option.not_mem_none _ h, ?_⟩
    rw [hzero, numeral, if_pos rfl, List.length_singleton]
    omega
  · obtain ⟨front, hkept⟩ := List.getLast?_eq_some_iff.1 hlast
    have hb : b.toNat ≠ 0 := fun h =>
      kept_ne_zero s b (List.mem_of_getLast? hlast) (UInt8.toNat_inj.1 h)
    rw [inWords_eq hne, hkept, ← List.append_assoc] at hwords ⊢
    rcases Nat.lt_or_ge b.toNat 16 with hlt | hge
    · refine Or.inr ⟨?_, ?_⟩
      · rintro ⟨c, hc, hge⟩
        cases hc
        omega
      · rw [length_numeral_leNat hb hlt]
        rw [List.length_append, List.length_singleton] at hwords
        omega
    · exact Or.inl ⟨⟨b, rfl, hge⟩, numeral_leNat hge _⟩

theorem spoilt_not_denotes (h : Spoilt text w) (p : Nat[X]) : ¬Denotes text p := by
  rintro (⟨rfl, -⟩ | ⟨ts, hts, -⟩)
  · exact List.not_mem_nil h.1
  · exact absurd (hts.isPlain _ h.1) (by decide)

end Digits

/-- The pointer version returns a text of the polynomial that the string version encodes. -/
def EncodesPointer (uintToHexString : List Nat → List Char) (malloc : Memory) (s : CString) : Prop :=
  ∃ text w, charPointerToPoly uintToHexString malloc s ⟨[], []⟩ = (.ok text, w) ∧
    Denotes text
      (∑ j ∈ Finset.range s.strlen, C (s.bytes.getD j 0).toNat * X ^ (s.strlen - 1 - j))

theorem charPointerToPoly_nil {s : CString} (hnil : s.bytes = []) :
    charPointerToPoly uintToHexString malloc s ⟨[], []⟩ = (.ok [], ⟨[], s.bufferOps⟩) := by
  have hwords : s.lenInt = 0 := by
    rw [CString.lenInt, CString.strlen, hnil]
    rfl
  change forRange 0 s.lenInt _ [] _ = _
  rw [hwords]
  rfl

theorem kept_eq {s : CString} (hmod : s.strlen % 8 ≠ 0) : s.kept = s.bytes := if_neg hmod

theorem length_kept_lt {s : CString} (hne : s.bytes ≠ []) (hmod : s.strlen % 8 = 0) :
    s.kept.length < s.bytes.length := by
  have hlen : 0 < s.bytes.length := List.length_pos_iff.2 hne
  rw [CString.kept, if_pos hmod, List.length_take, CString.strlen]
  omega

theorem getLast?_bytes {s : CString} (hne : s.bytes ≠ []) :
    s.bytes.getLast? = some (s.bytes.getD (s.strlen - 1) 0) := by
  have hlen : 0 < s.bytes.length := List.length_pos_iff.2 hne
  rw [List.getLast?_eq_getElem?, CString.strlen, List.getD_eq_getElem?_getD,
    List.getElem?_eq_getElem (by omega), Option.getD_some]

theorem encodesPointer_full {s : CString} (hne : s.bytes ≠ [])
    (hdigits : uintToHexString (s.dataInt malloc) = s.inWords.reverse.flatMap bytePair) :
    EncodesPointer uintToHexString malloc s ↔ s.strlen % 8 ≠ 0 := by
  obtain ⟨_, w, hrun, rfl, -⟩ := wp_returns (charPointerToPoly_full hdigits)
  have hwords : s.inWords ≠ [] := by
    rw [← List.length_pos_iff, length_inWords]
    have hpos := lenInt_pos hne
    omega
  have hdenotes (p : Nat[X]) : Denotes (bytesText s.inWords) p ↔ toPoly (rowTerms s.kept) = p := by
    rw [(bytesText_spells hwords).denotes_iff, inWords_eq hne, toPoly_rowTerms_replicate]
  rw [EncodesPointer, CString.strlen, ← toPoly_rowTerms, ← CString.strlen]
  constructor
  · rintro ⟨text, w', hrun', htext⟩ hmod
    rw [hrun] at hrun'
    cases hrun'
    exact toPoly_rowTerms_ne s.noNul (length_kept_lt hne hmod) ((hdenotes _).1 htext)
  · intro hmod
    exact ⟨_, w, hrun, (hdenotes _).2 (by rw [kept_eq hmod])⟩

theorem not_encodesPointer_trimmed {s : CString} (hne : s.bytes ≠ [])
    (hshort : (uintToHexString (s.dataInt malloc)).length < s.lenInt * 16) :
    ¬EncodesPointer uintToHexString malloc s := by
  rintro ⟨text, w, hrun, htext⟩
  have hspoilt := wp_ok (charPointerToPoly_trimmed (lenInt_pos hne) hshort) hrun
  exact spoilt_not_denotes hspoilt _ htext

theorem not_encodesPointer_of_mod (hhex : PrintsHex uintToHexString) {s : CString}
    (hne : s.bytes ≠ []) (hmod : s.strlen % 8 = 0) : ¬EncodesPointer uintToHexString malloc s := by
  rcases dataInt_digits hhex malloc hne with ⟨-, hdigits⟩ | ⟨-, hshort⟩
  · rw [encodesPointer_full hne hdigits]
    exact fun h => h hmod
  · exact not_encodesPointer_trimmed hne hshort

/-- The two encoders agree on the strings whose length is no multiple of eight and whose last byte
takes two digits, and on the empty one. -/
theorem encodesPointer_iff (hhex : PrintsHex uintToHexString) (malloc : Memory) (s : CString) :
    EncodesPointer uintToHexString malloc s ↔
      s.bytes = [] ∨ (s.strlen % 8 ≠ 0 ∧ 0x10 ≤ (s.bytes.getD (s.strlen - 1) 0).toNat) := by
  by_cases hnil : s.bytes = []
  · refine iff_of_true ⟨[], _, charPointerToPoly_nil hnil, Or.inl ⟨rfl, ?_⟩⟩ (Or.inl hnil)
    rw [CString.strlen, hnil]
    rfl
  by_cases hmod : s.strlen % 8 = 0
  · refine iff_of_false (not_encodesPointer_of_mod hhex hnil hmod) ?_
    rintro (h | ⟨h, -⟩)
    · exact hnil h
    · exact h hmod
  · have hcases := dataInt_digits hhex malloc hnil
    rw [kept_eq hmod, getLast?_bytes hnil] at hcases
    simp only [Option.mem_some_iff, exists_eq_left'] at hcases
    rw [or_iff_right hnil, and_iff_right hmod]
    rcases hcases with ⟨hge, hdigits⟩ | ⟨hlt, hshort⟩
    · exact iff_of_true ((encodesPointer_full hnil hdigits).2 hmod) hge
    · exact iff_of_false (not_encodesPointer_trimmed hnil hshort) hlt

/-- A printer of the documented format. -/
def printWords (words : List Nat) : List Char := numeral 16 (Nat.ofDigits (2 ^ 64) words)

theorem encodesPointer_fred : EncodesPointer printWords (fun _ => 0)
    ⟨[0x46, 0x72, 0x65, 0x64], by simp, fun _ => 0⟩ :=
  (encodesPointer_iff (fun _ _ => rfl) _ _).2 (Or.inr (by decide))

theorem not_encodesPointer_eight : ¬EncodesPointer printWords (fun _ => 0)
    ⟨List.replicate 8 0x61, by simp, fun _ => 0⟩ :=
  not_encodesPointer_of_mod (fun _ _ => rfl) (List.cons_ne_nil _ _) (by decide)

section Bounds

/-- As many bytes are copied as are allocated, but to a place behind the beginning. -/
theorem bufferWrite_undefined (s : CString) : ¬s.bufferWrite.Defined := by
  simp only [CString.bufferWrite, MachineOp.Defined]
  omega

def BufferBounds (uintToHexString : List Nat → List Char) (malloc : Memory) (s : CString) : Prop :=
  ∀ op ∈ (charPointerToPoly uintToHexString malloc s ⟨[], []⟩).2.ops, op.Defined

theorem bufferWrite_mem_ops (uintToHexString : List Nat → List Char) (malloc : Memory)
    (s : CString) :
    s.bufferWrite ∈ (charPointerToPoly uintToHexString malloc s ⟨[], []⟩).2.ops :=
  mem_ops_of_mem_bufferOps (by simp only [CString.bufferOps, List.mem_cons, true_or, or_true])

/-- No run keeps its accesses in their objects, whatever the string. -/
theorem not_bufferBounds (uintToHexString : List Nat → List Char) (malloc : Memory) (s : CString) :
    ¬BufferBounds uintToHexString malloc s := by
  intro h
  have hwrite := h _ (bufferWrite_mem_ops uintToHexString malloc s)
  exact bufferWrite_undefined s hwrite

theorem not_bufferBounds_fred : ¬BufferBounds printWords (fun _ => 0)
    ⟨[0x46, 0x72, 0x65, 0x64], by simp, fun _ => 0⟩ := by
  intro h
  have hwrite : (MachineOp.span 4 8 8).Defined :=
    h _ (bufferWrite_mem_ops printWords (fun _ => 0) _)
  exact absurd hwrite (by decide)

end Bounds

end MuchPIR
