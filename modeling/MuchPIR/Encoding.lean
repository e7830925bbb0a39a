import MuchPIR.Seal

namespace MuchPIR
open HexPoly Polynomial
set_option autoImplicit true

/-- The digit table of both encoders, two characters for each byte. -/
def table : List Char :=
  "000102030405060708090a0b0c0d0e0f101112131415161718191a1b1c1d1e1f202122232425262728292a2b2c2d2e2f303132333435363738393a3b3c3d3e3f404142434445464748494a4b4c4d4e4f505152535455565758595a5b5c5d5e5f606162636465666768696a6b6c6d6e6f707172737475767778797a7b7c7d7e7f808182838485868788898a8b8c8d8e8f909192939495969798999a9b9c9d9e9fa0a1a2a3a4a5a6a7a8a9aaabacadaeafb0b1b2b3b4b5b6b7b8b9babbbcbdbebfc0c1c2c3c4c5c6c7c8c9cacbcccdcecfd0d1d2d3d4d5d6d7d8d9dadbdcdddedfe0e1e2e3e4e5e6e7e8e9eaebecedeeeff0f1f2f3f4f5f6f7f8f9fafbfcfdfeff".toList

/-- `table[i]`, with an index computed in `int`. -/
def tableAt (i : Int) : Except Fault Char :=
  if 0 ≤ i ∧ i < table.length then .ok (table.getD i.toNat '0') else .error (.outOfRange i)

/-- The value of a byte held in a plain `char`, which is signed on the target. -/
def charValue (b : UInt8) : Int := if b.toNat < 128 then b.toNat else (b.toNat : Int) - 256

/-- One pass of the loop: the byte is cast to `uint8_t` before it is doubled. -/
def writeTerm (data : Bytes) (stream : List Char) (jj : Nat) : Except Fault (List Char) := do
  let byte := (data.getD jj 0).toNat
  let hi ← tableAt (2 * byte)
  let lo ← tableAt (2 * byte + 1)
  return stream ++
    ([hi, lo] ++ 'x' :: '^' :: (numeral 10 (data.length - 1 - jj) ++ [' ', '+', ' ']))

def stringToHexPoly (data : Bytes) : Except Fault (List Char) :=
  if data.length = 0 then .ok ['0', '0'] else do
    let stream ← (List.range (data.length - 1)).foldlM (writeTerm data) []
    -- unlike the loop, the last byte is indexed without the cast to `uint8_t`
    let hi ← tableAt (2 * charValue (data.getD (data.length - 1) 0))
    let lo ← tableAt (2 * charValue (data.getD (data.length - 1) 0) + 1)
    return stream ++ [hi, lo]

/-- Client encoding of a string: the same text as the server's. -/
def charToPoly (data : Bytes) : Except Fault (List Char) := stringToHexPoly data

def lowerDigit (d : Nat) : Char := if d < 10 then Char.ofNat (48 + d) else Char.ofNat (87 + d)

def hexPair (b : Nat) : List Char := [lowerDigit (b / 16), lowerDigit (b % 16)]

theorem toList_eq {s : String} {l : List Char} (h : s = String.ofList l) : s.toList = l := by
  rw [h, String.toList_ofList]

set_option maxRecDepth 10000 in
theorem table_eq : table = (List.range 256).flatMap hexPair := toList_eq rfl

theorem table_length : table.length = 512 := by
  rw [table_eq]
  decide +kernel

theorem flatMap_hexPair_getD (h : b < n) :
    ((List.range n).flatMap hexPair).getD (2 * b) '0' = lowerDigit (b / 16) ∧
      ((List.range n).flatMap hexPair).getD (2 * b + 1) '0' = lowerDigit (b % 16) := by
  have hlen : ∀ n, ((List.range n).flatMap hexPair).length = 2 * n := by
    intro n
    induction n with
    | zero => rfl
    | succ n ih =>
      rw [List.range_succ, List.flatMap_append, List.length_append, ih]
      rfl
  induction n with
  | zero => exact absurd h (Nat.not_lt_zero b)
  | succ n ih =>
    rw [List.range_succ, List.flatMap_append]
    rcases Nat.lt_succ_iff_lt_or_eq.1 h with hlt | rfl
    · rw [List.getD_append _ _ _ _ (by rw [hlen]; omega),
        List.getD_append _ _ _ _ (by rw [hlen]; omega)]
      exact ih hlt
    · rw [List.getD_append_right _ _ _ _ (by rw [hlen]),
        List.getD_append_right _ _ _ _ (by rw [hlen]; omega), hlen]
      simp only [Nat.sub_self, Nat.add_sub_cancel_left]
      exact ⟨rfl, rfl⟩

theorem table_getD (h : b < 256) : table.getD (2 * b) '0' = lowerDigit (b / 16) ∧
    table.getD (2 * b + 1) '0' = lowerDigit (b % 16) := by
  rw [table_eq]
  exact flatMap_hexPair_getD h

theorem digitVal_lowerDigit (h : d < 16) : digitVal (lowerDigit d) = some d := by
  interval_cases d <;> decide

theorem tableAt_high (h : b < 256) : tableAt (2 * (b : Nat)) = .ok (lowerDigit (b / 16)) := by
  rw [tableAt, table_length, if_pos (by omega)]
  exact congrArg Except.ok (table_getD h).1

theorem tableAt_low (h : b < 256) : tableAt (2 * (b : Nat) + 1) = .ok (lowerDigit (b % 16)) := by
  rw [tableAt, table_length, if_pos (by omega)]
  exact congrArg Except.ok (table_getD h).2

theorem tableAt_negative (h : i < 0) : tableAt i = .error (.outOfRange i) := by
  rw [tableAt, if_neg (by omega)]

def termText (data : Bytes) (jj : Nat) : List Char :=
  hexPair (data.getD jj 0).toNat ++
    'x' :: '^' :: (numeral 10 (data.length - 1 - jj) ++ [' ', '+', ' '])

theorem writeTerm_eq (data : Bytes) (stream : List Char) (jj : Nat) :
    writeTerm data stream jj = .ok (stream ++ termText data jj) := by
  have hb := (data.getD jj 0).toNat_lt
  simp only [writeTerm, tableAt_high hb, tableAt_low hb]
  rfl

theorem foldlM_writeTerm (data : Bytes) (l : List Nat) (stream : List Char) :
    l.foldlM (writeTerm data) stream = .ok (stream ++ l.flatMap (termText data)) := by
  induction l generalizing stream with
  | nil =>
    rw [List.foldlM_nil, List.flatMap_nil, List.append_nil]
    rfl
  | cons jj l ih =>
    rw [List.foldlM_cons, writeTerm_eq, List.flatMap_cons, ← List.append_assoc]
    exact ih _

def rowText (data : Bytes) : List Char :=
  (List.range (data.length - 1)).flatMap (termText data) ++
    hexPair (data.getD (data.length - 1) 0).toNat

/-- The loop stays in the table; the last byte alone decides whether the encoder does. -/
theorem stringToHexPoly_eq (hne : data ≠ []) :
    stringToHexPoly data =
      if (data.getD (data.length - 1) 0).toNat < 128 then .ok (rowText data)
      else .error (.outOfRange (2 * charValue (data.getD (data.length - 1) 0))) := by
  have hlen : data.length ≠ 0 := fun h => hne (List.length_eq_zero_iff.1 h)
  generalize hb : data.getD (data.length - 1) 0 = b
  have hlt := b.toNat_lt
  rw [stringToHexPoly, if_neg hlen, foldlM_writeTerm, hb]
  split
  · next h =>
    simp only [charValue, if_pos h, tableAt_high hlt, tableAt_low hlt, rowText, hb]
    rfl
  · next h =>
    rw [tableAt_negative (by rw [charValue, if_neg h]; omega)]
    rfl

def rowTerms : Bytes → List Term
  | [] => []
  | b :: rest => ⟨b.toNat, rest.length⟩ :: rowTerms rest

theorem isHex_hexPair {b : Nat} (hb : b < 256) : ∀ c ∈ hexPair b, isHex c = true := by
  intro c hc
  simp only [hexPair, List.mem_cons, List.not_mem_nil, or_false] at hc
  rcases hc with rfl | rfl
  · rw [isHex, digitVal_lowerDigit (by omega), Option.isSome_some]
  · rw [isHex, digitVal_lowerDigit (by omega), Option.isSome_some]

theorem hexPair_ne_nil (b : Nat) : hexPair b ≠ [] := List.cons_ne_nil _ _

theorem value_hexPair {b : Nat} (hb : b < 256) : value 16 (hexPair b) = b := by
  have hhi : b / 16 < 16 := by omega
  have hlo : b % 16 < 16 := by omega
  simp only [value, hexPair, List.foldl_cons, List.foldl_nil, digitVal_lowerDigit hhi,
    digitVal_lowerDigit hlo, Option.getD_some]
  omega

theorem rowText_cons (b : UInt8) (hne : rest ≠ []) :
    rowText (b :: rest) = hexPair b.toNat ++
      'x' :: '^' :: (numeral 10 rest.length ++ ' ' :: '+' :: ' ' :: rowText rest) := by
  obtain ⟨k, hk⟩ : ∃ k, rest.length = k + 1 :=
    Nat.exists_eq_succ_of_ne_zero fun h => hne (List.length_eq_zero_iff.1 h)
  have hterm (jj : Nat) : termText (b :: rest) (jj + 1) = termText rest jj := by
    have hpower : rest.length + 1 - 1 - (jj + 1) = rest.length - 1 - jj := by omega
    rw [termText, termText, List.getD_cons_succ, List.length_cons, hpower]
  have hloop : (List.range rest.length).flatMap (termText (b :: rest)) =
      termText (b :: rest) 0 ++ (List.range (rest.length - 1)).flatMap (termText rest) := by
    rw [hk, List.range_succ_eq_map, List.flatMap_cons, List.flatMap_map]
    simp only [hterm, Nat.add_sub_cancel]
  have hlast : (b :: rest).getD rest.length 0 = rest.getD (rest.length - 1) 0 := by
    rw [hk, List.getD_cons_succ, Nat.add_sub_cancel]
  rw [rowText, rowText, List.length_cons, Nat.add_sub_cancel, hloop, hlast]
  simp only [termText, List.getD_cons_zero, List.length_cons, Nat.add_sub_cancel, Nat.sub_zero,
    List.append_assoc, List.cons_append, List.nil_append]

theorem rowText_spells (hne : data ≠ []) : Spells (rowText data) (rowTerms data) := by
  induction data with
  | nil => exact absurd rfl hne
  | cons b rest ih =>
    have hhex := isHex_hexPair b.toNat_lt
    have hval := value_hexPair b.toNat_lt
    cases rest with
    | nil =>
      have h := Spells.const (hexPair_ne_nil _) hhex
      rw [hval] at h
      exact h
    | cons d rest =>
      have h := Spells.cons (k := (d :: rest).length) (hexPair_ne_nil _) hhex
        (fun t ht => by cases ht; exact Nat.lt_succ_self _) (ih (List.cons_ne_nil _ _))
      rw [hval] at h
      rw [rowText_cons b (List.cons_ne_nil _ _)]
      exact h

theorem rowTerms_getLast_power (data : Bytes) : ∀ t ∈ (rowTerms data).getLast?, t.power = 0 := by
  induction data with
  | nil => simp [rowTerms]
  | cons b rest ih =>
    cases rest with
    | nil => simp [rowTerms]
    | cons d rest => rwa [rowTerms, rowTerms, List.getLast?_cons_cons, ← rowTerms]

theorem toPoly_rowTerms (data : Bytes) :
    toPoly (rowTerms data) =
      ∑ j ∈ Finset.range data.length, C (data.getD j 0).toNat * X ^ (data.length - 1 - j) := by
  induction data with
  | nil => rfl
  | cons b rest ih =>
    rw [List.length_cons, Finset.sum_range_succ', toPoly, rowTerms, List.map_cons, List.sum_cons,
      add_comm, ← toPoly, ih]
    congr 1
    apply Finset.sum_congr rfl
    intro j _
    have hpower : rest.length + 1 - 1 - (j + 1) = rest.length - 1 - j := by omega
    rw [List.getD_cons_succ, hpower]

/-- A string of `L` bytes is encoded as a text of the grammar, ending in a constant term, for the
polynomial with byte `j` at power `L - 1 - j`. -/
def Encodes (encoder : Bytes → Except Fault (List Char)) (data : Bytes) : Prop :=
  ∃ text terms, encoder data = .ok text ∧ Spells text terms ∧
    (∀ t ∈ terms.getLast?, t.power = 0) ∧
    toPoly terms =
      ∑ j ∈ Finset.range data.length, C (data.getD j 0).toNat * X ^ (data.length - 1 - j)

/-- Both encoders are right on exactly the strings whose last byte is ASCII. -/
theorem encoders_encode_iff (hne : data ≠ []) :
    (Encodes stringToHexPoly data ∧ Encodes charToPoly data) ↔
      (data.getD (data.length - 1) 0).toNat < 0x80 := by
  constructor
  · rintro ⟨⟨text, terms, htext, -⟩, -⟩
    by_contra hlast
    rw [stringToHexPoly_eq hne, if_neg hlast] at htext
    cases htext
  · intro hlast
    have h : Encodes stringToHexPoly data := by
      refine ⟨rowText data, rowTerms data, ?_, rowText_spells hne, rowTerms_getLast_power data,
        toPoly_rowTerms data⟩
      rw [stringToHexPoly_eq hne, if_pos hlast]
    exact ⟨h, h⟩

theorem encoders_encode_fred : Encodes stringToHexPoly [0x46, 0x72, 0x65, 0x64] ∧
    Encodes charToPoly [0x46, 0x72, 0x65, 0x64] :=
  (encoders_encode_iff (List.cons_ne_nil _ _)).2 (by decide)

theorem not_encodes_e_acute : ¬Encodes stringToHexPoly [0xC3, 0xA9] := by
  rintro ⟨text, terms, htext, -⟩
  rw [stringToHexPoly_eq (List.cons_ne_nil _ _), if_neg (by decide)] at htext
  cases htext

def rowPlain (data : Bytes) : Plaintext := Plaintext.ofTerms (rowTerms data)

theorem coeffAt_rowTerms (data : Bytes) (k : Nat) :
    coeffAt (rowTerms data) k = (data.map UInt8.toNat).reverse.getD k 0 := by
  induction data with
  | nil => rfl
  | cons b rest ih =>
    have hlen : (rest.map UInt8.toNat).reverse.length = rest.length := by
      rw [List.length_reverse, List.length_map]
    rw [coeffAt, rowTerms, List.find?_cons, List.map_cons, List.reverse_cons]
    rcases lt_trichotomy k rest.length with hk | rfl | hk
    · rw [List.getD_append _ _ _ _ (by omega), ← ih, beq_eq_false_iff_ne.2 hk.ne', coeffAt]
    · rw [List.getD_append_right _ _ _ _ (by omega), hlen, beq_self_eq_true, Nat.sub_self]
      rfl
    · rw [List.getD_append_right _ _ _ _ (by omega), beq_eq_false_iff_ne.2 hk.ne, ← coeffAt,
        ih, List.getD_eq_default _ _ (by omega), List.getD_eq_default _ _ (by simp; omega)]

theorem toCoeffs_rowTerms (data : Bytes) :
    toCoeffs (rowTerms data) = (data.map UInt8.toNat).reverse := by
  cases data with
  | nil => rfl
  | cons b rest =>
    rw [rowTerms, toCoeffs, ← rowTerms]
    apply List.ext_getElem
    · simp
    · intro k hk hk'
      rw [List.getElem_map, List.getElem_range, coeffAt_rowTerms, List.getD_eq_getElem]

theorem forall_rowTerms (data : Bytes) :
    (∀ t ∈ rowTerms data, t.coeff = 0) ↔ ∀ b ∈ data, b = 0 := by
  induction data with
  | nil => simp [rowTerms]
  | cons b rest ih =>
    rw [rowTerms, List.forall_mem_cons, List.forall_mem_cons, ih, ← UInt8.toNat_inj]
    rfl

theorem rowTerms_coeff_lt (data : Bytes) : ∀ t ∈ rowTerms data, t.coeff < 256 := by
  induction data with
  | nil => simp [rowTerms]
  | cons b rest ih => exact List.forall_mem_cons.2 ⟨b.toNat_lt, ih⟩

theorem rowPlain_of_nonzero (h : ∃ b ∈ data, b ≠ 0) :
    rowPlain data = ⟨(data.map UInt8.toNat).reverse⟩ := by
  rw [rowPlain, Plaintext.ofTerms, if_neg, toCoeffs_rowTerms]
  rw [forall_rowTerms]
  push Not
  exact h

theorem rowPlain_of_zero (h : ∀ b ∈ data, b = 0) : rowPlain data = ⟨[]⟩ := by
  rw [rowPlain, Plaintext.ofTerms, if_pos ((forall_rowTerms data).2 h)]

theorem rowPlain_isZero : (rowPlain data).IsZero ↔ ∀ b ∈ data, b = 0 := by
  by_cases h : ∀ b ∈ data, b = 0
  · rw [rowPlain_of_zero h]
    exact iff_of_true (fun _ hc => absurd hc List.not_mem_nil) h
  · have hne : ∃ b ∈ data, b ≠ 0 := by
      push Not at h
      exact h
    rw [rowPlain_of_nonzero hne]
    refine iff_of_false (fun hz => h fun b hb => ?_) h
    have hmem : b.toNat ∈ (data.map UInt8.toNat).reverse :=
      List.mem_reverse.2 (List.mem_map_of_mem hb)
    exact UInt8.toNat_inj.1 (hz _ hmem)

theorem rowPlain_length_le (data : Bytes) : (rowPlain data).coeffs.length ≤ data.length := by
  by_cases h : ∀ b ∈ data, b = 0
  · rw [rowPlain_of_zero h]
    exact Nat.zero_le _
  · push Not at h
    rw [rowPlain_of_nonzero h, List.length_reverse, List.length_map]

theorem stringToHexPoly_nil : stringToHexPoly [] = .ok ['0', '0'] := rfl

theorem spells_zero : Spells ['0', '0'] [⟨0, 0⟩] :=
  Spells.const (List.cons_ne_nil _ _) (List.all_eq_true.1 (by decide))

theorem Seal.Lawful.plaintext_rowText {S : Seal} {params : Params} {keygen : S.KeyGenerator}
    (hS : S.Lawful params keygen) (hne : data ≠ []) :
    S.plaintext (rowText data) = .ok (rowPlain data) :=
  hS.plaintext_of_spells (rowText_spells hne)
    fun t ht => (rowTerms_coeff_lt data t ht).trans (by norm_num)

end MuchPIR
