import MuchPIR.Client

namespace MuchPIR
open HexPoly Negacyclic Polynomial
set_option autoImplicit true

theorem isPrefixOf_space (hc : c ≠ ' ') (s : List Char) :
    [' ', '+', ' '].isPrefixOf (c :: s) = false := by
  rw [List.isPrefixOf_cons_cons, beq_eq_false_iff_ne.2 hc.symm, Bool.false_and]

theorem find_append (h : ' ' ∉ s) (rest : List Char) :
    find (s ++ ' ' :: '+' :: ' ' :: rest) = some s.length := by
  induction s with
  | nil => rfl
  | cons c s ih =>
    have hc : c ≠ ' ' := fun hc => h (hc ▸ List.mem_cons_self)
    rw [List.cons_append, find, isPrefixOf_space hc, ih fun hs => h (List.mem_cons_of_mem _ hs)]
    rfl

theorem find_none (h : ' ' ∉ s) : find s = none := by
  induction s with
  | nil => rfl
  | cons c s ih =>
    have hc : c ≠ ' ' := fun hc => h (hc ▸ List.mem_cons_self)
    rw [find, isPrefixOf_space hc, ih fun hs => h (List.mem_cons_of_mem _ hs)]
    rfl

theorem not_isWhitespace_of_isHex (h : isHex c = true) : c.isWhitespace = false := by
  by_contra hw
  rw [Bool.not_eq_false, Char.isWhitespace] at hw
  simp only [Bool.or_eq_true, decide_eq_true_eq] at hw
  rcases hw with ((rfl | rfl) | rfl) | rfl <;> exact absurd h (by decide)

theorem readHex_token (cha : Nat) (t : Term) (ht : t.coeff < 256) :
    readHex cha ((spell t).take 2) = t.coeff := by
  have hlen : (numeral 16 t.coeff).length ≤ 2 := length_numeral_le (by omega) ht (by omega)
  have hhex : ∀ c ∈ numeral 16 t.coeff, isHex c = true := fun c hc =>
    isHex_of_mem_numeral (by omega) (by omega) hc
  have hval : value 16 (numeral 16 t.coeff) = t.coeff := value_numeral (by omega) (by omega) _
  obtain ⟨d, ds, hds⟩ := List.exists_cons_of_ne_nil (numeral_ne_nil 16 t.coeff)
  rw [hds] at hlen hhex hval
  have htake : (spell t).take 2 = d :: ds ++
      (if t.power = 0 then [] else 'x' :: '^' :: numeral 10 t.power).take (1 - ds.length) := by
    rw [spell, hds, List.take_append, List.take_of_length_le hlen, List.length_cons,
      Nat.add_sub_add_right 1 1 ds.length]
  have hstop : ∀ c ∈ ((if t.power = 0 then [] else
      'x' :: '^' :: numeral 10 t.power).take (1 - ds.length)).head?, isHex c = false := by
    intro c hc
    have hmem := List.mem_of_mem_head? hc
    split at hmem
    · rw [List.take_nil] at hmem
      exact absurd hmem List.not_mem_nil
    · rw [List.head?_take] at hc
      split at hc
      · cases hc
      · cases hc
        decide
  have hdrop : (d :: ds ++ (if t.power = 0 then [] else
      'x' :: '^' :: numeral 10 t.power).take (1 - ds.length)).dropWhile Char.isWhitespace =
      d :: ds ++ (if t.power = 0 then [] else
        'x' :: '^' :: numeral 10 t.power).take (1 - ds.length) :=
    List.dropWhile_cons_of_neg
      (by rw [not_isWhitespace_of_isHex (hhex d List.mem_cons_self)]; exact Bool.false_ne_true)
  rw [readHex, htake, hdrop]
  simp only [List.cons_append]
  rw [← List.cons_append, takeWhile_span hhex hstop, hval]

theorem parseTerms_join_eq (f : Term → Nat) (cha : Nat) (hne : ts ≠ [])
    (hread : ∀ t ∈ ts, ∀ cha, readHex cha ((spell t).take 2) = f t) :
    parseTerms cha (join (ts.map spell)) =
      ts.map (fun t => .char (UInt8.ofNat (f t))) ++ [.endl] := by
  induction ts generalizing cha with
  | nil => exact absurd rfl hne
  | cons t ts ih =>
    obtain ⟨hhead, htail⟩ := List.forall_mem_cons.1 hread
    cases ts with
    | nil =>
      rw [List.map_singleton, join, parseTerms, find_none (space_notMem_spell t)]
      simp only [hhead cha]
      rfl
    | cons r rest =>
      have hfind := find_append (space_notMem_spell t) (join ((r :: rest).map spell))
      rw [List.map_cons, List.map_cons, join, ← List.map_cons, parseTerms, hfind]
      simp only [List.take_left', hhead cha]
      rw [← List.drop_drop, List.drop_left' rfl]
      simp only [List.drop_succ_cons, List.drop_zero]
      rw [ih _ (List.cons_ne_nil r rest) htail]
      rfl

theorem parseTerms_join (cha : Nat) (hne : ts ≠ []) (ht : ∀ t ∈ ts, t.coeff < 256) :
    parseTerms cha (join (ts.map spell)) =
      ts.map (fun t => .char (UInt8.ofNat t.coeff)) ++ [.endl] :=
  parseTerms_join_eq Term.coeff cha hne fun t hmem cha => readHex_token cha t (ht t hmem)

theorem termsFrom_row (hb : ∀ b ∈ data, b ≠ 0) :
    termsFrom 0 (data.map UInt8.toNat).reverse = rowTerms data := by
  induction data with
  | nil => rfl
  | cons b rest ih =>
    obtain ⟨hhead, htail⟩ := List.forall_mem_cons.1 hb
    have hne : b.toNat ≠ 0 := fun h => hhead (UInt8.toNat_inj.1 h)
    rw [List.map_cons, List.reverse_cons, termsFrom_append, ih htail, List.length_reverse,
      List.length_map, termsFrom, termsFrom, if_neg hne, Nat.zero_add]
    rfl

theorem map_rowTerms (data : Bytes) :
    (rowTerms data).map (fun t => Output.char (UInt8.ofNat t.coeff)) = data.map .char := by
  induction data with
  | nil => rfl
  | cons b rest ih => rw [rowTerms, List.map_cons, List.map_cons, ih, UInt8.ofNat_toNat]

/-- A coefficient list with the bytes of a row, the first on top, is written as the row. -/
theorem parseTerms_print (cha : Nat) (hne : data ≠ []) (hb : ∀ b ∈ data, b ≠ 0)
    (hcs : ∀ k, cs.getD k 0 = (data.map UInt8.toNat).reverse.getD k 0) :
    parseTerms cha (print cs) = data.map .char ++ [.endl] := by
  have hterms : termsFrom 0 cs = rowTerms data := by
    rw [termsFrom_congr hcs, termsFrom_row hb]
  have hrow : rowTerms data ≠ [] := by
    obtain ⟨b, rest, rfl⟩ := List.exists_cons_of_ne_nil hne
    exact List.cons_ne_nil _ _
  rw [print_eq_join hterms hrow, parseTerms_join cha hrow (rowTerms_coeff_lt data), map_rowTerms]

theorem ofCoeffs_reverse (data : Bytes) :
    (ofCoeffs (data.map UInt8.toNat).reverse : Nat[X]) =
      ∑ j ∈ Finset.range data.length, C (data.getD j 0).toNat * X ^ (data.length - 1 - j) := by
  rw [← toPoly_rowTerms]
  induction data with
  | nil => rfl
  | cons b rest ih =>
    have hlen : (rest.map UInt8.toNat).reverse.length = rest.length := by
      rw [List.length_reverse, List.length_map]
    rw [List.map_cons, List.reverse_cons, ofCoeffs_append, ih, hlen, rowTerms, toPoly, toPoly,
      List.map_cons, List.sum_cons, ofCoeffs, ofCoeffs, mul_zero, add_zero, Nat.cast_id, add_comm,
      mul_comm]

/-- The client's loop turns the printed polynomial of a row back into the row. -/
theorem parseTerms_decodes (toString : Plaintext → List Char)
    (hprint : ∀ p, toString p = print p.coeffs) (cha : Nat) (hne : data ≠ [])
    (hb : ∀ b ∈ data, b ≠ 0) (p : Plaintext)
    (hp : (ofCoeffs p.coeffs : Nat[X]) =
      ∑ j ∈ Finset.range data.length, C (data.getD j 0).toNat * X ^ (data.length - 1 - j)) :
    parseTerms cha (toString p) = data.map .char ++ [.endl] := by
  rw [hprint]
  apply parseTerms_print cha hne hb
  intro k
  have hk := congrArg (fun q => q.coeff k) (hp.trans (ofCoeffs_reverse data).symm)
  simpa only [coeff_ofCoeffs, Nat.cast_id] using hk

theorem parseTerms_decodes_fred :
    parseTerms 0 (print [0x64, 0x65, 0x72, 0x46]) =
      [.char 0x46, .char 0x72, .char 0x65, .char 0x64, .endl] :=
  parseTerms_decodes (fun p => print p.coeffs) (fun _ => rfl) 0
    (List.cons_ne_nil 0x46 [0x72, 0x65, 0x64]) (List.forall_mem_ne'.2 (by decide))
    ⟨[0x64, 0x65, 0x72, 0x46]⟩ (ofCoeffs_reverse [0x46, 0x72, 0x65, 0x64])

end MuchPIR
