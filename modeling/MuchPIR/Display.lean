import MuchPIR.ClientSemantics

namespace MuchPIR
open Prog HexPoly Negacyclic
set_option autoImplicit true

/-- The two leading hexadecimal digits of a coefficient: all that the client reads of it. -/
def leadingByte (c : Nat) : Nat := c / 16 ^ (Nat.log 16 c - 1)

theorem leadingByte_of_lt (h : c < 256) : leadingByte c = c := by
  have hlog : Nat.log 16 c < 2 := Nat.log_lt_of_lt_pow' (by omega) (by omega)
  rw [leadingByte, Nat.sub_eq_zero_of_le (by omega), pow_zero, Nat.div_one]

theorem length_numeral (h : c ≠ 0) : (numeral 16 c).length = Nat.log 16 c + 1 := by
  rw [numeral, if_neg h, List.length_map, List.length_reverse]
  exact Nat.length_digits 16 c (by omega) h

theorem value_take_numeral (h : 256 ≤ c) : value 16 ((numeral 16 c).take 2) = leadingByte c := by
  have hlog : 2 ≤ Nat.log 16 c := Nat.le_log_of_pow_le (by omega) h
  have hdrop : (Nat.digits 16 c).length - 2 = Nat.log 16 c - 1 := by
    rw [Nat.length_digits 16 c (by omega) (by omega)]
    omega
  rw [numeral, if_neg (by omega), ← List.map_take, List.take_reverse, value_digits le_rfl, hdrop,
    leadingByte, Nat.self_div_pow_eq_ofDigits_drop _ _ (by omega)]
  exact fun d hd => Nat.digits_lt_base (by omega) (List.mem_of_mem_drop hd)

theorem readHex_of_hex (cha : Nat) (hne : ds ≠ []) (hhex : ∀ c ∈ ds, isHex c = true) :
    readHex cha ds = value 16 ds := by
  obtain ⟨d, rest, rfl⟩ := List.exists_cons_of_ne_nil hne
  have hspace : ¬d.isWhitespace = true := by
    rw [not_isWhitespace_of_isHex (hhex d List.mem_cons_self)]
    exact Bool.false_ne_true
  simp only [readHex, List.dropWhile_cons_of_neg hspace]
  rw [List.takeWhile_eq_self_iff.2 hhex]

theorem readHex_spell (cha : Nat) (t : Term) :
    readHex cha ((spell t).take 2) = leadingByte t.coeff := by
  rcases Nat.lt_or_ge t.coeff 256 with hlt | hge
  · rw [readHex_token cha t hlt, leadingByte_of_lt hlt]
  · have hlog : 2 ≤ Nat.log 16 t.coeff := Nat.le_log_of_pow_le (by omega) hge
    have hlen : 2 ≤ (numeral 16 t.coeff).length := by
      rw [length_numeral (by omega)]
      omega
    have hne : (numeral 16 t.coeff).take 2 ≠ [] := by
      rw [Ne, List.take_eq_nil_iff]
      exact fun h => h.elim (by omega) (numeral_ne_nil 16 t.coeff)
    rw [spell, List.take_append_of_le_length hlen, readHex_of_hex cha hne, value_take_numeral hge]
    exact fun c hc => isHex_of_mem_numeral (by omega) (by omega) (List.mem_of_mem_take hc)

/-- What the client writes for a coefficient list: the non-zero ones from the top, a byte each. -/
def display (cs : List Nat) : List Output :=
  (cs.reverse.filter (· ≠ 0)).map (fun c => .char (UInt8.ofNat (leadingByte c))) ++ [.endl]

theorem coeff_termsFrom (k : Nat) (cs : List Nat) :
    (termsFrom k cs).map Term.coeff = cs.reverse.filter (· ≠ 0) := by
  induction cs generalizing k with
  | nil => rfl
  | cons c cs ih =>
    rw [termsFrom, List.map_append, ih, List.reverse_cons, List.filter_append]
    by_cases hc : c = 0
    · simp [hc]
    · simp [hc]

theorem parseTerms_display (cha : Nat) (h : ∃ c ∈ cs, c ≠ 0) :
    parseTerms cha (print cs) = display cs := by
  have hne : termsFrom 0 cs ≠ [] := by
    obtain ⟨c, hc, hzero⟩ := h
    intro hnil
    have hmem : c ∈ (termsFrom 0 cs).map Term.coeff := by
      rw [coeff_termsFrom, List.mem_filter, List.mem_reverse]
      exact ⟨hc, by simpa using hzero⟩
    rw [hnil] at hmem
    exact absurd hmem List.not_mem_nil
  have hread : ∀ t ∈ termsFrom 0 cs, ∀ cha, readHex cha ((spell t).take 2) = leadingByte t.coeff :=
    fun t _ cha => readHex_spell cha t
  rw [print_eq_join rfl hne, parseTerms_join_eq _ cha hne hread, display, ← coeff_termsFrom 0,
    List.map_map]
  rfl

theorem display_congr (h : ∀ k, cs.getD k 0 = ds.getD k 0) : display cs = display ds := by
  rw [display, display, ← coeff_termsFrom 0 cs, ← coeff_termsFrom 0 ds, termsFrom_congr h]

section Result

variable {S : Seal} {bfvDefault : List Nat} {keygen : S.KeyGenerator}

/-- The coefficients of a result with the factor of the expansion taken out. -/
def descaled (cs : List Nat) : List Nat := cs.map fun c => 40951 * c % 40961

theorem descaled_getD (cs : List Nat) (k : Nat) :
    (descaled cs).getD k 0 = 40951 * cs.getD k 0 % 40961 := by
  rw [descaled, List.getD_eq_getElem?_getD, List.getD_eq_getElem?_getD, List.getElem?_map]
  rcases cs[k]? with _ | c
  · rfl
  · rfl

theorem denote_descaled (cs : List Nat) :
    (⟨descaled cs⟩ : Plaintext).denote (clientParams bfvDefault) =
      (⟨[40951]⟩ : Plaintext).denote (clientParams bfvDefault) *
        (⟨cs⟩ : Plaintext).denote (clientParams bfvDefault) := by
  have hpoly : (ofCoeffs (descaled cs) : Polynomial (ZMod (clientParams bfvDefault).plainModulus)) =
      ofCoeffs [40951] * ofCoeffs cs := by
    ext k
    have hmod (v : Nat) : ((v % 40961 : Nat) : ZMod (clientParams bfvDefault).plainModulus) = v :=
      ZMod.natCast_mod v 40961
    rw [ofCoeffs, ofCoeffs, mul_zero, add_zero, Polynomial.coeff_C_mul, coeff_ofCoeffs,
      coeff_ofCoeffs, descaled_getD, hmod, Nat.cast_mul]
  rw [Plaintext.denote, Plaintext.denote, Plaintext.denote, ← map_mul, hpoly]

theorem descaled_lt (cs : List Nat) : ∀ c ∈ descaled cs, c < 40961 := by
  intro c hc
  obtain ⟨a, -, rfl⟩ := List.mem_map.1 hc
  exact Nat.mod_lt _ (by norm_num)

/-- The constant is invertible, so no coefficient is lost. -/
theorem exists_coeff_of_descaled {cs ds : List Nat} (hlt : ∀ c ∈ cs, c < 40961)
    (hds : ∀ k, ds.getD k 0 = (descaled cs).getD k 0) (h : ∃ c ∈ cs, c ≠ 0) : ∃ c ∈ ds, c ≠ 0 := by
  obtain ⟨c, hc, hne⟩ := h
  have hc' := hlt c hc
  obtain ⟨k, hk, rfl⟩ := List.getElem_of_mem hc
  have hget := hds k
  rw [descaled_getD, List.getD_eq_getElem _ _ hk] at hget
  have hzero : ds.getD k 0 ≠ 0 := by omega
  rcases Nat.lt_or_ge k ds.length with hlen | hlen
  · rw [List.getD_eq_getElem _ _ hlen] at hzero
    exact ⟨_, List.getElem_mem hlen, hzero⟩
  · exact absurd (List.getD_eq_default _ _ hlen) hzero

/-- For every answer of a server: a zero result ends the client, and of any other it writes the
non-zero coefficients, from the highest power down, without the factor of the expansion. -/
theorem showResult_displays (hS : S.Ideal (clientParams bfvDefault) keygen) (coins : S.Coins)
    (cha : Nat) (hload : S.loadCiphertext (clientParams bfvDefault) data = .ok (accum, rest)) :
    ∃ p, S.decrypt (clientParams bfvDefault) keygen accum = .ok p ∧
      (p.IsZero → ∃ x log, showResult S (clientParams bfvDefault) keygen coins cha data [] =
        (.error (.throws x), log)) ∧
      (¬p.IsZero → ∃ log, showResult S (clientParams bfvDefault) keygen coins cha data [] =
        (.ok (display (descaled p.coeffs)), log)) := by
  obtain ⟨p, hdec, -, hlen, hlt⟩ := hS.decrypt_spec accum
  obtain ⟨temp, henc⟩ := encrypt_inverse hS.toLawful coins
  refine ⟨p, hdec, fun hzero => ?_, fun hnonzero => ?_⟩
  · obtain ⟨x, hmul⟩ := hS.multiplyPlain_throws temp p (Or.inr hzero)
    have hthrow : wp (showResult S (clientParams bfvDefault) keygen coins cha data)
        (fun _ _ => False) (fun e _ => ∃ x, e = .throws x) [] := by
      simp only [showResult, hload, hdec, plaintext_inverse hS.toLawful, henc, hmul, wp_bind,
        SealM.wp_call_ok, SealM.wp_call_error]
      exact ⟨x, rfl⟩
    obtain ⟨_, log, hrun, x, rfl⟩ := wp_throws hthrow
    exact ⟨x, log, hrun⟩
  · obtain ⟨result, hmul⟩ := hS.multiplyPlain_returns temp p hlen hnonzero
    obtain ⟨final, hfin, hfinden, hfinlen, hfinlt⟩ := hS.decrypt_spec result
    have hvalue : final.denote (clientParams bfvDefault) =
        (⟨descaled p.coeffs⟩ : Plaintext).denote (clientParams bfvDefault) := by
      rw [hfinden, hS.msg_multiplyPlain hmul, hS.msg_encrypt henc, denote_descaled]
    have hlen' : (descaled p.coeffs).length ≤ 4096 := by
      rw [descaled, List.length_map]
      exact hlen
    have hcoeffs := coeffs_eq_of_denote_eq (q := ⟨descaled p.coeffs⟩) clientDegree_pos hfinlen
      hfinlt hlen' (descaled_lt _) hvalue
    have hshow : wp (showResult S (clientParams bfvDefault) keygen coins cha data)
        (fun out _ => out = display (descaled p.coeffs)) (fun _ _ => False) [] := by
      simp only [showResult, hload, hdec, plaintext_inverse hS.toLawful, henc, hmul, hfin,
        hS.toString_eq, wp_bind, SealM.wp_call_ok, wp_pure]
      rw [← display_congr hcoeffs]
      apply parseTerms_display
      rw [Plaintext.IsZero] at hnonzero
      push Not at hnonzero
      exact exists_coeff_of_descaled hlt hcoeffs hnonzero
    obtain ⟨_, log, hrun, rfl⟩ := wp_returns hshow
    exact ⟨log, hrun⟩

theorem showResult_displays_monomial :
    ∃ p, (exactSeal demoParams 0).decrypt demoParams () (monomial 1) = .ok p ∧
      (p.IsZero → ∃ x log, showResult (exactSeal demoParams 0) demoParams () () 0
        ((exactSeal demoParams 0).saveCiphertext .none (monomial 1)) [] =
        (.error (.throws x), log)) ∧
      (¬p.IsZero → ∃ log, showResult (exactSeal demoParams 0) demoParams () () 0
        ((exactSeal demoParams 0).saveCiphertext .none (monomial 1)) [] =
        (.ok (display (descaled p.coeffs)), log)) :=
  showResult_displays (demo_ideal 0) () 0
    ((demo_ideal 0).toLawful.loadCiphertext_saved .none (monomial 1))

end Result

end MuchPIR
