import MuchPIR.AggregateLaw
import MuchPIR.Decoding

namespace MuchPIR
open Prog Server Negacyclic Polynomial
set_option autoImplicit true

variable {S : Seal} {params : Params} {keygen : S.KeyGenerator}

theorem oneHot_getD (hi : i < n) (j : Nat) :
    (oneHot n i).coeffs.getD j 0 = if j = i then 1 else 0 := by
  rw [oneHot, List.getD_eq_getElem?_getD, List.getElem?_set, List.length_replicate]
  split
  · next h => rw [if_pos h.symm, Option.getD_some]
  · next h =>
    rw [if_neg (Ne.symm h), List.getElem?_replicate]
    split <;> rfl

theorem denote_oneHot (hi : i < n) : (oneHot n i).denote params = params.x ^ i := by
  have hpoly : (ofCoeffs (oneHot n i).coeffs : (ZMod params.plainModulus)[X]) = X ^ i := by
    ext k
    rw [coeff_ofCoeffs, oneHot_getD hi, coeff_X_pow]
    split <;> simp
  rw [Plaintext.denote, hpoly, map_pow, AdjoinRoot.mk_X]

theorem pow_eq_sum (hi : i < m) :
    params.x ^ i = ∑ j ∈ Finset.range m,
      (if j = i then (1 : ZMod params.plainModulus) else 0) • params.x ^ j := by
  rw [Finset.sum_eq_single i]
  · rw [if_pos rfl, one_smul]
  · intro j _ hj
    rw [if_neg hj, zero_smul]
  · exact fun h => absurd (Finset.mem_range.2 hi) h

def monomial (p : Nat) : Fin demoParams.polyModulusDegree → ZMod demoParams.plainModulus :=
  fun j => if (j : Nat) = p then 1 else 0

theorem monomial_msg (pad : Nat) (hp : p < 4096) :
    (exactSeal demoParams pad).msg demoParams () (monomial p) = demoParams.x ^ p := by
  rw [exactSeal_msg, toRing, pow_eq_sum hp]
  exact (Finset.sum_range fun j =>
    (if j = p then (1 : ZMod demoParams.plainModulus) else 0) • demoParams.x ^ j).symm

theorem buildQuery_spec (hS : S.Ideal params keygen) (coins : Nat → S.Coins)
    (hdeg : params.polyModulusDegree < 2 ^ 64 - 1) (ht : 1 < params.plainModulus)
    (hi : rowIndex < D) (hdb : D ≤ params.polyModulusDegree) :
    wp (buildQuery S params keygen coins rowIndex D)
      (fun query _ => ∃ c, query = queryMessage S params keygen c ∧
        S.msg params keygen c = params.x ^ rowIndex)
      (fun _ _ => False) log := by
  have hmod : rowIndex % D = rowIndex := Nat.mod_eq_of_lt hi
  have hlt : rowIndex < params.polyModulusDegree := hi.trans_le hdb
  obtain ⟨c, hc⟩ := encrypt_oneHot hS.toLawful ht (coins 0) rowIndex
  simp only [buildQuery, generateQuery, getHcubeParam_of_le hdb hdeg, queryDims, hmod, hc,
    wp_bind, SealM.wp_call_ok, wp_pure]
  refine ⟨c, rfl, ?_⟩
  rw [hS.msg_encrypt hc, denote_oneHot hlt]

/-- Plaintexts with coefficients in range that stand for one ring element have one coefficient
list, up to zeros at the top. -/
theorem coeffs_eq_of_denote_eq {p q : Plaintext} (hn : 0 < params.polyModulusDegree)
    (hp : p.coeffs.length ≤ params.polyModulusDegree) (hp' : ∀ c ∈ p.coeffs, c < params.plainModulus)
    (hq : q.coeffs.length ≤ params.polyModulusDegree) (hq' : ∀ c ∈ q.coeffs, c < params.plainModulus)
    (h : p.denote params = q.denote params) (k : Nat) :
    p.coeffs.getD k 0 = q.coeffs.getD k 0 := by
  have hcast := coeff_eq_of_mk_eq hn hp hq h k
  have hsmall {cs : List Nat} (hcs : ∀ c ∈ cs, c < params.plainModulus) :
      cs.getD k 0 % params.plainModulus = cs.getD k 0 := by
    rcases Nat.lt_or_ge k cs.length with hlt | hge
    · rw [List.getD_eq_getElem _ _ hlt]
      exact Nat.mod_eq_of_lt (hcs _ (List.getElem_mem hlt))
    · rw [List.getD_eq_default _ _ hge, Nat.zero_mod]
  rw [ZMod.natCast_eq_natCast_iff] at hcast
  rw [← hsmall hp', ← hsmall hq']
  exact hcast

theorem isZero_of_denote_eq_zero {p : Plaintext} (hn : 0 < params.polyModulusDegree)
    (hp : p.coeffs.length ≤ params.polyModulusDegree) (hp' : ∀ c ∈ p.coeffs, c < params.plainModulus)
    (h : p.denote params = 0) : p.IsZero := by
  have hzero : (⟨[]⟩ : Plaintext).denote params = 0 := by
    simp only [Plaintext.denote, ofCoeffs, map_zero]
  intro c hc
  obtain ⟨k, hk, rfl⟩ := List.getElem_of_mem hc
  have hget := coeffs_eq_of_denote_eq hn hp hp' (Nat.zero_le _)
    (fun _ h => absurd h List.not_mem_nil) (h.trans hzero.symm) k
  rw [List.getD_eq_getElem _ _ hk] at hget
  exact hget

theorem denote_eq_zero_of_isZero {p : Plaintext} (h : p.IsZero) : p.denote params = 0 := by
  have hpoly : (ofCoeffs p.coeffs : (ZMod params.plainModulus)[X]) = 0 := by
    ext k
    rw [coeff_ofCoeffs, coeff_zero]
    rcases Nat.lt_or_ge k p.coeffs.length with hlt | hge
    · rw [List.getD_eq_getElem _ _ hlt, h _ (List.getElem_mem hlt), Nat.cast_zero]
    · rw [List.getD_eq_default _ _ hge, Nat.cast_zero]
  rw [Plaintext.denote, hpoly, map_zero]

theorem run_answer (palloc junk : Memory) (hS : S.Ideal params keygen) (hfit : FitsSlots S params)
    (hn : params.polyModulusDegree = 2 ^ k) (hk : 4096 ≤ params.polyModulusDegree)
    (hq : Unloads S params keygen query c) (hc : S.msg params keygen c = params.x ^ i)
    (hi : i < dbSize) (hne : rows ≠ []) (hrows : rows.length ≤ dbSize)
    (hall : ∀ row ∈ rows, Accepted params.polyModulusDegree row) :
    ∃ w accum, run S palloc junk query rows = (.ok (), w) ∧
      fields.load w.state.data .accum = S.saveCiphertext S.comprModeDefault accum ∧
      S.msg params keygen accum =
        if i < rows.length then 4096 * (rowPlain (rows.getD i [])).denote params else 0 := by
  have hdb : dbSize ≤ 2 ^ k := hn ▸ hk
  have hsum := hc.trans (pow_eq_sum (hi.trans_le hdb))
  obtain ⟨dims, -, -, w, accum, hexp, -, -, hrun, hrunning, hmsg⟩ :=
    run_returns palloc junk hS hfit hn (twelve_le hdb) hq hsum hne hrows hall
  refine ⟨w, accum, hrun, hrunning.load_accum, ?_⟩
  rw [hmsg, selected_expanded (twelve_le hdb) hexp
    (fun j hj _ => if_neg (by omega : ¬j = i)) hrows]
  split
  · next hlt =>
    rw [Finset.sum_eq_single i]
    · rw [if_pos rfl, one_smul]
    · intro j _ hj
      rw [if_neg hj, zero_smul]
    · exact fun h => absurd (Finset.mem_range.2 hlt) h
  · next hge =>
    rw [Finset.sum_eq_zero, mul_zero]
    intro j hj
    have hne : j ≠ i := by
      rintro rfl
      exact hge (Finset.mem_range.1 hj)
    rw [if_neg hne, zero_smul]

section Descale

variable {bfvDefault : List Nat} {keygen : S.KeyGenerator}

theorem plaintext_inverse (hS : S.Lawful params keygen) :
    S.plaintext ['9', 'F', 'F', '7'] = .ok ⟨[40951]⟩ := by
  have hspells : HexPoly.Spells ['9', 'F', 'F', '7'] [⟨40951, 0⟩] :=
    HexPoly.Spells.const (List.cons_ne_nil _ _) (List.all_eq_true.1 (by decide))
  exact hS.plaintext_of_spells hspells (by decide)

theorem encrypt_inverse (hS : S.Lawful (clientParams bfvDefault) keygen) (coins : S.Coins) :
    ∃ c, S.encrypt (clientParams bfvDefault) keygen coins ⟨[40951]⟩ = .ok c := by
  have hdegree : 1 ≤ 4096 := by omega
  have hlt : 40951 < 40961 := by omega
  apply hS.encrypt_returns
  · exact hdegree
  · intro k hk
    rw [List.mem_singleton.1 hk]
    exact hlt

/-- The factor of the expansion and the client's constant are inverse to each other. -/
theorem descale (r : (clientParams bfvDefault).Ring) :
    (⟨[40951]⟩ : Plaintext).denote (clientParams bfvDefault) * (4096 * r) = r := by
  have hcast : (⟨[40951]⟩ : Plaintext).denote (clientParams bfvDefault) * 4096 =
      AdjoinRoot.of _ (40951 * 4096) := by
    simp only [Plaintext.denote, ofCoeffs, mul_zero, add_zero, map_mul, map_ofNat, Nat.cast_ofNat]
  have hone : (40951 * 4096 : ZMod (clientParams bfvDefault).plainModulus) = 1 := by
    change (40951 * 4096 : ZMod 40961) = 1
    decide
  rw [← mul_assoc, hcast, hone, map_one, one_mul]

theorem rowPlain_lt (data : Bytes) : ∀ c ∈ (rowPlain data).coeffs, c < 256 := by
  intro c hc
  by_cases h : ∃ b ∈ data, b ≠ 0
  · rw [rowPlain_of_nonzero h, List.mem_reverse] at hc
    obtain ⟨b, -, rfl⟩ := List.mem_map.1 hc
    exact b.toNat_lt
  · push Not at h
    rw [rowPlain_of_zero h] at hc
    exact absurd hc List.not_mem_nil

theorem rowPlain_lt_modulus (data : Bytes) :
    ∀ c ∈ (rowPlain data).coeffs, c < (clientParams bfvDefault).plainModulus := by
  have hbyte : 256 < 40961 := by omega
  exact fun c hc => (rowPlain_lt data c hc).trans hbyte

theorem clientDegree_pos : 0 < (clientParams bfvDefault).polyModulusDegree := Nat.succ_pos 4095

theorem rowPlain_of_noNul (hne : data ≠ []) (hb : ∀ b ∈ data, b ≠ 0) :
    rowPlain data = ⟨(data.map UInt8.toNat).reverse⟩ := by
  obtain ⟨b, rest, rfl⟩ := List.exists_cons_of_ne_nil hne
  exact rowPlain_of_nonzero ⟨b, List.mem_cons_self, hb b List.mem_cons_self⟩

theorem showResult_row (hS : S.Ideal (clientParams bfvDefault) keygen) (coins : S.Coins) (cha : Nat)
    (hmsg : S.msg (clientParams bfvDefault) keygen accum =
      4096 * (rowPlain data).denote (clientParams bfvDefault))
    (hne : data ≠ []) (hlen : data.length ≤ 4096) (hb : ∀ b ∈ data, b ≠ 0) :
    wp (showResult S (clientParams bfvDefault) keygen coins cha
        (S.saveCiphertext S.comprModeDefault accum))
      (fun out _ => out = data.map .char ++ [.endl]) (fun _ _ => False) log := by
  have hload := hS.loadCiphertext_saved S.comprModeDefault accum
  have hrow := rowPlain_of_noNul hne hb
  have hrowlen : (rowPlain data).coeffs.length ≤ 4096 := (rowPlain_length_le data).trans hlen
  obtain ⟨decrypted, hdec, hden, hdeclen, -⟩ := hS.decrypt_spec accum
  obtain ⟨temp, henc⟩ := encrypt_inverse hS.toLawful coins
  have hnonzero : ¬decrypted.IsZero := by
    intro hz
    have hzero : (rowPlain data).denote (clientParams bfvDefault) = 0 := by
      rw [← descale ((rowPlain data).denote _), ← hmsg, ← hden, denote_eq_zero_of_isZero hz,
        mul_zero]
    have hrowzero := isZero_of_denote_eq_zero clientDegree_pos hrowlen
      (rowPlain_lt_modulus data) hzero
    obtain ⟨b, rest, rfl⟩ := List.exists_cons_of_ne_nil hne
    exact hb b List.mem_cons_self (rowPlain_isZero.1 hrowzero b List.mem_cons_self)
  obtain ⟨result, hmul⟩ := hS.multiplyPlain_returns temp decrypted hdeclen hnonzero
  obtain ⟨final, hfin, hfinden, hfinlen, hfinlt⟩ := hS.decrypt_spec result
  simp only [showResult, hload, hdec, plaintext_inverse hS.toLawful, henc, hmul, hfin,
    hS.toString_eq, wp_bind, SealM.wp_call_ok, wp_pure]
  have hvalue : final.denote (clientParams bfvDefault) = (rowPlain data).denote _ := by
    rw [hfinden, hS.msg_multiplyPlain hmul, hS.msg_encrypt henc, hden, hmsg, descale]
  have hcoeffs := coeffs_eq_of_denote_eq clientDegree_pos hfinlen hfinlt hrowlen
    (rowPlain_lt_modulus data) hvalue
  rw [hrow] at hcoeffs
  exact parseTerms_print cha hne hb hcoeffs

/-- The client cannot multiply by a zero result: SEAL refuses the transparent product. -/
theorem showResult_zero (hS : S.Ideal (clientParams bfvDefault) keygen) (coins : S.Coins) (cha : Nat)
    (hmsg : S.msg (clientParams bfvDefault) keygen accum = 0) :
    wp (showResult S (clientParams bfvDefault) keygen coins cha
        (S.saveCiphertext S.comprModeDefault accum))
      (fun _ _ => False) (fun e _ => ∃ x, e = .throws x) log := by
  have hload := hS.loadCiphertext_saved S.comprModeDefault accum
  obtain ⟨decrypted, hdec, hden, hdeclen, hdeclt⟩ := hS.decrypt_spec accum
  obtain ⟨temp, henc⟩ := encrypt_inverse hS.toLawful coins
  have hzero := isZero_of_denote_eq_zero clientDegree_pos hdeclen hdeclt (hden.trans hmsg)
  obtain ⟨x, hmul⟩ := hS.multiplyPlain_throws temp decrypted (Or.inr hzero)
  simp only [showResult, hload, hdec, plaintext_inverse hS.toLawful, henc, hmul, wp_bind,
    SealM.wp_call_ok, SealM.wp_call_error]
  exact ⟨x, rfl⟩

end Descale

end MuchPIR
