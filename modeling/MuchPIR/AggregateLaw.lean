import MuchPIR.Client
import MuchPIR.ExactSeal
import MuchPIR.ServerSemantics
import MuchPIR.ServerTrace

namespace MuchPIR
open Prog Server Negacyclic
set_option autoImplicit true

variable {S : Seal} {params : Params} {keygen : S.KeyGenerator}

theorem unloads_queryMessage (hS : S.Lawful params keygen) (c : S.Ciphertext) :
    Unloads S params keygen (queryMessage S params keygen c) c := by
  have hkeys := hS.loadGaloisKeys_save S.comprModeDefault
    (generateGaloisKeys S params keygen params.polyModulusDegree) (S.saveCiphertext .none c)
  have hcipher := hS.loadCiphertext_saved .none c
  refine ⟨_, _, _, ?_, hkeys, hcipher⟩
  rw [queryMessage, List.append_assoc]
  exact hS.loadParams_save _ _

theorem encodedAs_rowPlain (hS : S.Lawful params keygen) (hne : row ≠ [])
    (hlast : (row.getD (row.length - 1) 0).toNat < 0x80) : EncodedAs S row (rowPlain row) :=
  ⟨rowText row, by rw [stringToHexPoly_eq hne, if_pos hlast], hS.plaintext_rowText hne⟩

theorem EncodedAs.eq_rowPlain (hS : S.Lawful params keygen) (h : EncodedAs S row plain) :
    (row.getD (row.length - 1) 0).toNat < 0x80 ∧ plain = rowPlain row := by
  obtain ⟨hexPoly, htext, hplain⟩ := h
  by_cases hne : row = []
  · subst hne
    rw [stringToHexPoly_nil] at htext
    cases htext
    rw [hS.plaintext_of_spells spells_zero (by decide)] at hplain
    cases hplain
    exact ⟨by decide, rfl⟩
  · rw [stringToHexPoly_eq hne] at htext
    split at htext
    · next hlast =>
      cases htext
      rw [hS.plaintext_rowText hne] at hplain
      cases hplain
      exact ⟨hlast, rfl⟩
    · cases htext

theorem EncodedAs.accepted (hS : S.Lawful params keygen) (h : EncodedAs S row plain)
    (hmul : ∃ d e, S.multiplyPlain params d plain = .ok e) :
    Accepted params.polyModulusDegree row ∧ plain = rowPlain row := by
  obtain ⟨hlast, rfl⟩ := h.eq_rowPlain hS
  refine ⟨(accepted_iff _ row).2 ⟨hlast, ?_⟩, rfl⟩
  by_contra hno
  obtain ⟨d, e, he⟩ := hmul
  have hbad : params.polyModulusDegree < (rowPlain row).coeffs.length ∨ (rowPlain row).IsZero := by
    by_contra hgood
    push Not at hgood
    exact hno hgood
  obtain ⟨e', he'⟩ := hS.multiplyPlain_throws d (rowPlain row) hbad
  rw [he] at he'
  cases he'

theorem sum_range_dbSize {coeffs : Nat → ZMod params.plainModulus} (hk : dbSize ≤ 2 ^ k) :
    ∑ j ∈ Finset.range dbSize, coeffs j • params.x ^ j =
      ∑ j ∈ Finset.range (2 ^ k), (if j < dbSize then coeffs j else 0) • params.x ^ j := by
  rw [← Finset.sum_subset (Finset.range_mono hk)]
  · apply Finset.sum_congr rfl
    intro j hj
    rw [if_pos (Finset.mem_range.1 hj)]
  · intro j _ hj
    rw [if_neg fun h => hj (Finset.mem_range.2 h), zero_smul]

theorem twelve_le (h : dbSize ≤ 2 ^ k) : 12 ≤ k := by
  by_contra hlt
  have hpow : 2 ^ k ≤ 2 ^ 11 := Nat.pow_le_pow_right (by omega) (by omega)
  have hdb : dbSize = 4096 := rfl
  omega

/-- The client's ramp query, in the exact scheme with ciphertexts that fit. -/
theorem demo_run_returns (pad : Nat) (palloc junk : Memory)
    (hpad : 8 * demoParams.polyModulusDegree + pad ≤ cipherSize2Bytes) (hne : rows ≠ [])
    (hrows : rows.length ≤ dbSize)
    (hall : ∀ row ∈ rows, Accepted demoParams.polyModulusDegree row) :
    ∃ w, run (exactSeal demoParams pad) palloc junk
      (queryMessage (exactSeal demoParams pad) demoParams () rampQuery) rows = (.ok (), w) := by
  obtain ⟨-, -, -, w, -, -, -, -, hrun, -⟩ :=
    run_returns palloc junk (k := 12) (demo_ideal pad) (exactSeal_fits pad hpad (by decide))
      (by norm_num [demoParams]) le_rfl (unloads_queryMessage (demo_ideal pad).toLawful rampQuery)
      (rampQuery_msg pad) hne hrows hall
  exact ⟨w, hrun⟩

/-- The aggregate is linear in the query: after the rows it holds 4096 times the sum of the rows
weighted with the coefficients of the query, and still what the first call stored. -/
theorem aggregate_linear {k : Nat} {c : S.Ciphertext} {coeffs : Nat → ZMod params.plainModulus}
    {palloc junk : Memory} {query : Bytes} {rows : List Bytes}
    (hS : S.Ideal params keygen) (hfit : FitsSlots S params)
    (hn : params.polyModulusDegree = 2 ^ k) (hk : 4096 ≤ params.polyModulusDegree)
    (hq : Unloads S params keygen query c)
    (hc : S.msg params keygen c = ∑ j ∈ Finset.range 4096, coeffs j • params.x ^ j)
    (hpos : 1 ≤ rows.length) (hrows : rows.length ≤ 4096) (plain : Nat → Plaintext)
    (hplain : ∀ i (hi : i < rows.length), EncodedAs S rows[i] (plain i))
    (hmul : ∀ i < rows.length, ∀ d, ∃ e, S.multiplyPlain params d (plain i) = .ok e) :
    ∃ first w, run S palloc junk query (rows.take 1) = (.ok (), first) ∧
      run S palloc junk query rows = (.ok (), w) ∧ w.state.rowIdx = rows.length ∧
      fields.load w.state.data .param = fields.load first.state.data .param ∧
      (∀ jj < polyDegree,
        fields.load w.state.data (.dim1 jj) = fields.load first.state.data (.dim1 jj)) ∧
      ∃ bytes accum rest result, (pirFinal w).1 = .ok bytes ∧
        bytes = fields.load w.state.data .accum ∧
        S.loadCiphertext params bytes = .ok (accum, rest) ∧
        S.decrypt params keygen accum = .ok result ∧
        result.denote params =
          4096 * ∑ i ∈ Finset.range rows.length, coeffs i • (plain i).denote params := by
  have hdb : dbSize ≤ 2 ^ k := hn ▸ hk
  have hrow (i : Nat) (hi : i < rows.length) :
      Accepted params.polyModulusDegree rows[i] ∧ plain i = rowPlain rows[i] :=
    (hplain i hi).accepted hS.toLawful ⟨c, hmul i hi c⟩
  have hall : ∀ row ∈ rows, Accepted params.polyModulusDegree row := by
    intro row hmem
    obtain ⟨i, hi, rfl⟩ := List.getElem_of_mem hmem
    exact (hrow i hi).1
  have hne : rows ≠ [] := List.length_pos_iff.1 hpos
  have hsum : S.msg params keygen c = ∑ j ∈ Finset.range (2 ^ k),
      (if j < dbSize then coeffs j else 0) • params.x ^ j := hc.trans (sum_range_dbSize hdb)
  obtain ⟨dims, first, accum₁, w, accum, hexp, hfirst, hrun₁, hrun, hrunning, hmsg⟩ :=
    run_returns palloc junk hS hfit hn (twelve_le hdb) hq hsum hne hrows hall
  obtain ⟨result, hdec, hresult, -, -⟩ := hS.decrypt_spec accum
  have hload := hS.loadCiphertext_saved S.comprModeDefault accum
  rw [← hrunning.load_accum] at hload
  refine ⟨first, w, hfirst, hrun, hrunning.rowIdx_eq, ?_, fun jj hjj => ?_, _, accum, [], result,
    rfl, rfl, hload, hdec, ?_⟩
  · rw [hrunning.load_param, hrun₁.load_param]
  · rw [hrunning.load_dim1 hjj, hrun₁.load_dim1 hjj]
  · rw [hresult, hmsg, selected_expanded (twelve_le hdb) hexp
      (fun j hj _ => if_neg (Nat.not_lt.2 hj)) hrows]
    congr 1
    apply Finset.sum_congr rfl
    intro i hi
    have hlt := Finset.mem_range.1 hi
    have hidx : i < dbSize := hlt.trans_le hrows
    rw [if_pos hidx, List.getD_eq_getElem _ _ hlt, (hrow i hlt).2]

/-- The column `Fred`, `Ann`. -/
def twoNames : List Bytes := [[0x46, 0x72, 0x65, 0x64], [0x41, 0x6e, 0x6e]]

theorem aggregate_linear_two_names :
    ∃ first w, run (exactSeal demoParams 0) (fun _ => 0) (fun _ => 0)
        (queryMessage (exactSeal demoParams 0) demoParams () rampQuery) (twoNames.take 1) =
        (.ok (), first) ∧
      run (exactSeal demoParams 0) (fun _ => 0) (fun _ => 0)
        (queryMessage (exactSeal demoParams 0) demoParams () rampQuery) twoNames = (.ok (), w) ∧
      w.state.rowIdx = 2 ∧
      fields.load w.state.data .param = fields.load first.state.data .param ∧
      (∀ jj < polyDegree,
        fields.load w.state.data (.dim1 jj) = fields.load first.state.data (.dim1 jj)) ∧
      ∃ bytes accum rest result, (pirFinal w).1 = .ok bytes ∧
        bytes = fields.load w.state.data .accum ∧
        (exactSeal demoParams 0).loadCiphertext demoParams bytes = .ok (accum, rest) ∧
        (exactSeal demoParams 0).decrypt demoParams () accum = .ok result ∧
        result.denote demoParams = 4096 * ∑ i ∈ Finset.range 2,
          ((i : Nat) : ZMod demoParams.plainModulus) •
            (rowPlain (twoNames.getD i [])).denote demoParams := by
  have hlaw := (demo_ideal 0).toLawful
  have hacc : ∀ row ∈ twoNames, row ≠ [] ∧ Accepted demoParams.polyModulusDegree row := by decide
  have hgood (i : Nat) (hi : i < twoNames.length) :
      twoNames[i] ≠ [] ∧ Accepted demoParams.polyModulusDegree twoNames[i] :=
    hacc _ (List.getElem_mem hi)
  refine aggregate_linear (k := 12) (demo_ideal 0) demo_fits
    (by norm_num [demoParams]) (by decide) (unloads_queryMessage hlaw rampQuery)
    (rampQuery_msg 0) (by decide) (by decide) (fun i => rowPlain (twoNames.getD i [])) ?_ ?_
  · intro i hi
    rw [List.getD_eq_getElem _ _ hi]
    obtain ⟨hne, hrow⟩ := hgood i hi
    exact encodedAs_rowPlain hlaw hne ((accepted_iff _ _).1 hrow).1
  · intro i hi d
    rw [List.getD_eq_getElem _ _ hi]
    obtain ⟨-, hlen, hzero⟩ := (accepted_iff _ _).1 (hgood i hi).2
    exact hlaw.multiplyPlain_returns d _ hlen hzero

end MuchPIR
