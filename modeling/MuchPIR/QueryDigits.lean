import MuchPIR.ExactSeal
import MuchPIR.Hypercube
import MuchPIR.Machine

namespace MuchPIR
open Prog Machine
set_option autoImplicit true

section Digits

/-- Digit `k` of `hcubeDim` digits in base `hcubeLen`, the most significant one first. -/
def indexDigit (hcubeDim hcubeLen rowIndex k : Nat) : Nat :=
  rowIndex / hcubeLen ^ (hcubeDim - 1 - k) % hcubeLen

theorem indexDigit_last (hcubeDim hcubeLen rowIndex : Nat) :
    indexDigit (hcubeDim + 1) hcubeLen rowIndex hcubeDim = rowIndex % hcubeLen := by
  rw [indexDigit, Nat.add_sub_cancel, Nat.sub_self, pow_zero, Nat.div_one]

theorem indexDigit_init (hk : k < hcubeDim) (hcubeLen rowIndex : Nat) :
    indexDigit (hcubeDim + 1) hcubeLen rowIndex k =
      indexDigit hcubeDim hcubeLen (rowIndex / hcubeLen) k := by
  have hpower : hcubeDim + 1 - 1 - k = hcubeDim - 1 - k + 1 := by omega
  rw [indexDigit, indexDigit, hpower, pow_succ', Nat.div_div_eq_div_mul]

theorem sum_indexDigit_eq_mod (hcubeDim hcubeLen rowIndex : Nat) :
    ∑ k ∈ Finset.range hcubeDim,
        indexDigit hcubeDim hcubeLen rowIndex k * hcubeLen ^ (hcubeDim - 1 - k) =
      rowIndex % hcubeLen ^ hcubeDim := by
  have hlow : ∑ i ∈ Finset.range hcubeDim, rowIndex / hcubeLen ^ i % hcubeLen * hcubeLen ^ i =
      rowIndex % hcubeLen ^ hcubeDim := by
    induction hcubeDim with
    | zero => rw [Finset.sum_range_zero, pow_zero, Nat.mod_one]
    | succ hcubeDim ih => rw [Finset.sum_range_succ, ih, Nat.mod_pow_succ, mul_comm (_ % _)]
  exact (Finset.sum_range_reflect
    (fun i => rowIndex / hcubeLen ^ i % hcubeLen * hcubeLen ^ i) hcubeDim).trans hlow

theorem sum_indexDigit (h : rowIndex < hcubeLen ^ hcubeDim) :
    ∑ k ∈ Finset.range hcubeDim,
        indexDigit hcubeDim hcubeLen rowIndex k * hcubeLen ^ (hcubeDim - 1 - k) = rowIndex := by
  rw [sum_indexDigit_eq_mod, Nat.mod_eq_of_lt h]

end Digits

theorem oneHot_injective (hi : i < n) (h : oneHot n i = oneHot n j) : i = j := by
  have hlen : i < (oneHot n i).coeffs.length := by
    rw [oneHot, List.length_set, List.length_replicate]
    exact hi
  have hone : (oneHot n i).coeffs[i]? = some 1 := by
    rw [oneHot, List.getElem?_set_self (by rwa [List.length_replicate])]
  by_contra hne
  rw [h, oneHot, List.getElem?_set_ne (Ne.symm hne), List.getElem?_replicate, if_pos hi] at hone
  cases hone

section Query

variable (S : Seal) (params : Params) (keygen : S.KeyGenerator) (coins : Nat → S.Coins)

/-- The loop of `generate_query` with its divisions and its write into the plaintext. -/
def checkedQueryDims (polyModDegree hcubeLen : Nat) : Nat → Nat → Machine (List (List S.Ciphertext))
  | 0, _ => pure []
  | hcubeDim + 1, rowIndex => do
    check (.divide hcubeLen)
    let subIndex := rowIndex % hcubeLen
    check (.index subIndex polyModDegree)
    check (.divide hcubeLen)
    let dest ← runSeal (SealM.call .encrypt
      (S.encrypt params keygen (coins hcubeDim) (oneHot polyModDegree subIndex)))
    let result ← checkedQueryDims polyModDegree hcubeLen hcubeDim (rowIndex / hcubeLen)
    return result ++ [[dest]]

def checkedGenerateQuery (rowIndex dbSize polyModDegree : Nat) :
    Machine (List (List S.Ciphertext)) :=
  checkedQueryDims S params keygen coins polyModDegree (getHcubeParam polyModDegree dbSize).2
    (getHcubeParam polyModDegree dbSize).1 rowIndex

/-- A query for `rowIndex`: one vector with one ciphertext for each dimension, which encrypts the
monomial of the digit there; the digits spell the index. -/
structure EncodesIndex (polyModDegree hcubeDim hcubeLen rowIndex : Nat)
    (result : List (List S.Ciphertext)) : Prop where
  length_eq : result.length = hcubeDim
  entries : ∀ k < hcubeDim, ∃ c, result[k]? = some [c] ∧
    S.encrypt params keygen (coins k)
      (oneHot polyModDegree (indexDigit hcubeDim hcubeLen rowIndex k)) = .ok c
  digit_lt : ∀ k < hcubeDim, indexDigit hcubeDim hcubeLen rowIndex k < hcubeLen
  sum_eq : ∑ k ∈ Finset.range hcubeDim,
    indexDigit hcubeDim hcubeLen rowIndex k * hcubeLen ^ (hcubeDim - 1 - k) = rowIndex

end Query

variable {S : Seal} {params : Params} {keygen : S.KeyGenerator} {coins : Nat → S.Coins}

theorem queryDims_entries (hencrypt : ∀ k, ∀ i < polyModDegree, ∃ c,
      S.encrypt params keygen (coins k) (oneHot polyModDegree i) = .ok c)
    (hpos : 0 < hcubeLen) (hle : hcubeLen ≤ polyModDegree) (hcubeDim rowIndex : Nat)
    (log : List SealOp) :
    wp (queryDims S params keygen coins polyModDegree hcubeLen hcubeDim rowIndex)
      (fun result _ => result.length = hcubeDim ∧ ∀ k < hcubeDim, ∃ c, result[k]? = some [c] ∧
        S.encrypt params keygen (coins k)
          (oneHot polyModDegree (indexDigit hcubeDim hcubeLen rowIndex k)) = .ok c)
      (fun _ _ => False) log := by
  induction hcubeDim generalizing rowIndex log with
  | zero => exact ⟨rfl, fun k hk => absurd hk (Nat.not_lt_zero k)⟩
  | succ hcubeDim ih =>
    obtain ⟨c, hc⟩ := hencrypt hcubeDim _ ((Nat.mod_lt rowIndex hpos).trans_le hle)
    simp only [queryDims, wp_bind, hc, SealM.wp_call_ok, wp_pure]
    apply wp_mono (ih _ _) _ (fun _ _ h => h)
    intro result _ hpost
    obtain ⟨hlen, hentries⟩ := hpost
    refine ⟨by rw [List.length_append, hlen]; rfl, fun k hk => ?_⟩
    rcases Nat.lt_succ_iff_lt_or_eq.1 hk with hlt | rfl
    · rw [List.getElem?_append_left (by omega), indexDigit_init hlt]
      exact hentries k hlt
    · refine ⟨c, ?_, by rw [indexDigit_last, hc]⟩
      rw [List.getElem?_append_right (by omega), hlen, Nat.sub_self]
      rfl

theorem checkedQueryDims_inStep (hpos : 0 < hcubeLen) (hle : hcubeLen ≤ polyModDegree)
    (hcubeDim rowIndex : Nat) (h : InStep 0 calls w) :
    Rel (queryDims S params keygen coins polyModDegree hcubeLen hcubeDim rowIndex)
      (checkedQueryDims S params keygen coins polyModDegree hcubeLen hcubeDim rowIndex)
      (fun a b calls w => a = b ∧ InStep 0 calls w) SomeLevels calls w := by
  induction hcubeDim generalizing rowIndex calls w with
  | zero => exact ⟨rfl, h⟩
  | succ hcubeDim ih =>
    have hdivide : (MachineOp.divide hcubeLen).Defined := Nat.pos_iff_ne_zero.1 hpos
    have hindex : (MachineOp.index (rowIndex % hcubeLen) polyModDegree).Defined :=
      (Nat.mod_lt _ hpos).trans_le hle
    rw [queryDims, checkedQueryDims]
    apply h.check hdivide rfl
    intro w h
    apply h.check hindex rfl
    intro w h
    apply h.check hdivide rfl
    intro w h
    apply Rel.bind (h.runSeal _)
    rintro dest _ calls w ⟨rfl, h⟩
    apply Rel.bind (ih _ h)
    rintro result _ calls w ⟨rfl, h⟩
    exact ⟨rfl, h⟩

/-- For every index of every table: no operation is undefined, and the query holds the digits of
the index, from which the index can be told. -/
theorem generateQuery_encodes (hencrypt : ∀ k, ∀ i < polyModDegree, ∃ c,
      S.encrypt params keygen (coins k) (oneHot polyModDegree i) = .ok c)
    (hdeg : 2 ≤ polyModDegree) (hdeg' : polyModDegree < 2 ^ 64 - 1) (dbSize : UInt64)
    (hi : rowIndex < dbSize.toNat) :
    ∃ hcubeDim hcubeLen result w, getHcubeParam polyModDegree dbSize.toNat = (hcubeDim, hcubeLen) ∧
      checkedGenerateQuery S params keygen coins rowIndex dbSize.toNat polyModDegree ⟨[], []⟩ =
        (.ok result, w) ∧
      generateQuery S params keygen coins rowIndex dbSize.toNat polyModDegree [] =
        (.ok result, w.calls) ∧
      (∀ op ∈ w.ops, op.Defined) ∧ hcubeLen ≤ polyModDegree ∧
      EncodesIndex S params keygen coins polyModDegree hcubeDim hcubeLen rowIndex result ∧
      ∀ rowIndex' < dbSize.toNat, (∀ k < hcubeDim,
        oneHot polyModDegree (indexDigit hcubeDim hcubeLen rowIndex k) =
          oneHot polyModDegree (indexDigit hcubeDim hcubeLen rowIndex' k)) →
        rowIndex = rowIndex' := by
  obtain ⟨d, hd⟩ := exists_dims hdeg dbSize.toNat
  have hparam := getHcubeParam_least hdeg hdeg' dbSize.toNat_lt hd
  have hroot : dbSize.toNat ≤ ceilRoot dbSize.toNat (d - 1) ^ (d - 1 + 1) :=
    (isLeast_ceilRoot dbSize.toNat (d - 1)).1
  have hle : ceilRoot dbSize.toNat (d - 1) ≤ polyModDegree := by
    rw [ceilRoot_le_iff, Nat.sub_add_cancel hd.1.1]
    exact hd.1.2
  generalize ceilRoot dbSize.toNat (d - 1) = hcubeLen at hparam hroot hle
  rw [Nat.sub_add_cancel hd.1.1] at hroot
  have hpos : 0 < hcubeLen := by
    rcases Nat.eq_zero_or_pos hcubeLen with rfl | hpos
    · rw [zero_pow (Nat.pos_iff_ne_zero.1 hd.1.1)] at hroot
      omega
    · exact hpos
  obtain ⟨result, calls, hexact, hlen, hentries⟩ :=
    wp_returns (queryDims_entries hencrypt hpos hle d rowIndex [])
  obtain ⟨_, w, hchecked, rfl, rfl, hsane⟩ := (checkedQueryDims_inStep hpos hle d rowIndex
    ⟨rfl, MachineWorld.sane_start []⟩).returns hexact
  refine ⟨d, hcubeLen, result, w, hparam, ?_, ?_, hsane.defined, hle,
    ⟨hlen, hentries, fun k _ => Nat.mod_lt _ hpos, sum_indexDigit (hi.trans_le hroot)⟩, ?_⟩
  · rw [checkedGenerateQuery, hparam]
    exact hchecked
  · rw [generateQuery, hparam]
    exact hexact
  · intro rowIndex' hi' hsame
    rw [← sum_indexDigit (hi.trans_le hroot), ← sum_indexDigit (hi'.trans_le hroot)]
    apply Finset.sum_congr rfl
    intro k hk
    have hdigit : indexDigit d hcubeLen rowIndex k < polyModDegree :=
      (Nat.mod_lt _ hpos).trans_le hle
    rw [oneHot_injective hdigit (hsame k (Finset.mem_range.1 hk))]

theorem generateQuery_encodes_ten_million :
    ∃ hcubeDim hcubeLen result w, checkedGenerateQuery (exactSeal demoParams 0) demoParams ()
        (fun _ => ()) 1234567 10000000 4096 ⟨[], []⟩ = (.ok result, w) ∧
      EncodesIndex (exactSeal demoParams 0) demoParams () (fun _ => ()) 4096 hcubeDim hcubeLen
        1234567 result := by
  have hencrypt : ∀ k : Nat, ∀ i < 4096, ∃ c, (exactSeal demoParams 0).encrypt demoParams ()
      ((fun _ => () : Nat → Unit) k) (oneHot 4096 i) = .ok c :=
    fun _ i _ => encrypt_oneHot (demo_ideal 0).toLawful (by decide) () i
  have hi : 1234567 < (10000000 : UInt64).toNat := by decide
  obtain ⟨hcubeDim, hcubeLen, result, w, -, hrun, -, -, -, hresult, -⟩ :=
    generateQuery_encodes hencrypt (by norm_num) (by norm_num) 10000000 hi
  exact ⟨hcubeDim, hcubeLen, result, w, hrun, hresult⟩

end MuchPIR
