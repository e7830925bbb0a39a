import MuchPIR.ExactSeal
import MuchPIR.ExpandSemantics
import MuchPIR.ExpandTrace

namespace MuchPIR
open Prog Negacyclic
set_option autoImplicit true

variable {S : Seal} {params : Params} {keygen : S.KeyGenerator} {k : Nat}

theorem expansionElts_two_pow (k : Nat) : expansionElts (2 ^ k) = generateGaloisElts (2 ^ k) := by
  rw [generateGaloisElts_two_pow, expansionElts, clog_two_pow]

theorem Seal.Lawful.serves (hS : S.Lawful params keygen) (hn : params.polyModulusDegree = 2 ^ k) :
    Serves S params (generateGaloisKeys S params keygen (2 ^ k))
      (expansionElts params.polyModulusDegree) where
  applyGalois g hg c := by
    rw [hn, expansionElts_two_pow, generateGaloisElts_two_pow] at hg
    obtain ⟨i, hi, rfl⟩ := List.mem_map.1 hg
    exact applyGalois_level hS hn (List.mem_range.1 hi) c
  add := hS.add_returns
  plaintext := ⟨_, plaintext_two hS⟩
  double two htwo c := by
    rw [plaintext_two hS] at htwo
    cases htwo
    exact hS.multiplyPlain_returns c ⟨[2]⟩ (by rw [hn]; exact Nat.two_pow_pos k) (by decide)

/-- The expansion of `∑ j, c j * x ^ j` to `m` entries. Entry `a` collects the powers congruent to
`a` modulo the next power of two, except in the corner case of the last level, where the modulus is
half of it. -/
theorem expandQuery_expands (hS : S.Ideal params keygen) (hn : params.polyModulusDegree = 2 ^ k)
    (m : UInt32) (hm : 2 ≤ m.toNat) (hmn : m.toNat ≤ 2 ^ k) (c : Nat → ZMod params.plainModulus)
    (hc : S.msg params keygen encrypted = ∑ j ∈ Finset.range (2 ^ k), c j • params.x ^ j) :
    ∃ v ops, expandQuery S params (generateGaloisKeys S params keygen (2 ^ k)) encrypted m.toNat [] =
        (.ok v, ops) ∧ v.length = m.toNat ∧
      (∀ a < m.toNat, ∃ e, v[a]? = some (some e) ∧ S.msg params keygen e =
        if m.toNat - 2 ^ (Nat.clog 2 m.toNat - 1) ≤ a ∧ a < 2 ^ (Nat.clog 2 m.toNat - 1) then
          2 ^ Nat.clog 2 m.toNat * ∑ j ∈ (Finset.range (2 ^ k)).filter
            (fun j => j % 2 ^ (Nat.clog 2 m.toNat - 1) = a), c j • params.x ^ (j - a)
        else
          2 ^ Nat.clog 2 m.toNat * ∑ j ∈ (Finset.range (2 ^ k)).filter
            (fun j => j % 2 ^ Nat.clog 2 m.toNat = a), c j • params.x ^ (j - a)) ∧
      ((∀ j, m.toNat ≤ j → j < 2 ^ k → c j = 0) → ∀ a < m.toNat, ∃ e, v[a]? = some (some e) ∧
        S.msg params keygen e = 2 ^ Nat.clog 2 m.toNat * c a • (1 : params.Ring)) ∧
      ∀ g, .applyGalois g ∈ ops → g ∈ generateGaloisElts (2 ^ k) := by
  have hlog : Nat.clog 2 m.toNat - 1 + 1 = Nat.clog 2 m.toNat :=
    Nat.sub_add_cancel (Nat.clog_pos (by omega) hm)
  have hlow : 2 ^ (Nat.clog 2 m.toNat - 1) < m.toNat := Nat.pow_pred_clog_lt_self (by omega) hm
  have htrace : wp (expandQuery S params (generateGaloisKeys S params keygen (2 ^ k)) encrypted
      m.toNat) _ _ [] :=
    expandQuery_trace hm m.toNat_lt (onlyExpansion_nil _) encrypted
  obtain ⟨v, ops, hrun, ⟨hlen, hentries⟩, -, -, honly⟩ := wp_returns
    (wp_mono (wp_and (expandQuery_spec hS hn hm hmn m.toNat_lt hc) htrace) (fun _ _ h => h)
      fun _ _ h => h.1)
  refine ⟨v, ops, hrun, hlen, fun a ha => ?_, fun hsupp a ha => ?_, fun g hg => ?_⟩
  · obtain ⟨e, he, hmsg⟩ := hentries a ha
    refine ⟨e, he, ?_⟩
    rw [hmsg, expanded, hlog]
    rfl
  · obtain ⟨e, he, hmsg⟩ := hentries a ha
    refine ⟨e, he, ?_⟩
    have hhigh : m.toNat ≤ 2 ^ (Nat.clog 2 m.toNat - 1 + 1) := by
      rw [hlog]
      exact Nat.le_pow_clog (by omega) _
    rw [hmsg, expanded_of_support hsupp hlow hhigh hmn ha, hlog]
  · have hmem := honly _ hg
    rw [hn, expansionElts_two_pow] at hmem
    exact hmem

theorem expandQuery_expands_five :
    ∃ v ops, expandQuery (exactSeal demoParams 0) demoParams
        (generateGaloisKeys (exactSeal demoParams 0) demoParams () (2 ^ 12)) rampQuery 5 [] =
        (.ok v, ops) ∧ v.length = 5 ∧
      ∃ e, v[1]? = some (some e) ∧ (exactSeal demoParams 0).msg demoParams () e =
        2 ^ 3 * ∑ j ∈ (Finset.range (2 ^ 12)).filter (fun j => j % 4 = 1),
          ((j : Nat) : ZMod demoParams.plainModulus) • demoParams.x ^ (j - 1) := by
  obtain ⟨v, ops, hrun, hlen, hentries, -, -⟩ := expandQuery_expands (k := 12) (demo_ideal 0)
    (by norm_num [demoParams]) 5 (by decide) (by decide) _ (rampQuery_msg 0)
  have hfive : (5 : UInt32).toNat = 5 := rfl
  have hlog : Nat.clog 2 5 = 3 := by
    apply Nat.le_antisymm (Nat.clog_le_of_le_pow (by norm_num))
    exact (Nat.lt_clog_iff_pow_lt (by norm_num)).2 (by norm_num)
  rw [hfive] at hrun hlen hentries
  obtain ⟨e, he, hmsg⟩ := hentries 1 (by norm_num)
  rw [hlog, if_pos (by norm_num)] at hmsg
  exact ⟨v, ops, hrun, hlen, e, he, hmsg⟩

end MuchPIR
