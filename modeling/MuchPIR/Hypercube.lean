import Mathlib.Analysis.SpecialFunctions.Pow.Real
import MuchPIR.Client

namespace MuchPIR
set_option autoImplicit true

variable {polyDegree dbSize : Nat}

theorem ceilRoot_le_iff : ceilRoot v d ≤ r ↔ v ≤ r ^ (d + 1) := by
  constructor
  · intro h
    exact (Nat.find_spec (exists_root v d)).trans (Nat.pow_le_pow_left h (d + 1))
  · exact fun h => Nat.find_min' (exists_root v d) h

theorem isLeast_ceilRoot (v d : Nat) : IsLeast {r | v ≤ r ^ (d + 1)} (ceilRoot v d) :=
  ⟨ceilRoot_le_iff.1 le_rfl, fun _ h => ceilRoot_le_iff.2 h⟩

/-- The root is the ceiling of the real power that the source computes. -/
theorem ceilRoot_eq_ceil (v d : Nat) :
    ceilRoot v d = ⌈(v : ℝ) ^ ((1 : ℝ) / ((d : ℝ) + 1))⌉₊ := by
  have hroot : 0 ≤ (v : ℝ) ^ ((1 : ℝ) / ((d : ℝ) + 1)) := Real.rpow_nonneg (Nat.cast_nonneg v) _
  have hpow : ((v : ℝ) ^ ((1 : ℝ) / ((d : ℝ) + 1))) ^ (d + 1) = v := by
    rw [one_div, ← Nat.cast_add_one]
    exact Real.rpow_inv_natCast_pow (Nat.cast_nonneg v) (Nat.succ_ne_zero d)
  apply eq_of_forall_ge_iff
  intro r
  rw [ceilRoot_le_iff, Nat.ceil_le, ← pow_le_pow_iff_left₀ hroot (Nat.cast_nonneg r)
    (Nat.succ_ne_zero d), hpow]
  exact_mod_cast Iff.rfl

theorem hcubeLoop_exit (h : hcubeLen ≤ polyDegree) (fuel : Nat) :
    hcubeLoop polyDegree dbSize fuel hcubeDim hcubeLen = (hcubeDim, hcubeLen) := by
  cases fuel with
  | zero => rfl
  | succ fuel => rw [hcubeLoop, if_neg (Nat.not_lt.2 h)]

def Dims (polyDegree dbSize : Nat) : Set Nat := {d | 1 ≤ d ∧ dbSize ≤ polyDegree ^ d}

/-- After `k` passes the side is the root of order `k`, so the loop goes on until `k` is the least
sufficient dimension count. -/
theorem hcubeLoop_least (hd : IsLeast (Dims polyDegree dbSize) d) (hlen : polyDegree < hcubeLen)
    (hk : k < d) (hfuel : d ≤ k + fuel) :
    hcubeLoop polyDegree dbSize fuel k hcubeLen = (d, ceilRoot dbSize (d - 1)) := by
  induction fuel generalizing k hcubeLen with
  | zero => omega
  | succ fuel ih =>
    rw [hcubeLoop, if_pos hlen]
    rcases Nat.lt_or_ge (k + 1) d with hlt | hge
    · apply ih _ hlt (by omega)
      -- a side that fitted already would make `k + 1` sufficient
      by_contra hle
      have hpow := ceilRoot_le_iff.1 (Nat.not_lt.1 hle)
      exact absurd (hd.2 ⟨Nat.succ_pos k, hpow⟩) (Nat.not_le.2 hlt)
    · obtain rfl : k + 1 = d := by omega
      exact hcubeLoop_exit (ceilRoot_le_iff.2 hd.1.2) fuel

theorem exists_dims (hdeg : 2 ≤ polyDegree) (dbSize : Nat) :
    ∃ d, IsLeast (Dims polyDegree dbSize) d := by
  have hex : ∃ d, 1 ≤ d ∧ dbSize ≤ polyDegree ^ d := by
    refine ⟨dbSize + 1, Nat.succ_pos _, ?_⟩
    exact (Nat.lt_pow_self hdeg).le.trans (Nat.pow_le_pow_right (by omega) (Nat.le_succ _))
  exact ⟨Nat.find hex, Nat.find_spec hex, fun _ h => Nat.find_min' hex h⟩

theorem dims_le_clog (hdeg : 2 ≤ polyDegree) (hd : IsLeast (Dims polyDegree dbSize) d) :
    d ≤ max 1 (Nat.clog 2 dbSize) := by
  apply hd.2
  refine ⟨le_max_left _ _, ?_⟩
  calc
    dbSize ≤ 2 ^ Nat.clog 2 dbSize := Nat.le_pow_clog (by omega) _
    _ ≤ polyDegree ^ Nat.clog 2 dbSize := Nat.pow_le_pow_left hdeg _
    _ ≤ polyDegree ^ max 1 (Nat.clog 2 dbSize) :=
      Nat.pow_le_pow_right (by omega) (le_max_right _ _)

theorem getHcubeParam_least (hdeg : 2 ≤ polyDegree) (hdeg' : polyDegree < 2 ^ 64 - 1)
    (hdb : dbSize < 2 ^ 64) (hd : IsLeast (Dims polyDegree dbSize) d) :
    getHcubeParam polyDegree dbSize = (d, ceilRoot dbSize (d - 1)) := by
  have hclog : Nat.clog 2 dbSize ≤ 64 := Nat.clog_le_of_le_pow hdb.le
  have hle := dims_le_clog hdeg hd
  exact hcubeLoop_least hd hdeg' hd.1.1 (by omega)

/-- The loop ends, however large the table, and what it ends with is the smallest hypercube: no
smaller dimension count is sufficient, and no smaller side for that many dimensions. -/
theorem getHcubeParam_smallest (hdeg : 2 ≤ polyDegree) (hdeg' : polyDegree < 2 ^ 64 - 1)
    (dbSize : Nat) :
    ∃ hcubeDim hcubeLen, IsLeast {d | 1 ≤ d ∧ dbSize ≤ polyDegree ^ d} hcubeDim ∧
      IsLeast {l | dbSize ≤ l ^ hcubeDim} hcubeLen ∧ hcubeLen ≤ polyDegree ∧
      (∀ fuel, hcubeDim ≤ fuel →
        hcubeLoop polyDegree dbSize fuel 0 (2 ^ 64 - 1) = (hcubeDim, hcubeLen)) ∧
      (dbSize < 2 ^ 64 → getHcubeParam polyDegree dbSize = (hcubeDim, hcubeLen)) := by
  obtain ⟨d, hd⟩ := exists_dims hdeg dbSize
  have hroot := isLeast_ceilRoot dbSize (d - 1)
  have hle : ceilRoot dbSize (d - 1) ≤ polyDegree := by
    rw [ceilRoot_le_iff, Nat.sub_add_cancel hd.1.1]
    exact hd.1.2
  rw [Nat.sub_add_cancel hd.1.1] at hroot
  refine ⟨d, ceilRoot dbSize (d - 1), hd, hroot, hle, fun fuel hfuel => ?_, fun hdb => ?_⟩
  · exact hcubeLoop_least hd hdeg' hd.1.1 (by omega)
  · exact getHcubeParam_least hdeg hdeg' hdb hd

theorem getHcubeParam_smallest_ten_million : getHcubeParam 4096 10000000 = (2, 3163) := by
  obtain ⟨d, l, hd, hl, -, -, hparam⟩ :=
    @getHcubeParam_smallest 4096 (by norm_num) (by norm_num) 10000000
  have htwo : IsLeast {d | 1 ≤ d ∧ 10000000 ≤ 4096 ^ d} 2 := by
    refine ⟨⟨by norm_num, by norm_num⟩, ?_⟩
    rintro e ⟨he, hpow⟩
    by_contra hlt
    obtain rfl : e = 1 := by omega
    exact absurd hpow (by norm_num)
  obtain rfl := hd.unique htwo
  have hside : IsLeast {l | 10000000 ≤ l ^ 2} 3163 := by
    refine ⟨by norm_num, fun e he => ?_⟩
    by_contra hlt
    have hpow : e ^ 2 ≤ 3162 ^ 2 := Nat.pow_le_pow_left (by omega) 2
    exact absurd (he.trans hpow) (by norm_num)
  rw [hparam (by norm_num), hl.unique hside]

end MuchPIR
