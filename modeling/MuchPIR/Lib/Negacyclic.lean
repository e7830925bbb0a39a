import Mathlib.Data.List.GetD
import Mathlib.RingTheory.AdjoinRoot
import Mathlib.Tactic

namespace Negacyclic
open Polynomial
set_option autoImplicit true

section Residue

variable {K R : Type} [CommRing K] [CommRing R] [Algebra K R] {x : R} {n M : Nat} {c : Nat → K}

/-- The terms of `∑ c j * x ^ j` whose exponent is `a` modulo `M`, divided by `x ^ a`. -/
def residue (x : R) (n : Nat) (c : Nat → K) (M a : Nat) : R :=
  ∑ j ∈ (Finset.range n).filter (fun j => j % M = a), c j • x ^ (j - a)

theorem pow_two_mul (hx : x ^ n = -1) : x ^ (2 * n) = 1 := by
  rw [mul_comm, pow_mul, hx, neg_one_sq]

theorem pow_mod (hx : x ^ n = -1) (e : Nat) : x ^ (e % (2 * n)) = x ^ e := by
  conv_rhs => rw [← Nat.div_add_mod e (2 * n), pow_add, pow_mul, pow_two_mul hx, one_pow, one_mul]

/-- The automorphism with `x ↦ x ^ (n / M + 1)` fixes or negates each power of `x ^ M`. -/
theorem fold_term (hx : x ^ n = -1) (hM : M ∣ n) {σ : R →ₐ[K] R} (hσ : σ x = x ^ (n / M + 1))
    (he : M ∣ e) (k : K) :
    k • x ^ e + σ (k • x ^ e) = if e / M % 2 = 0 then 2 * (k • x ^ e) else 0 := by
  obtain ⟨u, rfl⟩ := he
  have hσe : σ (x ^ (M * u)) = (-1) ^ u * x ^ (M * u) := by
    rw [map_pow, hσ, ← pow_mul, add_mul, one_mul, pow_add, ← mul_assoc, Nat.div_mul_cancel hM,
      pow_mul, hx]
  rcases Nat.eq_zero_or_pos M with rfl | hpos
  · simp only [zero_mul, pow_zero, map_smul, map_one, Nat.div_zero, Nat.zero_mod, if_true]
    rw [two_mul]
  · rw [map_smul, hσe, Nat.mul_div_cancel_left u hpos]
    rcases Nat.mod_two_eq_zero_or_one u with hu | hu
    · rw [if_pos hu, (Nat.even_iff.2 hu).neg_one_pow, one_mul, two_mul]
    · rw [if_neg (by omega), (Nat.odd_iff.2 hu).neg_one_pow, neg_one_mul, smul_neg, add_neg_cancel]

theorem exponent_eq (hj : j % M = a) : j - a = M * (j / M) := by
  have h := Nat.div_add_mod j M
  omega

/-- Passing from modulus `M` to `2 * M` splits a residue class by the parity of `j / M`. -/
theorem mod_mul_two (hj : j % M = a) : j % (M * 2) = a + M * (j / M % 2) := by
  rw [Nat.mod_mul, hj]

theorem sum_residue_eq (hM : 0 < M) (ha : a < M) (b : Nat) (f : Nat → R) :
    (∑ j ∈ (Finset.range n).filter (fun j => j % M = a),
        if j / M % 2 = b then f j else 0) =
      ∑ j ∈ (Finset.range n).filter (fun j => j % (M * 2) = a + M * b), f j := by
  rw [Finset.sum_filter, Finset.sum_filter]
  apply Finset.sum_congr rfl
  intro j _
  by_cases hj : j % M = a
  · rw [if_pos hj, mod_mul_two hj]
    have hiff : a + M * (j / M % 2) = a + M * b ↔ j / M % 2 = b := by
      rw [Nat.add_left_cancel_iff, Nat.mul_left_cancel_iff hM]
    simp only [hiff]
  · rw [if_neg hj, if_neg]
    intro h
    apply hj
    rw [← Nat.mod_mul_right_mod j M 2, h, Nat.add_mul_mod_self_left, Nat.mod_eq_of_lt ha]

/-- The first half of a level: the even members of the class survive, doubled. -/
theorem residue_add_galois (hx : x ^ n = -1) (hpos : 0 < M) (hM : M ∣ n) (ha : a < M)
    {σ : R →ₐ[K] R} (hσ : σ x = x ^ (n / M + 1)) :
    residue x n c M a + σ (residue x n c M a) = 2 * residue x n c (M * 2) a := by
  have hterm : ∀ j ∈ (Finset.range n).filter (fun j => j % M = a),
      c j • x ^ (j - a) + σ (c j • x ^ (j - a)) =
        if j / M % 2 = 0 then 2 * (c j • x ^ (j - a)) else 0 := by
    intro j hj
    have he := exponent_eq (Finset.mem_filter.1 hj).2
    rw [fold_term hx hM hσ (he ▸ Dvd.intro _ rfl), he, Nat.mul_div_cancel_left _ hpos]
  have hsum := sum_residue_eq (n := n) hpos ha 0 (fun j => 2 * (c j • x ^ (j - a)))
  rw [mul_zero, add_zero] at hsum
  rw [residue, map_sum, ← Finset.sum_add_distrib, Finset.sum_congr rfl hterm, hsum, residue,
    Finset.mul_sum]

/-- The second half of a level: shifted by `x ^ (-M)`, the odd members survive, doubled. -/
theorem shift_residue_add_galois (hx : x ^ n = -1) (hn : 0 < n) (hpos : 0 < M) (hM : M ∣ n)
    (ha : a < M) {σ : R →ₐ[K] R} (hσ : σ x = x ^ (n / M + 1)) :
    x ^ (2 * n - M) * residue x n c M a +
        x ^ ((2 * n - M) * (n / M + 1) % (2 * n)) * σ (residue x n c M a) =
      2 * residue x n c (M * 2) (a + M) := by
  have hle : M ≤ n := Nat.le_of_dvd hn hM
  obtain ⟨q, rfl⟩ := hM
  have hshift : x ^ ((2 * (M * q) - M) * (M * q / M + 1) % (2 * (M * q))) =
      σ (x ^ (2 * (M * q) - M)) := by
    rw [pow_mod hx, map_pow, hσ, ← pow_mul, mul_comm]
  have hterm : ∀ j ∈ (Finset.range (M * q)).filter (fun j => j % M = a),
      x ^ (2 * (M * q) - M) * (c j • x ^ (j - a)) +
          σ (x ^ (2 * (M * q) - M) * (c j • x ^ (j - a))) =
        if j / M % 2 = 1 then 2 * (c j • x ^ (j - (a + M))) else 0 := by
    intro j hj
    have he := exponent_eq (Finset.mem_filter.1 hj).2
    have hexp : 2 * (M * q) - M + M * (j / M) = M * (2 * q - 1 + j / M) := by
      rw [mul_add, Nat.mul_sub_one, mul_left_comm]
    rw [mul_smul_comm, ← pow_add, he, hexp,
      fold_term hx (Dvd.intro _ rfl) hσ (Dvd.intro _ rfl), Nat.mul_div_cancel_left _ hpos]
    have hq : 0 < q := Nat.pos_of_ne_zero fun h => by simp [h] at hn
    by_cases hodd : j / M % 2 = 1
    · rw [if_pos (by omega), if_pos hodd]
      have hexp' : M * (2 * q - 1 + j / M) = 2 * (M * q) + (j - (a + M)) := by
        have hone : 0 < j / M := Nat.pos_of_ne_zero fun h => by rw [h] at hodd; cases hodd
        have hge : M * 1 ≤ M * (j / M) := Nat.mul_le_mul_left M hone
        have hu : M * (j / M) = M + (j - (a + M)) := by omega
        rw [← hexp, hu]
        omega
      rw [hexp', pow_add, pow_two_mul hx, one_mul]
    · rw [if_neg (by omega), if_neg hodd]
  have hsum := sum_residue_eq (n := M * q) hpos ha 1
    (fun j => 2 * (c j • x ^ (j - (a + M))))
  rw [mul_one] at hsum
  rw [hshift, ← map_mul, residue, Finset.mul_sum, map_sum, ← Finset.sum_add_distrib,
    Finset.sum_congr rfl hterm, hsum, residue, Finset.mul_sum]

theorem residue_one : residue x n c 1 0 = ∑ j ∈ Finset.range n, c j • x ^ j := by
  simp only [residue, Nat.mod_one, Finset.filter_true, Nat.sub_zero]

theorem residue_eq_single (hc : ∀ j < n, j % M = a → j ≠ a → c j = 0) (ha : a < M) (han : a < n) :
    residue x n c M a = c a • (1 : R) := by
  rw [residue, Finset.sum_eq_single a]
  · rw [Nat.sub_self, pow_zero]
  · intro j hj hne
    obtain ⟨hjn, hja⟩ := Finset.mem_filter.1 hj
    rw [hc j (Finset.mem_range.1 hjn) hja hne, zero_smul]
  · intro h
    exact (h (Finset.mem_filter.2 ⟨Finset.mem_range.2 han, Nat.mod_eq_of_lt ha⟩)).elim

end Residue

abbrev NegacyclicRing (n : Nat) (K : Type) [CommRing K] : Type := AdjoinRoot (X ^ n + 1 : K[X])

section Ring

variable {n : Nat} {K : Type} [CommRing K]

theorem root_pow : (AdjoinRoot.root (X ^ n + 1 : K[X])) ^ n = -1 := by
  have h := AdjoinRoot.mk_self (f := (X ^ n + 1 : K[X]))
  rw [map_add, map_pow, AdjoinRoot.mk_X, map_one] at h
  exact eq_neg_of_add_eq_zero_left h

theorem eval_root_pow {g : Nat} (hg : Odd g) :
    (X ^ n + 1 : K[X]).eval₂ (Algebra.ofId K (NegacyclicRing n K)).toRingHom
      (AdjoinRoot.root (X ^ n + 1 : K[X]) ^ g) = 0 := by
  rw [eval₂_add, eval₂_X_pow, eval₂_one, ← pow_mul, mul_comm, pow_mul, root_pow, hg.neg_one_pow,
    neg_add_cancel]

noncomputable def galois (g : Nat) (hg : Odd g) : NegacyclicRing n K →ₐ[K] NegacyclicRing n K :=
  AdjoinRoot.liftAlgHom _ (Algebra.ofId K _) (AdjoinRoot.root _ ^ g) (eval_root_pow hg)

@[simp] theorem galois_root {g : Nat} (hg : Odd g) :
    galois g hg (AdjoinRoot.root (X ^ n + 1 : K[X])) = AdjoinRoot.root _ ^ g :=
  AdjoinRoot.liftAlgHom_root ..

end Ring

noncomputable def ofCoeffs [Semiring K] : List Nat → K[X]
  | [] => 0
  | c :: cs => C (c : K) + X * ofCoeffs cs

theorem coeff_ofCoeffs [Semiring K] (cs : List Nat) (k : Nat) :
    (ofCoeffs cs : K[X]).coeff k = (cs.getD k 0 : Nat) := by
  induction cs generalizing k with
  | nil => simp [ofCoeffs]
  | cons c cs ih =>
    cases k with
    | zero => simp [ofCoeffs]
    | succ k =>
      rw [ofCoeffs, coeff_add, coeff_C_succ, zero_add, coeff_X_mul, ih, List.getD_cons_succ]

theorem ofCoeffs_append [CommSemiring K] (cs ds : List Nat) :
    (ofCoeffs (cs ++ ds) : K[X]) = ofCoeffs cs + X ^ cs.length * ofCoeffs ds := by
  induction cs with
  | nil => rw [List.nil_append, ofCoeffs, List.length_nil, pow_zero, one_mul, zero_add]
  | cons c cs ih =>
    rw [List.cons_append, ofCoeffs, ofCoeffs, ih, List.length_cons]
    ring

theorem degree_ofCoeffs_lt [Semiring K] (cs : List Nat) :
    (ofCoeffs cs : K[X]).degree < (cs.length : Nat) := by
  rw [degree_lt_iff_coeff_zero]
  intro k hk
  rw [coeff_ofCoeffs, List.getD_eq_default _ _ hk, Nat.cast_zero]

theorem ofCoeffs_eq_sum [CommSemiring K] (cs : List Nat) :
    (ofCoeffs cs : K[X]) = ∑ j ∈ Finset.range cs.length, C ((cs.getD j 0 : Nat) : K) * X ^ j := by
  ext k
  simp only [coeff_ofCoeffs, finsetSum_coeff, coeff_C_mul_X_pow, Finset.sum_ite_eq,
    Finset.mem_range]
  split
  · rfl
  · rw [List.getD_eq_default _ _ (by omega), Nat.cast_zero]

/-- Coefficient lists no longer than the degree are told apart by their residues. -/
theorem coeff_eq_of_mk_eq {n : Nat} {K : Type} [CommRing K] {cs ds : List Nat} (hn : 0 < n)
    (hcs : cs.length ≤ n) (hds : ds.length ≤ n)
    (h : AdjoinRoot.mk (X ^ n + 1 : K[X]) (ofCoeffs cs) = AdjoinRoot.mk _ (ofCoeffs ds)) (k : Nat) :
    ((cs.getD k 0 : Nat) : K) = (ds.getD k 0 : Nat) := by
  rcases subsingleton_or_nontrivial K with hK | hK
  · exact Subsingleton.elim _ _
  have hmonic : (X ^ n + C 1 : K[X]).Monic := monic_X_pow_add_C 1 (by omega)
  have hlt {es : List Nat} (hes : es.length ≤ n) :
      (ofCoeffs es : K[X]).degree < (X ^ n + C 1 : K[X]).degree := by
    rw [degree_X_pow_add_C hn]
    exact (degree_ofCoeffs_lt es).trans_le (by exact_mod_cast hes)
  have hdvd := AdjoinRoot.mk_eq_mk.1 h
  rw [← C_1] at hdvd
  have hzero : (ofCoeffs cs - ofCoeffs ds : K[X]) = 0 := by
    by_contra hne
    exact hmonic.not_dvd_of_degree_lt hne
      ((degree_sub_le _ _).trans_lt (max_lt (hlt hcs) (hlt hds))) hdvd
  rw [← coeff_ofCoeffs, ← coeff_ofCoeffs, sub_eq_zero.1 hzero]

end Negacyclic
