import MuchPIR.Lib.Negacyclic

namespace Negacyclic
open Polynomial
set_option autoImplicit true

variable {n : Nat} {K : Type} [CommRing K]

/-- The power `X ^ e` with a coefficient, folded into the entry at `p`. -/
def foldTerm (n : Nat) (t : Nat × K) (p : Fin n) : K :=
  if t.1 % n = p then if t.1 / n % 2 = 0 then t.2 else -t.2 else 0

/-- The vector of a sum of powers: `X ^ n` is `-1`. -/
def collect (n : Nat) (ts : List (Nat × K)) : Fin n → K := fun p =>
  (ts.map fun t => foldTerm n t p).sum

noncomputable def toRing (v : Fin n → K) : NegacyclicRing n K :=
  ∑ p, v p • AdjoinRoot.root (X ^ n + 1 : K[X]) ^ (p : Nat)

theorem toRing_add (v w : Fin n → K) : toRing (v + w) = toRing v + toRing w := by
  simp only [toRing, Pi.add_apply, add_smul, Finset.sum_add_distrib]

theorem toRing_zero : toRing (0 : Fin n → K) = 0 := by
  simp only [toRing, Pi.zero_apply, zero_smul, Finset.sum_const_zero]

theorem toRing_foldTerm (hn : 0 < n) (t : Nat × K) :
    toRing (foldTerm n t) = t.2 • AdjoinRoot.root (X ^ n + 1 : K[X]) ^ t.1 := by
  have hpow : AdjoinRoot.root (X ^ n + 1 : K[X]) ^ t.1 =
      (-1) ^ (t.1 / n) * AdjoinRoot.root (X ^ n + 1 : K[X]) ^ (t.1 % n) := by
    conv_lhs => rw [← Nat.div_add_mod t.1 n, pow_add, pow_mul, root_pow]
  rw [toRing, Finset.sum_eq_single ⟨t.1 % n, Nat.mod_lt _ hn⟩]
  · rw [foldTerm, if_pos rfl, hpow]
    split
    · next h => rw [(Nat.even_iff.2 h).neg_one_pow, one_mul]
    · next h =>
      rw [(Nat.odd_iff.2 (by omega)).neg_one_pow, neg_one_mul, neg_smul, smul_neg]
  · intro p _ hp
    rw [foldTerm, if_neg fun h => hp (Fin.ext h.symm), zero_smul]
  · exact fun h => absurd (Finset.mem_univ _) h

theorem toRing_collect (hn : 0 < n) (ts : List (Nat × K)) :
    toRing (collect n ts) =
      (ts.map fun t => t.2 • AdjoinRoot.root (X ^ n + 1 : K[X]) ^ t.1).sum := by
  induction ts with
  | nil => exact toRing_zero
  | cons t ts ih =>
    have hcons : collect n (t :: ts) = foldTerm n t + collect n ts := by
      funext p
      simp only [collect, List.map_cons, List.sum_cons, Pi.add_apply]
    rw [hcons, toRing_add, toRing_foldTerm hn, ih, List.map_cons, List.sum_cons]

def termsBy (f : Nat → Nat) (v : Fin n → K) : List (Nat × K) :=
  List.ofFn fun p : Fin n => (f p, v p)

def shift (i : Nat) (v : Fin n → K) : Fin n → K := collect n (termsBy (i + ·) v)

def substPow (g : Nat) (v : Fin n → K) : Fin n → K := collect n (termsBy (g * ·) v)

def mulCoeffs (v : Fin n → K) (cs : List Nat) : Fin n → K := fun p =>
  (cs.zipIdx.map fun c => (c.1 : K) * shift c.2 v p).sum

theorem toRing_collect_termsBy (hn : 0 < n) (f : Nat → Nat) (v : Fin n → K) :
    toRing (collect n (termsBy f v)) =
      ∑ p, v p • AdjoinRoot.root (X ^ n + 1 : K[X]) ^ f p := by
  rw [toRing_collect hn, termsBy, List.map_ofFn, List.sum_ofFn]
  rfl

theorem toRing_shift (hn : 0 < n) (i : Nat) (v : Fin n → K) :
    toRing (shift i v) = AdjoinRoot.root (X ^ n + 1 : K[X]) ^ i * toRing v := by
  rw [shift, toRing_collect_termsBy hn, toRing, Finset.mul_sum]
  apply Finset.sum_congr rfl
  intro p _
  rw [mul_smul_comm, pow_add]

theorem toRing_substPow (hn : 0 < n) {g : Nat} (hg : Odd g) (v : Fin n → K) :
    toRing (substPow g v) = galois g hg (toRing v) := by
  rw [substPow, toRing_collect_termsBy hn, toRing, map_sum]
  apply Finset.sum_congr rfl
  intro p _
  rw [map_smul, map_pow, galois_root, ← pow_mul]

theorem toRing_mulCoeffs (hn : 0 < n) (v : Fin n → K) (cs : List Nat) :
    toRing (mulCoeffs v cs) = toRing v * AdjoinRoot.mk _ (ofCoeffs cs) := by
  have hgen (k : Nat) : toRing (fun p => ((cs.zipIdx k).map fun c =>
      (c.1 : K) * shift c.2 v p).sum) =
      AdjoinRoot.root (X ^ n + 1 : K[X]) ^ k * (toRing v * AdjoinRoot.mk _ (ofCoeffs cs)) := by
    induction cs generalizing k with
    | nil =>
      simp only [List.zipIdx_nil, List.map_nil, List.sum_nil, ofCoeffs, map_zero, mul_zero]
      exact toRing_zero
    | cons c cs ih =>
      have hsplit : (fun p => (((c :: cs).zipIdx k).map fun c => (c.1 : K) * shift c.2 v p).sum) =
          (c : K) • shift k v + fun p => ((cs.zipIdx (k + 1)).map fun c =>
            (c.1 : K) * shift c.2 v p).sum := by
        funext p
        simp only [List.zipIdx_cons, List.map_cons, List.sum_cons, Pi.add_apply, Pi.smul_apply,
          smul_eq_mul]
      have hsmul : toRing ((c : K) • shift k v) = (c : K) • toRing (shift k v) := by
        simp only [toRing, Pi.smul_apply, smul_assoc, Finset.smul_sum]
      rw [hsplit, toRing_add, ih, hsmul, toRing_shift hn, ofCoeffs, map_add, map_mul,
        AdjoinRoot.mk_C, AdjoinRoot.mk_X, Algebra.smul_def, AdjoinRoot.algebraMap_eq]
      ring
  have h := hgen 0
  rw [pow_zero, one_mul] at h
  exact h

def residues {t : Nat} (v : Fin n → ZMod t) : List Nat := List.ofFn fun p => (v p).val

theorem residues_getD {t : Nat} (v : Fin n → ZMod t) (p : Fin n) :
    (residues v).getD p 0 = (v p).val := by
  rw [residues, List.getD_eq_getElem _ _ (by rw [List.length_ofFn]; exact p.isLt),
    List.getElem_ofFn]

theorem mk_residues {t : Nat} [NeZero t] (v : Fin n → ZMod t) :
    AdjoinRoot.mk (X ^ n + 1 : (ZMod t)[X]) (ofCoeffs (residues v)) = toRing v := by
  have hlen : (residues v).length = n := List.length_ofFn
  rw [ofCoeffs_eq_sum, map_sum, hlen, Finset.sum_range, toRing]
  apply Finset.sum_congr rfl
  intro p _
  rw [residues_getD, ZMod.natCast_zmod_val, map_mul, map_pow, AdjoinRoot.mk_C, AdjoinRoot.mk_X,
    Algebra.smul_def, AdjoinRoot.algebraMap_eq]

def ofResidues (n t : Nat) (cs : List Nat) : Fin n → ZMod t := fun p => (cs.getD p 0 : Nat)

theorem toRing_ofResidues {t : Nat} {cs : List Nat} (h : cs.length ≤ n) :
    toRing (ofResidues n t cs) = AdjoinRoot.mk (X ^ n + 1 : (ZMod t)[X]) (ofCoeffs cs) := by
  rw [ofCoeffs_eq_sum, Finset.sum_subset (Finset.range_mono h), map_sum, Finset.sum_range, toRing]
  · apply Finset.sum_congr rfl
    intro p _
    rw [map_mul, map_pow, AdjoinRoot.mk_C, AdjoinRoot.mk_X, Algebra.smul_def,
      AdjoinRoot.algebraMap_eq]
    rfl
  · intro j _ hj
    rw [List.getD_eq_default _ _ (by simpa using hj), Nat.cast_zero, C_0, zero_mul]

end Negacyclic
