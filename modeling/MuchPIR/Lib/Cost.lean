import MuchPIR.Lib.Prog

set_option autoImplicit true

namespace Prog

/-- From any world, `x` returns only an `R`, and then it has spent `c`. -/
def Spends {M : Type} [AddCommMonoid M] (spent : ω → M) (c : M) (R : α → Prop)
    (x : Prog ω ε α) : Prop :=
  ∀ w, wp x (fun a w' => R a ∧ spent w' = spent w + c) (fun _ _ => True) w

namespace Spends

variable {M : Type} [AddCommMonoid M] {spent : ω → M} {c d : M} {R : α → Prop} {R' : β → Prop}

theorem pure (h : R a) : Spends spent 0 R (pure a : Prog ω ε α) :=
  fun w => ⟨h, (add_zero (spent w)).symm⟩

theorem mono {x : Prog ω ε α} {R' : α → Prop} (h : Spends spent c R x) (hR : ∀ a, R a → R' a) :
    Spends spent c R' x :=
  fun w => wp_mono (h w) (fun a _ h => ⟨hR a h.1, h.2⟩) fun _ _ h => h

theorem bind {x : Prog ω ε α} {f : α → Prog ω ε β} (hx : Spends spent c R x)
    (hf : ∀ a, R a → Spends spent d R' (f a)) : Spends spent (c + d) R' (x >>= f) := by
  intro w
  rw [wp_bind]
  apply wp_mono (hx w) _ (fun _ _ h => h)
  intro a w' hpost
  obtain ⟨ha, hspent⟩ := hpost
  apply wp_mono (hf a ha w') _ (fun _ _ h => h)
  intro b w'' hpost
  obtain ⟨hb, hspent'⟩ := hpost
  exact ⟨hb, by rw [hspent', hspent, add_assoc]⟩

theorem throw (e : ε) : Spends spent c R (throw e : Prog ω ε α) := fun _ => trivial

theorem lift {x : Except ε α} (hx : ∀ a, x = .ok a → R a) :
    Spends spent 0 R (lift x : Prog ω ε α) := by
  intro w
  exact wp_lift (fun a ha => ⟨hx a ha, (add_zero (spent w)).symm⟩) fun _ _ => trivial

theorem forRange_from {body : Nat → σ → Prog ω ε σ} (inv : Nat → σ → Prop) (c : Nat → M)
    (hstep : ∀ i s, lo ≤ i → i < lo + count → inv i s →
      Spends spent (c i) (inv (i + 1)) (body i s))
    (h : inv lo s) :
    Spends spent (∑ i ∈ Finset.range count, c (lo + i)) (inv (lo + count))
      (Prog.forRange lo count body s) := by
  induction count generalizing lo s with
  | zero => exact pure h
  | succ count ih =>
    have hsum : lo + 1 + count = lo + (count + 1) := by omega
    have hcost : ∑ i ∈ Finset.range (count + 1), c (lo + i) =
        c lo + ∑ i ∈ Finset.range count, c (lo + 1 + i) := by
      rw [Finset.sum_range_succ', add_zero, add_comm]
      simp only [add_assoc, add_comm 1]
    rw [hcost, ← hsum]
    apply bind (hstep lo s le_rfl (by omega) h)
    intro s' h'
    exact ih (fun i s hlo hi => hstep i s (by omega) (by omega)) h'

/-- A loop spends what its passes spend. -/
theorem forRange {body : Nat → σ → Prog ω ε σ} (inv : Nat → σ → Prop) (c : Nat → M)
    (hstep : ∀ i s, i < count → inv i s → Spends spent (c i) (inv (i + 1)) (body i s))
    (h : inv 0 s) :
    Spends spent (∑ i ∈ Finset.range count, c i) (inv count) (Prog.forRange 0 count body s) := by
  have hloop : Spends spent (∑ i ∈ Finset.range count, c (0 + i)) (inv (0 + count))
      (Prog.forRange 0 count body s) :=
    forRange_from inv c (fun i s _ hi => hstep i s (by omega)) h
  simpa only [zero_add] using hloop

theorem forRange_const {body : Nat → σ → Prog ω ε σ} (inv : Nat → σ → Prop)
    (hstep : ∀ i s, i < count → inv i s → Spends spent c (inv (i + 1)) (body i s))
    (h : inv 0 s) : Spends spent (count • c) (inv count) (Prog.forRange 0 count body s) := by
  have hloop := forRange inv (fun _ => c) hstep h
  rwa [Finset.sum_const, Finset.card_range] at hloop

theorem of_ok {x : Prog ω ε α} (h : Spends spent c R x) (hx : x w = (.ok a, w')) :
    R a ∧ spent w' = spent w + c :=
  wp_ok (Q := fun a w' => R a ∧ spent w' = spent w + c) (h w) hx

end Spends

end Prog
