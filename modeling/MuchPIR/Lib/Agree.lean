import MuchPIR.Lib.Prog

set_option autoImplicit true

namespace Prog

/-- Two runs that end alike: both return, with values related by `Q`, or both throw one fault. The
worlds that they leave are related by `R`. -/
def Agree (Q : α → β → Prop) (R : ω → ν → Prop) : Except ε α × ω → Except ε β × ν → Prop
  | (.ok a, w), (.ok b, v) => Q a b ∧ R w v
  | (.error e, w), (.error e', v) => e = e' ∧ R w v
  | _, _ => False

namespace Agree

variable {Q : α → β → Prop} {R : ω → ν → Prop}

theorem pure (hQ : Q a b) (hR : R w v) :
    Agree Q R ((Pure.pure a : Prog ω ε α) w) ((Pure.pure b : Prog ν ε β) v) := ⟨hQ, hR⟩

theorem bind {x : Prog ω ε α} {y : Prog ν ε β} {f : α → Prog ω ε γ} {g : β → Prog ν ε κ}
    {Q' : γ → κ → Prop} {R' : ω → ν → Prop} (h : Agree Q R (x w) (y v))
    (hR : ∀ w v, R w v → R' w v) (hfg : ∀ a b w v, Q a b → R w v → Agree Q' R' (f a w) (g b v)) :
    Agree Q' R' ((x >>= f) w) ((y >>= g) v) := by
  change Agree Q' R' (continueWith f (x w)) (continueWith g (y v))
  generalize x w = r at h ⊢
  generalize y v = s at h ⊢
  rcases r with ⟨e | a, w'⟩ <;> rcases s with ⟨e' | b, v'⟩
  · exact ⟨h.1, hR _ _ h.2⟩
  · exact h.elim
  · exact h.elim
  · exact hfg a b w' v' h.1 h.2

theorem mono {r : Except ε α × ω} {s : Except ε β × ν} {R' : ω → ν → Prop} (h : Agree Q R r s)
    (hR : ∀ w v, R w v → R' w v) : Agree Q R' r s := by
  rcases r with ⟨e | a, w⟩ <;> rcases s with ⟨e' | b, v⟩
  · exact ⟨h.1, hR _ _ h.2⟩
  · exact h
  · exact h
  · exact ⟨h.1, hR _ _ h.2⟩

theorem forRange {f : Nat → σ → Prog ω ε σ} {g : Nat → τ → Prog ν ε τ} {Q : σ → τ → Prop}
    (hstep : ∀ i s t w v, lo ≤ i → i < lo + count → Q s t → R w v → Agree Q R (f i s w) (g i t v))
    (hQ : Q s t) (hR : R w v) :
    Agree Q R (forRange lo count f s w) (forRange lo count g t v) := by
  induction count generalizing lo s t w v with
  | zero => exact ⟨hQ, hR⟩
  | succ count ih =>
    apply Agree.bind (hstep lo s t w v le_rfl (by omega) hQ hR) (fun _ _ h => h)
    intro s' t' w' v' hQ' hR'
    exact ih (fun i s t w v hlo hi => hstep i s t w v (by omega) (by omega)) hQ' hR'

theorem outcome_eq {r : Except ε α × ω} {s : Except ε α × ν} (h : Agree Eq R r s) : r.1 = s.1 := by
  rcases r with ⟨e | a, w⟩ <;> rcases s with ⟨e' | b, v⟩
  · exact congrArg Except.error h.1
  · exact h.elim
  · exact h.elim
  · exact congrArg Except.ok h.1

theorem world {r : Except ε α × ω} {s : Except ε β × ν} (h : Agree Q R r s) : R r.2 s.2 := by
  rcases r with ⟨e | a, w⟩ <;> rcases s with ⟨e' | b, v⟩
  · exact h.2
  · exact h.elim
  · exact h.elim
  · exact h.2

end Agree

end Prog
