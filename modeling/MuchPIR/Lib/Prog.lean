import Mathlib.Tactic

set_option autoImplicit true

/-- A program over a world `ω` that may throw an `ε`. The world survives a throw. -/
def Prog (ω ε α : Type) : Type := ω → Except ε α × ω

namespace Prog

def continueWith (f : α → Prog ω ε β) : Except ε α × ω → Except ε β × ω
  | (.ok a, w) => f a w
  | (.error e, w) => (.error e, w)

instance : Monad (Prog ω ε) where
  pure a := fun w => (.ok a, w)
  bind x f := fun w => continueWith f (x w)

instance : LawfulMonad (Prog ω ε) := LawfulMonad.mk' _
  (fun x => by
    funext w
    change continueWith _ (x w) = x w
    rcases x w with ⟨_ | _, _⟩ <;> rfl)
  (fun _ _ => rfl)
  (fun x f g => by
    funext w
    change continueWith g (continueWith f (x w)) = continueWith _ (x w)
    rcases x w with ⟨_ | _, _⟩ <;> rfl)

def get : Prog ω ε ω := fun w => (.ok w, w)

def modify (f : ω → ω) : Prog ω ε Unit := fun w => (.ok (), f w)

def throw (e : ε) : Prog ω ε α := fun w => (.error e, w)

def lift (x : Except ε α) : Prog ω ε α := fun w => (x, w)

def within (enter : ω → ν) (leave : ν → ω → ω) (x : Prog ν ε α) : Prog ω ε α := fun w =>
  ((x (enter w)).1, leave (x (enter w)).2 w)

/-- The C loop `for (i = lo; i < lo + count; i++)` with its variables in `σ`. -/
def forRange (lo : Nat) : Nat → (Nat → σ → Prog ω ε σ) → σ → Prog ω ε σ
  | 0, _, s => pure s
  | count + 1, body, s => body lo s >>= forRange (lo + 1) count body

theorem bind_of_ok {x : Prog ω ε α} (f : α → Prog ω ε β) (h : x w = (.ok a, v)) :
    (x >>= f) w = f a v := by
  change continueWith f (x w) = _
  rw [h, continueWith]

theorem bind_of_error {x : Prog ω ε α} (f : α → Prog ω ε β) (h : x w = (.error e, v)) :
    (x >>= f) w = (.error e, v) := by
  change continueWith f (x w) = _
  rw [h, continueWith]

theorem lift_ok_bind (a : α) (f : α → Prog ω ε β) : (lift (.ok a) >>= f) = f a := rfl

theorem get_bind (f : ω → Prog ω ε β) (w : ω) : (get >>= f) w = f w w := rfl

def Ends (Q : α → ω → Prop) (E : ε → ω → Prop) : Except ε α × ω → Prop
  | (.ok a, w) => Q a w
  | (.error e, w) => E e w

/-- `x` run from `w` ends in `Q` when it returns and in `E` when it throws. -/
def wp (x : Prog ω ε α) (Q : α → ω → Prop) (E : ε → ω → Prop) (w : ω) : Prop :=
  Ends Q E (x w)

section Rules

variable {Q : α → ω → Prop} {E : ε → ω → Prop}

@[simp] theorem wp_pure : wp (pure a : Prog ω ε α) Q E w ↔ Q a w := Iff.rfl

@[simp] theorem wp_bind {Q : β → ω → Prop} (x : Prog ω ε α) (f : α → Prog ω ε β) :
    wp (x >>= f) Q E w ↔ wp x (fun a w => wp (f a) Q E w) E w := by
  change Ends Q E (continueWith f (x w)) ↔ Ends _ E (x w)
  rcases x w with ⟨_ | _, _⟩ <;> rfl

@[simp] theorem wp_get {Q : ω → ω → Prop} : wp (get : Prog ω ε ω) Q E w ↔ Q w w := Iff.rfl

@[simp] theorem wp_modify {Q : Unit → ω → Prop} :
    wp (modify f : Prog ω ε Unit) Q E w ↔ Q () (f w) := Iff.rfl

@[simp] theorem wp_throw : wp (throw e : Prog ω ε α) Q E w ↔ E e w := Iff.rfl

@[simp] theorem wp_lift_ok : wp (lift (.ok a) : Prog ω ε α) Q E w ↔ Q a w := Iff.rfl

@[simp] theorem wp_lift_error : wp (lift (.error e) : Prog ω ε α) Q E w ↔ E e w := Iff.rfl

theorem wp_within (x : Prog ν ε α) :
    wp (within enter leave x) Q E w ↔
      wp x (fun a v => Q a (leave v w)) (fun e v => E e (leave v w)) (enter w) := by
  change Ends Q E ((x (enter w)).1, leave (x (enter w)).2 w) ↔ Ends _ _ (x (enter w))
  rcases x (enter w) with ⟨_ | _, _⟩ <;> rfl

theorem wp_mono {x : Prog ω ε α} {Q' : α → ω → Prop} {E' : ε → ω → Prop} (h : wp x Q E w)
    (hQ : ∀ a w, Q a w → Q' a w) (hE : ∀ e w, E e w → E' e w) : wp x Q' E' w := by
  unfold wp at h ⊢
  generalize x w = r at h ⊢
  rcases r with ⟨_ | _, _⟩
  · exact hE _ _ h
  · exact hQ _ _ h

theorem wp_and {x : Prog ω ε α} {Q' : α → ω → Prop} {E' : ε → ω → Prop} (h : wp x Q E w)
    (h' : wp x Q' E' w) :
    wp x (fun a w => Q a w ∧ Q' a w) (fun e w => E e w ∧ E' e w) w := by
  unfold wp at h h' ⊢
  generalize x w = r at h h' ⊢
  rcases r with ⟨_ | _, _⟩
  · exact ⟨h, h'⟩
  · exact ⟨h, h'⟩

theorem wp_bind_throws {x : Prog ω ε α} {f : α → Prog ω ε β} {Q : β → ω → Prop}
    (h : wp x (fun _ _ => False) E w) : wp (x >>= f) Q E w :=
  (wp_bind x f).2 (wp_mono h (fun _ _ h => h.elim) fun _ _ h => h)

theorem wp_true (x : Prog ω ε α) (w : ω) : wp x (fun _ _ => True) (fun _ _ => True) w := by
  unfold wp
  rcases x w with ⟨_ | _, _⟩
  · exact trivial
  · exact trivial

/-- What `x` does is of no account. -/
theorem wp_bind_any {x : Prog ω ε α} {f : α → Prog ω ε β} {Q : β → ω → Prop}
    (h : ∀ a w, wp (f a) Q (fun _ _ => True) w) : wp (x >>= f) Q (fun _ _ => True) w :=
  (wp_bind x f).2 (wp_mono (wp_true x w) (fun a w _ => h a w) fun _ _ h => h)

theorem wp_lift {x : Except ε α} (hQ : ∀ a, x = .ok a → Q a w) (hE : ∀ e, x = .error e → E e w) :
    wp (lift x) Q E w := by
  cases x with
  | ok a => exact hQ a rfl
  | error e => exact hE e rfl

theorem wp_ok {x : Prog ω ε α} (h : wp x Q E w) (hx : x w = (.ok a, v)) : Q a v := by
  rw [wp, hx] at h
  exact h

theorem wp_of_ok {x : Prog ω ε α} (hx : x w = (.ok a, v)) : wp x Q E w ↔ Q a v := by
  rw [wp, hx]
  exact Iff.rfl

theorem wp_error {x : Prog ω ε α} (h : wp x Q E w) (hx : x w = (.error e, v)) : E e v := by
  rw [wp, hx] at h
  exact h

theorem wp_final {x : Prog ω ε α} {P : ω → Prop} (h : wp x (fun _ => P) (fun _ => P) w) :
    P (x w).2 := by
  rcases hx : x w with ⟨_ | _, v⟩
  · exact wp_error h hx
  · exact wp_ok h hx

theorem wp_returns {x : Prog ω ε α} (h : wp x Q (fun _ _ => False) w) :
    ∃ a v, x w = (.ok a, v) ∧ Q a v := by
  rcases hx : x w with ⟨e | a, v⟩
  · exact (wp_error h hx).elim
  · exact ⟨a, v, rfl, wp_ok h hx⟩

theorem wp_throws {x : Prog ω ε α} (h : wp x (fun _ _ => False) E w) :
    ∃ e v, x w = (.error e, v) ∧ E e v := by
  rcases hx : x w with ⟨e | a, v⟩
  · exact ⟨e, v, rfl, wp_error h hx⟩
  · exact (wp_ok h hx).elim

theorem wp_forRange {body : Nat → σ → Prog ω ε σ} (inv : Nat → σ → ω → Prop)
    (hstep : ∀ i s w, lo ≤ i → i < lo + count → inv i s w → wp (body i s) (inv (i + 1)) E w)
    (h : inv lo s w) : wp (forRange lo count body s) (inv (lo + count)) E w := by
  induction count generalizing lo s w with
  | zero => exact h
  | succ count ih =>
    have hsum : lo + 1 + count = lo + (count + 1) := by omega
    simp only [forRange, wp_bind]
    apply wp_mono (hstep lo s w le_rfl (by omega) h) _ (fun _ _ he => he)
    intro s' w' h'
    have hrest : wp (forRange (lo + 1) count body s') (inv (lo + 1 + count)) E w' :=
      ih (fun i s w hlo hi => hstep i s w (by omega) (by omega)) h'
    rwa [hsum] at hrest

end Rules

def EndTogether (Q : α → β → ω → ν → Prop) (E : ω → ν → Prop) :
    Except ε α × ω → Except δ β × ν → Prop
  | (.ok a, w), (.ok b, v) => Q a b w v
  | (.error _, w), (.error _, v) => E w v
  | _, _ => False

def Rel (x : Prog ω ε α) (y : Prog ν δ β) (Q : α → β → ω → ν → Prop) (E : ω → ν → Prop)
    (w : ω) (v : ν) : Prop :=
  EndTogether Q E (x w) (y v)

section Relational

variable {Q : α → β → ω → ν → Prop} {E : ω → ν → Prop}

theorem Rel.pure (h : Q a b w v) :
    Rel (pure a : Prog ω ε α) (pure b : Prog ν δ β) Q E w v := h

theorem Rel.bind {x : Prog ω ε α} {y : Prog ν δ β} {f : α → Prog ω ε γ} {g : β → Prog ν δ κ}
    {Q' : γ → κ → ω → ν → Prop} (h : Rel x y Q E w v)
    (hfg : ∀ a b w v, Q a b w v → Rel (f a) (g b) Q' E w v) :
    Rel (x >>= f) (y >>= g) Q' E w v := by
  change EndTogether Q' E (continueWith f (x w)) (continueWith g (y v))
  unfold Rel at h
  generalize x w = r at h ⊢
  generalize y v = s at h ⊢
  rcases r with ⟨_ | a, w'⟩ <;> rcases s with ⟨_ | b, v'⟩
  · exact h
  · exact h.elim
  · exact h.elim
  · exact hfg a b w' v' h

theorem Rel.mono {x : Prog ω ε α} {y : Prog ν δ β} {Q' : α → β → ω → ν → Prop}
    {E' : ω → ν → Prop} (h : Rel x y Q E w v) (hQ : ∀ a b w v, Q a b w v → Q' a b w v)
    (hE : ∀ w v, E w v → E' w v) : Rel x y Q' E' w v := by
  unfold Rel at h ⊢
  generalize x w = r at h ⊢
  generalize y v = s at h ⊢
  rcases r with ⟨_ | a, w'⟩ <;> rcases s with ⟨_ | b, v'⟩
  · exact hE _ _ h
  · exact h
  · exact h
  · exact hQ _ _ _ _ h

theorem Rel.forRange {f : Nat → σ → Prog ω ε σ} {g : Nat → τ → Prog ν δ τ}
    (inv : Nat → σ → τ → ω → ν → Prop)
    (hstep : ∀ i s t w v, lo ≤ i → i < lo + count → inv i s t w v →
      Rel (f i s) (g i t) (inv (i + 1)) E w v)
    (h : inv lo s t w v) :
    Rel (forRange lo count f s) (forRange lo count g t) (inv (lo + count)) E w v := by
  induction count generalizing lo s t w v with
  | zero => exact h
  | succ count ih =>
    have hsum : lo + 1 + count = lo + (count + 1) := by omega
    apply Rel.bind (hstep lo s t w v le_rfl (by omega) h)
    intro s' t' w' v' h'
    have hrest : Rel (Prog.forRange (lo + 1) count f s') (Prog.forRange (lo + 1) count g t')
        (inv (lo + 1 + count)) E w' v' :=
      ih (fun i s t w v hlo hi => hstep i s t w v (by omega) (by omega)) h'
    rwa [hsum] at hrest

theorem Rel.get_bind {f : ω → Prog ω ε α} {g : ν → Prog ν δ β} (h : Rel (f w) (g v) Q E w v) :
    Rel (get >>= f) (get >>= g) Q E w v := h

theorem Rel.left {x : Prog ω ε α} {y : Prog ν δ β} {Q' : α → ω → Prop} {E' : ε → ω → Prop}
    (h : Rel x y Q E w v) (hx : wp x Q' E' w) :
    Rel x y (fun a b w v => Q a b w v ∧ Q' a w) E w v := by
  rw [wp] at hx
  unfold Rel at h ⊢
  generalize x w = r at h hx ⊢
  generalize y v = s at h ⊢
  rcases r with ⟨_ | _, _⟩ <;> rcases s with ⟨_ | _, _⟩
  · exact h
  · exact h
  · exact h
  · exact ⟨h, hx⟩

theorem Rel.bind_right {x : Prog ω ε α} {y : Prog ν δ β} {f : β → Prog ν δ κ}
    {Q : α → κ → ω → ν → Prop} {R : β → ν → Prop} (hy : wp y R (fun _ _ => False) v)
    (h : ∀ b v, R b v → Rel x (f b) Q E w v) : Rel x (y >>= f) Q E w v := by
  obtain ⟨b, v', hv, hb⟩ := wp_returns hy
  unfold Rel
  rw [bind_of_ok f hv]
  exact h b v' hb

/-- What is known of the left run carries over to the right one. -/
theorem Rel.wp_right {x : Prog ω ε α} {y : Prog ν δ β} {Q' : α → ω → Prop} {E' : ε → ω → Prop}
    (h : Rel x y Q E w v) (hx : wp x Q' E' w) :
    wp y (fun b v => ∃ a w, Q' a w ∧ Q a b w v) (fun _ v => ∃ e w, E' e w ∧ E w v) v := by
  rw [wp] at hx ⊢
  unfold Rel at h
  generalize x w = r at h hx
  generalize y v = s at h ⊢
  rcases r with ⟨e | a, w'⟩ <;> rcases s with ⟨_ | b, v'⟩
  · exact ⟨e, w', hx, h⟩
  · exact h.elim
  · exact h.elim
  · exact ⟨a, w', hx, h⟩

theorem Rel.returns {x : Prog ω ε α} {y : Prog ν δ β} (h : Rel x y Q E w v)
    (hx : x w = (.ok a, w')) : ∃ b v', y v = (.ok b, v') ∧ Q a b w' v' := by
  unfold Rel at h
  rw [hx] at h
  generalize y v = s at h ⊢
  rcases s with ⟨_ | b, v'⟩
  · exact h.elim
  · exact ⟨b, v', rfl, h⟩

end Relational

/-- Two outcomes: two returns, related by `R`, or two throws. -/
def Alike (R : α → β → Prop) : Except ε α → Except ε β → Prop
  | .ok a, .ok b => R a b
  | .error _, .error _ => True
  | _, _ => False

theorem alike_self (x : Except ε α) : Alike (fun a b => a = b ∧ x = .ok a) x x := by
  cases x with
  | ok a => exact ⟨rfl, rfl⟩
  | error e => exact trivial

theorem Alike.mono {R R' : α → β → Prop} {x : Except ε α} {y : Except ε β} (h : Alike R x y)
    (hR : ∀ a b, R a b → R' a b) : Alike R' x y := by
  cases x with
  | ok a =>
    cases y with
    | ok b => exact hR a b h
    | error e => exact h
  | error e =>
    cases y with
    | ok b => exact h
    | error e' => exact h

theorem alike_of_ok {R : α → β → Prop} {x : Except ε α} {y : Except ε β} (hx : x = .ok a)
    (hy : y = .ok b) (h : R a b) : Alike R x y := by
  rw [hx, hy]
  exact h

theorem alike_exact {x : Except ε α} {y : Except ε β} (hx : x = .ok a) (hy : y = .ok b) :
    Alike (fun a' b' => a' = a ∧ b' = b) x y := alike_of_ok hx hy ⟨rfl, rfl⟩

theorem alike_of_error {R : α → β → Prop} {x : Except ε α} {y : Except ε β}
    (hx : ∃ e, x = .error e) (hy : ∃ e, y = .error e) : Alike R x y := by
  obtain ⟨e, rfl⟩ := hx
  obtain ⟨e', rfl⟩ := hy
  exact trivial

/-- Two programs over one world: from the same world they reach the same world, and return
together, related by `R`, or throw together. -/
def Same (R : α → β → Prop) (x : Prog ω ε α) (y : Prog ω ε β) : Prop :=
  ∀ w, Rel x y (fun a b w v => R a b ∧ w = v) (fun w v => w = v) w w

namespace Same

variable {R : α → β → Prop} {R' : γ → δ → Prop}

theorem refl (x : Prog ω ε α) : Same Eq x x := by
  intro w
  unfold Rel
  rcases x w with ⟨_ | _, _⟩
  · exact rfl
  · exact ⟨rfl, rfl⟩

theorem pure (h : R a b) : Same R (pure a : Prog ω ε α) (pure b) := fun _ => ⟨h, rfl⟩

theorem throw : Same R (throw e : Prog ω ε α) (throw e) := fun _ => rfl

theorem lift {x : Except ε α} {y : Except ε β} (h : Alike R x y) :
    Same R (lift x : Prog ω ε α) (lift y) := by
  intro w
  cases x with
  | ok a =>
    cases y with
    | ok b => exact ⟨h, rfl⟩
    | error e => exact h.elim
  | error e =>
    cases y with
    | ok b => exact h.elim
    | error e' => exact rfl

theorem bind {x : Prog ω ε α} {y : Prog ω ε β} {f : α → Prog ω ε γ} {g : β → Prog ω ε δ}
    (h : Same R x y) (hfg : ∀ a b, R a b → Same R' (f a) (g b)) :
    Same R' (x >>= f) (y >>= g) := by
  intro w
  apply Rel.bind (h w)
  intro a b w' _ hpost
  obtain ⟨hab, rfl⟩ := hpost
  exact hfg a b hab w'

theorem forRange {f : Nat → σ → Prog ω ε σ} {g : Nat → τ → Prog ω ε τ} {R : σ → τ → Prop}
    (hstep : ∀ i s t, R s t → Same R (f i s) (g i t)) (h : R s t) :
    Same R (forRange lo count f s) (forRange lo count g t) := by
  intro w
  apply Rel.forRange (fun _ s t w v => R s t ∧ w = v)
  · rintro i s t w _ - - ⟨hst, rfl⟩
    exact hstep i s t hst w
  · exact ⟨h, rfl⟩

end Same

end Prog
