import Mathlib.Algebra.Polynomial.Basic
import Mathlib.Data.List.TakeWhile
import Mathlib.Data.Nat.Digits.Lemmas
import Mathlib.Tactic

namespace HexPoly
open Polynomial
set_option autoImplicit true

def digitChar (d : Nat) : Char := if d < 10 then Char.ofNat (48 + d) else Char.ofNat (55 + d)

def digitVal (c : Char) : Option Nat :=
  if '0' ≤ c ∧ c ≤ '9' then some (c.toNat - 48)
  else if 'A' ≤ c ∧ c ≤ 'F' then some (c.toNat - 55)
  else if 'a' ≤ c ∧ c ≤ 'f' then some (c.toNat - 87)
  else none

def isHex (c : Char) : Bool := (digitVal c).isSome

def isDec (c : Char) : Bool := decide ('0' ≤ c ∧ c ≤ '9')

/-- A number written in a base without leading zeros. -/
def numeral (base v : Nat) : List Char :=
  if v = 0 then ['0'] else (Nat.digits base v).reverse.map digitChar

def value (base : Nat) (ds : List Char) : Nat :=
  ds.foldl (fun acc c => acc * base + (digitVal c).getD 0) 0

theorem digitVal_digitChar (h : d < 16) : digitVal (digitChar d) = some d := by
  interval_cases d <;> decide

theorem isDec_digitChar (h : d < 10) : isDec (digitChar d) = true := by
  interval_cases d <;> decide

theorem value_append (base : Nat) (ds : List Char) (c : Char) :
    value base (ds ++ [c]) = value base ds * base + (digitVal c).getD 0 := by
  simp only [value, List.foldl_append, List.foldl_cons, List.foldl_nil]

theorem value_digits (hb : base ≤ 16) (l : List Nat) (hl : ∀ d ∈ l, d < base) :
    value base (l.reverse.map digitChar) = Nat.ofDigits base l := by
  induction l with
  | nil => rfl
  | cons d l ih =>
    have hd : d < base := hl d List.mem_cons_self
    rw [List.reverse_cons, List.map_append, List.map_singleton, value_append,
      ih fun e he => hl e (List.mem_cons_of_mem _ he), digitVal_digitChar (by omega),
      Option.getD_some, Nat.ofDigits_cons, mul_comm, add_comm]

theorem value_numeral (hb : 1 < base) (hb' : base ≤ 16) (v : Nat) :
    value base (numeral base v) = v := by
  unfold numeral
  split
  · next h =>
    rw [h]
    simp only [value, List.foldl_cons, List.foldl_nil]
    have hzero : digitVal '0' = some 0 := by decide
    rw [hzero, Option.getD_some, zero_mul]
  · rw [value_digits hb' _ fun d hd => Nat.digits_lt_base hb hd, Nat.ofDigits_digits]

theorem numeral_ne_nil (base v : Nat) : numeral base v ≠ [] := by
  unfold numeral
  split
  · exact List.cons_ne_nil _ _
  · next h =>
    rw [Ne, List.map_eq_nil_iff, List.reverse_eq_nil_iff, Nat.digits_eq_nil_iff_eq_zero]
    exact h

theorem exists_digit_of_mem_numeral (hb : 1 < base) (hc : c ∈ numeral base v) :
    ∃ d < base, c = digitChar d := by
  unfold numeral at hc
  split at hc
  · exact ⟨0, by omega, List.mem_singleton.1 hc⟩
  · obtain ⟨d, hd, rfl⟩ := List.mem_map.1 hc
    exact ⟨d, Nat.digits_lt_base hb (List.mem_reverse.1 hd), rfl⟩

theorem isHex_of_mem_numeral (hb : 1 < base) (hb' : base ≤ 16) (hc : c ∈ numeral base v) :
    isHex c = true := by
  obtain ⟨d, hd, rfl⟩ := exists_digit_of_mem_numeral hb hc
  rw [isHex, digitVal_digitChar (by omega), Option.isSome_some]

theorem isDec_of_mem_numeral (hc : c ∈ numeral 10 v) : isDec c = true := by
  obtain ⟨d, hd, rfl⟩ := exists_digit_of_mem_numeral (by omega) hc
  exact isDec_digitChar hd

theorem length_numeral_le (hb : 1 < base) (hv : v < base ^ k) (hk : 0 < k) :
    (numeral base v).length ≤ k := by
  unfold numeral
  split
  · exact hk
  · rw [List.length_map, List.length_reverse]
    exact (Nat.digits_length_le_iff hb v).2 hv

structure Term where
  coeff : Nat
  power : Nat
  deriving DecidableEq

/-- Texts of the grammar, with the terms they spell: a hexadecimal coefficient, then `x^` and a
decimal power unless it is the constant term, joined by ` + ` with falling powers. -/
inductive Spells : List Char → List Term → Prop
  | const : ds ≠ [] → (∀ c ∈ ds, isHex c = true) → Spells ds [⟨value 16 ds, 0⟩]
  | power : ds ≠ [] → (∀ c ∈ ds, isHex c = true) → 0 < k →
      Spells (ds ++ 'x' :: '^' :: numeral 10 k) [⟨value 16 ds, k⟩]
  | cons : ds ≠ [] → (∀ c ∈ ds, isHex c = true) → (∀ t ∈ ts.head?, t.power < k) →
      Spells rest ts →
      Spells (ds ++ 'x' :: '^' :: (numeral 10 k ++ ' ' :: '+' :: ' ' :: rest))
        (⟨value 16 ds, k⟩ :: ts)

noncomputable def toPoly (ts : List Term) : Nat[X] := (ts.map fun t => C t.coeff * X ^ t.power).sum

def coeffAt (ts : List Term) (k : Nat) : Nat :=
  ((ts.find? fun t => t.power == k).map Term.coeff).getD 0

/-- The coefficient list of a term list with falling powers, constant term first. -/
def toCoeffs : List Term → List Nat
  | [] => []
  | t :: ts => (List.range (t.power + 1)).map (coeffAt (t :: ts))

/-- The non-zero terms of a coefficient list whose first entry has power `k`, falling. -/
def termsFrom (k : Nat) : List Nat → List Term
  | [] => []
  | c :: cs => termsFrom (k + 1) cs ++ if c = 0 then [] else [⟨c, k⟩]

def spell (t : Term) : List Char :=
  numeral 16 t.coeff ++ if t.power = 0 then [] else 'x' :: '^' :: numeral 10 t.power

def join : List (List Char) → List Char
  | [] => []
  | [s] => s
  | s :: r :: rest => s ++ ' ' :: '+' :: ' ' :: join (r :: rest)

/-- A coefficient list as text: the non-zero terms, or `0` when there are none. -/
def print (cs : List Nat) : List Char :=
  match termsFrom 0 cs with
  | [] => ['0']
  | t :: ts => join ((t :: ts).map spell)

theorem termsFrom_append (k : Nat) (cs ds : List Nat) :
    termsFrom k (cs ++ ds) = termsFrom (k + cs.length) ds ++ termsFrom k cs := by
  induction cs generalizing k with
  | nil => rw [List.nil_append, List.length_nil, Nat.add_zero, termsFrom, List.append_nil]
  | cons c cs ih =>
    rw [List.cons_append, termsFrom, termsFrom, ih, List.append_assoc, List.length_cons,
      Nat.add_comm cs.length, Nat.add_assoc]

theorem termsFrom_of_zero (h : ∀ j, cs.getD j 0 = 0) (k : Nat) : termsFrom k cs = [] := by
  induction cs generalizing k with
  | nil => rfl
  | cons c cs ih =>
    have hc : c = 0 := h 0
    rw [termsFrom, ih fun j => h (j + 1), if_pos hc, List.nil_append]

theorem termsFrom_congr (h : ∀ j, cs.getD j 0 = ds.getD j 0) (k : Nat) :
    termsFrom k cs = termsFrom k ds := by
  induction cs generalizing ds k with
  | nil => rw [termsFrom_of_zero fun j => (h j).symm, termsFrom]
  | cons c cs ih =>
    cases ds with
    | nil => rw [termsFrom_of_zero h, termsFrom]
    | cons d ds =>
      have hhead : c = d := h 0
      rw [termsFrom, termsFrom, ih fun j => h (j + 1), hhead]

theorem print_eq_join (h : termsFrom 0 cs = ts) (hne : ts ≠ []) : print cs = join (ts.map spell) := by
  rw [print, h]
  cases ts with
  | nil => exact absurd rfl hne
  | cons t ts => rfl

theorem space_notMem_spell (t : Term) : ' ' ∉ spell t := by
  intro h
  rcases List.mem_append.1 h with h | h
  · have hspace := isHex_of_mem_numeral (by omega) (by omega) h
    exact absurd hspace (by decide)
  · split at h
    · exact absurd h List.not_mem_nil
    · rcases List.mem_cons.1 h with h | h
      · exact absurd h (by decide)
      · rcases List.mem_cons.1 h with h | h
        · exact absurd h (by decide)
        · exact absurd (isDec_of_mem_numeral h) (by decide)

def readTerms : Nat → List Char → Option (List Term)
  | 0, _ => none
  | fuel + 1, s =>
    if s.takeWhile isHex = [] then none else
    match s.dropWhile isHex with
    | [] => some [⟨value 16 (s.takeWhile isHex), 0⟩]
    | 'x' :: '^' :: r =>
      match r.dropWhile isDec with
      | [] => some [⟨value 16 (s.takeWhile isHex), value 10 (r.takeWhile isDec)⟩]
      | ' ' :: '+' :: ' ' :: rest =>
        (readTerms fuel rest).map (⟨value 16 (s.takeWhile isHex), value 10 (r.takeWhile isDec)⟩ :: ·)
      | _ => none
    | _ => none

theorem takeWhile_span {p : Char → Bool} {ds rest : List Char} (hds : ∀ c ∈ ds, p c = true)
    (hrest : ∀ c ∈ rest.head?, p c = false) : (ds ++ rest).takeWhile p = ds := by
  rw [List.takeWhile_append_of_pos hds]
  cases rest with
  | nil => rw [List.takeWhile_nil, List.append_nil]
  | cons c rest =>
    rw [List.takeWhile_cons_of_neg, List.append_nil]
    rw [hrest c rfl]
    exact Bool.false_ne_true

theorem dropWhile_span {p : Char → Bool} {ds rest : List Char} (hds : ∀ c ∈ ds, p c = true)
    (hrest : ∀ c ∈ rest.head?, p c = false) : (ds ++ rest).dropWhile p = rest := by
  have h := List.takeWhile_append_dropWhile (p := p) (l := ds ++ rest)
  rw [takeWhile_span hds hrest] at h
  exact List.append_cancel_left h

theorem readTerms_of_spells (h : Spells s ts) (hf : ts.length ≤ fuel) :
    readTerms fuel s = some ts := by
  have hx {r : List Char} : ∀ c ∈ ('x' :: '^' :: r).head?, isHex c = false := by
    intro c hc
    cases hc
    decide
  have hs {r : List Char} : ∀ c ∈ (' ' :: '+' :: ' ' :: r).head?, isDec c = false := by
    intro c hc
    cases hc
    decide
  have hnum (k : Nat) : value 10 (numeral 10 k) = k := value_numeral (by omega) (by omega) k
  have hdec (k : Nat) : ∀ c ∈ numeral 10 k, isDec c = true := fun _ => isDec_of_mem_numeral
  induction h generalizing fuel with
  | const hne hds =>
    obtain ⟨fuel, rfl⟩ := Nat.exists_eq_add_of_le' hf
    have ht := List.takeWhile_eq_self_iff.2 hds
    have hd := List.dropWhile_eq_nil_iff.2 hds
    simp only [List.length_singleton, readTerms, ht, hd, if_neg hne]
  | @power ds k hne hds hk =>
    obtain ⟨fuel, rfl⟩ := Nat.exists_eq_add_of_le' hf
    have ht := List.takeWhile_eq_self_iff.2 (hdec k)
    have hd := List.dropWhile_eq_nil_iff.2 (hdec k)
    simp only [List.length_singleton, readTerms, takeWhile_span hds hx, dropWhile_span hds hx,
      if_neg hne, ht, hd, hnum]
  | cons hne hds hk hr ih =>
    cases fuel with
    | zero => exact absurd hf (Nat.not_succ_le_zero _)
    | succ fuel =>
      have hrest := ih (Nat.le_of_succ_le_succ hf)
      simp only [readTerms, takeWhile_span hds hx, dropWhile_span hds hx, if_neg hne,
        takeWhile_span (hdec _) hs, dropWhile_span (hdec _) hs, hnum, hrest, Option.map_some]

/-- A text spells one list of terms. -/
theorem Spells.unique (h : Spells s ts) (h' : Spells s ts') : ts = ts' := by
  have hread := readTerms_of_spells h (Nat.le_add_right _ ts'.length)
  have hread' := readTerms_of_spells h' (Nat.le_add_left _ ts.length)
  exact Option.some.inj (hread.symm.trans hread')

def isPlain (c : Char) : Bool := isHex c || isDec c || [' ', '+', 'x', '^'].contains c

theorem Spells.isPlain (h : Spells s ts) : ∀ c ∈ s, isPlain c = true := by
  have hhex {ds : List Char} (hds : ∀ c ∈ ds, isHex c = true) : ∀ c ∈ ds, HexPoly.isPlain c = true := by
    intro c hc
    rw [HexPoly.isPlain, hds c hc, Bool.true_or, Bool.true_or]
  have hnum (k : Nat) : ∀ c ∈ numeral 10 k, HexPoly.isPlain c = true := by
    intro c hc
    rw [HexPoly.isPlain, isDec_of_mem_numeral hc, Bool.or_true, Bool.true_or]
  induction h with
  | const _ hds => exact hhex hds
  | power _ hds _ =>
    simp only [List.forall_mem_append, List.forall_mem_cons]
    exact ⟨hhex hds, by decide, by decide, hnum _⟩
  | cons _ hds _ _ ih =>
    simp only [List.forall_mem_append, List.forall_mem_cons]
    exact ⟨hhex hds, by decide, by decide, hnum _, by decide, by decide, by decide, ih⟩

/-- What a text denotes. Terms with a zero coefficient may be left out, so the empty text is zero. -/
def Denotes (s : List Char) (p : Nat[X]) : Prop :=
  (s = [] ∧ p = 0) ∨ ∃ ts, Spells s ts ∧ toPoly ts = p

theorem Spells.ne_nil (h : Spells s ts) : s ≠ [] := by
  cases h with
  | const hne _ => exact hne
  | power hne _ _ => exact List.append_ne_nil_of_left_ne_nil hne _
  | cons hne _ _ _ => exact List.append_ne_nil_of_left_ne_nil hne _

theorem Spells.denotes_iff (h : Spells s ts) : Denotes s p ↔ toPoly ts = p := by
  constructor
  · rintro (⟨hnil, -⟩ | ⟨ts', h', rfl⟩)
    · exact absurd hnil h.ne_nil
    · rw [h.unique h']
  · exact fun hp => Or.inr ⟨ts, h, hp⟩

end HexPoly
