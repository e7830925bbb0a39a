import MuchPIR.Client
import MuchPIR.ExpandSemantics

namespace MuchPIR
open Prog
set_option autoImplicit true

theorem SealM.same_call {x : Except Exn α} {y : Except Exn β} {R : α → β → Prop}
    (h : Alike R x y) : Same R (SealM.call op x) (SealM.call op y) := by
  intro ops
  cases x with
  | ok a =>
    cases y with
    | ok b => exact ⟨h, rfl⟩
    | error e => exact h.elim
  | error e =>
    cases y with
    | ok b => exact h.elim
    | error e' => exact rfl

/-- Ciphertexts are secret: any two of them count as alike. -/
def Any (_ : α) (_ : β) : Prop := True

theorem alike_any {x : Except ε α} : Alike Any x x :=
  (alike_self x).mono fun _ _ _ => trivial

def SameShape (v v' : List (Option α)) : Prop := v.map Option.isSome = v'.map Option.isSome

theorem SameShape.length_eq {v v' : List (Option α)} (h : SameShape v v') :
    v.length = v'.length := by
  rw [← List.length_map Option.isSome, h, List.length_map]

theorem SameShape.set {v v' : List (Option α)} (h : SameShape v v') (a : Nat) (c d : α) :
    SameShape (v.set a (some c)) (v'.set a (some d)) := by
  rw [SameShape, List.map_set, List.map_set, h]
  rfl

theorem SameShape.take {v v' : List (Option α)} (h : SameShape v v') (m : Nat) :
    SameShape (v.take m) (v'.take m) := by
  rw [SameShape, List.map_take, List.map_take, h]

theorem entry_alike {v v' : List (Option α)} (h : SameShape v v') (a : Nat) :
    Alike Any (entry v a) (entry v' a) := by
  have hget : v[a]?.map Option.isSome = v'[a]?.map Option.isSome := by
    rw [← List.getElem?_map, ← List.getElem?_map, h]
  rw [entry, entry]
  generalize v[a]? = x at hget ⊢
  generalize v'[a]? = y at hget ⊢
  rcases x with _ | _ | c <;> rcases y with _ | _ | d
  all_goals first | exact trivial | cases hget

theorem mem_of_entry {elts : List α} (h : entry (elts.map some) i = .ok g) : g ∈ elts := by
  rw [entry, List.getElem?_map] at h
  rcases hget : elts[i]? with _ | g'
  · rw [hget] at h
    cases h
  · rw [hget] at h
    cases h
    exact List.mem_of_getElem? hget

variable {S : Seal} {params : Params} {keygen keygen' : S.KeyGenerator}

section Calls

variable (hS : S.Lawful params keygen) (hS' : S.Lawful params keygen')

include hS

theorem add_alike (c c' d d' : S.Ciphertext) :
    Alike Any (S.add params c d) (S.add params c' d') := by
  obtain ⟨e, he⟩ := hS.add_returns c d
  obtain ⟨e', he'⟩ := hS.add_returns c' d'
  exact alike_of_ok he he' trivial

/-- SEAL refuses a product for its plaintext only. -/
theorem multiplyPlain_alike (c d : S.Ciphertext) (plain : Plaintext) :
    Alike Any (S.multiplyPlain params c plain) (S.multiplyPlain params d plain) := by
  by_cases hbad : params.polyModulusDegree < plain.coeffs.length ∨ plain.IsZero
  · exact alike_of_error (hS.multiplyPlain_throws c plain hbad)
      (hS.multiplyPlain_throws d plain hbad)
  · push Not at hbad
    obtain ⟨e, he⟩ := hS.multiplyPlain_returns c plain hbad.1 hbad.2
    obtain ⟨e', he'⟩ := hS.multiplyPlain_returns d plain hbad.1 hbad.2
    exact alike_of_ok he he' trivial

theorem loadCiphertext_alike (c d : S.Ciphertext) :
    Alike Any (S.loadCiphertext params (S.saveCiphertext S.comprModeDefault c))
      (S.loadCiphertext params (S.saveCiphertext S.comprModeDefault d)) := by
  exact alike_of_ok (hS.loadCiphertext_saved S.comprModeDefault c)
    (hS.loadCiphertext_saved S.comprModeDefault d) trivial

theorem multiplyPowerOfX_same (c d : S.Ciphertext) (index : Nat) :
    Same Any (multiplyPowerOfX S params c index) (multiplyPowerOfX S params d index) := by
  rw [multiplyPowerOfX, multiplyPowerOfX, hS.size_eq, hS.size_eq]
  apply Same.forRange _ trivial
  intro _ _ _ _
  exact SealM.same_call trivial

theorem doubleEntry_same (two : Plaintext)
    {temp temp' newtemp newtemp' : List (Option S.Ciphertext)} (htemp : SameShape temp temp')
    (a : Nat) (hnew : SameShape newtemp newtemp') :
    Same SameShape (doubleEntry S params two temp a newtemp)
      (doubleEntry S params two temp' a newtemp') := by
  rw [doubleEntry, doubleEntry]
  apply Same.bind (Same.lift (entry_alike htemp a))
  intro c c' _
  apply Same.bind (SealM.same_call (multiplyPlain_alike hS c c' two))
  intro doubled doubled' _
  exact Same.pure (hnew.set a doubled doubled')

include hS'

theorem applyGalois_alike (hn : params.polyModulusDegree = 2 ^ k)
    (hg : g ∈ generateGaloisElts params.polyModulusDegree) (c d : S.Ciphertext) :
    Alike Any
      (S.applyGalois params c g (generateGaloisKeys S params keygen params.polyModulusDegree))
      (S.applyGalois params d g (generateGaloisKeys S params keygen' params.polyModulusDegree)) := by
  have helts : ∀ g ∈ generateGaloisElts params.polyModulusDegree,
      Odd g ∧ g < 2 * params.polyModulusDegree := by
    intro g hg
    rw [hn, generateGaloisElts_two_pow, List.mem_map] at hg
    obtain ⟨i, hi, rfl⟩ := hg
    rw [hn]
    exact ⟨galoisElt_odd (List.mem_range.1 hi), galoisElt_lt (List.mem_range.1 hi)⟩
  obtain ⟨e, he⟩ := hS.applyGalois_returns c _ helts g hg
  obtain ⟨e', he'⟩ := hS'.applyGalois_returns d _ helts g hg
  exact alike_of_ok he he' trivial

end Calls

section Expand

variable {k : Nat} (hS : S.Lawful params keygen) (hS' : S.Lawful params keygen')
  (hn : params.polyModulusDegree = 2 ^ k)

include hS hS' hn

theorem butterfly_same {temp temp' newtemp newtemp' : List (Option S.Ciphertext)}
    (hg : g ∈ generateGaloisElts params.polyModulusDegree) (htemp : SameShape temp temp')
    (a : Nat) (hnew : SameShape newtemp newtemp') :
    Same SameShape
      (butterfly S params (generateGaloisKeys S params keygen params.polyModulusDegree) g indexRaw
        index temp a newtemp)
      (butterfly S params (generateGaloisKeys S params keygen' params.polyModulusDegree) g indexRaw
        index temp' a newtemp') := by
  rw [butterfly, butterfly, htemp.length_eq]
  apply Same.bind (Same.lift (entry_alike htemp a))
  intro c c' _
  apply Same.bind (SealM.same_call (applyGalois_alike hS hS' hn hg c c'))
  intro rotated rotated' _
  apply Same.bind (SealM.same_call (add_alike hS c c' rotated rotated'))
  intro sum sum' _
  apply Same.bind (multiplyPowerOfX_same hS c c' indexRaw)
  intro shifted shifted' _
  apply Same.bind (multiplyPowerOfX_same hS rotated rotated' index)
  intro rotatedshifted rotatedshifted' _
  apply Same.bind (SealM.same_call (add_alike hS shifted shifted' rotatedshifted rotatedshifted'))
  intro diff diff' _
  exact Same.pure ((hnew.set a sum sum').set _ diff diff')

theorem expandLevel_same {galoisElts : List Nat}
    (helts : ∀ g ∈ galoisElts, g ∈ generateGaloisElts params.polyModulusDegree) (i : Nat)
    {temp temp' : List (Option S.Ciphertext)} (htemp : SameShape temp temp') :
    Same SameShape
      (expandLevel S params (generateGaloisKeys S params keygen params.polyModulusDegree) galoisElts
        i temp)
      (expandLevel S params (generateGaloisKeys S params keygen' params.polyModulusDegree)
        galoisElts i temp') := by
  rw [expandLevel, expandLevel, htemp.length_eq]
  apply Same.bind (Same.lift (alike_self _))
  intro g _ hpost
  obtain ⟨rfl, hg⟩ := hpost
  refine Same.forRange (fun a newtemp newtemp' hnew => ?_) rfl
  exact butterfly_same hS hS' hn (helts g (mem_of_entry hg)) htemp a hnew

theorem expandLast_same {galoisElts : List Nat}
    (helts : ∀ g ∈ galoisElts, g ∈ generateGaloisElts params.polyModulusDegree) (two : Plaintext)
    (m last : Nat) {temp temp' : List (Option S.Ciphertext)} (htemp : SameShape temp temp') :
    Same SameShape
      (expandLast S params (generateGaloisKeys S params keygen params.polyModulusDegree) galoisElts
        two m last temp)
      (expandLast S params (generateGaloisKeys S params keygen' params.polyModulusDegree)
        galoisElts two m last temp') := by
  rw [expandLast, expandLast, htemp.length_eq]
  apply Same.bind (Same.lift (alike_self _))
  intro g _ hpost
  obtain ⟨rfl, hg⟩ := hpost
  refine Same.forRange (fun a newtemp newtemp' hnew => ?_) rfl
  -- the corner case is chosen by the index alone
  split
  · exact doubleEntry_same hS two htemp a hnew
  · exact butterfly_same hS hS' hn (helts g (mem_of_entry hg)) htemp a hnew

/-- The expansions of two queries make the same calls, up to what the ciphertexts hold. -/
theorem expandQuery_same (c c' : S.Ciphertext) (m : Nat) :
    Same SameShape
      (expandQuery S params (generateGaloisKeys S params keygen params.polyModulusDegree) c m)
      (expandQuery S params (generateGaloisKeys S params keygen' params.polyModulusDegree) c'
        m) := by
  have helts : ∀ g ∈ (List.range (Nat.clog 2 params.polyModulusDegree)).map fun i =>
      (params.polyModulusDegree + 2 ^ i) / 2 ^ i,
      g ∈ generateGaloisElts params.polyModulusDegree := by
    rw [hn, clog_two_pow, generateGaloisElts_two_pow]
    exact fun _ hg => hg
  rw [expandQuery, expandQuery]
  apply Same.bind (SealM.same_call (alike_self _))
  intro two _ hpost
  obtain ⟨rfl, -⟩ := hpost
  dsimp only
  generalize (Nat.clog 2 m + (2 ^ 32 - 1)) % 2 ^ 32 = last
  split
  · exact Same.throw
  · refine Same.bind (Same.forRange (fun i temp temp' htemp =>
      expandLevel_same hS hS' hn helts i htemp) ?_) ?_
    · exact rfl
    · intro temp temp' htemp
      apply Same.bind (expandLast_same hS hS' hn helts two m last htemp)
      intro v v' hv
      exact Same.pure (hv.take m)

end Expand

end MuchPIR
