import MuchPIR.Expand

namespace MuchPIR
open Prog
set_option autoImplicit true

def SealOp.rowProduct : SealOp → Option (Nat × Plaintext)
  | .multiplyPlain (.dim1 jj) plain => some (jj, plain)
  | _ => none

def NoRows (ops : List SealOp) : Prop := ∀ op ∈ ops, op.rowProduct = none

theorem NoRows.snoc (h : NoRows ops) (hop : op.rowProduct = none) : NoRows (ops ++ [op]) := by
  intro o ho
  rcases List.mem_append.1 ho with ho | ho
  · exact h o ho
  · rw [List.mem_singleton.1 ho]
    exact hop

theorem noRows_nil : NoRows [] := fun _ h => absurd h List.not_mem_nil

theorem wp_call_noRows (h : NoRows ops) (hop : op.rowProduct = none) (x : Except Exn α) :
    wp (SealM.call op x) (fun _ ops => NoRows ops) (fun _ ops => NoRows ops) ops :=
  SealM.wp_call (fun _ _ => h.snoc hop) fun _ _ => h.snoc hop

def Assigned (v : List (Option α)) (a : Nat) : Prop := ∃ c, v[a]? = some (some c)

theorem Assigned.set {v : List (Option α)} (h : Assigned v a) (b : Nat) (c : α) :
    Assigned (v.set b (some c)) a := by
  obtain ⟨d, hd⟩ := h
  by_cases hab : b = a
  · subst hab
    exact ⟨c, List.getElem?_set_self (List.getElem?_eq_some_iff.1 hd).1⟩
  · exact ⟨d, by rw [List.getElem?_set_ne hab, hd]⟩

theorem assigned_set {v : List (Option α)} (h : a < v.length) (c : α) :
    Assigned (v.set a (some c)) a :=
  ⟨c, List.getElem?_set_self h⟩

/-- After `a` passes of a level that doubles `len` entries and leaves out the second halves from
`limit` on. -/
structure Halves (len limit a : Nat) (v : List (Option α)) : Prop where
  length_eq : v.length = 2 * len
  low : ∀ b < a, Assigned v b
  high : ∀ b < a, b < limit → Assigned v (b + len)

theorem Halves.start (len limit : Nat) :
    Halves len limit 0 (List.replicate (2 * len) (none : Option α)) :=
  ⟨List.length_replicate, fun _ h => absurd h (Nat.not_lt_zero _),
    fun _ h => absurd h (Nat.not_lt_zero _)⟩

theorem Halves.step {v : List (Option α)} (h : Halves len limit a v) (ha : a < len) (c d : α) :
    Halves len limit (a + 1) ((v.set a (some c)).set (a + len) (some d)) := by
  have hlen := h.length_eq
  refine ⟨by rw [List.length_set, List.length_set, hlen], ?_, ?_⟩
  · intro b hb
    apply Assigned.set
    rcases Nat.lt_succ_iff_lt_or_eq.1 hb with hlt | rfl
    · exact (h.low b hlt).set a c
    · exact assigned_set (by omega) c
  · intro b hb hlim
    rcases Nat.lt_succ_iff_lt_or_eq.1 hb with hlt | rfl
    · exact ((h.high b hlt hlim).set a c).set (a + len) d
    · exact assigned_set (by rw [List.length_set]; omega) d

theorem Halves.single {v : List (Option α)} (h : Halves len limit a v) (ha : a < len)
    (hlim : limit ≤ a) (c : α) : Halves len limit (a + 1) (v.set a (some c)) := by
  have hlen := h.length_eq
  refine ⟨by rw [List.length_set, hlen], ?_, ?_⟩
  · intro b hb
    rcases Nat.lt_succ_iff_lt_or_eq.1 hb with hlt | rfl
    · exact (h.low b hlt).set a c
    · exact assigned_set (by omega) c
  · intro b hb hlt
    exact (h.high b (by omega) hlt).set a c

theorem Halves.all {v : List (Option α)} (h : Halves len limit len v) (ha : a < len + limit) :
    a < 2 * len → Assigned v a := by
  intro hlt
  rcases Nat.lt_or_ge a len with hlow | hhigh
  · exact h.low a hlow
  · have hb := h.high (a - len) (by omega) (by omega)
    rwa [Nat.sub_add_cancel hhigh] at hb

/-- The calls that an expansion with these Galois elements makes. -/
def SealOp.OfExpansion (elts : List Nat) : SealOp → Prop
  | .plaintext _ => True
  | .applyGalois g => g ∈ elts
  | .add => True
  | .negacyclicShift _ => True
  | .multiplyPlain (.temp _) _ => True
  | _ => False

def OnlyExpansion (elts : List Nat) (ops : List SealOp) : Prop := ∀ op ∈ ops, op.OfExpansion elts

theorem onlyExpansion_nil (elts : List Nat) : OnlyExpansion elts [] :=
  fun _ h => absurd h List.not_mem_nil

theorem OnlyExpansion.snoc (h : OnlyExpansion elts ops) (hop : op.OfExpansion elts) :
    OnlyExpansion elts (ops ++ [op]) := by
  intro o ho
  rcases List.mem_append.1 ho with ho | ho
  · exact h o ho
  · rw [List.mem_singleton.1 ho]
    exact hop

theorem OnlyExpansion.noRows (h : OnlyExpansion elts ops) : NoRows ops := by
  intro op hop
  have hexp := h op hop
  cases op with
  | multiplyPlain operand plain =>
    cases operand with
    | dim1 jj => exact hexp.elim
    | temp a => rfl
    | single => rfl
  | _ => rfl

section Expand

variable {S : Seal} {params : Params} {galkey : S.GaloisKeys} {elts : List Nat} {two : Plaintext}

/-- SEAL serves an expansion: the calls that it makes return. -/
structure Serves (S : Seal) (params : Params) (galkey : S.GaloisKeys) (elts : List Nat) : Prop where
  applyGalois : ∀ g ∈ elts, ∀ c, ∃ d, S.applyGalois params c g galkey = .ok d
  add : ∀ c d, ∃ e, S.add params c d = .ok e
  plaintext : ∃ two, S.plaintext ['2'] = .ok two
  double : ∀ two, S.plaintext ['2'] = .ok two → ∀ c, ∃ d, S.multiplyPlain params c two = .ok d

/-- An expansion that throws does so because SEAL does not serve it. -/
def NotServed (S : Seal) (params : Params) (galkey : S.GaloisKeys) (elts : List Nat) (_ : Fault)
    (ops : List SealOp) : Prop :=
  OnlyExpansion elts ops ∧ ¬Serves S params galkey elts

theorem wp_call_onlyExpansion {x : Except Exn α} (op : SealOp) (h : OnlyExpansion elts ops)
    (hop : op.OfExpansion elts) (hx : Serves S params galkey elts → ∃ a, x = .ok a) :
    wp (SealM.call op x) (fun a ops => x = .ok a ∧ OnlyExpansion elts ops)
      (NotServed S params galkey elts) ops := by
  apply SealM.wp_call
  · exact fun a ha => ⟨ha, h.snoc hop⟩
  · intro e he
    refine ⟨h.snoc hop, fun hS => ?_⟩
    obtain ⟨a, ha⟩ := hx hS
    rw [ha] at he
    cases he

theorem multiplyPowerOfX_trace (h : OnlyExpansion elts ops) (c : S.Ciphertext) (index : Nat) :
    wp (multiplyPowerOfX S params c index) (fun _ ops => OnlyExpansion elts ops)
      (NotServed S params galkey elts) ops := by
  refine wp_forRange (fun _ _ ops => OnlyExpansion elts ops) (fun _ _ _ _ _ hops => ?_) h
  exact wp_mono (wp_call_onlyExpansion (.negacyclicShift index) hops trivial fun _ => ⟨_, rfl⟩) (fun _ _ h => h.2)
    fun _ _ h => h

theorem wp_entry {Q : S.Ciphertext → List SealOp → Prop} {E : Fault → List SealOp → Prop}
    (ha : Assigned temp a) (hQ : ∀ c, Q c ops) : wp (lift (entry temp a)) Q E ops := by
  obtain ⟨c, hc⟩ := ha
  rw [entry_eq_ok hc]
  exact hQ c

theorem butterfly_trace {newtemp : List (Option S.Ciphertext)} (h : OnlyExpansion elts ops)
    (hg : galoisElt ∈ elts) (hv : Halves temp.length limit a newtemp) (ha : a < temp.length)
    (hentry : Assigned temp a) :
    wp (butterfly S params galkey galoisElt indexRaw index temp a newtemp)
      (fun v ops => Halves temp.length limit (a + 1) v ∧ OnlyExpansion elts ops)
      (NotServed S params galkey elts) ops := by
  simp only [butterfly, wp_bind]
  apply wp_entry hentry
  intro c
  apply wp_mono (wp_call_onlyExpansion (.applyGalois galoisElt) h hg fun hS => hS.applyGalois _ hg c) _ (fun _ _ h => h)
  intro rotated ops hpost
  obtain ⟨-, h⟩ := hpost
  apply wp_mono (wp_call_onlyExpansion .add h trivial fun hS => hS.add _ _) _ (fun _ _ h => h)
  intro sum ops hpost
  obtain ⟨-, h⟩ := hpost
  apply wp_mono (multiplyPowerOfX_trace h c _) _ (fun _ _ h => h)
  intro shifted ops h
  apply wp_mono (multiplyPowerOfX_trace h rotated _) _ (fun _ _ h => h)
  intro rotatedshifted ops h
  apply wp_mono (wp_call_onlyExpansion .add h trivial fun hS => hS.add _ _) _ (fun _ _ h => h)
  intro sum' ops hpost
  exact ⟨hv.step ha sum sum', hpost.2⟩

theorem doubleEntry_trace {newtemp : List (Option S.Ciphertext)} (h : OnlyExpansion elts ops)
    (htwo : S.plaintext ['2'] = .ok two) (hv : Halves temp.length limit a newtemp)
    (ha : a < temp.length) (hlim : limit ≤ a) (hentry : Assigned temp a) :
    wp (doubleEntry S params two temp a newtemp)
      (fun v ops => Halves temp.length limit (a + 1) v ∧ OnlyExpansion elts ops)
      (NotServed S params galkey elts) ops := by
  simp only [doubleEntry, wp_bind]
  apply wp_entry hentry
  intro c
  apply wp_mono (wp_call_onlyExpansion (.multiplyPlain (.temp a) two) h trivial
    fun hS => hS.double _ htwo c) _ (fun _ _ h => h)
  intro doubled ops hpost
  exact ⟨hv.single ha hlim doubled, hpost.2⟩

theorem wp_galoisElt {Q : Nat → List SealOp → Prop} {E : Fault → List SealOp → Prop}
    (hi : i < elts.length) (hQ : ∀ g ∈ elts, Q g ops) :
    wp (lift (entry (elts.map some) i)) Q E ops := by
  have hget : (elts.map some)[i]? = some (some elts[i]) := by
    rw [List.getElem?_map, List.getElem?_eq_getElem hi, Option.map_some]
  rw [entry_eq_ok hget]
  exact hQ _ (List.getElem_mem hi)

theorem expandLevel_trace (h : OnlyExpansion elts ops) (hi : i < elts.length)
    (hlen : temp.length = 2 ^ i) (hentries : ∀ a < 2 ^ i, Assigned temp a) :
    wp (expandLevel S params galkey elts i temp)
      (fun v ops => v.length = 2 ^ (i + 1) ∧ (∀ a < 2 ^ (i + 1), Assigned v a) ∧
        OnlyExpansion elts ops) (NotServed S params galkey elts) ops := by
  simp only [expandLevel, wp_bind]
  apply wp_galoisElt hi
  intro galoisElt hg
  refine wp_mono (wp_forRange (fun a v ops => Halves temp.length temp.length a v ∧
    OnlyExpansion elts ops) ?_ ⟨Halves.start _ _, h⟩) ?_ (fun _ _ h => h)
  · intro a v ops _ ha hpost
    obtain ⟨hv, h⟩ := hpost
    exact butterfly_trace h hg hv (by omega) (hentries a (by omega))
  · intro v ops hpost
    obtain ⟨hv, h⟩ := hpost
    rw [zero_add] at hv
    refine ⟨by rw [hv.length_eq, hlen, pow_succ, mul_comm], fun a ha => ?_, h⟩
    rw [pow_succ] at ha
    exact hv.all (by omega) (by omega)

theorem expandLast_trace (h : OnlyExpansion elts ops) (htwo : S.plaintext ['2'] = .ok two)
    (hi : last < elts.length) (hm : m ≤ 2 ^ (last + 1)) (hlen : temp.length = 2 ^ last)
    (hentries : ∀ a < 2 ^ last, Assigned temp a) :
    wp (expandLast S params galkey elts two m last temp)
      (fun v ops => v.length = 2 ^ (last + 1) ∧ (∀ a < m, Assigned v a) ∧ OnlyExpansion elts ops)
      (NotServed S params galkey elts) ops := by
  have hpow : 2 ^ (last + 1) = 2 * 2 ^ last := pow_succ' 2 last
  simp only [expandLast, wp_bind]
  apply wp_galoisElt hi
  intro galoisElt hg
  refine wp_mono (wp_forRange (fun a v ops => Halves temp.length (m - 2 ^ last) a v ∧
    OnlyExpansion elts ops) ?_ ⟨Halves.start _ _, h⟩) ?_ (fun _ _ h => h)
  · intro a v ops _ ha hpost
    obtain ⟨hv, h⟩ := hpost
    split
    · next hcorner => exact doubleEntry_trace h htwo hv (by omega) hcorner (hentries a (by omega))
    · exact butterfly_trace h hg hv (by omega) (hentries a (by omega))
  · intro v ops hpost
    obtain ⟨hv, h⟩ := hpost
    rw [zero_add] at hv
    refine ⟨by rw [hv.length_eq, hlen, hpow], fun a ha => ?_, h⟩
    exact hv.all (by omega) (by omega)

def expansionElts (n : Nat) : List Nat := (List.range (Nat.clog 2 n)).map fun i => (n + 2 ^ i) / 2 ^ i

/-- An expansion to `m` entries, whatever SEAL does: when it returns, it has assigned every entry,
and it throws only when SEAL does or there is no room for `m` entries. -/
theorem expandQuery_trace (hm : 2 ≤ m) (hm32 : m < 2 ^ 32)
    (h : OnlyExpansion (expansionElts params.polyModulusDegree) ops) (encrypted : S.Ciphertext) :
    wp (expandQuery S params galkey encrypted m)
      (fun v ops => v.length = m ∧ (∀ a < m, Assigned v a) ∧
        OnlyExpansion (expansionElts params.polyModulusDegree) ops)
      (fun _ ops => OnlyExpansion (expansionElts params.polyModulusDegree) ops ∧
        ¬(m ≤ params.polyModulusDegree ∧
          Serves S params galkey (expansionElts params.polyModulusDegree))) ops := by
  have hpos : 0 < Nat.clog 2 m := Nat.clog_pos (by omega) hm
  have h32 : Nat.clog 2 m ≤ 32 := Nat.clog_le_of_le_pow hm32.le
  have hhigh : m ≤ 2 ^ (Nat.clog 2 m - 1 + 1) := by
    rw [Nat.sub_add_cancel hpos]
    exact Nat.le_pow_clog (by omega) m
  have hlast : (Nat.clog 2 m + (2 ^ 32 - 1)) % 2 ^ 32 = Nat.clog 2 m - 1 := by omega
  have helts : (List.range (Nat.clog 2 params.polyModulusDegree)).map
      (fun i => (params.polyModulusDegree + 2 ^ i) / 2 ^ i) =
      expansionElts params.polyModulusDegree := rfl
  have hlen : (expansionElts params.polyModulusDegree).length =
      Nat.clog 2 params.polyModulusDegree := by
    rw [expansionElts, List.length_map, List.length_range]
  have hstop : ∀ e ops, NotServed S params galkey (expansionElts params.polyModulusDegree) e ops →
      OnlyExpansion (expansionElts params.polyModulusDegree) ops ∧
        ¬(m ≤ params.polyModulusDegree ∧
          Serves S params galkey (expansionElts params.polyModulusDegree)) :=
    fun _ _ h => ⟨h.1, fun hS => h.2 hS.2⟩
  simp only [expandQuery, wp_bind, hlast, helts]
  apply wp_mono (wp_call_onlyExpansion (.plaintext ['2']) h trivial fun hS => hS.plaintext) _ hstop
  intro two ops hpost
  obtain ⟨htwo, h⟩ := hpost
  split
  · next hlt =>
    exact ⟨h, fun hS => absurd (Nat.clog_mono_right 2 hS.1) (Nat.not_le.2 hlt)⟩
  · next hle =>
    simp only [wp_bind, wp_pure]
    refine wp_mono (wp_forRange (fun i temp ops => temp.length = 2 ^ i ∧
      (∀ a < 2 ^ i, Assigned temp a) ∧
      OnlyExpansion (expansionElts params.polyModulusDegree) ops) ?_ ?_) ?_ hstop
    · intro i temp ops _ hi hpost
      obtain ⟨hlevel, hentries, h⟩ := hpost
      exact expandLevel_trace h (by omega) hlevel hentries
    · refine ⟨rfl, fun a ha => ⟨encrypted, ?_⟩, h⟩
      rw [Nat.lt_one_iff.1 ha]
      rfl
    · intro temp ops hpost
      rw [zero_add] at hpost
      obtain ⟨hlevel, hentries, h⟩ := hpost
      apply wp_mono (expandLast_trace h htwo (by omega) hhigh hlevel hentries) _ hstop
      intro v ops hpost
      obtain ⟨hvlen, hv, h⟩ := hpost
      refine ⟨by rw [List.length_take, hvlen]; omega, fun a ha => ?_, h⟩
      obtain ⟨c, hc⟩ := hv a ha
      exact ⟨c, by rw [List.getElem?_take_of_lt ha, hc]⟩

end Expand

end MuchPIR
