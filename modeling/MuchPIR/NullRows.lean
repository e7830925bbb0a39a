import MuchPIR.OddRows
import MuchPIR.RowCap

namespace MuchPIR
open Prog Server
set_option autoImplicit true

variable {S : Seal} {params : Params} {keygen : S.KeyGenerator} {palloc junk : Memory}
  {query : Bytes}

theorem Event.rowProduct_eq_some {e : Event} :
    e.rowProduct = some (jj, plain) ↔ e = .sealOp (.multiplyPlain (.dim1 jj) plain) := by
  constructor
  · intro h
    cases e with
    | store f bytes => cases h
    | load f bytes => cases h
    | sealOp op =>
      cases op with
      | multiplyPlain operand plain' =>
        cases operand with
        | dim1 kk =>
          cases h
          rfl
        | _ => cases h
      | _ => cases h
  · rintro rfl
    rfl

/-- A call that returns multiplies its row once, by the entry at the counter. -/
theorem transition_multiplies (S : Seal) (palloc : Memory) (query row : Bytes) {w : World}
    (h : w.state.rowIdx ≤ dbSize) :
    wp (pirSelectInternal S palloc query row)
      (fun _ w' => ∃ plain evs, EncodedAs S row plain ∧ w'.log = w.log ++ evs ∧
        evs.filterMap Event.rowProduct = [(w.state.rowIdx, plain)]) (fun _ _ => True) w := by
  rcases Nat.eq_zero_or_pos w.state.rowIdx with hzero | hpos
  · apply wp_mono (firstTransition_trace S palloc query row w hzero) _ (fun _ _ _ => trivial)
    intro _ w' hpost
    obtain ⟨plain, evs, hplain, hlog, htrace, -⟩ := hpost
    rw [hzero]
    exact ⟨plain, evs, hplain, hlog, htrace.products_eq⟩
  · apply wp_mono (laterTransition_trace S palloc query row w hpos h) _ (fun _ _ _ => trivial)
    intro _ w' hpost
    obtain ⟨plain, evs, bytes, hplain, hsaved, hlog, htrace, -⟩ := hpost
    exact ⟨plain, _, hplain, hlog, (htrace.store hsaved).products_eq⟩

def MultipliedBy (S : Seal) (palloc junk : Memory) (query : Bytes) (table : List (Option Bytes))
    (p : Nat) (row : Bytes) (jj : Nat) : Prop :=
  ∃ w evs, aggregate S palloc query (table.take p) (startWorld junk) = (.ok (), w) ∧
    (aggregate S palloc query (table.take (p + 1)) (startWorld junk)).2.log = w.log ++ evs ∧
    .sealOp (.multiplyPlain (.dim1 jj) (rowPlain row)) ∈ evs

structure PositionKept (S : Seal) (params : Params) (keygen : S.KeyGenerator)
    (palloc junk : Memory) (query : Bytes) (table : List (Option Bytes)) (p : Nat) (row : Bytes) :
    Prop where
  multiplied : MultipliedBy S palloc junk query table p row p
  returned : AnsweredWith S params keygen palloc junk query table row

theorem aggregate_startWorld (table : List (Option Bytes)) :
    aggregate S palloc query table (startWorld junk) =
      run S palloc junk query table.reduceOption := by
  rw [aggregate_eq, run]

theorem split_at {table : List (Option Bytes)} (hp : table[p]? = some (some row)) :
    table.take (p + 1) = table.take p ++ [some row] ∧
      table = table.take p ++ some row :: table.drop (p + 1) := by
  obtain ⟨hlt, hrow⟩ := List.getElem?_eq_some_iff.1 hp
  constructor
  · rw [List.take_succ_eq_append_getElem hlt, hrow]
  · conv_lhs => rw [← List.take_append_drop p table, List.drop_eq_getElem_cons hlt, hrow]

theorem returns_of_append (h : run S palloc junk query (rows ++ rows') = (.ok (), w)) :
    ∃ w', run S palloc junk query rows = (.ok (), w') := by
  rcases hrun : run S palloc junk query rows with ⟨e | u, w'⟩
  · rw [run_append_of_error hrun] at h
    cases h
  · exact ⟨w', rfl⟩

/-- In an aggregate that returns, a row meets the entry that its number of predecessors that are
not NULL says. -/
theorem multipliedBy_iff {table : List (Option Bytes)} (hS : S.Lawful params keygen)
    (hlen : table.length ≤ dbSize) (hp : table[p]? = some (some row))
    (hrun : run S palloc junk query table.reduceOption = (.ok (), w)) (jj : Nat) :
    MultipliedBy S palloc junk query table p row jj ↔
      jj = (table.take p).reduceOption.length := by
  obtain ⟨hsucc, hsplit⟩ := split_at hp
  have hbefore : (table.take p).reduceOption.length ≤ dbSize :=
    (List.reduceOption_length_le _).trans ((List.length_take_le' _ _).trans hlen)
  have hcall : run S palloc junk query (table.take (p + 1)).reduceOption =
      run S palloc junk query ((table.take p).reduceOption ++ [row]) := by
    rw [hsucc, List.reduceOption_append, List.reduceOption_singleton, Option.toList_some]
  have hall : table.reduceOption =
      ((table.take p).reduceOption ++ [row]) ++ (table.drop (p + 1)).reduceOption := by
    conv_lhs => rw [hsplit, List.reduceOption_append, List.reduceOption_cons_of_some]
    rw [List.append_assoc, List.singleton_append]
  rw [hall] at hrun
  obtain ⟨w', hthrough⟩ := returns_of_append hrun
  obtain ⟨w₀, hw₀⟩ := returns_of_append hthrough
  have hcount := (run_counted hbefore hw₀).rowIdx_eq
  rw [run, transitions_snoc, bind_of_ok _ hw₀] at hthrough
  obtain ⟨plain, evs, hplain, hlog, hproducts⟩ :=
    wp_ok (transition_multiplies S palloc query row (by rw [hcount]; exact hbefore)) hthrough
  obtain ⟨-, rfl⟩ := hplain.eq_rowPlain hS
  rw [hcount] at hproducts
  have hmem : .sealOp (.multiplyPlain (.dim1 jj) (rowPlain row)) ∈ evs ↔
      jj = (table.take p).reduceOption.length := by
    have hiff : (jj, rowPlain row) ∈ evs.filterMap Event.rowProduct ↔
        .sealOp (.multiplyPlain (.dim1 jj) (rowPlain row)) ∈ evs := by
      simp only [List.mem_filterMap, Event.rowProduct_eq_some, exists_eq_right]
    rw [← hiff, hproducts, List.mem_singleton, Prod.mk.injEq, and_iff_left rfl]
  simp only [MultipliedBy, aggregate_startWorld, hcall, hw₀]
  rw [← hmem, run, transitions_snoc, bind_of_ok _ hw₀, hthrough]
  constructor
  · rintro ⟨w₁, evs', hw₁, hlog', hevs⟩
    cases hw₁
    rw [hlog] at hlog'
    rwa [List.append_cancel_left hlog']
  · exact fun hevs => ⟨w₀, evs, rfl, hlog, hevs⟩

theorem length_before_eq_iff {table : List (Option Bytes)} (hp : p ≤ table.length) :
    p = (table.take p).reduceOption.length ↔ none ∉ table.take p := by
  have hlen : (table.take p).length = p := List.length_take_of_le hp
  have hle := List.reduceOption_length_le (table.take p)
  rw [← List.reduceOption_length_lt_iff]
  omega

/-- A NULL before a row takes its position away. -/
theorem PositionKept.before_eq {table : List (Option Bytes)} (hS : S.Lawful params keygen)
    (hlen : table.length ≤ dbSize) (hp : table[p]? = some (some row))
    (h : PositionKept S params keygen palloc junk query table p row) :
    p = (table.take p).reduceOption.length := by
  obtain ⟨w, hrun⟩ := h.returned.returns
  exact (multipliedBy_iff hS hlen hp hrun p).1 h.multiplied

/-- A row keeps its position exactly when no NULL comes before it and the server can multiply every
text of the table. -/
theorem positionKept_iff {table : List (Option Bytes)} {p : Nat} {row : Bytes} {c : S.Ciphertext}
    {k : Nat} (hS : S.Ideal params keygen) (hfit : FitsSlots S params)
    (hn : params.polyModulusDegree = 2 ^ k) (hk : 4096 ≤ params.polyModulusDegree)
    (hq : Unloads S params keygen query c) (hc : S.msg params keygen c = params.x ^ p)
    (hlen : table.length ≤ 4096) (hp : table[p]? = some (some row)) :
    PositionKept S params keygen palloc junk query table p row ↔
      none ∉ table.take p ∧ ∀ text, some text ∈ table → Accepted params.polyModulusDegree text := by
  have hplt : p < table.length := (List.getElem?_eq_some_iff.1 hp).1
  have hrows : table.reduceOption.length ≤ dbSize :=
    (List.reduceOption_length_le table).trans hlen
  simp only [← length_before_eq_iff hplt.le, ← List.reduceOption_mem_iff]
  constructor
  · intro h
    exact ⟨h.before_eq hS.toLawful hlen hp,
      h.returned.accepted hS hfit hn hk hq hc (hplt.trans_le hlen) hrows⟩
  · rintro ⟨hbefore, hall⟩
    have hsplit : table.reduceOption =
        (table.take p).reduceOption ++ row :: (table.drop (p + 1)).reduceOption := by
      conv_lhs => rw [(split_at hp).2, List.reduceOption_append, List.reduceOption_cons_of_some]
    have hget : table.reduceOption.getD p [] = row := by
      rw [hsplit, List.getD_append_right _ _ _ _ hbefore.ge, ← hbefore, Nat.sub_self,
        List.getD_cons_zero]
    have hplen : p < table.reduceOption.length := by
      rw [hsplit, List.length_append, List.length_cons]
      omega
    have hanswer : AnsweredWith S params keygen palloc junk query table _ :=
      answeredWith_of_accepted hS hfit hn hk hq hc hplen hrows hall
    rw [hget] at hanswer
    obtain ⟨w, hrun⟩ := hanswer.returns
    exact ⟨(multipliedBy_iff hS.toLawful hlen hp hrun p).2 hbefore, hanswer⟩

def nullBetween : List (Option Bytes) :=
  [some [0x46, 0x72, 0x65, 0x64], none, some [0x41, 0x6e, 0x6e]]

theorem positionKept_before_null :
    PositionKept (exactSeal demoParams 0) demoParams () (fun _ => 0) (fun _ => 0)
      (queryMessage (exactSeal demoParams 0) demoParams () (monomial 0)) nullBetween 0
      [0x46, 0x72, 0x65, 0x64] := by
  apply (positionKept_iff (k := 12) (demo_ideal 0) demo_fits (by norm_num [demoParams]) le_rfl
    (unloads_queryMessage (demo_ideal 0).toLawful (monomial 0)) (monomial_msg 0 (by omega))
    (by decide) rfl).2
  refine ⟨List.not_mem_nil, fun text htext => ?_⟩
  have hmem : text ∈ nullBetween.reduceOption := List.reduceOption_mem_iff.2 htext
  have hall : ∀ row ∈ nullBetween.reduceOption, Accepted demoParams.polyModulusDegree row := by
    decide
  exact hall text hmem

theorem not_positionKept_after_null :
    ¬PositionKept (exactSeal demoParams 0) demoParams () (fun _ => 0) (fun _ => 0)
      (queryMessage (exactSeal demoParams 0) demoParams () (monomial 1)) [none, some [0x61]] 1
      [0x61] := by
  intro h
  have hbefore := h.before_eq (demo_ideal 0).toLawful (by decide) rfl
  exact absurd hbefore (by decide)

end MuchPIR
