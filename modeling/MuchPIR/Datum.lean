import MuchPIR.Machine
import MuchPIR.SlotSafety

namespace MuchPIR
open Prog Server
set_option autoImplicit true

variable {S : Seal} {palloc junk : Memory} {query : Bytes} {w : World}

/-- What an event accesses in a datum of `size` bytes: the length field, and the bytes behind it. -/
def Event.spans (size : Nat) : Event → List MachineOp
  | .sealOp _ => []
  | .store f bytes => [.span f.offset 8 size, .span (f.offset + 8) bytes.length size]
  | .load f bytes => [.span f.offset 8 size, .span (f.offset + 8) bytes.length size]

def Event.Inside (size : Nat) (e : Event) : Prop := ∀ op ∈ e.spans size, op.Defined

theorem store_inside_iff (f : Field) (bytes : Bytes) :
    (Event.store f bytes).Inside size ↔ f.offset + 8 + bytes.length ≤ size := by
  simp only [Event.Inside, Event.spans, List.mem_cons, List.not_mem_nil, or_false, forall_eq_or_imp,
    forall_eq, MachineOp.Defined]
  omega

theorem load_inside_iff (f : Field) (bytes : Bytes) :
    (Event.load f bytes).Inside size ↔ f.offset + 8 + bytes.length ≤ size :=
  store_inside_iff f bytes

/-- What `pir_final` does to the state that it is given. -/
def finalEvents (w : World) : List Event := (pirFinal w).2.log.drop w.log.length

theorem finalEvents_eq (w : World) :
    finalEvents w = [.load .accum (fields.load w.state.data .accum)] :=
  List.drop_left

section FirstCall

/-- The parameters that are saved are those that the query begins with. -/
def ParamsOf (S : Seal) (query : Bytes) (log : List Event) : Prop :=
  ∀ bytes, .store .param bytes ∈ log → ∃ params rest,
    S.loadParams query = .ok (params, rest) ∧ bytes = S.saveParams S.comprModeDefault params

theorem ParamsOf.sealOps (h : ParamsOf S query log) (ops : List SealOp) :
    ParamsOf S query (log ++ ops.map .sealOp) :=
  fun bytes hmem => h bytes ((store_mem_sealOps ops).1 hmem)

theorem ParamsOf.store (h : ParamsOf S query log) (hf : f ≠ .param) (bytes : Bytes) :
    ParamsOf S query (log ++ [.store f bytes]) := by
  intro bytes' hmem
  rcases List.mem_append.1 hmem with hmem | hmem
  · exact h bytes' hmem
  · cases List.mem_singleton.1 hmem
    exact absurd rfl hf

theorem ParamsOf.storeParam (h : ParamsOf S query log)
    (hload : S.loadParams query = .ok (params, rest)) :
    ParamsOf S query (log ++ [.store .param (S.saveParams S.comprModeDefault params)]) := by
  intro bytes hmem
  rcases List.mem_append.1 hmem with hmem | hmem
  · exact h bytes hmem
  · cases List.mem_singleton.1 hmem
    exact ⟨params, rest, hload, rfl⟩

theorem ParamsOf.runSeal {x : SealM α} {R : α → Prop} (h : ParamsOf S query w.log)
    (hx : wp x (fun a _ => R a) (fun _ _ => True) []) :
    wp (Server.runSeal x) (fun a w' => R a ∧ ParamsOf S query w'.log)
      (fun _ w' => ParamsOf S query w'.log) w := by
  rw [wp_runSeal]
  exact wp_mono hx (fun a ops ha => ⟨ha, h.sealOps ops⟩) fun _ ops _ => h.sealOps ops

theorem ParamsOf.runAny (h : ParamsOf S query w.log) (x : SealM α) :
    wp (Server.runSeal x) (fun _ w' => ParamsOf S query w'.log)
      (fun _ w' => ParamsOf S query w'.log) w :=
  wp_mono (h.runSeal (wp_true x [])) (fun _ _ h => h.2) fun _ _ h => h

theorem loadQuery_params (S : Seal) (query : Bytes) :
    wp (loadQuery S query) (fun r _ => ∃ rest, S.loadParams query = .ok (r.1, rest))
      (fun _ _ => True) [] := by
  simp only [loadQuery, wp_bind]
  refine SealM.wp_call (fun r hload => ?_) fun _ _ => trivial
  refine SealM.wp_call (fun _ _ => ?_) fun _ _ => trivial
  refine SealM.wp_call (fun _ _ => ?_) fun _ _ => trivial
  exact ⟨r.2, hload⟩

theorem storeExpanded_params (v : List (Option S.Ciphertext)) (new : Bytea)
    (h : ParamsOf S query w.log) :
    wp (storeExpanded S v new) (fun _ w' => ParamsOf S query w'.log)
      (fun _ w' => ParamsOf S query w'.log) w := by
  rw [storeExpanded]
  refine wp_forRange (fun _ _ (w' : World) => ParamsOf S query w'.log) (fun jj nstate w' _ _ h => ?_) h
  simp only [wp_bind]
  refine wp_lift (fun c _ => ?_) fun _ _ => h
  exact h.store (f := .dim1 jj) (by simp) _

/-- The first call saves the parameters of the query, and the accumulator last of all. -/
theorem firstCall_stores (S : Seal) (palloc : Memory) (query row : Bytes)
    (h : ParamsOf S query w.log) :
    wp (firstCall S palloc query row)
      (fun new w' => ParamsOf S query w'.log ∧ ∃ b bytes log,
        new = (Bytea.store b .accum bytes).setRowIdx 1 ∧ w'.log = log ++ [.store .accum bytes])
      (fun _ w' => ParamsOf S query w'.log) w := by
  have hstop : ∀ (e : Fault) (w' : World), ParamsOf S query w'.log → ParamsOf S query w'.log :=
    fun _ _ h => h
  simp only [firstCall, wp_bind]
  apply wp_mono (h.runSeal (loadQuery_params S query)) _ hstop
  rintro ⟨params, glKeys, dimension1⟩ w1 ⟨⟨rest, hload⟩, h⟩
  apply wp_mono (h.runAny _) _ hstop
  intro hcubeDim1 w2 h
  rw [wp_storeInto]
  apply wp_mono (storeExpanded_params hcubeDim1 _ (h.storeParam hload)) _ hstop
  intro nstate w3 h
  apply wp_mono (h.runAny _) _ hstop
  intro plain w4 h
  refine wp_lift (fun first _ => ?_) fun _ _ => h
  apply wp_mono (h.runAny _) _ hstop
  intro mulResult w5 h
  rw [wp_storeInto, wp_pure]
  exact ⟨h.store (f := .accum) (by simp) _, nstate, _, _, rfl, rfl⟩

end FirstCall

/-- A state as a call leaves it. -/
structure Settled (w : World) : Prop where
  rowIdx_pos : 0 < w.state.rowIdx
  size_eq : w.state.size = stateTSize
  accum_last : ∃ b v bytes log, w.state = (Bytea.store b .accum bytes).setRowIdx v ∧
    w.log = log ++ [.store .accum bytes]

theorem Settled.accum (h : Settled w) : ∃ bytes, lastStored w.log .accum = some bytes ∧
    (bytes.length < 2 ^ 64 → fields.load w.state.data .accum = bytes) := by
  obtain ⟨b, v, bytes, log, hstate, hlog⟩ := h.accum_last
  refine ⟨bytes, ?_, fun hlen => ?_⟩
  · rw [hlog, lastStored_append, List.foldl_cons, List.foldl_nil, recordEvent,
      Function.update_self]
  · rw [hstate, Bytea.load_setRowIdx]
    exact fields.load_store_self _ _ hlen

theorem firstTransition_settled (S : Seal) (palloc junk : Memory) (query row : Bytes) :
    wp (pirSelectInternal S palloc query row) (fun _ w' => Settled w' ∧ ParamsOf S query w'.log)
      (fun _ w' => ParamsOf S query w'.log) (startWorld junk) := by
  have hzero := rowIdx_startWorld junk
  have hcall : wp (pirSelectInternal S palloc query row)
      (fun _ w' => ParamsOf S query w'.log ∧ ∃ b bytes log,
        w'.state = (Bytea.store b .accum bytes).setRowIdx 1 ∧ w'.log = log ++ [.store .accum bytes])
      (fun _ w' => ParamsOf S query w'.log) (startWorld junk) := by
    simp only [pirSelectInternal, wp_bind, wp_get, if_pos hzero]
    exact firstCall_stores S palloc query row fun _ h => absurd h List.not_mem_nil
  apply wp_mono (wp_and (firstTransition_trace S palloc query row _ hzero) hcall)
  · intro _ w' hpost
    obtain ⟨⟨plain, evs, -, -, -, hstate⟩, hparams, b, bytes, log, haccum, hlog⟩ := hpost
    refine ⟨⟨?_, ?_, b, 1, bytes, log, haccum, hlog⟩, hparams⟩
    · rw [hstate, Bytea.rowIdx_setRowIdx _ (by norm_num)]
      exact one_pos
    · rw [hstate, Bytea.size_setRowIdx, size_replay]
  · exact fun _ _ h => h.2

theorem laterTransition_settled (h : Settled w) (hparams : ParamsOf S query w.log) :
    wp (pirSelectInternal S palloc query row) (fun _ w' => Settled w' ∧ ParamsOf S query w'.log)
      (fun _ w' => ParamsOf S query w'.log) w := by
  rcases Nat.lt_or_ge dbSize w.state.rowIdx with hcap | hle
  · exact (wp_of_ok (transition_capped S palloc query row w hcap)).2 ⟨h, hparams⟩
  have hkeep {evs : List Event} {stored : Field → Prop} {products : List (Nat × Plaintext)}
      (htrace : Trace S w.state (LoadedAt w.state.rowIdx) stored products evs)
      (hs : ¬stored .param) : ParamsOf S query (w.log ++ evs) := by
    intro bytes hmem
    rcases List.mem_append.1 hmem with hmem | hmem
    · exact hparams bytes hmem
    · exact absurd ((htrace.stores .param).1 ⟨bytes, hmem⟩) hs
  apply wp_mono (laterTransition_trace S palloc query row w h.rowIdx_pos hle)
  · intro _ w' hpost
    obtain ⟨plain, evs, bytes, -, hsaved, hlog, htrace, hstate⟩ := hpost
    refine ⟨⟨?_, ?_, w.state, _, bytes, w.log ++ evs, hstate, ?_⟩, ?_⟩
    · have hdb : dbSize = 4096 := rfl
      rw [hstate, Bytea.rowIdx_setRowIdx _ (by omega)]
      exact Nat.succ_pos _
    · rw [hstate, Bytea.size_setRowIdx, Bytea.size_store, h.size_eq]
    · rw [hlog, List.append_assoc]
    · rw [hlog]
      exact hkeep (htrace.store hsaved) (by simp)
  · intro e w' hpost
    obtain ⟨-, evs, stored, products, hlog, htrace, hs⟩ := hpost
    rw [hlog]
    exact hkeep htrace (hs .param)

theorem run_settled (S : Seal) (palloc junk : Memory) (query : Bytes) (rows : List Bytes) :
    wp (transitions S palloc query rows)
      (fun _ w' => (rows ≠ [] → Settled w') ∧ ParamsOf S query w'.log)
      (fun _ w' => ParamsOf S query w'.log) (startWorld junk) := by
  cases rows with
  | nil => exact ⟨fun h => absurd rfl h, fun _ h => absurd h List.not_mem_nil⟩
  | cons row rows =>
    have hrun := wp_run (fun w => Settled w ∧ ParamsOf S query w.log)
      (firstTransition_settled S palloc junk query)
      (fun _ _ h => laterTransition_settled h.1 h.2) (List.cons_ne_nil row rows)
    exact wp_mono hrun (fun _ _ h => ⟨fun _ => h.1, h.2⟩) fun _ _ h => h

theorem run_params (S : Seal) (palloc junk : Memory) (query : Bytes) (rows : List Bytes) :
    ParamsOf S query (run S palloc junk query rows).2.log :=
  wp_final (P := fun w => ParamsOf S query w.log)
    (wp_mono (run_settled S palloc junk query rows) (fun _ _ h => h.2) fun _ _ h => h)

/-- A run fits as soon as SEAL's objects under the parameters of its query do. -/
theorem fits_of_query (hload : S.loadParams query = .ok (params, rest)) (hfit : FitsSlots S params) :
    Fits (run S palloc junk query rows).2.log := by
  refine (run_orderly S palloc junk query rows).fits (fun bytes hmem => ?_) hfit.2
  obtain ⟨params', rest', hload', rfl⟩ := run_params S palloc junk query rows bytes hmem
  rw [hload] at hload'
  cases hload'
  exact hfit.param

section Final

variable {column : List (Option Bytes)}

/-- What `pir_final` must do with the state that an aggregate hands to it. -/
structure FinalReads (S : Seal) (palloc junk : Memory) (query : Bytes)
    (column : List (Option Bytes)) : Prop where
  inside : ∀ w, aggregate S palloc query column (startWorld junk) = (.ok (), w) →
    ∀ e ∈ finalEvents w, e.Inside w.state.size
  returned : column.reduceOption ≠ [] →
    ∀ w, aggregate S palloc query column (startWorld junk) = (.ok (), w) →
      ∃ bytes, lastStored w.log .accum = some bytes ∧ (pirFinal w).1 = .ok bytes

theorem final_inside_iff (w : World) : (∀ e ∈ finalEvents w, e.Inside w.state.size) ↔
    1056 + (fields.load w.state.data .accum).length ≤ w.state.size := by
  rw [finalEvents_eq, List.forall_mem_singleton]
  exact load_inside_iff .accum _

/-- The INITCOND ends long before the accumulator. -/
theorem not_finalReads_of_null (S : Seal) (palloc junk : Memory) (query : Bytes)
    (h : column.reduceOption = []) : ¬FinalReads S palloc junk query column := by
  intro hfinal
  have hrun : aggregate S palloc query column (startWorld junk) = (.ok (), startWorld junk) := by
    rw [aggregate_eq, h]
    rfl
  have hin := (final_inside_iff _).1 (hfinal.inside _ hrun)
  have hsize : (startWorld junk).state.size = 15 := rfl
  omega

/-- `pir_final` keeps to its datum and returns the last accumulator after exactly the aggregates
over a value that is not NULL, as long as the accumulator lies in the bytes of the state. -/
theorem finalReads_iff (hrun : aggregate S palloc query column (startWorld junk) = (.ok (), w)) :
    FinalReads S palloc junk query column ↔ (∃ row, some row ∈ column) ∧
      ∀ bytes, lastStored w.log .accum = some bytes → bytes.length ≤ 491672760 := by
  have hne : (∃ row, some row ∈ column) ↔ column.reduceOption ≠ [] := by
    simp only [← List.reduceOption_mem_iff]
    exact ⟨fun ⟨_, hrow⟩ => List.ne_nil_of_mem hrow, List.exists_mem_of_ne_nil _⟩
  rw [hne]
  by_cases hnull : column.reduceOption = []
  · exact iff_of_false (not_finalReads_of_null S palloc junk query hnull) fun h => h.1 hnull
  have hrun' := hrun
  rw [aggregate_eq] at hrun'
  have hsettled := (wp_ok (run_settled S palloc junk query column.reduceOption) hrun').1 hnull
  obtain ⟨bytes, hlast, hload⟩ := hsettled.accum
  have hsize : w.state.size = 491673816 := hsettled.size_eq
  have hbytes : (∀ x, lastStored w.log .accum = some x → x.length ≤ 491672760) ↔
      bytes.length ≤ 491672760 := by
    rw [hlast]
    simp only [Option.some.injEq, forall_eq']
  rw [hbytes, and_iff_right hnull]
  constructor
  · intro hfinal
    have hin := (final_inside_iff w).1 (hfinal.inside w hrun)
    obtain ⟨x, hx, hreturn⟩ := hfinal.returned hnull w hrun
    rw [hlast] at hx
    cases hx
    have hdata : fields.load w.state.data .accum = bytes := Except.ok.inj hreturn
    rw [hdata] at hin
    omega
  · intro hlen
    have hdata := hload (by omega)
    refine ⟨fun v hv => ?_, fun _ v hv => ?_⟩
    · rw [hrun] at hv
      cases hv
      rw [final_inside_iff, hdata]
      omega
    · rw [hrun] at hv
      cases hv
      exact ⟨bytes, hlast, congrArg Except.ok hdata⟩

theorem finalReads_one_value : FinalReads (exactSeal demoParams 0) (fun _ => 0) (fun _ => 0)
    (queryMessage (exactSeal demoParams 0) demoParams () rampQuery) [none, some [0x61], none] := by
  obtain ⟨w, hrun⟩ := demo_run_returns 0 (fun _ => 0) (fun _ => 0) (by decide)
    (List.cons_ne_nil [0x61] []) (by decide) (by decide)
  have horderly := run_orderly (exactSeal demoParams 0) (fun _ => 0) (fun _ => 0)
    (queryMessage (exactSeal demoParams 0) demoParams () rampQuery) [[0x61]]
  rw [hrun] at horderly
  refine (finalReads_iff (w := w) ?_).2 ⟨⟨[0x61], by decide⟩, fun bytes hlast => ?_⟩
  · rw [aggregate_eq]
    exact hrun
  · rw [horderly.length_eq (length_saveCiphertext 0 _) (by simp) (store_mem_of_lastStored hlast)]
    norm_num [demoParams]

theorem not_finalReads_empty_table : ¬FinalReads (exactSeal demoParams 0) (fun _ => 0)
    (fun _ => 0) (queryMessage (exactSeal demoParams 0) demoParams () rampQuery) [] :=
  not_finalReads_of_null _ _ _ _ rfl

end Final

end MuchPIR
