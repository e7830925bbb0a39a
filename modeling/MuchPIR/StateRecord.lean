import MuchPIR.Datum
import MuchPIR.RowCap

namespace MuchPIR
open Prog Server
set_option autoImplicit true

variable {S : Seal} {palloc junk : Memory} {query : Bytes} {rows : List Bytes}

instance : DecidablePred Field.InStruct
  | .param => .isTrue trivial
  | .accum => .isTrue trivial
  | .dim1 jj => inferInstanceAs (Decidable (jj < polyDegree))

/-- `state_t` as a record. A member has no bytes yet, or as many as its array can take. -/
structure StateRecord where
  rowIdx : Nat
  member : Field → Option Bytes
  fits : ∀ f bytes, member f = some bytes → bytes.length ≤ f.capacity

namespace StateRecord

def new : StateRecord := ⟨0, fun _ => none, fun _ _ h => nomatch h⟩

def store (r : StateRecord) (f : Field) (bytes : Bytes) (h : bytes.length ≤ f.capacity) :
    StateRecord where
  rowIdx := r.rowIdx
  member := Function.update r.member f (some bytes)
  fits g x hg := by
    by_cases hgf : g = f
    · subst hgf
      rw [Function.update_self] at hg
      cases hg
      exact h
    · rw [Function.update_of_ne hgf] at hg
      exact r.fits g x hg

/-- An event on the record. What is outside of the record, too long, or not what the member has, is
no step. -/
def step (r : StateRecord) : Event → Option StateRecord
  | .sealOp _ => some r
  | .store f bytes =>
    if h : f.InStruct ∧ bytes.length ≤ f.capacity then some (r.store f bytes h.2) else none
  | .load f bytes => if f.InStruct ∧ r.member f = some bytes then some r else none

def replay (r : StateRecord) (log : List Event) : Option StateRecord := log.foldlM step r

theorem replay_snoc (h : replay r log = some r') (e : Event) :
    replay r (log ++ [e]) = r'.step e := by
  have hfold : log.foldlM step r = some r' := h
  rw [replay, List.foldlM_append, hfold]
  change Option.bind (r'.step e) some = _
  exact Option.bind_fun_some _

theorem replay_new (hfit : Fits log) (hcoherent : Coherent log)
    (hstores : ∀ f bytes, .store f bytes ∈ log → f.InStruct)
    (hloads : ∀ f bytes, .load f bytes ∈ log → f.InStruct) :
    ∃ r, new.replay log = some r ∧ r.member = lastStored log := by
  induction log using List.reverseRecOn with
  | nil => exact ⟨new, rfl, rfl⟩
  | append_singleton log e ih =>
    have hbefore : Coherent log := fun before f bytes after hf heq =>
      hcoherent before f bytes (after ++ [e]) hf (by rw [heq, List.append_assoc]; rfl)
    obtain ⟨r, hr, hmember⟩ := ih (fits_append.1 hfit).1 hbefore
      (fun f bytes h => hstores f bytes (List.mem_append_left _ h))
      (fun f bytes h => hloads f bytes (List.mem_append_left _ h))
    have hlast : e ∈ log ++ [e] := List.mem_append_right _ (List.mem_singleton.2 rfl)
    rw [replay_snoc hr, lastStored_append, List.foldl_cons, List.foldl_nil, ← hmember]
    cases e with
    | sealOp op => exact ⟨r, rfl, rfl⟩
    | store f bytes =>
      exact ⟨_, dif_pos ⟨hstores f bytes hlast, hfit f bytes hlast⟩, rfl⟩
    | load f bytes =>
      have hf := hloads f bytes hlast
      refine ⟨r, if_pos ⟨hf, ?_⟩, rfl⟩
      rw [hmember]
      exact hcoherent log f bytes [] hf rfl

end StateRecord

structure Bytea.Holds (b : Bytea) (r : StateRecord) : Prop where
  size_eq : b.size = stateTSize
  rowIdx_eq : b.rowIdx = r.rowIdx
  load_eq : ∀ f, f.InStruct → r.member f = some (fields.load b.data f)

structure RefinesRecord (S : Seal) (palloc junk : Memory) (query : Bytes) (rows : List Bytes) :
    Prop where
  /-- Accesses to members stay in the bytes that the first call allocates. -/
  inside : ∀ e ∈ (run S palloc junk query rows).2.log, e.Inside stateTSize
  counter_inside : ∀ k ≤ rows.length, ∀ w, run S palloc junk query (rows.take k) = (.ok (), w) →
    (MachineOp.span 0 8 w.state.size).Defined
  /-- A copy into a member changes neither the counter nor another member. -/
  frame : ∀ f bytes, .store f bytes ∈ (run S palloc junk query rows).2.log → ∀ m a,
    (a < 8 ∨ ∃ g, g ≠ f ∧ g.Covers a) → fields.store m f bytes a = m a
  counter_frame : ∀ (b : Bytea) v (f : Field) a, f.Covers a → (b.setRowIdx v).data a = b.data a
  /-- The run is a run of the record, also one that throws. -/
  steps : ∃ r, StateRecord.new.replay (run S palloc junk query rows).2.log = some r
  holds : ∀ k, 0 < k → k ≤ rows.length → ∀ w,
    run S palloc junk query (rows.take k) = (.ok (), w) →
    ∃ r, StateRecord.new.replay w.log = some r ∧ w.state.Holds { r with rowIdx := k }

theorem Field.InStruct.end_le_size {f : Field} (hf : f.InStruct) (hlast : f ≠ .dim1 4095) :
    f.offset + 8 + f.capacity ≤ stateTSize := by
  have hend := hf.end_le
  rcases Field.offset_disjoint hlast with hbefore | hbehind
  · simp only [offset, capacity, stateTSize, parameterBytes, cipherSize2Bytes, polyDegree]
      at hbefore hend ⊢
    omega
  · simp only [offset, capacity, stateTSize, parameterBytes, cipherSize2Bytes, polyDegree]
      at hbehind hend ⊢
    omega

/-- Eight bytes of the last element are behind the end. -/
theorem store_last_inside_iff (bytes : Bytes) :
    (Event.store (.dim1 4095) bytes).Inside stateTSize ↔ bytes.length ≤ 119992 := by
  rw [store_inside_iff]
  simp only [Field.offset, stateTSize, parameterBytes, cipherSize2Bytes, polyDegree]
  omega

theorem store_frame (m : Memory) {f : Field} (hfit : bytes.length ≤ f.capacity)
    (ha : a < 8 ∨ ∃ g, g ≠ f ∧ g.Covers a) : fields.store m f bytes a = m a := by
  have hoffset : fields.offset f = f.offset := rfl
  have hle := f.le_offset
  apply fields.store_outside
  rcases ha with ha | ⟨g, hg, hlo, hhi⟩
  · omega
  · rcases Field.offset_disjoint hg with hdis | hdis
    · omega
    · omega

theorem setRowIdx_frame (b : Bytea) (v : Nat) {f : Field} (ha : f.Covers a) :
    (b.setRowIdx v).data a = b.data a := by
  have hle := f.le_offset
  apply Memory.write_outside
  rw [length_leBytes]
  exact Or.inr (hle.trans ha.1)

section Run

variable (hrows : rows.length ≤ dbSize) (hfit : Fits (run S palloc junk query rows).2.log)

include hrows

theorem run_loads (hload : .load f bytes ∈ (run S palloc junk query rows).2.log) : f.InStruct := by
  cases f with
  | param => trivial
  | accum => trivial
  | dim1 jj => exact (run_accesses hrows ⟨bytes, Or.inr hload⟩).1

include hfit

theorem run_replay : ∃ r, StateRecord.new.replay (run S palloc junk query rows).2.log = some r ∧
    r.member = lastStored (run S palloc junk query rows).2.log :=
  StateRecord.replay_new hfit ((run_orderly S palloc junk query rows).coherent hfit)
    (run_orderly S palloc junk query rows).inStruct fun _ _ => run_loads hrows

theorem run_inside (hlast : ∀ bytes,
      .store (.dim1 4095) bytes ∈ (run S palloc junk query rows).2.log → bytes.length ≤ 119992)
    (hmem : e ∈ (run S palloc junk query rows).2.log) : e.Inside stateTSize := by
  have horderly := run_orderly S palloc junk query rows
  have hstore {f : Field} {bytes : Bytes}
      (h : .store f bytes ∈ (run S palloc junk query rows).2.log) :
      (Event.store f bytes).Inside stateTSize := by
    by_cases hf : f = .dim1 4095
    · subst hf
      exact (store_last_inside_iff bytes).2 (hlast bytes h)
    · have hend := (horderly.inStruct f bytes h).end_le_size hf
      have hlen := hfit f bytes h
      rw [store_inside_iff]
      omega
  cases e with
  | sealOp op => exact fun _ h => absurd h List.not_mem_nil
  | store f bytes => exact hstore hmem
  | load f bytes =>
    -- what a load sees has been stored, and is as long
    obtain ⟨before, after, hlog⟩ := List.append_of_mem hmem
    have hload := horderly.coherent hfit before f bytes after (run_loads hrows hmem) hlog
    have hbefore := store_mem_of_lastStored hload
    exact hstore (by rw [hlog]; exact List.mem_append_left _ hbefore)

end Run

theorem run_holds (hrows : rows.length ≤ dbSize)
    (hfit : Fits (run S palloc junk query rows).2.log) (hne : rows ≠ [])
    (hrun : run S palloc junk query rows = (.ok (), w)) :
    ∃ r, StateRecord.new.replay w.log = some r ∧
      w.state.Holds { r with rowIdx := rows.length } := by
  obtain ⟨r, hr, hmember⟩ := run_replay hrows hfit
  have hsettled := (wp_ok (run_settled S palloc junk query rows) hrun).1 hne
  have hsound := (wp_ok (run_sound S palloc junk query rows) hrun).1 (List.length_pos_iff.2 hne)
  rw [hrun] at hr hmember hfit
  refine ⟨r, hr, hsettled.size_eq, (run_counted hrows hrun).rowIdx_eq, fun f hf => ?_⟩
  have hload := hsound.load_eq hfit hf
  rwa [← hmember] at hload

theorem not_refinesRecord (hcipher : ∀ c, (S.saveCiphertext S.comprModeDefault c).length = len)
    (hlen : 119992 < len) (hne : rows ≠ []) (hrun : run S palloc junk query rows = (.ok (), w)) :
    ¬RefinesRecord S palloc junk query rows := by
  intro hrefines
  have hsound := (wp_ok (run_sound S palloc junk query rows) hrun).1 (List.length_pos_iff.2 hne)
  have hinside := hrefines.inside
  have horderly := run_orderly S palloc junk query rows
  rw [hrun] at hinside horderly
  obtain ⟨bytes, hmem⟩ := hsound.stored (.dim1 4095) (by decide)
  have hle := (store_last_inside_iff bytes).1 (hinside _ hmem)
  rw [horderly.length_eq hcipher (by simp) hmem] at hle
  omega

/-- The bytes refine the record in exactly the runs that leave eight bytes of the last element of
`dim1` free. -/
theorem refinesRecord_iff (hrows : rows.length ≤ 4096)
    (hfit : Fits (run S palloc junk query rows).2.log) :
    RefinesRecord S palloc junk query rows ↔ ∀ bytes,
      .store (.dim1 4095) bytes ∈ (run S palloc junk query rows).2.log →
        bytes.length ≤ 119992 := by
  constructor
  · intro h bytes hmem
    exact (store_last_inside_iff bytes).1 (h.inside _ hmem)
  · intro hlast
    have htake (k : Nat) (hk : k ≤ rows.length) : (rows.take k).length = k :=
      List.length_take_of_le hk
    refine ⟨fun e => run_inside hrows hfit hlast, fun k hk w hrun => ?_,
      fun f bytes hmem m a ha => store_frame m (hfit f bytes hmem) ha,
      fun b v f a ha => setRowIdx_frame b v ha, ?_, fun k hpos hk w hrun => ?_⟩
    · cases k with
      | zero =>
        cases hrun
        exact (by decide : 0 + 8 ≤ 15)
      | succ k =>
        have hne : rows.take (k + 1) ≠ [] := List.length_pos_iff.1 (by rw [htake _ hk]; omega)
        have hsize := ((wp_ok (run_settled S palloc junk query _) hrun).1 hne).size_eq
        rw [MachineOp.Defined, hsize, stateTSize]
        omega
    · obtain ⟨r, hr, -⟩ := run_replay hrows hfit
      exact ⟨r, hr⟩
    · have hne : rows.take k ≠ [] := List.length_pos_iff.1 (by rw [htake k hk]; exact hpos)
      have hprefix := hfit.of_prefix (run_take_log hrun)
      have hholds := run_holds (by rw [htake k hk]; exact hk.trans hrows)
        (by rw [hrun]; exact hprefix) hne hrun
      rwa [htake k hk] at hholds

theorem demo_run_fits (hpad : 8 * demoParams.polyModulusDegree + pad ≤ cipherSize2Bytes) :
    Fits (run (exactSeal demoParams pad) palloc junk
      (queryMessage (exactSeal demoParams pad) demoParams () rampQuery) rows).2.log := by
  obtain ⟨s1, s2, s3, hload, -⟩ := unloads_queryMessage (demo_ideal pad).toLawful rampQuery
  exact fits_of_query hload (exactSeal_fits pad hpad (by decide))

theorem refinesRecord_two_names : RefinesRecord (exactSeal demoParams 0) (fun _ => 0) (fun _ => 0)
    (queryMessage (exactSeal demoParams 0) demoParams () rampQuery) twoNames := by
  refine (refinesRecord_iff (by decide) (demo_run_fits (by decide))).2 fun bytes hmem => ?_
  rw [(run_orderly _ _ _ _ _).length_eq (length_saveCiphertext 0 _) (by simp) hmem]
  norm_num [demoParams]

theorem not_refinesRecord_full :
    Fits (run (exactSeal demoParams 87232) (fun _ => 0) (fun _ => 0)
      (queryMessage (exactSeal demoParams 87232) demoParams () rampQuery) [[0x61]]).2.log ∧
    ¬RefinesRecord (exactSeal demoParams 87232) (fun _ => 0) (fun _ => 0)
      (queryMessage (exactSeal demoParams 87232) demoParams () rampQuery) [[0x61]] := by
  refine ⟨demo_run_fits (by decide), ?_⟩
  obtain ⟨w, hrun⟩ := demo_run_returns 87232 (fun _ => 0) (fun _ => 0) (by decide)
    (List.cons_ne_nil [0x61] []) (by decide) (by decide)
  exact not_refinesRecord (length_saveCiphertext 87232 _) (by norm_num [demoParams])
    (List.cons_ne_nil _ _) hrun

end MuchPIR
