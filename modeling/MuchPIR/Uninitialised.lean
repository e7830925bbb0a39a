import MuchPIR.Lib.Agree
import MuchPIR.SlotsHold

namespace MuchPIR
open Prog Server
set_option autoImplicit true

variable {S : Seal} {palloc palloc' behind behind' junk junk' : Memory} {query : Bytes}

/-- Two runs that have made the same calls and accesses since they were in the states `b` and
`b'`. -/
structure Beside (b b' : Bytea) (u u' : World) : Prop where
  log_eq : u.log = u'.log
  state_eq : u.state = b
  state_eq' : u'.state = b'

def SameLog (u u' : World) : Prop := u.log = u'.log

theorem Beside.runSeal (x : SealM α) (h : Beside b b' u u') :
    Agree Eq (Beside b b') (Server.runSeal x u) (Server.runSeal x u') := by
  rw [Server.runSeal, within, within]
  generalize x [] = r
  rcases r with ⟨e | a, ops⟩
  · exact ⟨rfl, by rw [h.log_eq], h.state_eq, h.state_eq'⟩
  · exact ⟨rfl, by rw [h.log_eq], h.state_eq, h.state_eq'⟩

theorem Beside.lift (x : Except Fault α) (h : Beside b b' u u') :
    Agree Eq (Beside b b') ((Prog.lift x : Server α) u) ((Prog.lift x : Server α) u') := by
  cases x with
  | ok a => exact ⟨rfl, h⟩
  | error e => exact ⟨rfl, h⟩

/-- The values that the copies go to may differ. -/
theorem Beside.storeInto (new new' : Bytea) (f : Field) (bytes : Bytes) (h : Beside b b' u u') :
    Agree (fun _ _ => True) (Beside b b') (Server.storeInto new f bytes u)
      (Server.storeInto new' f bytes u') :=
  ⟨trivial, by rw [h.log_eq], h.state_eq, h.state_eq'⟩

theorem Beside.loadField (h : Beside b b' u u') (hf : fields.load b.data f = fields.load b'.data f) :
    Agree Eq (Beside b b') (Server.loadField f u) (Server.loadField f u') := by
  rw [← h.state_eq, ← h.state_eq'] at hf
  exact ⟨hf, by rw [h.log_eq, hf], h.state_eq, h.state_eq'⟩

theorem storeExpanded_agree (v : List (Option S.Ciphertext)) (new new' : Bytea)
    (h : Beside b b' u u') :
    Agree (fun _ _ => True) (Beside b b') (storeExpanded S v new u) (storeExpanded S v new' u') := by
  rw [storeExpanded, storeExpanded]
  apply Agree.forRange _ trivial h
  intro jj s t u u' _ _ _ h
  apply Agree.bind (h.lift (entry v jj)) (fun _ _ h => h)
  rintro c _ u u' rfl h
  exact h.storeInto s t _ _

/-- What memory the new state is set up in does not matter to the first call. -/
theorem firstCall_agree (row : Bytes) (h : Beside b b' u u') :
    Agree (fun new new' => new.rowIdx = new'.rowIdx) (Beside b b')
      (firstCall S palloc query row u) (firstCall S palloc' query row u') := by
  rw [firstCall, firstCall]
  apply Agree.bind (h.runSeal (loadQuery S query)) (fun _ _ h => h)
  rintro ⟨params, glKeys, dimension1⟩ _ u u' rfl h
  apply Agree.bind (h.runSeal (expandQuery S params glKeys dimension1 dbSize)) (fun _ _ h => h)
  rintro hcubeDim1 _ u u' rfl h
  apply Agree.bind (h.storeInto _ _ .param _) (fun _ _ h => h)
  intro new new' u u' _ h
  apply Agree.bind (storeExpanded_agree hcubeDim1 new new' h) (fun _ _ h => h)
  intro new new' u u' _ h
  apply Agree.bind (h.runSeal (encodeRow S row)) (fun _ _ h => h)
  rintro plain _ u u' rfl h
  apply Agree.bind (h.lift (entry hcubeDim1 0)) (fun _ _ h => h)
  rintro first _ u u' rfl h
  apply Agree.bind (h.runSeal _) (fun _ _ h => h)
  rintro mulResult _ u u' rfl h
  apply Agree.bind (h.storeInto new new' .accum _) (fun _ _ h => h)
  intro new new' u u' _ h
  refine Agree.pure ?_ h
  rw [Bytea.rowIdx_setRowIdx _ (by norm_num), Bytea.rowIdx_setRowIdx _ (by norm_num)]

/-- The two states of a later call have the same counter, and the same bytes in the three members
that it loads. -/
structure SameLoads (b b' : Bytea) : Prop where
  rowIdx_eq : b.rowIdx = b'.rowIdx
  param : fields.load b.data .param = fields.load b'.data .param
  accum : fields.load b.data .accum = fields.load b'.data .accum
  dim1 : fields.load b.data (.dim1 b.rowIdx) = fields.load b'.data (.dim1 b.rowIdx)

theorem laterCall_agree (row : Bytes) (h : Beside b b' u u') (hb : SameLoads b b') :
    Agree Eq SameLog (laterCall S row u) (laterCall S row u') := by
  have hlog (v v' : World) (h : Beside b b' v v') : SameLog v v' := h.log_eq
  have hrow : u.state.rowIdx = u'.state.rowIdx := by rw [h.state_eq, h.state_eq', hb.rowIdx_eq]
  have hdim1 := hb.dim1
  rw [← h.state_eq] at hdim1
  rw [laterCall, get_bind, get_bind]
  dsimp only
  rw [← hrow]
  generalize u.state.rowIdx = k at hdim1
  split
  · exact ⟨rfl, h.log_eq⟩
  · rw [h.state_eq] at hdim1
    apply Agree.bind (h.loadField hb.param) hlog
    rintro s1 _ u u' rfl h
    apply Agree.bind (h.runSeal _) hlog
    rintro ⟨params, _⟩ _ u u' rfl h
    apply Agree.bind (h.loadField hdim1) hlog
    rintro s2 _ u u' rfl h
    apply Agree.bind (h.runSeal _) hlog
    rintro ⟨hcube1, _⟩ _ u u' rfl h
    apply Agree.bind (h.loadField hb.accum) hlog
    rintro s3 _ u u' rfl h
    apply Agree.bind (h.runSeal _) hlog
    rintro ⟨accum, _⟩ _ u u' rfl h
    apply Agree.bind (h.runSeal (encodeRow S row)) hlog
    rintro plain _ u u' rfl h
    apply Agree.bind (h.runSeal _) hlog
    rintro product _ u u' rfl h
    apply Agree.bind (h.runSeal _) hlog
    rintro result _ u u' rfl h
    have hstore : u.log ++ [.store .accum (S.saveCiphertext S.comprModeDefault result)] =
        u'.log ++ [.store .accum (S.saveCiphertext S.comprModeDefault result)] := by
      rw [h.log_eq]
    exact ⟨rfl, hstore⟩

theorem transition_agree (row : Bytes) (hlog : w.log = w'.log)
    (hrow : w.state.rowIdx = w'.state.rowIdx)
    (hloads : 0 < w.state.rowIdx → SameLoads w.state w'.state) :
    Agree Eq SameLog (pirSelectInternal S palloc query row w)
      (pirSelectInternal S palloc' query row w') := by
  have h : Beside w.state w'.state w w' := ⟨hlog, rfl, rfl⟩
  rw [pirSelectInternal, pirSelectInternal, get_bind, get_bind, ← hrow]
  split
  · apply Agree.bind (firstCall_agree row h) (fun _ _ h => h.log_eq)
    intro new new' u u' _ h
    exact ⟨rfl, h.log_eq⟩
  · next hpos => exact laterCall_agree row h (hloads (Nat.pos_of_ne_zero hpos))

theorem Sound.same_load (h : Sound w) (h' : Sound w') (hlog : w.log = w'.log) (hfit : Fits w.log)
    (hf : f.InStruct) : fields.load w.state.data f = fields.load w'.state.data f := by
  have hlast := h'.load_eq (hlog ▸ hfit) hf
  rw [← hlog, h.load_eq hfit hf] at hlast
  exact Option.some_inj.1 hlast

theorem transitions_agree (hw : Sound w) (hw' : Sound w') (hlog : w.log = w'.log)
    (horderly : Orderly S w.log) (hrow : w.state.rowIdx = k) (hrow' : w'.state.rowIdx = k)
    (hrows : k + rows.length ≤ dbSize) (hfit : Fits (transitions S palloc query rows w).2.log) :
    Agree Eq SameLog (transitions S palloc query rows w) (transitions S palloc' query rows w') := by
  induction rows generalizing k w w' with
  | nil => exact ⟨rfl, hlog⟩
  | cons row rows ih =>
    rw [List.length_cons] at hrows
    have hpos : 0 < k := hrow ▸ hw.rowIdx_pos
    have hprefix : Fits w.log := hfit.of_prefix (wp_final (P := fun u : World => w.log <+: u.log)
      (transitions_log S palloc query (row :: rows) w))
    have hloads : SameLoads w.state w'.state := by
      refine ⟨hrow.trans hrow'.symm, hw.same_load hw' hlog hprefix (f := .param) trivial,
        hw.same_load hw' hlog hprefix (f := .accum) trivial, ?_⟩
      rw [hrow]
      exact hw.same_load hw' hlog hprefix (f := .dim1 k) (Nat.lt_of_lt_of_le (by omega) hrows)
    have hcall : Agree Eq SameLog (pirSelectInternal S palloc query row w)
        (pirSelectInternal S palloc' query row w') :=
      transition_agree row hlog (hrow.trans hrow'.symm) fun _ => hloads
    rw [transitions] at hfit ⊢
    rw [transitions]
    rcases hrun : pirSelectInternal S palloc query row w with ⟨e | _, u⟩ <;>
      rcases hrun' : pirSelectInternal S palloc' query row w' with ⟨e' | _, u'⟩ <;>
      rw [hrun, hrun'] at hcall
    · rw [bind_of_error _ hrun, bind_of_error _ hrun']
      exact hcall
    · exact hcall.elim
    · exact hcall.elim
    · rw [bind_of_ok _ hrun] at hfit ⊢
      rw [bind_of_ok _ hrun']
      obtain ⟨hu, horderly'⟩ := wp_ok (laterTransition_sound hw horderly) hrun
      obtain ⟨hu', -⟩ := wp_ok (laterTransition_sound hw' (hlog ▸ horderly)) hrun'
      have hcount := wp_ok (laterTransition_rowIdx hw.rowIdx_pos (by rw [hrow]; omega)) hrun
      have hcount' := wp_ok (laterTransition_rowIdx hw'.rowIdx_pos (by rw [hrow']; omega)) hrun'
      exact ih hu hu' hcall.2 horderly' (by rw [hcount, hrow]) (by rw [hcount', hrow'])
        (by omega) hfit

theorem execute_agree (hrows : rows.length ≤ dbSize)
    (hfit : FitsDatum (execute S palloc behind query rows (startWorld junk)).2.log) :
    Agree Eq SameLog (execute S palloc behind query rows (startWorld junk))
      (execute S palloc' behind' query rows (startWorld junk')) := by
  cases rows with
  | nil => exact ⟨rfl, rfl⟩
  | cons row rows =>
    rw [List.length_cons] at hrows
    have hzero := rowIdx_startWorld junk
    have hcall : Agree Eq SameLog (pirSelectInternal S palloc query row (startWorld junk))
        (pirSelectInternal S palloc' query row (startWorld junk')) :=
      transition_agree row rfl (hzero.trans (rowIdx_startWorld junk').symm)
        fun hpos => absurd hzero (Nat.pos_iff_ne_zero.1 hpos)
    rcases hrun : pirSelectInternal S palloc query row (startWorld junk) with ⟨e | _, w⟩ <;>
      rcases hrun' : pirSelectInternal S palloc' query row (startWorld junk') with ⟨e' | _, w'⟩ <;>
      rw [hrun, hrun'] at hcall
    · rw [execute_eq, execute_eq, hrun, hrun']
      exact hcall
    · exact hcall.elim
    · exact hcall.elim
    · have hlog : w.log = w'.log := hcall.2
      have hprefix := hfit.of_prefix (execute_log_first hrun)
      have hstarted := started behind hrun
      have hstarted' := started behind' hrun'
      rw [execute_eq, hrun] at hfit ⊢
      rw [execute_eq, hrun']
      exact transitions_agree (hstarted.sound hprefix) (hstarted'.sound (hlog ▸ hprefix)) hlog
        hstarted.orderly hstarted.rowIdx_eq hstarted'.rowIdx_eq (by omega) hfit.fits

/-- The executor's copy of the value that the first call returns changes nothing. -/
theorem execute_agree_run (hrows : rows.length ≤ dbSize)
    (hfit : FitsDatum (execute S palloc behind query rows (startWorld junk)).2.log) :
    Agree Eq SameLog (execute S palloc behind query rows (startWorld junk))
      (run S palloc junk query rows) := by
  cases rows with
  | nil => exact ⟨rfl, rfl⟩
  | cons row rows =>
    rw [List.length_cons] at hrows
    rcases hrun : pirSelectInternal S palloc query row (startWorld junk) with ⟨e | _, w⟩
    · rw [execute_eq, run, transitions, bind_of_error _ hrun, hrun]
      exact ⟨rfl, rfl⟩
    · have hprefix := hfit.of_prefix (execute_log_first hrun)
      have hstarted := started behind hrun
      have hw := (wp_ok (firstTransition_sound S palloc junk query row) hrun).1
      obtain ⟨hcounted, -⟩ := wp_ok (firstTransition_counted S palloc junk query row) hrun
      rw [execute_eq, hrun] at hfit ⊢
      rw [run, transitions, bind_of_ok _ hrun]
      exact transitions_agree (hstarted.sound hprefix) hw rfl hstarted.orderly hstarted.rowIdx_eq
        hcounted.rowIdx_eq (by omega) hfit.fits

theorem finish_agree {x y : Server Unit} (hrun : Agree Eq SameLog (x u) (y u'))
    (hx : wp x (fun _ w => Sound w) (fun _ _ => True) u)
    (hy : wp y (fun _ w => Sound w) (fun _ _ => True) u') (hfit : Fits (x u).2.log) :
    Agree Eq SameLog ((x >>= fun _ => pirFinal) u) ((y >>= fun _ => pirFinal) u') := by
  rcases hu : x u with ⟨e | _, w⟩ <;> rcases hu' : y u' with ⟨e' | _, w'⟩ <;> rw [hu, hu'] at hrun
  · rw [bind_of_error _ hu, bind_of_error _ hu']
    exact hrun
  · exact hrun.elim
  · exact hrun.elim
  · have hlog : w.log = w'.log := hrun.2
    rw [hu] at hfit
    rw [bind_of_ok _ hu, bind_of_ok _ hu']
    have haccum := (wp_ok hx hu).same_load (wp_ok hy hu') hlog hfit (f := .accum) trivial
    exact (Beside.loadField ⟨hlog, rfl, rfl⟩ haccum).mono fun _ _ h => h.log_eq

theorem execute_ends_sound (hne : rows ≠ [])
    (hfit : FitsDatum (execute S palloc behind query rows (startWorld junk)).2.log) :
    wp (execute S palloc behind query rows) (fun _ w => Sound w) (fun _ _ => True)
      (startWorld junk) :=
  wp_mono (execute_sound hfit) (fun _ _ h => h.1 hne) fun _ _ _ => trivial

/-- Memory that nobody initialised never shows: neither what lies behind the initial state, nor what
`palloc` returns, nor what lies behind the executor's copy changes the result of the aggregate, or
one of its calls and accesses. So the result is the one without a copy. -/
theorem pirSelect_uninitialised (S : Seal) (palloc palloc' behind behind' junk junk' : Memory)
    (query : Bytes) (column : List (Option Bytes)) (hne : column.reduceOption ≠ [])
    (hrows : column.reduceOption.length ≤ dbSize)
    (hfit : FitsDatum (execute S palloc behind query column.reduceOption (startWorld junk)).2.log) :
    (executeSelect S palloc behind query column (startWorld junk)).1 =
        (executeSelect S palloc' behind' query column (startWorld junk')).1 ∧
      (executeSelect S palloc behind query column (startWorld junk)).2.log =
        (executeSelect S palloc' behind' query column (startWorld junk')).2.log ∧
      (executeSelect S palloc behind query column (startWorld junk)).1 =
        (pirSelect S palloc query column (startWorld junk)).1 := by
  have hruns : Agree Eq SameLog
      (execute S palloc behind query column.reduceOption (startWorld junk))
      (execute S palloc' behind' query column.reduceOption (startWorld junk')) :=
    execute_agree hrows hfit
  have hlog : (execute S palloc behind query column.reduceOption (startWorld junk)).2.log =
      (execute S palloc' behind' query column.reduceOption (startWorld junk')).2.log := hruns.world
  have hfit' := hfit
  rw [hlog] at hfit'
  have hsound := execute_ends_sound hne hfit
  have hcopied := finish_agree hruns hsound (execute_ends_sound hne hfit') hfit.fits
  have hplain : wp (transitions S palloc query column.reduceOption) (fun _ w => Sound w)
      (fun _ _ => True) (startWorld junk) :=
    wp_mono (run_sound S palloc junk query _) (fun _ _ h => h.1 (List.length_pos_iff.2 hne))
      fun _ _ _ => trivial
  have hsame := finish_agree (execute_agree_run hrows hfit) hsound hplain hfit.fits
  refine ⟨hcopied.outcome_eq, hcopied.world, ?_⟩
  rw [pirSelect, aggregate_eq]
  exact hsame.outcome_eq

theorem pirSelect_uninitialised_two_names :
    (executeSelect (exactSeal demoParams 0) (fun _ => 0) (fun _ => 0)
      (queryMessage (exactSeal demoParams 0) demoParams () rampQuery) (twoNames.map some)
      (startWorld fun _ => 0)).1 =
    (executeSelect (exactSeal demoParams 0) (fun _ => 0xFF) (fun _ => 0xFF)
      (queryMessage (exactSeal demoParams 0) demoParams () rampQuery) (twoNames.map some)
      (startWorld fun _ => 0xFF)).1 := by
  have hsaves : SavesFit (exactSeal demoParams 0) (fun _ => 0)
      (queryMessage (exactSeal demoParams 0) demoParams () rampQuery) := demo_savesFit _ (by decide)
  obtain ⟨hresult, -⟩ := pirSelect_uninitialised (exactSeal demoParams 0) (fun _ => 0)
    (fun _ => 0xFF) (fun _ => 0) (fun _ => 0xFF) (fun _ => 0) (fun _ => 0xFF)
    (queryMessage (exactSeal demoParams 0) demoParams () rampQuery) (twoNames.map some) (by decide)
    (by decide) hsaves.fitsDatum
  exact hresult

end MuchPIR
