import MuchPIR.AggregateLaw

namespace MuchPIR
open Prog Server
set_option autoImplicit true

variable {S : Seal} {palloc junk : Memory} {query : Bytes}

/-- Every load of a member of `state_t` returns what was last stored there. -/
def Coherent (log : List Event) : Prop :=
  ∀ before f bytes after, f.InStruct → log = before ++ .load f bytes :: after →
    lastStored before f = some bytes

theorem coherent_append (h : Coherent log)
    (hevs : ∀ before f bytes after, f.InStruct → evs = before ++ .load f bytes :: after →
      lastStored (log ++ before) f = some bytes) : Coherent (log ++ evs) := by
  intro before f bytes after hf heq
  rcases List.append_eq_append_iff.1 heq with ⟨l, rfl, hl⟩ | ⟨l, rfl, hl⟩
  · exact hevs l f bytes after hf hl
  · cases l with
    | nil =>
      have hb := hevs [] f bytes after hf hl.symm
      rwa [List.append_nil, List.append_nil] at hb
    | cons e l =>
      rw [List.cons_append] at hl
      cases hl
      exact h before f bytes l hf rfl

theorem coherent_of_no_loads (h : ∀ f bytes, .load f bytes ∉ evs) : Coherent evs := by
  rintro before f bytes after - rfl
  exact absurd (List.mem_append_right before List.mem_cons_self) (h f bytes)

theorem lastStored_of_no_stores (log : List Event) (h : ∀ f bytes, .store f bytes ∉ evs) :
    lastStored (log ++ evs) = lastStored log := by
  rw [lastStored_append]
  generalize lastStored log = r
  induction evs generalizing r with
  | nil => rfl
  | cons e evs ih =>
    rw [List.foldl_cons, ih fun f bytes he => h f bytes (List.mem_cons_of_mem _ he)]
    cases e with
    | store f bytes => exact absurd List.mem_cons_self (h f bytes)
    | sealOp op => rfl
    | load f bytes => rfl

theorem fits_append : Fits (log ++ evs) ↔ Fits log ∧ Fits evs := by
  simp only [Fits, List.mem_append, or_imp, forall_and]

theorem Fits.of_prefix (h : Fits log') (hp : log <+: log') : Fits log := by
  obtain ⟨evs, rfl⟩ := hp
  exact (fits_append.1 h).1

/-- A state from the first call on. While the copies fit, the members hold what was stored. -/
structure Sound (w : World) : Prop where
  rowIdx_pos : 0 < w.state.rowIdx
  stored : ∀ f, f.InStruct → ∃ bytes, .store f bytes ∈ w.log
  represents : Fits w.log → fields.Represents w.state.data (lastStored w.log)

theorem Sound.load_eq (h : Sound w) (hfit : Fits w.log) (hf : f.InStruct) :
    lastStored w.log f = some (fields.load w.state.data f) := by
  obtain ⟨bytes, hstore⟩ := h.stored f hf
  obtain ⟨bytes', hlast⟩ := exists_lastStored hstore
  rw [hlast, (h.represents hfit f bytes' hlast).1]

structure Orderly (S : Seal) (log : List Event) : Prop where
  inStruct : ∀ f bytes, .store f bytes ∈ log → f.InStruct
  saved : ∀ f bytes, .store f bytes ∈ log → Saved S f bytes
  coherent : Fits log → Coherent log

theorem Orderly.loads (h : Orderly S w.log) (hw : Sound w)
    (htrace : Trace S w.state loaded stored products evs) (hs : ∀ f, ¬stored f) :
    Orderly S (w.log ++ evs) where
  inStruct f bytes hmem := by
    rcases List.mem_append.1 hmem with hmem | hmem
    · exact h.inStruct f bytes hmem
    · exact absurd ((htrace.stores f).1 ⟨bytes, hmem⟩) (hs f)
  saved f bytes hmem := by
    rcases List.mem_append.1 hmem with hmem | hmem
    · exact h.saved f bytes hmem
    · exact htrace.saved f bytes hmem
  coherent hfit := by
    have hlog := (fits_append.1 hfit).1
    refine coherent_append (h.coherent hlog) fun before f bytes after hf heq => ?_
    have hno : ∀ g x, .store g x ∉ before := fun g x hmem =>
      hs g ((htrace.stores g).1 ⟨x, by rw [heq]; exact List.mem_append_left _ hmem⟩)
    have hload := (htrace.loads f bytes (by rw [heq]; simp)).2
    rw [lastStored_of_no_stores w.log hno, hw.load_eq hlog hf, hload]

theorem Orderly.store (h : Orderly S log) (hf : f.InStruct) (hbytes : Saved S f bytes) :
    Orderly S (log ++ [.store f bytes]) where
  inStruct g x hmem := by
    rcases List.mem_append.1 hmem with hmem | hmem
    · exact h.inStruct g x hmem
    · cases List.mem_singleton.1 hmem
      exact hf
  saved g x hmem := by
    rcases List.mem_append.1 hmem with hmem | hmem
    · exact h.saved g x hmem
    · cases List.mem_singleton.1 hmem
      exact hbytes
  coherent hfit := by
    refine coherent_append (h.coherent (fits_append.1 hfit).1) fun before g x after _ heq => ?_
    have hmem : Event.load g x ∈ [Event.store f bytes] := by
      rw [heq]
      exact List.mem_append_right before List.mem_cons_self
    cases List.mem_singleton.1 hmem

theorem Saved.ciphertext (h : Saved S f bytes) (hf : f ≠ .param) :
    ∃ c, bytes = S.saveCiphertext S.comprModeDefault c := by
  cases f with
  | param => exact absurd rfl hf
  | accum => exact h
  | dim1 jj => exact h

theorem Orderly.length_eq (h : Orderly S log)
    (hcipher : ∀ c, (S.saveCiphertext S.comprModeDefault c).length = len) (hf : f ≠ .param)
    (hmem : .store f bytes ∈ log) : bytes.length = len := by
  obtain ⟨c, rfl⟩ := (h.saved f bytes hmem).ciphertext hf
  exact hcipher c

theorem Orderly.fits (h : Orderly S log)
    (hparam : ∀ bytes, .store .param bytes ∈ log → bytes.length ≤ parameterBytes)
    (hcipher : ∀ c, (S.saveCiphertext S.comprModeDefault c).length ≤ cipherSize2Bytes) :
    Fits log := by
  intro f bytes hmem
  have hsaved := h.saved f bytes hmem
  cases f with
  | param => exact hparam bytes hmem
  | accum =>
    obtain ⟨c, rfl⟩ := hsaved
    exact hcipher c
  | dim1 jj =>
    obtain ⟨c, rfl⟩ := hsaved
    exact hcipher c

theorem firstTransition_sound (S : Seal) (palloc junk : Memory) (query row : Bytes) :
    wp (pirSelectInternal S palloc query row) (fun _ w' => Sound w' ∧ Orderly S w'.log)
      (fun _ w' => Orderly S w'.log) (startWorld junk) := by
  apply wp_mono (firstTransition_trace S palloc query row _ (rowIdx_initCond junk))
  · intro _ w' hpost
    obtain ⟨plain, evs, -, hlog, htrace, hstate⟩ := hpost
    have hlog : w'.log = evs := hlog
    refine ⟨⟨?_, fun f hf => ?_, fun hfit => ?_⟩,
      ⟨fun f bytes hmem => ?_, fun f bytes hmem => ?_, fun _ => ?_⟩⟩
    · rw [hstate, Bytea.rowIdx_setRowIdx _ (by norm_num)]
      exact one_pos
    · rw [hlog]
      exact (htrace.stores f).2 hf
    · rw [hstate]
      rw [hlog] at hfit ⊢
      exact Bytea.represents_setRowIdx (represents_replay_new _ hfit) 1
    · rw [hlog] at hmem
      exact (htrace.stores f).1 ⟨bytes, hmem⟩
    · rw [hlog] at hmem
      exact htrace.saved f bytes hmem
    · rw [hlog]
      exact coherent_of_no_loads fun f bytes hmem => (htrace.loads f bytes hmem).1
  · intro e w' hpost
    obtain ⟨-, evs, stored, products, hlog, htrace, hs⟩ := hpost
    have hlog : w'.log = evs := hlog
    rw [hlog]
    exact ⟨fun f bytes hmem => hs f ((htrace.stores f).1 ⟨bytes, hmem⟩), htrace.saved,
      fun _ => coherent_of_no_loads fun f bytes hmem => (htrace.loads f bytes hmem).1⟩

theorem laterTransition_sound (hw : Sound w) (hlog : Orderly S w.log) :
    wp (pirSelectInternal S palloc query row) (fun _ w' => Sound w' ∧ Orderly S w'.log)
      (fun _ w' => Orderly S w'.log) w := by
  rcases Nat.lt_or_ge dbSize w.state.rowIdx with hcap | hle
  · exact (wp_of_ok (transition_capped S palloc query row w hcap)).2 ⟨hw, hlog⟩
  apply wp_mono (laterTransition_trace S palloc query row w hw.rowIdx_pos hle)
  · intro _ w' hpost
    obtain ⟨plain, evs, bytes, -, hsaved, hw', htrace, hstate⟩ := hpost
    rw [← List.append_assoc] at hw'
    rw [hw']
    refine ⟨⟨?_, fun f hf => ?_, fun hfit => ?_⟩,
      (hlog.loads hw htrace fun _ => not_false).store (f := .accum) trivial hsaved⟩
    · have hdb : dbSize = 4096 := rfl
      rw [hstate, Bytea.rowIdx_setRowIdx _ (by omega)]
      exact Nat.succ_pos _
    · obtain ⟨x, hx⟩ := hw.stored f hf
      rw [hw']
      exact ⟨x, List.mem_append_left _ (List.mem_append_left _ hx)⟩
    · rw [hw'] at hfit
      obtain ⟨hevs, hstore⟩ := fits_append.1 hfit
      have hno : ∀ g x, .store g x ∉ evs := fun g x hmem => (htrace.stores g).1 ⟨x, hmem⟩
      have hrep := hw.represents (fits_append.1 hevs).1
      rw [← lastStored_of_no_stores w.log hno] at hrep
      rw [hw', hstate]
      exact Bytea.represents_setRowIdx (represents_replay hrep hstore) _
  · intro e w' hpost
    obtain ⟨-, evs, stored, products, hw', htrace, hs⟩ := hpost
    rw [hw']
    exact hlog.loads hw htrace hs

theorem run_sound (S : Seal) (palloc junk : Memory) (query : Bytes) (rows : List Bytes) :
    wp (transitions S palloc query rows)
      (fun _ w' => (0 < rows.length → Sound w') ∧ Orderly S w'.log) (fun _ w' => Orderly S w'.log)
      (startWorld junk) := by
  cases rows with
  | nil =>
    refine ⟨fun h => absurd h (lt_irrefl 0), fun f bytes h => absurd h List.not_mem_nil,
      fun f bytes h => absurd h List.not_mem_nil, fun _ => ?_⟩
    exact coherent_of_no_loads fun f bytes => List.not_mem_nil
  | cons row rows =>
    have hrun := wp_run (fun w => Sound w ∧ Orderly S w.log)
      (firstTransition_sound S palloc junk query)
      (fun _ _ h => laterTransition_sound h.1 h.2) (List.cons_ne_nil row rows)
    exact wp_mono hrun (fun _ _ h => ⟨fun _ => h.1, h.2⟩) fun _ _ h => h

/-- From any state, a call only adds to the log, and one that throws keeps the state. -/
theorem transition_atomic (S : Seal) (palloc : Memory) (query row : Bytes) (w : World) :
    wp (pirSelectInternal S palloc query row) (fun _ w' => w.log <+: w'.log)
      (fun _ w' => w'.state = w.state ∧ w.log <+: w'.log) w := by
  rcases Nat.eq_zero_or_pos w.state.rowIdx with hzero | hpos
  · apply wp_mono (firstTransition_trace S palloc query row w hzero)
    · intro _ w' hpost
      obtain ⟨plain, evs, -, hlog, -⟩ := hpost
      exact ⟨evs, hlog.symm⟩
    · intro e w' hpost
      obtain ⟨hstate, evs, -, -, hlog, -⟩ := hpost
      exact ⟨hstate, evs, hlog.symm⟩
  · rcases Nat.lt_or_ge dbSize w.state.rowIdx with hcap | hle
    · exact (wp_of_ok (transition_capped S palloc query row w hcap)).2 List.prefix_rfl
    · apply wp_mono (laterTransition_trace S palloc query row w hpos hle)
      · intro _ w' hpost
        obtain ⟨plain, evs, bytes, -, -, hlog, -⟩ := hpost
        exact ⟨_, hlog.symm⟩
      · intro e w' hpost
        obtain ⟨hstate, evs, -, -, hlog, -⟩ := hpost
        exact ⟨hstate, evs, hlog.symm⟩

theorem transitions_log (S : Seal) (palloc : Memory) (query : Bytes) (rows : List Bytes)
    (w : World) : wp (transitions S palloc query rows) (fun _ w' => w.log <+: w'.log)
      (fun _ w' => w.log <+: w'.log) w := by
  apply wp_transitions (fun _ w' => w.log <+: w'.log) _ List.prefix_rfl
  intro i hi w' h
  exact wp_mono (transition_atomic S palloc query rows[i] w') (fun _ _ h' => h.trans h')
    fun _ _ h' => h.trans h'.2

def Field.Copied (f : Field) (bytes : Bytes) (a : Nat) : Prop :=
  f.offset + 8 ≤ a ∧ a < f.offset + 8 + bytes.length

def Field.Covers (f : Field) (a : Nat) : Prop := f.offset ≤ a ∧ a < f.offset + 8 + f.capacity

theorem run_orderly (S : Seal) (palloc junk : Memory) (query : Bytes) (rows : List Bytes) :
    Orderly S (run S palloc junk query rows).2.log :=
  wp_final (P := fun w => Orderly S w.log)
    (wp_mono (run_sound S palloc junk query rows) (fun _ _ h => h.2) fun _ _ h => h)

theorem run_take_log (hrun : run S palloc junk query (rows.take k) = (.ok (), w)) :
    w.log <+: (run S palloc junk query rows).2.log := by
  have hlog := wp_final (P := fun w' : World => w.log <+: w'.log)
    (transitions_log S palloc query (rows.drop k) w)
  rw [run, ← List.take_append_drop k rows, transitions_append, bind_of_ok _ hrun]
  exact hlog

end MuchPIR
