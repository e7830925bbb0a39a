import MuchPIR.AggregateLaw

namespace MuchPIR
open Prog Server
set_option autoImplicit true

variable {S : Seal} {palloc junk : Memory} {query : Bytes}

def Accesses (log : List Event) (jj : Nat) : Prop :=
  ∃ bytes, .store (.dim1 jj) bytes ∈ log ∨ .load (.dim1 jj) bytes ∈ log

theorem not_accesses_nil (jj : Nat) : ¬Accesses [] jj := by
  rintro ⟨bytes, h | h⟩
  · exact absurd h List.not_mem_nil
  · exact absurd h List.not_mem_nil

theorem Trace.accesses (h : Trace S source loaded stored products evs)
    (ha : Accesses (log ++ evs) jj) : Accesses log jj ∨ stored (.dim1 jj) ∨ loaded (.dim1 jj) := by
  obtain ⟨bytes, ha | ha⟩ := ha
  · rcases List.mem_append.1 ha with ha | ha
    · exact Or.inl ⟨bytes, Or.inl ha⟩
    · exact Or.inr (Or.inl ((h.stores _).1 ⟨bytes, ha⟩))
  · rcases List.mem_append.1 ha with ha | ha
    · exact Or.inl ⟨bytes, Or.inr ha⟩
    · exact Or.inr (Or.inr (h.loads _ _ ha).1)

/-- The state after `k` calls that returned, none of them past the end of `dim1`. -/
structure Counted (k : Nat) (w : World) : Prop where
  rowIdx_eq : w.state.rowIdx = k
  accesses : ∀ jj, Accesses w.log jj → jj < polyDegree

theorem counted_start (junk : Memory) : Counted 0 (startWorld junk) :=
  ⟨rowIdx_initCond junk, fun jj h => absurd h (not_accesses_nil jj)⟩

/-- The first call counts to one and stores all of `dim1`. When it throws, it has accessed only
elements that it stored. -/
theorem firstTransition_counted (S : Seal) (palloc junk : Memory) (query row : Bytes) :
    wp (pirSelectInternal S palloc query row)
      (fun _ w' => Counted 1 w' ∧ ∀ jj < polyDegree, ∃ bytes, .store (.dim1 jj) bytes ∈ w'.log)
      (fun _ w' => ∀ jj, Accesses w'.log jj →
        jj < polyDegree ∧ ∃ bytes, .store (.dim1 jj) bytes ∈ w'.log) (startWorld junk) := by
  apply wp_mono (firstTransition_trace S palloc query row _ (rowIdx_initCond junk))
  · intro _ w' hpost
    obtain ⟨plain, evs, -, hlog, htrace, hstate⟩ := hpost
    have hstored (jj : Nat) (hjj : jj < polyDegree) :
        ∃ bytes, .store (.dim1 jj) bytes ∈ w'.log := by
      rw [hlog]
      exact (htrace.stores (.dim1 jj)).2 hjj
    refine ⟨⟨?_, fun jj ha => ?_⟩, hstored⟩
    · rw [hstate]
      exact Bytea.rowIdx_setRowIdx _ (by norm_num)
    · rw [hlog] at ha
      rcases htrace.accesses ha with ha | ha | ha
      · exact absurd ha (not_accesses_nil jj)
      · exact ha
      · exact ha.elim
  · rintro e w' ⟨-, evs, stored, products, hlog, htrace, hs⟩ jj ha
    rw [hlog] at ha ⊢
    rcases htrace.accesses ha with ha | ha | ha
    · exact absurd ha (not_accesses_nil jj)
    · exact ⟨hs _ ha, (htrace.stores _).2 ha⟩
    · exact ha.elim

theorem laterTransition_rowIdx (hpos : 0 < w.state.rowIdx) (h : w.state.rowIdx ≤ dbSize) :
    wp (pirSelectInternal S palloc query row)
      (fun _ w' => w'.state.rowIdx = w.state.rowIdx + 1) (fun _ _ => True) w := by
  apply wp_mono (laterTransition_trace S palloc query row w hpos h) _ (fun _ _ _ => trivial)
  intro _ w' hpost
  obtain ⟨plain, evs, bytes, -, -, -, -, hstate⟩ := hpost
  rw [hstate]
  apply Bytea.rowIdx_setRowIdx
  have hdb : dbSize = 4096 := rfl
  omega

theorem laterTransition_counted (hpos : 0 < k) (hk : k < dbSize) (h : Counted k w) :
    wp (pirSelectInternal S palloc query row) (fun _ w' => Counted (k + 1) w')
      (fun _ w' => ∀ jj, Accesses w'.log jj → jj < polyDegree) w := by
  have hpos' : 0 < w.state.rowIdx := by rw [h.rowIdx_eq]; exact hpos
  have hle : w.state.rowIdx ≤ dbSize := by rw [h.rowIdx_eq]; exact hk.le
  have hloaded (jj : Nat) (hl : LoadedAt w.state.rowIdx (.dim1 jj)) : jj < polyDegree := by
    rw [h.rowIdx_eq] at hl
    rcases hl with hl | hl | hl
    · cases hl
    · cases hl
      exact hk
    · cases hl
  apply wp_mono (wp_and (laterTransition_trace S palloc query row w hpos' hle)
    (laterTransition_rowIdx hpos' hle))
  · intro _ w' hpost
    obtain ⟨⟨plain, evs, bytes, -, hsaved, hlog, htrace, -⟩, hrow⟩ := hpost
    refine ⟨by rw [hrow, h.rowIdx_eq], fun jj ha => ?_⟩
    rw [hlog] at ha
    rcases (htrace.store hsaved).accesses ha with ha | (ha | ha) | ha
    · exact h.accesses jj ha
    · exact ha.elim
    · cases ha
    · exact hloaded jj ha
  · rintro e w' ⟨⟨-, evs, stored, products, hlog, htrace, hs⟩, -⟩ jj ha
    rw [hlog] at ha
    rcases htrace.accesses ha with ha | ha | ha
    · exact h.accesses jj ha
    · exact (hs _ ha).elim
    · exact hloaded jj ha

theorem laterTransitions_counted (hpos : 0 < k) (hk : k + rows.length ≤ dbSize)
    (h : Counted k w) :
    wp (transitions S palloc query rows) (fun _ w' => Counted (k + rows.length) w')
      (fun _ w' => ∀ jj, Accesses w'.log jj → jj < polyDegree) w := by
  apply wp_transitions (fun i w' => Counted (k + i) w') _ h
  intro i hi w' h'
  have hlt : k + i < dbSize := by omega
  exact laterTransition_counted (Nat.add_pos_left hpos i) hlt h'

theorem run_counted (hrows : rows.length ≤ dbSize)
    (h : run S palloc junk query rows = (.ok (), w)) : Counted rows.length w := by
  cases rows with
  | nil =>
    cases h
    exact counted_start junk
  | cons row rows =>
    rw [List.length_cons] at hrows
    have hrun : wp (transitions S palloc query (row :: rows))
        (fun _ w' => Counted (1 + rows.length) w') (fun _ _ => True) (startWorld junk) := by
      rw [transitions, wp_bind]
      apply wp_mono (firstTransition_counted S palloc junk query row) _ (fun _ _ _ => trivial)
      intro _ w' hpost
      obtain ⟨h', -⟩ := hpost
      exact wp_mono (laterTransitions_counted one_pos (by omega) h') (fun _ _ h => h)
        fun _ _ _ => trivial
    have hcounted := wp_ok hrun h
    rwa [add_comm] at hcounted

theorem run_accesses (hrows : rows.length ≤ dbSize)
    (ha : Accesses (run S palloc junk query rows).2.log jj) :
    jj < polyDegree ∧
      ∃ bytes, .store (.dim1 jj) bytes ∈ (run S palloc junk query (rows.take 1)).2.log := by
  cases rows with
  | nil => exact absurd ha (not_accesses_nil jj)
  | cons row rows =>
    rw [List.length_cons] at hrows
    have hone : run S palloc junk query [row] =
        pirSelectInternal S palloc query row (startWorld junk) := by
      rw [run, transitions, transitions, bind_pure_unit]
    rw [List.take_succ_cons, List.take_zero, hone]
    have hfirst := firstTransition_counted S palloc junk query row
    rcases hx : pirSelectInternal S palloc query row (startWorld junk) with ⟨e | u, w⟩
    · rw [run, transitions, bind_of_error _ hx] at ha
      exact wp_error hfirst hx jj ha
    · obtain ⟨hcounted, hstored⟩ := wp_ok hfirst hx
      rw [run, transitions, bind_of_ok _ hx] at ha
      have hlt := wp_final (P := fun w' => ∀ jj, Accesses w'.log jj → jj < polyDegree)
        (wp_mono (laterTransitions_counted one_pos (by omega) hcounted)
          (fun _ _ h => h.accesses) fun _ _ h => h) jj ha
      exact ⟨hlt, hstored jj hlt⟩

structure RowCap (S : Seal) (palloc junk : Memory) (query : Bytes) (rows : List Bytes) : Prop where
  counts : ∀ k ≤ rows.length, ∀ w, run S palloc junk query (rows.take k) = (.ok (), w) →
    w.state.rowIdx = min k dbSize
  /-- Accesses to `dim1` are in range, and to elements that the first call stored. -/
  inRange : ∀ k ≤ rows.length, ∀ jj, Accesses (run S palloc junk query (rows.take k)).2.log jj →
    jj < polyDegree ∧
      ∃ bytes, .store (.dim1 jj) bytes ∈ (run S palloc junk query (rows.take 1)).2.log
  capped : ∀ k, dbSize ≤ k → k < rows.length → ∀ w,
    run S palloc junk query (rows.take k) = (.ok (), w) →
    ∃ w', run S palloc junk query (rows.take (k + 1)) = (.ok (), w') ∧ w'.state = w.state
  /-- The result of the aggregate is that of the first `DB_SIZE` rows. -/
  rest_ignored : ((transitions S palloc query rows >>= fun _ => pirFinal) (startWorld junk)).1 =
    ((transitions S palloc query (rows.take dbSize) >>= fun _ => pirFinal) (startWorld junk)).1

theorem run_append_of_error (h : run S palloc junk query rows = (.error e, w))
    (rows' : List Bytes) : run S palloc junk query (rows ++ rows') = (.error e, w) := by
  rw [run, transitions_append, bind_of_error _ h]

theorem take_eq_append_of_le (rows : List Bytes) (h : m ≤ k) :
    rows.take k = rows.take m ++ (rows.drop m).take (k - m) := by
  rw [← List.take_add, Nat.add_sub_cancel' h]

theorem rowCap_of_le (h : rows.length ≤ dbSize) : RowCap S palloc junk query rows where
  counts k hk w hrun := by
    have hlen : (rows.take k).length = k := List.length_take_of_le hk
    have hc := run_counted (by omega) hrun
    rw [hc.rowIdx_eq, hlen, Nat.min_eq_left (by omega)]
  inRange k hk jj ha := by
    have hlen : (rows.take k).length = k := List.length_take_of_le hk
    obtain ⟨hlt, hstored⟩ := run_accesses (by omega) ha
    refine ⟨hlt, ?_⟩
    rw [List.take_take] at hstored
    cases k with
    | zero => exact absurd ha (not_accesses_nil jj)
    | succ k => rwa [Nat.min_eq_left (by omega)] at hstored
  capped k hk hk' := by omega
  rest_ignored := by rw [List.take_of_length_le h]

theorem rowCap_of_throws (h : run S palloc junk query (rows.take dbSize) = (.error e, w)) :
    RowCap S palloc junk query rows := by
  have hbeyond (k : Nat) (hk : dbSize ≤ k) :
      run S palloc junk query (rows.take k) = (.error e, w) := by
    rw [take_eq_append_of_le rows hk]
    exact run_append_of_error h _
  have hcap : RowCap S palloc junk query (rows.take dbSize) :=
    rowCap_of_le (List.length_take_le _ _)
  have htake (k : Nat) (hk : k ≤ dbSize) : (rows.take dbSize).take k = rows.take k := by
    rw [List.take_take, Nat.min_eq_left hk]
  have hone : (rows.take dbSize).take 1 = rows.take 1 := htake 1 (by rw [dbSize]; omega)
  refine ⟨?_, ?_, ?_, ?_⟩
  · intro k hk w' hrun
    rcases Nat.lt_or_ge k dbSize with hlt | hge
    · refine hcap.counts k ?_ w' ?_
      · rw [List.length_take]
        omega
      · rwa [htake k hlt.le]
    · rw [hbeyond k hge] at hrun
      cases hrun
  · intro k hk jj ha
    have hmin : run S palloc junk query (rows.take k) =
        run S palloc junk query ((rows.take dbSize).take (min k dbSize)) := by
      rcases Nat.lt_or_ge k dbSize with hlt | hge
      · rw [Nat.min_eq_left hlt.le, htake k hlt.le]
      · rw [Nat.min_eq_right hge, htake _ le_rfl, hbeyond k hge, h]
    rw [hmin] at ha
    have hin := hcap.inRange (min k dbSize) (by rw [List.length_take]; omega) jj ha
    rwa [hone] at hin
  · intro k hk _ w' hrun
    rw [hbeyond k hk] at hrun
    cases hrun
  · have hall := hbeyond (max dbSize rows.length) (le_max_left _ _)
    rw [List.take_of_length_le (le_max_right _ _)] at hall
    rw [bind_of_error _ h, bind_of_error _ hall]

/-- The guard lets one row too many through. -/
theorem not_rowCap (hrows : dbSize < rows.length)
    (h : run S palloc junk query (rows.take dbSize) = (.ok (), w)) :
    ¬RowCap S palloc junk query rows := by
  intro hcap
  obtain ⟨w', hrun, hstate⟩ := hcap.capped dbSize le_rfl hrows w h
  have hlen : (rows.take dbSize).length = dbSize := List.length_take_of_le hrows.le
  have hidx : w.state.rowIdx = dbSize := by
    rw [(run_counted hlen.le h).rowIdx_eq, hlen]
  rw [run, List.take_succ_eq_append_getElem hrows, transitions_snoc, bind_of_ok _ h] at hrun
  have hstep := wp_ok (laterTransition_rowIdx (by rw [hidx, dbSize]; omega) hidx.le) hrun
  rw [hstate, hidx] at hstep
  omega

/-- The cap holds of exactly the runs that make no call after `DB_SIZE` rows. -/
theorem rowCap_iff (S : Seal) (palloc junk : Memory) (query : Bytes) (rows : List Bytes) :
    RowCap S palloc junk query rows ↔
      rows.length ≤ dbSize ∨ ∃ e, (run S palloc junk query (rows.take dbSize)).1 = .error e := by
  constructor
  · intro hcap
    by_contra hno
    push Not at hno
    obtain ⟨hlen, hok⟩ := hno
    rcases hrun : run S palloc junk query (rows.take dbSize) with ⟨e | u, w⟩
    · exact hok e (by rw [hrun])
    · exact not_rowCap hlen hrun hcap
  · rintro (hlen | ⟨e, he⟩)
    · exact rowCap_of_le hlen
    · apply rowCap_of_throws (e := e) (w := (run S palloc junk query (rows.take dbSize)).2)
      rw [← he]

theorem not_rowCap_4097 :
    ¬RowCap (exactSeal demoParams 0) (fun _ => 0) (fun _ => 0)
      (queryMessage (exactSeal demoParams 0) demoParams () rampQuery)
      (List.replicate 4097 [0x61]) := by
  have htake : (List.replicate 4097 ([0x61] : Bytes)).take dbSize =
      List.replicate 4096 [0x61] := by
    rw [List.take_replicate]
    rfl
  have hlen : (List.replicate 4096 ([0x61] : Bytes)).length = 4096 := List.length_replicate
  have hne : List.replicate 4096 ([0x61] : Bytes) ≠ [] :=
    List.length_pos_iff.1 (by rw [hlen]; omega)
  have hall : ∀ row ∈ List.replicate 4096 ([0x61] : Bytes),
      Accepted demoParams.polyModulusDegree row := by
    intro row hrow
    rw [List.eq_of_mem_replicate hrow]
    decide
  obtain ⟨w, hrun⟩ := demo_run_returns 0 (fun _ => 0) (fun _ => 0) (by decide) hne hlen.le hall
  rw [← htake] at hrun
  exact not_rowCap (by rw [List.length_replicate, dbSize]; omega) hrun

end MuchPIR
