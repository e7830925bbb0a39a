import MuchPIR.SavedObjects

namespace MuchPIR
open Prog Server
set_option autoImplicit true

variable {S : Seal} {palloc behind junk : Memory} {query : Bytes} {rows : List Bytes}
  {params : Params} {v : List (Option S.Ciphertext)}

/-- A run whose first `k` calls have returned with `a` as the accumulator, and whose copies fit. -/
structure Holding (S : Seal) (behind : Memory) (query : Bytes) (params : Params)
    (v : List (Option S.Ciphertext)) (k : Nat) (a : S.Ciphertext) (w : World) : Prop where
  opens : Opens S query params v
  sum : WeightedSum S behind params v k a
  sourced : Sourced S behind query w.log
  fits : FitsDatum w.log
  sound : Sound w
  orderly : Orderly S w.log
  rowIdx_eq : w.state.rowIdx = k
  accum : lastStored w.log .accum = some (S.saveCiphertext S.comprModeDefault a)
  beyond : ∀ b, stateTSize ≤ b → w.state.data b = behind b

namespace Holding

variable {k : Nat} {a : S.Ciphertext} {w : World}

theorem load (h : Holding S behind query params v k a w) (hf : f.InStruct) :
    lastStored w.log f = some (fields.load w.state.data f) := h.sound.load_eq h.fits.fits hf

theorem load_accum (h : Holding S behind query params v k a w) :
    fields.load w.state.data .accum = S.saveCiphertext S.comprModeDefault a :=
  Option.some_inj.1 ((h.load (f := .accum) trivial).symm.trans h.accum)

theorem load_param (h : Holding S behind query params v k a w) :
    fields.load w.state.data .param = S.saveParams S.comprModeDefault params := by
  obtain ⟨params', v', hopen, hsaved⟩ :=
    h.sourced _ _ (store_mem_of_lastStored (h.load (f := .param) trivial))
  obtain ⟨rfl, rfl⟩ := h.opens.unique hopen
  exact hsaved

theorem load_dim1 (h : Holding S behind query params v k a w) (hle : k ≤ polyDegree) :
    EntryBytes S behind v k (fields.load w.state.data (.dim1 k)) := by
  rcases Nat.lt_or_eq_of_le hle with hlt | rfl
  · obtain ⟨params', v', hopen, c, hc, hsaved⟩ :=
      h.sourced _ _ (store_mem_of_lastStored (h.load (f := .dim1 k) hlt))
    obtain ⟨rfl, rfl⟩ := h.opens.unique hopen
    rw [hsaved]
    exact .saved hc
  · have hbehind : fields.load w.state.data (.dim1 polyDegree) =
        fields.load behind (.dim1 polyDegree) := by
      apply Layout.load_congr
      intro b hb
      exact h.beyond b (le_trans (by decide : stateTSize ≤ Field.offset (.dim1 polyDegree)) hb)
    rw [hbehind]
    exact .stray

end Holding

section LaterCall

variable {a : S.Ciphertext}

theorem laterCall_next (row : Bytes) (h : Holding S behind query params v k a w)
    (hle : k ≤ dbSize) :
    wp (laterCall S row)
      (fun _ w' => Sourced S behind query w'.log ∧ ∃ d log, NextSum S behind params v k a row d ∧
        w'.log = log ++ [.store .accum (S.saveCiphertext S.comprModeDefault d)])
      (fun _ w' => Sourced S behind query w'.log) w := by
  have hstop {P : Fault → Prop} : ∀ (e : Fault) (w' : World),
      P e ∧ Copying S behind query w.state (fun _ _ => False) w' → Sourced S behind query w'.log :=
    fun _ _ h => h.2.sourced
  have hkeep : ∀ (e : Fault) (w' : World), Sourced S behind query w'.log →
      Sourced S behind query w'.log := fun _ _ h => h
  have hstart : Copying S behind query w.state (fun _ _ => False) w :=
    ⟨rfl, h.sourced, fun _ _ h => h.elim⟩
  rw [laterCall, wp_bind, wp_get, h.rowIdx_eq, if_neg (Nat.not_lt.2 hle)]
  simp only [wp_bind]
  apply wp_mono (hstart.loadField .param) _ hkeep
  rintro s1 w1 ⟨hs1, hw⟩
  rw [h.load_param] at hs1
  apply wp_mono (hw.call _) _ hstop
  rintro ⟨params', stream⟩ w2 ⟨hload, hw⟩
  apply wp_mono (hw.loadField (.dim1 k)) _ hkeep
  rintro s2 w3 ⟨hs2, hw⟩
  have hbytes := h.load_dim1 hle
  rw [← hs2] at hbytes
  apply wp_mono (hw.call _) _ hstop
  rintro ⟨hcube1, stream⟩ w4 ⟨hcube, hw⟩
  apply wp_mono (hw.loadField .accum) _ hkeep
  rintro s3 w5 ⟨hs3, hw⟩
  rw [h.load_accum] at hs3
  apply wp_mono (hw.call _) _ hstop
  rintro ⟨accum, stream⟩ w6 ⟨haccum, hw⟩
  apply wp_mono (hw.runSeal _) _ hstop
  rintro plain w7 ⟨hencode, hw⟩
  apply wp_mono (hw.call _) _ hstop
  rintro product w8 ⟨hmul, hw⟩
  apply wp_mono (hw.call _) _ hstop
  rintro result w9 ⟨hadd, hw⟩
  rw [hs1] at hload
  rw [hs3] at haccum
  have hsum : NextSum S behind params v k a row result :=
    ⟨params', s2, hcube1, accum, plain, product, ⟨_, hload⟩, hbytes, ⟨_, hcube⟩, ⟨_, haccum⟩,
      encodedAs_of_value hencode, hmul, hadd⟩
  simp only [wp_storeField, wp_modify]
  exact ⟨hw.sourced.store (f := .accum) ⟨params, v, h.opens, k + 1, result, .next h.sum hsum, rfl⟩,
    result, w9.log, hsum, rfl⟩

end LaterCall

section Transitions

theorem wp_later {Q : Unit → World → Prop} {E : Fault → World → Prop} (S : Seal) (palloc : Memory)
    (query row : Bytes) (hpos : 0 < w.state.rowIdx) :
    wp (pirSelectInternal S palloc query row) Q E w ↔ wp (laterCall S row) Q E w := by
  rw [pirSelectInternal, wp_bind, wp_get, if_neg (Nat.pos_iff_ne_zero.1 hpos)]

theorem laterTransition_beyond (hpos : 0 < w.state.rowIdx) (hle : w.state.rowIdx ≤ dbSize) :
    wp (pirSelectInternal S palloc query row)
      (fun _ w' => FitsDatum w'.log → ∀ b, stateTSize ≤ b → w'.state.data b = w.state.data b)
      (fun _ _ => True) w := by
  apply wp_mono (laterTransition_trace S palloc query row w hpos hle) _ fun _ _ _ => trivial
  rintro _ w' ⟨plain, evs, bytes, -, -, hlog, -, hstate⟩ hfit b hb
  have hend : Field.accum.offset + 8 + bytes.length ≤ stateTSize := by
    apply hfit.end_le (f := .accum) trivial
    rw [hlog]
    simp
  have hcounter : 8 ≤ stateTSize := by decide
  rw [hstate]
  refine Eq.trans (Memory.write_outside ?_) (fields.store_outside ?_)
  · rw [length_leBytes]
    omega
  · exact Or.inr (hend.trans hb)

theorem laterTransition_holding (palloc : Memory) (row : Bytes)
    (h : Holding S behind query params v k a w) (hle : k ≤ dbSize) :
    wp (pirSelectInternal S palloc query row)
      (fun _ w' => Sourced S behind query w'.log ∧ (FitsDatum w'.log →
        ∃ d, NextSum S behind params v k a row d ∧ Holding S behind query params v (k + 1) d w'))
      (fun _ w' => Sourced S behind query w'.log) w := by
  have hpos := h.sound.rowIdx_pos
  have hle' : w.state.rowIdx ≤ dbSize := h.rowIdx_eq.symm ▸ hle
  have hnext := (wp_later S palloc query row hpos).2 (laterCall_next row h hle)
  refine wp_mono (wp_and (wp_and hnext (laterTransition_sound h.sound h.orderly))
    (wp_and (laterTransition_rowIdx hpos hle') (laterTransition_beyond hpos hle'))) ?_
    fun _ _ h => h.1.1
  rintro _ w' ⟨⟨⟨hsourced, d, log, hsum, hlog⟩, hsound, horderly⟩, hrow, hbeyond⟩
  refine ⟨hsourced, fun hfit => ⟨d, hsum, h.opens, .next h.sum hsum, hsourced, hfit, hsound,
    horderly, ?_, ?_, fun b hb => ?_⟩⟩
  · rw [hrow, h.rowIdx_eq]
  · rw [hlog, lastStored_append, List.foldl_cons, List.foldl_nil, recordEvent,
      Function.update_self]
  · rw [hbeyond hfit b hb, h.beyond b hb]

theorem firstTransition_opened (S : Seal) (palloc behind junk : Memory) (query row : Bytes) :
    wp (pirSelectInternal S palloc query row)
      (fun _ w' => Opened S behind query w'.log ∧ ∃ params v d log, Opens S query params v ∧
        FirstSum S params v row d ∧
        w'.log = log ++ [.store .accum (S.saveCiphertext S.comprModeDefault d)])
      (fun _ w' => Opened S behind query w'.log ∧
        ∀ params v d, Opens S query params v → ¬FirstSum S params v row d) (startWorld junk) := by
  have hstart : Copying S behind query (startWorld junk).state (fun _ _ => False)
      (startWorld junk) := ⟨rfl, fun _ _ h => absurd h List.not_mem_nil, fun _ _ h => h.elim⟩
  rw [pirSelectInternal, wp_bind, wp_get, if_pos (rowIdx_startWorld junk), wp_bind]
  exact firstCall_opened row hstart

theorem firstTransition_holding
    (hrun : pirSelectInternal S palloc query row (startWorld junk) = (.ok (), w))
    (hfit : FitsDatum w.log) (behind : Memory) :
    ∃ params v d, FirstSum S params v row d ∧
      Holding S behind query params v 1 d (w.copied behind) := by
  obtain ⟨hopened, params, v, d, log, hopen, hsum, hlog⟩ :=
    wp_ok (firstTransition_opened S palloc behind junk query row) hrun
  have hstarted := started behind hrun
  refine ⟨params, v, d, hsum, hopen, .first hsum, hopened.sourced, hfit, hstarted.sound hfit,
    hstarted.orderly, hstarted.rowIdx_eq, ?_, fun b hb => if_neg ?_⟩
  · change lastStored w.log .accum = _
    rw [hlog, lastStored_append, List.foldl_cons, List.foldl_nil, recordEvent,
      Function.update_self]
  · rw [hstarted.size_eq]
    exact Nat.not_lt.2 hb

end Transitions

section Enough

theorem execute_sourced (hsaves : SavesFit S behind query) :
    Sourced S behind query (execute S palloc behind query rows (startWorld junk)).2.log := by
  cases rows with
  | nil => exact fun _ _ h => absurd h List.not_mem_nil
  | cons row rows =>
    have hfirst := firstTransition_opened S palloc behind junk query row
    rw [execute_eq]
    rcases hx : pirSelectInternal S palloc query row (startWorld junk) with ⟨e | _, w⟩
    · exact (wp_error hfirst hx).1.sourced
    · have hsourced := (wp_ok hfirst hx).1.sourced
      obtain ⟨params, v, d, -, hw⟩ := firstTransition_holding hx (hsourced.fitsDatum hsaves) behind
      have hrest : wp (transitions S palloc query rows)
          (fun _ w' => ∃ k a, Holding S behind query params v k a w')
          (fun _ w' => Sourced S behind query w'.log) (w.copied behind) := by
        refine wp_transitions (fun _ w' => ∃ k a, Holding S behind query params v k a w') ?_
          ⟨1, d, hw⟩
        rintro i hi w' ⟨k, a, h⟩
        rcases Nat.lt_or_ge dbSize k with hcap | hle
        · have hcapped := transition_capped S palloc query rows[i] w' (h.rowIdx_eq.symm ▸ hcap)
          exact (wp_of_ok hcapped).2 ⟨k, a, h⟩
        · apply wp_mono (laterTransition_holding palloc rows[i] h hle) _ fun _ _ h => h
          rintro _ w'' ⟨hsourced, hnext⟩
          obtain ⟨d', -, h'⟩ := hnext (hsourced.fitsDatum hsaves)
          exact ⟨k + 1, d', h'⟩
      exact wp_final (P := fun w : World => Sourced S behind query w.log)
        (wp_mono hrest (fun _ _ ⟨_, _, h⟩ => h.sourced) fun _ _ h => h)

theorem SavesFit.fitsDatum (hsaves : SavesFit S behind query) :
    FitsDatum (execute S palloc behind query rows (startWorld junk)).2.log :=
  (execute_sourced hsaves).fitsDatum hsaves

end Enough

structure SlotsHold (S : Seal) (palloc behind junk : Memory) (query : Bytes) (rows : List Bytes) :
    Prop where
  /-- A copy goes to a member of `state_t`, stays in it and in the datum, and meets no other
  member. -/
  inside : ∀ f bytes,
    .store f bytes ∈ (execute S palloc behind query rows (startWorld junk)).2.log → f.InStruct ∧
    ∀ a, f.Copied bytes a → f.Covers a ∧ a < stateTSize ∧ ∀ g, g ≠ f → ¬g.Covers a
  readsBack : Coherent (execute S palloc behind query rows (startWorld junk)).2.log
  /-- After each call that returns, every member reads back what was last stored. -/
  held : ∀ k, 0 < k → k ≤ rows.length → ∀ w,
    execute S palloc behind query (rows.take k) (startWorld junk) = (.ok (), w) →
    ∀ f, f.InStruct → lastStored w.log f = some (fields.load w.state.data f)
  /-- A call that throws does not touch the state. -/
  atomic : ∀ k (hk : k < rows.length) w e w',
    execute S palloc behind query (rows.take k) (startWorld junk) = (.ok (), w) →
    pirSelectInternal S palloc query rows[k] w = (.error e, w') → w'.state = w.state

section Necessary

/-- A copy of a run in which the slots hold is no longer than its member, or than the datum. -/
theorem SlotsHold.store_le (h : SlotsHold S palloc behind junk query rows)
    (hmem : .store f bytes ∈ (execute S palloc behind query rows (startWorld junk)).2.log) :
    bytes.length ≤ f.capacity ∧ bytes.length ≤ stateTSize - (f.offset + 8) := by
  obtain ⟨-, hin⟩ := h.inside f bytes hmem
  rcases Nat.eq_zero_or_pos bytes.length with hzero | hpos
  · omega
  -- the last byte that is copied
  obtain ⟨⟨-, hcap⟩, hsize, -⟩ := hin (f.offset + 8 + bytes.length - 1) ⟨by omega, by omega⟩
  omega

theorem le_of_last (h : n ≤ stateTSize - (Field.offset (.dim1 4095) + 8)) : n ≤ 119992 := by
  simp only [Field.offset, stateTSize, parameterBytes, cipherSize2Bytes, polyDegree] at h
  omega

theorem SlotsHold.fitsDatum (h : SlotsHold S palloc behind junk query rows) :
    FitsDatum (execute S palloc behind query rows (startWorld junk)).2.log :=
  ⟨fun _ _ hmem => (h.store_le hmem).1, fun _ hmem => le_of_last (h.store_le hmem).2⟩

end Necessary

/-- It is enough that SEAL saves every ciphertext in the bytes of the last entry. -/
theorem savesFit_of_saves
    (hparam : ∀ params rest, S.loadParams query = .ok (params, rest) →
      (S.saveParams S.comprModeDefault params).length ≤ parameterBytes)
    (hcipher : ∀ c, (S.saveCiphertext S.comprModeDefault c).length ≤ 119992) :
    SavesFit S behind query := by
  have hle : 119992 ≤ cipherSize2Bytes := by decide
  refine ⟨fun params v hopen => ?_, fun _ _ _ _ c _ => (hcipher c).trans hle,
    fun _ _ _ c _ => hcipher c, fun _ _ _ _ c _ => (hcipher c).trans hle⟩
  obtain ⟨rest, hload⟩ := hopen.loadParams
  exact hparam params rest hload

section Demo

theorem demo_savesFit (behind : Memory)
    (hpad : 8 * demoParams.polyModulusDegree + pad ≤ 119992) :
    SavesFit (exactSeal demoParams pad) behind
      (queryMessage (exactSeal demoParams pad) demoParams () rampQuery) := by
  apply savesFit_of_saves
  · intro params rest hload
    obtain ⟨s1, s2, s3, hload', -⟩ := unloads_queryMessage (demo_ideal pad).toLawful rampQuery
    rw [hload'] at hload
    cases hload
    exact (exactSeal_fits pad (hpad.trans (by decide)) (by decide)).param
  · intro c
    exact (length_saveCiphertext pad _ c).le.trans hpad

end Demo

end MuchPIR
