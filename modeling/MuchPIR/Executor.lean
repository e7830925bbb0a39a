import MuchPIR.StateRecord

namespace MuchPIR
open Prog Server
set_option autoImplicit true

variable {S : Seal} {palloc behind junk : Memory} {query : Bytes} {rows : List Bytes}

/-- `datumCopy`. It copies as many bytes as `VARSIZE` says; what lies behind the copy is not part of
the value. -/
def Bytea.copy (b : Bytea) (behind : Memory) : Bytea :=
  { b with data := fun a => if a < b.size then b.data a else behind a }

def World.copied (w : World) (behind : Memory) : World := { w with state := w.state.copy behind }

/-- The calls of an aggregate as the executor makes them. The first call returns a new value, which
the executor copies. A later call returns the value that it was given, which stays where it is. -/
def execute (S : Seal) (palloc behind : Memory) (query : Bytes) : List Bytes → Server Unit
  | [] => pure ()
  | row :: rows => do
    pirSelectInternal S palloc query row
    modify fun w => w.copied behind
    transitions S palloc query rows

/-- `SELECT pir_select( query, column )`. The transition function is STRICT, so it is not called for a
NULL. -/
def executeSelect (S : Seal) (palloc behind : Memory) (query : Bytes)
    (column : List (Option Bytes)) : Server Bytes := do
  execute S palloc behind query column.reduceOption
  pirFinal

/-- Every copy fits its member, and leaves free the eight bytes of the last one that the datum does
not have. -/
structure FitsDatum (log : List Event) : Prop where
  fits : Fits log
  last : ∀ bytes, .store (.dim1 4095) bytes ∈ log → bytes.length ≤ 119992

theorem FitsDatum.of_prefix (h : FitsDatum log') (hp : log <+: log') : FitsDatum log :=
  ⟨h.fits.of_prefix hp, fun bytes hmem => h.last bytes (hp.subset hmem)⟩

theorem FitsDatum.end_le (h : FitsDatum log) (hf : f.InStruct) (hmem : .store f bytes ∈ log) :
    f.offset + 8 + bytes.length ≤ stateTSize := by
  by_cases hlast : f = .dim1 4095
  · subst hlast
    exact (store_inside_iff _ _).1 ((store_last_inside_iff bytes).2 (h.last bytes hmem))
  · have hend := hf.end_le_size hlast
    have hlen := h.fits f bytes hmem
    omega

namespace Bytea

variable {b : Bytea}

theorem copy_data (h : a < b.size) : (b.copy behind).data a = b.data a := if_pos h

theorem rowIdx_copy (h : 8 ≤ b.size) : (b.copy behind).rowIdx = b.rowIdx := by
  unfold rowIdx
  exact Memory.readU64_congr fun a _ ha => copy_data (by omega)

/-- A record that lies in the bytes of the value survives the copy. -/
theorem load_copy (h : f.offset + 8 + (fields.load b.data f).length ≤ b.size) :
    fields.load (b.copy behind).data f = fields.load b.data f := by
  have hoffset : fields.offset f = f.offset := rfl
  have hlen := fields.length_load b.data f
  have hword : (b.copy behind).data.readU64 (fields.offset f) =
      b.data.readU64 (fields.offset f) :=
    Memory.readU64_congr fun a _ ha => copy_data (by omega)
  rw [Layout.load, Layout.load, hword]
  exact Memory.read_congr fun a _ ha => copy_data (by omega)

end Bytea

theorem Sound.copy (hw : Sound w) (hlog : Orderly S w.log) (hsize : w.state.size = stateTSize)
    (hfit : FitsDatum w.log) (behind : Memory) :
    Sound (w.copied behind) where
  rowIdx_pos := by
    have hcopy : (w.state.copy behind).rowIdx = w.state.rowIdx :=
      Bytea.rowIdx_copy (by rw [hsize, stateTSize]; omega)
    exact hcopy ▸ hw.rowIdx_pos
  stored := hw.stored
  represents _ f bytes hlast := by
    have hmem := store_mem_of_lastStored hlast
    obtain ⟨hload, hlen⟩ := hw.represents hfit.fits f bytes hlast
    refine ⟨?_, hlen⟩
    have hend := hfit.end_le (hlog.inStruct f bytes hmem) hmem
    rw [← hload, ← hsize] at hend
    exact (Bytea.load_copy hend).trans hload

theorem transitions_sound (hw : Sound w) (hlog : Orderly S w.log) :
    wp (transitions S palloc query rows) (fun _ w' => Sound w' ∧ Orderly S w'.log)
      (fun _ w' => Orderly S w'.log) w :=
  wp_transitions (fun _ w => Sound w ∧ Orderly S w.log)
    (fun _ _ _ h => laterTransition_sound h.1 h.2) ⟨hw, hlog⟩

/-- What a first call that returned leaves, with the copy of its value. -/
structure Started (S : Seal) (behind : Memory) (w : World) : Prop where
  sound : FitsDatum w.log → Sound (w.copied behind)
  orderly : Orderly S w.log
  stored : ∀ f, f.InStruct → ∃ bytes, .store f bytes ∈ w.log
  size_eq : w.state.size = stateTSize
  rowIdx_eq : (w.copied behind).state.rowIdx = 1

theorem started (behind : Memory)
    (h : pirSelectInternal S palloc query row (startWorld junk) = (.ok (), w)) :
    Started S behind w := by
  obtain ⟨hw, hlog⟩ := wp_ok (firstTransition_sound S palloc junk query row) h
  obtain ⟨hsettled, -⟩ := wp_ok (firstTransition_settled S palloc junk query row) h
  obtain ⟨hcounted, -⟩ := wp_ok (firstTransition_counted S palloc junk query row) h
  refine ⟨fun hfit => hw.copy hlog hsettled.size_eq hfit behind, hlog, hw.stored,
    hsettled.size_eq, ?_⟩
  have hcopy : (w.copied behind).state.rowIdx = w.state.rowIdx :=
    Bytea.rowIdx_copy (by rw [hsettled.size_eq, stateTSize]; omega)
  rw [hcopy, hcounted.rowIdx_eq]

theorem execute_eq (row : Bytes) (rows : List Bytes) :
    execute S palloc behind query (row :: rows) (startWorld junk) =
      match pirSelectInternal S palloc query row (startWorld junk) with
      | (.error e, w) => (.error e, w)
      | (.ok _, w) => transitions S palloc query rows (w.copied behind) := by
  rw [execute]
  rcases hfirst : pirSelectInternal S palloc query row (startWorld junk) with ⟨e | _, w⟩
  · exact bind_of_error _ hfirst
  · rw [bind_of_ok _ hfirst]
    rfl

theorem execute_log_first {w : World}
    (h : pirSelectInternal S palloc query row (startWorld junk) = (.ok (), w)) :
    w.log <+: (execute S palloc behind query (row :: rows) (startWorld junk)).2.log := by
  rw [execute_eq, h]
  exact wp_final (P := fun w' : World => w.log <+: w'.log)
    (transitions_log S palloc query rows (w.copied behind))

theorem execute_sound
    (hfit : FitsDatum (execute S palloc behind query rows (startWorld junk)).2.log) :
    wp (execute S palloc behind query rows)
      (fun _ w' => (rows ≠ [] → Sound w') ∧ Orderly S w'.log) (fun _ w' => Orderly S w'.log)
      (startWorld junk) := by
  cases rows with
  | nil => exact ⟨fun h => absurd rfl h, run_orderly S palloc junk query []⟩
  | cons row rows =>
    unfold wp
    rw [execute_eq]
    rcases hfirst : pirSelectInternal S palloc query row (startWorld junk) with ⟨e | _, w⟩
    · have horderly : Orderly S w.log :=
        wp_error (firstTransition_sound S palloc junk query row) hfirst
      exact horderly
    · have hstarted := started behind hfirst
      have hprefix : FitsDatum w.log := hfit.of_prefix (execute_log_first hfirst)
      exact wp_mono (transitions_sound (hstarted.sound hprefix) hstarted.orderly)
        (fun _ _ h => ⟨fun _ => h.1, h.2⟩) fun _ _ h => h

end MuchPIR
