import Mathlib.Data.List.ReduceOption
import MuchPIR.Encoding
import MuchPIR.Expand
import MuchPIR.State

namespace MuchPIR
open Prog Server
set_option autoImplicit true

section Server

variable (S : Seal)

def encodeRow (row : Bytes) : SealM Plaintext := do
  let hexPoly ← lift (stringToHexPoly row)
  SealM.call (.plaintext hexPoly) (S.plaintext hexPoly)

def loadQuery (query : Bytes) : SealM (Params × S.GaloisKeys × S.Ciphertext) := do
  let (params, stream) ← SealM.call .loadParams (S.loadParams query)
  let (glKeys, stream) ← SealM.call .loadGaloisKeys (S.loadGaloisKeys params stream)
  let (dimension1, _) ← SealM.call .loadCiphertext (S.loadCiphertext params stream)
  return (params, glKeys, dimension1)

/-- Save the expanded query. `expandQuery` leaves no entry unassigned when `m` is `DB_SIZE`. -/
def storeExpanded (hcubeDim1 : List (Option S.Ciphertext)) (nstate : Bytea) : Server Bytea :=
  forRange 0 hcubeDim1.length (fun jj nstate => do
    let c ← lift (entry hcubeDim1 jj)
    storeInto nstate (.dim1 jj) (S.saveCiphertext S.comprModeDefault c)) nstate

/-- The first call sets up a new state in memory that `palloc` does not clear. -/
def firstCall (palloc : Memory) (query row : Bytes) : Server Bytea := do
  let (params, glKeys, dimension1) ← runSeal (loadQuery S query)
  let hcubeDim1 ← runSeal (expandQuery S params glKeys dimension1 dbSize)
  let newState : Bytea := ⟨stateTSize, palloc⟩
  let nstate ← storeInto newState .param (S.saveParams S.comprModeDefault params)
  let nstate ← storeExpanded S hcubeDim1 nstate
  let plain ← runSeal (encodeRow S row)
  let first ← lift (entry hcubeDim1 0)
  let mulResult ← runSeal (SealM.call (.multiplyPlain (.dim1 0) plain)
    (S.multiplyPlain params first plain))
  let nstate ← storeInto nstate .accum (S.saveCiphertext S.comprModeDefault mulResult)
  return nstate.setRowIdx 1

def laterCall (row : Bytes) : Server Unit := do
  let w ← get
  let k := w.state.rowIdx
  if dbSize < k then return ()
  else do
    let s1 ← loadField .param
    let (params, _) ← runSeal (SealM.call .loadParams (S.loadParams s1))
    let s2 ← loadField (.dim1 k)
    let (hcube1, _) ← runSeal (SealM.call .loadCiphertext (S.loadCiphertext params s2))
    let s3 ← loadField .accum
    let (accum, _) ← runSeal (SealM.call .loadCiphertext (S.loadCiphertext params s3))
    let plain ← runSeal (encodeRow S row)
    let result ← runSeal (SealM.call (.multiplyPlain (.dim1 k) plain)
      (S.multiplyPlain params hcube1 plain))
    let result ← runSeal (SealM.call .add (S.add params result accum))
    storeField .accum (S.saveCiphertext S.comprModeDefault result)
    modify fun w => { w with state := w.state.setRowIdx (w.state.rowIdx + 1) }

/-- The transition function. Its result becomes the transition value. -/
def pirSelectInternal (palloc : Memory) (query row : Bytes) : Server Unit := do
  let w ← get
  if w.state.rowIdx = 0 then do
    let newState ← firstCall S palloc query row
    modify fun w => { w with state := newState }
  else laterCall S row

def pirFinal : Server Bytes := loadField .accum

def transitions (palloc : Memory) (query : Bytes) : List Bytes → Server Unit
  | [] => pure ()
  | row :: rows => do
    pirSelectInternal S palloc query row
    transitions palloc query rows

/-- The transitions of an aggregate over a column. The transition function is STRICT, so it is not
called for a NULL. -/
def aggregate (palloc : Memory) (query : Bytes) : List (Option Bytes) → Server Unit
  | [] => pure ()
  | none :: column => aggregate palloc query column
  | some row :: column => do
    pirSelectInternal S palloc query row
    aggregate palloc query column

/-- `SELECT pir_select( query, column )`. -/
def pirSelect (palloc : Memory) (query : Bytes) (column : List (Option Bytes)) : Server Bytes := do
  aggregate S palloc query column
  pirFinal

theorem aggregate_eq (palloc : Memory) (query : Bytes) (column : List (Option Bytes)) :
    aggregate S palloc query column = transitions S palloc query column.reduceOption := by
  induction column with
  | nil => rfl
  | cons value column ih =>
    cases value with
    | none => rw [aggregate, List.reduceOption_cons_of_none, ih]
    | some row => rw [aggregate, List.reduceOption_cons_of_some, transitions, ih]

theorem transitions_append (palloc : Memory) (query : Bytes) (rows rows' : List Bytes) :
    transitions S palloc query (rows ++ rows') =
      transitions S palloc query rows >>= fun _ => transitions S palloc query rows' := by
  induction rows with
  | nil => rfl
  | cons row rows ih =>
    rw [List.cons_append, transitions, transitions, ih, bind_assoc]

theorem transitions_snoc (palloc : Memory) (query : Bytes) (rows : List Bytes) (row : Bytes) :
    transitions S palloc query (rows ++ [row]) =
      transitions S palloc query rows >>= fun _ => pirSelectInternal S palloc query row := by
  rw [transitions_append, transitions, transitions, bind_pure_unit]

/-- The invariant rule of the transition calls. -/
theorem wp_transitions {S : Seal} {palloc : Memory} {query : Bytes} {rows : List Bytes}
    {E : Fault → World → Prop} (inv : Nat → World → Prop)
    (hstep : ∀ i (hi : i < rows.length) w, inv i w →
      wp (pirSelectInternal S palloc query rows[i]) (fun _ w' => inv (i + 1) w') E w)
    (h : inv 0 w) :
    wp (transitions S palloc query rows) (fun _ w' => inv rows.length w') E w := by
  induction rows generalizing inv w with
  | nil => exact h
  | cons row rows ih =>
    rw [transitions, wp_bind]
    apply wp_mono (hstep 0 (Nat.succ_pos _) w h) _ (fun _ _ h => h)
    intro _ w' h'
    exact ih (fun i => inv (i + 1)) (fun i hi w => hstep (i + 1) (Nat.succ_lt_succ hi) w) h'

def startWorld (junk : Memory) : World := ⟨initCond junk, []⟩

theorem rowIdx_startWorld (junk : Memory) : (startWorld junk).state.rowIdx = 0 :=
  rowIdx_initCond junk

theorem wp_run {S : Seal} {palloc junk : Memory} {query : Bytes} {rows : List Bytes}
    {E : Fault → World → Prop} (inv : World → Prop)
    (hfirst : ∀ row, wp (pirSelectInternal S palloc query row) (fun _ w' => inv w') E
      (startWorld junk))
    (hlater : ∀ row w, inv w → wp (pirSelectInternal S palloc query row) (fun _ w' => inv w') E w)
    (hne : rows ≠ []) :
    wp (transitions S palloc query rows) (fun _ w' => inv w') E (startWorld junk) := by
  obtain ⟨row, rest, rfl⟩ := List.exists_cons_of_ne_nil hne
  rw [transitions, wp_bind]
  apply wp_mono (hfirst row) _ (fun _ _ h => h)
  intro _ w h
  exact wp_transitions (fun _ => inv) (fun i hi w h => hlater rest[i] w h) h

def run (palloc junk : Memory) (query : Bytes) (rows : List Bytes) : Except Fault Unit × World :=
  transitions S palloc query rows (startWorld junk)

end Server

end MuchPIR
