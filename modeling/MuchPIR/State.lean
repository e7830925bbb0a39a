import MuchPIR.Lib.Slots
import MuchPIR.Seal

namespace MuchPIR
open Prog
set_option autoImplicit true

def polyDegree : Nat := 4096
def dbSize : Nat := 4096
def cipherSize2Bytes : Nat := 120000
def parameterBytes : Nat := 1032

/-- `STATE_T_SIZE`. It leaves out the length field of `param_t`. -/
def stateTSize : Nat := 8 + parameterBytes + (8 + cipherSize2Bytes) * (polyDegree + 1)

/-- The length-prefixed members of `state_t`. -/
inductive Field
  | param
  | accum
  | dim1 (jj : Nat)
  deriving DecidableEq

namespace Field

def InStruct : Field → Prop
  | param => True
  | accum => True
  | dim1 jj => jj < polyDegree

def capacity : Field → Nat
  | param => parameterBytes
  | accum => cipherSize2Bytes
  | dim1 _ => cipherSize2Bytes

def offset : Field → Nat
  | param => 8
  | accum => 8 + (8 + parameterBytes)
  | dim1 jj => 8 + (8 + parameterBytes) + (8 + cipherSize2Bytes) * (jj + 1)

theorem offset_disjoint {f g : Field} (h : f ≠ g) :
    f.offset + 8 + f.capacity ≤ g.offset ∨ g.offset + 8 + g.capacity ≤ f.offset := by
  cases f <;> cases g <;>
    simp only [offset, capacity, parameterBytes, cipherSize2Bytes, ne_eq, dim1.injEq,
      not_true_eq_false] at h ⊢ <;> omega

theorem capacity_lt (f : Field) : f.capacity < 2 ^ 64 := by
  cases f <;> simp only [capacity, parameterBytes, cipherSize2Bytes] <;> omega

theorem le_offset (f : Field) : 8 ≤ f.offset := by
  cases f <;> simp only [offset] <;> omega

theorem InStruct.end_le (h : InStruct f) :
    f.offset + 8 + f.capacity ≤ (dim1 polyDegree).offset := by
  cases f with
  | param =>
    simp only [offset, capacity]
    omega
  | accum =>
    simp only [offset, capacity, polyDegree]
    omega
  | dim1 jj =>
    have hlt : jj + 1 ≤ polyDegree := h
    have hmul := Nat.mul_le_mul_left (8 + cipherSize2Bytes) hlt
    simp only [offset, capacity, Nat.mul_succ] at hmul ⊢
    omega

end Field

def fields : Layout Field := ⟨Field.offset, Field.capacity, Field.capacity_lt, Field.offset_disjoint⟩

section Fits

variable {S : Seal} {params : Params}

/-- What SEAL saves under given parameters is at most as long as its member of `state_t`. -/
def FitsSlots (S : Seal) (params : Params) : Prop :=
  (S.saveParams S.comprModeDefault params).length ≤ parameterBytes ∧
    ∀ c, (S.saveCiphertext S.comprModeDefault c).length ≤ cipherSize2Bytes

theorem FitsSlots.param (h : FitsSlots S params) :
    (S.saveParams S.comprModeDefault params).length ≤ Field.param.capacity := h.1

theorem FitsSlots.dim1 (h : FitsSlots S params) (jj : Nat) (c : S.Ciphertext) :
    (S.saveCiphertext S.comprModeDefault c).length ≤ (Field.dim1 jj).capacity := h.2 c

theorem FitsSlots.accum (h : FitsSlots S params) (c : S.Ciphertext) :
    (S.saveCiphertext S.comprModeDefault c).length ≤ Field.accum.capacity := h.2 c

end Fits

/-- A `bytea` value: its length, and the memory from its payload on. -/
structure Bytea where
  size : Nat
  data : Memory

namespace Bytea

def rowIdx (b : Bytea) : Nat := b.data.readU64 0

def setRowIdx (b : Bytea) (v : Nat) : Bytea := { b with data := b.data.writeU64 0 v }

def store (b : Bytea) (f : Field) (bytes : Bytes) : Bytea :=
  { b with data := fields.store b.data f bytes }

@[simp] theorem size_setRowIdx (b : Bytea) (v : Nat) : (b.setRowIdx v).size = b.size := rfl

@[simp] theorem size_store (b : Bytea) (f : Field) (bytes : Bytes) :
    (b.store f bytes).size = b.size := rfl

theorem rowIdx_setRowIdx_mod (b : Bytea) (v : Nat) : (b.setRowIdx v).rowIdx = v % 2 ^ 64 :=
  Memory.readU64_writeU64 _ _ _

theorem rowIdx_setRowIdx (b : Bytea) (h : v < 2 ^ 64) : (b.setRowIdx v).rowIdx = v := by
  rw [rowIdx_setRowIdx_mod, Nat.mod_eq_of_lt h]

/-- Copies run upwards from behind `row_idx`, so none reaches it, however long. -/
@[simp] theorem rowIdx_store (b : Bytea) (f : Field) (bytes : Bytes) :
    (b.store f bytes).rowIdx = b.rowIdx := by
  have h := f.le_offset
  exact Memory.readU64_congr fun a _ _ => fields.store_outside (Or.inl (by
    change a < f.offset
    omega))

theorem represents_store {b : Bytea} (h : fields.Represents b.data r) (f : Field)
    (hfit : bytes.length ≤ f.capacity) :
    fields.Represents (b.store f bytes).data (Function.update r f (some bytes)) :=
  Layout.Represents.store h hfit

/-- Counting touches no member. -/
@[simp] theorem load_setRowIdx (b : Bytea) (v : Nat) (f : Field) :
    fields.load (b.setRowIdx v).data f = fields.load b.data f := by
  have h : 8 ≤ fields.offset f := f.le_offset
  apply Layout.load_congr
  intro a ha
  apply Memory.write_outside
  rw [length_leBytes]
  omega

theorem represents_setRowIdx {b : Bytea} (h : fields.Represents b.data r) (v : Nat) :
    fields.Represents (b.setRowIdx v).data r := by
  intro f bytes hf
  rw [load_setRowIdx]
  exact h f bytes hf

end Bytea

/-- The INITCOND: fifteen zero bytes. What lies behind them is not part of the value. -/
def initCond (junk : Memory) : Bytea := ⟨15, fun a => if a < 15 then 0 else junk a⟩

theorem rowIdx_initCond (junk : Memory) : (initCond junk).rowIdx = 0 := by
  have h : (initCond junk).rowIdx = (⟨15, fun _ => 0⟩ : Bytea).rowIdx :=
    Memory.readU64_congr fun a _ ha => if_pos (by omega : a < 15)
  rw [h]
  decide

-- reading the counter out of bytes is never a step of a proof about calls
attribute [irreducible] Bytea.rowIdx

/-- What a transition call does to the outside: calls into SEAL and accesses to members. -/
inductive Event
  | sealOp (op : SealOp)
  | store (f : Field) (bytes : Bytes)
  | load (f : Field) (bytes : Bytes)
  deriving DecidableEq

def recordEvent (r : Field → Option Bytes) : Event → Field → Option Bytes
  | .store f bytes => Function.update r f (some bytes)
  | _ => r

def lastStored (log : List Event) : Field → Option Bytes := log.foldl recordEvent fun _ => none

def replayEvent (b : Bytea) : Event → Bytea
  | .store f bytes => b.store f bytes
  | _ => b

def replay (b : Bytea) (log : List Event) : Bytea := log.foldl replayEvent b

/-- Every copy of a log is at most as long as its member. -/
def Fits (log : List Event) : Prop := ∀ f bytes, .store f bytes ∈ log → bytes.length ≤ f.capacity

theorem store_mem_sealOps (ops : List SealOp) :
    Event.store f bytes ∈ log ++ ops.map .sealOp ↔ .store f bytes ∈ log := by
  simp only [List.mem_append, List.mem_map, reduceCtorEq, and_false, exists_false, or_false]

theorem store_mem_load : Event.store f bytes ∈ log ++ [.load g x] ↔ .store f bytes ∈ log := by
  simp only [List.mem_append, List.mem_singleton, reduceCtorEq, or_false]

theorem replay_append (b : Bytea) (log evs : List Event) :
    replay b (log ++ evs) = replay (replay b log) evs := List.foldl_append

@[simp] theorem size_replay (b : Bytea) (log : List Event) : (replay b log).size = b.size := by
  induction log generalizing b with
  | nil => rfl
  | cons e log ih =>
    rw [replay, List.foldl_cons, ← replay, ih]
    cases e <;> rfl

theorem lastStored_append (log evs : List Event) :
    lastStored (log ++ evs) = evs.foldl recordEvent (lastStored log) := List.foldl_append

theorem represents_replay (h : fields.Represents b.data (lastStored log)) (hfit : Fits evs) :
    fields.Represents (replay b evs).data (lastStored (log ++ evs)) := by
  rw [lastStored_append]
  generalize lastStored log = r at h
  induction evs generalizing b r with
  | nil => exact h
  | cons e evs ih =>
    have hrest : Fits evs := fun f bytes he => hfit f bytes (List.mem_cons_of_mem _ he)
    cases e with
    | store f bytes =>
      exact ih hrest _ (h.store (hfit f bytes List.mem_cons_self))
    | sealOp op => exact ih hrest _ h
    | load f bytes => exact ih hrest _ h

theorem represents_replay_new (b : Bytea) (hfit : Fits evs) :
    fields.Represents (replay b evs).data (lastStored evs) := by
  have hnew : fields.Represents b.data (lastStored []) := Layout.represents_none _
  have h := represents_replay hnew hfit
  rwa [List.nil_append] at h

theorem exists_lastStored (h : .store f bytes ∈ log) : ∃ bytes', lastStored log f = some bytes' := by
  have hkeep (evs : List Event) (r : Field → Option Bytes) (hr : ∃ x, r f = some x) :
      ∃ x, evs.foldl recordEvent r f = some x := by
    induction evs generalizing r with
    | nil => exact hr
    | cons e evs ih =>
      apply ih
      cases e with
      | store g x =>
        by_cases hg : f = g
        · exact ⟨x, by rw [recordEvent, hg, Function.update_self]⟩
        · obtain ⟨y, hy⟩ := hr
          exact ⟨y, by rw [recordEvent, Function.update_of_ne hg, hy]⟩
      | sealOp op => exact hr
      | load g x => exact hr
  obtain ⟨pre, post, rfl⟩ := List.append_of_mem h
  rw [lastStored_append]
  exact hkeep post _ ⟨bytes, by rw [recordEvent, Function.update_self]⟩

theorem store_mem_of_lastStored (h : lastStored log f = some bytes) : .store f bytes ∈ log := by
  induction log using List.reverseRecOn with
  | nil => cases h
  | append_singleton log e ih =>
    rw [lastStored_append, List.foldl_cons, List.foldl_nil] at h
    cases e with
    | store g x =>
      by_cases hg : f = g
      · rw [recordEvent, hg, Function.update_self] at h
        cases h
        exact List.mem_append_right _ (List.mem_singleton.2 (by rw [hg]))
      · rw [recordEvent, Function.update_of_ne hg] at h
        exact List.mem_append_left _ (ih h)
    | sealOp op => exact List.mem_append_left _ (ih h)
    | load g x => exact List.mem_append_left _ (ih h)

structure World where
  state : Bytea
  log : List Event

abbrev Server := Prog World Fault

namespace Server

def runSeal (x : SealM α) : Server α :=
  within (fun _ => []) (fun ops w => { w with log := w.log ++ ops.map .sealOp }) x

/-- `string s( field.data, field.size )` on a member of the transition value. -/
def loadField (f : Field) : Server Bytes := fun w =>
  (.ok (fields.load w.state.data f),
    { w with log := w.log ++ [.load f (fields.load w.state.data f)] })

/-- Store a member of a value that is not yet the transition value. -/
def storeInto (b : Bytea) (f : Field) (bytes : Bytes) : Server Bytea := fun w =>
  (.ok (b.store f bytes), { w with log := w.log ++ [.store f bytes] })

def storeField (f : Field) (bytes : Bytes) : Server Unit := fun w =>
  (.ok (), { state := w.state.store f bytes, log := w.log ++ [.store f bytes] })

variable {E : Fault → World → Prop}

@[simp] theorem wp_runSeal {Q : α → World → Prop} (x : SealM α) :
    wp (runSeal x) Q E w ↔
      wp x (fun a ops => Q a { w with log := w.log ++ ops.map .sealOp })
        (fun e ops => E e { w with log := w.log ++ ops.map .sealOp }) [] :=
  wp_within x

@[simp] theorem wp_loadField {Q : Bytes → World → Prop} :
    wp (loadField f) Q E w ↔ Q (fields.load w.state.data f)
      { w with log := w.log ++ [.load f (fields.load w.state.data f)] } := Iff.rfl

@[simp] theorem wp_storeInto {Q : Bytea → World → Prop} :
    wp (storeInto b f bytes) Q E w ↔
      Q (b.store f bytes) { w with log := w.log ++ [.store f bytes] } := Iff.rfl

@[simp] theorem wp_storeField {Q : Unit → World → Prop} :
    wp (storeField f bytes) Q E w ↔
      Q () { state := w.state.store f bytes, log := w.log ++ [.store f bytes] } := Iff.rfl

end Server

end MuchPIR
