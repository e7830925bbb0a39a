import MuchPIR.Seal

namespace MuchPIR
open Prog
set_option autoImplicit true

/-- Operations that C++ defines for some operands only. `span` is an access to `len` bytes of an
object of `size` bytes, and `level` marks a pass of the level loop of the expansion. -/
inductive MachineOp
  | divide (divisor : Nat)
  | index (i size : Nat)
  | span (off len size : Nat)
  | shiftLeft (count : Nat)
  | product (x y : Int)
  | advance (count size : Nat)
  | level (i : Nat)
  deriving DecidableEq

namespace MachineOp

def Defined : MachineOp → Prop
  | divide divisor => divisor ≠ 0
  | index i size => i < size
  | span off len size => off + len ≤ size
  | shiftLeft count => count < 31
  | product x y => -2 ^ 31 ≤ x * y ∧ x * y < 2 ^ 31
  | advance count size => count ≤ size
  | level _ => True

instance (op : MachineOp) : Decidable op.Defined := by
  cases op <;> unfold Defined <;> infer_instance

def isLevel : MachineOp → Bool
  | level _ => true
  | _ => false

end MachineOp

inductive MachineFault
  | fault (f : Fault)
  | undefined (op : MachineOp)
  deriving DecidableEq

structure MachineWorld where
  calls : List SealOp
  ops : List MachineOp

/-- Code with its calls into SEAL and its partial operations. The first undefined one ends it. -/
abbrev Machine := Prog MachineWorld MachineFault

namespace Machine

def check (op : MachineOp) : Machine Unit := fun w =>
  (if op.Defined then .ok () else .error (.undefined op), { w with ops := w.ops ++ [op] })

/-- An operation that the machine goes on from, defined or not. -/
def note (op : MachineOp) : Machine Unit := fun w => (.ok (), { w with ops := w.ops ++ [op] })

def runSeal (x : SealM α) : Machine α := fun w =>
  ((x w.calls).1.mapError .fault, { w with calls := (x w.calls).2 })

variable {E : MachineFault → MachineWorld → Prop}

theorem wp_check {Q : Unit → MachineWorld → Prop} (h : op.Defined) :
    wp (check op) Q E w ↔ Q () { w with ops := w.ops ++ [op] } := by
  unfold wp check
  rw [if_pos h]
  rfl

theorem wp_check_undefined {Q : Unit → MachineWorld → Prop} (h : ¬op.Defined) :
    wp (check op) Q E w ↔ E (.undefined op) { w with ops := w.ops ++ [op] } := by
  unfold wp check
  rw [if_neg h]
  rfl

@[simp] theorem wp_note {Q : Unit → MachineWorld → Prop} :
    wp (note op) Q E w ↔ Q () { w with ops := w.ops ++ [op] } := Iff.rfl

@[simp] theorem wp_runSeal {Q : α → MachineWorld → Prop} (x : SealM α) :
    wp (runSeal x) Q E w ↔ wp x (fun a calls => Q a { w with calls := calls })
      (fun f calls => E (.fault f) { w with calls := calls }) w.calls := by
  unfold wp runSeal
  rcases x w.calls with ⟨_ | _, _⟩ <;> rfl

end Machine

/-- All operations up to here are defined, and `levels` of them are passes of the level loop. -/
structure MachineWorld.Sane (levels : Nat) (w : MachineWorld) : Prop where
  defined : ∀ op ∈ w.ops, op.Defined
  count_levels : w.ops.countP MachineOp.isLevel = levels

namespace MachineWorld

theorem sane_start (calls : List SealOp) : Sane 0 ⟨calls, []⟩ :=
  ⟨fun _ h => absurd h List.not_mem_nil, rfl⟩

theorem Sane.snoc (h : Sane levels w) (hop : op.Defined) (hlevel : op.isLevel = false) :
    Sane levels { w with ops := w.ops ++ [op] } where
  defined o ho := by
    rcases List.mem_append.1 ho with ho | ho
    · exact h.defined o ho
    · rw [List.mem_singleton.1 ho]
      exact hop
  count_levels := by
    rw [List.countP_append, h.count_levels, List.countP_singleton, hlevel]
    rfl

theorem Sane.level (h : Sane levels w) (i : Nat) :
    Sane (levels + 1) { w with ops := w.ops ++ [.level i] } where
  defined o ho := by
    rcases List.mem_append.1 ho with ho | ho
    · exact h.defined o ho
    · rw [List.mem_singleton.1 ho]
      exact trivial
  count_levels := by
    rw [List.countP_append, h.count_levels]
    rfl

end MachineWorld

/-- Both runs have made the same calls, and all operations of the machine's are defined. -/
def InStep (levels : Nat) (calls : List SealOp) (w : MachineWorld) : Prop :=
  w.calls = calls ∧ w.Sane levels

def SomeLevels (calls : List SealOp) (w : MachineWorld) : Prop := ∃ levels, InStep levels calls w

namespace InStep

variable {Q : α → β → List SealOp → MachineWorld → Prop}

theorem check {x : SealM α} {f : Unit → Machine β} (h : InStep levels calls w) (hop : op.Defined)
    (hlevel : op.isLevel = false)
    (hx : ∀ w, InStep levels calls w → Rel x (f ()) Q SomeLevels calls w) :
    Rel x (Machine.check op >>= f) Q SomeLevels calls w := by
  have hok : Machine.check op w = (.ok (), { w with ops := w.ops ++ [op] }) := by
    rw [Machine.check, if_pos hop]
  have hrel := hx { w with ops := w.ops ++ [op] } ⟨h.1, h.2.snoc hop hlevel⟩
  unfold Prog.Rel at hrel ⊢
  rwa [bind_of_ok f hok]

theorem level {x : SealM α} {f : Unit → Machine β} (h : InStep levels calls w) (i : Nat)
    (hx : ∀ w, InStep (levels + 1) calls w → Rel x (f ()) Q SomeLevels calls w) :
    Rel x (Machine.check (.level i) >>= f) Q SomeLevels calls w := by
  have hrel := hx { w with ops := w.ops ++ [.level i] } ⟨h.1, h.2.level i⟩
  exact hrel

theorem runSeal (x : SealM α) (h : InStep levels calls w) :
    Rel x (Machine.runSeal x) (fun a b calls w => a = b ∧ InStep levels calls w) SomeLevels
      calls w := by
  obtain ⟨rfl, hsane⟩ := h
  unfold Prog.Rel Machine.runSeal
  rcases x w.calls with ⟨_ | a, calls'⟩
  · exact ⟨levels, rfl, hsane.defined, hsane.count_levels⟩
  · exact ⟨rfl, rfl, hsane.defined, hsane.count_levels⟩

end InStep

end MuchPIR
