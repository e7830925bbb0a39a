import MuchPIR.Retrieval
import MuchPIR.RowCap

namespace MuchPIR
open Prog Server
set_option autoImplicit true

section Definitions

variable (S : Seal) (palloc : Memory)

/-- The transitions of an aggregate whose query is an expression of the row, too. The transition
function is STRICT in both arguments. -/
def aggregateArgs : List (Option Bytes × Option Bytes) → Server Unit
  | [] => pure ()
  | (some query, some row) :: table => do
    pirSelectInternal S palloc query row
    aggregateArgs table
  | (none, _) :: table => aggregateArgs table
  | (_, none) :: table => aggregateArgs table

def pirSelectArgs (table : List (Option Bytes × Option Bytes)) : Server Bytes := do
  aggregateArgs S palloc table
  pirFinal

/-- The arguments of the calls that an aggregate makes. -/
def calledWith : List (Option Bytes × Option Bytes) → List (Bytes × Bytes)
  | [] => []
  | (some query, some row) :: table => (query, row) :: calledWith table
  | (none, _) :: table => calledWith table
  | (_, none) :: table => calledWith table

end Definitions

variable {S : Seal} {palloc : Memory}

def Begun (w : World) : Prop := 0 < w.state.rowIdx ∧ w.state.rowIdx ≤ dbSize + 1

theorem transition_query (h : Begun w) (query query' row : Bytes) :
    pirSelectInternal S palloc query row w = pirSelectInternal S palloc query' row w := by
  have hne : w.state.rowIdx ≠ 0 := h.1.ne'
  rw [pirSelectInternal, pirSelectInternal, get_bind, get_bind, if_neg hne, if_neg hne]

theorem transition_begun (h : Begun w) (query row : Bytes) :
    wp (pirSelectInternal S palloc query row) (fun _ w' => Begun w') (fun _ _ => True) w := by
  obtain ⟨hpos, hle⟩ := h
  rcases Nat.lt_or_ge dbSize w.state.rowIdx with hlt | hcount
  · rw [wp_of_ok (transition_capped S palloc query row w hlt)]
    exact ⟨hpos, hle⟩
  · apply wp_mono (laterTransition_rowIdx hpos hcount) _ fun _ _ h => h
    intro _ w' hrow
    exact ⟨by omega, by omega⟩

theorem aggregateArgs_begun (h : Begun w) (query : Bytes)
    (table : List (Option Bytes × Option Bytes)) :
    aggregateArgs S palloc table w =
      transitions S palloc query ((calledWith table).map Prod.snd) w := by
  induction table generalizing w with
  | nil => rfl
  | cons args table ih =>
    rcases args with ⟨_ | query', _ | row⟩
    · exact ih h
    · exact ih h
    · exact ih h
    · rw [aggregateArgs, calledWith, List.map_cons, transitions]
      have hcall : pirSelectInternal S palloc query' row w = pirSelectInternal S palloc query row w :=
        transition_query h query' query row
      have hbegun : wp (pirSelectInternal S palloc query row) (fun _ w' => Begun w')
          (fun _ _ => True) w := transition_begun h query row
      rcases hrun : pirSelectInternal S palloc query row w with ⟨e | u, w'⟩
      · rw [bind_of_error _ hrun, bind_of_error _ (hcall.trans hrun)]
      · rw [bind_of_ok _ hrun, bind_of_ok _ (hcall.trans hrun)]
        exact ih (wp_ok (Q := fun _ w' => Begun w') hbegun hrun)

theorem aggregateArgs_first (junk : Memory) (query : Bytes)
    (table : List (Option Bytes × Option Bytes))
    (hquery : ∀ args ∈ (calledWith table).head?, args.1 = query) :
    aggregateArgs S palloc table (startWorld junk) =
      transitions S palloc query ((calledWith table).map Prod.snd) (startWorld junk) := by
  induction table with
  | nil => rfl
  | cons args table ih =>
    rcases args with ⟨_ | query', _ | row⟩
    · exact ih hquery
    · exact ih hquery
    · exact ih hquery
    · obtain rfl : query' = query := hquery (query', row) rfl
      rw [aggregateArgs, calledWith, List.map_cons, transitions]
      have hfirst := firstTransition_counted S palloc junk query' row
      rcases hrun : pirSelectInternal S palloc query' row (startWorld junk) with ⟨e | u, w⟩
      · rw [bind_of_error _ hrun, bind_of_error _ hrun]
      · rw [bind_of_ok _ hrun, bind_of_ok _ hrun]
        obtain ⟨hcounted, -⟩ := wp_ok hfirst hrun
        have hone : w.state.rowIdx = 1 := hcounted.rowIdx_eq
        exact aggregateArgs_begun ⟨by omega, by omega⟩ query' table

/-- Of the queries only the first one counts, on the first row where neither argument is NULL. The
aggregate is that of this query and of the values on the rows without a NULL. -/
theorem pirSelectArgs_first (S : Seal) (palloc junk : Memory)
    (table : List (Option Bytes × Option Bytes)) :
    pirSelectArgs S palloc table (startWorld junk) =
      pirSelect S palloc ((calledWith table).head?.elim [] Prod.fst)
        ((calledWith table).map fun args => some args.2) (startWorld junk) := by
  have hcolumn : ((calledWith table).map fun args => some args.2).reduceOption =
      (calledWith table).map Prod.snd := by
    rw [← Function.comp_def, ← List.map_map, reduceOption_map_some]
  have hquery (args : Bytes × Bytes) (h : args ∈ (calledWith table).head?) :
      args.1 = (calledWith table).head?.elim [] Prod.fst := by
    rw [Option.mem_def.1 h]
    rfl
  have hcalls : aggregateArgs S palloc table (startWorld junk) = _ :=
    aggregateArgs_first junk _ table hquery
  rw [pirSelectArgs, pirSelect, aggregate_eq, hcolumn]
  rcases hrun : transitions S palloc ((calledWith table).head?.elim [] Prod.fst)
    ((calledWith table).map Prod.snd) (startWorld junk) with ⟨e | u, w⟩
  · rw [bind_of_error _ hrun, bind_of_error _ (hcalls.trans hrun)]
  · rw [bind_of_ok _ hrun, bind_of_ok _ (hcalls.trans hrun)]

end MuchPIR
