import ConsMachine.Heap.Census
import ConsMachine.Machine.Basic
import ConsMachine.Text.Figure

/-!
# Reports

The figures of a run: what the machine has counted, the census of its heap, and the time taken.
-/

namespace ConsMachine

open Text

structure Report where
  executed : Nat
  allocations : Nat
  collections : Nat
  /-- None if the heap is out of order. -/
  census : Option Census
  /-- The time taken, in milliseconds. -/
  elapsed : Nat

namespace Report

/-- One line a figure; the time comes last and its line is not ended. -/
def text (r : Report) : String :=
  let counter (count : Nat) := rightAligned 10 (toString count) ++ "\n"
  let census :=
    match r.census with
    | some census => census.text ++ "\n"
    | none => ""
  "Instructions : " ++ counter r.executed ++
    "Allocations  : " ++ counter r.allocations ++
    "Collections  : " ++ counter r.collections ++
    census ++
    "Used " ++ rightAligned 7 (seconds r.elapsed) ++ " seconds"

end Report

/-- The figures of a machine that has run for some milliseconds. -/
def Machine.report (m : Machine) (elapsed : Nat) : Report where
  executed := m.executed
  allocations := m.heap.allocations
  collections := m.heap.collections
  census := m.heap.census.toOption
  elapsed

end ConsMachine
