import ConsMachine.Code.Instruction
import ConsMachine.Code.Listing
import ConsMachine.Code.Opcode
import ConsMachine.CommandLine.Execution
import ConsMachine.CommandLine.Options
import ConsMachine.Display
import ConsMachine.Fault
import ConsMachine.Heap.Allocation
import ConsMachine.Heap.Basic
import ConsMachine.Heap.Blocks
import ConsMachine.Heap.Census
import ConsMachine.Heap.Integrity
import ConsMachine.Heap.Marking
import ConsMachine.Heap.Sweeping
import ConsMachine.Machine.Basic
import ConsMachine.Machine.Session
import ConsMachine.Machine.Sink
import ConsMachine.Machine.Stack
import ConsMachine.Machine.Step
import ConsMachine.Machine.Trace
import ConsMachine.Main
import ConsMachine.Report
import ConsMachine.Text.Blank
import ConsMachine.Text.Figure
import ConsMachine.Text.Numeral
import ConsMachine.Text.Table
import ConsMachine.Word
import ConsMachine.Proofs.Code.Decoding
import ConsMachine.Proofs.Code.Grammar
import ConsMachine.Proofs.Correspondence
import ConsMachine.Proofs.Heap.Allocation
import ConsMachine.Proofs.Heap.Bisimulation
import ConsMachine.Proofs.Heap.BoundedSearch
import ConsMachine.Proofs.Heap.Capacity
import ConsMachine.Proofs.Heap.Carving
import ConsMachine.Proofs.Heap.Cells
import ConsMachine.Proofs.Heap.Client
import ConsMachine.Proofs.Heap.Collection
import ConsMachine.Proofs.Heap.Faults
import ConsMachine.Proofs.Heap.Fields
import ConsMachine.Proofs.Heap.FirstFit
import ConsMachine.Proofs.Heap.FreeList
import ConsMachine.Proofs.Heap.Intact
import ConsMachine.Proofs.Heap.Marking
import ConsMachine.Proofs.Heap.Mirror
import ConsMachine.Proofs.Heap.Partition
import ConsMachine.Proofs.Heap.Reachability
import ConsMachine.Proofs.Heap.Regrouping
import ConsMachine.Proofs.Heap.Sweeping
import ConsMachine.Proofs.Heap.Tidiness
import ConsMachine.Proofs.Heap.Vacancy
import ConsMachine.Proofs.Machine.Capacity
import ConsMachine.Proofs.Machine.Cons
import ConsMachine.Proofs.Machine.Content
import ConsMachine.Proofs.Machine.Discipline
import ConsMachine.Proofs.Machine.Failure
import ConsMachine.Proofs.Machine.HeapSize
import ConsMachine.Proofs.Machine.Instructions
import ConsMachine.Proofs.Machine.ListInstructions
import ConsMachine.Proofs.Machine.ListSemantics
import ConsMachine.Proofs.Machine.MemorySafety
import ConsMachine.Proofs.Machine.Mirror
import ConsMachine.Proofs.Machine.Program
import ConsMachine.Proofs.Machine.Realization
import ConsMachine.Proofs.Machine.Refinement
import ConsMachine.Proofs.Machine.Renaming
import ConsMachine.Proofs.Machine.Robustness
import ConsMachine.Proofs.Machine.Simulation
import ConsMachine.Proofs.Machine.Soundness
import ConsMachine.Proofs.Machine.Stack
import ConsMachine.Proofs.Machine.Tracing
import ConsMachine.Proofs.Outcome
import ConsMachine.Proofs.Heap.Integrity
import ConsMachine.Proofs.Heap.Census
import ConsMachine.Proofs.Heap.Splitting
import ConsMachine.Proofs.Machine.Bounds
import ConsMachine.Proofs.Machine.TailCall
import ConsMachine.Proofs.Machine.Stores
import ConsMachine.Proofs.Machine.Return
import ConsMachine.Proofs.Code.Offender
import ConsMachine.Proofs.Machine.Access
