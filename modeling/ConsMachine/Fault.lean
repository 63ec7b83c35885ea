import ConsMachine.Word
import ConsMachine.Code.Opcode

/-!
# Faults

Whatever goes wrong ends the run. A `Fault` is a failure that the machine reports, with the text of
its report and the kind that decides the exit status. A `Breach` is an access that the machine has
no report for: it ends the process on the spot. `Failure` is either of them.
-/

namespace ConsMachine

/-- The two data words of a cons cell. -/
inductive CellPart where
  | car
  | cdr
deriving DecidableEq

namespace CellPart

/-- Which data word of the cell the part is. -/
def offset : CellPart → Nat
  | .car => 0
  | .cdr => 1

def text : CellPart → String
  | .car => "car"
  | .cdr => "cdr"

end CellPart

/-- A failure that the machine reports. -/
inductive Fault where
  /-- The program file cannot be read. -/
  | unreadableFile (name reason : String)
  /-- The program file goes on with something else than an integer. -/
  | notAnInteger (line : Nat) (found : String)
  /-- Output was refused. -/
  | outputFailed (reason : String)
  /-- There is no operation with this number. -/
  | illegalInstruction (word : Int64) (address : Nat)
  /-- The code ends before the operands do. -/
  | missingOperands (address : Nat)
  /-- There is no code at the address. -/
  | outsideCode (address : Nat)
  /-- A jump leads to no address. -/
  | negativeCodeAddress (address : Int64)
  /-- Part of a cell was asked for where there is none. -/
  | takeOfNull (part : CellPart)
  /-- Part of a cell was to be replaced where there is none. -/
  | setOfNull (part : CellPart)
  | expectedInteger (operation : Opcode) (found : Word)
  | expectedReference (operation : Opcode) (found : Word)
  | divisionByZero
  /-- The program computed the index of no slot. -/
  | badStackIndex (index : Int64)
  /-- The stack has fewer words than are asked for. -/
  | stackUnderflow
  /-- The live data fills the heap. -/
  | outOfMemory
  /-- The stack has no more slots. -/
  | stackOverflow (slots : Nat)
  | heapTooSmall (words : Nat)
  /-- A block, or a header that is looked for, is not in the heap. -/
  | blockBeyondHeap (index : Nat)
  /-- A header or a link is looked for, and there is another word. -/
  | notAHeader (index : Nat) (found : Word)
  /-- Marking was not finished when the sweep came. -/
  | greyAtSweep (index : Nat)
  /-- An entry of the free list is no block of the heap. -/
  | freeEntryOutsideHeap (item index : Nat)
  /-- An entry of the free list is in use, or cannot hold a link. -/
  | unfitFreeEntry (index : Nat) (color : Color)
  | cyclicFreeList
  /-- A reference leads to no block, or to one that is not in use. -/
  | danglingReference (target : Ref)
deriving DecidableEq

namespace Fault

/-- The groups of faults. -/
inductive Kind where
  /-- The program file could not be read, or output failed. -/
  | load
  /-- The code holds no instruction where one is looked for. -/
  | decode
  /-- The program did what it must not do. -/
  | program
  /-- A store of fixed size ran out. -/
  | memory
  /-- The heap is out of order. -/
  | consistency
deriving DecidableEq

/-- The exit status of a run that a fault of this kind ended. -/
def Kind.status : Kind → Nat
  | .load => 2
  | .decode => 3
  | .program => 4
  | .memory => 5
  | .consistency => 6

def kind : Fault → Kind
  | .unreadableFile .. | .notAnInteger .. | .outputFailed .. => .load
  | .illegalInstruction .. | .missingOperands .. | .outsideCode ..
  | .negativeCodeAddress .. => .decode
  | .takeOfNull .. | .setOfNull .. | .expectedInteger .. | .expectedReference ..
  | .divisionByZero | .badStackIndex .. | .stackUnderflow => .program
  | .outOfMemory | .stackOverflow .. | .heapTooSmall .. => .memory
  | .blockBeyondHeap .. | .notAHeader .. | .greyAtSweep .. | .freeEntryOutsideHeap ..
  | .unfitFreeEntry .. | .cyclicFreeList | .danglingReference .. => .consistency

/-- The text of the report. -/
def message : Fault → String
  | .unreadableFile name reason => s!"cannot read program file {name}: {reason}"
  | .notAnInteger line found => s!"line {line}: expected an integer but found `{found}`"
  | .outputFailed reason => s!"cannot write output: {reason}"
  | .illegalInstruction word address => s!"Illegal instruction {word.toInt} at address {address}"
  | .missingOperands address => s!"instruction at address {address} is missing its operands"
  | .outsideCode address => s!"program counter {address} is outside the program"
  | .negativeCodeAddress address => s!"code address {address.toInt} is negative"
  | .takeOfNull part => s!"Cannot take {part.text} of null"
  | .setOfNull part => s!"Cannot set {part.text} of null"
  | .expectedInteger operation found =>
    s!"{operation.name} expected an integer but found {found.text}"
  | .expectedReference operation found =>
    s!"{operation.name} expected a pointer but found {found.text}"
  | .divisionByZero => "division by zero"
  | .badStackIndex index => s!"stack index {index.toInt} is out of bounds"
  | .stackUnderflow => "stack underflow"
  | .outOfMemory => "Out of memory"
  | .stackOverflow slots => s!"stack overflow: more than {slots} slots"
  | .heapTooSmall words => s!"heap of {words} words is too small"
  | .blockBeyondHeap index => s!"HEAP ERROR: block at heap[{index}] extends beyond heap"
  | .notAHeader index found =>
    s!"HEAP ERROR: expected a block header at heap[{index}] but found {found.text}"
  | .greyAtSweep index => s!"HEAP ERROR: grey block at heap[{index}] during sweep"
  | .freeEntryOutsideHeap item index =>
    s!"HEAP ERROR: freelist item {item} (at heap[{index}]) is outside heap"
  | .unfitFreeEntry index color =>
    s!"HEAP ERROR: {color.text} block at heap[{index}] on freelist"
  | .cyclicFreeList => "HEAP ERROR: freelist is cyclic"
  | .danglingReference target =>
    s!"HEAP ERROR: pointer {target.text} does not reference a block"

/-- The exit status of a run that this fault ended. -/
def status (f : Fault) : Nat := f.kind.status

end Fault

/-- An access that the machine has no report for. -/
inductive Breach where
  /-- A word outside the heap's array was read or written. -/
  | outsideArray
  /-- The color was changed of a word that is no header. -/
  | noHeader
  /-- A header was found among the roots of a collection. -/
  | headerAmongRoots
  /-- The search of a cyclic free list would not end. -/
  | endlessSearch
  /-- An operation was executed with the wrong number of operands. -/
  | operandCount
  /-- A word was read or written that is in no slot of the stack. -/
  | outsideStack
deriving DecidableEq

/-- Why an operation did not complete. -/
inductive Failure where
  | fault (cause : Fault)
  | breach (cause : Breach)
deriving DecidableEq

end ConsMachine
