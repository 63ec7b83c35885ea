import ConsMachine.Code.Instruction
import ConsMachine.Heap.Allocation
import ConsMachine.Machine.Stack

/-!
# The machine

One stack holds arguments, locals, return addresses, saved base pointers and intermediate values;
cons cells are in the heap, and the live part of the stack is what a collection starts from.

## Main definitions

* `Machine`, `Machine.new` — the stores and registers, and their state before the first step.
* `Machine.Action` — an operation on the machine, which leaves its changes also when it fails.
* `Machine.load`, `Machine.store`, `Machine.push`, `Machine.pop`, `Machine.onHeap` — the operations
  that instructions are made of.
-/

namespace ConsMachine

/-- The state of the machine. -/
structure Machine where
  code : Array Int64
  /-- The integers that the program can ask for. -/
  arguments : List Int64
  stack : Stack
  heap : Heap
  /-- The address of the next instruction. -/
  pc : Nat
  /-- The base pointer: where the locals of the running function start. -/
  bp : Int64
  /-- How many instructions have been decoded and executed. -/
  executed : Nat
deriving DecidableEq

namespace Machine

/-- The base pointer before the first call, which is no index of the stack. -/
def initialBasePointer : Int64 := -999

/-- The machine before the first step. -/
def new (code arguments : List Int64) (heapSize stackSize : Nat) : Except Fault Machine :=
  match Heap.new heapSize with
  | .error fault => .error fault
  | .ok heap =>
    .ok {
      code := code.toArray
      arguments
      stack := .empty stackSize
      heap
      pc := 0
      bp := initialBasePointer
      executed := 0 }

/-- An operation on the machine. A failure leaves the changes made before it. -/
abbrev Action := EStateM Failure Machine

/-- Ends in a fault. -/
def fail {α : Type} (fault : Fault) : Action α := fun m => .error (.fault fault) m

/-- The value of something that may fail. -/
def require {α : Type} (result : Except Fault α) : Action α := fun m =>
  match result with
  | .ok value => .ok value m
  | .error fault => .error (.fault fault) m

/-- Something that is read off the stack. -/
def ofStack {α : Type} (read : Stack → Except Fault α) : Action α := fun m =>
  match read m.stack with
  | .ok value => .ok value m
  | .error fault => .error (.fault fault) m

/-- Changes the stack. -/
@[inline] def onStack (change : Stack → Stack) : Action Unit := fun m =>
  .ok () { m with stack := change m.stack }

/-- An operation on the heap. -/
@[inline] def onHeap {α : Type} (action : Heap.Action α) : Action α :=
  fun ⟨code, arguments, stack, heap, pc, bp, executed⟩ =>
    match action heap with
    | .ok value heap => .ok value ⟨code, arguments, stack, heap, pc, bp, executed⟩
    | .error failure heap => .error failure ⟨code, arguments, stack, heap, pc, bp, executed⟩

/-- Continues at `address`. -/
def jump (address : Nat) : Action Unit := fun m => .ok () { m with pc := address }

/-! ## Words on the stack -/

/-- The word in a slot, which must be there. -/
def wordAt (slot : Nat) : Action Word := fun m =>
  match m.stack.slots[slot]? with
  | some word => .ok word m
  | none => .error (.breach .outsideStack) m

/-- Replaces the word in a slot, which must be there. -/
def putWordAt (slot : Nat) (word : Word) : Action Unit := fun m =>
  if slot < m.stack.size then .ok () { m with stack := m.stack.put slot word }
  else .error (.breach .outsideStack) m

/-- The word at an index that the machine computed. -/
def load (index : Int) : Action Word := do
  wordAt (← ofStack fun s => s.slot index)

/-- Replaces the word at an index that the machine computed. -/
def store (index : Int) (word : Word) : Action Unit := do
  putWordAt (← ofStack fun s => s.slot index) word

def setPointer (pointer : Int) : Action Unit := onStack fun s => s.setPointer pointer

/-- The word on top. -/
def top : Action Word := do
  load (← get).stack.pointer

def push (word : Word) : Action Unit := do
  let pointer := (← get).stack.pointer
  store (pointer + 1) word
  setPointer (pointer + 1)

def pop : Action Word := do
  let word ← top
  onStack Stack.drop
  return word

/-- The words up to the stack pointer, all of which must be in slots. -/
def liveWords : Action (List Word) := fun m =>
  if -1 ≤ m.stack.pointer ∧ m.stack.pointer < m.stack.size then .ok m.stack.live m
  else .error (.breach .outsideStack) m

/-- Copies `count` words one after the other, from `source` on to `target` on. After each word both
move by `stride`. -/
def copyWords (stride source target : Int) : Nat → Action Unit
  | 0 => pure ()
  | count + 1 => do
    store target (← load source)
    copyWords stride (source + stride) (target + stride) count

/-- Stores integer 0 in `count` slots from `index` on. -/
def clearWords (index : Int) : Nat → Action Unit
  | 0 => pure ()
  | count + 1 => do
    store index .zero
    clearWords (index + 1) count

/-! ## What words stand for -/

/-- The integer that a word is. -/
def integer (operation : Opcode) : Word → Except Fault Int64
  | .int value => .ok value
  | found => .error (.expectedInteger operation found)

/-- The reference that a word is. -/
def reference (operation : Opcode) : Word → Except Fault Ref
  | .ref target => .ok target
  | found => .error (.expectedReference operation found)

/-- The address that an operand or a saved word stands for. -/
def codeAddress (address : Int64) : Except Fault Nat :=
  if 0 ≤ address then .ok address.toNatClampNeg else .error (.negativeCodeAddress address)

def popInteger (operation : Opcode) : Action Int64 := do
  let word ← pop
  require (integer operation word)

/-- Takes a reference to a cell off the stack; null is none and ends in `ifNull`. -/
def popCell (operation : Opcode) (ifNull : Fault) : Action Ref := do
  let word ← pop
  let cell ← require (reference operation word)
  if cell.isNull then fail ifNull else return cell

end Machine

end ConsMachine
