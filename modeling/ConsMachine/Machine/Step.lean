import ConsMachine.Machine.Basic

/-!
# Steps

A step decodes the instruction at the program counter, moves the program counter past it, counts
it and executes it. What the instruction shows outside the machine is the value of the step, so the
step itself does not depend on where output goes.

## Main definitions

* `Machine.Event` — what a step shows outside.
* `Machine.execute` — the meaning of the operations.
* `Machine.step` — one step.
-/

namespace ConsMachine.Machine

/-- What a step shows outside the machine. -/
inductive Event where
  /-- Nothing. -/
  | silent
  /-- A text was printed. -/
  | printed (text : String)
  /-- The program has stopped with a result. -/
  | stopped (result : Word)
deriving DecidableEq

/-! ## Arithmetic -/

/-- The integer that stands for a truth value. -/
def truth (b : Bool) : Int64 := if b then 1 else 0

/-- Division toward zero. -/
def quotient (left right : Int64) : Except Fault Int64 :=
  if right = 0 then .error .divisionByZero else .ok (left / right)

/-- What is left by a division toward zero; it has the sign of `left`. -/
def remainder (left right : Int64) : Except Fault Int64 :=
  if right = 0 then .error .divisionByZero else .ok (left % right)

/-- Replaces the two integers on top by the value of `f` on them. Sums, differences and products
wrap around. -/
def arithmetic (operation : Opcode) (f : Int64 → Int64 → Except Fault Int64) : Action Unit := do
  let right ← popInteger operation
  let left ← popInteger operation
  push (.int (← require (f left right)))

/-! ## The stack -/

def equal : Action Unit := do
  let right ← pop
  let left ← pop
  push (.int (truth (left == right)))

def negation : Action Unit := do
  let word ← pop
  push (.int (truth word.isZero))

def duplicate : Action Unit := do
  push (← top)

def swap : Action Unit := do
  let pointer := (← get).stack.pointer
  let upper ← load pointer
  let lower ← load (pointer - 1)
  store pointer lower
  store (pointer - 1) upper

def loadIndirect : Action Unit := do
  let index ← popInteger .ldi
  let slot ← ofStack fun s => s.slotOf index
  push (← wordAt slot)

/-- Stores the word on top at the index below it, and leaves the word. -/
def storeIndirect : Action Unit := do
  let word ← pop
  let index ← popInteger .sti
  let slot ← ofStack fun s => s.slotOf index
  putWordAt slot word
  push word

/-- Moves the stack pointer. Slots that are reserved hold integer 0. -/
def reserve (shift : Int64) : Action Unit := do
  let target ← ofStack fun s => s.moved shift
  let pointer := (← get).stack.pointer
  clearWords (pointer + 1) (target - pointer).toNat
  setPointer target

/-! ## Control -/

def goto (address : Int64) : Action Unit := do
  jump (← require (codeAddress address))

/-- Takes the word on top off and jumps if it counts as false just when `zero` says so. -/
def branch (zero : Bool) (address : Int64) : Action Unit := do
  let word ← pop
  if word.isZero == zero then goto address

/-- Moves the arguments up by two slots, the topmost first, and puts the address to return to and
the base pointer below them. The base pointer is then the lowest argument. -/
def call (count address : Int64) (next : Nat) : Action Unit := do
  let count ← ofStack fun s => s.argumentCount count
  let target ← ofStack fun s => s.moved 2
  let pc ← require (codeAddress address)
  let pointer := (← get).stack.pointer
  copyWords (-1) pointer (pointer + 2) count
  store (pointer - count + 1) (.int (Int64.ofNat next))
  store (pointer - count + 2) (.int (← get).bp)
  setPointer target
  modify fun m => { m with bp := Int64.ofInt (target + 1 - count), pc }

/-- Slides the arguments down over the `drop` slots below them, the lowest first, and jumps. -/
def tailCall (count drop address : Int64) : Action Unit := do
  let count ← ofStack fun s => s.argumentCount count
  let target ← ofStack fun s => s.moved (Stack.negateClamped drop)
  let pc ← require (codeAddress address)
  if target + 1 < count then fail .stackUnderflow
  let pointer := (← get).stack.pointer
  copyWords 1 (pointer + 1 - count) (target + 1 - count) count
  setPointer target
  jump pc

/-- Drops `locals` slots, restores the base pointer and the program counter that were saved below
them, and leaves the word on top in the place of the saved ones. -/
def ret (locals : Int64) : Action Unit := do
  let result ← top
  let frame ← ofStack fun s => s.moved (Stack.negateClamped locals)
  let bp ← require (integer .ret (← load (frame - 1)))
  let saved ← require (integer .ret (← load (frame - 2)))
  let pc ← require (codeAddress saved)
  modify fun m => { m with bp, pc }
  setPointer (frame - 2)
  store (frame - 2) result

/-! ## Input and output -/

def pushAll : List Int64 → Action Unit
  | [] => pure ()
  | value :: rest => do
    push (.int value)
    pushAll rest

def loadArguments : Action Unit := do
  pushAll (← get).arguments

/-- The character with a given code, or the replacement character if there is none. -/
def character (code : Int64) : Char :=
  if h : 0 ≤ code ∧ code.toNatClampNeg.isValidChar then Char.ofNatAux code.toNatClampNeg h.2
  else '\ufffd'

def printWord : Action Event := do
  return .printed ((← top).text ++ " ")

/-- Prints an integer as the character with that code and a reference as it is written. -/
def printCharacter : Action Event := do
  match ← top with
  | .int code => return .printed (character code).toString
  | word => return .printed word.text

/-- The result is the word on top, or 0 if the stack is empty. -/
def stop : Action Event := do
  if (← get).stack.pointer < 0 then return .stopped .zero
  else return .stopped (← top)

/-! ## Cells -/

/-- Replaces the two words on top by a new cell of them. They stay on the stack while the cell is
allocated, so a collection keeps what they lead to. -/
def cons : Action Unit := do
  let pointer := (← get).stack.pointer
  let car ← load (pointer - 1)
  let cdr ← load pointer
  let cell ← onHeap (Heap.allocate .cons 2 (← liveWords))
  onHeap (Heap.setField cell CellPart.car.offset car)
  onHeap (Heap.setField cell CellPart.cdr.offset cdr)
  setPointer (pointer - 1)
  store (pointer - 1) (.ref cell)

def take (operation : Opcode) (part : CellPart) : Action Unit := do
  let cell ← popCell operation (.takeOfNull part)
  push (← onHeap (Heap.field cell part.offset))

/-- Changes a part of a cell in place and leaves the cell. -/
def set (operation : Opcode) (part : CellPart) : Action Unit := do
  let value ← pop
  let cell ← popCell operation (.setOfNull part)
  onHeap (Heap.setField cell part.offset value)
  push (.ref cell)

/-! ## Execution -/

/-- An operation that shows nothing. -/
def silently (action : Action Unit) : Action Event := do
  action
  return .silent

def nullary (operands : List Int64) (action : Action Event) : Action Event :=
  match operands with
  | [] => action
  | _ => throw (.breach .operandCount)

def unary (operands : List Int64) (action : Int64 → Action Event) : Action Event :=
  match operands with
  | [a] => action a
  | _ => throw (.breach .operandCount)

def binary (operands : List Int64) (action : Int64 → Int64 → Action Event) : Action Event :=
  match operands with
  | [a, b] => action a b
  | _ => throw (.breach .operandCount)

def ternary (operands : List Int64) (action : Int64 → Int64 → Int64 → Action Event) :
    Action Event :=
  match operands with
  | [a, b, c] => action a b c
  | _ => throw (.breach .operandCount)

/-- Executes an instruction that ends at `next`. -/
def execute (i : Instruction) (next : Nat) : Action Event :=
  match i.opcode with
  | .csti => unary i.operands fun k => silently (push (.int k))
  | .add => nullary i.operands (silently (arithmetic .add fun l r => .ok (l + r)))
  | .sub => nullary i.operands (silently (arithmetic .sub fun l r => .ok (l - r)))
  | .mul => nullary i.operands (silently (arithmetic .mul fun l r => .ok (l * r)))
  | .div => nullary i.operands (silently (arithmetic .div quotient))
  | .mod => nullary i.operands (silently (arithmetic .mod remainder))
  | .eq => nullary i.operands (silently equal)
  | .lt => nullary i.operands (silently (arithmetic .lt fun l r => .ok (truth (l < r))))
  | .not => nullary i.operands (silently negation)
  | .dup => nullary i.operands (silently duplicate)
  | .swap => nullary i.operands (silently swap)
  | .ldi => nullary i.operands (silently loadIndirect)
  | .sti => nullary i.operands (silently storeIndirect)
  | .getbp => nullary i.operands (silently do push (.int (← get).bp))
  | .getsp => nullary i.operands
      (silently do push (.int (Int64.ofInt (← get).stack.pointer)))
  | .incsp => unary i.operands fun shift => silently (reserve shift)
  | .goto => unary i.operands fun address => silently (goto address)
  | .ifzero => unary i.operands fun address => silently (branch true address)
  | .ifnzro => unary i.operands fun address => silently (branch false address)
  | .call => binary i.operands fun count address => silently (call count address next)
  | .tcall => ternary i.operands fun count drop address =>
      silently (tailCall count drop address)
  | .ret => unary i.operands fun locals => silently (ret locals)
  | .printi => nullary i.operands printWord
  | .printc => nullary i.operands printCharacter
  | .ldargs => nullary i.operands (silently loadArguments)
  | .stop => nullary i.operands stop
  | .nil => nullary i.operands (silently (push .null))
  | .cons => nullary i.operands (silently cons)
  | .car => nullary i.operands (silently (take .car .car))
  | .cdr => nullary i.operands (silently (take .cdr .cdr))
  | .setcar => nullary i.operands (silently (set .setcar .car))
  | .setcdr => nullary i.operands (silently (set .setcdr .cdr))

/-- Decodes, counts and executes one instruction. -/
def step : Action Event := fun m =>
  match Instruction.decode m.code m.pc with
  | .error fault => .error (.fault fault) m
  | .ok (instruction, next) =>
    execute instruction next { m with pc := next, executed := m.executed + 1 }

end ConsMachine.Machine
