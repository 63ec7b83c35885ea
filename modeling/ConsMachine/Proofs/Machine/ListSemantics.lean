import ConsMachine.Machine.Basic

/-!
# A semantics on lists

What the instructions mean when the stack is a list of words, the top first. There are no slots above
the top, and integers are computed with in full before they are wrapped around to 64 bits. An
instruction that cannot be executed has no meaning.

## Main definitions

* `Configuration` — a machine with a list for its stack.
* `Instruction.effect` — what the instructions do, whatever the size of the stack.
* `Instruction.meaning` — the same within a limit on the stack.
* `Instruction.keepsToLive` — an instruction does not ask for words above the top.
-/

namespace ConsMachine

/-- A machine with a list for its stack. -/
structure Configuration where
  /-- The words, the top first. -/
  stack : List Word
  bp : Int64
  pc : Nat
  heap : Heap
deriving DecidableEq

/-- Integer 0 and null count as false. -/
def Word.IsFalse (w : Word) : Prop := w = .int 0 ∨ w = .null

instance (w : Word) : Decidable w.IsFalse := inferInstanceAs (Decidable (_ ∨ _))

namespace Configuration

/-! ## Stacks -/

/-- The word for a truth value. -/
def truth (p : Prop) [Decidable p] : Word := .int (if p then 1 else 0)

/-- The two integers on top give way to the value of `f` on them, wrapped around. -/
def arithmetic (f : Int → Int → Option Int) : List Word → Option (List Word)
  | .int right :: .int left :: rest =>
    (f left.toInt right.toInt).map fun value => .int (.ofInt value) :: rest
  | _ => none

/-- Two words are equal if they are the same word: null is not integer 0. -/
def equal : List Word → Option (List Word)
  | right :: left :: rest => some (truth (left = right) :: rest)
  | _ => none

def negation : List Word → Option (List Word)
  | word :: rest => some (truth word.IsFalse :: rest)
  | [] => none

def duplicate : List Word → Option (List Word)
  | word :: rest => some (word :: word :: rest)
  | [] => none

def swap : List Word → Option (List Word)
  | upper :: lower :: rest => some (lower :: upper :: rest)
  | _ => none

/-- The word at an index, counted from the bottom. -/
def load : List Word → Option (List Word)
  | .int index :: rest =>
    if 0 ≤ index.toInt then rest.reverse[index.toInt.toNat]?.map fun word => word :: rest
    else none
  | _ => none

/-- The word on top goes to an index, counted from the bottom, and stays on top. -/
def store : List Word → Option (List Word)
  | word :: .int index :: rest =>
    if 0 ≤ index.toInt ∧ index.toInt < rest.length then
      some (word :: (rest.reverse.set index.toInt.toNat word).reverse)
    else none
  | _ => none

/-- So many zeros more, or so many words less. -/
def reserve (shift : Int64) (stack : List Word) : Option (List Word) :=
  if 0 ≤ shift.toInt then some (.replicate shift.toInt.toNat .zero ++ stack)
  else if -shift.toInt ≤ stack.length then some (stack.drop (-shift.toInt).toNat)
  else none

/-- Arguments go on top in order. -/
def withArguments (arguments : List Int64) (stack : List Word) : List Word :=
  (arguments.map Word.int).reverse ++ stack

/-! ## Configurations -/

variable (c : Configuration)

/-- Another stack, if there is one. -/
def withStack (stack : Option (List Word)) : Option Configuration :=
  stack.map fun stack => { c with stack }

/-- Another stack and what an operation leaves of the heap. -/
def withHeap {α : Type} (action : Heap.Action α) (stack : α → List Word) :
    Option Configuration :=
  match action c.heap with
  | .ok value heap => some { c with stack := stack value, heap }
  | .error _ _ => none

/-- An address that can be jumped to. -/
def address (target : Int64) : Option Nat :=
  if 0 ≤ target.toInt then some target.toInt.toNat else none

def goto (target : Int64) : Option Configuration :=
  (address target).map fun pc => { c with pc }

/-- A jump if the word on top counts as false just when `zero` says so. -/
def branch (zero : Bool) (target : Int64) : Option Configuration :=
  match c.stack with
  | word :: rest =>
    if zero = decide word.IsFalse then goto { c with stack := rest } target
    else some { c with stack := rest }
  | [] => none

/-- The base pointer and the address of the next instruction go below the arguments. The base
pointer then counts the words below the arguments. -/
def call (count target : Int64) : Option Configuration :=
  if 0 ≤ count.toInt ∧ count.toInt ≤ c.stack.length then
    (address target).map fun pc =>
      { c with
        stack := c.stack.take count.toInt.toNat ++
          .int c.bp :: .int (.ofNat c.pc) :: c.stack.drop count.toInt.toNat
        bp := .ofInt (c.stack.length - count.toInt + 2)
        pc }
  else none

/-- So many words are taken out from below the arguments. -/
def tailCall (count drop target : Int64) : Option Configuration :=
  if 0 ≤ count.toInt ∧ 0 ≤ drop.toInt ∧ count.toInt + drop.toInt ≤ c.stack.length then
    (address target).map fun pc =>
      { c with
        stack := c.stack.take count.toInt.toNat ++
          c.stack.drop (count.toInt + drop.toInt).toNat
        pc }
  else none

/-- Below the result and so many words, the base pointer and the address to return to. -/
def ret (locals : Int64) : Option Configuration :=
  match c.stack, c.stack.drop (locals.toInt.toNat + 1) with
  | result :: _, .int bp :: .int back :: rest =>
    (address back).map fun pc => { c with stack := result :: rest, bp, pc }
  | _, _ => none

/-- Something is printed, if there is a word on top. -/
def print : Option Configuration :=
  if c.stack = [] then none else some c

/-- A new cell of two words. -/
def newCell (roots : List Word) (car cdr : Word) : Heap.Action Ref := do
  let cell ← Heap.allocate .cons 2 roots
  Heap.setField cell 0 car
  Heap.setField cell 1 cdr
  return cell

/-- The words on the stack, bottom first, are the roots. -/
def cons : Option Configuration :=
  match c.stack with
  | cdr :: car :: rest =>
    c.withHeap (newCell c.stack.reverse car cdr) fun cell => .ref cell :: rest
  | _ => none

def take (offset : Nat) : Option Configuration :=
  match c.stack with
  | .ref cell :: rest =>
    if cell = .null then none else c.withHeap (Heap.field cell offset) fun word => word :: rest
  | _ => none

/-- The cell stays on the stack. -/
def set (offset : Nat) : Option Configuration :=
  match c.stack with
  | value :: .ref cell :: rest =>
    if cell = .null then none
    else c.withHeap (Heap.setField cell offset value) fun _ => .ref cell :: rest
  | _ => none

end Configuration

/-! ## Instructions -/

namespace Instruction

open ConsMachine.Configuration

/-- What an instruction does to a configuration that has its program counter at the next
instruction. -/
def effect (arguments : List Int64) (i : Instruction) (c : Configuration) :
    Option Configuration :=
  match i.opcode, i.operands with
  | .csti, [k] => some { c with stack := .int k :: c.stack }
  | .add, [] => c.withStack (arithmetic (fun l r => some (l + r)) c.stack)
  | .sub, [] => c.withStack (arithmetic (fun l r => some (l - r)) c.stack)
  | .mul, [] => c.withStack (arithmetic (fun l r => some (l * r)) c.stack)
  | .div, [] => c.withStack (arithmetic (fun l r => if r = 0 then none else some (l.tdiv r)) c.stack)
  | .mod, [] => c.withStack (arithmetic (fun l r => if r = 0 then none else some (l.tmod r)) c.stack)
  | .eq, [] => c.withStack (equal c.stack)
  | .lt, [] => c.withStack (arithmetic (fun l r => some (if l < r then 1 else 0)) c.stack)
  | .not, [] => c.withStack (negation c.stack)
  | .dup, [] => c.withStack (duplicate c.stack)
  | .swap, [] => c.withStack (swap c.stack)
  | .ldi, [] => c.withStack (load c.stack)
  | .sti, [] => c.withStack (store c.stack)
  | .getbp, [] => some { c with stack := .int c.bp :: c.stack }
  | .getsp, [] => some { c with stack := .int (.ofInt (c.stack.length - 1)) :: c.stack }
  | .incsp, [shift] => c.withStack (reserve shift c.stack)
  | .goto, [target] => c.goto target
  | .ifzero, [target] => c.branch true target
  | .ifnzro, [target] => c.branch false target
  | .call, [count, target] => c.call count target
  | .tcall, [count, drop, target] => c.tailCall count drop target
  | .ret, [locals] => c.ret locals
  | .printi, [] => c.print
  | .printc, [] => c.print
  | .ldargs, [] => some { c with stack := withArguments arguments c.stack }
  | .stop, [] => some c
  | .nil, [] => some { c with stack := .null :: c.stack }
  | .cons, [] => c.cons
  | .car, [] => c.take 0
  | .cdr, [] => c.take 1
  | .setcar, [] => c.set 0
  | .setcdr, [] => c.set 1
  | _, _ => none

/-- What an instruction that ends at `next` means where the stack has room for `limit` words. -/
def meaning (limit : Nat) (arguments : List Int64) (i : Instruction) (next : Nat)
    (c : Configuration) : Option Configuration :=
  (i.effect arguments { c with pc := next }).filter fun c => c.stack.length ≤ limit

/-- The index of a load or a store is not above the words that are left when the operands have been
taken off, a tail call and a return drop no fewer than zero words. -/
def keepsToLive (i : Instruction) (stack : List Word) : Bool :=
  match i.opcode, i.operands, stack with
  | .ldi, _, .int index :: rest => index.toInt < rest.length
  | .sti, _, _ :: .int index :: rest => index.toInt < rest.length
  | .tcall, [_, drop, _], _ => 0 ≤ drop.toInt
  | .ret, [locals], _ => 0 ≤ locals.toInt
  | _, _, _ => true

end Instruction

/-- The machine as the semantics sees it. -/
def Machine.configuration (m : Machine) : Configuration :=
  ⟨m.stack.live.reverse, m.bp, m.pc, m.heap⟩

end ConsMachine
