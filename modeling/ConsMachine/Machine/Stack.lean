import ConsMachine.Fault

/-!
# The stack

A fixed number of slots and the stack pointer, which is the index of the top and -1 when the stack
is empty. The words up to it are live. Slots above keep what was stored in them until it is
overwritten.

## Main definitions

* `Stack`, `Stack.height`, `Stack.live` — the slots and the index of the top, the live words.
* `Stack.slot`, `Stack.slotOf` — the slot at an index of the machine, and of the program.
* `Stack.moved`, `Stack.argumentCount` — bounds checks in 64-bit arithmetic.
-/

namespace ConsMachine

/-- The slots of the stack and the index of its top. -/
structure Stack where
  slots : Array Word
  pointer : Int
deriving DecidableEq

namespace Stack

def empty (size : Nat) : Stack := ⟨Array.replicate size .zero, -1⟩

def size (s : Stack) : Nat := s.slots.size

/-- How many words are live. -/
def height (s : Stack) : Nat := (s.pointer + 1).toNat

/-- The live words, bottom first. -/
def live (s : Stack) : List Word := (s.slots.extract 0 s.height).toList

/-- Replaces the word in a slot. -/
def put (s : Stack) (slot : Nat) (word : Word) : Stack :=
  { s with slots := s.slots.setIfInBounds slot word }

/-- Makes the slot at `pointer` the top. -/
def setPointer (s : Stack) (pointer : Int) : Stack := { s with pointer }

/-- Takes the word on top off; its slot keeps it. -/
def drop (s : Stack) : Stack := { s with pointer := s.pointer - 1 }

/-! ## Slots -/

/-- The slot at an index that the machine computed. -/
def slot (s : Stack) (index : Int) : Except Fault Nat :=
  if index < 0 then .error .stackUnderflow
  else if s.size ≤ index.toNat then .error (.stackOverflow s.size)
  else .ok index.toNat

/-- The slot at an index that the program computed. -/
def slotOf (s : Stack) (index : Int64) : Except Fault Nat :=
  if 0 ≤ index ∧ index.toNatClampNeg < s.size then .ok index.toNatClampNeg
  else .error (.badStackIndex index)

/-! ## Bounds -/

/-- The sum of two integers, if it is one of 64 bits. -/
def addExact? (a : Int) (b : Int64) : Option Int :=
  let sum := a + b.toInt
  if Int64.minValue.toInt ≤ sum ∧ sum ≤ Int64.maxValue.toInt then some sum else none

/-- The opposite of a 64-bit integer; the lowest has none and gives the highest. -/
def negateClamped (a : Int64) : Int64 :=
  if a = Int64.minValue then Int64.maxValue else -a

/-- The stack pointer moved by `shift` slots. It may come to rest at -1 but no lower, and not past
the last slot. -/
def moved (s : Stack) (shift : Int64) : Except Fault Int :=
  match addExact? s.pointer shift with
  | some target =>
    if target < -1 then .error .stackUnderflow
    else if 0 ≤ target ∧ s.size ≤ target.toNat then .error (.stackOverflow s.size)
    else .ok target
  | none => if shift < 0 then .error .stackUnderflow else .error (.stackOverflow s.size)

/-- A number of arguments, all of which must be on the stack. -/
def argumentCount (s : Stack) (count : Int64) : Except Fault Nat :=
  if 0 ≤ count ∧ count.toInt ≤ s.pointer + 1 then .ok count.toNatClampNeg
  else .error .stackUnderflow

end Stack

end ConsMachine
