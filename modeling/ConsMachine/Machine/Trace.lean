import ConsMachine.Machine.Basic

/-!
# Trace lines

A trace shows, before a step, the live stack and the instruction that the step is about to execute.
-/

namespace ConsMachine

/-- The written form of the instruction at an address, if one can be decoded there. -/
def Instruction.textAt (code : Array Int64) (address : Nat) : String :=
  match decode code address with
  | .ok (i, _) => i.text
  | .error _ => "<unknown>"

/-- Words in brackets, bottom first. -/
def Word.listText (words : List Word) : String :=
  "[ " ++ String.join (words.map fun word => word.text ++ " ") ++ "]"

/-- The live stack, then address and instruction in braces. -/
def traceLine (live : List Word) (code : Array Int64) (address : Nat) : String :=
  Word.listText live ++ " \x7b" ++ toString address ++ ":" ++ Instruction.textAt code address ++
    "\x7d"

/-- The trace line of the next step. -/
def Machine.traceLine (m : Machine) : String := ConsMachine.traceLine m.stack.live m.code m.pc

end ConsMachine
