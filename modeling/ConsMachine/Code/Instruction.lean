import ConsMachine.Fault

/-!
# Instructions

Code is one flat list of integers: each instruction is the number of its operation followed by the
operands. Nothing marks where an instruction ends, so code can only be decoded from an address that
is known to start one.

## Main definitions

* `Instruction` — an operation with its operands.
* `Instruction.encode`, `assemble` — the integers of an instruction and of a list of them.
* `Instruction.decode` — the instruction at an address and the address after it.
-/

namespace ConsMachine

/-- An operation with its operands. Only `Instruction.decode` sees to it that their number is the
operation's arity. -/
structure Instruction where
  opcode : Opcode
  operands : List Int64
deriving DecidableEq

namespace Instruction

/-- The number of operands is the one that the operation takes. -/
def WellFormed (i : Instruction) : Prop := i.operands.length = i.opcode.arity

instance (i : Instruction) : Decidable i.WellFormed := inferInstanceAs (Decidable (_ = _))

/-- The integers that stand for an instruction in the code. -/
def encode (i : Instruction) : List Int64 := i.opcode.code :: i.operands

/-- The written form: mnemonic and operands, separated by single spaces. -/
def text (i : Instruction) : String :=
  " ".intercalate (i.opcode.name :: i.operands.map fun operand => toString operand.toInt)

/-- The instruction that starts at `address`, and the address just past its last operand. -/
def decode (code : Array Int64) (address : Nat) : Except Fault (Instruction × Nat) :=
  match code[address]? with
  | none => .error (.outsideCode address)
  | some word =>
    match Opcode.ofCode? word with
    | none => .error (.illegalInstruction word address)
    | some opcode =>
      let next := address + 1 + opcode.arity
      if next ≤ code.size then
        .ok (⟨opcode, (code.extract (address + 1) next).toList⟩, next)
      else
        .error (.missingOperands address)

/-- The code of a sequence of instructions. -/
def assemble (instructions : List Instruction) : List Int64 := instructions.flatMap encode

theorem wellFormed_of_decode {code : Array Int64} {address next : Nat} {i : Instruction}
    (h : decode code address = .ok (i, next)) : i.WellFormed := by
  simp only [decode] at h
  split at h
  · simp at h
  split at h
  · simp at h
  split at h
  · next hle =>
    cases h
    simp only [WellFormed, Array.length_toList, Array.size_extract]
    omega
  · simp at h

theorem lt_of_decode {code : Array Int64} {address next : Nat} {i : Instruction}
    (h : decode code address = .ok (i, next)) : address < next ∧ next ≤ code.size := by
  simp only [decode] at h
  split at h
  · simp at h
  split at h
  · simp at h
  split at h
  · cases h
    omega
  · simp at h

end Instruction

end ConsMachine
