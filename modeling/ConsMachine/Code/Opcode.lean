/-!
# Opcodes

The operations of the machine. The number of an operation is fixed by the compilers that write
code for it, so the order of the list counts.

## Main definitions

* `Opcode` — the 32 operations.
* `Opcode.code`, `Opcode.ofCode?` — their numbers, and back.
* `Opcode.arity` — how many operands follow an operation in the code.
-/

namespace ConsMachine

/-- An operation of the machine. The lines are constants and arithmetic, the stack, control, input
and output, and lists. -/
inductive Opcode where
  | csti | add | sub | mul | div | mod | eq | lt | not
  | dup | swap | ldi | sti | getbp | getsp | incsp
  | goto | ifzero | ifnzro | call | tcall | ret
  | printi | printc | ldargs | stop
  | nil | cons | car | cdr | setcar | setcdr
deriving DecidableEq

namespace Opcode

/-- Every operation, each at the place of its number. -/
def all : Array Opcode := #[
  .csti, .add, .sub, .mul, .div, .mod, .eq, .lt, .not,
  .dup, .swap, .ldi, .sti, .getbp, .getsp, .incsp,
  .goto, .ifzero, .ifnzro, .call, .tcall, .ret,
  .printi, .printc, .ldargs, .stop,
  .nil, .cons, .car, .cdr, .setcar, .setcdr]

/-- The number of an operation in the code. -/
def code : Opcode → Int64
  | .csti => 0
  | .add => 1
  | .sub => 2
  | .mul => 3
  | .div => 4
  | .mod => 5
  | .eq => 6
  | .lt => 7
  | .not => 8
  | .dup => 9
  | .swap => 10
  | .ldi => 11
  | .sti => 12
  | .getbp => 13
  | .getsp => 14
  | .incsp => 15
  | .goto => 16
  | .ifzero => 17
  | .ifnzro => 18
  | .call => 19
  | .tcall => 20
  | .ret => 21
  | .printi => 22
  | .printc => 23
  | .ldargs => 24
  | .stop => 25
  | .nil => 26
  | .cons => 27
  | .car => 28
  | .cdr => 29
  | .setcar => 30
  | .setcdr => 31

/-- The operation with a given number. -/
def ofCode? (word : Int64) : Option Opcode :=
  if 0 ≤ word then all[word.toNatClampNeg]? else none

/-- The mnemonic. -/
def name : Opcode → String
  | .csti => "CSTI"
  | .add => "ADD"
  | .sub => "SUB"
  | .mul => "MUL"
  | .div => "DIV"
  | .mod => "MOD"
  | .eq => "EQ"
  | .lt => "LT"
  | .not => "NOT"
  | .dup => "DUP"
  | .swap => "SWAP"
  | .ldi => "LDI"
  | .sti => "STI"
  | .getbp => "GETBP"
  | .getsp => "GETSP"
  | .incsp => "INCSP"
  | .goto => "GOTO"
  | .ifzero => "IFZERO"
  | .ifnzro => "IFNZRO"
  | .call => "CALL"
  | .tcall => "TCALL"
  | .ret => "RET"
  | .printi => "PRINTI"
  | .printc => "PRINTC"
  | .ldargs => "LDARGS"
  | .stop => "STOP"
  | .nil => "NIL"
  | .cons => "CONS"
  | .car => "CAR"
  | .cdr => "CDR"
  | .setcar => "SETCAR"
  | .setcdr => "SETCDR"

/-- The number of operands. -/
def arity : Opcode → Nat
  | .csti | .incsp | .goto | .ifzero | .ifnzro | .ret => 1
  | .call => 2
  | .tcall => 3
  | _ => 0

theorem ofCode?_code (op : Opcode) : ofCode? op.code = some op := by
  cases op <;> rfl

end Opcode

end ConsMachine
