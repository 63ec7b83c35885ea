import ConsMachine.Heap.Census
import ConsMachine.Machine.Basic
import ConsMachine.Text.Table

/-!
# Displays

Tables of stored words: of a row of numbered registers, of the blocks of a heap, and of a whole
machine with both side by side.

## Main definitions

* `registerTable` — words with their addresses.
* `Heap.blockTable` — the blocks of a heap, one row each.
* `Heap.display`, `Machine.display` — everything there is to see.
-/

namespace ConsMachine

open Text

/-- The address of entry `index` of a store, with an arrow if it is pointed to. -/
def addressText (name : String) (index : Nat) (marked : Bool) : String :=
  (if marked then "* --> " else "") ++ name ++ "[" ++ toString index ++ "] ="

/-- Words with their addresses in the store `name`, one of them marked. -/
def registerTable (name : String) (words : List Word) (marked : Option Nat) : Table where
  titles := [.right "Address", .left "Contents"]
  rows := words.mapIdx fun i word =>
    [.right (addressText name i (marked == some i)), .left word.text]

namespace Heap

/-- The data words of a block in use; of a free block, what its link says. -/
def contentsText (h : Heap) (b : Block) : String :=
  match b.header.tag with
  | .cons => ", ".intercalate ((h.dataOf b).map Word.text)
  | .free =>
    match h.dataOf b with
    | [] => ""
    | link :: _ => "next: " ++ link.text

/-- One row a block, the first entry of the free list marked; if the blocks do not fill the heap,
the last row says why. -/
def blockTable (h : Heap) : Table :=
  let (blocks, fault) := h.blocks
  let rows := blocks.map fun b =>
    [Cell.right (addressText "heap" b.index (b.ref == h.freeList)), .left b.header.text,
      .left (h.contentsText b)]
  let last := fault.toList.map fun fault => [.right "!", .left "", .left fault.message]
  { titles := [.right "Address", .left "Header", .left "Contents"], rows := rows ++ last }

/-- The census, or what keeps the heap from having one, and the blocks. -/
def display (h : Heap) : String :=
  let census :=
    match h.census with
    | .ok census => census.text
    | .error fault => fault.message
  census ++ "\n" ++ h.blockTable.render

end Heap

/-- The registers, and stack and heap side by side. The top of the stack is marked. -/
def Machine.display (m : Machine) : String :=
  let top := if m.stack.pointer < 0 then none else some m.stack.pointer.toNat
  let stack := registerTable "S" m.stack.live top
  let both : Table := {
    titles := [.left "Stack", .left "Heap"]
    rows := [[.left stack.render, .left m.heap.blockTable.render]] }
  "PC: " ++ toString m.pc ++ "\tBP: " ++ toString m.bp.toInt ++ "\tSP: " ++
    toString m.stack.pointer ++ "\n" ++ both.render

end ConsMachine
