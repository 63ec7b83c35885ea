import ConsMachine.Heap.Basic

/-!
# The blocks of a heap

Walking the heap from index 0, each header leads to the next. `Heap.blocks` are the blocks met on
the way, in address order, and the fault that ended the walk before the end of the heap, if any.
-/

namespace ConsMachine

/-- A block of the heap: where it starts, and its header. -/
structure Block where
  index : Nat
  header : Header
deriving DecidableEq

namespace Block

/-- The reference to the block. -/
def ref (b : Block) : Ref := .ofHeader b.index

/-- The index just past the block. -/
def next (b : Block) : Nat := b.index + b.header.length + 1

/-- A block without data words. -/
def isOrphan (b : Block) : Bool := b.header.length == 0

end Block

namespace Heap

/-- The blocks from `index` on, and what is wrong at the index where no block follows. -/
def blocksFrom (h : Heap) (index : Nat) : List Block × Option Fault :=
  if _ : index < h.capacity then
    match h.headerAt index with
    | .error fault => ([], some fault)
    | .ok header =>
      if index + header.length + 1 ≤ h.capacity then
        let (blocks, fault) := h.blocksFrom (index + header.length + 1)
        (⟨index, header⟩ :: blocks, fault)
      else ([], some (.blockBeyondHeap index))
  else ([], none)
termination_by h.capacity - index

/-- The blocks of the heap, and the fault that ended the walk early. -/
def blocks (h : Heap) : List Block × Option Fault := h.blocksFrom 0

/-- The blocks of the heap, if they fill it. -/
def partition (h : Heap) : Except Fault (List Block) :=
  match h.blocks with
  | (blocks, none) => .ok blocks
  | (_, some fault) => .error fault

/-- The data words of a block. -/
def dataOf (h : Heap) (b : Block) : List Word :=
  (h.words.extract (b.index + 1) b.next).toList

end Heap

end ConsMachine
