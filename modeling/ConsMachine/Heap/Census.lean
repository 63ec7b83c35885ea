import ConsMachine.Heap.Blocks

/-!
# Census

The figures of a heap: how many blocks it has and how many of them the free list holds, with their
words. Both walks end in a fault if they leave the heap, and a free list with more entries than
there are blocks is cyclic.
-/

namespace ConsMachine

/-- The figures of a heap. -/
structure Census where
  /-- Blocks with at least one data word. -/
  blocks : Nat
  /-- Their data words. -/
  blockWords : Nat
  /-- Entries of the free list. -/
  free : Nat
  /-- Their data words. -/
  freeWords : Nat
  /-- The data words of the longest entry. -/
  largestFree : Nat
  /-- Blocks without data words. -/
  orphans : Nat
deriving DecidableEq

namespace Census

def empty : Census := ⟨0, 0, 0, 0, 0, 0⟩

/-- Counts a block of the heap. -/
def addBlock (c : Census) (b : Block) : Census :=
  if b.isOrphan then { c with orphans := c.orphans + 1 }
  else { c with blocks := c.blocks + 1, blockWords := c.blockWords + b.header.length }

/-- Counts an entry of the free list. -/
def addFree (c : Census) (length : Nat) : Census :=
  { c with
    free := c.free + 1
    freeWords := c.freeWords + length
    largestFree := max c.largestFree length }

/-- The figures in words. -/
def text (c : Census) : String :=
  s!"Heap: {c.blocks} blocks ({c.blockWords} words); of which {c.free} free " ++
  s!"({c.freeWords} words, largest {c.largestFree} words); {c.orphans} orphans"

end Census

namespace Heap

/-- Counts the entries of the free list from `free` on, after those that `c` counts already. -/
def countFree (h : Heap) (c : Census) (free : Ref) : Except Fault Census :=
  if free.isNull then .ok c
  else
    let item := c.free + 1
    if h.capacity ≤ free.index then .error (.freeEntryOutsideHeap item free.index)
    else
      match h.headerAt free.headerIndex with
      | .error fault => .error fault
      | .ok header =>
        if h.capacity < free.headerIndex + header.length + 1 then
          .error (.freeEntryOutsideHeap item free.headerIndex)
        else if _ : c.blocks < item then .error .cyclicFreeList
        else
          match h.link free with
          | .error fault => .error fault
          | .ok next => h.countFree (c.addFree header.length) next
termination_by c.blocks - c.free
decreasing_by
  simp only [Census.addFree]
  omega

/-- The figures of the heap. -/
def census (h : Heap) : Except Fault Census :=
  match h.partition with
  | .error fault => .error fault
  | .ok blocks => h.countFree (blocks.foldl Census.addBlock .empty) h.freeList

end Heap

end ConsMachine
