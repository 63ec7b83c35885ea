import ConsMachine.Heap.Blocks

/-!
# Integrity

`Heap.check` tells whether a heap is in order: the blocks fill it, and the free list ends and holds
only blocks of the heap that are free, none of them an orphan and none of them twice.
-/

namespace ConsMachine.Heap

/-- Checks the free list from `free` on. The headers of all blocks are at `starts`, those of the
blocks that the list has not visited yet at `unvisited`. -/
def checkFree (h : Heap) (starts unvisited : List Nat) (item : Nat) (free : Ref) :
    Except Fault Unit :=
  if free.isNull then .ok ()
  else if h.capacity ≤ free.index ∨ free.headerIndex ∉ starts then
    .error (.freeEntryOutsideHeap item free.index)
  else if _ : free.headerIndex ∈ unvisited then
    match h.headerAt free.headerIndex with
    | .error fault => .error fault
    | .ok header =>
      if header.isFree && header.length != 0 then
        match h.link free with
        | .error fault => .error fault
        | .ok next => h.checkFree starts (unvisited.erase free.headerIndex) (item + 1) next
      else .error (.unfitFreeEntry free.headerIndex header.color)
  else .error .cyclicFreeList
termination_by unvisited.length
decreasing_by
  rw [List.length_erase_of_mem ‹_›]
  have := List.length_pos_of_mem ‹free.headerIndex ∈ unvisited›
  omega

/-- Checks that the heap is in order. -/
def check (h : Heap) : Except Fault Unit :=
  match h.partition with
  | .error fault => .error fault
  | .ok blocks =>
    let starts := blocks.map Block.index
    h.checkFree starts starts 1 h.freeList

end ConsMachine.Heap
