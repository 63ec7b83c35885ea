import ConsMachine.Heap.Marking
import ConsMachine.Heap.Sweeping

/-!
# Allocation

A block is cut from the first entry of the free list that is long enough. If there is none, the
heap is collected once and searched again.

## Main definitions

* `Heap.search` — the first entry that is long enough, as a `Fit`.
* `Heap.carve` — cuts the block and mends the free list.
* `Heap.collect` — marks and sweeps.
* `Heap.allocate` — search, and collect if need be.
-/

namespace ConsMachine

/-- An entry of the free list from which a block can be cut. -/
structure Fit where
  /-- The entry before it; the first entry has none. -/
  previous : Option Ref
  block : Ref
  /-- The number of data words of the entry. -/
  available : Nat
  /-- The entry after it. -/
  next : Ref
deriving DecidableEq

namespace Heap

/-! ## Search -/

/-- The length and the link of an entry of the free list. The block there must be free and must
have room for a link. -/
def freeEntry (h : Heap) (r : Ref) : Except Fault (Nat × Ref) :=
  match h.headerAt r.headerIndex with
  | .error fault => .error fault
  | .ok header =>
    if header.isFree && header.length != 0 then
      match h.link r with
      | .error fault => .error fault
      | .ok next => .ok (header.length, next)
    else .error (.unfitFreeEntry r.headerIndex header.color)

/-- The first entry from `free` on that has at least `length` data words. At most `budget` entries
are examined. -/
def searchFrom (h : Heap) (length budget : Nat) (previous : Option Ref) (free : Ref) :
    Except Failure (Option Fit) :=
  if free.isNull then .ok none
  else
    match budget with
    | 0 => .error (.breach .endlessSearch)
    | budget + 1 =>
      match h.freeEntry free with
      | .error fault => .error (.fault fault)
      | .ok (available, next) =>
        if length ≤ available then .ok (some ⟨previous, free, available, next⟩)
        else h.searchFrom length budget (some free) next

/-- The first entry of the free list that is long enough. A list without repetition has fewer
entries than the heap has words, so one that has more is cyclic and the search would not end. -/
def search (h : Heap) (length : Nat) : Except Failure (Option Fit) :=
  h.searchFrom length h.capacity none h.freeList

/-! ## Cutting a block -/

/-- Makes `next` the entry after `previous`. -/
def relink (previous : Option Ref) (next : Ref) : Action Unit :=
  match previous with
  | none => modify fun h => { h with freeList := next }
  | some r => write r.index (.ref next)

/-- Stores integer 0 in `count` words. -/
def clear (index count : Nat) : Action Unit :=
  match count with
  | 0 => pure ()
  | count + 1 => do
    write index .zero
    clear (index + 1) count

/-- Cuts a block of `length` data words from the front of a free block. One word left over cannot
hold a link and becomes an orphan; more become a free block in the place of the old one. -/
def carve (tag : Tag) (length : Nat) (fit : Fit) : Action Unit := do
  let after := fit.block.headerIndex + length + 1
  match fit.available - length with
  | 0 => relink fit.previous fit.next
  | 1 =>
    relink fit.previous fit.next
    write after (.header (.unused 0))
  | rest + 1 =>
    write after (.header (.unused rest))
    write (after + 1) (.ref fit.next)
    relink fit.previous (.ofHeader after)
  write fit.block.headerIndex (.header ⟨tag, length, .white⟩)
  clear fit.block.index length

/-- Allocates from the free list as it is. -/
def tryAllocate (tag : Tag) (length : Nat) : Action (Option Ref) := fun h =>
  match h.search length with
  | .error failure => .error failure h
  | .ok none => .ok none h
  | .ok (some fit) =>
    match carve tag length fit h with
    | .error failure h => .error failure h
    | .ok () h => .ok (some fit.block) h

/-! ## Collection and allocation -/

/-- Reclaims every block that the roots do not lead to. -/
def collect (roots : List Word) : Action Unit := do
  mark roots
  sweep
  modify fun h => { h with collections := h.collections + 1 }

/-- Counts an allocation. -/
def allocated (r : Ref) : Action Ref := do
  modify fun h => { h with allocations := h.allocations + 1 }
  return r

/-- Allocates a block of `length` data words that hold integer 0. If no entry of the free list is
long enough, what the roots do not lead to is collected first. -/
def allocate (tag : Tag) (length : Nat) (roots : List Word) : Action Ref := do
  match ← tryAllocate tag length with
  | some r => allocated r
  | none =>
    collect roots
    match ← tryAllocate tag length with
    | some r => allocated r
    | none => throw (.fault .outOfMemory)

end Heap

end ConsMachine
