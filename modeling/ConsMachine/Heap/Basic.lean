import ConsMachine.Fault

/-!
# The heap

One array of words, cut into blocks that follow each other without gaps. A block is a header and as
many data words as the header says. Blocks that are not in use are threaded into the free list
through their first data word; a block without data words, an orphan, cannot be on it.

```text
  heap[0]         heap[1]  heap[2]  heap[3]         heap[4]  ...
  <Cons 2 White>  car      cdr      <Free 5 Blue>   link
```

## Main definitions

* `Heap`, `Heap.new` — the array with its registers, and the heap of one free block.
* `Heap.headerAt`, `Heap.headerOf` — the header at an index, and of the block a reference leads to.
* `Heap.Action` — an operation on the heap, which leaves its changes also when it fails.
* `Heap.field`, `Heap.setField` — one data word of a block.
-/

namespace ConsMachine

/-- The heap. -/
structure Heap where
  words : Array Word
  /-- The first entry of the free list. -/
  freeList : Ref
  /-- How many blocks have been allocated. -/
  allocations : Nat
  /-- How many collections have been completed. -/
  collections : Nat
deriving DecidableEq

namespace Heap

def capacity (h : Heap) : Nat := h.words.size

/-- Replaces one word. -/
def put (h : Heap) (index : Nat) (word : Word) : Heap :=
  { h with words := h.words.setIfInBounds index word }

/-- The smallest heap has room for a header and a link. -/
def minimumCapacity : Nat := 2

/-- A heap of one free block. -/
def new (capacity : Nat) : Except Fault Heap :=
  if capacity < minimumCapacity then
    .error (.heapTooSmall capacity)
  else
    .ok {
      words := ((Array.replicate capacity .zero).setIfInBounds 0
        (.header (.unused (capacity - 1)))).setIfInBounds 1 .null
      freeList := .ofHeader 0
      allocations := 0
      collections := 0 }

/-! ## Headers -/

/-- The header at `index`. -/
def headerAt (h : Heap) (index : Nat) : Except Fault Header :=
  match h.words[index]? with
  | some (.header header) => .ok header
  | some word => .error (.notAHeader index word)
  | none => .error (.blockBeyondHeap index)

/-- The header of the block that `r` leads to. A reference dangles if it is null, if it leads out
of the heap, or if no header stands before the word it leads to. -/
def headerOf (h : Heap) (r : Ref) : Except Fault Header :=
  if r.isNull || h.capacity ≤ r.index then
    .error (.danglingReference r)
  else
    match h.words[r.headerIndex]? with
    | some (.header header) => .ok header
    | _ => .error (.danglingReference r)

/-- Changes the color of the block that `r` leads to. -/
def paint (h : Heap) (r : Ref) (color : Color) : Heap :=
  match h.words[r.headerIndex]? with
  | some (.header header) => h.put r.headerIndex (.header (header.paint color))
  | _ => h

/-! ## Data words -/

/-- The `length` words from the one that `r` leads to, if the array holds them all. -/
def data? (h : Heap) (r : Ref) (length : Nat) : Option (List Word) :=
  if r.index + length ≤ h.capacity then
    some (h.words.extract r.index (r.index + length)).toList
  else none

/-- The link from one entry of the free list to the next. -/
def link (h : Heap) (r : Ref) : Except Fault Ref :=
  match h.words[r.index]? with
  | some (.ref next) => .ok next
  | some word => .error (.notAHeader r.index word)
  | none => .error (.blockBeyondHeap r.headerIndex)

/-! ## Laws of the array -/

@[simp] theorem capacity_put (h : Heap) (index : Nat) (word : Word) :
    (h.put index word).capacity = h.capacity := by
  simp [put, capacity]

theorem getElem?_put (h : Heap) (index other : Nat) (word : Word) :
    (h.put index word).words[other]? =
      if other = index ∧ index < h.capacity then some word else h.words[other]? := by
  simp only [put, capacity, Array.getElem?_setIfInBounds]
  grind

@[simp] theorem freeList_put (h : Heap) (index : Nat) (word : Word) :
    (h.put index word).freeList = h.freeList := rfl

@[simp] theorem capacity_paint (h : Heap) (r : Ref) (color : Color) :
    (h.paint r color).capacity = h.capacity := by
  unfold paint
  split <;> simp

/-- A reference that does not dangle has a header before it, inside the heap. -/
theorem getElem?_of_headerOf {h : Heap} {r : Ref} {header : Header}
    (hh : h.headerOf r = .ok header) : h.words[r.headerIndex]? = some (.header header) := by
  unfold headerOf at hh
  split at hh
  · cases hh
  · split at hh
    · next hget => cases hh; exact hget
    · cases hh

/-! ## Operations -/

/-- An operation on the heap. A failure leaves the changes made before it. -/
abbrev Action := EStateM Failure Heap

/-- Replaces one word, which must be in the array. -/
def write (index : Nat) (word : Word) : Action Unit := fun h =>
  if index < h.capacity then .ok () (h.put index word)
  else .error (.breach .outsideArray) h

/-- Data word `offset` of a block. -/
def field (r : Ref) (offset : Nat) : Action Word := fun h =>
  match h.headerOf r with
  | .error fault => .error (.fault fault) h
  | .ok header =>
    if offset < header.length then
      match h.words[r.index + offset]? with
      | some word => .ok word h
      | none => .error (.breach .outsideArray) h
    else .error (.fault (.danglingReference r)) h

/-- Replaces data word `offset` of a block. -/
def setField (r : Ref) (offset : Nat) (value : Word) : Action Unit := fun h =>
  match h.headerOf r with
  | .error fault => .error (.fault fault) h
  | .ok header =>
    if offset < header.length then write (r.index + offset) value h
    else .error (.fault (.danglingReference r)) h

end Heap

end ConsMachine
