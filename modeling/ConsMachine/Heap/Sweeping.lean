import ConsMachine.Heap.Basic

/-!
# Sweeping

The second half of a collection walks the heap once. Black blocks have survived and turn white.
Every run of neighboring white and blue blocks is dead and becomes one blue block; it goes to the
front of the free list, which is built anew, unless it has no data words.

## Main definitions

* `Heap.absorb` — joins the dead blocks that follow a dead run to it.
* `Heap.release` — makes a dead run a free block.
* `Heap.sweep` — the whole walk.
-/

namespace ConsMachine.Heap

/-- Extends the dead run of `length` data words at `index` by the unmarked blocks that directly
follow it. The words of their headers are cleared. The value is the length of the run then. -/
def absorb (h : Heap) (index length : Nat) : EStateM.Result Failure Heap Nat :=
  let next := index + length + 1
  if _ : next < h.capacity then
    match h.headerAt next with
    | .error fault => .error (.fault fault) h
    | .ok following =>
      if following.color.isUnmarked then
        if next + following.length + 1 ≤ h.capacity then
          (h.put next .zero).absorb index (length + following.length + 1)
        else .error (.fault (.blockBeyondHeap next)) h
      else .ok length h
  else .ok length h
termination_by h.capacity - (index + length + 1)
decreasing_by
  simp only [capacity_put]
  omega

/-- Makes the run of `length` data words at `index` one block that is not in use, and puts it in
front of the free list if it can hold a link. -/
def release (index length : Nat) : Action Unit := fun h =>
  (do write index (.header (.unused length))
      if 0 < length then
        write (index + 1) (.ref h.freeList)
        modify fun h => { h with freeList := .ofHeader index } : Action Unit) h

theorem capacity_write {h h' : Heap} {index : Nat} {word : Word}
    (hw : write index word h = .ok () h') : h'.capacity = h.capacity := by
  unfold write at hw
  split at hw <;> cases hw
  exact capacity_put ..

theorem capacity_release {h h' : Heap} {index length : Nat}
    (hr : release index length h = .ok () h') : h'.capacity = h.capacity := by
  simp only [release, bind, EStateM.bind] at hr
  split at hr
  · next hw =>
    rw [← capacity_write hw]
    split at hr
    · simp only [EStateM.bind] at hr
      split at hr
      · next hw' =>
        rw [← capacity_write hw']
        cases hr
        rfl
      · cases hr
    · cases hr
      rfl
  · cases hr

theorem capacity_absorb {h h' : Heap} {index length length' : Nat}
    (ha : h.absorb index length = .ok length' h') : h'.capacity = h.capacity := by
  fun_induction absorb h index length <;> simp_all

/-- Sweeps the blocks from `index` on. -/
def sweepFrom (h : Heap) (index : Nat) : EStateM.Result Failure Heap Unit :=
  if _ : index < h.capacity then
    match h.headerAt index with
    | .error fault => .error (.fault fault) h
    | .ok header =>
      if index + header.length + 1 ≤ h.capacity then
        match header.color with
        | .black =>
          (h.put index (.header (header.paint .white))).sweepFrom (index + header.length + 1)
        | .grey => .error (.fault (.greyAtSweep index)) h
        | .white | .blue =>
          match _ : h.absorb index header.length with
          | .error failure h' => .error failure h'
          | .ok length h' =>
            match _ : release index length h' with
            | .error failure h'' => .error failure h''
            | .ok () h'' => h''.sweepFrom (index + length + 1)
      else .error (.fault (.blockBeyondHeap index)) h
  else .ok () h
termination_by h.capacity - index
decreasing_by
  · simp only [capacity_put]
    omega
  · have := capacity_absorb ‹_›
    have := capacity_release ‹_›
    omega

/-- Frees every block that is not black, turns the black ones white and builds the free list
anew. -/
def sweep : Action Unit := fun h => sweepFrom { h with freeList := .null } 0

end ConsMachine.Heap
