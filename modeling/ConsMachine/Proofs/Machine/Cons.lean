import ConsMachine.Proofs.Heap.Cells
import ConsMachine.Proofs.Machine.Instructions

/-!
# The allocating instruction

In a sound machine, the instruction that makes a cell fails only if the stack has fewer than two
words or if the cells that the live words reach leave no room for another one.

## Main definitions

* `Machine.Sound` — the heap of so many words is sound, and the live words lead to cells in use.
* `Machine.MadeCell` — a cell has been made of two words.
* `Machine.reached` — the cells that the live words reach.
-/

namespace ConsMachine.Machine

/-- What holds between two steps of a run. -/
structure Sound (m : Machine) (heapSize : Nat) : Prop where
  capacity : m.heap.capacity = heapSize
  bounded : m.stack.Bounded
  heap : m.heap.Sound
  cellular : m.heap.Cellular
  live : ∀ w ∈ m.stack.live, m.heap.Valid w

/-- `m'` is `m` after the two words on top have gone into a new cell. The cell has been taken from
`g`, what `m` has as its heap or what a collection has made of it. -/
structure MadeCell (m : Machine) (car cdr : Word) (g : Heap) (new : Ref) (m' : Machine) : Prop where
  first : m.stack.slots[m.stack.height - 2]? = some car
  second : m.stack.slots[m.stack.height - 1]? = some cdr
  cleared : Heap.Cleared 2 m.heap m.stack.live g
  newCell : Heap.NewCell g new car cdr m'.heap
  rest : m' = { m with
    heap := m'.heap
    stack := (m.stack.store (m.stack.height - 2) [.ref new]).drop }

/-- The cells that the program can get at. -/
def reached (m : Machine) : Set Ref := m.heap.reached m.stack.live

variable {m : Machine} {heapSize : Nat}

namespace Sound

theorem fits (hs : m.Sound heapSize) : m.stack.height ≤ m.stack.size := hs.bounded.height_le

theorem exists_slot (hs : m.Sound heapSize) {k : Nat} (hk : k < m.stack.height) :
    ∃ w, m.stack.slots[k]? = some w ∧ w ∈ m.stack.live := by
  have hfits := hs.fits
  have hlt : k < m.stack.slots.size := Nat.lt_of_lt_of_le hk hfits
  exact ⟨m.stack.slots[k], Array.getElem?_eq_getElem hlt,
    (Stack.mem_live hfits).2 ⟨k, hk, Array.getElem?_eq_getElem hlt⟩⟩

/-- Moving the program counter and counting the instruction changes nothing else. -/
theorem decoded (hs : m.Sound heapSize) (pc executed : Nat) :
    Sound { m with pc, executed } heapSize :=
  ⟨hs.capacity, hs.bounded, hs.heap, hs.cellular, hs.live⟩

end Sound

theorem cons_underflow (hlow : m.stack.height < 2) :
    cons m = .error (.fault .stackUnderflow) m := by
  have hget : m.stack.get (m.stack.pointer - 1) = .error .stackUnderflow := by
    unfold Stack.height at hlow
    rw [Stack.get, if_pos (by omega)]
  rw [cons_eq]
  exact bind_of_error (ofStack_error hget)

theorem cons_spec (hs : m.Sound heapSize) (htwo : 2 ≤ m.stack.height) :
    Outcome (fun _ m' => ∃ car cdr g new, m.MadeCell car cdr g new m')
      (fun failure m' => failure = .fault .outOfMemory ∧ ¬ m.heap.HasRoom 2 ∧
        m.heap.Collected m.stack.live m'.heap ∧ ¬ m'.heap.HasRoom 2 ∧
        m' = { m with heap := m'.heap })
      (cons m) := by
  obtain ⟨car, hcar, hcarLive⟩ := hs.exists_slot (k := m.stack.height - 2) (by omega)
  obtain ⟨cdr, hcdr, hcdrLive⟩ := hs.exists_slot (k := m.stack.height - 1) (by omega)
  have hpointer := hs.bounded.pointer_eq
  have hgetCar : m.stack.get (m.stack.pointer - 1) = .ok car := by
    refine Stack.get_eq_ok.2 ⟨by omega, ?_⟩
    rwa [show (m.stack.pointer - 1).toNat = m.stack.height - 2 by omega]
  have hgetCdr : m.stack.top = .ok cdr := by
    refine Stack.get_eq_ok.2 ⟨by omega, ?_⟩
    rwa [show m.stack.pointer.toNat = m.stack.height - 1 by omega]
  rw [cons_eq, bind_of_ok (ofStack_ok hgetCar), bind_of_ok (ofStack_ok hgetCdr)]
  refine ((onHeap_spec (Heap.allocate_spec hs.heap hs.live (by decide))).mono (fun _ _ => id)
    fun failure m' ⟨⟨he, hno, hc, hno'⟩, hm'⟩ => ⟨he, hno, hc, hno', hm'⟩).bind
    fun cell m₁ ⟨⟨g, hclear, hall⟩, hm₁⟩ => ?_
  have hgs := hclear.sound hs.heap hs.live
  have hgc := hclear.cellular hs.cellular
  have hvcar := hclear.valid_roots hs.heap hs.live hcarLive
  have hvcdr := hclear.valid_roots hs.heap hs.live hcdrLive
  have hp := hall.orderly.partitioned
  refine ((onHeap_spec (Heap.setField_spec car hp hall.isCell (by decide))).mono (fun _ _ => id)
    fun _ _ hf => hf.1.elim).bind fun _ m₂ ⟨hcarSet, hm₂⟩ => ?_
  have hp₂ : m₂.heap.Partitioned := (hcarSet.orderly hall.orderly hall.isCell rfl (by decide)
    hvcar.noHeader).partitioned
  have hcell₂ := (hcarSet.isCell_iff hp hall.isCell (by decide) hvcar.noHeader).2 hall.isCell
  refine ((onHeap_spec (Heap.setField_spec cdr hp₂ hcell₂ (by decide))).mono (fun _ _ => id)
    fun _ _ hf => hf.1.elim).bind fun _ m₃ ⟨hcdrSet, hm₃⟩ => ?_
  refine ⟨car, cdr, g, cell, hcar, hcdr, hclear,
    hall.newCell hgs hgc hvcar hvcdr hcarSet hcdrSet, ?_⟩
  rw [hm₃, hm₂, hm₁]

end ConsMachine.Machine
