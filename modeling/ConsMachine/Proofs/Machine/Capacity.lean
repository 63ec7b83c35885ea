import ConsMachine.Proofs.Heap.Capacity
import ConsMachine.Proofs.Machine.Soundness

/-!
# Exact capacity

In a disciplined run no place for a cell is ever lost. A step that makes a cell collects exactly
when all places are taken, and it fails exactly when the live words reach as many cells as there are
places.

## Main definitions

* `Session.makesCell` — the next step makes a cell.
* `Session.UsesCapacity` — it does so as long as there is a place for one that is not reached.
-/

namespace ConsMachine

namespace Machine

variable {m : Machine} {heapSize : Nat}

/-- The collections counted after a cell has been made, or has failed to be made. -/
def collectionsWhenFull (m : Machine) : Nat :=
  if m.heap.cells = m.heap.capacity / 3 then m.heap.collections + 1 else m.heap.collections

/-- The live words reach as many cells as there are places. -/
def ReachesAll (m : Machine) : Prop :=
  m.reached.encard = (m.heap.capacity / 3 : Nat)

theorem cons_capacity (hs : m.Sound heapSize) (htwo : 2 ≤ m.stack.height) (pc executed : Nat) :
    Outcome (fun _ m' => m'.heap.collections = m.collectionsWhenFull ∧ ¬ m.ReachesAll)
      (fun failure m' => m'.heap.collections = m.collectionsWhenFull ∧ m.ReachesAll ∧
        failure = .fault .outOfMemory)
      (cons { m with pc, executed }) := by
  have hfull := hs.cellular.cells_eq_iff hs.heap.orderly
  -- After a collection, the cells left are those reached.
  have left : ∀ {g : Heap}, m.heap.Collected m.stack.live g →
      (m.ReachesAll ↔ ¬ g.HasRoom 2) := by
    intro g hg
    rw [ReachesAll, reached, hg.encard_reached hs.heap hs.cellular hs.live, ENat.natCast_inj,
      ← hg.capacity]
    exact (hg.cellular hs.cellular).cells_eq_iff hg.orderly
  have hcons := cons_spec (hs.decoded pc executed) htwo
  simp only [collectionsWhenFull]
  refine hcons.mono (fun _ m' ⟨_, _, g, _, _, _, hclear, hnew, _⟩ => ?_)
    fun failure m' ⟨hf, hno, hg, hno', _⟩ => ?_
  · rw [hnew.collections]
    cases hclear with
    | roomy hroom heq =>
      have hfree : ¬ m.heap.cells = m.heap.capacity / 3 := fun h => hfull.1 h hroom
      refine ⟨by rw [if_neg hfree, heq], ?_⟩
      intro hreached
      exact hs.heap.not_hasRoom_of_reached hs.cellular hs.live hreached hroom
    | collected hno hg hroom =>
      refine ⟨by rw [if_pos (hfull.2 hno), hg.collections], ?_⟩
      intro hreached
      exact (left hg).1 hreached hroom
  · exact ⟨by rw [if_pos (hfull.2 hno), hg.collections], (left hg).2 hno', hf⟩

end Machine

namespace Session

variable {s : Session} {heapSize : Nat}

/-- The next step comes to execute the instruction that makes a cell, and finds both words. -/
def makesCell (s : Session) : Bool :=
  match announce s with
  | .ok () s' =>
    s'.machine.ofInstruction (fun i stack => i.opcode == .cons && 2 ≤ stack.height) false
  | .error _ _ => false

/-- The next step collects exactly when as many cells are in use as fit in `heapSize` words, and
fails exactly when as many are reached. -/
structure UsesCapacity (s : Session) (heapSize : Nat) : Prop where
  collects : s.after.machine.heap.collections = s.machine.heap.collections + 1 ↔
    s.machine.heap.cells = heapSize / 3
  rests : s.machine.heap.cells ≠ heapSize / 3 →
    s.after.machine.heap.collections = s.machine.heap.collections
  fails : (∃ failure t, step s = .error failure t) ↔
    s.machine.reached.encard = (heapSize / 3 : Nat)
  cause : ∀ failure t, step s = .error failure t → failure = .fault .outOfMemory

theorem makesCell_iff : s.makesCell = true ↔ (∃ s', announce s = .ok () s') ∧
    (∃ next, Instruction.decode s.machine.code s.machine.pc = .ok (⟨.cons, []⟩, next)) ∧
    2 ≤ s.machine.stack.height := by
  simp only [makesCell]
  cases ha : announce s with
  | error _ _ => simp
  | ok _ s' =>
    have hmachine : s'.machine = s.machine := announce_spec.of_ok ha
    simp only [hmachine, Machine.ofInstruction]
    cases hd : Instruction.decode s.machine.code s.machine.pc with
    | error _ => simp
    | ok decoded =>
      obtain ⟨⟨opcode, operands⟩, next⟩ := decoded
      have hwf := Instruction.wellFormed_of_decode hd
      simp only [Bool.and_eq_true, beq_iff_eq, decide_eq_true_eq, EStateM.Result.ok.injEq,
        Except.ok.injEq, Prod.mk.injEq, Instruction.mk.injEq]
      constructor
      · rintro ⟨rfl, htwo⟩
        exact ⟨⟨s', trivial, rfl⟩, ⟨next, ⟨rfl, List.length_eq_zero_iff.1 hwf⟩, rfl⟩, htwo⟩
      · rintro ⟨-, ⟨_, ⟨rfl, -⟩, -⟩, htwo⟩
        exact ⟨rfl, htwo⟩

/-- A step that makes a cell does to the machine what the instruction does. -/
theorem step_spec_of_makesCell {returns : Unit → Machine → Prop}
    {fails : Failure → Machine → Prop} (hm : s.makesCell = true)
    (hcons : ∀ pc executed, Outcome returns fails (Machine.cons { s.machine with pc, executed })) :
    Outcome (fun _ t => returns () t.machine) (fun failure t => fails failure t.machine)
      (step s) := by
  obtain ⟨⟨s', hannounce⟩, ⟨next, hdecode⟩, -⟩ := makesCell_iff.1 hm
  refine (announce_spec.and_eq.mono (fun _ _ h => h.2) fun _ _ h => ?_).bind fun _ t ht => ?_
  · cases hannounce.symm.trans h.1
  · have hmachine : Outcome (fun event m => event = .silent ∧ returns () m) fails
        (Machine.step t.machine) := by
      rw [ht, Machine.step, hdecode]
      exact (hcons next _).bind fun _ _ hr => ⟨rfl, hr⟩
    refine (onMachine_spec hmachine).bind ?_
    intro event u hu
    rw [hu.1]
    exact hu.2

theorem usesCapacity (hs : s.machine.Sound heapSize) (hm : s.makesCell = true) :
    s.UsesCapacity heapSize := by
  have hstep := step_spec_of_makesCell hm (Machine.cons_capacity hs (makesCell_iff.1 hm).2.2)
  have hcollections : s.after.machine.heap.collections = s.machine.collectionsWhenFull := by
    simp only [after]
    cases hr : step s with
    | ok _ t => exact (hstep.of_ok hr).1
    | error _ t => exact (hstep.of_error hr).1
  rw [Machine.collectionsWhenFull, hs.capacity] at hcollections
  refine ⟨?_, ?_, ⟨?_, ?_⟩, ?_⟩
  · rw [hcollections]
    split <;> simp_all
  · intro hfree
    rwa [if_neg hfree] at hcollections
  · rintro ⟨failure, t, hr⟩
    rw [← hs.capacity]
    exact (hstep.of_error hr).2.1
  · intro hreached
    rw [← hs.capacity] at hreached
    cases hr : step s with
    | ok _ t => exact absurd hreached (hstep.of_ok hr).2
    | error failure t => exact ⟨failure, t, rfl⟩
  · intro failure t hr
    exact (hstep.of_error hr).2.2

/-- Every step of a disciplined run that makes a cell uses the whole capacity of the heap. -/
theorem exact_capacity_of_disciplined (code arguments : List Int64) {heapSize : Nat}
    (stackSize : Nat) (hsize : 2 ≤ heapSize) :
    ∃ m, Machine.new code arguments heapSize stackSize = .ok m ∧ ∀ traced sink n,
      (∀ k < n, (after^[k] ⟨m, traced, sink⟩).frameDisciplined = true) →
        (after^[n] ⟨m, traced, sink⟩).makesCell = true →
          (after^[n] ⟨m, traced, sink⟩).UsesCapacity heapSize := by
  obtain ⟨m, hnew, hs⟩ := Machine.new_sound code arguments stackSize hsize
  refine ⟨m, hnew, fun traced sink n hd hm => usesCapacity ?_ hm⟩
  exact iterate_sound hs fun k hk => regainsValid_of_frameDisciplined (hd k hk)

/-- A heap of five words has one place. The second cell is made after the first one has been
dropped, and the third one cannot be made while the second is there. -/
theorem exact_capacity_of_five_words : ∃ m,
    Machine.new [26, 26, 27, 15, -1, 26, 26, 27, 26, 27, 25] [] 5 10 = .ok m ∧
      (after^[6] ⟨m, false, .unlimited⟩).UsesCapacity 5 ∧
      (after^[8] ⟨m, false, .unlimited⟩).UsesCapacity 5 := by
  obtain ⟨m, hm, h⟩ := exact_capacity_of_disciplined
    [26, 26, 27, 15, -1, 26, 26, 27, 26, 27, 25] [] 10 (show 2 ≤ 5 by decide)
  have hd : ∀ k < 8, (after^[k] ⟨m, false, .unlimited⟩).frameDisciplined = true := by
    cases hm
    decide +kernel
  have hmakes : ∀ k ∈ [6, 8], (after^[k] ⟨m, false, .unlimited⟩).makesCell = true := by
    cases hm
    decide +kernel
  exact ⟨m, hm, h false .unlimited 6 (fun k hk => hd k (by omega)) (hmakes 6 (by simp)),
    h false .unlimited 8 hd (hmakes 8 (by simp))⟩

end Session

end ConsMachine
