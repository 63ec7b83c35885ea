import ConsMachine.Heap.Integrity
import ConsMachine.Proofs.Machine.Soundness

/-!
# Memory safety

A run that keeps to the discipline of frames only holds references to cells, its heap is in order
after every step, and no step fails because of the heap. Without the discipline this holds as long
as the words that come back from above the stack pointer are valid when they do.

## Main definitions

* `Heap.HoldsCell` — the walk over the heap meets the cell that a reference leads to.
* `Machine.MemorySafe` — the references that the program can use lead to cells.
-/

namespace ConsMachine

/-- A white cell starts where `r` says on the walk over the blocks. -/
def Heap.HoldsCell (h : Heap) (r : Ref) : Prop :=
  ∃ b ∈ h.blocks.1, b.ref = r ∧ b.header = ⟨.cons, 2, .white⟩

namespace Machine

/-- References on the live stack and in the data of cells lead to cells, and the heap is in
order. -/
structure MemorySafe (m : Machine) : Prop where
  live : ∀ w ∈ m.stack.live, ∀ r, w.target? = some r → m.heap.HoldsCell r
  data : ∀ b ∈ m.heap.blocks.1, b.header.tag = .cons → ∀ w ∈ m.heap.dataOf b,
    ∀ r, w.target? = some r → m.heap.HoldsCell r
  check : m.heap.check = .ok ()

theorem Sound.memory_safe {m : Machine} {heapSize : Nat} (hs : m.Sound heapSize) :
    m.MemorySafe := by
  have ho := hs.heap.orderly
  obtain ⟨blocks, hblocks, hmem, -⟩ := ho.partitioned.blocks_eq
  have holds : ∀ {w r}, m.heap.Valid w → w.target? = some r → m.heap.HoldsCell r := by
    intro w r hv hr
    have hcell := (hs.cellular.isCell_iff ho).2 (hv.target r hr)
    refine ⟨⟨r.headerIndex, ⟨.cons, 2, .white⟩⟩, ?_, Ref.ofHeader_headerIndex hcell.ne_null, rfl⟩
    rw [hblocks]
    exact (hmem _).2 hcell.blockAt
  refine ⟨fun w hw r hr => holds (hs.live w hw) hr, fun b hb ht w hw r hr => ?_, ho.check_eq_ok⟩
  rw [hblocks] at hb
  rw [Heap.dataOf, Array.mem_toList_iff, Array.mem_iff_getElem?] at hw
  obtain ⟨k, hk⟩ := hw
  rw [Array.getElem?_extract] at hk
  split at hk
  · next hlt =>
    simp only [Block.next] at hlt
    exact holds (hs.heap.data ((hmem b).1 hb) ht (by omega) (by omega) hk) hr
  · cases hk

end Machine

namespace Session

open Machine

/-- Every disciplined run is memory safe, and the heap makes none of its steps fail. -/
theorem memory_safe_of_disciplined (code arguments : List Int64) {heapSize : Nat}
    (stackSize : Nat) (hsize : 2 ≤ heapSize) :
    ∃ m, Machine.new code arguments heapSize stackSize = .ok m ∧ ∀ traced sink n,
      (∀ k < n, (after^[k] ⟨m, traced, sink⟩).frameDisciplined = true) →
        (after^[n] ⟨m, traced, sink⟩).machine.MemorySafe ∧
        ∀ k < n, ∀ failure t, step (after^[k] ⟨m, traced, sink⟩) = .error failure t →
          ∃ fault, failure = .fault fault ∧ fault.kind ≠ .consistency := by
  obtain ⟨m, hnew, hs⟩ := new_sound code arguments stackSize hsize
  refine ⟨m, hnew, ?_⟩
  intro traced sink n hd
  have hreg : ∀ k < n, (after^[k] ⟨m, traced, sink⟩).RegainsValid := fun k hk =>
    regainsValid_of_frameDisciplined (hd k hk)
  have sound : ∀ k ≤ n, (after^[k] ⟨m, traced, sink⟩).machine.Sound heapSize := fun k hk =>
    iterate_sound hs fun j hj => hreg j (by omega)
  refine ⟨(sound n (Nat.le_refl n)).memory_safe, ?_⟩
  intro k hk failure t hstep
  exact ((step_sound (sound k (by omega)) (hreg k hk)).of_error hstep).1

/-- Three cells in a heap of two; the first two are dropped before the third one is made. -/
theorem memory_safe_of_dropped_cells : ∃ m,
    Machine.new [26, 26, 27, 26, 26, 27, 15, -2, 26, 26, 27, 25] [] 6 10 = .ok m ∧
      (∀ k < 11, (after^[k] ⟨m, false, .unlimited⟩).frameDisciplined = true) ∧
      (after^[11] ⟨m, false, .unlimited⟩).machine.MemorySafe := by
  obtain ⟨m, hm, h⟩ := memory_safe_of_disciplined
    [26, 26, 27, 26, 26, 27, 15, -2, 26, 26, 27, 25] [] 10 (show 2 ≤ 6 by decide)
  have hd : ∀ k < 11, (after^[k] ⟨m, false, .unlimited⟩).frameDisciplined = true := by
    cases hm
    decide +kernel
  exact ⟨m, hm, hd, (h false .unlimited 11 hd).1⟩

/-- The session of a run that goes on. -/
def Progress.running? : Progress → Option Session
  | .running s => some s
  | .ended _ _ => none

/-- The result of a run that has ended, and the session that it has left. -/
def Progress.ended? : Progress → Option (Except Failure Word × Session)
  | .running _ => none
  | .ended result s => some (result, s)

/-- A run in which no step brings back a word that has become invalid leaves a heap in order, and
the heap does not make it fail. -/
theorem heap_intact_of_regains_valid (code arguments : List Int64) {heapSize : Nat}
    (stackSize : Nat) (hsize : 2 ≤ heapSize) :
    ∃ m, Machine.new code arguments heapSize stackSize = .ok m ∧
      ∀ traced sink fuel result t, advance fuel ⟨m, traced, sink⟩ = .ended result t →
        (∀ k u, advance k ⟨m, traced, sink⟩ = .running u → u.RegainsValid) →
        t.machine.heap.check = .ok () ∧ ∀ failure, result = .error failure →
          ∃ fault, failure = .fault fault ∧ fault.kind ≠ .consistency := by
  obtain ⟨m, hnew, hs⟩ := new_sound code arguments stackSize hsize
  refine ⟨m, hnew, ?_⟩
  intro traced sink fuel result t hrun hreg
  have hend := advance_sound fuel hs hreg
  rw [hrun] at hend
  exact ⟨hend.1.heap.orderly.check_eq_ok, hend.2⟩

/-- The program loads an integer from a slot that it has dropped. -/
theorem heap_intact_of_dropped_integer : ∃ m,
    Machine.new [0, 7, 0, 8, 15, -2, 0, 1, 11, 25] [] 6 10 = .ok m ∧
      ∃ t, advance 6 ⟨m, false, .unlimited⟩ = .ended (.ok (.int 8)) t ∧
        t.machine.heap.check = .ok () := by
  obtain ⟨m, hm, h⟩ := heap_intact_of_regains_valid
    [0, 7, 0, 8, 15, -2, 0, 1, 11, 25] [] 10 (show 2 ≤ 6 by decide)
  have hend : ((advance 6 ⟨m, false, .unlimited⟩).ended?.any fun ending =>
      ending.1.toOption == some (.int 8)) = true := by
    cases hm
    decide +kernel
  have hints : ∀ k < 6, ((advance k ⟨m, false, .unlimited⟩).running?.all fun u =>
      u.machine.regained.all fun j => u.machine.stack.slots[j]?.all fun w =>
        w.header? == none && w.target? == none) = true := by
    cases hm
    decide +kernel
  obtain ⟨t, hrun⟩ : ∃ t, advance 6 ⟨m, false, .unlimited⟩ = .ended (.ok (.int 8)) t := by
    generalize advance 6 ⟨m, false, .unlimited⟩ = progress at hend
    rcases progress with u | ⟨_ | word, t⟩
    · cases hend
    · cases hend
    · have hword : word = .int 8 := by simpa [Progress.ended?, Except.toOption] using hend
      exact ⟨t, by rw [hword]⟩
  refine ⟨m, hm, t, hrun, (h _ _ _ _ _ hrun fun k u hu u' hannounce j hj w hw => ?_).1⟩
  have hk : k < 6 := by
    by_contra hge
    cases hu.symm.trans (advance_ended hrun (Nat.le_of_not_lt hge))
  rw [announce_spec.of_ok hannounce] at hj hw ⊢
  have hint := hints k hk
  simp only [hu, Progress.running?, Option.all_some, List.all_eq_true] at hint
  have hint := hint j hj
  simp only [hw, Option.all_some, Bool.and_eq_true, beq_iff_eq] at hint
  exact ⟨hint.1, fun r hr => by cases hint.2.symm.trans hr⟩

/-- A program that loads a reference to a reclaimed cell and stores through it. The heap has two
cells; the stale reference leads to the free block that the collection has left. -/
def staleProgram : List Int64 :=
  [0, 1, 0, 1, 0, 1, 26, 26, 27, 26, 26, 27, 15, -5, 26, 26, 27, 0, 4, 11, 0, 5, 30, 25]

/-- Without the condition a run can end with the link of the free list gone. -/
theorem stale_store_breaks_heap :
    ¬ ∀ code arguments heapSize stackSize m sink fuel result t, 2 ≤ heapSize →
      Machine.new code arguments heapSize stackSize = .ok m →
      sink.capacity = none → sink.flushFails = false →
      advance fuel ⟨m, false, sink⟩ = .ended result t →
        t.machine.heap.check = .ok () ∧ ∀ failure, result = .error failure →
          ∃ fault, failure = .fault fault ∧ fault.kind ≠ .consistency := by
  intro h
  have hbroken : ((Machine.new staleProgram [] 6 16).toOption.any fun m =>
      (advance 18 ⟨m, false, .unlimited⟩).ended?.any fun ending =>
        !ending.2.machine.heap.check.isOk) = true := by decide +kernel
  cases hm : Machine.new staleProgram [] 6 16 with
  | error fault => simp [hm, Except.toOption] at hbroken
  | ok m =>
    cases hrun : advance 18 ⟨m, false, .unlimited⟩ with
    | running t => simp [hm, hrun, Except.toOption, Progress.ended?] at hbroken
    | ended result t =>
      have hcheck := (h _ _ _ _ _ _ _ _ _ (by decide) hm rfl rfl hrun).1
      simp [hm, hrun, hcheck, Except.toOption, Progress.ended?, Except.isOk,
        Except.toBool] at hbroken

end Session

end ConsMachine
