import ConsMachine.Proofs.Heap.Bisimulation
import ConsMachine.Proofs.Machine.Soundness

/-!
# Two machines of different sizes

Machines that mirror each other keep doing so, whatever the sizes of their heaps, as long as neither
runs out of memory. A collection forgets the cells that are not reached, and a new cell is paired
with the new cell of the other machine; all other instructions leave the pairing as it is.

## Main definitions

* `Machine.Similar` — the machines mirror each other, and so do their heaps.
-/

namespace ConsMachine.Machine

/-- The machines are the same up to the pairing of their cells. -/
structure Similar (ρ : Ref → Ref → Prop) (m n : Machine) : Prop where
  heaps : Heap.Mirror ρ m.heap n.heap
  machines : Mirror ρ m.heap n.heap m n

variable {ρ : Ref → Ref → Prop} {m n : Machine} {heapSize heapSize' : Nat}

/-! ## The cells that are reached -/

/-- The pairing may be restricted to the cells that the live words reach. -/
theorem Similar.restrict (hs : Similar ρ m n) :
    Similar (Heap.Restricted ρ m.heap m.stack.live) m n := by
  have hstack := hs.machines.stack
  refine ⟨hs.heaps.restrict _, { hs.machines with
    stack := ⟨hstack.size, hstack.pointer, hstack.bounded, fun k hk => ?_⟩ }⟩
  obtain ⟨w, w', hw, hw', hc⟩ := hstack.words k hk
  have hlive : w ∈ m.stack.live := (Stack.mem_live hstack.fits).2 ⟨k, hk, hw⟩
  exact ⟨w, w', hw, hw', Heap.restricted_of_root hs.heaps.pairing hlive hc⟩

theorem Similar.reached (hs : Similar ρ m n) {r : Ref} (hr : r ∈ m.reached) :
    ∃ s ∈ n.reached, ρ r s := by
  obtain ⟨s, hrs, hreach⟩ := hs.heaps.reaches hs.machines.stack.live hr
  exact ⟨s, hreach, hrs⟩

theorem Similar.reached' (hs : Similar ρ m n) {s : Ref} (hr : s ∈ n.reached) :
    ∃ r ∈ m.reached, ρ r s := by
  have hlive := hs.machines.stack.live.flip.imp fun _ _ => Word.Corresponds.symm
  obtain ⟨r, hrs, hreach⟩ := hs.heaps.symm.reaches hlive hr
  exact ⟨r, hreach, hrs⟩

/-! ## The allocating instruction -/

/-- A new cell of one machine is paired with the new cell of the other. -/
theorem Similar.newCell {car cdr car' cdr' : Word} {g h : Heap} {new new' : Ref}
    {m' n' : Machine} (hs : Similar ρ m n) (htwo : 2 ≤ m.stack.height)
    (hm : m.MadeCell car cdr g new m') (hn : n.MadeCell car' cdr' h new' n') :
    ∃ σ, Similar σ m' n' := by
  have hres := hs.restrict
  have hright : ∀ {r s}, Heap.Restricted ρ m.heap m.stack.live r s →
      n.heap.Reaches n.stack.live s := by
    rintro r s ⟨hrs, hr⟩
    obtain ⟨s', hs', hrs'⟩ := hs.reached hr
    rwa [hs.heaps.pairing.functional hrs hrs']
  have hkeeps : Heap.Keeps (fun r => ∃ s, Heap.Restricted ρ m.heap m.stack.live r s) m.heap
      m'.heap new :=
    hm.newCell.keeps hm.cleared (fun ⟨_, hr⟩ => hres.heaps.left hr) fun ⟨_, hr⟩ => hr.2
  have hkeeps' : Heap.Keeps (fun s => ∃ r, Heap.Restricted ρ m.heap m.stack.live r s) n.heap
      n'.heap new' :=
    hn.newCell.keeps hn.cleared (fun ⟨_, hr⟩ => hres.heaps.right hr) fun ⟨_, hr⟩ => hright hr
  -- The two words on top of one stack correspond to those on top of the other.
  have word : ∀ {k w w'}, k < m.stack.height → m.stack.slots[k]? = some w →
      n.stack.slots[k]? = some w' →
      w.Corresponds (Heap.Restricted ρ m.heap m.stack.live) w' := by
    intro k w w' hk hw hw'
    obtain ⟨v, v', hv, hv', hc⟩ := hres.machines.stack.words k hk
    cases hv.symm.trans hw
    cases hv'.symm.trans hw'
    exact hc
  have hheight := hs.machines.stack.height
  have hcar := word (by omega) hm.first (hheight ▸ hn.first)
  have hcdr := word (by omega) hm.second (hheight ▸ hn.second)
  refine ⟨_, hres.heaps.newCell hkeeps hkeeps' hm.newCell hn.newCell hcar hcdr, ?_⟩
  have hstack : m.stack.Mirror
      (Heap.Joined (Heap.Restricted ρ m.heap m.stack.live) new new') n.stack := by
    obtain ⟨hsize, hpointer, hbounded, hwords⟩ := hres.machines.stack
    refine ⟨hsize, hpointer, hbounded, ?_⟩
    intro k hk
    obtain ⟨w, w', hw, hw', hc⟩ := hwords k hk
    exact ⟨w, w', hw, hw', hc.mono fun _ _ => .inl⟩
  have hpointer := hs.machines.stack.bounded.pointer_eq
  have hmade := (hstack.store (i := m.stack.height - 2)
    (.cons (.ref (.inr ⟨rfl, rfl⟩)) .nil)).drop (by rw [Stack.pointer_store]; omega)
  rw [hm.rest, hn.rest, hheight]
  exact { hs.machines with stack := hmade, left := rfl, right := rfl }

theorem similar_cons (hm : m.Sound heapSize) (hn : n.Sound heapSize') (hs : Similar ρ m n)
    (hroom : ∀ m', cons m ≠ .error (.fault .outOfMemory) m')
    (hroom' : ∀ n', cons n ≠ .error (.fault .outOfMemory) n') :
    Twin (fun _ m' _ n' => ∃ σ, Similar σ m' n')
      (fun e m' f n' => e.Corresponds ρ f ∧ ∃ σ, Similar σ m' n') (cons m) (cons n) := by
  have hheight := hs.machines.stack.height
  by_cases htwo : 2 ≤ m.stack.height
  · have hleft := cons_spec hm htwo
    have hright := cons_spec hn (hheight ▸ htwo)
    cases hx : cons m with
    | error e m' => exact absurd ((hleft.of_error hx).1 ▸ hx) (hroom m')
    | ok _ m' =>
      cases hy : cons n with
      | error f n' => exact absurd ((hright.of_error hy).1 ▸ hy) (hroom' n')
      | ok _ n' =>
        obtain ⟨car, cdr, g, new, hmade⟩ := hleft.of_ok hx
        obtain ⟨car', cdr', h, new', hmade'⟩ := hright.of_ok hy
        exact hs.newCell htwo hmade hmade'
  · rw [cons_underflow (by omega), cons_underflow (by omega)]
    exact ⟨.fault (.same rfl), ρ, hs⟩

/-! ## One step -/

theorem similar_execute {i : Instruction} (next : Nat) (hwf : i.WellFormed)
    (hm : m.Sound heapSize) (hn : n.Sound heapSize') (hs : Similar ρ m n)
    (hreg : i.regained m.stack = [])
    (hroom : ∀ m', execute i next m ≠ .error (.fault .outOfMemory) m')
    (hroom' : ∀ n', execute i next n ≠ .error (.fault .outOfMemory) n') :
    Twin (fun e m' f n' => e.Corresponds ρ (i.shown m.stack) f ∧ ∃ σ, Similar σ m' n')
      (fun e m' f n' => e.Corresponds ρ f ∧ ∃ σ, Similar σ m' n')
      (execute i next m) (execute i next n) := by
  by_cases hcons : i.opcode = .cons
  · obtain ⟨opcode, operands⟩ := i
    subst hcons
    obtain rfl := List.length_eq_zero_iff.1 hwf
    refine Twin.bind (similar_cons hm hn hs (fun m' h => ?_) fun n' h => ?_)
      fun _ _ _ _ hσ => ⟨.silent, hσ⟩
    · exact hroom m' (bind_of_error h)
    · exact hroom' n' (bind_of_error h)
  · have hp := hm.heap.orderly.partitioned
    have hp' := hn.heap.orderly.partitioned
    refine Twin.mono (updating_execute next hwf hcons hs.heaps hp hp' hs.machines fun k hk => ?_)
      (fun _ _ _ _ ⟨hv, hu, hmirror⟩ => ⟨hv, ρ, hs.heaps.update hp hp' hu, hmirror⟩)
      fun _ _ _ _ ⟨hf, hu, hmirror⟩ => ⟨hf, ρ, hs.heaps.update hp hp' hu, hmirror⟩
    rw [hreg] at hk
    cases hk

/-- Similar machines take the same step, if it does not run out of memory. -/
theorem similar_step (hm : m.Sound heapSize) (hn : n.Sound heapSize') (hs : Similar ρ m n)
    (hreg : m.regained = [])
    (hroom : ∀ m', step m ≠ .error (.fault .outOfMemory) m')
    (hroom' : ∀ n', step n ≠ .error (.fault .outOfMemory) n') :
    Twin (fun e m' f n' => e.Corresponds ρ m.shown f ∧ ∃ σ, Similar σ m' n')
      (fun e m' f n' => e.Corresponds ρ f ∧ ∃ σ, Similar σ m' n') (step m) (step n) := by
  have hcode : Instruction.decode n.code n.pc = Instruction.decode m.code m.pc := by
    rw [hs.machines.code, hs.machines.pc]
  simp only [regained, ofInstruction] at hreg
  simp only [shown, ofInstruction]
  simp only [step] at hroom hroom' ⊢
  rw [hcode] at hroom' ⊢
  split at hreg
  · next i next hdecode =>
    simp only [hdecode] at hroom hroom' ⊢
    have hexecuted := congrArg (· + 1) hs.machines.executed
    exact similar_execute next (Instruction.wellFormed_of_decode hdecode)
      (hm.decoded next (m.executed + 1)) (hn.decoded next (n.executed + 1))
      ⟨hs.heaps, { hs.machines with pc := rfl, executed := hexecuted }⟩ hreg hroom hroom'
  · next fault hdecode =>
    simp only [hdecode]
    exact ⟨.fault (.same (isPlain_of_decode hdecode)), ρ, hs⟩

end ConsMachine.Machine
