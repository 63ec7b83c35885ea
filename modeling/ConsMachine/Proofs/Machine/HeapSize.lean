import ConsMachine.Proofs.Machine.Renaming

/-!
# Heap sizes do not matter

A disciplined run goes the same way whatever the size of the heap, until a heap runs out of memory:
the steps have the same results, the machines are the same with their cells renamed, and what they
print is the same as long as they print no references. So a program cannot tell when cells are
collected, and which places new cells are given.

## Main definitions

* `Session.runsOut`, `Session.printsReference` — the next step runs out of memory, or shows where a
  cell is.
* `Session.Similar` — two sessions without trace lines and over similar machines.
-/

namespace ConsMachine

/-- The result of the program, if the step has stopped it. -/
def Machine.Event.result : Event → Option Word
  | .stopped word => some word
  | _ => none

/-- A sink that refuses nothing, after a step. -/
def Sink.showing (sink : Sink) : Machine.Event → Sink
  | .printed text => { sink with written := sink.written ++ text.toUTF8 }
  | _ => sink

namespace Machine

variable {m n : Machine}

/-- Machines for the same program are similar before the first step. -/
theorem similar_new {code arguments : List Int64} {heapSize heapSize' stackSize : Nat}
    (hm : Machine.new code arguments heapSize stackSize = .ok m)
    (hn : Machine.new code arguments heapSize' stackSize = .ok n) :
    Similar (fun _ _ => False) m n := by
  simp only [Machine.new] at hm hn
  split at hm
  · cases hm
  · split at hn
    · cases hn
    · cases hm
      cases hn
      refine ⟨⟨⟨False.elim, False.elim, False.elim, False.elim⟩, False.elim, False.elim,
        False.elim⟩, rfl, rfl, ⟨rfl, rfl, Stack.bounded_empty _, fun k hk => ?_⟩, rfl, rfl, rfl, rfl, rfl⟩
      exact absurd hk (Nat.not_lt_zero k)

variable {ρ : Ref → Ref → Prop} {shown : Option Word} {event event' : Event}

theorem Event.Corresponds.result_eq (he : event.Corresponds ρ shown event') (hp : Pairing ρ)
    {f : Ref → Ref} (hf : Follows f ρ) : event'.result = event.result.map (Word.rename f) := by
  cases he with
  | silent => rfl
  | printed text hs hw => rfl
  | stopped hw => exact congrArg some (hw.eq_rename hp hf)

/-- Corresponding events that show no reference are the same to whoever sees the output. -/
theorem Event.Corresponds.showing_eq (he : event.Corresponds ρ shown event') (hp : Pairing ρ)
    (hs : ∀ w, shown = some w → w.target? = none) (sink : Sink) :
    sink.showing event' = sink.showing event := by
  cases he with
  | silent => rfl
  | stopped hw => rfl
  | printed text hshown hw => rw [hw.eq_of_target? hp (hs _ hshown)]

end Machine

namespace Session

variable {s t : Session} {heapSize heapSize' : Nat}

/-- The next step finds no place for a cell. -/
def runsOut (s : Session) : Bool :=
  match step s with
  | .error (.fault .outOfMemory) _ => true
  | _ => false

/-- The next step prints a reference that is not null. -/
def printsReference (s : Session) : Bool :=
  match step s, s.machine.shown with
  | .ok _ _, some word => word.target?.isSome
  | _, _ => false

/-- Steps write no trace lines, and the sink takes what they print. -/
structure Quiet (s : Session) : Prop where
  untraced : s.traced = false
  unlimited : s.sink.capacity = none

theorem Quiet.announce_eq (hq : s.Quiet) : announce s = .ok () s := by
  change (if s.traced then write (s.machine.traceLine ++ "\n") else pure () : Action Unit) s = _
  rw [hq.untraced]
  rfl

theorem write_eq (hs : s.sink.capacity = none) (text : String) :
    write text s = .ok () { s with sink := s.sink.showing (.printed text) } := by
  simp only [write, Sink.write, hs, Sink.showing]

/-- After the trace line, what a step does to a session is what it does to the machine. -/
theorem step_of_announce {sink : Sink} (ha : announce s = .ok () { s with sink })
    (hs : sink.capacity = none) : step s =
      match Machine.step s.machine with
      | .ok event machine => .ok event.result { s with machine, sink := sink.showing event }
      | .error failure machine => .error failure { s with machine, sink } := by
  refine (bind_of_ok ha).trans ?_
  cases hm : Machine.step s.machine with
  | error failure machine =>
    have herror : onMachine Machine.step { s with sink } =
        .error failure { s with machine, sink } := by
      rw [onMachine, hm]
    exact bind_of_error herror
  | ok event machine =>
    have hok : onMachine Machine.step { s with sink } = .ok event { s with machine, sink } := by
      rw [onMachine, hm]
    refine (bind_of_ok hok).trans ?_
    cases event with
    | silent => rfl
    | stopped result => rfl
    | printed text => exact bind_of_ok (write_eq hs text)

theorem Quiet.step_eq (hq : s.Quiet) : step s =
    match Machine.step s.machine with
    | .ok event machine => .ok event.result { s with machine, sink := s.sink.showing event }
    | .error failure machine => .error failure { s with machine } :=
  step_of_announce hq.announce_eq hq.unlimited

theorem Quiet.after (hq : s.Quiet) : s.after.Quiet := by
  rw [Session.after, hq.step_eq]
  cases Machine.step s.machine with
  | error failure machine => exact ⟨hq.untraced, hq.unlimited⟩
  | ok event machine => cases event <;> exact ⟨hq.untraced, hq.unlimited⟩

/-! ## Two sessions -/

/-- Both sessions are quiet, and their machines are similar. -/
structure Similar (heapSize heapSize' : Nat) (s t : Session) : Prop where
  left : s.Quiet
  right : t.Quiet
  sound : s.machine.Sound heapSize
  sound' : t.machine.Sound heapSize'
  machines : ∃ ρ, Machine.Similar ρ s.machine t.machine

/-- The sessions are in the same state, and their next steps have the same result: both go on, both
stop with the same word, or both fail for the same reason, up to the names of cells. -/
structure Agree (f : Ref → Ref) (s t : Session) : Prop where
  machines : Machine.Renamed f s.machine t.machine
  results : Twin (fun result _ result' _ => result' = result.map (Word.rename f))
    (fun failure _ failure' _ => failure' = failure.rename f) (step s) (step t)

/-- The next step is disciplined and does not run out of memory. -/
def goesOn (s : Session) : Bool := s.frameDisciplined && !s.runsOut

theorem disciplined_of_goesOn (hg : s.goesOn = true) : s.frameDisciplined = true :=
  (Bool.and_eq_true_iff.1 hg).1

theorem Quiet.regained_eq_nil (hq : s.Quiet) (hg : s.goesOn = true) :
    s.machine.regained = [] := by
  have hd := disciplined_of_goesOn hg
  rw [frameDisciplined, hq.announce_eq] at hd
  exact Machine.regained_eq_nil hd

theorem Quiet.step_ne (hq : s.Quiet) (hg : s.goesOn = true) (m : Machine) :
    Machine.step s.machine ≠ .error (.fault .outOfMemory) m := by
  intro hstep
  have hr := (Bool.and_eq_true_iff.1 hg).2
  rw [runsOut, hq.step_eq, hstep] at hr
  cases hr

namespace Similar

variable {ρ : Ref → Ref → Prop}

theorem step (hs : Similar heapSize heapSize' s t) (hg : s.goesOn = true)
    (hg' : t.goesOn = true)
    (hsim : Machine.Similar ρ s.machine t.machine) :
    Twin
      (fun e m e' n => e.Corresponds ρ s.machine.shown e' ∧ ∃ σ, Machine.Similar σ m n)
      (fun e m e' n => e.Corresponds ρ e' ∧ ∃ σ, Machine.Similar σ m n)
      (Machine.step s.machine) (Machine.step t.machine) :=
  Machine.similar_step hs.sound hs.sound' hsim (hs.left.regained_eq_nil hg)
    (hs.left.step_ne hg) (hs.right.step_ne hg')

theorem agree (hs : Similar heapSize heapSize' s t) (hg : s.goesOn = true)
    (hg' : t.goesOn = true) :
    ∃ f, Agree f s t := by
  obtain ⟨ρ, hsim⟩ := hs.machines
  have hres := hsim.restrict
  obtain ⟨f, hf⟩ := hres.heaps.pairing.exists_follows
  have hstep := hs.step hg hg' hres
  refine ⟨f, hres.renamed hf, ?_⟩
  rw [hs.left.step_eq, hs.right.step_eq]
  cases hx : Machine.step s.machine <;> cases hy : Machine.step t.machine <;>
    rw [hx, hy] at hstep
  · exact hstep.1.result_eq hres.heaps.pairing hf
  · exact hstep.elim
  · exact hstep.elim
  · exact hstep.1.eq_rename hres.heaps.pairing hf

theorem after (hs : Similar heapSize heapSize' s t) (hg : s.goesOn = true)
    (hg' : t.goesOn = true) :
    Similar heapSize heapSize' s.after t.after := by
  obtain ⟨ρ, hsim⟩ := hs.machines
  have hstep := hs.step hg hg' hsim
  refine ⟨hs.left.after, hs.right.after,
    after_sound hs.sound (regainsValid_of_frameDisciplined (disciplined_of_goesOn hg)),
    after_sound hs.sound' (regainsValid_of_frameDisciplined (disciplined_of_goesOn hg')), ?_⟩
  simp only [Session.after]
  rw [hs.left.step_eq, hs.right.step_eq]
  cases hx : Machine.step s.machine <;> cases hy : Machine.step t.machine <;>
    rw [hx, hy] at hstep
  · exact hstep.2
  · exact hstep.elim
  · exact hstep.elim
  · exact hstep.2

theorem sink_after (hs : Similar heapSize heapSize' s t) (hg : s.goesOn = true)
    (hg' : t.goesOn = true)
    (hsink : t.sink = s.sink) (hp : s.printsReference = false) :
    t.after.sink = s.after.sink := by
  obtain ⟨ρ, hsim⟩ := hs.machines
  have hstep := hs.step hg hg' hsim
  simp only [printsReference] at hp
  simp only [Session.after]
  rw [hs.left.step_eq] at hp ⊢
  rw [hs.right.step_eq]
  cases hx : Machine.step s.machine <;> cases hy : Machine.step t.machine <;>
    rw [hx, hy] at hstep
  · rw [hx] at hp
    have hshown : ∀ w, s.machine.shown = some w → w.target? = none := by
      intro w hw
      simpa [hw] using hp
    simp only [hsink]
    exact hstep.1.showing_eq hsim.heaps.pairing hshown s.sink
  · exact hstep.elim
  · exact hstep.elim
  · exact hsink

end Similar

/-! ## Two runs -/

/-- Runs of the same program in heaps of different sizes are the same run with its cells renamed,
as long as no step runs out of memory. -/
theorem run_independent_of_heapSize (code arguments : List Int64) {heapSize heapSize' : Nat}
    (stackSize : Nat) (hsize : 2 ≤ heapSize) (hsize' : 2 ≤ heapSize') :
    ∃ m n, Machine.new code arguments heapSize stackSize = .ok m ∧
      Machine.new code arguments heapSize' stackSize = .ok n ∧
      ∀ sink steps, sink.capacity = none →
        (∀ k < steps, (after^[k] ⟨m, false, sink⟩).goesOn = true) →
        (∀ k < steps, (after^[k] ⟨n, false, sink⟩).goesOn = true) →
          (∃ f, Machine.Renamed f (after^[steps] ⟨m, false, sink⟩).machine
            (after^[steps] ⟨n, false, sink⟩).machine) ∧
          (∀ k < steps, ∃ f, Agree f (after^[k] ⟨m, false, sink⟩) (after^[k] ⟨n, false, sink⟩)) ∧
          ((∀ k < steps, (after^[k] ⟨m, false, sink⟩).printsReference = false) →
            (after^[steps] ⟨n, false, sink⟩).sink = (after^[steps] ⟨m, false, sink⟩).sink) := by
  obtain ⟨m, hm, hms⟩ := Machine.new_sound code arguments stackSize hsize
  obtain ⟨n, hn, hns⟩ := Machine.new_sound code arguments stackSize hsize'
  refine ⟨m, n, hm, hn, ?_⟩
  intro sink steps hsink hg hg'
  have similar : ∀ k ≤ steps, Similar heapSize heapSize' (after^[k] ⟨m, false, sink⟩)
      (after^[k] ⟨n, false, sink⟩) := by
    intro k hk
    induction k with
    | zero => exact ⟨⟨rfl, hsink⟩, ⟨rfl, hsink⟩, hms, hns, _, Machine.similar_new hm hn⟩
    | succ k ih =>
      rw [Function.iterate_succ_apply', Function.iterate_succ_apply']
      exact (ih (by omega)).after (hg k hk) (hg' k hk)
  refine ⟨?_, fun k hk => (similar k (by omega)).agree (hg k hk) (hg' k hk), ?_⟩
  · obtain ⟨ρ, hsim⟩ := (similar steps (Nat.le_refl steps)).machines
    obtain ⟨f, hf⟩ := hsim.heaps.pairing.exists_follows
    exact ⟨f, hsim.renamed hf⟩
  · intro hp
    have sinks : ∀ k ≤ steps, (after^[k] ⟨n, false, sink⟩).sink =
        (after^[k] ⟨m, false, sink⟩).sink := by
      intro k hk
      induction k with
      | zero => rfl
      | succ k ih =>
        rw [Function.iterate_succ_apply', Function.iterate_succ_apply']
        exact (similar k (by omega)).sink_after (hg k hk) (hg' k hk) (ih (by omega)) (hp k hk)
    exact sinks steps (Nat.le_refl steps)

/-- The second cell takes the place of the first one in a heap of three words, and a place of its
own in a heap of six. -/
theorem run_independent_of_three_or_six : ∃ m n,
    Machine.new [26, 26, 27, 15, -1, 26, 26, 27, 25] [] 3 10 = .ok m ∧
    Machine.new [26, 26, 27, 15, -1, 26, 26, 27, 25] [] 6 10 = .ok n ∧
      (after^[7] ⟨m, false, .unlimited⟩).machine.stack.live = [.ref ⟨1⟩] ∧
      (after^[7] ⟨n, false, .unlimited⟩).machine.stack.live = [.ref ⟨4⟩] ∧
      (∀ k < 8, ∃ f, Agree f (after^[k] ⟨m, false, .unlimited⟩)
        (after^[k] ⟨n, false, .unlimited⟩)) ∧
      (after^[8] ⟨n, false, .unlimited⟩).sink = (after^[8] ⟨m, false, .unlimited⟩).sink := by
  obtain ⟨m, n, hm, hn, h⟩ := run_independent_of_heapSize
    [26, 26, 27, 15, -1, 26, 26, 27, 25] [] 10 (show 2 ≤ 3 by decide) (show 2 ≤ 6 by decide)
  have hg : ∀ k < 8, (after^[k] ⟨m, false, .unlimited⟩).goesOn = true := by
    cases hm
    decide +kernel
  have hg' : ∀ k < 8, (after^[k] ⟨n, false, .unlimited⟩).goesOn = true := by
    cases hn
    decide +kernel
  have hp : ∀ k < 8, (after^[k] ⟨m, false, .unlimited⟩).printsReference = false := by
    cases hm
    decide +kernel
  have hlive : (after^[7] ⟨m, false, .unlimited⟩).machine.stack.live = [.ref ⟨1⟩] := by
    cases hm
    decide +kernel
  have hlive' : (after^[7] ⟨n, false, .unlimited⟩).machine.stack.live = [.ref ⟨4⟩] := by
    cases hn
    decide +kernel
  obtain ⟨-, hagree, hsink⟩ := h .unlimited 8 rfl hg hg'
  exact ⟨m, n, hm, hn, hlive, hlive', hagree, hsink hp⟩

end Session

end ConsMachine
