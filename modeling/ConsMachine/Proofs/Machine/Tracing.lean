import ConsMachine.Proofs.Code.Decoding
import ConsMachine.Proofs.Machine.Failure
import ConsMachine.Proofs.Machine.HeapSize

/-!
# Tracing is only watching

A traced run and an untraced one go through the same states and have the same results. What the
traced one writes is, step by step, one line and then what the step prints. The line names the
instruction that the step executes; it says that the instruction is unknown just if the step fails
because there is none.

## Main definitions

* `Session.Announced` — a text that stands for the next instruction in a trace line.
* `Session.Traces` — the next step of a traced session, and of one that is not.
* `Session.Progress.Alike` — two runs that have come equally far.
-/

namespace ConsMachine

/-! ## Trace lines -/

/-- Mnemonics start with a letter. -/
theorem Instruction.text_ne_unknown (i : Instruction) : i.text ≠ "<unknown>" := by
  obtain ⟨opcode, operands⟩ := i
  intro h
  obtain ⟨rest, hrest⟩ : ∃ rest, (Instruction.text ⟨opcode, operands⟩).toList =
      opcode.name.toList ++ rest := by
    rw [text, String.toList_intercalate]
    cases operands with
    | nil => exact ⟨[], by simp [List.intercalate]⟩
    | cons operand operands => exact ⟨_, by simp [List.intercalate]; rfl⟩
  rw [h] at hrest
  have hfirst := congrArg List.head? hrest
  revert hfirst
  cases opcode <;> simp [Opcode.name]

namespace Machine

/-- The step fails because there is no instruction, or it executes the one that the text names. -/
theorem step_cases {m : Machine} (hm : m.stack.Bounded) :
    (Instruction.textAt m.code m.pc = "<unknown>" ∧
      ∃ fault, Instruction.decode m.code m.pc = .error fault ∧
        step m = .error (.fault fault) m ∧ (Failure.fault fault).OfDecoding) ∨
      ∃ i next, Instruction.textAt m.code m.pc = i.text ∧
        Instruction.decode m.code m.pc = .ok (i, next) ∧
        step m = execute i next (m.fetched next) ∧
        Outcome (fun _ _ => True) (fun failure _ => ¬ failure.OfDecoding) (step m) := by
  unfold Instruction.textAt step
  cases hdecode : Instruction.decode m.code m.pc with
  | error fault => exact .inl ⟨rfl, fault, rfl, rfl, Instruction.ofDecoding_of_decode hdecode⟩
  | ok decoded =>
    obtain ⟨i, next⟩ := decoded
    have hexecute : Executes i.opcode (m.fetched next) (execute i next (m.fetched next)) :=
      execute_executes next (Instruction.wellFormed_of_decode hdecode) hm
    refine .inr ⟨i, next, rfl, rfl, rfl, ?_⟩
    exact hexecute.mono (fun _ _ _ => trivial) fun _ _ => And.left

end Machine

/-! ## Sinks -/

namespace Sink

@[simp] theorem flush_showing (sink : Sink) (event : Machine.Event) :
    (sink.showing event).flush = sink.flush := by
  cases event <;> rfl

@[simp] theorem capacity_showing (sink : Sink) (event : Machine.Event) :
    (sink.showing event).capacity = sink.capacity := by
  cases event <;> rfl

/-- What is added to a sink does not depend on it. -/
theorem exists_written_showing (event : Machine.Event) :
    ∃ printed, ∀ sink : Sink, (sink.showing event).written = sink.written ++ printed := by
  cases event with
  | printed text => exact ⟨text.toUTF8, fun _ => rfl⟩
  | _ => exact ⟨.empty, fun sink => by simp [showing]⟩

end Sink

/-! ## Steps -/

namespace Session

open Machine

variable {s t : Session}

/-- The step executes the instruction that the text is the written form of, or it fails because
there is none, and then the text says so. -/
structure Announced (s : Session) (text : String) : Prop where
  known : ∀ i next, Instruction.decode s.machine.code s.machine.pc = .ok (i, next) →
    text = i.text ∧ Machine.step s.machine =
      execute i next { s.machine with pc := next, executed := s.machine.executed + 1 }
  unknown : text = "<unknown>" ↔ ∃ failure t, step s = .error failure t ∧ failure.OfDecoding

/-- What is announced is what comes, if the trace line is not refused. -/
theorem announced_textAt {sink : Sink} (ha : announce s = .ok () { s with sink })
    (hs : sink.capacity = none) (hm : s.machine.stack.Bounded) :
    s.Announced (Instruction.textAt s.machine.code s.machine.pc) := by
  have hstep := step_of_announce ha hs
  rcases step_cases hm with ⟨htext, fault, hdecode, hfault, hof⟩ |
    ⟨i, next, htext, hdecode, hexecute, hnot⟩
  · rw [hfault] at hstep
    refine ⟨fun i next hi => ?_, fun _ => ⟨_, _, hstep, hof⟩, fun _ => htext⟩
    cases hdecode.symm.trans hi
  · refine ⟨fun j next' hj => ?_, fun h => absurd (htext.symm.trans h) i.text_ne_unknown, ?_⟩
    · cases hdecode.symm.trans hj
      exact ⟨htext, hexecute⟩
    · rintro ⟨failure, t, hfails, hof⟩
      rw [hstep] at hfails
      cases hm : Machine.step s.machine with
      | ok event machine =>
        rw [hm] at hfails
        cases hfails
      | error failure' machine =>
        rw [hm] at hfails hnot
        cases hfails
        exact absurd hof hnot

/-- The next steps do the same to the machine. The traced session writes a line first, which shows
the live stack, and then what the other one writes. -/
structure Traces (s t : Session) : Prop where
  machine : s.machine = t.machine
  results : Twin (fun result s' result' t' => result = result' ∧ s'.machine = t'.machine)
    (fun failure s' failure' t' => failure = failure' ∧ s'.machine = t'.machine) (step s) (step t)
  output : ∃ text printed,
    s.after.sink.written = s.sink.written ++ (Word.listText s.machine.stack.live ++ " \x7b" ++
      toString s.machine.pc ++ ":" ++ text ++ "\x7d" ++ "\n").toUTF8 ++ printed ∧
    t.after.sink.written = t.sink.written ++ printed ∧ s.Announced text

/-- A traced session and one that is not, over the same machine, with sinks that take anything. -/
structure Beside (s t : Session) : Prop where
  machine : t.machine = s.machine
  traced : s.traced = true
  untraced : t.traced = false
  unlimited : s.sink.capacity = none
  unlimited' : t.sink.capacity = none
  flush : t.sink.flush = s.sink.flush

namespace Beside

theorem announce_eq (h : s.Beside t) : announce s =
    .ok () { s with sink := s.sink.showing (.printed (s.machine.traceLine ++ "\n")) } := by
  change (if s.traced then write (s.machine.traceLine ++ "\n") else pure () : Action Unit) s = _
  rw [if_pos h.traced]
  exact write_eq h.unlimited _

theorem step_eq (h : s.Beside t) : step s =
    let sink := s.sink.showing (.printed (s.machine.traceLine ++ "\n"))
    match Machine.step s.machine with
    | .ok event machine => .ok event.result { s with machine, sink := sink.showing event }
    | .error failure machine => .error failure { s with machine, sink } :=
  step_of_announce h.announce_eq h.unlimited

theorem step_eq' (h : s.Beside t) : step t =
    match Machine.step s.machine with
    | .ok event machine => .ok event.result { t with machine, sink := t.sink.showing event }
    | .error failure machine => .error failure { t with machine } := by
  have hq : t.Quiet := ⟨h.untraced, h.unlimited'⟩
  have hstep := hq.step_eq
  rw [h.machine] at hstep
  exact hstep

theorem steps (h : s.Beside t) :
    Twin (fun result s' result' t' => result = result' ∧ s'.Beside t')
      (fun failure s' failure' t' => failure = failure' ∧ s'.Beside t') (step s) (step t) := by
  rw [h.step_eq, h.step_eq']
  cases Machine.step s.machine with
  | error failure machine =>
    exact ⟨rfl, rfl, h.traced, h.untraced, h.unlimited, h.unlimited', h.flush⟩
  | ok event machine =>
    refine ⟨rfl, rfl, h.traced, h.untraced, ?_, ?_, ?_⟩
    · simpa using h.unlimited
    · simpa using h.unlimited'
    · simpa using h.flush

theorem after (h : s.Beside t) : s.after.Beside t.after := by
  have hsteps := h.steps
  unfold Session.after
  cases hs : step s <;> cases ht : step t <;> rw [hs, ht] at hsteps
  · exact hsteps.2
  · exact hsteps.elim
  · exact hsteps.elim
  · exact hsteps.2

theorem traces (h : s.Beside t) (hm : s.machine.stack.Bounded) :
    s.Traces t where
  machine := h.machine.symm
  results := h.steps.mono (fun _ _ _ _ hr => ⟨hr.1, hr.2.machine.symm⟩)
    fun _ _ _ _ hf => ⟨hf.1, hf.2.machine.symm⟩
  output := by
    have hannounced := announced_textAt h.announce_eq h.unlimited hm
    unfold Session.after
    rw [h.step_eq, h.step_eq']
    cases Machine.step s.machine with
    | error failure machine => exact ⟨_, .empty, by simp; rfl, by simp, hannounced⟩
    | ok event machine =>
      obtain ⟨printed, hprinted⟩ := Sink.exists_written_showing event
      exact ⟨_, printed, hprinted _, hprinted _, hannounced⟩

end Beside

/-! ## Runs -/

/-- Both runs go on, or both have ended with the same result; the machines are the same. -/
def Progress.Alike : Progress → Progress → Prop
  | .running s, .running t => s.machine = t.machine
  | .ended result s, .ended result' t => result = result' ∧ s.machine = t.machine
  | _, _ => False

theorem Beside.complete_eq (h : s.Beside t) (result : Except Failure Word) :
    complete result s = complete result t := by
  unfold complete
  rw [h.flush]

theorem advance_alike (fuel : Nat) (h : s.Beside t) :
    (advance fuel s).Alike (advance fuel t) := by
  induction fuel generalizing s t with
  | zero => exact h.machine.symm
  | succ fuel ih =>
    have hsteps := h.steps
    simp only [advance]
    cases hs : step s <;> cases ht : step t <;> rw [hs, ht] at hsteps
    · next result s' result' t' =>
      obtain ⟨rfl, hb⟩ := hsteps
      cases result with
      | none => exact ih hb
      | some word => exact ⟨hb.complete_eq _, hb.machine.symm⟩
    · exact hsteps.elim
    · exact hsteps.elim
    · obtain ⟨rfl, hb⟩ := hsteps
      exact ⟨hb.complete_eq _, hb.machine.symm⟩

theorem iterate_beside (n : Nat) (h : s.Beside t) : (after^[n] s).Beside (after^[n] t) := by
  induction n with
  | zero => exact h
  | succ n ih =>
    rw [Function.iterate_succ_apply', Function.iterate_succ_apply']
    exact ih.after

/-- Whatever the program is, a traced run and an untraced one are the same run if their sinks refuse
nothing, and the trace shows of every step what is on the stack and which instruction comes. -/
theorem traced_run_alike (code arguments : List Int64) {heapSize : Nat} (stackSize : Nat)
    (hsize : 2 ≤ heapSize) :
    ∃ m, Machine.new code arguments heapSize stackSize = .ok m ∧ ∀ sink n, sink.capacity = none →
      (advance n ⟨m, true, sink⟩).Alike (advance n ⟨m, false, sink⟩) ∧
        (after^[n] ⟨m, true, sink⟩).Traces (after^[n] ⟨m, false, sink⟩) := by
  obtain ⟨m, hnew, hm⟩ := new_intact code arguments stackSize hsize
  refine ⟨m, hnew, fun sink n hsink => ?_⟩
  have hb : Beside ⟨m, true, sink⟩ ⟨m, false, sink⟩ := ⟨rfl, rfl, rfl, hsink, hsink, rfl⟩
  have hs := iterate_intact (s := ⟨m, true, sink⟩) n hm
  exact ⟨advance_alike n hb, (iterate_beside n hb).traces hs.stack.bounded⟩

/-- A constant is printed, and then the code is over. -/
theorem traced_run_alike_of_print : ∃ m, Machine.new [0, 5, 22] [] 6 2 = .ok m ∧
    (advance 3 ⟨m, true, .unlimited⟩).Alike (advance 3 ⟨m, false, .unlimited⟩) ∧
      (after^[3] ⟨m, true, .unlimited⟩).Traces (after^[3] ⟨m, false, .unlimited⟩) ∧
      (after^[3] ⟨m, false, .unlimited⟩).sink.written = "5 ".toUTF8 ∧
      (after^[3] ⟨m, true, .unlimited⟩).sink.written =
        "[ ] \x7b0:CSTI 5\x7d\n[ 5 ] \x7b2:PRINTI\x7d\n5 [ 5 ] \x7b3:<unknown>\x7d\n".toUTF8 := by
  obtain ⟨m, hm, h⟩ := traced_run_alike [0, 5, 22] [] 2 (show 2 ≤ 6 by decide)
  obtain ⟨halike, htraces⟩ := h .unlimited 3 rfl
  refine ⟨m, hm, halike, htraces, ?_⟩
  cases hm
  decide +kernel

end Session

end ConsMachine
