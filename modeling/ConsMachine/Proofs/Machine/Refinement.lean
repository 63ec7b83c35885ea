import ConsMachine.Proofs.Machine.ListInstructions
import ConsMachine.Proofs.Machine.Program
import ConsMachine.Proofs.Machine.Robustness

/-!
# Refinement of the semantics on lists

A step of the machine is what the semantics on lists says it is: it succeeds just if the instruction
has a meaning there, and then it leaves the machine that the meaning describes. Loads, stores, tail
calls and returns that ask for words above the top are left out.

## Main definitions

* `Session.Follows` — the next step is what the semantics says.
-/

namespace ConsMachine.Machine

variable {limit : Nat} {m : Machine}

/-- Within the limit, what is expected is what the instruction means. -/
theorem step_spec {i : Instruction} {next : Nat} (hlimit : limit ≤ 2 ^ 63)
    (hm : m.stack.Fits limit) (hdecode : Instruction.decode m.code m.pc = .ok (i, next))
    (hkeep : i.keepsToLive m.stack.content = true) :
    Outcome (fun _ t => i.meaning limit m.arguments next m.configuration = some t.configuration)
      (fun _ _ => i.meaning limit m.arguments next m.configuration = none) (step m) := by
  have hexecute := realizes_execute (m := { m with pc := next, executed := m.executed + 1 }) hlimit
    (Instruction.wellFormed_of_decode hdecode) hm hkeep
  rw [step, hdecode]
  refine hexecute.mono (fun _ t hrealized => ?_) fun _ _ hno => ?_
  · obtain ⟨ht, he⟩ := hrealized
    refine Option.filter_eq_some_iff.2 ⟨he, decide_eq_true ?_⟩
    rw [configuration_stack, ht.length_content]
    exact ht.height
  · refine Option.filter_eq_none_iff.2 fun c hc => ?_
    rw [decide_eq_true_eq, Nat.not_le]
    exact hno c hc

end ConsMachine.Machine

/-! ## Runs -/

namespace ConsMachine.Session

open Machine

variable {s : Session}

/-- Nothing is refused by a sink that takes any number of bytes. -/
theorem write_of_unlimited (text : String) (hs : s.sink.capacity = none) :
    ∃ sink, write text s = .ok () { s with sink } ∧ sink.capacity = none := by
  refine ⟨{ s.sink with written := s.sink.written ++ text.toUTF8 }, ?_, hs⟩
  simp only [write, Sink.write, hs]

theorem announce_of_unlimited (hs : s.sink.capacity = none) :
    ∃ sink, announce s = .ok () { s with sink } ∧ sink.capacity = none := by
  change ∃ sink, (if s.traced then write (s.machine.traceLine ++ "\n") else pure () :
    Action Unit) s = .ok () { s with sink } ∧ sink.capacity = none
  split
  · exact write_of_unlimited _ hs
  · exact ⟨s.sink, rfl, hs⟩

theorem emit_of_unlimited (event : Event) (hs : s.sink.capacity = none) :
    ∃ result sink, emit event s = .ok result { s with sink } ∧ sink.capacity = none := by
  cases event with
  | silent => exact ⟨none, s.sink, rfl, hs⟩
  | stopped result => exact ⟨some result, s.sink, rfl, hs⟩
  | printed text =>
    obtain ⟨sink, hwrite, hsink⟩ := write_of_unlimited text hs
    exact ⟨none, sink, bind_of_ok hwrite, hsink⟩

/-- A session with such a sink takes the step that its machine takes. -/
theorem step_of_unlimited {returns : Event → Machine → Prop} {fails : Failure → Machine → Prop}
    (hs : s.sink.capacity = none) (hm : Outcome returns fails (Machine.step s.machine)) :
    Outcome (fun _ t => (∃ event, returns event t.machine) ∧ t.sink.capacity = none)
      (fun failure t => fails failure t.machine ∧ t.sink.capacity = none) (step s) := by
  obtain ⟨machine, traced, sink⟩ := s
  obtain ⟨sink₁, hannounce, hs₁⟩ := announce_of_unlimited hs
  rw [step, bind_of_ok hannounce]
  cases hr : Machine.step machine with
  | ok event m =>
    have hstep : onMachine Machine.step ⟨machine, traced, sink₁⟩ = .ok event ⟨m, traced, sink₁⟩ := by
      rw [onMachine, hr]
    obtain ⟨result, sink₂, hemit, hs₂⟩ := emit_of_unlimited (s := ⟨m, traced, sink₁⟩) event hs₁
    rw [bind_of_ok hstep, hemit]
    exact ⟨⟨event, hm.of_ok hr⟩, hs₂⟩
  | error failure m =>
    have hstep : onMachine Machine.step ⟨machine, traced, sink₁⟩ =
        .error failure ⟨m, traced, sink₁⟩ := by
      rw [onMachine, hr]
    rw [bind_of_error hstep]
    exact ⟨hm.of_error hr, hs₁⟩

theorem after_unlimited (hs : s.sink.capacity = none) : s.after.sink.capacity = none := by
  have hany : Outcome (fun _ _ => True) (fun _ _ => True) (Machine.step s.machine) := by
    cases Machine.step s.machine <;> trivial
  exact after_of_step ((step_of_unlimited hs hany).mono (fun _ _ => And.right) fun _ _ => And.right)

theorem iterate_unlimited (n : Nat) (hs : s.sink.capacity = none) :
    (after^[n] s).sink.capacity = none :=
  Function.Iterate.rec (fun t : Session => t.sink.capacity = none) hs (fun _ => after_unlimited) n

/-- If the next instruction keeps to the live words, the step succeeds just if the instruction has a
meaning on lists, and then it leaves what the meaning is. -/
def Follows (code arguments : List Int64) (limit : Nat) (s : Session) : Prop :=
  ∀ i next, Instruction.decode code.toArray s.machine.pc = .ok (i, next) →
    i.keepsToLive s.machine.configuration.stack = true →
    ∀ c, i.meaning limit arguments next s.machine.configuration = some c ↔
      ∃ result t, step s = .ok result t ∧ t.machine.configuration = c

theorem follows_of_fits {code arguments : List Int64} {limit : Nat} (hlimit : limit ≤ 2 ^ 63)
    (hs : s.machine.stack.Fits limit) (hsink : s.sink.capacity = none)
    (hprogram : s.machine.program = (code.toArray, arguments)) :
    s.Follows code arguments limit := by
  intro i next hdecode hkeep c
  obtain ⟨hcode, harguments⟩ := Prod.mk.inj hprogram
  rw [← hcode] at hdecode
  rw [← harguments]
  have hstep := step_of_unlimited hsink (step_spec hlimit hs hdecode hkeep)
  constructor
  · intro hc
    cases hr : step s with
    | ok result t =>
      obtain ⟨⟨-, ht⟩, -⟩ := hstep.of_ok hr
      exact ⟨result, t, rfl, Option.some.inj (ht.symm.trans hc)⟩
    | error failure t =>
      rw [(hstep.of_error hr).1] at hc
      cases hc
  · rintro ⟨result, t, hr, rfl⟩
    obtain ⟨⟨-, ht⟩, -⟩ := hstep.of_ok hr
    exact ht

/-- Whatever the program is, its machine follows the semantics on lists from every state that it
comes to, if the sink takes any number of bytes and the slots can be counted by 64-bit integers. -/
theorem follows_of_any_run (code arguments : List Int64) {heapSize stackSize : Nat}
    (hsize : 2 ≤ heapSize) (hslots : stackSize ≤ 2 ^ 63) :
    ∃ m, Machine.new code arguments heapSize stackSize = .ok m ∧ ∀ traced sink n,
      sink.capacity = none → (after^[n] ⟨m, traced, sink⟩).Follows code arguments stackSize := by
  obtain ⟨m, hnew, hm⟩ := new_intact code arguments stackSize hsize
  refine ⟨m, hnew, fun traced sink n hsink => ?_⟩
  have hs := iterate_intact (s := ⟨m, traced, sink⟩) n hm
  exact follows_of_fits hslots ⟨hs.stack.size, hs.stack.bounded⟩
    (iterate_unlimited (s := ⟨m, traced, sink⟩) n hsink)
    ((iterate_program (s := ⟨m, traced, sink⟩) n).trans (program_of_new hnew))

/-- A program that calls itself with two of the three words that it has pushed. -/
def callingProgram : List Int64 := [0, 4, 0, 5, 0, 6, 19, 2, 0]

/-- The first call of that program, in a stack with no more room than it needs. -/
theorem follows_of_first_call : ∃ m, Machine.new callingProgram [] 6 5 = .ok m ∧
    ∃ result t, step (after^[3] ⟨m, true, .unlimited⟩) = .ok result t ∧ t.machine.configuration =
      ⟨[.int 6, .int 5, .int (-999), .int 9, .int 4], 3, 0, m.heap⟩ := by
  obtain ⟨m, hm, h⟩ := follows_of_any_run callingProgram [] (show 2 ≤ 6 by decide)
    (show 5 ≤ 2 ^ 63 by decide)
  have hfollows := h true .unlimited 3 rfl ⟨.call, [2, 0]⟩ 9
  refine ⟨m, hm, (hfollows ?_ ?_ _).1 ?_⟩ <;> cases hm <;> decide +kernel

end ConsMachine.Session
