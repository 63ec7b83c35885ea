import ConsMachine.Machine.Sink
import ConsMachine.Machine.Step
import ConsMachine.Machine.Trace

/-!
# Sessions

A session is a machine with a place for its output. It writes what the steps print and, if it is
traced, a line before every step.

## Main definitions

* `Session.step` — one step, with its output.
* `Session.advance` — at most so many steps of a run, up to the end of the program.
-/

namespace ConsMachine

structure Session where
  machine : Machine
  /-- Whether every step is announced by a line. -/
  traced : Bool
  sink : Sink

namespace Session

/-- An operation on a session. A failure leaves the changes made before it. -/
abbrev Action := EStateM Failure Session

/-- Writes a text to the sink. -/
def write (text : String) : Action Unit := fun s =>
  match Sink.write text s.sink with
  | .ok () sink => .ok () { s with sink }
  | .error fault sink => .error (.fault fault) { s with sink }

/-- An operation on the machine. -/
@[inline] def onMachine {α : Type} (action : Machine.Action α) : Action α :=
  fun ⟨machine, traced, sink⟩ =>
    match action machine with
    | .ok value machine => .ok value ⟨machine, traced, sink⟩
    | .error failure machine => .error failure ⟨machine, traced, sink⟩

/-- Writes the trace line, if the session is traced. -/
def announce : Action Unit := do
  let s ← get
  if s.traced then write (s.machine.traceLine ++ "\n")

/-- Writes what a step shows. The value is the result of the program once it has stopped. -/
def emit : Machine.Event → Action (Option Word)
  | .silent => return none
  | .printed text => do
    write text
    return none
  | .stopped result => return some result

/-- One step. -/
def step : Action (Option Word) := do
  announce
  emit (← onMachine Machine.step)

/-! ## Runs -/

/-- How far a run has come. -/
inductive Progress where
  | running (session : Session)
  | ended (result : Except Failure Word) (session : Session)

/-- The result of a run, once its output is complete. A breach leaves no time for that. -/
def complete (result : Except Failure Word) (s : Session) : Except Failure Word :=
  match result, s.sink.flush with
  | .error (.breach cause), _ => .error (.breach cause)
  | _, .error fault => .error (.fault fault)
  | result, .ok () => result

/-- Runs for at most `fuel` steps. The run ends when the program stops or a step fails. -/
def advance : Nat → Session → Progress
  | 0, s => .running s
  | fuel + 1, s =>
    match step s with
    | .ok none s => advance fuel s
    | .ok (some result) s => .ended (complete (.ok result) s) s
    | .error failure s => .ended (complete (.error failure) s) s

end Session

end ConsMachine
