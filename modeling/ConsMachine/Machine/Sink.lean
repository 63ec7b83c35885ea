import ConsMachine.Fault

/-!
# Sinks

Where output goes. A sink keeps what was written to it; one of limited capacity takes the bytes
that it has room for and then fails.
-/

namespace ConsMachine

structure Sink where
  written : ByteArray
  /-- How many bytes it takes in all; none means any number. -/
  capacity : Option Nat
  /-- Whether it fails when it is told that output is complete. -/
  flushFails : Bool

namespace Sink

/-- A sink that never fails. -/
def unlimited : Sink := ⟨.empty, none, false⟩

/-- Writes a text. What there is room for is kept also when the rest is refused. -/
def write (text : String) : EStateM Fault Sink Unit := fun s =>
  let bytes := text.toUTF8
  match s.capacity with
  | none => .ok () { s with written := s.written ++ bytes }
  | some capacity =>
    let room := capacity - s.written.size
    if bytes.size ≤ room then .ok () { s with written := s.written ++ bytes }
    else
      .error (.outputFailed "sink is full") { s with written := s.written ++ bytes.extract 0 room }

/-- Completes the output. -/
def flush (s : Sink) : Except Fault Unit :=
  if s.flushFails then .error (.outputFailed "flush failed") else .ok ()

end Sink

end ConsMachine
