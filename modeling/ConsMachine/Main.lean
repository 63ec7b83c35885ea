import ConsMachine.CommandLine.Execution

/-!
# The program

Reads the program file, runs the session in slices, and passes on what each slice wrote.
-/

namespace ConsMachine.CommandLine

/-- How many steps are run between two writes. -/
def slice : Nat := 10000

/-- Why a file could not be read. -/
def FileError.ofIO : IO.Error → FileError
  | .noFileOrDirectory .. => .missing
  | .inappropriateType _ code _ => if code == 21 then .isDirectory else .notDirectory
  | error => .other (toString error)

def readFile (name : String) : IO (Except FileError ByteArray) := do
  try
    return .ok (← IO.FS.readBinFile name)
  catch error =>
    return .error (.ofIO error)

/-- Passes on what a session has written. -/
def passOn (s : Session) : IO Session := do
  (← IO.getStdout).write s.sink.written
  return { s with sink := { s.sink with written := .empty } }

/-- Runs a session to its end. -/
partial def finish (s : Session) : IO (Except Failure Word × Session) := do
  match s.advance slice with
  | .running s => finish (← passOn s)
  | .ended result s => return (result, ← passOn s)

def print (reply : Reply) : IO UInt32 := do
  let stdout ← IO.getStdout
  stdout.write reply.output
  stdout.flush
  IO.eprint reply.errors
  return UInt32.ofNat reply.status

def runFile (o : Options) : IO UInt32 := do
  match o.session (← readFile o.program) with
  | .error fault => print (.ofFault fault)
  | .ok session =>
    let start ← IO.monoMsNow
    let (result, session) ← finish session
    let stop ← IO.monoMsNow
    print (o.reply result session (stop - start))

/-- Answers a command line. -/
def answer (arguments : List String) : IO UInt32 := do
  match Request.ofArguments arguments with
  | .run options => runFile options
  | request => print (request.reply?.getD (.print ""))

end ConsMachine.CommandLine

def main (arguments : List String) : IO UInt32 := ConsMachine.CommandLine.answer arguments
