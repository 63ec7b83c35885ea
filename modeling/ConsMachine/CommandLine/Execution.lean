import ConsMachine.Code.Listing
import ConsMachine.CommandLine.Options
import ConsMachine.Display
import ConsMachine.Machine.Session
import ConsMachine.Report

/-!
# Execution

What the command line does with a request: which session it starts for a program file, and what it
prints and reports once the session has ended.

## Main definitions

* `Reply` — what is printed, and the exit status.
* `Options.session` — the session for the content of the program file.
* `Options.reply` — the reply once the session has ended.
-/

namespace ConsMachine.CommandLine

/-- What is printed on the two streams, and the exit status. -/
structure Reply where
  output : ByteArray
  errors : String
  status : Nat

def helpText : String :=
"listmachine 0.1.0
Run a list-C bytecode program

USAGE:
    listmachine [FLAGS] [OPTIONS] <program> [args]...

FLAGS:
        --dump-state    Print the registers, stack and heap after the run
    -h, --help          Prints help information
    -S, --statistics    Report instruction, allocation and collection counts on stderr
        --trace         Print the stack and next instruction before every step
    -V, --version       Prints version information

OPTIONS:
        --heap-size <heap-size>      Heap size in words [default: 1000]
        --stack-size <stack-size>    Stack size in slots [default: 1000]

ARGS:
    <program>    File of whitespace-separated integers
    <args>...    Integer arguments, pushed by `LDARGS`
"

def versionText : String := "listmachine 0.1.0\n"

namespace Reply

/-- Prints a text and succeeds. -/
def print (text : String) : Reply := ⟨text.toUTF8, "", 0⟩

/-- Refuses to run. -/
def refuse (reason : String) : Reply := ⟨.empty, "error: " ++ reason ++ "\n", 1⟩

def ofFault (fault : Fault) : Reply := ⟨.empty, "error: " ++ fault.message ++ "\n", fault.status⟩

/-- The status of a process that ended on the spot. -/
def breachStatus : Nat := 101

/-- The status that a result is: the low byte of an integer, 0 for anything else. -/
def statusOf : Word → Nat
  | .int value => (value.toInt % 256).toNat
  | _ => 0

/-- The end of a run: the status, after the report of what went wrong. -/
def ofResult : Except Failure Word → Reply
  | .ok result => ⟨.empty, "", statusOf result⟩
  | .error (.fault fault) => ofFault fault
  | .error (.breach _) => ⟨.empty, "", breachStatus⟩

end Reply

/-- Why the content of a file could not be had. -/
inductive FileError where
  | missing
  | isDirectory
  | notDirectory
  | notText
  | other (reason : String)

def FileError.text : FileError → String
  | .missing => "No such file or directory (os error 2)"
  | .isDirectory => "Is a directory (os error 21)"
  | .notDirectory => "Not a directory (os error 20)"
  | .notText => "stream did not contain valid UTF-8"
  | .other reason => reason

/-- The text of a file. -/
def textOf (content : Except FileError ByteArray) : Except FileError String :=
  match content with
  | .error error => .error error
  | .ok bytes =>
    match String.fromUTF8? bytes with
    | some text => .ok text
    | none => .error .notText

/-- The session that runs the program file. The file is read before the stores are made. -/
def Options.session (o : Options) (content : Except FileError ByteArray) :
    Except Fault Session := do
  let text ← (textOf content).mapError fun error => .unreadableFile o.program error.text
  let code ← Listing.read text
  let machine ← Machine.new code o.arguments o.heapSize o.stackSize
  return ⟨machine, o.traced, .unlimited⟩

/-- The reply once the session has ended, after what it wrote itself. -/
def Options.reply (o : Options) (result : Except Failure Word) (s : Session) (elapsed : Nat) :
    Reply :=
  let ending := Reply.ofResult result
  let report := if o.statistics then (s.machine.report elapsed).text ++ "\n" else ""
  let dump := if o.dump then s.machine.display ++ "\n" else ""
  { ending with
    output := dump.toUTF8
    errors := report ++ ending.errors }

/-- The reply to a request that starts no run. -/
def Request.reply? : Request → Option Reply
  | .help => some (.print helpText)
  | .version => some (.print versionText)
  | .misuse => some (.refuse "the arguments do not fit together, see --help")
  | .badNumber item error =>
    some (.refuse ("Invalid value for '" ++ item ++ "': " ++ error.text))
  | .run _ => none

end ConsMachine.CommandLine
