import ConsMachine.Text.Numeral

/-!
# Options

The arguments of the command line: one program file, integers for the program, flags and sizes.
Arguments are read from left to right, and a request for help or for the version is answered as
soon as it is met. What a value must be is checked once all arguments are read. An option whose
value is missing keeps its default.

## Main definitions

* `Options` — what a run is asked to do.
* `Request` — what the command line as a whole asks for.
* `Request.ofArguments` — reading the command line.
-/

namespace ConsMachine.CommandLine

open Text

/-- What a run is asked to do. -/
structure Options where
  /-- The name of the program file. -/
  program : String
  /-- The integers for the program. -/
  arguments : List Int64
  heapSize : Nat
  stackSize : Nat
  traced : Bool
  statistics : Bool
  dump : Bool

/-- What a command line asks for. -/
inductive Request where
  | help
  | version
  /-- The arguments do not fit together. -/
  | misuse
  /-- A value of `item` is no number. -/
  | badNumber (item : String) (error : NumberError)
  | run (options : Options)

/-! ## Shapes of arguments -/

/-- Decimal digits at the front of a text, and the rest. -/
def splitDigits (cs : List Char) : List Char × List Char :=
  (cs.takeWhile Char.isDigit, cs.dropWhile Char.isDigit)

/-- A power of ten, or nothing. -/
def isExponent : List Char → Bool
  | [] => true
  | c :: rest =>
    (c == 'e' || c == 'E') &&
      let digits := match rest with
        | '+' :: digits | '-' :: digits => digits
        | digits => digits
      !digits.isEmpty && digits.all Char.isDigit

/-- The text after a minus sign is that of a number, an infinity or no number. -/
def isMagnitude (cs : List Char) : Bool :=
  let name := String.ofList (cs.map Char.toLower)
  if name == "inf" || name == "infinity" || name == "nan" then true
  else
    let (whole, rest) := splitDigits cs
    match rest with
    | '.' :: rest =>
      let (places, rest) := splitDigits rest
      !(whole.isEmpty && places.isEmpty) && isExponent rest
    | rest => !whole.isEmpty && isExponent rest

/-- The argument names options: it starts with a minus sign, has more after it, and is no negative
number. -/
def namesOption (argument : String) : Bool :=
  match argument.toList with
  | '-' :: rest => !rest.isEmpty && !isMagnitude rest
  | _ => false

/-- Name and value of a long option. The value follows the first equals sign; more of them in front
of it do not count. -/
def splitLong (argument : String) : String × Option String :=
  let body := argument.toList.dropWhile (· == '-')
  let name := String.ofList (body.takeWhile (· != '='))
  match body.dropWhile (· != '=') with
  | [] => (name, none)
  | value => (name, some (String.ofList (value.dropWhile (· == '='))))

/-! ## Reading -/

/-- The arguments read so far, every list with the last one first. -/
structure Seen where
  traces : Nat
  statistics : Nat
  dumps : Nat
  /-- The value that comes with each use of the option, if one does. -/
  heapSizes : List (Option String)
  /-- The value that comes with each use of the option, if one does. -/
  stackSizes : List (Option String)
  positionals : List String

def Seen.none : Seen := ⟨0, 0, 0, [], [], []⟩

def Seen.addPositional (seen : Seen) (argument : String) : Seen :=
  { seen with positionals := argument :: seen.positionals }

def Seen.addHeapSize (seen : Seen) (value? : Option String) : Seen :=
  { seen with heapSizes := value? :: seen.heapSizes }

def Seen.addStackSize (seen : Seen) (value? : Option String) : Seen :=
  { seen with stackSizes := value? :: seen.stackSizes }

/-- Reads a row of one-letter options. -/
def readLetters (seen : Seen) : List Char → Except Request Seen
  | [] => .ok seen
  | 'h' :: _ => .error .help
  | 'V' :: _ => .error .version
  | 'S' :: rest => readLetters { seen with statistics := seen.statistics + 1 } rest
  | _ => .error .misuse

/-- Reads a long flag. A value given to it does not count. -/
def readFlag (seen : Seen) : String → Except Request Seen
  | "help" => .error .help
  | "version" => .error .version
  | "trace" => .ok { seen with traces := seen.traces + 1 }
  | "statistics" => .ok { seen with statistics := seen.statistics + 1 }
  | "dump-state" => .ok { seen with dumps := seen.dumps + 1 }
  | _ => .error .misuse

/-- The long options that take a value. -/
def sizeOption? : String → Option (Seen → Option String → Seen)
  | "heap-size" => some Seen.addHeapSize
  | "stack-size" => some Seen.addStackSize
  | _ => none

/-- Reads the arguments from left to right. The value of a size may be the next argument, unless that
one names options itself. -/
def readArguments (seen : Seen) : List String → Except Request Seen
  | [] => .ok seen
  | argument :: rest =>
    if argument == "--" then .ok (rest.foldl Seen.addPositional seen)
    else if !namesOption argument then readArguments (seen.addPositional argument) rest
    else if !argument.startsWith "--" then do
      readArguments (← readLetters seen (argument.toList.drop 1)) rest
    else
      let (name, value?) := splitLong argument
      match sizeOption? name, value?, rest with
      | none, _, rest => do readArguments (← readFlag seen name) rest
      | some add, some value, rest => readArguments (add seen (some value)) rest
      | some add, none, [] => .ok (add seen none)
      | some add, none, next :: rest =>
        if namesOption next then readArguments (add seen none) (next :: rest)
        else readArguments (add seen (some next)) rest

/-! ## Values -/

/-- A number of words or slots. -/
def size (text : String) : Except NumberError Nat :=
  (numberOfText 0 (UInt64.size - 1) text).map Int.toNat

/-- An integer for the program. -/
def programInteger (text : String) : Except NumberError Int64 :=
  (numberOfText Int64.minValue.toInt Int64.maxValue.toInt text).map Int64.ofInt

/-- The values of `item`, all of which must be numbers. -/
def numbers {α : Type} (item : String) (number : String → Except NumberError α)
    (texts : List String) : Except Request (List α) :=
  (texts.mapM number).mapError (.badNumber item)

/-- The size that an option gives. It may be used once, and without a value it keeps its default. -/
def sizeOf (item : String) (default : Nat) (uses : List (Option String)) : Except Request Nat := do
  let sizes ← numbers item size (uses.filterMap id)
  if uses.length > 1 then .error .misuse
  .ok (sizes.headD default)

def defaultHeapSize : Nat := 1000

def defaultStackSize : Nat := 1000

/-- Checks the values of all arguments. -/
def Seen.options (seen : Seen) : Except Request Options := do
  match seen.positionals.reverse with
  | [] => .error .misuse
  | program :: arguments =>
    let heapSize ← sizeOf "--heap-size <heap-size>" defaultHeapSize seen.heapSizes.reverse
    let stackSize ← sizeOf "--stack-size <stack-size>" defaultStackSize seen.stackSizes.reverse
    let arguments ← numbers "<args>..." programInteger arguments
    if seen.traces > 1 || seen.statistics > 1 || seen.dumps > 1 then .error .misuse
    .ok {
      program, arguments, heapSize, stackSize
      traced := seen.traces == 1
      statistics := seen.statistics == 1
      dump := seen.dumps == 1 }

/-- What a command line asks for. -/
def Request.ofArguments (arguments : List String) : Request :=
  match readArguments .none arguments >>= Seen.options with
  | .ok options => .run options
  | .error request => request

end ConsMachine.CommandLine
