/-!
# Decimal numerals

Two ways to read a number. `signedNumeral?` reads the numeral at the start of a text and leaves the
rest, with no bound on the value. `numberOfText` takes a whole text as a number between two bounds
and says what is wrong with one that is none.
-/

namespace ConsMachine.Text

/-- The value of a decimal digit. -/
def digitValue (c : Char) : Nat := c.toNat - '0'.toNat

/-- The number that a row of decimal digits denotes. -/
def naturalOfDigits (digits : List Char) : Nat :=
  digits.foldl (fun value c => 10 * value + digitValue c) 0

/-! ## The numeral at the start of a text -/

/-- Splits off the sign that a numeral may start with: whether it is there, and what follows. -/
def splitMinus : List Char → Bool × List Char
  | '-' :: rest => (true, rest)
  | cs => (false, cs)

/-- Reads an optional minus sign and as many decimal digits as there are, at least one. -/
def signedNumeral? (cs : List Char) : Option (Int × List Char) :=
  let (negative, body) := splitMinus cs
  match body.takeWhile Char.isDigit with
  | [] => none
  | digits =>
    let value : Int := naturalOfDigits digits
    some (if negative then -value else value, body.dropWhile Char.isDigit)

theorem length_splitMinus_le (cs : List Char) : (splitMinus cs).2.length ≤ cs.length := by
  unfold splitMinus
  split <;> simp

/-- Reading a numeral consumes at least one character. -/
theorem length_lt_of_signedNumeral? {cs rest : List Char} {value : Int}
    (h : signedNumeral? cs = some (value, rest)) : rest.length < cs.length := by
  have hsplit := length_splitMinus_le cs
  simp only [signedNumeral?] at h
  split at h
  · simp at h
  · next digits hdigits =>
    have hlen := congrArg List.length
      (List.takeWhile_append_dropWhile (p := Char.isDigit) (l := (splitMinus cs).2))
    have hpos : 0 < ((splitMinus cs).2.takeWhile Char.isDigit).length :=
      List.length_pos_iff.2 fun hnil => hdigits hnil
    simp only [Option.some.injEq, Prod.mk.injEq] at h
    rw [← h.2]
    simp only [List.length_append] at hlen
    omega

/-! ## A whole text as a number -/

/-- Why a text is not a number between the bounds. -/
inductive NumberError where
  | empty
  | invalidDigit
  | tooLarge
  | tooSmall
deriving DecidableEq

def NumberError.text : NumberError → String
  | .empty => "cannot parse integer from empty string"
  | .invalidDigit => "invalid digit found in string"
  | .tooLarge => "number too large to fit in target type"
  | .tooSmall => "number too small to fit in target type"

/-- Appends digits to `value`, from the left, away from zero. The first character that is no digit
or that leads out of the bounds decides the error. -/
def appendDigits (lowest highest : Int) (negative : Bool) (value : Int) :
    List Char → Except NumberError Int
  | [] => .ok value
  | c :: rest =>
    if c.isDigit then
      let value := if negative then 10 * value - digitValue c else 10 * value + digitValue c
      if highest < value then .error .tooLarge
      else if value < lowest then .error .tooSmall
      else appendDigits lowest highest negative value rest
    else .error .invalidDigit

/-- The number that a text denotes: decimal digits after an optional plus sign, or after a minus
sign where the bounds admit negative numbers. -/
def numberOfText (lowest highest : Int) (text : String) : Except NumberError Int :=
  match text.toList with
  | [] => .error .empty
  | ['+'] | ['-'] => .error .invalidDigit
  | '+' :: rest => appendDigits lowest highest false 0 rest
  | '-' :: rest =>
    if lowest < 0 then appendDigits lowest highest true 0 rest else .error .invalidDigit
  | cs => appendDigits lowest highest false 0 cs

end ConsMachine.Text
