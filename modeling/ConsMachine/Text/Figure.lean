/-!
# Figures in reports

Counters are right aligned, and a time is shown in seconds with three places. The time is taken as
a binary floating-point number of 53 significant bits, which tells from the exact value only when
it is longer than a hundred thousand years.
-/

namespace ConsMachine.Text

/-- Fills up with spaces in front. -/
def rightAligned (width : Nat) (text : String) : String :=
  "".pushn ' ' (width - text.length) ++ text

/-- The integer nearest to a quotient; of two, the even one. -/
def roundDiv (num den : Nat) : Nat :=
  let quotient := num / den
  let twice := 2 * (num % den)
  if twice < den ∨ (twice = den ∧ quotient % 2 = 0) then quotient else quotient + 1

/-- The units into which 1 is divided: 64 binary places are kept below the point. -/
def unitsOfOne : Nat := 1 <<< 64

/-- The number of 53 significant bits nearest to `num / den`, in units of the last binary place
kept. -/
def nearestDouble (num den : Nat) : Nat :=
  let units := num * unitsOfOne
  let step := 1 <<< ((units / den).log2 - 52)
  roundDiv units (den * step) * step

/-- A time in seconds with three places. -/
def seconds (milliseconds : Nat) : String :=
  let whole := nearestDouble (milliseconds / 1000) 1
  let part := nearestDouble (milliseconds % 1000) 1000
  let sum := nearestDouble (whole + part) unitsOfOne
  let thousandths := roundDiv (sum * 1000) unitsOfOne
  let places := toString (thousandths % 1000)
  toString (thousandths / 1000) ++ "." ++ "".pushn '0' (3 - places.length) ++ places

end ConsMachine.Text
