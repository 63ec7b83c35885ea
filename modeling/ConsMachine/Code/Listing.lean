import ConsMachine.Fault
import ConsMachine.Text.Blank
import ConsMachine.Text.Numeral

/-!
# Listings

A listing is the text of a code file: decimal numerals of 64-bit integers, separated by spaces,
tabs and line ends. The text carries no structure beyond that.

## Main definitions

* `Listing.numerals` — the longest row of numerals that a text starts with, and the rest.
* `Listing.read` — the integers of a listing, or where it stops being one.
-/

namespace ConsMachine.Listing

open Text

/-- The four characters that separate numerals. -/
def isSeparator (c : Char) : Bool := c == ' ' || c == '\t' || c == '\r' || c == '\n'

/-- The 64-bit integer at the start of a text, and the rest. A numeral out of range is none. -/
def integer? (cs : List Char) : Option (Int64 × List Char) :=
  match signedNumeral? cs with
  | none => none
  | some (value, rest) =>
    if Int64.minValue.toInt ≤ value ∧ value ≤ Int64.maxValue.toInt then
      some (Int64.ofInt value, rest)
    else none

theorem length_lt_of_integer? {cs rest : List Char} {value : Int64}
    (h : integer? cs = some (value, rest)) : rest.length < cs.length := by
  simp only [integer?] at h
  split at h
  · simp at h
  · next hread =>
    split at h
    · simp only [Option.some.injEq, Prod.mk.injEq] at h
      exact h.2 ▸ length_lt_of_signedNumeral? hread
    · simp at h

theorem length_dropWhile_le (p : Char → Bool) (cs : List Char) :
    (cs.dropWhile p).length ≤ cs.length :=
  (List.dropWhile_sublist p).length_le

/-- The integers that go on a row, each after one separator or more. Separators that no integer
follows belong to the rest. -/
def moreIntegers (cs : List Char) : List Int64 × List Char :=
  match cs with
  | [] => ([], [])
  | c :: tail =>
    if isSeparator c then
      match _ : integer? (tail.dropWhile isSeparator) with
      | none => ([], c :: tail)
      | some (value, rest) =>
        let (values, rest) := moreIntegers rest
        (value :: values, rest)
    else ([], c :: tail)
termination_by cs.length
decreasing_by
  have := length_lt_of_integer? ‹_›
  have := length_dropWhile_le isSeparator tail
  simp only [List.length_cons]
  omega

/-- The longest row of integers that a text starts with, and the rest. -/
def integers (cs : List Char) : List Int64 × List Char :=
  match integer? cs with
  | none => ([], cs)
  | some (value, rest) =>
    let (values, rest) := moreIntegers rest
    (value :: values, rest)

/-- The fault for a text that goes on with `rest` where an integer is expected. Blanks are skipped
first; the report names the characters up to the next blank, and their line. -/
def notAnInteger (text rest : List Char) : Fault :=
  let rest := rest.dropWhile isBlank
  let before := text.take (text.length - rest.length)
  .notAnInteger (before.count '\n' + 1) (String.ofList (rest.takeWhile fun c => !isBlank c))

/-- The integers of a listing. -/
def read (text : String) : Except Fault (List Int64) :=
  let (values, rest) := integers (text.toList.dropWhile isSeparator)
  match rest.dropWhile isSeparator with
  | [] => .ok values
  | rest => .error (notAnInteger text.toList rest)

end ConsMachine.Listing
