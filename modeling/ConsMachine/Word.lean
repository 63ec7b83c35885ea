/-!
# Words

Every slot of the stack and of the heap holds one word, and a word says what it is: an integer, a
reference to a heap block, or the header of a block. The distinction is what lets the collector
follow references only.

## Main definitions

* `Ref` — a reference to a block, by the index of its first data word.
* `Header` — tag, length and color of a block.
* `Word` — the unit of storage, with its written form `Word.text`.
-/

namespace ConsMachine

/-! ## References -/

/-- A reference to a heap block, by the index of the block's first data word. A block starts with
its header, so no data word has index 0, and index 0 serves as the null reference. -/
structure Ref where
  index : Nat
deriving DecidableEq

namespace Ref

/-- The reference to no block. -/
def null : Ref := ⟨0⟩

/-- The reference to the block whose header is at `index`. -/
def ofHeader (index : Nat) : Ref := ⟨index + 1⟩

/-- Where the header of the block is. -/
def headerIndex (r : Ref) : Nat := r.index - 1

def isNull (r : Ref) : Bool := r.index == 0

def text (r : Ref) : String := "#" ++ toString r.index

@[simp] theorem headerIndex_ofHeader (index : Nat) : (ofHeader index).headerIndex = index := rfl

@[simp] theorem isNull_ofHeader (index : Nat) : (ofHeader index).isNull = false := rfl

@[simp] theorem isNull_null : null.isNull = true := rfl

theorem isNull_iff {r : Ref} : r.isNull = true ↔ r = null := by
  cases r; simp [isNull, null]

/-- A reference that is not null is determined by its header. -/
theorem ofHeader_headerIndex {r : Ref} (h : r.isNull = false) : ofHeader r.headerIndex = r := by
  cases r with
  | mk index => cases index <;> simp_all [isNull, ofHeader, headerIndex]

theorem index_eq {r : Ref} (h : r.isNull = false) : r.index = r.headerIndex + 1 :=
  congrArg index (ofHeader_headerIndex h).symm

theorem headerIndex_inj {r s : Ref} (hr : r.isNull = false) (hs : s.isNull = false)
    (h : r.headerIndex = s.headerIndex) : r = s := by
  rw [← ofHeader_headerIndex hr, ← ofHeader_headerIndex hs, h]

end Ref

/-! ## Headers -/

/-- Whether a block holds program data. -/
inductive Tag where
  | cons
  | free
deriving DecidableEq

def Tag.text : Tag → String
  | .cons => "Cons"
  | .free => "Free"

/-- The state of a block during a collection. Between collections a block in use is white and a
block not in use is blue. -/
inductive Color where
  /-- Not reached by the marking, or not marked at all yet. -/
  | white
  /-- Reached, data words not scanned yet. -/
  | grey
  /-- Reached and scanned. -/
  | black
  /-- Not in use. -/
  | blue
deriving DecidableEq

namespace Color

def text : Color → String
  | .white => "White"
  | .grey => "Grey"
  | .black => "Black"
  | .blue => "Blue"

/-- White and blue blocks are the ones that no marking has reached. -/
def isUnmarked : Color → Bool
  | .white | .blue => true
  | .grey | .black => false

end Color

/-- What the first word of a block says about it. -/
structure Header where
  tag : Tag
  /-- The number of data words that follow the header. -/
  length : Nat
  color : Color
deriving DecidableEq

namespace Header

def paint (h : Header) (color : Color) : Header := { h with color }

/-- Fit for the free list, as far as tag and color go. -/
def isFree (h : Header) : Bool := h.tag == .free && h.color.isUnmarked

def text (h : Header) : String :=
  "<" ++ h.tag.text ++ " " ++ toString h.length ++ " " ++ h.color.text ++ ">"

/-- The header of a block of `length` words that is not in use. -/
def unused (length : Nat) : Header := ⟨.free, length, .blue⟩

end Header

/-! ## Words -/

/-- The content of one slot. -/
inductive Word where
  | int (value : Int64)
  | ref (target : Ref)
  | header (header : Header)
deriving DecidableEq

namespace Word

/-- What a slot holds before anything is stored in it. -/
def zero : Word := .int 0

/-- The null reference, which ends a list. -/
def null : Word := .ref .null

instance : Inhabited Word := ⟨zero⟩

/-- Integer 0 and the null reference both count as false. -/
def isZero : Word → Bool
  | .int value => value == 0
  | .ref target => target.isNull
  | .header _ => false

def header? : Word → Option Header
  | .header h => some h
  | _ => none

/-- The block that a word leads to, if it is a reference and not null. -/
def target? : Word → Option Ref
  | .ref r => if r.isNull then none else some r
  | _ => none

/-- The written form: decimal digits for an integer, `#n` for a reference, `<Tag n Color>` for a
header. -/
def text : Word → String
  | .int value => toString value.toInt
  | .ref target => target.text
  | .header h => h.text

end Word

end ConsMachine
