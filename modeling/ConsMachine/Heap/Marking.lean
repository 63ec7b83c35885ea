import ConsMachine.Heap.Basic

/-!
# Marking

The first half of a collection paints every block that the roots lead to black. A block is grey
from when it is reached until its data words are scanned, and the grey blocks wait on a worklist of
which the last one reached is scanned first. White blocks only become fewer, so marking ends also
on cyclic data.

## Main definitions

* `Marking` — a heap with its worklist, and `Marking.pending`, which every scan lowers.
* `Marking.shade`, `Marking.scan`, `Marking.drain` — reach a block, scan one, scan all.
* `Heap.mark` — marking from a list of roots.
-/

namespace ConsMachine

/-- A heap that is being marked, with the blocks that are reached but not scanned. -/
structure Marking where
  heap : Heap
  grey : List Ref
deriving DecidableEq

namespace Word

/-- The word is the header of a white block. -/
def isWhiteHeader : Word → Bool
  | .header h => h.color == .white
  | _ => false

end Word

namespace Heap

/-- How many white blocks there are. -/
def whites (h : Heap) : Nat := h.words.countP Word.isWhiteHeader

end Heap

namespace Marking

/-- A step of the marking. A failure leaves what is painted so far. -/
abbrev Action := EStateM Failure Marking

/-- Changes the color of the block that `r` leads to. A header must stand before it. -/
def paint (r : Ref) (color : Color) : Action Unit := fun m =>
  match m.heap.words[r.headerIndex]? with
  | some (.header _) => .ok () { m with heap := m.heap.paint r color }
  | some _ => .error (.breach .noHeader) m
  | none => .error (.breach .outsideArray) m

/-- Reaches a block: a white one is painted grey and put on the worklist, a grey or black one has
been reached before, and a blue one is not in use, so nothing may lead to it. -/
def shade (r : Ref) : Action Unit := fun m =>
  match m.heap.headerOf r with
  | .error fault => .error (.fault fault) m
  | .ok header =>
    match header.color with
    | .white =>
      match paint r .grey m with
      | .error failure m => .error failure m
      | .ok () m => .ok () { m with grey := r :: m.grey }
    | .grey | .black => .ok () m
    | .blue => .error (.fault (.danglingReference r)) m

def shadeAll : List Ref → Action Unit
  | [] => pure ()
  | r :: rest => do
    shade r
    shadeAll rest

/-- Reaches the blocks that the roots lead to. Integers and null lead nowhere. -/
def shadeRoots : List Word → Action Unit
  | [] => pure ()
  | .header _ :: _ => throw (.breach .headerAmongRoots)
  | word :: rest => do
    match word.target? with
    | some r => shade r
    | none => pure ()
    shadeRoots rest

/-- Paints a reached block black and reaches the blocks that its data words lead to. -/
def scan (r : Ref) : Action Unit := fun m =>
  match m.heap.headerOf r with
  | .error fault => .error (.fault fault) m
  | .ok header =>
    match m.heap.data? r header.length with
    | none => .error (.breach .outsideArray) m
    | some data =>
      match paint r .black m with
      | .error failure m => .error failure m
      | .ok () m => shadeAll (data.filterMap Word.target?) m

/-- The block of a header that has been read can be painted. -/
theorem paint_of_headerOf {m : Marking} {r : Ref} {header : Header} (color : Color)
    (hh : m.heap.headerOf r = .ok header) :
    paint r color m = .ok () { m with heap := m.heap.paint r color } := by
  simp only [paint, Heap.getElem?_of_headerOf hh]

/-! ## The measure -/

/-- The work ahead: a white block can still be reached and scanned, a grey one only scanned. -/
def pending (m : Marking) : Nat := 2 * m.heap.whites + m.grey.length

/-- Painting replaces one header, so the count of white ones changes by that header only. -/
theorem whites_paint {h : Heap} {r : Ref} {header : Header} (color : Color)
    (hget : h.words[r.headerIndex]? = some (.header header)) :
    (h.paint r color).whites =
      h.whites - (if header.color = .white then 1 else 0) + (if color = .white then 1 else 0) := by
  obtain ⟨hlt, hword⟩ := Array.getElem?_eq_some_iff.1 hget
  rw [Heap.paint, hget]
  simp only [Heap.whites, Heap.put, Array.setIfInBounds, hlt, dite_true]
  rw [Array.countP_set, hword]
  simp only [Word.isWhiteHeader, Header.paint, beq_iff_eq]

theorem whites_paint_le (h : Heap) (r : Ref) {color : Color} (hc : color ≠ .white) :
    (h.paint r color).whites ≤ h.whites := by
  cases hget : h.words[r.headerIndex]? with
  | none => simp only [Heap.paint, hget, Nat.le_refl]
  | some word =>
    cases word with
    | header header =>
      rw [whites_paint color hget, if_neg hc]
      omega
    | _ => simp only [Heap.paint, hget, Nat.le_refl]

theorem whites_paint_lt {h : Heap} {r : Ref} {header : Header} {color : Color}
    (hh : h.headerOf r = .ok header) (hw : header.color = .white) (hc : color ≠ .white) :
    (h.paint r color).whites < h.whites := by
  have hget := Heap.getElem?_of_headerOf hh
  obtain ⟨hlt, hword⟩ := Array.getElem?_eq_some_iff.1 hget
  have hpos : 0 < h.whites :=
    Array.countP_pos_iff.2 ⟨_, Array.getElem_mem hlt, by rw [hword]; exact beq_iff_eq.2 hw⟩
  rw [whites_paint color hget, if_pos hw, if_neg hc]
  omega

theorem pending_shade {r : Ref} {m m' : Marking} (h : shade r m = .ok () m') :
    m'.pending ≤ m.pending := by
  unfold shade at h
  split at h
  · simp at h
  · next header hh =>
    split at h
    · next hw =>
      rw [paint_of_headerOf .grey hh] at h
      cases h
      have : (m.heap.paint r .grey).whites < m.heap.whites := whites_paint_lt hh hw (by decide)
      simp only [pending, List.length_cons]
      omega
    · cases h; exact Nat.le_refl _
    · cases h; exact Nat.le_refl _
    · simp at h

theorem pending_shadeAll {refs : List Ref} {m m' : Marking} (h : shadeAll refs m = .ok () m') :
    m'.pending ≤ m.pending := by
  induction refs generalizing m with
  | nil => cases h; exact Nat.le_refl _
  | cons r rest ih =>
    simp only [shadeAll, bind, EStateM.bind] at h
    split at h
    · next hs => exact Nat.le_trans (ih h) (pending_shade hs)
    · simp at h

theorem pending_scan {r : Ref} {m m' : Marking} (h : scan r m = .ok () m') :
    m'.pending ≤ m.pending := by
  unfold scan at h
  split at h
  · simp at h
  next header hh =>
  split at h
  · simp at h
  rw [paint_of_headerOf .black hh] at h
  refine Nat.le_trans (pending_shadeAll h) ?_
  have : (m.heap.paint r .black).whites ≤ m.heap.whites := whites_paint_le _ _ (by decide)
  simp only [pending]
  omega

/-! ## The loop -/

/-- Scans the blocks on the worklist until none is left. -/
def drain (m : Marking) : EStateM.Result Failure Marking Unit :=
  match _ : m.grey with
  | [] => .ok () m
  | r :: grey =>
    match _ : scan r ⟨m.heap, grey⟩ with
    | .ok () m' => drain m'
    | .error failure m' => .error failure m'
termination_by m.pending
decreasing_by
  have := pending_scan ‹_›
  simp only [pending, *, List.length_cons] at *
  omega

end Marking

namespace Heap

/-- Paints every block that the roots lead to black. -/
def mark (roots : List Word) : Action Unit := fun h =>
  match Marking.shadeRoots roots ⟨h, []⟩ with
  | .error failure m => .error failure m.heap
  | .ok () m =>
    match Marking.drain m with
    | .error failure m => .error failure m.heap
    | .ok () m => .ok () m.heap

end Heap

end ConsMachine
