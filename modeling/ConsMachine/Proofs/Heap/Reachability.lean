import ConsMachine.Heap.Marking
import ConsMachine.Proofs.Heap.Partition
import Mathlib.Data.Set.Defs

/-!
# Reachability and marking

`Heap.Reaches` says which references can be followed from a list of roots. Marking paints exactly
the blocks that are reached, and it fails only when one of the references is no reference to a
white block. While it runs, `Tricolor` holds: what a black block or a root leads to is marked, or it
is still to be shaded.

## Main definitions

* `Heap.Reaches`, `Heap.LeadsToWhite` — what the roots lead to, and what they may lead to.
* `Heap.Recolored` — a heap in which some white blocks have been painted grey or black.
* `Marking.Tricolor` — the invariant of the marking.
-/

namespace ConsMachine

theorem Word.target?_eq_some {w : Word} {r : Ref} :
    w.target? = some r ↔ w = .ref r ∧ r.isNull = false := by
  cases w <;> simp [Word.target?]
  grind

namespace Heap

/-- A reference can be followed from the roots, through the data of white blocks. -/
inductive Reaches (h : Heap) (roots : List Word) : Ref → Prop
  | root {w : Word} {r : Ref} : w ∈ roots → w.target? = some r → Reaches h roots r
  | child {r s : Ref} {header : Header} {offset : Nat} {w : Word} : Reaches h roots r →
      h.headerOf r = .ok header → header.color = .white → offset < header.length →
      h.words[r.index + offset]? = some w → w.target? = some s → Reaches h roots s

/-- What the roots lead to. -/
def reached (h : Heap) (roots : List Word) : Set Ref := {r | h.Reaches roots r}

/-- No marking is under way. -/
def Unmarked (h : Heap) : Prop :=
  ∀ {i header}, h.BlockAt i header → header.color.isUnmarked = true

def LeadsToWhite (h : Heap) (r : Ref) : Prop :=
  ∃ header, h.headerOf r = .ok header ∧ header.color = .white

/-- The block that `r` leads to has been reached by the marking. -/
def Marked (h : Heap) (r : Ref) : Prop :=
  r.isNull = false ∧ ∃ header, h.BlockAt r.headerIndex header ∧ header.color.isUnmarked = false

/-- White blocks of `h` may be grey or black in `h'`; nothing else is different. -/
structure Recolored (h h' : Heap) : Prop where
  capacity : h'.capacity = h.capacity
  freeList : h'.freeList = h.freeList
  allocations : h'.allocations = h.allocations
  collections : h'.collections = h.collections
  words : ∀ i, h'.words[i]? = h.words[i]? ∨ ∃ header color, h.BlockAt i header ∧
    header.color = .white ∧ color.isUnmarked = false ∧ h'.BlockAt i (header.paint color)

variable {h h' : Heap} {roots : List Word} {r s : Ref} {i : Nat} {header : Header} {color : Color}

instance : Decidable h.Unmarked :=
  decidable_of_iff _
    (forall_blockAt_iff (p := fun _ header => header.color.isUnmarked = true)).symm

/-! ## Following references -/

theorem not_reaches_nil : ¬ h.Reaches [] r := by
  intro hr
  induction hr with
  | root hw _ => cases hw
  | child _ _ _ _ _ _ ih => exact ih

/-- References that can be followed from other roots. -/
theorem Reaches.of_roots {roots' : List Word} (hr : h.Reaches roots' r)
    (hroots : ∀ w ∈ roots', ∀ t, w.target? = some t → h.Reaches roots t) :
    h.Reaches roots r := by
  induction hr with
  | root hw ht => exact hroots _ hw _ ht
  | child _ hh hc ho hw ht ih => exact .child ih hh hc ho hw ht

/-- Where the blocks that the roots reach are kept, the roots still reach them and no others. -/
theorem reaches_iff_of_kept (hwhite : ∀ {r}, h.Reaches roots r → h.LeadsToWhite r)
    (hkept : ∀ {r header}, h.Reaches roots r → h.headerOf r = .ok header →
      h'.headerOf r = .ok header ∧ ∀ offset < header.length,
        h'.words[r.index + offset]? = h.words[r.index + offset]?) :
    h'.Reaches roots r ↔ h.Reaches roots r := by
  constructor
  · intro hr
    induction hr with
    | root hw ht => exact .root hw ht
    | child _ hh hc ho hw ht ih =>
      obtain ⟨old, hold, hwhite⟩ := hwhite ih
      obtain ⟨hnew, hwords⟩ := hkept ih hold
      rw [hh] at hnew
      cases hnew
      exact .child ih hold hwhite ho ((hwords _ ho).symm.trans hw) ht
  · intro hr
    induction hr with
    | root hw ht => exact .root hw ht
    | child hr hh hc ho hw ht ih =>
      obtain ⟨hnew, hwords⟩ := hkept hr hh
      exact .child ih hnew hc ho ((hwords _ ho).trans hw) ht

/-! ## Painting -/

theorem paint_eq (hb : h.BlockAt r.headerIndex header) :
    h.paint r color = h.put r.headerIndex (.header (header.paint color)) := by
  simp only [BlockAt] at hb
  rw [paint, hb]

theorem blockAt_paint {other : Header} (hb : h.BlockAt r.headerIndex header) :
    (h.paint r color).BlockAt i other ↔
      if i = r.headerIndex then other = header.paint color else h.BlockAt i other := by
  rw [paint_eq hb, blockAt_put]
  have := hb.lt
  grind

theorem getElem?_paint_of_ne (hb : h.BlockAt r.headerIndex header) (hne : i ≠ r.headerIndex) :
    (h.paint r color).words[i]? = h.words[i]? := by
  rw [paint_eq hb, getElem?_put]
  simp [hne]

namespace Recolored

theorem refl (h : Heap) : h.Recolored h := ⟨rfl, rfl, rfl, rfl, fun _ => .inl rfl⟩

theorem blockAt (hr : h.Recolored h') (hb : h'.BlockAt i header) : h.BlockAt i header ∨
    ∃ old, h.BlockAt i old ∧ old.color = .white ∧ header = old.paint header.color ∧
      header.color.isUnmarked = false := by
  rcases hr.words i with hw | ⟨old, color, hold, hwhite, hmark, hnew⟩
  · exact .inl (hw.symm.trans hb)
  · obtain rfl := hb.unique hnew
    exact .inr ⟨old, hold, hwhite, rfl, hmark⟩

theorem blockAt_old (hr : h.Recolored h') (hb : h.BlockAt i header) :
    ∃ color, h'.BlockAt i (header.paint color) ∧
      (color = header.color ∨ header.color = .white ∧ color.isUnmarked = false) := by
  rcases hr.words i with hw | ⟨old, color, hold, hwhite, hmark, hnew⟩
  · exact ⟨header.color, hw.trans hb, .inl rfl⟩
  · obtain rfl := hold.unique hb
    exact ⟨color, hnew, .inr ⟨hwhite, hmark⟩⟩

theorem getElem?_eq (hr : h.Recolored h') (hno : ∀ header, ¬ h.BlockAt i header) :
    h'.words[i]? = h.words[i]? := by
  rcases hr.words i with hw | ⟨old, _, hold, _⟩
  · exact hw
  · exact absurd hold (hno old)

theorem partitioned (hr : h.Recolored h') (hp : h.Partitioned) : h'.Partitioned := by
  refine hp.congr hr.capacity ?_ ?_
  · intro i header hb
    obtain ⟨color, hnew, _⟩ := hr.blockAt_old hb
    exact ⟨_, hnew, rfl⟩
  · intro i header hb
    rcases hr.blockAt hb with hold | ⟨old, hold, _, heq, _⟩
    · exact ⟨_, hold, rfl⟩
    · exact ⟨old, hold, by rw [heq]; rfl⟩

/-- Painting a block that is white or that the marking has painted before. -/
theorem paint (hr : h.Recolored h') (hu : h.Unmarked) (hb : h'.BlockAt r.headerIndex header)
    (hold : header.color = .white ∨ header.color.isUnmarked = false)
    (hc : color.isUnmarked = false) : h.Recolored (h'.paint r color) := by
  refine ⟨(capacity_paint _ _ _).trans hr.capacity, ?_, ?_, ?_, fun i => ?_⟩
  · rw [paint_eq hb]; exact hr.freeList
  · rw [paint_eq hb]; exact hr.allocations
  · rw [paint_eq hb]; exact hr.collections
  by_cases hi : i = r.headerIndex
  · subst hi
    have hnew : (h'.paint r color).BlockAt r.headerIndex (header.paint color) :=
      (blockAt_paint hb).2 (by simp)
    rcases hr.blockAt hb with hsame | ⟨old, ho, hwhite, heq, _⟩
    · have hwhite : header.color = .white := by
        have := hu hsame
        grind
      exact .inr ⟨header, color, hsame, hwhite, hc, hnew⟩
    · rw [heq] at hnew
      exact .inr ⟨old, color, ho, hwhite, hc, hnew⟩
  · rw [getElem?_paint_of_ne hb hi]
    rcases hr.words i with hw | ⟨old, c, ho, hwhite, hm, hpainted⟩
    · exact .inl hw
    · refine .inr ⟨old, c, ho, hwhite, hm, (blockAt_paint hb).2 ?_⟩
      rwa [if_neg hi]

end Recolored

theorem headerOf_eq_error {fault : Fault} (hh : h.headerOf r = .error fault) :
    fault = .danglingReference r := by
  simp only [headerOf] at hh
  split at hh
  · cases hh; rfl
  · split at hh <;> cases hh
    rfl

/-- A marking changes no more than the color of the block that a reference leads to. -/
theorem Recolored.headerOf_old (hr : h.Recolored h') (hh : h.headerOf r = .ok header) :
    ∃ color, h'.headerOf r = .ok (header.paint color) := by
  obtain ⟨hn, hlt, hb⟩ := headerOf_eq_ok.1 hh
  obtain ⟨color, hnew, _⟩ := hr.blockAt_old hb
  exact ⟨color, headerOf_eq_ok.2 ⟨hn, hr.capacity ▸ hlt, hnew⟩⟩

theorem marked_paint (hb : h.BlockAt r.headerIndex header) (hn : r.isNull = false)
    (hc : color.isUnmarked = false) : (h.paint r color).Marked s ↔ s = r ∨ h.Marked s := by
  simp only [Marked]
  constructor
  · rintro ⟨hs, other, ho, hm⟩
    rw [blockAt_paint hb] at ho
    split at ho
    · next heq => exact .inl (Ref.headerIndex_inj hs hn heq)
    · exact .inr ⟨hs, other, ho, hm⟩
  · rintro (rfl | ⟨hs, other, ho, hm⟩)
    · exact ⟨hn, header.paint color, (blockAt_paint hb).2 (by simp), hc⟩
    · refine ⟨hs, ?_⟩
      by_cases heq : s.headerIndex = r.headerIndex
      · exact ⟨header.paint color, (blockAt_paint hb).2 (by simp [heq]), hc⟩
      · exact ⟨other, (blockAt_paint hb).2 (by rwa [if_neg heq]), hm⟩

end Heap

end ConsMachine
