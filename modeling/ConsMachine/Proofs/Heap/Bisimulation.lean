import ConsMachine.Proofs.Heap.Cells
import Mathlib.Data.List.Forall2

/-!
# Cells that are reached in two heaps

Corresponding roots reach paired cells in heaps that mirror each other. What is paired beyond that
can be forgotten, and then either heap may be collected and a new cell be made in it, at whatever
place there is in each.

## Main definitions

* `Heap.Restricted` — the pairing of the cells that are reached.
* `Heap.Joined` — the pairing that also has two new cells.
* `Heap.Keeps` — some cells are the same after a new one has been made.
-/

namespace ConsMachine.Heap

/-- Pairs what `ρ` pairs, as far as the roots reach it. -/
def Restricted (ρ : Ref → Ref → Prop) (h : Heap) (roots : List Word) (r s : Ref) : Prop :=
  ρ r s ∧ h.Reaches roots r

/-- Pairs what `ρ` pairs, and a new cell with a new cell. -/
def Joined (ρ : Ref → Ref → Prop) (new new' r s : Ref) : Prop :=
  ρ r s ∨ r = new ∧ s = new'

variable {ρ : Ref → Ref → Prop} {g h g' h' : Heap} {roots roots' : List Word} {r s new new' : Ref}
  {offset : Nat} {w w' car cdr car' cdr' : Word}

/-! ## Reaching -/

theorem Mirror.symm (hm : Mirror ρ g h) : Mirror (flip ρ) h g where
  pairing := hm.pairing.symm
  left := hm.right
  right := hm.left
  data := fun hr ho => by
    obtain ⟨w, w', hw, hw', hc⟩ := hm.data hr ho
    exact ⟨w', w, hw', hw, hc.symm⟩

/-- What one list of roots reaches is paired with what the other reaches. -/
theorem Mirror.reaches (hm : Mirror ρ g h) (hroots : List.Forall₂ (Word.Corresponds ρ) roots roots')
    (hr : g.Reaches roots r) : ∃ s, ρ r s ∧ h.Reaches roots' s := by
  -- A word that leads to `r` corresponds to one that leads to what `r` is paired with.
  have target : ∀ {w w' : Word} {r : Ref}, w.Corresponds ρ w' → w.target? = some r →
      ∃ s, ρ r s ∧ w'.target? = some s := by
    intro w w' r hc ht
    obtain ⟨rfl, -⟩ := Word.target?_eq_some.1 ht
    cases hc with
    | null => cases ht
    | ref hrs => exact ⟨_, hrs, Word.target?_eq_some.2 ⟨rfl, hm.pairing.right hrs⟩⟩
  induction hr with
  | root hw ht =>
    obtain ⟨k, hk, rfl⟩ := List.mem_iff_getElem.1 hw
    have hk' : k < roots'.length := hroots.length_eq ▸ hk
    obtain ⟨s, hrs, ht'⟩ := target (hroots.get hk hk') ht
    exact ⟨s, hrs, .root (List.getElem_mem hk') ht'⟩
  | child _ hh _ ho hw ht ih =>
    obtain ⟨a, ha, hreach⟩ := ih
    cases hh.symm.trans (hm.left ha)
    obtain ⟨v, v', hv, hv', hc⟩ := hm.data ha ho
    cases hw.symm.trans hv
    obtain ⟨s, hrs, ht'⟩ := target hc ht
    exact ⟨s, hrs, .child hreach (hm.right ha) rfl ho hv' ht'⟩

/-! ## Forgetting what is not reached -/

theorem restricted_of_target (hp : Pairing ρ) (hw : w.Corresponds ρ w')
    (ht : ∀ r, w.target? = some r → h.Reaches roots r) :
    w.Corresponds (Restricted ρ h roots) w' := by
  cases hw with
  | int value => exact .int value
  | null => exact .null
  | ref hr => exact .ref ⟨hr, ht _ (Word.target?_eq_some.2 ⟨rfl, hp.left hr⟩)⟩

/-- Corresponding roots still correspond. -/
theorem restricted_of_root (hp : Pairing ρ) (hroot : w ∈ roots) (hw : w.Corresponds ρ w') :
    w.Corresponds (Restricted ρ h roots) w' :=
  restricted_of_target hp hw fun _ ht => .root hroot ht

theorem Mirror.restrict (hm : Mirror ρ g h) (roots : List Word) :
    Mirror (Restricted ρ g roots) g h where
  pairing := ⟨fun hr => hm.pairing.left hr.1, fun hr => hm.pairing.right hr.1,
    fun hr hs => hm.pairing.functional hr.1 hs.1, fun hr hs => hm.pairing.injective hr.1 hs.1⟩
  left := fun hr => hm.left hr.1
  right := fun hr => hm.right hr.1
  data := fun hr ho => by
    obtain ⟨w, w', hw, hw', hc⟩ := hm.data hr.1 ho
    exact ⟨w, w', hw, hw', restricted_of_target hm.pairing hc fun _ ht =>
      .child hr.2 (hm.left hr.1) rfl ho hw ht⟩

/-! ## New cells -/

/-- Cells that are reached survive, should there be a collection. -/
theorem Cleared.kept (hc : Cleared 2 h roots g) (hcell : h.IsCell r) (hr : h.Reaches roots r) :
    g.IsCell r ∧ ∀ offset < 2, g.words[r.index + offset]? = h.words[r.index + offset]? := by
  cases hc with
  | roomy _ heq =>
    subst heq
    exact ⟨hcell, fun _ _ => rfl⟩
  | collected _ hg _ =>
    obtain ⟨hn, hlt, hb⟩ := headerOf_eq_ok.1 hcell
    have hidx := Ref.index_eq hn
    obtain ⟨hb', hwords⟩ := hg.kept hb (by rwa [Ref.ofHeader_headerIndex hn])
    refine ⟨headerOf_eq_ok.2 ⟨hn, hg.capacity ▸ hlt, hb'⟩, ?_⟩
    intro offset ho
    exact hwords _ (by omega) (by simp only; omega)

/-- The cells of which `P` holds are the same in `h'`, and `new` is none of them. -/
structure Keeps (P : Ref → Prop) (h h' : Heap) (new : Ref) : Prop where
  isCell : ∀ {r}, P r → h'.IsCell r
  words : ∀ {r offset}, P r → offset < 2 →
    h'.words[r.index + offset]? = h.words[r.index + offset]?
  fresh : ∀ {r}, P r → r ≠ new

theorem NewCell.keeps {P : Ref → Prop} (hn : NewCell g new car cdr h')
    (hc : Cleared 2 h roots g) (hcell : ∀ {r}, P r → h.IsCell r)
    (hreach : ∀ {r}, P r → h.Reaches roots r) : Keeps P h h' new where
  isCell := fun hr => (hn.kept (hc.kept (hcell hr) (hreach hr)).1).1
  words := fun {r offset} hr ho => by
    obtain ⟨hg, hwords⟩ := hc.kept (hcell hr) (hreach hr)
    exact ((hn.kept hg).2 offset ho).trans (hwords offset ho)
  fresh := fun hr heq => hn.fresh (heq ▸ (hc.kept (hcell hr) (hreach hr)).1.leadsToWhite)

theorem NewCell.data (hn : NewCell g new car cdr h') (ho : offset < 2) :
    h'.words[new.index + offset]? = some (if offset = 0 then car else cdr) := by
  obtain rfl | rfl : offset = 0 ∨ offset = 1 := by omega
  · exact hn.car
  · exact hn.cdr

/-- Heaps that mirror each other still do when both have a new cell of corresponding words. -/
theorem Mirror.newCell {a b : Heap} (hm : Mirror ρ g h)
    (hg : Keeps (fun r => ∃ s, ρ r s) g g' new) (hh : Keeps (fun s => ∃ r, ρ r s) h h' new')
    (hn : NewCell a new car cdr g') (hn' : NewCell b new' car' cdr' h')
    (hcar : car.Corresponds ρ car') (hcdr : cdr.Corresponds ρ cdr') :
    Mirror (Joined ρ new new') g' h' where
  pairing :=
    { left := by
        rintro r s (hr | ⟨rfl, rfl⟩)
        · exact hm.pairing.left hr
        · exact hn.isCell.ne_null
      right := by
        rintro r s (hr | ⟨rfl, rfl⟩)
        · exact hm.pairing.right hr
        · exact hn'.isCell.ne_null
      functional := by
        rintro r s s' (hr | ⟨rfl, rfl⟩) (hs | ⟨heq, rfl⟩)
        · exact hm.pairing.functional hr hs
        · exact absurd heq (hg.fresh ⟨_, hr⟩)
        · exact absurd rfl (hg.fresh ⟨_, hs⟩)
        · rfl
      injective := by
        rintro r r' s (hr | ⟨rfl, rfl⟩) (hs | ⟨rfl, heq⟩)
        · exact hm.pairing.injective hr hs
        · exact absurd heq (hh.fresh ⟨_, hr⟩)
        · exact absurd rfl (hh.fresh ⟨_, hs⟩)
        · rfl }
  left := by
    rintro r s (hr | ⟨rfl, rfl⟩)
    · exact hg.isCell ⟨s, hr⟩
    · exact hn.isCell
  right := by
    rintro r s (hr | ⟨rfl, rfl⟩)
    · exact hh.isCell ⟨r, hr⟩
    · exact hn'.isCell
  data := by
    rintro r s offset (hr | ⟨rfl, rfl⟩) ho
    · obtain ⟨w, w', hw, hw', hc⟩ := hm.data hr ho
      refine ⟨w, w', (hg.words ⟨s, hr⟩ ho).trans hw, (hh.words ⟨r, hr⟩ ho).trans hw', ?_⟩
      exact hc.mono fun _ _ => .inl
    · refine ⟨_, _, hn.data ho, hn'.data ho, ?_⟩
      split
      · exact hcar.mono fun _ _ => .inl
      · exact hcdr.mono fun _ _ => .inl

end ConsMachine.Heap
