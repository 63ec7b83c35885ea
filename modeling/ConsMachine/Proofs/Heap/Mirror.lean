import ConsMachine.Proofs.Correspondence
import ConsMachine.Proofs.Heap.Fields

/-!
# Heaps that mirror each other

Cells that are paired hold corresponding words. Replacing corresponding words in paired cells keeps
that, because paired cells are blocks of their own in both heaps.

## Main definitions

* `Heap.IsCell` — a reference leads to a cell.
* `Heap.Mirror` — heaps whose paired cells hold corresponding words.
* `Heap.Update` — corresponding words have been stored in paired cells, or nothing has changed.
-/

namespace ConsMachine.Heap

/-- `r` leads to a cell in use. -/
def IsCell (h : Heap) (r : Ref) : Prop := h.headerOf r = .ok ⟨.cons, 2, .white⟩

/-- The pairing is of cells, and paired cells hold corresponding words. -/
structure Mirror (ρ : Ref → Ref → Prop) (g h : Heap) : Prop where
  pairing : Pairing ρ
  left : ∀ {r s}, ρ r s → g.IsCell r
  right : ∀ {r s}, ρ r s → h.IsCell s
  data : ∀ {r s offset}, ρ r s → offset < 2 → ∃ w w', g.words[r.index + offset]? = some w ∧
    h.words[s.index + offset]? = some w' ∧ w.Corresponds ρ w'

/-- Both heaps are the same as before, or a word of paired cells has been replaced. -/
inductive Update (ρ : Ref → Ref → Prop) (g h g' h' : Heap) : Prop
  | none : g' = g → h' = h → Update ρ g h g' h'
  | replaced {r s : Ref} {offset : Nat} {w w' : Word} : ρ r s → offset < 2 →
    w.Corresponds ρ w' → g.Replaced r offset w g' → h.Replaced s offset w' h' →
    Update ρ g h g' h'

variable {ρ : Ref → Ref → Prop} {g h g' h' : Heap} {r s : Ref} {offset other : Nat}
  {w w' value : Word}

theorem IsCell.ne_null (hc : h.IsCell r) : r.isNull = false := (headerOf_eq_ok.1 hc).1

theorem IsCell.blockAt (hc : h.IsCell r) : h.BlockAt r.headerIndex ⟨.cons, 2, .white⟩ :=
  (headerOf_eq_ok.1 hc).2.2

theorem IsCell.leadsToWhite (hc : h.IsCell r) : h.LeadsToWhite r := ⟨_, hc, rfl⟩

theorem noHeader_left (hw : w.Corresponds ρ w') : w.header? = none := by
  cases hw <;> rfl

theorem noHeader_right (hw : w.Corresponds ρ w') : w'.header? = none := by
  cases hw <;> rfl

/-- A word belongs to one cell only. -/
theorem IsCell.eq_of_index (hp : h.Partitioned) (hr : h.IsCell r) (hs : h.IsCell s)
    (ho : offset < 2) (ho' : other < 2) (heq : r.index + offset = s.index + other) :
    r = s ∧ offset = other := hp.eq_of_index hr hs ho ho' heq

theorem Replaced.isCell_iff (hr : h.Replaced r offset value h') (hp : h.Partitioned)
    (hc : h.IsCell r) (ho : offset < 2) (hv : value.header? = none) :
    h'.IsCell s ↔ h.IsCell s := by
  simp only [IsCell, headerOf_eq_ok, hr.blockAt_iff hp hc ho hv, hr.capacity]

theorem Mirror.replaced (hm : Mirror ρ g h) (hg : g.Partitioned) (hh : h.Partitioned)
    (hr : ρ r s) (ho : offset < 2) (hw : w.Corresponds ρ w') (hgr : g.Replaced r offset w g')
    (hhr : h.Replaced s offset w' h') : Mirror ρ g' h' where
  pairing := hm.pairing
  left := fun hr' => (hgr.isCell_iff hg (hm.left hr) ho (noHeader_left hw)).2 (hm.left hr')
  right := fun hr' => (hhr.isCell_iff hh (hm.right hr) ho (noHeader_right hw)).2 (hm.right hr')
  data := by
    intro r' s' other hr' ho'
    by_cases heq : r'.index + other = r.index + offset
    · obtain ⟨rfl, rfl⟩ := (hm.left hr').eq_of_index hg (hm.left hr) ho' ho heq
      obtain rfl := hm.pairing.functional hr hr'
      exact ⟨w, w', hgr.word, hhr.word, hw⟩
    · have hne : s'.index + other ≠ s.index + offset := fun heq' => by
        obtain ⟨rfl, rfl⟩ := (hm.right hr').eq_of_index hh (hm.right hr) ho' ho heq'
        obtain rfl := hm.pairing.injective hr hr'
        exact heq rfl
      rw [hgr.other heq, hhr.other hne]
      exact hm.data hr' ho'

theorem Mirror.update (hm : Mirror ρ g h) (hg : g.Partitioned) (hh : h.Partitioned)
    (hu : Update ρ g h g' h') : Mirror ρ g' h' := by
  cases hu with
  | none hg' hh' => exact hg' ▸ hh' ▸ hm
  | replaced hr ho hw hgr hhr => exact hm.replaced hg hh hr ho hw hgr hhr

end ConsMachine.Heap
