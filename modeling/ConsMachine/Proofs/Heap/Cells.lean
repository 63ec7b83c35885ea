import ConsMachine.Proofs.Heap.Allocation
import ConsMachine.Proofs.Heap.Mirror

/-!
# Heaps of cells

All that the machine allocates is cells, blocks of two data words. A heap of cells is cut into
thirds: every block starts at a multiple of three, whatever has been allocated and collected.

## Main definitions

* `Heap.Cellular` — the alignment of a heap of cells.
* `Heap.NewCell` — the heap after a cell has been taken and filled.
-/

namespace ConsMachine.Heap

/-- Blocks start at multiples of three, and those in use are cells. -/
structure Cellular (h : Heap) : Prop where
  aligned : ∀ {i header}, h.BlockAt i header → i % 3 = 0
  length : ∀ {i header}, h.BlockAt i header → header.tag = .cons → header.length = 2

/-- `h'` is `h` with a new cell of `car` and `cdr`. -/
structure NewCell (h : Heap) (r : Ref) (car cdr : Word) (h' : Heap) : Prop where
  collections : h'.collections = h.collections
  capacity : h'.capacity = h.capacity
  sound : h'.Sound
  cellular : h'.Cellular
  fresh : ¬ h.LeadsToWhite r
  isCell : h'.IsCell r
  car : h'.words[r.index]? = some car
  cdr : h'.words[r.index + 1]? = some cdr
  kept : ∀ {s}, h.IsCell s → h'.IsCell s ∧
    ∀ offset < 2, h'.words[s.index + offset]? = h.words[s.index + offset]?

variable {g h h' : Heap} {roots : List Word} {i : Nat} {header : Header} {r s : Ref}
  {w car cdr : Word}

/-! ## Cells and blocks in use -/

/-- In a sound heap of cells, a reference to a white block leads to a cell. -/
theorem Cellular.isCell_iff (hc : h.Cellular) (ho : h.Orderly) :
    h.IsCell r ↔ h.LeadsToWhite r := by
  refine ⟨IsCell.leadsToWhite, ?_⟩
  rintro ⟨⟨tag, length, color⟩, hh, hwhite⟩
  have hb := (headerOf_eq_ok.1 hh).2.2
  have htag := (ho.cons_iff hb).2 hwhite
  have hlength := hc.length hb htag
  simp only at hwhite htag hlength
  subst hwhite htag hlength
  exact hh

/-! ## Preservation -/

theorem Collected.cellular (hc : h.Collected roots h') (hcell : h.Cellular) : h'.Cellular where
  aligned := fun hb => by
    obtain ⟨old, hold⟩ := hc.start hb
    exact hcell.aligned hold
  length := fun hb ht => hcell.length (hc.survivor hb ht).1 ht

theorem Cleared.cellular (hc : Cleared 2 h roots g) (hcell : h.Cellular) : g.Cellular := by
  cases hc with
  | roomy _ heq => exact heq ▸ hcell
  | collected _ hg _ => exact hg.cellular hcell

theorem Allocated.cellular (ha : Allocated 2 r h h') (hcell : h.Cellular) : h'.Cellular where
  aligned := fun hb => by
    rcases ha.start hb with ⟨old, hold⟩ | rfl
    · exact hcell.aligned hold
    · obtain ⟨old, hold, -⟩ := ha.unused
      have := hcell.aligned hold
      omega
  length := fun hb ht => by
    rcases ha.origin hb ht with ⟨-, rfl⟩ | hold
    · rfl
    · exact hcell.length hold ht

theorem Replaced.cellular {offset : Nat} {value : Word} (hr : h.Replaced r offset value h')
    (hp : h.Partitioned) (hc : h.IsCell r) (ho : offset < 2) (hv : value.header? = none)
    (hcell : h.Cellular) : h'.Cellular where
  aligned := fun hb => hcell.aligned ((hr.blockAt_iff hp hc ho hv).1 hb)
  length := fun hb => hcell.length ((hr.blockAt_iff hp hc ho hv).1 hb)

/-! ## New cells -/

theorem Allocated.isCell (ha : Allocated 2 r h h') : h'.IsCell r := by
  have hend : r.headerIndex + 2 + 1 ≤ h'.capacity := ha.orderly.partitioned.end_le ha.block
  have hidx := Ref.index_eq ha.ne_null
  exact headerOf_eq_ok.2 ⟨ha.ne_null, by omega, ha.block⟩

/-- A cell that has been taken is filled with two valid words. -/
theorem Allocated.newCell {a b : Heap} (ha : Allocated 2 r h a) (hs : h.Sound)
    (hcell : h.Cellular) (hcar : h.Valid car) (hcdr : h.Valid cdr)
    (hb : a.Replaced r 0 car b) (hb' : b.Replaced r 1 cdr h') : NewCell h r car cdr h' := by
  have hp := ha.orderly.partitioned
  have hac := ha.isCell
  have hbs := hb.sound (ha.sound hs) hac rfl (by decide) (ha.valid hs.orderly hcar)
  have hbp := hbs.orderly.partitioned
  have hbc := (hb.isCell_iff hp hac (by decide) hcar.noHeader).2 hac
  have hvalid : b.Valid cdr := (ha.valid hs.orderly hcdr).mono fun _ =>
    (hb.leadsToWhite_iff hp hac (by decide) hcar.noHeader).2
  have hidx := Ref.index_eq ha.ne_null
  refine
    { collections := hb'.collections.trans (hb.collections.trans ha.collections)
      capacity := hb'.capacity.trans (hb.capacity.trans ha.capacity)
      sound := hb'.sound hbs hbc rfl (by decide) hvalid
      cellular := hb'.cellular hbp hbc (by decide) hcdr.noHeader
        (hb.cellular hp hac (by decide) hcar.noHeader (ha.cellular hcell))
      fresh := ha.not_leadsToWhite hs.orderly
      isCell := (hb'.isCell_iff hbp hbc (by decide) hcdr.noHeader).2 hbc
      car := (hb'.other (by omega)).trans hb.word
      cdr := hb'.word
      kept := fun {s} hsc => ?_ }
  obtain ⟨hsa, hwords⟩ := ha.kept hsc.blockAt rfl
  have hsidx := Ref.index_eq hsc.ne_null
  have hsac : a.IsCell s := by
    obtain ⟨hn, hlt, -⟩ := headerOf_eq_ok.1 hsc
    exact headerOf_eq_ok.2 ⟨hn, ha.capacity ▸ hlt, hsa⟩
  have hne : s ≠ r := fun heq => ha.not_leadsToWhite hs.orderly (heq ▸ hsc.leadsToWhite)
  refine ⟨(hb'.isCell_iff hbp hbc (by decide) hcdr.noHeader).2
    ((hb.isCell_iff hp hac (by decide) hcar.noHeader).2 hsac), fun offset hlt => ?_⟩
  have away : ∀ other < 2, s.index + offset ≠ r.index + other := fun other ho heq =>
    hne (hsac.eq_of_index hp hac hlt ho heq).1
  rw [hb'.other (away 1 (by decide)), hb.other (away 0 (by decide))]
  refine hwords _ (by omega) ?_
  change s.index + offset ≤ s.headerIndex + 2
  omega

end ConsMachine.Heap
