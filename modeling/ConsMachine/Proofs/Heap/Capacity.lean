import ConsMachine.Proofs.Heap.Cells
import Mathlib.Data.Set.Card

/-!
# The capacity of a heap of cells

A heap of cells has a place for one cell in each third that it is cut into. There is room for
another cell exactly as long as one of these places is not taken, wherever the free words are, and
after a collection the places taken are those that the roots reach.

## Main definitions

* `Heap.cells` — how many blocks in use the walk over the heap meets.
* `Heap.places` — the references that can lead to a cell in a heap of so many words.
-/

namespace ConsMachine.Heap

def cells (h : Heap) : Nat := h.blocks.1.countP fun b => b.header.tag == .cons

def places (capacity : Nat) : Finset Ref :=
  (Finset.range (capacity / 3)).image fun i => ⟨3 * i + 1⟩

variable {g h h' : Heap} {roots : List Word} {i capacity : Nat} {r : Ref}

/-! ## Places -/

theorem card_places (capacity : Nat) : (places capacity).card = capacity / 3 := by
  rw [places, Finset.card_image_of_injective, Finset.card_range]
  intro i j hij
  simp only [Ref.mk.injEq] at hij
  omega

theorem mem_places : r ∈ places capacity ↔ r.index % 3 = 1 ∧ r.index + 2 ≤ capacity := by
  simp only [places, Finset.mem_image, Finset.mem_range]
  constructor
  · rintro ⟨i, hi, rfl⟩
    simp only
    omega
  · rintro ⟨hmod, hle⟩
    refine ⟨r.index / 3, by omega, ?_⟩
    rw [Ref.mk.injEq]
    omega

theorem Cellular.mem_places (hc : h.Cellular) (hp : h.Partitioned) (hr : h.IsCell r) :
    r ∈ places h.capacity := by
  have haligned := hc.aligned hr.blockAt
  have hend := hp.end_le hr.blockAt
  have hidx := Ref.index_eq hr.ne_null
  simp only at hend
  exact Heap.mem_places.2 ⟨by omega, by omega⟩

/-- There is no room for a cell exactly when all places are taken. -/
theorem Cellular.not_hasRoom_iff (hc : h.Cellular) (ho : h.Orderly) :
    ¬ h.HasRoom 2 ↔ ∀ r ∈ places h.capacity, h.IsCell r := by
  have hp := ho.partitioned
  constructor
  · intro hno r hr
    obtain ⟨hmod, hle⟩ := Heap.mem_places.1 hr
    obtain ⟨i, header, hb, hi, hlast⟩ := hp.exists_block (i := r.index - 1) (by omega)
    have haligned := hc.aligned hb
    have hlen := hp.two_le_length hc.aligned hb (by omega)
    have htag : header.tag = .cons := by
      cases ht : header.tag with
      | cons => rfl
      | free => exact absurd ⟨i, header, hb, ht, hlen⟩ hno
    have := hc.length hb htag
    obtain rfl : r.headerIndex = i := by
      simp only [Ref.headerIndex]
      omega
    refine (hc.isCell_iff ho).2 (ho.leadsToWhite_iff.2 ⟨?_, header, hb, htag⟩)
    simp only [Ref.isNull, beq_eq_false_iff_ne]
    omega
  · rintro hall ⟨i, header, hb, ht, hlen⟩
    have haligned := hc.aligned hb
    have hend := hp.end_le hb
    have hcell := hall (.ofHeader i) (Heap.mem_places.2 ⟨?_, ?_⟩)
    · rw [hb.unique hcell.blockAt] at ht
      cases ht
    · change (i + 1) % 3 = 1
      omega
    · change i + 1 + 2 ≤ h.capacity
      omega

/-! ## Counting -/

/-- The walk meets every cell once. -/
theorem Cellular.encard_cells (hc : h.Cellular) (ho : h.Orderly) :
    {r | h.IsCell r}.encard = h.cells := by
  obtain ⟨blocks, hblocks, hmem, hsorted⟩ := ho.partitioned.blocks_eq
  have hnodup : (blocks.map Block.ref).Nodup := by
    have hindex : (blocks.map Block.index).Nodup := hsorted.imp Nat.ne_of_lt
    rw [show Block.ref = Ref.ofHeader ∘ Block.index from rfl, ← List.map_map]
    apply hindex.map
    intro i j hij
    simpa [Ref.ofHeader] using hij
  have hrefs : {r | h.IsCell r} =
      ((blocks.filter fun b => b.header.tag == .cons).map Block.ref).toFinset := by
    ext r
    simp only [Set.mem_ofPred_eq, List.coe_toFinset, List.mem_map, List.mem_filter, hmem,
      beq_iff_eq]
    constructor
    · intro hr
      exact ⟨⟨r.headerIndex, _⟩, ⟨hr.blockAt, rfl⟩, Ref.ofHeader_headerIndex hr.ne_null⟩
    · rintro ⟨b, ⟨hb, ht⟩, rfl⟩
      exact (hc.isCell_iff ho).2 (ho.leadsToWhite_iff.2 ⟨rfl, b.header, hb, ht⟩)
  have hfilter : (blocks.filter fun b => b.header.tag == .cons).map Block.ref |>.Nodup :=
    hnodup.sublist (List.filter_sublist.map _)
  rw [hrefs, Set.encard_coe_eq_coe_finsetCard, List.toFinset_card_of_nodup hfilter,
    List.length_map, ← List.countP_eq_length_filter, cells, hblocks]

/-- A heap of cells is full exactly when there is no room for another cell. -/
theorem Cellular.cells_eq_iff (hc : h.Cellular) (ho : h.Orderly) :
    h.cells = h.capacity / 3 ↔ ¬ h.HasRoom 2 := by
  have hsub : {r | h.IsCell r} ⊆ places h.capacity := fun r hr =>
    hc.mem_places ho.partitioned hr
  have hcard : ((places h.capacity : Finset Ref) : Set Ref).encard = (h.capacity / 3 : Nat) := by
    rw [Set.encard_coe_eq_coe_finsetCard, card_places]
  rw [hc.not_hasRoom_iff ho, ← ENat.natCast_inj, ← hc.encard_cells ho, ← hcard]
  constructor
  · intro heq r hr
    have hsame := (places h.capacity).finite_toSet.subset hsub |>.eq_of_subset_of_encard_le hsub
      heq.ge
    exact hsame.symm.subset (Finset.mem_coe.2 hr)
  · intro hall
    exact congrArg Set.encard (hsub.antisymm fun r hr => hall r (Finset.mem_coe.1 hr))

/-! ## What a collection leaves -/

/-- The cells that a collection leaves are those that the roots reach. -/
theorem Collected.isCell_iff (hc : h.Collected roots h') (hs : h.Sound) (hcell : h.Cellular)
    (hroots : ∀ w ∈ roots, h.Valid w) : h'.IsCell r ↔ h.Reaches roots r := by
  constructor
  · intro hr
    have := (hc.survivor hr.blockAt rfl).2
    rwa [Ref.ofHeader_headerIndex hr.ne_null] at this
  · intro hr
    have hwhite := hc.leadsToWhite hs.orderly hr (hs.leadsToWhite hroots hr)
    exact ((hc.cellular hcell).isCell_iff hc.orderly).2 hwhite

theorem Collected.encard_reached (hc : h.Collected roots h') (hs : h.Sound) (hcell : h.Cellular)
    (hroots : ∀ w ∈ roots, h.Valid w) : (h.reached roots).encard = h'.cells := by
  rw [← (hc.cellular hcell).encard_cells hc.orderly]
  congr 1
  ext r
  exact (hc.isCell_iff hs hcell hroots).symm

/-- No more cells are reached than there are. -/
theorem Sound.encard_reached_le (hs : h.Sound) (hcell : h.Cellular)
    (hroots : ∀ w ∈ roots, h.Valid w) : (h.reached roots).encard ≤ h.cells := by
  rw [← hcell.encard_cells hs.orderly]
  apply Set.encard_le_encard
  intro r hr
  exact (hcell.isCell_iff hs.orderly).2 (hs.leadsToWhite hroots hr)

theorem Cellular.cells_le (hc : h.Cellular) (ho : h.Orderly) : h.cells ≤ h.capacity / 3 := by
  rw [← ENat.natCast_le_natCast, ← hc.encard_cells ho, ← card_places h.capacity,
    ← Set.encard_coe_eq_coe_finsetCard]
  exact Set.encard_le_encard fun r hr => hc.mem_places ho.partitioned hr

/-- When the roots reach as many cells as there are places, they reach all of them. -/
theorem Sound.not_hasRoom_of_reached (hs : h.Sound) (hcell : h.Cellular)
    (hroots : ∀ w ∈ roots, h.Valid w)
    (hfull : (h.reached roots).encard = (h.capacity / 3 : Nat)) : ¬ h.HasRoom 2 := by
  have hle := hs.encard_reached_le hcell hroots
  rw [hfull, ENat.natCast_le_natCast] at hle
  exact (hcell.cells_eq_iff hs.orderly).1 (Nat.le_antisymm (hcell.cells_le hs.orderly) hle)

end ConsMachine.Heap
