import ConsMachine.Heap.Integrity
import ConsMachine.Proofs.Heap.Partition
import Mathlib.Data.List.Nodup
import Mathlib.Data.List.Perm.Subperm

/-!
# The free list

The links of the free list are words of the heap. `Heap.Links` reads a piece of the list off the
array, so that writing one link changes one piece and leaves the others alone.

## Main definitions

* `Heap.Links` — the links lead from one reference through a list of entries to another.
* `Heap.Threaded` — the free list ends, repeats nothing and holds free blocks with room for a link.
* `Heap.Orderly` — between two operations: every block is in use or on the free list.
-/

namespace ConsMachine

theorem Header.isFree_iff {header : Header} : header.isFree = true ↔
    header.tag = .free ∧ (header.color = .white ∨ header.color = .blue) := by
  obtain ⟨tag, length, color⟩ := header
  cases tag <;> cases color <;> simp [Header.isFree, Color.isUnmarked]

namespace Heap

/-- The links lead from `first` through `entries`, in this order, to `last`. -/
def Links (h : Heap) (first : Ref) (entries : List Ref) (last : Ref) : Prop :=
  match entries with
  | [] => first = last
  | r :: rest => first = r ∧ r.isNull = false ∧
      ∃ next, h.words[r.index]? = some (.ref next) ∧ h.Links next rest last

/-- The free list is `entries`. -/
structure Threaded (h : Heap) (entries : List Ref) : Prop where
  links : h.Links h.freeList entries .null
  nodup : entries.Nodup
  free : ∀ r ∈ entries, ∃ header,
    h.BlockAt r.headerIndex header ∧ header.isFree = true ∧ 0 < header.length

/-- A heap as it is between two operations: a block is white and holds data, or it is blue and on
the free list, unless it is an orphan. -/
structure Orderly (h : Heap) : Prop where
  partitioned : h.Partitioned
  states : ∀ {i header}, h.BlockAt i header →
    header.tag = .cons ∧ header.color = .white ∧ 0 < header.length ∨
      header.tag = .free ∧ header.color = .blue
  threaded : ∃ entries, h.Threaded entries ∧ ∀ {i header}, h.BlockAt i header →
    header.tag = .free → 0 < header.length → .ofHeader i ∈ entries

variable {h h' : Heap} {i : Nat} {header : Header} {r first last mid : Ref} {entries : List Ref}

/-! ## Pieces of the list -/

theorem link_eq_ok {next : Ref} : h.link r = .ok next ↔ h.words[r.index]? = some (.ref next) := by
  simp only [link]
  split <;> simp_all

theorem links_append {front back : List Ref} : h.Links first (front ++ back) last ↔
    ∃ mid, h.Links first front mid ∧ h.Links mid back last := by
  induction front generalizing first with
  | nil => simp [Links]
  | cons r rest ih =>
    simp only [List.cons_append, Links, ih]
    grind

theorem Links.ne_null (hl : h.Links first entries last) (hr : r ∈ entries) : r.isNull = false := by
  induction entries generalizing first with
  | nil => simp at hr
  | cons s rest ih =>
    obtain ⟨_, hs, next, _, hrest⟩ := hl
    rcases List.mem_cons.1 hr with rfl | hr
    · exact hs
    · exact ih hrest hr

/-- A piece of the list is read off the first data words of its entries only. -/
theorem Links.frame (hl : h.Links first entries last)
    (hw : ∀ r ∈ entries, h'.words[r.index]? = h.words[r.index]?) :
    h'.Links first entries last := by
  induction entries generalizing first with
  | nil => exact hl
  | cons r rest ih =>
    obtain ⟨hf, hn, next, hlink, hrest⟩ := hl
    refine ⟨hf, hn, next, (hw r List.mem_cons_self).trans hlink, ih hrest ?_⟩
    intro s hs
    exact hw s (List.mem_cons_of_mem _ hs)

/-- What the links of a list lead to before the list ends is an entry. -/
theorem Links.mem_of_links {front : List Ref} (hl : h.Links first entries .null)
    (hf : h.Links first front r) (hn : r.isNull = false) : r ∈ entries := by
  induction front generalizing first entries with
  | nil =>
    obtain rfl : first = r := hf
    cases entries with
    | nil => simp [show first = .null from hl] at hn
    | cons s rest => exact hl.1 ▸ List.mem_cons_self
  | cons s front ih =>
    obtain ⟨rfl, hfirst, next, hlink, hfront⟩ := hf
    cases entries with
    | nil => simp [show first = .null from hl] at hfirst
    | cons s rest =>
      obtain ⟨rfl, -, next', hlink', hrest⟩ := hl
      obtain rfl : next = next' := by simpa using hlink.symm.trans hlink'
      exact List.mem_cons_of_mem _ (ih hrest hfront)

/-! ## Entries -/

namespace Threaded

theorem ne_null (ht : h.Threaded entries) (hr : r ∈ entries) : r.isNull = false :=
  ht.links.ne_null hr

/-- An entry leads into the heap. -/
theorem index_lt (ht : h.Threaded entries) (hp : h.Partitioned) (hr : r ∈ entries) :
    r.index < h.capacity := by
  obtain ⟨header, hb, _, hlen⟩ := ht.free r hr
  have hend := hp.end_le hb
  have hidx := Ref.index_eq (ht.ne_null hr)
  omega

/-- The list has no more entries than the heap has words. -/
theorem length_le (ht : h.Threaded entries) (hp : h.Partitioned) :
    entries.length ≤ h.capacity := by
  have hsub : (entries.map Ref.index).Subperm (List.range h.capacity) := by
    refine List.subperm_of_subset ?_ ?_
    · apply ht.nodup.map
      intro r s hrs
      cases r; cases s; simp_all
    · intro k hk
      obtain ⟨r, hr, rfl⟩ := List.mem_map.1 hk
      exact List.mem_range.2 (ht.index_lt hp hr)
  simpa using hsub.length_le

end Threaded

/-! ## The checker accepts -/

theorem checkFree_eq_ok {starts unvisited : List Nat} {item : Nat}
    (hl : h.Links first entries .null) (hnd : entries.Nodup)
    (hfree : ∀ r ∈ entries, ∃ header,
      h.BlockAt r.headerIndex header ∧ header.isFree = true ∧ 0 < header.length)
    (hstarts : ∀ r ∈ entries, r.headerIndex ∈ starts)
    (hunvisited : ∀ r ∈ entries, r.headerIndex ∈ unvisited) :
    h.checkFree starts unvisited item first = .ok () := by
  induction entries generalizing first unvisited item with
  | nil =>
    have hn : first.isNull = true := Ref.isNull_iff.2 hl
    rw [checkFree, if_pos hn]
  | cons r rest ih =>
    have hn := hl.ne_null List.mem_cons_self
    obtain ⟨rfl, _, next, hlink, hrest⟩ := hl
    obtain ⟨header, hb, hisFree, hlen⟩ := hfree first List.mem_cons_self
    have hin : ¬ (h.capacity ≤ first.index ∨ first.headerIndex ∉ starts) := by
      have hlt : first.index < h.capacity := (Array.getElem?_eq_some_iff.1 hlink).1
      simp only [hstarts first List.mem_cons_self, not_true_eq_false, or_false]
      omega
    have hne : (header.length != 0) = true := by simp; omega
    rw [checkFree]
    simp only [hn, Bool.false_eq_true, if_false, hin, hunvisited first List.mem_cons_self,
      dite_true, headerAt_eq_ok.2 hb, hisFree, hne, Bool.and_self, if_true, link_eq_ok.2 hlink]
    refine ih hrest hnd.of_cons (fun r hr => hfree r (List.mem_cons_of_mem _ hr))
      (fun r hr => hstarts r (List.mem_cons_of_mem _ hr)) fun r hr => ?_
    -- Entries with one header would be the same reference, and the list repeats none.
    have hne : r ≠ first := fun heq => (List.nodup_cons.1 hnd).1 (heq ▸ hr)
    exact (List.mem_erase_of_ne fun heq => hne (Ref.headerIndex_inj (hrest.ne_null hr) hn heq)).2
      (hunvisited r (List.mem_cons_of_mem _ hr))

theorem check_eq_ok (hp : h.Partitioned) (ht : h.Threaded entries) : h.check = .ok () := by
  obtain ⟨blocks, hblocks, hmem, _⟩ := hp.blocks_eq
  have hstarts : ∀ r ∈ entries, r.headerIndex ∈ blocks.map Block.index := fun r hr => by
    obtain ⟨header, hb, _⟩ := ht.free r hr
    exact List.mem_map.2 ⟨⟨r.headerIndex, header⟩, (hmem _).2 hb, rfl⟩
  simp only [check, partition, hblocks]
  exact checkFree_eq_ok ht.links ht.nodup ht.free hstarts hstarts

theorem Orderly.check_eq_ok (ho : h.Orderly) : h.check = .ok () := by
  obtain ⟨entries, ht, _⟩ := ho.threaded
  exact Heap.check_eq_ok ho.partitioned ht

end Heap

end ConsMachine
