import ConsMachine.Heap.Census
import ConsMachine.Proofs.Heap.Integrity

/-!
# What the census counts

On a heap in order the census accounts for every word. On any other heap it ends as well, and it
fails unless the free list can be counted: it does not look at the colors of the entries, so a block
in use that is on the list escapes it, which the check would have found.

## Main definitions

* `Census.figures` — the figures of given blocks and given entries of the free list.
* `Heap.Countable` — the census can count these blocks and these entries.
* `Heap.countEntry` — what the census does at one entry.
-/

namespace ConsMachine

variable {c c' : Census} {blocks free : List Block}

/-- The figures of a heap with these blocks and these entries of the free list. -/
def Census.figures (blocks free : List Block) : Census where
  blocks := blocks.countP fun b => !b.isOrphan
  blockWords := (blocks.map fun b => b.header.length).sum
  free := free.length
  freeWords := (free.map fun b => b.header.length).sum
  largestFree := (free.map fun b => b.header.length).max?.getD 0
  orphans := blocks.countP Block.isOrphan

namespace Census

theorem foldl_addBlock : blocks.foldl addBlock c =
    { c with
      blocks := c.blocks + blocks.countP fun b => !b.isOrphan
      blockWords := c.blockWords + (blocks.map fun b => b.header.length).sum
      orphans := c.orphans + blocks.countP Block.isOrphan } := by
  induction blocks generalizing c with
  | nil => simp
  | cons b rest ih =>
    rw [List.foldl_cons, ih]
    by_cases hb : b.isOrphan = true
    · have hlength : b.header.length = 0 := by simpa [Block.isOrphan] using hb
      simp [addBlock, hb, hlength]
      omega
    · simp [addBlock, hb]
      omega

theorem foldl_addFree {lengths : List Nat} : lengths.foldl addFree c =
    { c with
      free := c.free + lengths.length
      freeWords := c.freeWords + lengths.sum
      largestFree := lengths.foldl max c.largestFree } := by
  induction lengths generalizing c with
  | nil => simp
  | cons length rest ih =>
    rw [List.foldl_cons, ih]
    simp [addFree]
    omega

theorem foldl_eq_figures :
    (free.map fun b => b.header.length).foldl addFree (blocks.foldl addBlock .empty) =
      figures blocks free := by
  have hlargest : ∀ lengths : List Nat, lengths.foldl max 0 = lengths.max?.getD 0 := by
    intro lengths
    cases lengths with
    | nil => rfl
    | cons length rest => rw [List.max?_cons', List.foldl_cons, Nat.zero_max, Option.getD_some]
  rw [foldl_addFree, foldl_addBlock]
  simp [figures, empty, hlargest]

/-- A block with data words counts once for its header, and so does one without. -/
theorem figures_words : (figures blocks free).blocks + (figures blocks free).blockWords +
    (figures blocks free).orphans = (blocks.map fun b => b.header.length + 1).sum := by
  induction blocks with
  | nil => rfl
  | cons b rest ih =>
    simp only [figures, List.countP_cons, List.map_cons, List.sum_cons] at ih ⊢
    cases b.isOrphan <;> simp only [Bool.not_true, Bool.not_false, if_true, if_false,
      Bool.false_eq_true] <;> omega

end Census

namespace Heap

/-- `blocks` fill the heap, and the free list leads through `free`, which are no more than the
blocks with data words. Each entry has a header before it and ends in the heap, whatever its tag and
its color are. -/
structure Countable (h : Heap) (blocks free : List Block) : Prop where
  tiles : h.Tiles 0 blocks
  links : h.Links h.freeList (free.map Block.ref) .null
  block : ∀ b ∈ free, h.BlockAt b.index b.header ∧ b.next ≤ h.capacity
  few : free.length ≤ blocks.countP fun b => !b.isOrphan

/-- What the census does at an entry of the free list, after those that `c` counts already. -/
def countEntry (h : Heap) (c : Census) (r : Ref) : Except Fault (Census × Ref) :=
  if h.capacity ≤ r.index then .error (.freeEntryOutsideHeap (c.free + 1) r.index)
  else
    match h.headerAt r.headerIndex with
    | .error fault => .error fault
    | .ok header =>
      if h.capacity < r.headerIndex + header.length + 1 then
        .error (.freeEntryOutsideHeap (c.free + 1) r.headerIndex)
      else if c.blocks < c.free + 1 then .error .cyclicFreeList
      else
        match h.link r with
        | .error fault => .error fault
        | .ok next => .ok (c.addFree header.length, next)

variable {h : Heap} {first r : Ref} {front entries : List Ref} {header : Header}

/-! ## The list that is counted -/

theorem exists_of_countFree (hle : c.free ≤ c.blocks) (hc : h.countFree c first = .ok c') :
    ∃ free : List Block, h.Links first (free.map Block.ref) .null ∧
      (∀ b ∈ free, h.BlockAt b.index b.header ∧ b.next ≤ h.capacity) ∧
      c.free + free.length ≤ c.blocks ∧
      c' = (free.map fun b => b.header.length).foldl Census.addFree c := by
  fun_induction countFree h c first with
  | case1 c first hn =>
    cases hc
    exact ⟨[], Ref.isNull_iff.1 hn, by simp, hle, rfl⟩
  | case2 | case3 | case4 | case5 | case6 => cases hc
  | case7 c first hn item hin header hh hend hfew next hlink ih =>
    obtain ⟨free, hlinks, hblock, hlength, heq⟩ :=
      ih (by simp only [Census.addFree]; omega) hc
    have hn' : first.isNull = false := by simpa using hn
    have hfirst : (⟨first.headerIndex, header⟩ : Block).ref = first := Ref.ofHeader_headerIndex hn'
    refine ⟨⟨first.headerIndex, header⟩ :: free, ?_, ?_, ?_, heq⟩
    · rw [List.map_cons, hfirst]
      exact ⟨rfl, hn', next, link_eq_ok.1 hlink, hlinks⟩
    · rintro b hb
      rcases List.mem_cons.1 hb with rfl | hb
      · exact ⟨headerAt_eq_ok.1 hh, Nat.le_of_not_lt hend⟩
      · exact hblock b hb
    · simp only [Census.addFree, List.length_cons] at hlength ⊢
      omega

theorem countFree_eq_ok (hl : h.Links first (free.map Block.ref) .null)
    (hb : ∀ b ∈ free, h.BlockAt b.index b.header ∧ b.next ≤ h.capacity)
    (hle : c.free + free.length ≤ c.blocks) :
    h.countFree c first = .ok ((free.map fun b => b.header.length).foldl Census.addFree c) := by
  induction free generalizing c first with
  | nil =>
    have hn : first.isNull = true := Ref.isNull_iff.2 hl
    rw [countFree, if_pos hn]
    rfl
  | cons b rest ih =>
    obtain ⟨rfl, hn, next, hlink, hrest⟩ := hl
    obtain ⟨hat, hend⟩ := hb b List.mem_cons_self
    have hlt : b.ref.index < h.capacity := (Array.getElem?_eq_some_iff.1 hlink).1
    have hfew : ¬ c.blocks < c.free + 1 := by
      rw [List.length_cons] at hle
      omega
    have hends : ¬ h.capacity < b.ref.headerIndex + b.header.length + 1 := Nat.not_lt.2 hend
    rw [countFree]
    simp only [hn, Bool.false_eq_true, if_false, Nat.not_le.2 hlt, hfew, dite_false, hends,
      show h.headerAt b.ref.headerIndex = .ok b.header from headerAt_eq_ok.2 hat,
      link_eq_ok.2 hlink]
    refine ih hrest (fun s hs => hb s (List.mem_cons_of_mem _ hs)) ?_
    simp only [Census.addFree, List.length_cons] at hle ⊢
    omega

/-- The census succeeds just when it can count the heap, and it returns the figures then. -/
theorem census_eq_ok_iff : h.census = .ok c ↔
    ∃ blocks free, h.Countable blocks free ∧ c = .figures blocks free := by
  have hblocks : ∀ {blocks : List Block}, (blocks.foldl Census.addBlock .empty).blocks =
      blocks.countP fun b => !b.isOrphan := by
    simp [Census.foldl_addBlock, Census.empty]
  have hfree : ∀ {blocks : List Block}, (blocks.foldl Census.addBlock .empty).free = 0 := by
    simp [Census.foldl_addBlock, Census.empty]
  constructor
  · intro hc
    simp only [census] at hc
    split at hc
    · cases hc
    · next blocks hpartition =>
      obtain ⟨free, hlinks, hblock, hfew, rfl⟩ := exists_of_countFree (by rw [hfree]; omega) hc
      rw [hfree, hblocks, Nat.zero_add] at hfew
      exact ⟨blocks, free, ⟨partition_eq_ok.1 hpartition, hlinks, hblock, hfew⟩,
        Census.foldl_eq_figures⟩
  · rintro ⟨blocks, free, hc, rfl⟩
    simp only [census, partition_eq_ok.2 hc.tiles]
    rw [countFree_eq_ok hc.links hc.block (by rw [hfree, hblocks, Nat.zero_add]; exact hc.few),
      Census.foldl_eq_figures]

/-- A heap in order can be counted. -/
theorem Consistent.countable (hc : h.Consistent blocks free) : h.Countable blocks free where
  tiles := hc.tiles
  links := hc.links
  block := fun b hb => ⟨(hc.tiles.blockAt (hc.mem b hb)).2, hc.tiles.next_le (hc.mem b hb)⟩
  few := by
    -- The entries are different blocks, each with data words.
    have hsub : free ⊆ blocks.filter fun b => !b.isOrphan := fun b hb => by
      have := hc.room b hb
      refine List.mem_filter.2 ⟨hc.mem b hb, ?_⟩
      simp only [Block.isOrphan, Bool.not_eq_true', beq_eq_false_iff_ne]
      omega
    rw [List.countP_eq_length_filter]
    exact (List.subperm_of_subset hc.nodup.of_map hsub).length_le

/-! ## The census ends -/

/-- However the list goes on, the loop of the census visits no more entries than there are blocks
with data words left to count, and one more. -/
theorem countFree_traverses (h : Heap) (first : Ref) (hle : c.free ≤ c.blocks) :
    ∃ entries, Traverses h.countEntry c first entries (h.countFree c first) ∧
      entries.length ≤ c.blocks - c.free + 1 := by
  have stops : ∀ {c : Census} {first : Ref} {fault : Fault}, ¬ first.isNull = true →
      h.countEntry c first = .error fault →
      ∃ entries, Traverses h.countEntry c first entries (.error fault) ∧
        entries.length ≤ c.blocks - c.free + 1 :=
    fun {_ first _} hn hv => ⟨[first], .failed (by simpa using hn) hv, by simp⟩
  fun_induction countFree h c first with
  | case1 c first hn => exact ⟨[], .ended hn, by simp⟩
  | case2 c first hn item hout => exact stops hn (by rw [countEntry, if_pos hout])
  | case3 c first hn hin fault hh => exact stops hn (by simp [countEntry, hin, hh])
  | case4 c first hn item hin header hh hend =>
    exact stops hn (by simp [countEntry, hin, hh, hend, item])
  | case5 c first hn item hin header hh hend hmany =>
    have hmany : c.blocks < c.free + 1 := hmany
    exact stops hn (by simp [countEntry, hin, hh, hend, hmany])
  | case6 c first hn item hin header hh hend hfew fault hlink =>
    have hfew : ¬ c.blocks < c.free + 1 := hfew
    exact stops hn (by simp [countEntry, hin, hh, hend, hfew, hlink])
  | case7 c first hn item hin header hh hend hfew next hlink ih =>
    have hfew : ¬ c.blocks < c.free + 1 := hfew
    have hvisit : h.countEntry c first = .ok (c.addFree header.length, next) := by
      simp [countEntry, hin, hh, hend, hfew, hlink]
    obtain ⟨entries, hrest, hlength⟩ := ih (by simp only [Census.addFree]; omega)
    refine ⟨first :: entries, .passed (by simpa using hn) hvisit hrest, ?_⟩
    simp only [Census.addFree] at hlength
    rw [List.length_cons]
    omega

/-- On any heap the census ends: it fails on the walk over the blocks, or its loop visits at most one
entry more than there are blocks with data words. On a heap that the check accepts it succeeds. Then
it accounts for every word of the heap, and it measures the free list. -/
theorem census_agrees_with_check (h : Heap) :
    (match h.partition with
      | .error fault => h.census = .error fault
      | .ok blocks => ∃ entries,
        Traverses h.countEntry (blocks.foldl Census.addBlock .empty) h.freeList entries h.census ∧
          entries.length ≤ (blocks.countP fun b => !b.isOrphan) + 1) ∧
      (h.check = .ok () → ∃ blocks free c, h.Consistent blocks free ∧ h.census = .ok c ∧
        c.blocks + c.blockWords + c.orphans = h.capacity ∧
        c.free = free.length ∧ c.free ≤ c.blocks ∧
        c.freeWords = (free.map fun b => b.header.length).sum ∧
        c.largestFree = (free.map fun b => b.header.length).max?.getD 0) := by
  constructor
  · split
    · next fault hf => simp only [census, hf]
    · next blocks hblocks =>
      have hle : (blocks.foldl Census.addBlock .empty).free ≤
          (blocks.foldl Census.addBlock .empty).blocks := by
        simp [Census.foldl_addBlock, Census.empty]
      obtain ⟨entries, htraverses, hlength⟩ := countFree_traverses h h.freeList hle
      refine ⟨entries, ?_, ?_⟩
      · simp only [census, hblocks]
        exact htraverses
      · simpa [Census.foldl_addBlock, Census.empty] using hlength
  · intro hcheck
    obtain ⟨blocks, free, hc⟩ := check_eq_ok_iff.1 hcheck
    refine ⟨blocks, free, .figures blocks free, hc,
      census_eq_ok_iff.2 ⟨blocks, free, hc.countable, rfl⟩, ?_, rfl, hc.countable.few, rfl, rfl⟩
    rw [Census.figures_words, ← hc.tiles.sum_eq, Nat.zero_add]

/-- The free list holds every block that has data words, so it has as many entries as it may have. -/
theorem census_agrees_with_check_of_unused_heap : ∃ (h : Heap) (blocks free : List Block),
    h.words = #[.header (.unused 3), .null, .zero, .zero, .header (.unused 0),
      .header ⟨.free, 1, .white⟩, .ref ⟨1⟩] ∧
    h.check = .ok () ∧ h.Consistent blocks free ∧ h.census = .ok ⟨2, 4, 2, 4, 3, 1⟩ ∧
    2 + 4 + 1 = h.capacity ∧ 2 = free.length ∧
    4 = (free.map fun b => b.header.length).sum ∧
    3 = (free.map fun b => b.header.length).max?.getD 0 := by
  let h : Heap := ⟨#[.header (.unused 3), .null, .zero, .zero, .header (.unused 0),
    .header ⟨.free, 1, .white⟩, .ref ⟨1⟩], ⟨6⟩, 0, 0⟩
  have hcheck : h.check = .ok () := by decide +kernel
  have hcensus : h.census = .ok ⟨2, 4, 2, 4, 3, 1⟩ := by decide +kernel
  obtain ⟨blocks, free, c, hconsistent, hc, htotal, hfree, -, hwords, hlargest⟩ :=
    (census_agrees_with_check h).2 hcheck
  cases hc.symm.trans hcensus
  exact ⟨h, blocks, free, rfl, hcheck, hconsistent, hcensus, htotal, hfree, hwords, hlargest⟩

/-! ## Marked blocks on the free list -/

/-- The check finds a grey or black block wherever it stands on the free list. The census does not look
for it: it fails just when the list cannot be counted anyway. -/
theorem check_finds_marked_entry (hl : h.Links h.freeList front r) (hn : r.isNull = false)
    (hb : h.BlockAt r.headerIndex header) (hc : header.color = .grey ∨ header.color = .black) :
    (∃ fault, h.check = .error fault) ∧
      ((∃ fault, h.census = .error fault) ↔ ¬ ∃ blocks free, h.Countable blocks free) := by
  constructor
  · cases hcheck : h.check with
    | error fault => exact ⟨fault, rfl⟩
    | ok _ =>
      exfalso
      obtain ⟨blocks, free, hconsistent⟩ := check_eq_ok_iff.1 hcheck
      obtain ⟨b, hmem, rfl⟩ := List.mem_map.1 (hconsistent.links.mem_of_links hl hn)
      obtain rfl := hb.unique (hconsistent.tiles.blockAt (hconsistent.mem b hmem)).2
      rcases (hconsistent.unused b hmem).2 with hunmarked | hunmarked <;> simp [hunmarked] at hc
  · cases hcensus : h.census with
    | error fault =>
      refine iff_of_true ⟨fault, rfl⟩ ?_
      rintro ⟨blocks, free, hcount⟩
      cases hcensus.symm.trans (census_eq_ok_iff.2 ⟨blocks, free, hcount, rfl⟩)
    | ok c =>
      obtain ⟨blocks, free, hcount, -⟩ := census_eq_ok_iff.1 hcensus
      exact iff_of_false nofun fun hno => hno ⟨blocks, free, hcount⟩

/-- A grey block that leads back to the entry before it. -/
theorem check_finds_marked_entry_of_cycle : ∃ (h : Heap) (r : Ref) (header : Header),
    h.Links h.freeList [⟨3⟩] r ∧ r.isNull = false ∧ h.BlockAt r.headerIndex header ∧
    (header.color = .grey ∨ header.color = .black) ∧
    (∃ fault, h.check = .error fault) ∧ h.census = .error .cyclicFreeList ∧
    ¬ ∃ blocks free, h.Countable blocks free := by
  let h : Heap := ⟨#[.header ⟨.cons, 1, .grey⟩, .ref ⟨3⟩, .header (.unused 2), .ref ⟨1⟩, .zero],
    ⟨3⟩, 1, 0⟩
  have hl : h.Links h.freeList [⟨3⟩] ⟨1⟩ := ⟨rfl, rfl, ⟨1⟩, rfl, rfl⟩
  have hb : h.BlockAt (Ref.headerIndex ⟨1⟩) ⟨.cons, 1, .grey⟩ := rfl
  have hcensus : h.census = .error .cyclicFreeList := by decide +kernel
  obtain ⟨hcheck, hiff⟩ := check_finds_marked_entry hl rfl hb (.inl rfl)
  exact ⟨h, ⟨1⟩, _, hl, rfl, hb, .inl rfl, hcheck, hcensus, hiff.1 ⟨_, hcensus⟩⟩

/-- The last entry of this list is in use and black, and the census counts it. -/
theorem census_misses_black_entry : ∃ (h : Heap) (r : Ref) (header : Header),
    h.words = #[.header ⟨.cons, 1, .black⟩, .null, .header (.unused 2), .ref ⟨1⟩, .zero] ∧
    h.Links h.freeList [⟨3⟩] r ∧ r.isNull = false ∧ h.BlockAt r.headerIndex header ∧
    header.color = .black ∧ ¬ ∃ fault, h.census = .error fault := by
  let h : Heap := ⟨#[.header ⟨.cons, 1, .black⟩, .null, .header (.unused 2), .ref ⟨1⟩, .zero],
    ⟨3⟩, 1, 0⟩
  have hcensus : h.census = .ok ⟨2, 3, 2, 3, 2, 0⟩ := by decide +kernel
  refine ⟨h, ⟨1⟩, _, rfl, ⟨rfl, rfl, ⟨1⟩, rfl, rfl⟩, rfl, rfl, rfl, ?_⟩
  rintro ⟨fault, hfault⟩
  cases hcensus.symm.trans hfault

end Heap

end ConsMachine
