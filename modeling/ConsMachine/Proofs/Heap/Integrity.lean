import ConsMachine.Proofs.Heap.FirstFit
import Mathlib.Algebra.GroupWithZero.Nat

/-!
# What the check decides

The check accepts a heap just when its blocks fill it and its free list ends, repeats nothing and
holds free blocks of the heap that have room for a link. It ends on any heap, however broken: a list
that does not end comes back to a block that the check has visited.

## Main definitions

* `Heap.Tiles` — the blocks that the walk meets on its way to the end of the heap.
* `Heap.Consistent` — the blocks and the free list of a heap that is in order.
* `Heap.Traverses` — a loop along the free list, with no bound on the entries that it visits.
-/

namespace ConsMachine.Heap

/-- From `index` on, each header leads to the next one of `blocks`, and the last to the end of the
heap. -/
def Tiles (h : Heap) (index : Nat) (blocks : List Block) : Prop :=
  match blocks with
  | [] => index = h.capacity
  | b :: rest => b.index = index ∧ h.BlockAt index b.header ∧ h.Tiles b.next rest

/-- `blocks` fill the heap, and `free` are those of them that the free list holds, in this order. -/
structure Consistent (h : Heap) (blocks free : List Block) : Prop where
  tiles : h.Tiles 0 blocks
  links : h.Links h.freeList (free.map Block.ref) .null
  nodup : (free.map Block.ref).Nodup
  mem : ∀ b ∈ free, b ∈ blocks
  unused : ∀ b ∈ free,
    b.header.tag = .free ∧ (b.header.color = .white ∨ b.header.color = .blue)
  room : ∀ b ∈ free, 0 < b.header.length

/-- A loop that is at the entry `free` in state `s` visits `entries`, in this order, and ends with
`result`. At an entry it fails, or it goes on to the next one in a new state, as `visit` says. A
loop that does not end has no result. -/
inductive Traverses {σ : Type} (visit : σ → Ref → Except Fault (σ × Ref)) :
    σ → Ref → List Ref → Except Fault σ → Prop
  | ended {s : σ} {free : Ref} : free.isNull = true → Traverses visit s free [] (.ok s)
  | failed {s : σ} {free : Ref} {fault : Fault} : free.isNull = false →
    visit s free = .error fault → Traverses visit s free [free] (.error fault)
  | passed {s t : σ} {free next : Ref} {entries : List Ref} {result : Except Fault σ} :
    free.isNull = false → visit s free = .ok (t, next) → Traverses visit t next entries result →
    Traverses visit s free (free :: entries) result

/-- What the check does at an entry of the free list. The headers of all blocks are at `starts`,
those of the entries before this one at `visited`. -/
def checkEntry (h : Heap) (starts visited : List Nat) (r : Ref) : Except Fault (List Nat × Ref) :=
  if h.capacity ≤ r.index ∨ r.headerIndex ∉ starts then
    .error (.freeEntryOutsideHeap (visited.length + 1) r.index)
  else if r.headerIndex ∈ visited then .error .cyclicFreeList
  else
    match h.freeEntry r with
    | .error fault => .error fault
    | .ok (_, next) => .ok (r.headerIndex :: visited, next)

variable {h : Heap} {i : Nat} {b : Block} {blocks free : List Block} {first : Ref}
  {starts unvisited visited : List Nat} {item : Nat}

/-! ## The walk over the blocks -/

namespace Tiles

theorem le (ht : h.Tiles i blocks) : i ≤ h.capacity := by
  cases blocks with
  | nil => exact Nat.le_of_eq ht
  | cons b rest => exact Nat.le_of_lt ht.2.1.lt

theorem exists_cons (ht : h.Tiles i blocks) (hlt : i < h.capacity) :
    ∃ header rest, blocks = ⟨i, header⟩ :: rest ∧ h.BlockAt i header ∧
      h.Tiles (i + header.length + 1) rest := by
  cases blocks with
  | nil => exact absurd ht (Nat.ne_of_lt hlt)
  | cons b rest =>
    obtain ⟨index, header⟩ := b
    obtain ⟨rfl, hb, hrest⟩ := ht
    exact ⟨header, rest, rfl, hb, hrest⟩

theorem blockAt (ht : h.Tiles i blocks) (hb : b ∈ blocks) :
    i ≤ b.index ∧ h.BlockAt b.index b.header := by
  induction blocks generalizing i with
  | nil => cases hb
  | cons c rest ih =>
    obtain ⟨rfl, hc, hrest⟩ := ht
    rcases List.mem_cons.1 hb with rfl | hb
    · exact ⟨Nat.le_refl _, hc⟩
    · obtain ⟨hle, hat⟩ := ih hrest hb
      refine ⟨?_, hat⟩
      unfold Block.next at hle
      omega

theorem next_le (ht : h.Tiles i blocks) (hb : b ∈ blocks) : b.next ≤ h.capacity := by
  induction blocks generalizing i with
  | nil => cases hb
  | cons c rest ih =>
    rcases List.mem_cons.1 hb with rfl | hb
    · exact ht.2.2.le
    · exact ih ht.2.2 hb

theorem nodup (ht : h.Tiles i blocks) : (blocks.map Block.index).Nodup := by
  induction blocks generalizing i with
  | nil => exact .nil
  | cons c rest ih =>
    obtain ⟨-, -, hrest⟩ := ht
    refine List.nodup_cons.2 ⟨fun hmem => ?_, ih hrest⟩
    obtain ⟨b, hb, heq⟩ := List.mem_map.1 hmem
    have hle := (hrest.blockAt hb).1
    unfold Block.next at hle
    omega

theorem mem_of_start (ht : h.Tiles i blocks) (hs : b.index ∈ blocks.map Block.index)
    (hb : h.BlockAt b.index b.header) : b ∈ blocks := by
  obtain ⟨c, hc, heq⟩ := List.mem_map.1 hs
  obtain ⟨index, header⟩ := b
  obtain ⟨index', header'⟩ := c
  obtain rfl : index' = index := heq
  obtain rfl : header = header' := hb.unique (ht.blockAt hc).2
  exact hc

/-- The headers and the data words of the blocks are all there is. -/
theorem sum_eq (ht : h.Tiles i blocks) :
    i + (blocks.map fun b => b.header.length + 1).sum = h.capacity := by
  induction blocks generalizing i with
  | nil => exact ht
  | cons c rest ih =>
    obtain ⟨rfl, -, hrest⟩ := ht
    rw [← ih hrest, List.map_cons, List.sum_cons, Block.next]
    omega

end Tiles

theorem blocksFrom_eq_iff (hi : i ≤ h.capacity) :
    h.blocksFrom i = (blocks, none) ↔ h.Tiles i blocks := by
  induction i using blocksFrom.induct h generalizing blocks with
  | case1 i hlt fault hh =>
    rw [blocksFrom]
    simp only [hlt, dite_true, hh, Prod.mk.injEq, reduceCtorEq, and_false, false_iff]
    intro ht
    obtain ⟨header, rest, -, hb, -⟩ := ht.exists_cons hlt
    simp [headerAt_eq_ok.2 hb] at hh
  | case2 i hlt header hh hle _ _ _ ih =>
    rw [blocksFrom]
    simp only [hlt, dite_true, hh, hle, if_true, Prod.mk.injEq]
    constructor
    · rintro ⟨rfl, hrest⟩
      exact ⟨rfl, headerAt_eq_ok.1 hh, (ih hle).1 (Prod.ext rfl hrest)⟩
    · intro ht
      obtain ⟨other, rest, rfl, hb, hrest⟩ := ht.exists_cons hlt
      obtain rfl := hb.unique (headerAt_eq_ok.1 hh)
      have hwalk := (ih hle).2 hrest
      exact ⟨by rw [hwalk], by rw [hwalk]⟩
  | case3 i hlt header hh hle =>
    rw [blocksFrom]
    simp only [hlt, dite_true, hh, hle, if_false, Prod.mk.injEq, reduceCtorEq, and_false, false_iff]
    intro ht
    obtain ⟨other, rest, -, hb, hrest⟩ := ht.exists_cons hlt
    obtain rfl := hb.unique (headerAt_eq_ok.1 hh)
    exact hle hrest.le
  | case4 i hge =>
    obtain rfl : i = h.capacity := by omega
    rw [blocksFrom]
    simp only [hge, dite_false, Prod.mk.injEq, and_true]
    constructor
    · rintro rfl
      exact rfl
    · intro ht
      cases blocks with
      | nil => rfl
      | cons b rest => exact absurd ht.2.1.lt hge

theorem partition_eq_ok : h.partition = .ok blocks ↔ h.Tiles 0 blocks := by
  rw [← blocksFrom_eq_iff (Nat.zero_le _), partition, Heap.blocks]
  split <;> simp_all

/-! ## Heaps in order -/

namespace Consistent

theorem blockAt (hc : h.Consistent blocks free) (hb : b ∈ free) : h.BlockAt b.index b.header :=
  (hc.tiles.blockAt (hc.mem b hb)).2

theorem threaded (hc : h.Consistent blocks free) : h.Threaded (free.map Block.ref) where
  links := hc.links
  nodup := hc.nodup
  free := by
    intro r hr
    obtain ⟨b, hb, rfl⟩ := List.mem_map.1 hr
    exact ⟨b.header, hc.blockAt hb, Header.isFree_iff.2 (hc.unused b hb), hc.room b hb⟩

end Consistent

/-- In a partitioned heap every header starts a block of the walk. -/
theorem Threaded.consistent (ht : h.Threaded (free.map Block.ref)) (hp : h.Partitioned)
    (hb : ∀ b ∈ free, h.BlockAt b.index b.header) : ∃ blocks, h.Consistent blocks free := by
  obtain ⟨blocks, hwalk, hmem, -⟩ := hp.blocks_eq
  have hfree : ∀ b ∈ free, b.header.isFree = true ∧ 0 < b.header.length := fun b hbf => by
    obtain ⟨header, hat, hrest⟩ := ht.free b.ref (List.mem_map_of_mem hbf)
    rwa [(hb b hbf).unique hat]
  exact ⟨blocks, (blocksFrom_eq_iff (Nat.zero_le _)).1 hwalk, ht.links, ht.nodup,
    fun b hbf => (hmem b).2 (hb b hbf), fun b hbf => Header.isFree_iff.1 (hfree b hbf).1,
    fun b hbf => (hfree b hbf).2⟩

/-! ## The check accepts -/

/-- A list that the check has followed to its end repeats nothing: the check leaves a block out of
those that it may visit once it has visited it. -/
theorem exists_of_checkFree (hnd : unvisited.Nodup)
    (hc : h.checkFree starts unvisited item first = .ok ()) :
    ∃ free : List Block, h.Links first (free.map Block.ref) .null ∧ (free.map Block.ref).Nodup ∧
      ∀ b ∈ free, b.index ∈ unvisited ∧ h.BlockAt b.index b.header ∧ b.header.isFree = true ∧
        0 < b.header.length := by
  fun_induction checkFree h starts unvisited item first with
  | case1 unvisited item first hn => exact ⟨[], Ref.isNull_iff.1 hn, .nil, by simp⟩
  | case2 | case3 | case4 | case6 | case7 => cases hc
  | case5 unvisited item first hn hin hmem header hh hfree next hlink ih =>
    obtain ⟨free, hlinks, hnodup, hall⟩ := ih (hnd.erase _) hc
    have hn' : first.isNull = false := by simpa using hn
    have hfirst : (⟨first.headerIndex, header⟩ : Block).ref = first := Ref.ofHeader_headerIndex hn'
    simp only [Bool.and_eq_true, bne_iff_ne] at hfree
    refine ⟨⟨first.headerIndex, header⟩ :: free, ?_, ?_, fun b hb => ?_⟩
    · rw [List.map_cons, hfirst]
      exact ⟨rfl, hn', next, link_eq_ok.1 hlink, hlinks⟩
    · rw [List.map_cons, hfirst]
      refine List.nodup_cons.2 ⟨fun hrepeated => ?_, hnodup⟩
      obtain ⟨b, hb, rfl⟩ := List.mem_map.1 hrepeated
      exact (hnd.mem_erase_iff.1 (hall b hb).1).1 rfl
    · rcases List.mem_cons.1 hb with rfl | hb
      · exact ⟨hmem, headerAt_eq_ok.1 hh, hfree.1, Nat.pos_of_ne_zero hfree.2⟩
      · exact ⟨List.mem_of_mem_erase (hall b hb).1, (hall b hb).2⟩

/-- What the check accepts, and nothing else, is a heap in order. -/
theorem check_eq_ok_iff : h.check = .ok () ↔ ∃ blocks free, h.Consistent blocks free := by
  constructor
  · intro hc
    simp only [check] at hc
    split at hc
    · cases hc
    · next blocks hblocks =>
      have ht := partition_eq_ok.1 hblocks
      obtain ⟨free, hlinks, hnodup, hall⟩ := exists_of_checkFree ht.nodup hc
      refine ⟨blocks, free, ht, hlinks, hnodup, fun b hb => ?_, fun b hb => ?_, fun b hb => ?_⟩
      · exact ht.mem_of_start (hall b hb).1 (hall b hb).2.1
      · exact Header.isFree_iff.1 (hall b hb).2.2.1
      · exact (hall b hb).2.2.2
  · rintro ⟨blocks, free, hc⟩
    have hstarts : ∀ r ∈ free.map Block.ref, r.headerIndex ∈ blocks.map Block.index := fun r hr => by
      obtain ⟨b, hb, rfl⟩ := List.mem_map.1 hr
      exact List.mem_map.2 ⟨b, hc.mem b hb, rfl⟩
    simp only [check, partition_eq_ok.2 hc.tiles]
    exact checkFree_eq_ok hc.links hc.nodup hc.threaded.free hstarts hstarts

/-! ## The check ends -/

/-- With a table of the blocks that it has visited, and no other reason to end, the loop of the check
visits every block once at most, and one entry more. -/
theorem checkFree_traverses (h : Heap) (first : Ref) (hitem : item = visited.length + 1) (hnd : unvisited.Nodup)
    (hcover : ∀ i, i ∈ unvisited ↔ i ∈ starts ∧ i ∉ visited) :
    ∃ entries result, Traverses (h.checkEntry starts) visited first entries result ∧
      entries.length ≤ unvisited.length + 1 ∧
      h.checkFree starts unvisited item first = result.map fun _ => () := by
  have stops : ∀ {first : Ref} {visited : List Nat} {fault : Fault} (n : Nat),
      ¬ first.isNull = true → h.checkEntry starts visited first = .error fault →
      ∃ entries result, Traverses (h.checkEntry starts) visited first entries result ∧
        entries.length ≤ n + 1 ∧ (.error fault : Except Fault Unit) = result.map fun _ => () :=
    fun {first _ _} _ hn hv => ⟨[first], _, .failed (by simpa using hn) hv, by simp, rfl⟩
  -- `visited` grows by the block that leaves `unvisited`, so `hcover` holds at every entry.
  fun_induction checkFree h starts unvisited item first generalizing visited with
  | case1 unvisited item first hn => exact ⟨[], _, .ended hn, by simp, rfl⟩
  | case2 unvisited item first hn hout =>
    exact stops _ hn (by rw [checkEntry, if_pos hout, hitem])
  | case3 unvisited item first hn hin hmem fault hh =>
    exact stops _ hn (by simp [checkEntry, hin, ((hcover _).1 hmem).2, freeEntry, hh])
  | case4 unvisited item first hn hin hmem header hh hfree fault hlink =>
    exact stops _ hn (by simp [checkEntry, hin, ((hcover _).1 hmem).2, freeEntry, hh, hfree, hlink])
  | case5 unvisited item first hn hin hmem header hh hfree next hlink ih =>
    have hvisit : h.checkEntry starts visited first = .ok (first.headerIndex :: visited, next) := by
      simp [checkEntry, hin, ((hcover _).1 hmem).2, freeEntry, hh, hfree, hlink]
    have hcover' : ∀ i, i ∈ unvisited.erase first.headerIndex ↔
        i ∈ starts ∧ i ∉ first.headerIndex :: visited := fun i => by
      rw [hnd.mem_erase_iff, hcover, List.mem_cons, not_or]
      tauto
    obtain ⟨entries, result, hrest, hlength, heq⟩ := ih (by simp [hitem]) (hnd.erase _) hcover'
    refine ⟨first :: entries, result, .passed (by simpa using hn) hvisit hrest, ?_, heq⟩
    have hpos := List.length_pos_of_mem hmem
    rw [List.length_erase_of_mem hmem] at hlength
    rw [List.length_cons]
    omega
  | case6 unvisited item first hn hin hmem header hh hfree =>
    exact stops _ hn (by simp [checkEntry, hin, ((hcover _).1 hmem).2, freeEntry, hh, hfree])
  | case7 unvisited item first hn hin hmem =>
    have hstart : first.headerIndex ∈ starts := not_not.1 fun hno => hin (.inr hno)
    have hvisited : first.headerIndex ∈ visited :=
      not_not.1 fun hno => hmem ((hcover _).2 ⟨hstart, hno⟩)
    exact stops _ hn (by rw [checkEntry, if_neg hin, if_pos hvisited])

/-- On any heap the check ends: it fails on the walk over the blocks, or its loop visits at most one
entry more than there are blocks. It accepts the heap just when the heap is in order. -/
theorem check_decides_consistent (h : Heap) :
    (match h.partition with
      | .error fault => h.check = .error fault
      | .ok blocks => ∃ entries result,
        Traverses (h.checkEntry (blocks.map Block.index)) [] h.freeList entries result ∧
          entries.length ≤ blocks.length + 1 ∧ h.check = result.map fun _ => ()) ∧
      (h.check = .ok () ↔ ∃ blocks free, h.Consistent blocks free) := by
  refine ⟨?_, check_eq_ok_iff⟩
  split
  · next fault hf => simp only [check, hf]
  · next blocks hblocks =>
    have hcover : ∀ i, i ∈ blocks.map Block.index ↔ i ∈ blocks.map Block.index ∧ i ∉ [] := by simp
    obtain ⟨entries, result, htraverses, hlength, heq⟩ :=
      checkFree_traverses h h.freeList rfl (partition_eq_ok.1 hblocks).nodup hcover
    refine ⟨entries, result, htraverses, by simpa using hlength, ?_⟩
    simp only [check, hblocks]
    exact heq

end ConsMachine.Heap
