import ConsMachine.Heap.Blocks

/-!
# Partitioned heaps

A heap is partitioned when headers stand exactly where one block ends and the next one begins. The
property is local: it speaks of one header at a time. The walk over the blocks of such a heap meets
every header once and in order.

## Main definitions

* `Heap.BlockAt`, `Heap.Boundary` — a block starts at an index; a block or the heap ends before it.
* `Heap.Partitioned` — headers stand at the boundaries and nowhere else.
-/

namespace ConsMachine.Heap

/-- A block with this header starts at `index`. -/
def BlockAt (h : Heap) (index : Nat) (header : Header) : Prop :=
  h.words[index]? = some (.header header)

/-- The heap ends at `index`, or a block starts there. -/
def Boundary (h : Heap) (index : Nat) : Prop :=
  index = h.capacity ∨ ∃ header, h.BlockAt index header

/-- Headers stand where the walk over the blocks looks for them, and nowhere else. -/
structure Partitioned (h : Heap) : Prop where
  start : h.Boundary 0
  next : ∀ {i header}, h.BlockAt i header → h.Boundary (i + header.length + 1)
  inside : ∀ {i header j other}, h.BlockAt i header → i < j → j ≤ i + header.length →
    ¬ h.BlockAt j other

variable {h h' : Heap} {i j : Nat} {header other : Header}

/-! ## Single blocks -/

theorem headerAt_eq_ok : h.headerAt i = .ok header ↔ h.BlockAt i header := by
  simp only [headerAt, BlockAt]
  split <;> simp_all

theorem BlockAt.lt (hb : h.BlockAt i header) : i < h.capacity :=
  (Array.getElem?_eq_some_iff.1 hb).1

theorem BlockAt.unique (hb : h.BlockAt i header) (ho : h.BlockAt i other) : header = other := by
  simpa [BlockAt] using hb.symm.trans ho

theorem blockAt_put {k : Nat} {w : Word} : (h.put k w).BlockAt i header ↔
    if i = k ∧ k < h.capacity then w = .header header else h.BlockAt i header := by
  simp only [BlockAt]
  rw [getElem?_put]
  split <;> simp

/-- A reference leads to a block when the block's header stands before it. -/
theorem headerOf_eq_ok {r : Ref} : h.headerOf r = .ok header ↔
    r.isNull = false ∧ r.index < h.capacity ∧ h.BlockAt r.headerIndex header := by
  simp only [headerOf, BlockAt]
  split
  · next hout =>
    simp only [Bool.or_eq_true, decide_eq_true_eq] at hout
    simp only [reduceCtorEq, false_iff, not_and]
    intro hn hlt
    simp only [hn, Bool.false_eq_true, false_or] at hout
    omega
  · split <;> simp_all

theorem Boundary.le (hb : h.Boundary i) : i ≤ h.capacity := by
  rcases hb with rfl | ⟨_, hb⟩
  · exact Nat.le_refl _
  · exact Nat.le_of_lt hb.lt

namespace Partitioned

theorem end_le (hp : h.Partitioned) (hb : h.BlockAt i header) :
    i + header.length + 1 ≤ h.capacity := (hp.next hb).le

/-- A block ends before the next one starts. -/
theorem apart (hp : h.Partitioned) (hi : h.BlockAt i header) (hj : h.BlockAt j other)
    (hlt : i < j) : i + header.length < j :=
  Nat.lt_of_not_le fun hle => hp.inside hi hlt hle hj

/-- Two blocks have no word in common. -/
theorem disjoint (hp : h.Partitioned) (hi : h.BlockAt i header) (hj : h.BlockAt j other)
    (hne : i ≠ j) : i + header.length < j ∨ j + other.length < i :=
  (Nat.lt_or_gt_of_ne hne).imp (hp.apart hi hj) (hp.apart hj hi)

/-- No word of the heap is outside the blocks. -/
theorem exists_block (hp : h.Partitioned) (hi : i < h.capacity) :
    ∃ j header, h.BlockAt j header ∧ j ≤ i ∧ i ≤ j + header.length := by
  induction i with
  | zero =>
    rcases hp.start with h0 | ⟨header, hb⟩
    · omega
    · exact ⟨0, header, hb, Nat.le_refl _, Nat.zero_le _⟩
  | succ i ih =>
    obtain ⟨j, header, hb, hj, hle⟩ := ih (by omega)
    by_cases hlast : i = j + header.length
    · rcases hp.next hb with hend | ⟨next, hn⟩
      · omega
      · exact ⟨_, next, hn, by omega, by omega⟩
    · exact ⟨j, header, hb, by omega, by omega⟩

/-- Where all blocks start at multiples of three, only the last one can be shorter than a cell. -/
theorem two_le_length (hp : h.Partitioned)
    (haligned : ∀ {i header}, h.BlockAt i header → i % 3 = 0) (hb : h.BlockAt i header)
    (hi : i + 3 ≤ h.capacity) : 2 ≤ header.length := by
  have hhere := haligned hb
  rcases hp.next hb with hend | ⟨next, hn⟩
  · omega
  · have := haligned hn
    omega

/-- A data word belongs to one block only. -/
theorem eq_of_index {r s : Ref} {offset k : Nat} (hp : h.Partitioned)
    (hr : h.headerOf r = .ok header) (hs : h.headerOf s = .ok other) (ho : offset < header.length)
    (hk : k < other.length) (heq : r.index + offset = s.index + k) : r = s ∧ offset = k := by
  obtain ⟨hrn, -, hrb⟩ := headerOf_eq_ok.1 hr
  obtain ⟨hsn, -, hsb⟩ := headerOf_eq_ok.1 hs
  have hridx := Ref.index_eq hrn
  have hsidx := Ref.index_eq hsn
  by_cases hsame : r.headerIndex = s.headerIndex
  · exact ⟨Ref.headerIndex_inj hrn hsn hsame, by omega⟩
  · have := hp.disjoint hrb hsb hsame
    omega

/-- Only the lengths in the headers decide whether a heap is partitioned. -/
theorem congr (hp : h.Partitioned) (hc : h'.capacity = h.capacity)
    (hkeep : ∀ {i header}, h.BlockAt i header →
      ∃ other, h'.BlockAt i other ∧ other.length = header.length)
    (hback : ∀ {i other}, h'.BlockAt i other →
      ∃ header, h.BlockAt i header ∧ header.length = other.length) : h'.Partitioned := by
  have boundary : ∀ {i}, h.Boundary i → h'.Boundary i := by
    intro i hb
    rcases hb with hend | ⟨_, hb⟩
    · exact .inl (hend.trans hc.symm)
    · obtain ⟨other, ho, _⟩ := hkeep hb
      exact .inr ⟨other, ho⟩
  refine ⟨boundary hp.start, ?_, ?_⟩
  · intro i other hb
    obtain ⟨header, hh, hl⟩ := hback hb
    exact hl ▸ boundary (hp.next hh)
  · intro i header j other hb hlt hle ho
    obtain ⟨_, hh, hl⟩ := hback hb
    obtain ⟨_, hj, _⟩ := hback ho
    exact hp.inside hh hlt (by omega) hj

/-- A stretch of whole blocks is cut into blocks anew. -/
theorem replace {first last : Nat} (hp : h.Partitioned) (hc : h'.capacity = h.capacity)
    (hfirst : h.Boundary first) (hlast : h.Boundary last)
    (houtside : ∀ {j header}, j < first ∨ last ≤ j →
      (h'.BlockAt j header ↔ h.BlockAt j header))
    (hstart : ∃ header, h'.BlockAt first header)
    (hnext : ∀ {j header}, first ≤ j → j < last → h'.BlockAt j header →
      j + header.length + 1 = last ∨
        j + header.length + 1 < last ∧ ∃ next, h'.BlockAt (j + header.length + 1) next)
    (hinside : ∀ {j k header other}, first ≤ j → j < k → k < last → h'.BlockAt j header →
      k ≤ j + header.length → ¬ h'.BlockAt k other) : h'.Partitioned := by
  have boundary : ∀ {j}, j ≤ first ∨ last ≤ j → h.Boundary j → h'.Boundary j := by
    intro j hj hb
    rcases hb with hend | ⟨header, hb⟩
    · exact .inl (hend.trans hc.symm)
    · by_cases heq : j = first
      · exact .inr (heq ▸ hstart)
      · exact .inr ⟨header, (houtside (by omega)).2 hb⟩
  -- A block before the stretch ends before the stretch begins.
  have before : ∀ {j header}, j < first → h.BlockAt j header → j + header.length < first := by
    intro j header hj hb
    rcases hfirst with hend | ⟨_, hf⟩
    · have := hp.end_le hb
      omega
    · exact hp.apart hb hf hj
  refine ⟨boundary (.inl (Nat.zero_le _)) hp.start, fun {j header} hb => ?_,
    fun {j header k other} hb hjk hle ho => ?_⟩
  · by_cases hj : j < first ∨ last ≤ j
    · have hold := (houtside hj).1 hb
      refine boundary ?_ (hp.next hold)
      rcases hj with hj | hj
      · have := before hj hold
        omega
      · omega
    · rcases hnext (by omega) (by omega) hb with heq | ⟨_, next, hn⟩
      · exact heq ▸ boundary (.inr (Nat.le_refl _)) hlast
      · exact .inr ⟨next, hn⟩
  · by_cases hj : j < first ∨ last ≤ j
    · have hold := (houtside hj).1 hb
      refine hp.inside hold hjk hle ((houtside ?_).1 ho)
      rcases hj with hj | hj
      · have := before hj hold
        omega
      · omega
    · refine hinside (by omega) hjk ?_ hb hle ho
      rcases hnext (by omega) (by omega) hb with heq | ⟨hlt, _⟩ <;> omega

end Partitioned

/-! ## The walk -/

/-- The walk from a boundary on ends where the heap ends, and meets every header on the way. -/
theorem Partitioned.blocksFrom_eq (hp : h.Partitioned) (hi : h.Boundary i) :
    ∃ blocks, h.blocksFrom i = (blocks, none) ∧
      (∀ b, b ∈ blocks ↔ i ≤ b.index ∧ h.BlockAt b.index b.header) ∧
      (blocks.map Block.index).Pairwise (· < ·) := by
  induction i using blocksFrom.induct h with
  | case1 i hlt fault hh =>
    rcases hi with hend | ⟨header, hb⟩
    · omega
    · simp [headerAt_eq_ok.2 hb] at hh
  | case2 i hlt header hh hle _ _ _ ih =>
    have hb := headerAt_eq_ok.1 hh
    obtain ⟨blocks, hw, hmem, hsort⟩ := ih (hp.next hb)
    refine ⟨⟨i, header⟩ :: blocks, ?_, ?_, ?_⟩
    · rw [blocksFrom]
      simp [hlt, hh, hle, hw]
    · intro b
      simp only [List.mem_cons, hmem]
      constructor
      · rintro (rfl | ⟨hge, ha⟩)
        · exact ⟨Nat.le_refl _, hb⟩
        · exact ⟨by omega, ha⟩
      · rintro ⟨hge, ha⟩
        rcases Nat.eq_or_lt_of_le hge with heq | hgt
        · obtain ⟨index, other⟩ := b
          subst heq
          exact .inl (congrArg _ (ha.unique hb))
        · exact .inr ⟨by have := hp.apart hb ha hgt; omega, ha⟩
    · refine List.pairwise_cons.2 ⟨fun k hk => ?_, hsort⟩
      obtain ⟨b, hmb, rfl⟩ := List.mem_map.1 hk
      have := ((hmem b).1 hmb).1
      change i < b.index
      omega
  | case3 i hlt header hh hle => exact absurd (hp.end_le (headerAt_eq_ok.1 hh)) hle
  | case4 i hge =>
    refine ⟨[], ?_, ?_, .nil⟩
    · rw [blocksFrom]
      simp [hge]
    · intro b
      simp only [List.not_mem_nil, false_iff, not_and]
      intro hle hb
      have := hb.lt
      omega

/-- The last block that the walk meets ends where the heap ends. -/
theorem blocksFrom_end {blocks : List Block} (hlt : i < h.capacity)
    (hw : h.blocksFrom i = (blocks, none)) :
    ∃ last, blocks.getLast? = some last ∧ last.next = h.capacity := by
  induction i using blocksFrom.induct h generalizing blocks with
  | case1 i hlt fault hh =>
    rw [blocksFrom] at hw
    simp [hlt, hh] at hw
  | case2 i hlt header hh hle _ _ _ ih =>
    rw [blocksFrom] at hw
    simp only [hlt, dite_true, hh, hle, if_true, Prod.mk.injEq] at hw
    obtain ⟨rfl, hrest⟩ := hw
    by_cases hend : i + header.length + 1 = h.capacity
    · rw [blocksFrom, dif_neg (by omega)]
      exact ⟨⟨i, header⟩, rfl, hend⟩
    · obtain ⟨last, hlast, heq⟩ := ih (by omega) (Prod.ext rfl hrest)
      refine ⟨last, ?_, heq⟩
      rw [List.getLast?_cons, hlast]
      rfl
  | case3 i hlt header hh hle =>
    rw [blocksFrom] at hw
    simp [hlt, hh, hle] at hw
  | case4 i hge => omega

/-- The blocks of a partitioned heap are its headers, in address order. -/
theorem Partitioned.blocks_eq (hp : h.Partitioned) :
    ∃ blocks, h.blocks = (blocks, none) ∧
      (∀ b, b ∈ blocks ↔ h.BlockAt b.index b.header) ∧
      (blocks.map Block.index).Pairwise (· < ·) := by
  obtain ⟨blocks, hw, hmem, hsort⟩ := hp.blocksFrom_eq hp.start
  exact ⟨blocks, hw, by simpa using hmem, hsort⟩

/-! ## Deciding -/

theorem mem_header? : header ∈ h.words[i]?.bind Word.header? ↔ h.BlockAt i header := by
  simp only [Option.mem_def, Option.bind_eq_some_iff, BlockAt]
  constructor
  · rintro ⟨w, hw, hh⟩
    cases w <;> simp_all [Word.header?]
  · exact fun hb => ⟨_, hb, rfl⟩

/-- Looking at every word finds out what holds of every block. -/
theorem forall_blockAt_iff {p : Nat → Header → Prop} :
    (∀ {i header}, h.BlockAt i header → p i header) ↔
      ∀ i < h.capacity, ∀ header ∈ h.words[i]?.bind Word.header?, p i header := by
  simp only [mem_header?]
  exact ⟨fun hp _ _ _ hb => hp hb, fun hp _ _ hb => hp _ hb.lt _ hb⟩

instance (p : Nat → Header → Prop) [∀ i header, Decidable (p i header)] :
    Decidable (∀ {i header}, h.BlockAt i header → p i header) :=
  decidable_of_iff _ forall_blockAt_iff.symm

instance : Decidable (h.Boundary i) :=
  decidable_of_iff (i = h.capacity ∨ (h.words[i]?.bind Word.header?).isSome) <| by
    simp only [Boundary, Option.isSome_iff_exists, ← mem_header?, Option.mem_def]

theorem partitioned_iff : h.Partitioned ↔ h.Boundary 0 ∧
    (∀ {i header}, h.BlockAt i header → h.Boundary (i + header.length + 1)) ∧
    ∀ {i header}, h.BlockAt i header → ∀ {j other}, h.BlockAt j other →
      j ≤ i ∨ i + header.length < j := by
  constructor
  · refine fun hp => ⟨hp.start, hp.next, fun {i header} hb j other ho => ?_⟩
    rcases Nat.lt_or_ge i j with hlt | hge
    · exact .inr (hp.apart hb ho hlt)
    · exact .inl hge
  · rintro ⟨hstart, hnext, hapart⟩
    refine ⟨hstart, hnext, fun hb hlt hle ho => ?_⟩
    have := hapart hb ho
    omega

instance : Decidable h.Partitioned := decidable_of_iff _ partitioned_iff.symm

end ConsMachine.Heap
