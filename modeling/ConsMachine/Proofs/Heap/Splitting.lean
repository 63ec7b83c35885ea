import ConsMachine.Proofs.Heap.Carving
import ConsMachine.Proofs.Heap.Integrity

/-!
# Taking a block from the free list

In a heap that the check accepts, a block is taken from the first entry of the free list that is
long enough. What is left of the entry stands in its place on the list, unless it is too short for a
link. Nothing else changes but the link that leads to the entry, and the check accepts the heap
again.

## Main definitions

* `Block.leftover` — what stands in the place of a block on the free list.
* `Heap.Split` — the heap after the block has been taken.
-/

namespace ConsMachine

/-- What is left of a block on the free list when `length` data words with a header of their own are
taken from its front. -/
def Block.leftover (b : Block) (length : Nat) : List Block :=
  if length + 2 ≤ b.header.length then
    [⟨b.index + length + 1, .unused (b.header.length - length - 1)⟩]
  else []

namespace Heap

/-- `h'` is `h` with a block of `length` data words taken from the front of `b`, which is on the free
list behind `front` and before `back`. -/
structure Split (tag : Tag) (length : Nat) (front : List Block) (b : Block) (back : List Block)
    (h h' : Heap) : Prop where
  allocations : h'.allocations = h.allocations
  collections : h'.collections = h.collections
  capacity : h'.capacity = h.capacity
  block : h'.BlockAt b.index ⟨tag, length, .white⟩
  zero : ∀ offset < length, h'.words[b.index + 1 + offset]? = some .zero
  orphan : b.header.length = length + 1 → h'.BlockAt (b.index + length + 1) (.unused 0)
  freeList : ∃ blocks, h'.Consistent blocks (front ++ b.leftover length ++ back)
  outside : ∀ j, j < b.index ∨ b.next ≤ j →
    (∀ p, front.getLast? = some p → j ≠ p.ref.index) → h'.words[j]? = h.words[j]?
  check : h'.check = .ok ()
  partitioned : h'.Partitioned

variable {h h' : Heap} {tag : Tag} {length : Nat} {front back : List Block} {b : Block} {fit : Fit}

/-! ## The list afterwards -/

/-- The entries that stay, and what is left of the block, are blocks of the heap afterwards. -/
theorem Carved.blockAt_listed (hc : Carved tag length fit h h') (hp : h.Partitioned)
    (hf : h.FirstFit length fit (front.map Block.ref) (back.map Block.ref))
    (hb : ∀ c ∈ front ++ b :: back, h.BlockAt c.index c.header) (hfit : fit.block = b.ref)
    (hav : fit.available = b.header.length) {c : Block}
    (hmem : c ∈ front ++ b.leftover length ++ back) : h'.BlockAt c.index c.header := by
  obtain ⟨-, -, hfront, hback, -⟩ := hf.nodup
  have hhere : fit.block.headerIndex = b.index := by rw [hfit]; rfl
  -- An entry that stays is another block than the one that is cut, so its header is not written.
  have kept : ∀ c, c ∈ front ∨ c ∈ back → h'.BlockAt c.index c.header := fun c hmem => by
    have hat : h.BlockAt c.index c.header := hb c (by
      rw [List.mem_append, List.mem_cons]
      exact hmem.imp_right .inr)
    have hne : c.index ≠ b.index := fun heq => by
      have hsame : c.ref = fit.block := by rw [hfit, Block.ref, Block.ref, heq]
      rcases hmem with hmem | hmem
      · exact hfront (hsame ▸ List.mem_map_of_mem hmem)
      · exact hback (hsame ▸ List.mem_map_of_mem hmem)
    have := hp.disjoint hat (hb b (by simp)) hne
    exact (hc.blockAt (hf.cuttable hp) hp).2 (.inr (.inr ⟨by omega, hat⟩))
  rw [List.append_assoc, List.mem_append, List.mem_append] at hmem
  rcases hmem with hmem | hmem | hmem
  · exact kept c (.inl hmem)
  · simp only [Block.leftover] at hmem
    split at hmem
    · next hroom =>
      obtain rfl := List.mem_singleton.1 hmem
      have hafter : fit.after length = b.index + length + 1 := by rw [Fit.after, hhere]
      have hrest : fit.rest length = b.header.length - length := by rw [Fit.rest, hav]
      have := hc.remainder (by omega)
      rwa [hafter, hrest] at this
    · cases hmem
  · exact kept c (.inr hmem)

theorem Carved.split (hc : Carved tag length fit h h') (hp : h.Partitioned)
    (hf : h.FirstFit length fit (front.map Block.ref) (back.map Block.ref))
    (hb : ∀ c ∈ front ++ b :: back, h.BlockAt c.index c.header) (hfit : fit.block = b.ref)
    (hav : fit.available = b.header.length) : Split tag length front b back h h' := by
  have hhere : fit.block.headerIndex = b.index := by rw [hfit]; rfl
  have hafter : fit.after length = b.index + length + 1 := by rw [Fit.after, hhere]
  have hrest : fit.rest length = b.header.length - length := by rw [Fit.rest, hav]
  have hpartitioned := hc.partitioned (hf.cuttable hp) hp
  have hthreaded : h'.Threaded ((front ++ b.leftover length ++ back).map Block.ref) := by
    have hremainder : fit.remainder length = (b.leftover length).map Block.ref := by
      simp only [Fit.remainder, Block.leftover, hrest, hafter]
      by_cases hroom : length + 2 ≤ b.header.length
      · rw [if_pos (by omega), if_pos hroom]
        rfl
      · rw [if_neg (by omega), if_neg hroom]
        rfl
    have := hc.threaded hf hp
    rwa [hremainder, ← List.map_append, ← List.map_append, ← List.append_assoc] at this
  have hlist := hthreaded.consistent hpartitioned fun c => hc.blockAt_listed hp hf hb hfit hav
  refine
    { allocations := hc.allocations
      collections := hc.collections
      capacity := hc.capacity
      block := hhere ▸ hc.header
      zero := fun offset hlt => ?_
      orphan := fun hone => ?_
      freeList := hlist
      outside := fun j hj hlink => ?_
      check := check_eq_ok_iff.2 ⟨_, _, hlist.choose_spec⟩
      partitioned := hpartitioned }
  · have hidx : fit.block.index = b.index + 1 := by rw [hfit]; rfl
    exact hc.data (by omega) (by omega)
  · have := hc.remainder (by omega)
    rwa [hafter, hrest, hone, Nat.add_sub_cancel_left] at this
  · rw [hc.outside (by unfold Block.next at hj; omega), if_neg]
    intro hprevious
    obtain ⟨r, hr, rfl⟩ := Option.map_eq_some_iff.1 hprevious
    rw [hf.previous, List.getLast?_map] at hr
    obtain ⟨p, hp, rfl⟩ := Option.map_eq_some_iff.1 hr
    exact hlink p hp rfl

/-! ## The first entry that is long enough -/

/-- In a heap that the check accepts, with no header inside a block, a block is taken from the first
entry of the free list that has enough data words. If there is none, the heap stays as it is. -/
theorem tryAllocate_takes_first_fit (tag : Tag) (length : Nat) (hc : h.check = .ok ())
    (hp : h.Partitioned) : ∃ blocks free, h.Consistent blocks free ∧
      ((∀ b ∈ free, b.header.length < length) ∧ tryAllocate tag length h = .ok none h ∨
        ∃ front b back h', free = front ++ b :: back ∧
          (∀ c ∈ front, c.header.length < length) ∧ length ≤ b.header.length ∧
          tryAllocate tag length h = .ok (some b.ref) h' ∧
          Split tag length front b back h h') := by
  obtain ⟨blocks, free, hconsistent⟩ := check_eq_ok_iff.1 hc
  refine ⟨blocks, free, hconsistent, ?_⟩
  have hshort : ∀ b ∈ free, h.Short length b.ref → b.header.length < length := by
    rintro b hb ⟨header, hat, hlt⟩
    rwa [(hconsistent.blockAt hb).unique hat]
  obtain ⟨hsearch, hall⟩ | ⟨fit, front, back, hsearch, hfree, hf⟩ :=
    search_spec length hp hconsistent.threaded
  · exact .inl ⟨fun b hb => hshort b hb (hall _ (List.mem_map_of_mem hb)),
      tryAllocate_of_none tag hsearch⟩
  · obtain ⟨front, rest, rfl, rfl, hrest⟩ := List.map_eq_append_iff.1 hfree
    obtain ⟨b, back, rfl, hfit, rfl⟩ := List.map_eq_cons_iff.1 hrest
    obtain ⟨header, hat, -, hav⟩ := hf.block
    have hb : h.BlockAt b.index b.header := hconsistent.blockAt (by simp)
    rw [← hfit] at hat
    obtain rfl := hb.unique hat
    obtain ⟨h', ha, hcarved⟩ := tryAllocate_of_fit tag hp hsearch (hf.cuttable hp)
    refine .inr ⟨front, b, back, h', rfl, fun c hcf => ?_, hav ▸ hf.fits, hfit ▸ ha,
      hcarved.split hp hf (fun c => hconsistent.blockAt) hfit.symm hav.symm⟩
    exact hshort c (by simp [hcf]) (hf.first _ (List.mem_map_of_mem hcf))

/-- The first entry is too short for two data words. The second one is longer by two, so what is left
of it takes its place before the third. For five data words no entry is long enough. -/
theorem tryAllocate_takes_first_fit_of_second_entry : ∃ (h h' : Heap) (front : List Block)
    (b : Block) (back : List Block), h.check = .ok () ∧ h.Partitioned ∧
    h.words = #[.header ⟨.free, 1, .white⟩, .ref ⟨6⟩, .header ⟨.cons, 2, .white⟩, .int 7, .null,
      .header (.unused 4), .ref ⟨11⟩, .int 8, .zero, .zero, .header ⟨.free, 3, .white⟩, .null,
      .zero, .zero] ∧
    tryAllocate .cons 2 h = .ok (some b.ref) h' ∧ b.ref = ⟨6⟩ ∧ Split .cons 2 front b back h h' ∧
    h'.words = #[.header ⟨.free, 1, .white⟩, .ref ⟨9⟩, .header ⟨.cons, 2, .white⟩, .int 7, .null,
      .header ⟨.cons, 2, .white⟩, .zero, .zero, .header (.unused 1), .ref ⟨11⟩,
      .header ⟨.free, 3, .white⟩, .null, .zero, .zero] ∧
    ∃ blocks free, h.Consistent blocks free ∧ (∀ b ∈ free, b.header.length < 5) ∧
      tryAllocate .cons 5 h = .ok none h := by
  let h : Heap := ⟨#[.header ⟨.free, 1, .white⟩, .ref ⟨6⟩, .header ⟨.cons, 2, .white⟩, .int 7, .null,
    .header (.unused 4), .ref ⟨11⟩, .int 8, .zero, .zero, .header ⟨.free, 3, .white⟩, .null,
    .zero, .zero], ⟨1⟩, 1, 0⟩
  have hcheck : h.check = .ok () := by decide +kernel
  have hp : h.Partitioned := by decide
  have htwo : tryAllocate .cons 2 h = .ok (some ⟨6⟩) ⟨#[.header ⟨.free, 1, .white⟩, .ref ⟨9⟩,
    .header ⟨.cons, 2, .white⟩, .int 7, .null, .header ⟨.cons, 2, .white⟩, .zero, .zero,
    .header (.unused 1), .ref ⟨11⟩, .header ⟨.free, 3, .white⟩, .null, .zero, .zero],
    ⟨1⟩, 1, 0⟩ := by decide +kernel
  have hfive : tryAllocate .cons 5 h = .ok none h := by decide +kernel
  obtain ⟨-, -, -, ⟨-, hnone⟩ | ⟨front, b, back, h', -, -, -, ha, hsplit⟩⟩ :=
    tryAllocate_takes_first_fit .cons 2 hcheck hp
  · cases hnone.symm.trans htwo
  obtain ⟨blocks, free, hconsistent, ⟨hshort, -⟩ | ⟨_, _, _, _, -, -, -, hsome, -⟩⟩ :=
    tryAllocate_takes_first_fit .cons 5 hcheck hp
  · have heq := ha.symm.trans htwo
    simp only [EStateM.Result.ok.injEq, Option.some.injEq] at heq
    obtain ⟨href, rfl⟩ := heq
    exact ⟨h, _, front, b, back, hcheck, hp, rfl, ha, href, hsplit, rfl, blocks, free, hconsistent,
      hshort, hfive⟩
  · cases hfive.symm.trans hsome

end Heap

end ConsMachine
