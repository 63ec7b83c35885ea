import ConsMachine.Proofs.Heap.Carving
import ConsMachine.Proofs.Heap.Collection

/-!
# Allocation

An allocation in a sound heap takes words that nothing in use holds. It collects exactly when no
free block is long enough, and it fails exactly when none is after that either.

## Main definitions

* `Heap.HasRoom` — some free block is long enough.
* `Heap.Cleared` — the heap that the block is taken from, collected if there was no room.
* `Heap.Allocated` — the heap after a block has been taken from a free one.
-/

namespace ConsMachine.Heap

/-- Some block that is not in use has at least `length` data words. -/
def HasRoom (h : Heap) (length : Nat) : Prop :=
  ∃ i header, h.BlockAt i header ∧ header.tag = .free ∧ length ≤ header.length

/-- `g` is `h`, or what a collection leaves of it if it has no room; then there is room. -/
inductive Cleared (length : Nat) (h : Heap) (roots : List Word) (g : Heap) : Prop
  | roomy : h.HasRoom length → g = h → Cleared length h roots g
  | collected : ¬ h.HasRoom length → h.Collected roots g → g.HasRoom length →
    Cleared length h roots g

/-- `h'` is `h` with a block of `length` data words in use that was not in use before. -/
structure Allocated (length : Nat) (r : Ref) (h h' : Heap) : Prop where
  allocations : h'.allocations = h.allocations + 1
  collections : h'.collections = h.collections
  capacity : h'.capacity = h.capacity
  orderly : h'.Orderly
  start : ∀ {i header}, h'.BlockAt i header →
    (∃ old, h.BlockAt i old) ∨ i = r.headerIndex + length + 1
  ne_null : r.isNull = false
  unused : ∃ old, h.BlockAt r.headerIndex old ∧ old.tag = .free
  block : h'.BlockAt r.headerIndex ⟨.cons, length, .white⟩
  zero : ∀ {offset}, offset < length → h'.words[r.index + offset]? = some .zero
  kept : ∀ {i header}, h.BlockAt i header → header.tag = .cons →
    h'.BlockAt i header ∧ ∀ k, i < k → k ≤ i + header.length → h'.words[k]? = h.words[k]?
  origin : ∀ {i header}, h'.BlockAt i header → header.tag = .cons →
    i = r.headerIndex ∧ header = ⟨.cons, length, .white⟩ ∨ h.BlockAt i header

variable {g h h' : Heap} {roots : List Word} {length i : Nat} {header : Header} {r s : Ref} {w : Word}

/-! ## From the free list -/

theorem Carved.allocated {fit : Fit} {front back : List Ref} (hc : Carved .cons length fit h h')
    (hf : h.FirstFit length fit front back) (ho : h.Orderly) (hpos : 0 < length)
    (hall : ∀ {i header}, h.BlockAt i header → header.tag = .free → 0 < header.length →
      .ofHeader i ∈ front ++ fit.block :: back) :
    Allocated length fit.block h { h' with allocations := h'.allocations + 1 } := by
  have hp := ho.partitioned
  have hidx := Ref.index_eq hf.block_ne_null
  have horderly := hc.orderly hf ho hpos hall
  have notFree : ∀ {header : Header}, header.tag = .cons → header.isFree = false := fun ht => by
    simp [Header.isFree, ht]
  refine
    { allocations := congrArg (· + 1) hc.allocations
      collections := hc.collections
      capacity := hc.capacity
      orderly := ⟨?_, horderly.states, ?_⟩
      start := fun {i header} hb => ?_
      ne_null := hf.block_ne_null
      unused := ?_
      block := hc.header
      zero := fun {offset} hlt => hc.data (by omega) (by unfold Fit.after; omega)
      kept := fun {i header} hb ht => ?_
      origin := fun {i header} hb ht => ?_ }
  · exact horderly.partitioned.congr rfl (fun hb => ⟨_, hb, rfl⟩) fun hb => ⟨_, hb, rfl⟩
  · obtain ⟨entries, ht, hin⟩ := horderly.threaded
    exact ⟨entries, ⟨ht.links.frame fun _ _ => rfl, ht.nodup, ht.free⟩, hin⟩
  · rcases (hc.blockAt (hf.cuttable hp) hp).1 hb with ⟨rfl, -⟩ | ⟨-, rfl, -⟩ | ⟨-, hold⟩
    · obtain ⟨old, hold, -, -⟩ := hf.block
      exact .inl ⟨old, hold⟩
    · exact .inr rfl
    · exact .inl ⟨header, hold⟩
  · obtain ⟨old, hold, hisFree, -⟩ := hf.block
    exact ⟨old, hold, (Header.isFree_iff.1 hisFree).1⟩
  · refine ⟨(hc.blockAt (hf.cuttable hp) hp).2 (.inr (.inr ⟨?_, hb⟩)), fun k hlt hle =>
      hc.data_eq hf hp hb (notFree ht) hlt hle⟩
    obtain ⟨old, hold, hisFree, hav⟩ := hf.block
    have hne : i ≠ fit.block.headerIndex := by
      rintro rfl
      have := notFree ht
      rw [← hold.unique hb, hisFree] at this
      cases this
    have := hp.disjoint hb hold hne
    omega
  · rcases (hc.blockAt (hf.cuttable hp) hp).1 hb with ⟨rfl, rfl⟩ | ⟨-, -, rfl⟩ | ⟨-, hold⟩
    · exact .inl ⟨rfl, rfl⟩
    · cases ht
    · exact .inr hold

theorem tryAllocate_spec (ho : h.Orderly) (hpos : 0 < length) :
    Outcome (fun found h' => match found with
        | none => h' = h ∧ ¬ h.HasRoom length
        | some r => h.HasRoom length ∧
          Allocated length r h { h' with allocations := h'.allocations + 1 })
      (fun _ _ => False) (tryAllocate .cons length h) := by
  obtain ⟨entries, ht, hall⟩ := ho.threaded
  obtain ⟨hsearch, hshort⟩ | ⟨fit, front, back, hsearch, rfl, hf⟩ :=
    search_spec length ho.partitioned ht
  · rw [tryAllocate_of_none .cons hsearch]
    refine ⟨rfl, ?_⟩
    rintro ⟨i, header, hb, hfree, hle⟩
    obtain ⟨other, hother, hlt⟩ := hshort _ (hall hb hfree (by omega))
    obtain rfl := hb.unique hother
    omega
  · obtain ⟨h', ha, hcarved⟩ :=
      tryAllocate_of_fit .cons ho.partitioned hsearch (hf.cuttable ho.partitioned)
    rw [ha]
    refine ⟨?_, hcarved.allocated hf ho hpos hall⟩
    obtain ⟨header, hb, hisFree, hav⟩ := hf.block
    exact ⟨_, header, hb, (Header.isFree_iff.1 hisFree).1, hav ▸ hf.fits⟩

/-! ## With a collection if need be -/

/-- An allocation takes a block from the heap as it is, or else from what a collection leaves. -/
theorem allocate_of_collect (hs : h.Sound) (hroots : ∀ w ∈ roots, h.Valid w) (hpos : 0 < length)
    (hc : collect roots h = .ok () g) :
    Outcome (fun r h' => h.HasRoom length ∧ Allocated length r h h' ∨
        ¬ h.HasRoom length ∧ g.HasRoom length ∧ Allocated length r g h')
      (fun failure h' => failure = .fault .outOfMemory ∧ h' = g ∧ ¬ h.HasRoom length ∧
        ¬ g.HasRoom length)
      (allocate .cons length roots h) := by
  simp only [allocate]
  refine ((tryAllocate_spec hs.orderly hpos).mono (fun _ _ => id) fun _ _ => False.elim).bind
    fun found h₁ h₁_spec => ?_
  cases found with
  | some r => exact .inl h₁_spec
  | none =>
    obtain ⟨rfl, hno⟩ := h₁_spec
    have hg := (collect_spec hs hroots).of_ok hc
    simp only [bind_of_ok hc]
    refine ((tryAllocate_spec hg.orderly hpos).mono (fun _ _ => id) fun _ _ => False.elim).bind
      fun found h₂ h₂_spec => ?_
    cases found with
    | some r => exact .inr ⟨hno, h₂_spec⟩
    | none =>
      obtain ⟨rfl, hno'⟩ := h₂_spec
      exact ⟨rfl, rfl, hno, hno'⟩

theorem allocate_spec (hs : h.Sound) (hroots : ∀ w ∈ roots, h.Valid w) (hpos : 0 < length) :
    Outcome (fun r h' => ∃ g, Cleared length h roots g ∧ Allocated length r g h')
      (fun failure h' => failure = .fault .outOfMemory ∧ ¬ h.HasRoom length ∧
        h.Collected roots h' ∧ ¬ h'.HasRoom length)
      (allocate .cons length roots h) := by
  cases hc : collect roots h with
  | error failure g => exact ((collect_spec hs hroots).of_error hc).elim
  | ok _ g =>
    have hg := (collect_spec hs hroots).of_ok hc
    refine (allocate_of_collect hs hroots hpos hc).mono (fun r h' hr => ?_) fun failure h' hf => ?_
    · rcases hr with ⟨hroom, ha⟩ | ⟨hno, hroom, ha⟩
      · exact ⟨h, .roomy hroom rfl, ha⟩
      · exact ⟨g, .collected hno hg hroom, ha⟩
    · obtain ⟨hmemory, rfl, hno, hno'⟩ := hf
      exact ⟨hmemory, hno, hg, hno'⟩

namespace Cleared

theorem capacity (hc : Cleared length h roots g) : g.capacity = h.capacity := by
  cases hc with
  | roomy _ heq => rw [heq]
  | collected _ hg _ => exact hg.capacity

theorem sound (hc : Cleared length h roots g) (hs : h.Sound) (hroots : ∀ w ∈ roots, h.Valid w) :
    g.Sound := by
  cases hc with
  | roomy _ heq => exact heq ▸ hs
  | collected _ hg _ => exact hg.sound hs hroots

theorem valid_roots (hc : Cleared length h roots g) (hs : h.Sound)
    (hroots : ∀ w ∈ roots, h.Valid w) (hw : w ∈ roots) : g.Valid w := by
  cases hc with
  | roomy _ heq => exact heq ▸ hroots w hw
  | collected _ hg _ => exact hg.valid_roots hs hroots hw

end Cleared

/-! ## After an allocation -/

namespace Allocated

theorem leadsToWhite_iff (ha : Allocated length r h h') (ho : h.Orderly) :
    h'.LeadsToWhite s ↔ s = r ∨ h.LeadsToWhite s := by
  rw [ha.orderly.leadsToWhite_iff, ho.leadsToWhite_iff]
  constructor
  · rintro ⟨hn, header, hb, ht⟩
    rcases ha.origin hb ht with ⟨heq, -⟩ | hold
    · exact .inl (Ref.headerIndex_inj hn ha.ne_null heq)
    · exact .inr ⟨hn, header, hold, ht⟩
  · rintro (rfl | ⟨hn, header, hb, ht⟩)
    · exact ⟨ha.ne_null, _, ha.block, rfl⟩
    · exact ⟨hn, header, (ha.kept hb ht).1, ht⟩

/-- The block was not in use. -/
theorem not_leadsToWhite (ha : Allocated length r h h') (ho : h.Orderly) :
    ¬ h.LeadsToWhite r := by
  rw [ho.leadsToWhite_iff]
  rintro ⟨-, header, hb, ht⟩
  obtain ⟨old, hold, hfree⟩ := ha.unused
  rw [hold.unique hb, ht] at hfree
  cases hfree

theorem valid (ha : Allocated length r h h') (ho : h.Orderly) (hw : h.Valid w) : h'.Valid w :=
  hw.mono fun _ hr => (ha.leadsToWhite_iff ho).2 (.inr hr)

theorem sound (ha : Allocated length r h h') (hs : h.Sound) : h'.Sound := by
  refine ⟨ha.orderly, fun {i header k w} hb ht hlt hle hw => ?_⟩
  rcases ha.origin hb ht with ⟨rfl, rfl⟩ | hold
  · have hidx := Ref.index_eq ha.ne_null
    change k ≤ r.headerIndex + length at hle
    have hzero : h'.words[r.index + (k - r.index)]? = some .zero := ha.zero (by omega)
    rw [show r.index + (k - r.index) = k by omega, hw] at hzero
    cases hzero
    exact valid_int 0
  · rw [(ha.kept hold ht).2 k hlt hle] at hw
    exact ha.valid hs.orderly (hs.data hold ht hlt hle hw)

end Allocated

end ConsMachine.Heap
