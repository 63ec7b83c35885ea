import ConsMachine.Heap.Allocation
import ConsMachine.Proofs.Heap.Marking
import ConsMachine.Proofs.Heap.Regrouping
import Mathlib.Data.List.Sort

/-!
# Tidy heaps

A collection leaves no two free blocks side by side, and it threads the free blocks in one order. So
what it makes of a heap is decided by what the roots reach: how they reach it, and in which order,
is lost. A heap that is tidy already, with nothing in it that the roots do not reach, is left as it
is.

## Main definitions

* `Heap.Settled` — blocks are white and in use, or blue and not in use.
* `Heap.Tidy` — between two blocks that are not in use there is one in use.
* `Heap.Reclaimed` — the heap after a collection.
-/

namespace ConsMachine.Heap

/-- No block is in between being in use and not being in use. -/
def Settled (h : Heap) : Prop :=
  ∀ {i header}, h.BlockAt i header →
    header.tag = .cons ∧ header.color = .white ∨ header.tag = .free ∧ header.color = .blue

/-- Blocks that are not in use are as long as they can be, and the free list holds them, the last
one first. -/
structure Tidy (h : Heap) : Prop where
  partitioned : h.Partitioned
  settled : h.Settled
  apart : ∀ {i length}, h.BlockAt i (.unused length) → i + length + 1 = h.capacity ∨
    ∃ next, h.BlockAt (i + length + 1) next ∧ next.tag = .cons
  freeList : h.ListsDownward fun i length => h.BlockAt i (.unused length)

/-- `h'` is tidy, and in use are those blocks of `h` that the roots reach. -/
structure Reclaimed (h : Heap) (roots : List Word) (h' : Heap) : Prop where
  allocations : h'.allocations = h.allocations
  collections : h'.collections = h.collections + 1
  capacity : h'.capacity = h.capacity
  tidy : h'.Tidy
  start : ∀ {i header}, h'.BlockAt i header → ∃ old, h.BlockAt i old
  blockAt_iff : ∀ {i header}, header.tag = .cons →
    (h'.BlockAt i header ↔ h.BlockAt i header ∧ h.Reaches roots (.ofHeader i))
  data : ∀ {i header}, h.BlockAt i header → h.Reaches roots (.ofHeader i) →
    ∀ k, i < k → k ≤ i + header.length → h'.words[k]? = h.words[k]?

variable {g h h' : Heap} {roots roots' : List Word} {i j k length : Nat} {header : Header} {r : Ref}

/-! ## Settled heaps -/

instance : Decidable h.Settled :=
  decidable_of_iff _ (forall_blockAt_iff (p := fun _ header =>
    header.tag = .cons ∧ header.color = .white ∨ header.tag = .free ∧ header.color = .blue)).symm

theorem Settled.unmarked (hs : h.Settled) : h.Unmarked := fun hb => by
  rcases hs hb with ⟨-, hc⟩ | ⟨-, hc⟩ <;> rw [hc] <;> rfl

theorem Settled.eq_unused (hs : h.Settled) (hb : h.BlockAt i header) (hf : header.tag = .free) :
    header = .unused header.length := by
  rcases hs hb with ⟨hcons, -⟩ | ⟨-, hblue⟩
  · rw [hf] at hcons
    cases hcons
  · cases header
    cases hf
    cases hblue
    rfl

theorem Settled.tag_of_leadsToWhite (hs : h.Settled) (hb : h.BlockAt i header)
    (hw : h.LeadsToWhite (.ofHeader i)) : header.tag = .cons ∧ header.color = .white := by
  obtain ⟨white, hh, hwhite⟩ := hw
  obtain rfl := (headerOf_eq_ok.1 hh).2.2.unique hb
  rcases hs hb with hcons | ⟨-, hblue⟩
  · exact hcons
  · rw [hblue] at hwhite
    cases hwhite

/-! ## Equal heaps -/

theorem eq_of_words (hw : ∀ k : Nat, h.words[k]? = h'.words[k]?) (hf : h.freeList = h'.freeList)
    (ha : h.allocations = h'.allocations) (hc : h.collections = h'.collections) : h = h' := by
  cases h
  cases h'
  cases Array.ext_getElem? fun k => hw k
  cases hf
  cases ha
  cases hc
  rfl

/-- The links of a list are decided by its entries. -/
theorem Links.word_eq {first first' last : Ref} {entries : List Ref}
    (hl : h.Links first entries last) (hl' : h'.Links first' entries last) :
    first = first' ∧ ∀ r ∈ entries, h.words[r.index]? = h'.words[r.index]? := by
  induction entries generalizing first first' with
  | nil => exact ⟨Eq.trans hl (Eq.symm hl'), fun r hr => by cases hr⟩
  | cons r rest ih =>
    obtain ⟨rfl, -, next, hnext, hrest⟩ := hl
    obtain ⟨rfl, -, next', hnext', hrest'⟩ := hl'
    obtain ⟨rfl, hwords⟩ := ih hrest hrest'
    refine ⟨rfl, fun s hs => ?_⟩
    rcases List.mem_cons.1 hs with rfl | hs
    · rw [hnext, hnext']
    · exact hwords s hs

theorem ListsDownward.congr {free free' : Nat → Nat → Prop} (hl : h.ListsDownward free)
    (hiff : ∀ {j length}, free j length ↔ free' j length) : h.ListsDownward free' := by
  obtain ⟨entries, hlinks, hsorted, hmem⟩ := hl
  exact ⟨entries, hlinks, hsorted, by simpa only [hiff] using hmem⟩

theorem ListsDownward.word_eq {free : Nat → Nat → Prop} (hl : h.ListsDownward free)
    (hl' : h'.ListsDownward free) : h.freeList = h'.freeList ∧
      ∀ {j length}, 0 < length → free j length → h.words[j + 1]? = h'.words[j + 1]? := by
  obtain ⟨entries, hlinks, hsorted, hmem⟩ := hl
  obtain ⟨entries', hlinks', hsorted', hmem'⟩ := hl'
  have : Std.Antisymm fun r s : Ref => s.index < r.index := ⟨fun r s hr hs => by omega⟩
  have : Std.Irrefl fun r s : Ref => s.index < r.index := ⟨fun r hr => by omega⟩
  obtain rfl : entries = entries' := hsorted.eq_of_mem_iff hsorted' fun r =>
    (hmem r).trans (hmem' r).symm
  obtain ⟨hfirst, hwords⟩ := hlinks.word_eq hlinks'
  exact ⟨hfirst, fun hpos hfree => hwords _ ((hmem _).2 ⟨_, _, rfl, hpos, hfree⟩)⟩

/-! ## What a marking depends on -/

/-- Two markings that reach the same blocks paint the same. -/
theorem Blackened.eq (hm : h.Blackened roots g) (hm' : h.Blackened roots' h')
    (hsame : ∀ r, h.Reaches roots r ↔ h.Reaches roots' r) : g = h' := by
  have hr := hm.recolored
  have hr' := hm'.recolored
  refine eq_of_words (fun k => ?_) (hr.freeList.trans hr'.freeList.symm)
    (hr.allocations.trans hr'.allocations.symm) (hr.collections.trans hr'.collections.symm)
  by_cases hno : ∃ header, h.BlockAt k header
  · obtain ⟨header, hb⟩ := hno
    by_cases hreach : h.Reaches roots (.ofHeader k)
    · exact (hm.blockAt_reached hb hreach).trans
        (hm'.blockAt_reached hb ((hsame _).1 hreach)).symm
    · exact (hm.blockAt_unreached hb hreach).trans
        (hm'.blockAt_unreached hb fun hr => hreach ((hsame _).2 hr)).symm
  · have hno : ∀ header, ¬ h.BlockAt k header := fun header hb => hno ⟨header, hb⟩
    exact (hr.getElem?_eq hno).trans (hr'.getElem?_eq hno).symm

theorem mark_eq_of_reaches (hp : h.Partitioned) (hu : h.Unmarked)
    (hroots : ∀ w ∈ roots, w.header? = none) (hroots' : ∀ w ∈ roots', w.header? = none)
    (hsame : ∀ r, h.Reaches roots r ↔ h.Reaches roots' r) (hm : mark roots h = .ok () g) :
    mark roots' h = .ok () g := by
  have hpainted := (mark_spec hp hu hroots).of_ok hm
  have hspec := mark_spec hp hu hroots'
  cases hm' : mark roots' h with
  | ok _ g' => rw [hpainted.eq (hspec.of_ok hm') hsame]
  | error failure g' =>
    obtain ⟨r, -, hr, hno⟩ := (hspec.of_error hm').cause
    exact absurd (hpainted.white ((hsame r).2 hr)) hno

theorem collect_eq_of_reaches (hp : h.Partitioned) (hu : h.Unmarked)
    (hroots : ∀ w ∈ roots, w.header? = none) (hroots' : ∀ w ∈ roots', w.header? = none)
    (hsame : ∀ r, h.Reaches roots r ↔ h.Reaches roots' r) (hc : collect roots h = .ok () g) :
    collect roots' h = .ok () g := by
  cases hm : mark roots h with
  | error failure g' =>
    rw [collect, bind_of_error hm] at hc
    cases hc
  | ok _ g' =>
    rw [collect, bind_of_ok hm] at hc
    rw [collect, bind_of_ok (mark_eq_of_reaches hp hu hroots hroots' hsame hm), hc]

/-! ## What a collection leaves -/

theorem Tidy.counted (ht : h.Tidy) : Tidy { h with collections := h.collections + 1 } where
  partitioned := ht.partitioned.congr rfl (fun hb => ⟨_, hb, rfl⟩) fun hb => ⟨_, hb, rfl⟩
  settled := fun hb => ht.settled hb
  apart := ht.apart
  freeList := by
    obtain ⟨entries, hlinks, hsorted, hmem⟩ := ht.freeList
    exact ⟨entries, hlinks.frame fun _ _ => rfl, hsorted, hmem⟩

theorem paint_black_white {old : Header} (hc : old.color = .white) :
    (old.paint .black).paint .white = old := by
  cases old
  cases hc
  rfl

/-- The blocks of the heap once it is swept: reached ones as they were, and free ones. -/
theorem Blackened.blockAt_iff (hm : h.Blackened roots g) (hr : g.Regrouped h') (hs : h.Settled) :
    h'.BlockAt i header ↔
      header.tag = .cons ∧ h.BlockAt i header ∧ h.Reaches roots (.ofHeader i) ∨
        header = .unused header.length ∧ g.LongestRun i header.length := by
  rw [hr.blockAt_iff]
  refine or_congr_left ⟨?_, ?_⟩
  · rintro ⟨old, hold, hblack, rfl⟩
    obtain ⟨first, hfirst, hwhite, rfl⟩ := hm.old hs.unmarked hold hblack
    have hreach := (hm.black hold).1 hblack
    rw [paint_black_white hwhite]
    exact ⟨(hs.tag_of_leadsToWhite hfirst (hm.white hreach)).1, hfirst, hreach⟩
  · rintro ⟨-, hb, hreach⟩
    have hwhite := (hs.tag_of_leadsToWhite hb (hm.white hreach)).2
    exact ⟨_, hm.blockAt_reached hb hreach, rfl, (paint_black_white hwhite).symm⟩

theorem Blackened.tidy (hm : h.Blackened roots g) (hr : g.Regrouped h') (hs : h.Settled) :
    h'.Tidy where
  partitioned := hr.partitioned
  settled := by
    intro i header hb
    rcases (hm.blockAt_iff hr hs).1 hb with ⟨-, hold, hreach⟩ | ⟨hunused, -⟩
    · exact .inl (hs.tag_of_leadsToWhite hold (hm.white hreach))
    · exact .inr (by rw [hunused]; exact ⟨rfl, rfl⟩)
  apart := by
    intro i length hb
    rcases (hr.longestRun_iff.2 hb).maximal with hend | ⟨next, hn, hmarked⟩
    · exact .inl (hend.trans hr.capacity.symm)
    · have hblack : next.color = .black := by
        have := hm.noGrey hn
        revert hmarked this
        cases next.color <;> simp [Color.isUnmarked]
      have hnew := hr.blockAt_iff.2 (.inl ⟨next, hn, hblack, rfl⟩)
      rcases (hm.blockAt_iff hr hs).1 hnew with ⟨hcons, -⟩ | ⟨hunused, -⟩
      · exact .inr ⟨_, hnew, hcons⟩
      · cases congrArg Header.color hunused
  freeList := hr.freeList.congr hr.longestRun_iff

theorem Blackened.reclaimed (hm : h.Blackened roots g) (hr : g.Regrouped h') (hp : h.Partitioned)
    (hs : h.Settled) : h.Reclaimed roots { h' with collections := h'.collections + 1 } where
  allocations := hr.allocations.trans hm.recolored.allocations
  collections := congrArg (· + 1) (hr.collections.trans hm.recolored.collections)
  capacity := hr.capacity.trans hm.recolored.capacity
  tidy := (hm.tidy hr hs).counted
  start := by
    intro i header hb
    rcases (hm.blockAt_iff hr hs).1 hb with ⟨-, hold, -⟩ | ⟨-, hrun⟩
    · exact ⟨header, hold⟩
    · obtain ⟨old, hold⟩ := hrun.start
      rcases hm.recolored.blockAt hold with hsame | ⟨first, hfirst, -⟩
      · exact ⟨old, hsame⟩
      · exact ⟨first, hfirst⟩
  blockAt_iff := by
    intro i header hcons
    refine (hm.blockAt_iff hr hs).trans ⟨?_, fun hreach => .inl ⟨hcons, hreach⟩⟩
    rintro (⟨-, hreach⟩ | ⟨hunused, -⟩)
    · exact hreach
    · rw [hunused] at hcons
      cases hcons
  data := by
    intro i header hb hreach k hlt hle
    refine (hr.kept (hm.blockAt_reached hb hreach) rfl k hlt hle).trans ?_
    exact hm.recolored.getElem?_eq fun _ => hp.inside hb hlt hle

theorem collect_reclaimed (hp : h.Partitioned) (hs : h.Settled)
    (hroots : ∀ w ∈ roots, w.header? = none) :
    Outcome (fun _ h' => h.Reclaimed roots h' ∧ ∀ r, h.Reaches roots r → h.LeadsToWhite r)
      (MarkingFailed h roots) (collect roots h) := by
  refine (mark_spec hp hs.unmarked hroots).bind fun _ g hm => ?_
  refine ((sweep_regrouped (hm.recolored.partitioned hp)).mono (fun _ _ => id)
    fun failure _ hf => ?_).bind fun _ h' hr => ⟨hm.reclaimed hr hp hs, fun r => hm.white⟩
  obtain ⟨j, header, -, hb, hgrey, -⟩ := hf
  exact absurd hgrey (hm.noGrey hb)

namespace Reclaimed

theorem kept (hc : h.Reclaimed roots h') (hs : h.Settled) (hr : h.Reaches roots r)
    (hw : h.LeadsToWhite r) (hh : h.headerOf r = .ok header) :
    h'.headerOf r = .ok header ∧ ∀ offset < header.length,
      h'.words[r.index + offset]? = h.words[r.index + offset]? := by
  obtain ⟨hn, hlt, hb⟩ := headerOf_eq_ok.1 hh
  have hidx := Ref.index_eq hn
  rw [← Ref.ofHeader_headerIndex hn] at hr hw
  have hcons := (hs.tag_of_leadsToWhite hb hw).1
  exact ⟨headerOf_eq_ok.2 ⟨hn, hc.capacity ▸ hlt, (hc.blockAt_iff hcons).2 ⟨hb, hr⟩⟩,
    fun offset ho => hc.data hb hr _ (by omega) (by omega)⟩

theorem reaches_iff (hc : h.Reclaimed roots h') (hs : h.Settled)
    (hw : ∀ r, h.Reaches roots r → h.LeadsToWhite r)
    (hsame : ∀ r, h.Reaches roots r ↔ h.Reaches roots' r) :
    h'.Reaches roots' r ↔ h.Reaches roots' r :=
  reaches_iff_of_kept (fun hr => hw _ ((hsame _).2 hr)) fun hr hh =>
    hc.kept hs ((hsame _).2 hr) (hw _ ((hsame _).2 hr)) hh

end Reclaimed

/-! ## Collecting a tidy heap -/

section

variable (ht : h.Tidy) (hm : h.Blackened roots g)
  (hall : ∀ {i header}, h.BlockAt i header → header.tag = .cons → h.Reaches roots (.ofHeader i))

include ht hm hall

/-- Of the blocks of a tidy heap, the ones in use are painted black and the others are not painted. -/
theorem Tidy.blockAt_painted (hb : h.BlockAt i header) :
    header.tag = .cons ∧ g.BlockAt i (header.paint .black) ∨
      header = .unused header.length ∧ g.BlockAt i header := by
  rcases ht.settled hb with ⟨hcons, -⟩ | ⟨hfree, hblue⟩
  · exact .inl ⟨hcons, hm.blockAt_reached hb (hall hb hcons)⟩
  · refine .inr ⟨Settled.eq_unused ht.settled hb hfree, hm.blockAt_unreached hb fun hreach => ?_⟩
    have hwhite := (Settled.tag_of_leadsToWhite ht.settled hb (hm.white hreach)).2
    rw [hblue] at hwhite
    cases hwhite

theorem Tidy.unused_of_unmarked (hb : g.BlockAt i header) (hu : header.color.isUnmarked = true) :
    h.BlockAt i (.unused header.length) := by
  rcases hm.recolored.blockAt hb with hold | ⟨-, -, -, -, hmarked⟩
  · rcases ht.blockAt_painted hm hall hold with ⟨-, hblack⟩ | ⟨hunused, -⟩
    · rw [hb.unique hblack] at hu
      cases hu
    · exact hunused ▸ hold
  · rw [hmarked] at hu
    cases hu

theorem Tidy.longestRun (hb : h.BlockAt i (.unused length)) : g.LongestRun i length := by
  have hp := hm.recolored.partitioned ht.partitioned
  have hb' : g.BlockAt i (.unused length) := by
    rcases ht.blockAt_painted hm hall hb with ⟨hcons, -⟩ | ⟨-, hb'⟩
    · cases hcons
    · exact hb'
  refine ⟨⟨⟨_, hb'⟩, fun {j other} hge hle ho => ?_, ?_⟩, fun {j other} ho hend => ?_⟩
  · rcases Nat.eq_or_lt_of_le hge with rfl | hlt
    · rw [ho.unique hb']
      rfl
    · exact absurd ho (hp.inside hb' hlt hle)
  · rcases ht.apart hb with hend | ⟨next, hn, hcons⟩
    · exact .inl (hend.trans hm.recolored.capacity.symm)
    · rcases ht.blockAt_painted hm hall hn with ⟨-, hblack⟩ | ⟨hunused, -⟩
      · exact .inr ⟨_, hblack, rfl⟩
      · rw [hunused] at hcons
        cases hcons
  · -- A free block before this one would be followed by a block in use.
    cases hu : other.color.isUnmarked with
    | false => rfl
    | true =>
      subst hend
      rcases ht.apart (ht.unused_of_unmarked hm hall ho hu) with hend | ⟨next, hn, hcons⟩
      · have := hb.lt
        omega
      · rw [hn.unique hb] at hcons
        cases hcons

/-- Where there is nothing to reclaim, the longest dead runs are the free blocks. -/
theorem Tidy.longestRun_iff : g.LongestRun i length ↔ h.BlockAt i (.unused length) := by
  refine ⟨fun hrun => ?_, ht.longestRun hm hall⟩
  obtain ⟨start, hstart⟩ := hrun.start
  have hdead := hrun.dead (Nat.le_refl _) (Nat.le_add_right _ _) hstart
  have hb := ht.unused_of_unmarked hm hall hstart hdead
  rwa [hrun.length_unique (ht.longestRun hm hall hb).toDeadRun]

theorem Tidy.blockAt_regrouped (hr : g.Regrouped h') : h'.BlockAt i header ↔ h.BlockAt i header := by
  rw [hm.blockAt_iff hr ht.settled]
  constructor
  · rintro (⟨-, hb, -⟩ | ⟨hunused, hrun⟩)
    · exact hb
    · exact hunused ▸ (ht.longestRun_iff hm hall).1 hrun
  · intro hb
    rcases ht.blockAt_painted hm hall hb with ⟨hcons, -⟩ | ⟨hunused, -⟩
    · exact .inl ⟨hcons, hb, hall hb hcons⟩
    · exact .inr ⟨hunused, ht.longestRun hm hall (hunused ▸ hb)⟩

/-- Marking and sweeping a tidy heap with nothing to reclaim gives it back. -/
theorem Tidy.regrouped_eq (hr : g.Regrouped h') : h' = h := by
  obtain ⟨hlist, hlink⟩ :=
    (hr.freeList.congr (ht.longestRun_iff hm hall)).word_eq ht.freeList
  refine eq_of_words (fun k => ?_) hlist (hr.allocations.trans hm.recolored.allocations)
    (hr.collections.trans hm.recolored.collections)
  by_cases hno : ∃ header, h.BlockAt k header
  · obtain ⟨header, hb⟩ := hno
    exact ((ht.blockAt_regrouped hm hall hr).2 hb).trans hb.symm
  · have hold : g.words[k]? = h.words[k]? := hm.recolored.getElem?_eq fun header hb => hno ⟨header, hb⟩
    rcases hr.words k with hsame | ⟨header, hb⟩ | ⟨j, length, rfl, hpos, hb⟩
    · exact hsame.trans hold
    · exact absurd ⟨header, hold.symm.trans hb⟩ hno
    · exact hlink hpos ((ht.blockAt_regrouped hm hall hr).1 hb)

omit hm in
theorem Tidy.collect_eq (hroots : ∀ w ∈ roots, w.header? = none)
    (hw : ∀ r, h.Reaches roots r → h.LeadsToWhite r) :
    collect roots h = .ok () { h with collections := h.collections + 1 } := by
  have hmark := mark_spec ht.partitioned (Settled.unmarked ht.settled) hroots
  cases hm : mark roots h with
  | error failure g =>
    obtain ⟨r, -, hr, hno⟩ := (hmark.of_error hm).cause
    exact absurd (hw r hr) hno
  | ok _ g =>
    have hpainted := hmark.of_ok hm
    have hsweep := sweep_regrouped (hpainted.recolored.partitioned ht.partitioned)
    cases hr : sweep g with
    | error failure h' =>
      obtain ⟨j, header, -, hb, hgrey, -⟩ := hsweep.of_error hr
      exact absurd hgrey (hpainted.noGrey hb)
    | ok _ h' =>
      rw [collect, bind_of_ok hm, bind_of_ok hr, ht.regrouped_eq hpainted hall (hsweep.of_ok hr)]
      rfl

end

/-- After a collection there is nothing left to collect. -/
theorem Reclaimed.collect_eq (hc : h.Reclaimed roots h') (hs : h.Settled)
    (hroots : ∀ w ∈ roots', w.header? = none)
    (hw : ∀ r, h.Reaches roots r → h.LeadsToWhite r)
    (hsame : ∀ r, h.Reaches roots r ↔ h.Reaches roots' r) :
    collect roots' h' = .ok () { h' with collections := h'.collections + 1 } := by
  refine hc.tidy.collect_eq (fun {i header} hb hcons => ?_) hroots fun r hr => ?_
  · have hreach := ((hc.blockAt_iff hcons).1 hb).2
    exact (hc.reaches_iff hs hw hsame).2 ((hsame _).1 hreach)
  · have hreach := (hsame _).2 ((hc.reaches_iff hs hw hsame).1 hr)
    obtain ⟨header, hh, hwhite⟩ := hw r hreach
    exact ⟨header, (hc.kept hs hreach (hw r hreach) hh).1, hwhite⟩

/-- When the roots reach nothing, one free block is left. -/
theorem Reclaimed.blockAt_of_unreached (hc : h.Reclaimed roots h')
    (hno : ∀ r, ¬ h.Reaches roots r) (hcap : 0 < h.capacity) :
    h'.BlockAt i header ↔ i = 0 ∧ header = .unused (h.capacity - 1) := by
  have hp := hc.tidy.partitioned
  have hcap' := hc.capacity
  have notCons : ∀ {i header}, h'.BlockAt i header → header.tag ≠ .cons := fun hb hcons =>
    hno _ ((hc.blockAt_iff hcons).1 hb).2
  -- The block at 0 is free, and as no block in use can follow it, it fills the heap.
  have hstart : h'.BlockAt 0 (.unused (h.capacity - 1)) := by
    rcases hp.start with hend | ⟨⟨tag, length, color⟩, hb⟩
    · omega
    · rcases hc.tidy.settled hb with ⟨hcons, -⟩ | ⟨hfree, hblue⟩
      · exact absurd hcons (notCons hb)
      · cases hfree
        cases hblue
        rcases hc.tidy.apart hb with hend | ⟨next, hn, hcons⟩
        · rwa [show h.capacity - 1 = length by omega]
        · exact absurd hcons (notCons hn)
  constructor
  · intro hb
    obtain rfl : i = 0 := by
      by_contra hi
      have hlt := hb.lt
      refine hp.inside hstart (by omega) ?_ hb
      change i ≤ 0 + (h.capacity - 1)
      omega
    exact ⟨rfl, hb.unique hstart⟩
  · rintro ⟨rfl, rfl⟩
    exact hstart

theorem ListsDownward.links_of_single {free : Nat → Nat → Prop} (hl : h.ListsDownward free)
    (hpos : 0 < length) (hfree : ∀ {j l}, free j l ↔ j = i ∧ l = length) :
    h.Links h.freeList [.ofHeader i] .null := by
  obtain ⟨entries, hlinks, hsorted, hmem⟩ := hl
  have hmem : ∀ r, r ∈ entries ↔ r = .ofHeader i := by
    intro r
    rw [hmem]
    constructor
    · rintro ⟨j, l, rfl, -, hjl⟩
      rw [(hfree.1 hjl).1]
    · rintro rfl
      exact ⟨i, length, rfl, hpos, hfree.2 ⟨rfl, rfl⟩⟩
  cases entries with
  | nil => cases (hmem _).2 rfl
  | cons r rest =>
    obtain rfl := (hmem r).1 List.mem_cons_self
    have hrest : rest = [] := List.eq_nil_iff_forall_not_mem.2 fun s hs => by
      obtain rfl := (hmem s).1 (List.mem_cons_of_mem _ hs)
      exact Nat.lt_irrefl _ ((List.pairwise_cons.1 hsorted).1 _ hs)
    rwa [hrest] at hlinks

theorem Reclaimed.blocks_of_unreached (hc : h.Reclaimed roots h')
    (hno : ∀ r, ¬ h.Reaches roots r) (hcap : minimumCapacity ≤ h.capacity) :
    h'.blocks = ([⟨0, .unused (h.capacity - 1)⟩], none) ∧
      h'.Links h'.freeList [.ofHeader 0] .null := by
  simp only [minimumCapacity] at hcap
  have hcap' := hc.capacity
  have hblock : ∀ {i header}, h'.BlockAt i header ↔ i = 0 ∧ header = .unused (h.capacity - 1) :=
    hc.blockAt_of_unreached hno (by omega)
  constructor
  · have hlength : (Header.unused (h.capacity - 1)).length = h.capacity - 1 := rfl
    have hrest : h'.blocksFrom (0 + (h.capacity - 1) + 1) = ([], none) := by
      rw [blocksFrom, dif_neg (by omega)]
    rw [blocks, blocksFrom, dif_pos (by omega), headerAt_eq_ok.2 (hblock.2 ⟨rfl, rfl⟩)]
    simp only [hlength, hrest]
    rw [if_pos (by omega)]
  · refine hc.tidy.freeList.links_of_single (show 0 < h.capacity - 1 by omega) fun {j l} => ?_
    rw [hblock]
    exact and_congr_right fun _ => ⟨congrArg Header.length, congrArg Header.unused⟩

/-- What a collection makes of a heap depends on the roots only by what they reach. Collecting once
more, with roots that reach the same, changes nothing but the count; and when nothing is reached
one free block is left, which is all of the free list. (No heap is made with less than the minimum
capacity. Of one word there would be just an orphan, which no free list holds.) -/
theorem collect_depends_on_reached (hp : h.Partitioned) (hs : h.Settled)
    (hroots : ∀ w ∈ roots, w.header? = none) (hroots' : ∀ w ∈ roots', w.header? = none)
    (hsame : h.reached roots = h.reached roots') (hc : collect roots h = .ok () g) :
    collect roots' h = .ok () g ∧
      collect roots g = .ok () { g with collections := g.collections + 1 } ∧
      collect roots' g = .ok () { g with collections := g.collections + 1 } ∧
      (h.reached roots = ∅ → minimumCapacity ≤ h.capacity →
        g.blocks = ([⟨0, .unused (h.capacity - 1)⟩], none) ∧
          g.Links g.freeList [.ofHeader 0] .null) := by
  have hsame : ∀ r, h.Reaches roots r ↔ h.Reaches roots' r := fun r => Set.ext_iff.1 hsame r
  obtain ⟨hreclaimed, hw⟩ := (collect_reclaimed hp hs hroots).of_ok hc
  refine ⟨collect_eq_of_reaches hp hs.unmarked hroots hroots' hsame hc,
    hreclaimed.collect_eq hs hroots hw fun _ => .rfl,
    hreclaimed.collect_eq hs hroots' hw hsame, fun hno => ?_⟩
  exact hreclaimed.blocks_of_unreached fun r hr => Set.eq_empty_iff_forall_notMem.1 hno r hr

/-- Two lists of roots find the two blocks of a cycle, in different ways; what lies around them is
joined. Without roots all of the heap is. -/
theorem collect_depends_on_reached_of_cycle : ∃ h g : Heap, h.Partitioned ∧ h.Settled ∧
    h.words = #[.header (.unused 0), .header ⟨.cons, 1, .white⟩, .ref ⟨4⟩,
      .header ⟨.cons, 2, .white⟩, .ref ⟨2⟩, .int 5, .header ⟨.cons, 1, .white⟩, .int 9,
      .header (.unused 1), .null] ∧
    h.reached [.int 7, .ref ⟨2⟩] = h.reached [.ref ⟨4⟩, .null, .ref ⟨2⟩, .ref ⟨4⟩] ∧
    collect [.int 7, .ref ⟨2⟩] h = .ok () g ∧
    collect [.ref ⟨4⟩, .null, .ref ⟨2⟩, .ref ⟨4⟩] h = .ok () g ∧
    collect [.ref ⟨4⟩, .null, .ref ⟨2⟩, .ref ⟨4⟩] g =
      .ok () { g with collections := g.collections + 1 } ∧
    g.words = #[.header (.unused 0), .header ⟨.cons, 1, .white⟩, .ref ⟨4⟩,
      .header ⟨.cons, 2, .white⟩, .ref ⟨2⟩, .int 5, .header (.unused 3), .null, .zero, .null] ∧
    ∃ g', collect [] h = .ok () g' ∧ g'.blocks = ([⟨0, .unused 9⟩], none) := by
  let h : Heap := ⟨#[.header (.unused 0), .header ⟨.cons, 1, .white⟩, .ref ⟨4⟩,
    .header ⟨.cons, 2, .white⟩, .ref ⟨2⟩, .int 5, .header ⟨.cons, 1, .white⟩, .int 9,
    .header (.unused 1), .null], ⟨9⟩, 0, 0⟩
  have hp : h.Partitioned := by decide
  have hs : h.Settled := by decide
  have hh : h.headerOf ⟨2⟩ = .ok ⟨.cons, 1, .white⟩ := rfl
  have hlink : ∀ {roots}, h.Reaches roots ⟨2⟩ → h.Reaches roots ⟨4⟩ := fun hr =>
    .child hr hh rfl (show 0 < 1 by decide) rfl rfl
  have hsame : h.reached [.int 7, .ref ⟨2⟩] =
      h.reached [.ref ⟨4⟩, .null, .ref ⟨2⟩, .ref ⟨4⟩] := by
    have hfirst : ∀ {roots : List Word}, .ref ⟨2⟩ ∈ roots → h.Reaches roots ⟨2⟩ := fun hr =>
      .root hr rfl
    ext r
    refine ⟨fun hr => hr.of_roots ?_, fun hr => hr.of_roots ?_⟩
    · simp [Word.target?, Ref.isNull, hfirst]
    · simp [Word.target?, Word.null, Ref.null, Ref.isNull, hfirst, hlink]
  have hcollect : collect [.int 7, .ref ⟨2⟩] h = .ok () ⟨#[.header (.unused 0),
    .header ⟨.cons, 1, .white⟩, .ref ⟨4⟩, .header ⟨.cons, 2, .white⟩, .ref ⟨2⟩, .int 5,
    .header (.unused 3), .null, .zero, .null], ⟨7⟩, 0, 1⟩ := by decide +kernel
  obtain ⟨hsecond, -, hagain, -⟩ :=
    collect_depends_on_reached hp hs (by decide) (by decide) hsame hcollect
  have hempty : h.reached [] = ∅ := Set.eq_empty_of_forall_notMem fun r => not_reaches_nil
  have hnone : collect [] h = .ok () ⟨#[.header (.unused 9), .null, .ref ⟨4⟩, .zero, .ref ⟨2⟩,
    .int 5, .zero, .int 9, .zero, .null], ⟨1⟩, 0, 1⟩ := by decide +kernel
  obtain ⟨-, -, -, hall⟩ :=
    collect_depends_on_reached hp hs (by decide) (by decide) rfl hnone
  exact ⟨h, _, hp, hs, rfl, hsame, hcollect, hsecond, hagain, rfl, _, hnone,
    (hall hempty (by decide)).1⟩

end ConsMachine.Heap
