import ConsMachine.Heap.Sweeping
import ConsMachine.Proofs.Heap.FreeList
import ConsMachine.Proofs.Outcome

/-!
# Sweeping is exact

The walk of the sweep leaves a partitioned heap behind it at every boundary. Behind the walk a
black block is white and otherwise as it was, and a longest run of dead blocks is one block; the
free list holds those of them that have data words, the last one first.

## Main definitions

* `Heap.Absorbed` — a dead run that is being extended: the headers inside it are cleared.
* `Heap.Swept` — the invariant of the walk.
-/

namespace ConsMachine.Heap

/-- The blocks of `h` that the `length` data words at `index` cover are dead, and their headers are
cleared in `h'`. -/
structure Absorbed (h h' : Heap) (index length : Nat) : Prop where
  freeList : h'.freeList = h.freeList
  allocations : h'.allocations = h.allocations
  collections : h'.collections = h.collections
  capacity : h'.capacity = h.capacity
  dead : ∀ {j header}, index ≤ j → j ≤ index + length → h.BlockAt j header →
    header.color.isUnmarked = true
  boundary : h.Boundary (index + length + 1)
  inside : ∀ {j header}, index < j → j ≤ index + length → ¬ h'.BlockAt j header
  outside : ∀ {j}, j ≤ index ∨ index + length < j → h'.words[j]? = h.words[j]?
  words : ∀ j : Nat, h'.words[j]? = h.words[j]? ∨ h'.words[j]? = some Word.zero

/-- The `length` data words at `index` are a dead run that no dead block follows. -/
structure DeadRun (h : Heap) (index length : Nat) : Prop where
  start : ∃ header, h.BlockAt index header
  dead : ∀ {j header}, index ≤ j → j ≤ index + length → h.BlockAt j header →
    header.color.isUnmarked = true
  maximal : index + length + 1 = h.capacity ∨
    ∃ next, h.BlockAt (index + length + 1) next ∧ next.color.isUnmarked = false

/-- `h'` is `h` with the blocks before `i` swept. -/
structure Swept (h h' : Heap) (i : Nat) : Prop where
  allocations : h'.allocations = h.allocations
  collections : h'.collections = h.collections
  capacity : h'.capacity = h.capacity
  boundary : h.Boundary i
  ahead : ∀ {j}, i ≤ j → h'.words[j]? = h.words[j]?
  partitioned : h'.Partitioned
  /-- What is black survives. -/
  kept : ∀ {j header}, j < i → h.BlockAt j header → header.color = .black →
    h'.BlockAt j (header.paint .white) ∧
      ∀ k, j < k → k ≤ j + header.length → h'.words[k]? = h.words[k]?
  /-- Nothing else does. -/
  origin : ∀ {j header}, j < i → h'.BlockAt j header →
    (∃ old, h.BlockAt j old ∧ old.color = .black ∧ header = old.paint .white) ∨
      header = .unused header.length ∧ h.DeadRun j header.length
  /-- A data word is the one that was there, cleared, or the link to a block behind it. -/
  data : ∀ {j : Nat} {w : Word}, h'.words[j]? = some w → w.header? = none →
    h.words[j]? = some w ∨ w = .zero ∨ ∃ r, w = .ref r ∧ r.index < j
  freeList : ∃ entries, h'.Links h'.freeList entries .null ∧
    entries.Pairwise (fun r s => s.index < r.index) ∧
    ∀ r, r ∈ entries ↔ ∃ j length, r = .ofHeader j ∧ j < i ∧ 0 < length ∧
      h'.BlockAt j (.unused length)

variable {g h h' : Heap} {i index length : Nat} {header : Header}

/-! ## Absorbing dead blocks -/

theorem Absorbed.blockAt_next (ha : g.Absorbed h index length)
    (hh : h.headerAt (index + length + 1) = .ok header) :
    g.BlockAt (index + length + 1) header :=
  (ha.outside (.inr (by omega))).symm.trans (headerAt_eq_ok.1 hh)

/-- One more dead block is absorbed. -/
theorem Absorbed.extend (hp : g.Partitioned) (ha : g.Absorbed h index length)
    (hb : g.BlockAt (index + length + 1) header) (hu : header.color.isUnmarked = true) :
    g.Absorbed (h.put (index + length + 1) .zero) index (length + header.length + 1) where
  freeList := ha.freeList
  allocations := ha.allocations
  collections := ha.collections
  capacity := by simpa using ha.capacity
  dead := by
    intro j other hge hle ho
    by_cases hj : j ≤ index + length
    · exact ha.dead hge hj ho
    · by_cases heq : j = index + length + 1
      · subst heq
        rwa [ho.unique hb]
      · exact absurd ho (hp.inside hb (by omega) (by omega))
  boundary := by
    have := hp.next hb
    rwa [show index + (length + header.length + 1) + 1 =
      index + length + 1 + header.length + 1 by omega]
  inside := by
    intro j other hlt hle ho
    rw [blockAt_put] at ho
    split at ho
    · cases ho
    · next hne =>
      by_cases hj : j ≤ index + length
      · exact ha.inside hlt hj ho
      · by_cases heq : j = index + length + 1
        · exact hne ⟨heq, ha.capacity ▸ hb.lt⟩
        · have hold : g.BlockAt j other := (ha.outside (.inr (by omega))).symm.trans ho
          exact hp.inside hb (by omega) (by omega) hold
  outside := by
    intro j hj
    rw [getElem?_put, if_neg (by omega)]
    exact ha.outside (by omega)
  words := by
    intro j
    rw [getElem?_put]
    split
    · exact .inr rfl
    · exact ha.words j

theorem absorb_spec (hp : g.Partitioned) (ha : g.Absorbed h index length) :
    Outcome (fun length' h' => g.Absorbed h' index length' ∧
        (index + length' + 1 = g.capacity ∨ ∃ next,
          g.BlockAt (index + length' + 1) next ∧ next.color.isUnmarked = false))
      (fun _ _ => False) (h.absorb index length) := by
  fun_induction absorb h index length with
  | case1 h length next hlt fault hh =>
    rcases ha.boundary with hend | ⟨header, hb⟩
    · have := ha.capacity
      omega
    · have := headerAt_eq_ok.2 ((ha.outside (.inr (by omega))).trans hb)
      rw [hh] at this
      cases this
  | case2 h length next hlt following hh hu hle ih =>
    exact ih (ha.extend hp (ha.blockAt_next hh) hu)
  | case3 h length next hlt following hh hu hle =>
    exact hle (ha.capacity ▸ hp.end_le (ha.blockAt_next hh))
  | case4 h length next hlt following hh hu =>
    exact ⟨ha, .inr ⟨following, ha.blockAt_next hh, by simpa using hu⟩⟩
  | case5 h length next hge =>
    refine ⟨ha, .inl ?_⟩
    have := ha.boundary.le
    have := ha.capacity
    omega

/-! ## Releasing a run -/

/-- The heap once the run of `length` data words at `index` has been released. -/
def released (h : Heap) (index length : Nat) : Heap :=
  let h := h.put index (.header (.unused length))
  if 0 < length then
    { h.put (index + 1) (.ref h.freeList) with freeList := .ofHeader index }
  else h

@[simp] theorem capacity_released (h : Heap) (index length : Nat) :
    (h.released index length).capacity = h.capacity := by
  unfold released
  split
  · simp [capacity, put]
  · simp

/-- A run that ends in the array can be released. -/
theorem release_eq_ok (hlt : index + length < h.capacity) :
    release index length h = .ok () (h.released index length) := by
  have hwrite : write index (.header (.unused length)) h =
      .ok () (h.put index (.header (.unused length))) := by
    rw [write, if_pos (by omega)]
  have hlink : 0 < length →
      write (index + 1) (.ref h.freeList) (h.put index (.header (.unused length))) =
        .ok () ((h.put index (.header (.unused length))).put (index + 1) (.ref h.freeList)) := by
    intro hpos
    rw [write, if_pos (by rw [capacity_put]; omega)]
  rw [release, released, bind_of_ok hwrite]
  split
  · next hpos => exact bind_of_ok (hlink hpos)
  · rfl

theorem absorbed_start (hp : g.Partitioned) (hb : g.BlockAt i header)
    (hu : header.color.isUnmarked = true) : g.Absorbed g i header.length where
  freeList := rfl
  allocations := rfl
  collections := rfl
  capacity := rfl
  dead := by
    intro j other hge hle ho
    rcases Nat.eq_or_lt_of_le hge with rfl | hlt
    · rwa [ho.unique hb]
    · exact absurd ho (hp.inside hb hlt hle)
  boundary := hp.next hb
  inside := hp.inside hb
  outside := fun _ => rfl
  words := fun _ => .inl rfl

theorem getElem?_released {j : Nat} (hlt : index + length < h.capacity) :
    (h.released index length).words[j]? =
      if j = index then some (.header (.unused length))
      else if j = index + 1 ∧ 0 < length then some (.ref h.freeList) else h.words[j]? := by
  simp only [released]
  split
  · next hpos =>
    simp only [getElem?_put, capacity_put, freeList_put]
    grind
  · next hpos =>
    rw [getElem?_put]
    grind

theorem Absorbed.lt_capacity (ha : g.Absorbed h index length) :
    index + length < h.capacity := by
  have := ha.boundary.le
  have := ha.capacity
  omega

theorem Absorbed.blockAt_released {j : Nat} (ha : g.Absorbed h index length) :
    (h.released index length).BlockAt j header ↔
      j = index ∧ header = .unused length ∨
        (j < index ∨ index + length < j) ∧ g.BlockAt j header := by
  have hword := getElem?_released (j := j) ha.lt_capacity
  simp only [BlockAt]
  rw [hword]
  by_cases hj : j = index
  · subst hj
    simp
    grind
  · rw [if_neg hj]
    by_cases hin : index < j ∧ j ≤ index + length
    · have hno : ¬ h.words[j]? = some (.header header) := ha.inside hin.1 hin.2
      grind
    · rw [if_neg (by omega), ha.outside (by omega)]
      simp only [hj, false_and, false_or, iff_and_self]
      intro _
      omega

theorem Absorbed.partitioned_released (hp : g.Partitioned) (ha : g.Absorbed h index length)
    (hb : g.BlockAt index header) : (h.released index length).Partitioned := by
  have hstart : (h.released index length).BlockAt index (.unused length) :=
    ha.blockAt_released.2 (.inl ⟨rfl, rfl⟩)
  refine hp.replace ((capacity_released _ _ _).trans ha.capacity) (.inr ⟨_, hb⟩) ha.boundary
    (fun hj => ?_) ⟨_, hstart⟩ (fun {j other} hge hlt ho => ?_)
    fun {j k other next} hge hjk hlt _ _ hk => ?_
  · rw [ha.blockAt_released]
    constructor
    · rintro (⟨rfl, -⟩ | ⟨-, ho⟩)
      · omega
      · exact ho
    · exact fun ho => .inr ⟨by omega, ho⟩
  · rcases ha.blockAt_released.1 ho with ⟨rfl, rfl⟩ | ⟨hout, -⟩
    · exact .inl rfl
    · omega
  · rcases ha.blockAt_released.1 hk with ⟨rfl, -⟩ | ⟨hout, -⟩ <;> omega

/-! ## The walk -/

theorem registers_released : (h.released index length).allocations = h.allocations ∧
    (h.released index length).collections = h.collections := by
  simp only [released]
  split <;> exact ⟨rfl, rfl⟩

namespace Swept

theorem blockAt_iff (hs : g.Swept h i) {j : Nat} (hj : i ≤ j) :
    h.BlockAt j header ↔ g.BlockAt j header := by
  simp only [BlockAt]
  rw [hs.ahead hj]

/-- The free list starts behind the walk. -/
theorem freeList_le (hs : g.Swept h i) : h.freeList.index ≤ i := by
  obtain ⟨entries, hlinks, -, hmem⟩ := hs.freeList
  cases entries with
  | nil =>
    have hnull : h.freeList = .null := hlinks
    rw [hnull]
    exact Nat.zero_le i
  | cons r rest =>
    obtain ⟨j, length, hr, hj, -, -⟩ := (hmem r).1 List.mem_cons_self
    rw [hlinks.1, hr]
    exact hj

/-- The walk passes a black block. -/
theorem pass (hs : g.Swept h i) (hp : g.Partitioned) (hb : g.BlockAt i header)
    (hc : header.color = .black) :
    g.Swept (h.put i (.header (header.paint .white))) (i + header.length + 1) := by
  have hhere : h.BlockAt i header := (hs.blockAt_iff (Nat.le_refl i)).2 hb
  have hlt := hhere.lt
  have hput : ∀ {j other}, (h.put i (.header (header.paint .white))).BlockAt j other ↔
      if j = i then other = header.paint .white else h.BlockAt j other := by
    intro j other
    rw [blockAt_put]
    grind
  have hother : ∀ {j}, j ≠ i →
      (h.put i (.header (header.paint .white))).words[j]? = h.words[j]? := by
    intro j hj
    rw [getElem?_put, if_neg (fun hh => hj hh.1)]
  -- No block starts between the block that is passed and the next one.
  have hgap : ∀ {j other}, i < j → j < i + header.length + 1 → ¬ h.BlockAt j other :=
    fun hlt hle ho => hp.inside hb hlt (by omega) ((hs.blockAt_iff (Nat.le_of_lt hlt)).1 ho)
  refine
    { allocations := hs.allocations
      collections := hs.collections
      capacity := (capacity_put ..).trans hs.capacity
      boundary := hp.next hb
      ahead := fun hj => (hother (by omega)).trans (hs.ahead (by omega))
      partitioned := hs.partitioned.congr (capacity_put ..) (fun {j other} ho => ?_)
        fun {j other} ho => ?_
      kept := fun {j other} hj ho hblack => ?_
      origin := fun {j other} hj ho => ?_
      data := fun {j w} hw hno => ?_
      freeList := ?_ }
  · by_cases hj : j = i
    · subst hj
      obtain rfl := hhere.unique ho
      exact ⟨header.paint .white, hput.2 (by simp), rfl⟩
    · exact ⟨other, hput.2 (by rwa [if_neg hj]), rfl⟩
  · rw [hput] at ho
    split at ho
    · next heq => exact ⟨header, heq ▸ hhere, ho ▸ rfl⟩
    · exact ⟨other, ho, rfl⟩
  · rcases Nat.lt_trichotomy j i with hlt | rfl | hgt
    · have hend := hp.apart ho hb hlt
      obtain ⟨hnew, hwords⟩ := hs.kept hlt ho hblack
      refine ⟨hput.2 (by rwa [if_neg (by omega)]), ?_⟩
      intro k hk hle
      exact (hother (by omega)).trans (hwords k hk hle)
    · obtain rfl := hb.unique ho
      refine ⟨hput.2 (by simp), ?_⟩
      intro k hk hle
      exact (hother (by omega)).trans (hs.ahead (by omega))
    · exact absurd ho (hp.inside hb hgt (by omega))
  · rw [hput] at ho
    split at ho
    · next heq => exact .inl ⟨header, heq ▸ hb, hc, ho⟩
    · next hne =>
      refine hs.origin (Nat.lt_of_not_le fun hle => ?_) ho
      exact hgap (by omega) hj ho
  · by_cases hj : j = i
    · subst hj
      have hpainted : (h.put j (.header (header.paint .white))).BlockAt j (header.paint .white) :=
        hput.2 (by simp)
      cases hpainted.symm.trans hw
      cases hno
    · exact hs.data ((hother hj).symm.trans hw) hno
  · obtain ⟨entries, hlinks, hsorted, hmem⟩ := hs.freeList
    refine ⟨entries, hlinks.frame ?_, hsorted, ?_⟩
    · intro r hr
      obtain ⟨j, length, rfl, hj, hpos, ho⟩ := (hmem r).1 hr
      have : j + length < i := hs.partitioned.apart ho hhere hj
      exact hother (by change j + 1 ≠ i; omega)
    · intro r
      rw [hmem]
      constructor
      · rintro ⟨j, length, rfl, hj, hpos, ho⟩
        exact ⟨j, length, rfl, by omega, hpos, hput.2 (by rwa [if_neg (by omega)])⟩
      · rintro ⟨j, length, rfl, hj, hpos, ho⟩
        rw [hput] at ho
        split at ho
        · have := congrArg Header.color ho
          cases this
        · refine ⟨j, length, rfl, Nat.lt_of_not_le fun hle => ?_, hpos, ho⟩
          exact hgap (by omega) hj ho

/-- The walk frees a dead run. -/
theorem free (hs : g.Swept h i) (hp : g.Partitioned) (hrun : g.DeadRun i length)
    (ha : h.Absorbed h' i length) : g.Swept (h'.released i length) (i + length + 1) := by
  obtain ⟨header, hb⟩ := hrun.start
  have hhere : h.BlockAt i header := (hs.blockAt_iff (Nat.le_refl i)).2 hb
  have hother : ∀ {j}, j < i ∨ i + length < j →
      (h'.released i length).words[j]? = h.words[j]? := by
    intro j hj
    rw [getElem?_released ha.lt_capacity, if_neg (by omega), if_neg (by omega)]
    exact ha.outside (by omega)
  refine
    { allocations := registers_released.1.trans (ha.allocations.trans hs.allocations)
      collections := registers_released.2.trans (ha.collections.trans hs.collections)
      capacity := (capacity_released ..).trans (ha.capacity.trans hs.capacity)
      boundary := ?_
      ahead := fun hj => (hother (by omega)).trans (hs.ahead (by omega))
      partitioned := ha.partitioned_released hs.partitioned hhere
      kept := fun {j other} hj ho hblack => ?_
      origin := fun {j other} hj ho => ?_
      data := fun {j w} hw hno => ?_
      freeList := ?_ }
  · rcases ha.boundary with hend | ⟨next, hn⟩
    · exact .inl (hend.trans hs.capacity)
    · exact .inr ⟨next, (hs.blockAt_iff (by omega)).1 hn⟩
  · rcases Nat.lt_or_ge j i with hlt | hge
    · have hend := hp.apart ho hb hlt
      obtain ⟨hnew, hwords⟩ := hs.kept hlt ho hblack
      refine ⟨(hother (.inl hlt)).trans hnew, ?_⟩
      intro k hk hle
      exact (hother (by omega)).trans (hwords k hk hle)
    · have := hrun.dead hge (by omega) ho
      rw [hblack] at this
      cases this
  · rcases ha.blockAt_released.1 ho with ⟨rfl, rfl⟩ | ⟨hout, hold⟩
    · exact .inr ⟨rfl, hrun⟩
    · exact hs.origin (by omega) hold
  · rw [getElem?_released ha.lt_capacity] at hw
    split at hw
    · cases hw
      cases hno
    · split at hw
      · next hlink =>
        cases hw
        have hle : h'.freeList.index ≤ i := ha.freeList ▸ hs.freeList_le
        exact .inr (.inr ⟨_, rfl, by omega⟩)
      · rcases ha.words j with hsame | hzero
        · exact hs.data (hsame.symm.trans hw) hno
        · cases hzero.symm.trans hw
          exact .inr (.inl rfl)
  · obtain ⟨entries, hlinks, hsorted, hmem⟩ := hs.freeList
    have hbefore : ∀ r ∈ entries, r.index < i := fun r hr => by
      obtain ⟨j, l, rfl, hj, hpos, ho⟩ := (hmem r).1 hr
      have : j + l < i := hs.partitioned.apart ho hhere hj
      change j + 1 < i
      omega
    have hframe : (h'.released i length).Links h.freeList entries .null :=
      hlinks.frame fun r hr => hother (.inl (hbefore r hr))
    have hcarry : ∀ {j l}, 0 < l → j ≠ i → (j < i ∧ h.BlockAt j (.unused l) ↔
        j < i + length + 1 ∧ (h'.released i length).BlockAt j (.unused l)) := by
      intro j l hpos hne
      rw [ha.blockAt_released]
      constructor
      · rintro ⟨hj, ho⟩
        exact ⟨by omega, .inr ⟨.inl hj, ho⟩⟩
      · rintro ⟨hj, ⟨heq, -⟩ | ⟨hout, ho⟩⟩
        · exact absurd heq hne
        · exact ⟨by omega, ho⟩
    have hstart : ∀ {l}, (h'.released i length).BlockAt i (.unused l) ↔ l = length := by
      intro l
      rw [ha.blockAt_released]
      constructor
      · rintro (⟨-, heq⟩ | ⟨hout, -⟩)
        · exact congrArg Header.length heq
        · omega
      · rintro rfl
        exact .inl ⟨rfl, rfl⟩
    by_cases hpos : 0 < length
    · refine ⟨.ofHeader i :: entries, ⟨?_, rfl, h.freeList, ?_, hframe⟩, ?_, ?_⟩
      · simp [released, hpos]
      · change (h'.released i length).words[i + 1]? = _
        rw [getElem?_released ha.lt_capacity, if_neg (by omega), if_pos ⟨rfl, hpos⟩, ha.freeList]
      · refine List.pairwise_cons.2 ⟨fun r hr => ?_, hsorted⟩
        have := hbefore r hr
        change r.index < i + 1
        omega
      · intro r
        rw [List.mem_cons, hmem]
        constructor
        · rintro (rfl | ⟨j, l, rfl, hj, hl, ho⟩)
          · exact ⟨i, length, rfl, by omega, hpos, hstart.2 rfl⟩
          · obtain ⟨hj', ho'⟩ := (hcarry hl (by omega)).1 ⟨hj, ho⟩
            exact ⟨j, l, rfl, hj', hl, ho'⟩
        · rintro ⟨j, l, rfl, hj, hl, ho⟩
          by_cases hne : j = i
          · exact .inl (hne ▸ rfl)
          · obtain ⟨hj', ho'⟩ := (hcarry hl hne).2 ⟨hj, ho⟩
            exact .inr ⟨j, l, rfl, hj', hl, ho'⟩
    · refine ⟨entries, ?_, hsorted, ?_⟩
      · rwa [show (h'.released i length).freeList = h.freeList by simp [released, hpos, ha.freeList]]
      · intro r
        rw [hmem]
        constructor
        · rintro ⟨j, l, rfl, hj, hl, ho⟩
          obtain ⟨hj', ho'⟩ := (hcarry hl (by omega)).1 ⟨hj, ho⟩
          exact ⟨j, l, rfl, hj', hl, ho'⟩
        · rintro ⟨j, l, rfl, hj, hl, ho⟩
          have hne : j ≠ i := by
            rintro rfl
            have := hstart.1 ho
            omega
          obtain ⟨hj', ho'⟩ := (hcarry hl hne).2 ⟨hj, ho⟩
          exact ⟨j, l, rfl, hj', hl, ho'⟩

/-- A run that was absorbed ahead of the walk is a dead run of the heap as it was. -/
theorem deadRun (hs : g.Swept h i) (ha : h.Absorbed h' i length) (hb : g.BlockAt i header)
    (hmax : i + length + 1 = h.capacity ∨
      ∃ next, h.BlockAt (i + length + 1) next ∧ next.color.isUnmarked = false) :
    g.DeadRun i length where
  start := ⟨header, hb⟩
  dead := fun hge hle ho => ha.dead hge hle ((hs.blockAt_iff hge).2 ho)
  maximal := by
    rcases hmax with hend | ⟨next, hn, hm⟩
    · exact .inl (hend.trans hs.capacity)
    · exact .inr ⟨next, (hs.blockAt_iff (by omega)).1 hn, hm⟩

end Swept

theorem Swept.absorb_released (hs : g.Swept h i) (hp : g.Partitioned) (hb : g.BlockAt i header)
    (hu : header.color.isUnmarked = true) :
    Outcome (fun length h' => ∃ h'', release i length h' = .ok () h'' ∧
        g.Swept h'' (i + length + 1)) (fun _ _ => False) (h.absorb i header.length) := by
  have hhere : h.BlockAt i header := (hs.blockAt_iff (Nat.le_refl i)).2 hb
  refine (absorb_spec hs.partitioned (absorbed_start hs.partitioned hhere hu)).mono
    (fun length h' ⟨ha, hmax⟩ => ?_) fun _ _ => id
  exact ⟨_, release_eq_ok ha.lt_capacity, hs.free hp (hs.deadRun ha hb hmax) ha⟩

/-- The walk only ends early at a grey block, and what is behind it is swept by then. -/
theorem sweepFrom_spec (hp : g.Partitioned) (hs : g.Swept h i) :
    Outcome (fun _ h' => g.Swept h' g.capacity)
      (fun failure h' => ∃ j header, failure = .fault (.greyAtSweep j) ∧
        g.BlockAt j header ∧ header.color = .grey ∧ g.Swept h' j) (h.sweepFrom i) := by
  have here : ∀ {h : Heap} {i header}, g.Swept h i → h.headerAt i = .ok header →
      g.BlockAt i header := fun hs hh =>
    (hs.blockAt_iff (Nat.le_refl _)).1 (headerAt_eq_ok.1 hh)
  -- A dead run is absorbed and released without failing.
  have freed : ∀ {h h' : Heap} {i header length}, g.Swept h i → h.headerAt i = .ok header →
      header.color = .white ∨ header.color = .blue → h.absorb i header.length = .ok length h' →
      ∃ h'', release i length h' = .ok () h'' ∧ g.Swept h'' (i + length + 1) := by
    intro h h' i header length hs hh hc ha
    refine (hs.absorb_released hp (here hs hh) ?_).of_ok ha
    rcases hc with hc | hc <;> rw [hc] <;> rfl
  have absorbs : ∀ {h h' : Heap} {i header failure}, g.Swept h i → h.headerAt i = .ok header →
      header.color = .white ∨ header.color = .blue →
      h.absorb i header.length ≠ .error failure h' := by
    intro h h' i header failure hs hh hc ha
    refine (hs.absorb_released hp (here hs hh) ?_).of_error ha
    rcases hc with hc | hc <;> rw [hc] <;> rfl
  fun_induction sweepFrom h i with
  | case1 h i hlt fault hh =>
    rcases hs.boundary with hend | ⟨header, hb⟩
    · have := hs.capacity
      omega
    · rw [headerAt_eq_ok.2 ((hs.blockAt_iff (Nat.le_refl i)).2 hb)] at hh
      cases hh
  | case2 h i hlt header hh hle hblack ih => exact ih (hs.pass hp (here hs hh) hblack)
  | case3 h i hlt header hh hle hgrey => exact ⟨i, header, rfl, here hs hh, hgrey, hs⟩
  | case4 h i hlt header hh hle hwhite failure h' ha => exact absurd ha (absorbs hs hh (.inl hwhite))
  | case5 h i hlt header hh hle hwhite length h' ha failure h'' hr =>
    obtain ⟨_, hok, -⟩ := freed hs hh (.inl hwhite) ha
    cases hok.symm.trans hr
  | case6 h i hlt header hh hle hwhite length h' ha h'' hr ih =>
    obtain ⟨_, hok, hs'⟩ := freed hs hh (.inl hwhite) ha
    cases hok.symm.trans hr
    exact ih hs'
  | case7 h i hlt header hh hle hblue failure h' ha => exact absurd ha (absorbs hs hh (.inr hblue))
  | case8 h i hlt header hh hle hblue length h' ha failure h'' hr =>
    obtain ⟨_, hok, -⟩ := freed hs hh (.inr hblue) ha
    cases hok.symm.trans hr
  | case9 h i hlt header hh hle hblue length h' ha h'' hr ih =>
    obtain ⟨_, hok, hs'⟩ := freed hs hh (.inr hblue) ha
    cases hok.symm.trans hr
    exact ih hs'
  | case10 h i hlt header hh hle => exact hle (hs.capacity ▸ hp.end_le (here hs hh)) |>.elim
  | case11 h i hge =>
    have := hs.boundary.le
    have := hs.capacity
    rwa [show i = g.capacity by omega] at hs

/-- The walk starts with an empty free list. -/
theorem swept_start (hp : g.Partitioned) : g.Swept { g with freeList := .null } 0 where
  allocations := rfl
  collections := rfl
  capacity := rfl
  boundary := hp.start
  ahead := fun _ => rfl
  partitioned := hp.congr rfl (fun hb => ⟨_, hb, rfl⟩) fun hb => ⟨_, hb, rfl⟩
  kept := fun hj => absurd hj (Nat.not_lt_zero _)
  origin := fun hj => absurd hj (Nat.not_lt_zero _)
  data := fun hw _ => .inl hw
  freeList := ⟨[], rfl, .nil, fun r => by simp⟩

theorem sweep_spec (hp : g.Partitioned) :
    Outcome (fun _ h' => g.Swept h' g.capacity)
      (fun failure h' => ∃ j header, failure = .fault (.greyAtSweep j) ∧
        g.BlockAt j header ∧ header.color = .grey ∧ g.Swept h' j) (sweep g) :=
  sweepFrom_spec hp (swept_start hp)

end ConsMachine.Heap
