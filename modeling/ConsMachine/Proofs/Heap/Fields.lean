import ConsMachine.Proofs.Heap.Collection

/-!
# New heaps and fields

A new heap is sound. The fields of a block in use can be read, and they can be replaced by valid
words: the heap stays sound and no other word changes.

## Main definitions

* `Heap.Replaced` — a heap in which one data word of a block in use is replaced.
-/

namespace ConsMachine.Heap

variable {h h' : Heap} {r s : Ref} {offset i capacity : Nat} {header other : Header}
  {w value : Word}

/-! ## New heaps -/

theorem new_eq_ok (hc : minimumCapacity ≤ capacity) : ∃ h, Heap.new capacity = .ok h ∧
    h.capacity = capacity ∧ h.freeList = .ofHeader 0 ∧ h.words[1]? = some .null ∧
    ∀ {i header}, h.BlockAt i header ↔ i = 0 ∧ header = .unused (capacity - 1) := by
  simp only [minimumCapacity] at hc
  have hnot : ¬ capacity < minimumCapacity := by unfold minimumCapacity; omega
  refine ⟨_, by rw [Heap.new, if_neg hnot], ?_, rfl, ?_, fun {i header} => ?_⟩
  · simp [Heap.capacity]
  · simp only [Array.getElem?_setIfInBounds, Array.size_setIfInBounds, Array.size_replicate]
    grind
  · simp only [BlockAt, Array.getElem?_setIfInBounds, Array.size_setIfInBounds,
      Array.size_replicate, Array.getElem?_replicate]
    have hnull : Word.null ≠ .header header := by simp [Word.null]
    have hzero : Word.zero ≠ .header header := by simp [Word.zero]
    grind

theorem new_sound (hc : minimumCapacity ≤ capacity) :
    ∃ h, Heap.new capacity = .ok h ∧ h.Sound ∧ h.capacity = capacity ∧
      ∀ {i header}, h.BlockAt i header → i = 0 ∧ header.tag = .free := by
  obtain ⟨h, hnew, hcap, hlist, hlink, hblock⟩ := new_eq_ok hc
  simp only [minimumCapacity] at hc
  have start : h.BlockAt 0 (.unused (capacity - 1)) := hblock.2 ⟨rfl, rfl⟩
  refine ⟨h, hnew, ⟨⟨⟨.inr ⟨_, start⟩, ?_, ?_⟩, ?_, ?_⟩, ?_⟩, hcap, ?_⟩
  · intro i header hb
    obtain ⟨rfl, rfl⟩ := hblock.1 hb
    refine .inl ?_
    change 0 + (capacity - 1) + 1 = h.capacity
    omega
  · intro i header j other hb hlt _ ho
    have := (hblock.1 ho).1
    omega
  · intro i header hb
    exact .inr (by rw [(hblock.1 hb).2]; exact ⟨rfl, rfl⟩)
  · refine ⟨[.ofHeader 0], ⟨⟨hlist, rfl, _, hlink, rfl⟩, List.nodup_singleton _, ?_⟩, ?_⟩
    · intro r hr
      obtain rfl := List.mem_singleton.1 hr
      refine ⟨_, start, rfl, ?_⟩
      change 0 < capacity - 1
      omega
    · intro i header hb _ _
      rw [(hblock.1 hb).1]
      exact List.mem_singleton_self _
  · intro i header k w hb ht
    rw [(hblock.1 hb).2] at ht
    cases ht
  · intro i header hb
    obtain ⟨rfl, rfl⟩ := hblock.1 hb
    exact ⟨rfl, rfl⟩

/-! ## Reading -/

/-- A block in use has all its data words. -/
theorem Sound.exists_word (hs : h.Sound) (hh : h.headerOf r = .ok header)
    (hc : header.color = .white) (ho : offset < header.length) :
    ∃ w, h.words[r.index + offset]? = some w ∧ h.Valid w := by
  obtain ⟨hn, -, hb⟩ := headerOf_eq_ok.1 hh
  have hidx := Ref.index_eq hn
  have hend := hs.orderly.partitioned.end_le hb
  obtain ⟨w, hw⟩ : ∃ w, h.words[r.index + offset]? = some w :=
    ⟨_, Array.getElem?_eq_some_iff.2 ⟨by change _ < h.capacity; omega, rfl⟩⟩
  exact ⟨w, hw, hs.data hb ((hs.orderly.cons_iff hb).2 hc) (by omega) (by omega) hw⟩

theorem field_spec (hh : h.headerOf r = .ok header) (ho : offset < header.length)
    (hw : h.words[r.index + offset]? = some w) :
    Outcome (fun v h' => v = w ∧ h' = h) (fun _ _ => False) (field r offset h) := by
  simp only [field, hh, ho, if_true, hw, Outcome.ok_iff, and_self]

/-! ## Writing -/

/-- `h'` is `h` with a data word of the block that `r` leads to replaced. -/
structure Replaced (h : Heap) (r : Ref) (offset : Nat) (value : Word) (h' : Heap) : Prop where
  allocations : h'.allocations = h.allocations
  collections : h'.collections = h.collections
  capacity : h'.capacity = h.capacity
  freeList : h'.freeList = h.freeList
  word : h'.words[r.index + offset]? = some value
  other : ∀ {j}, j ≠ r.index + offset → h'.words[j]? = h.words[j]?

theorem setField_spec (value : Word) (hp : h.Partitioned) (hh : h.headerOf r = .ok header)
    (ho : offset < header.length) :
    Outcome (fun _ h' => h.Replaced r offset value h') (fun _ _ => False)
      (setField r offset value h) := by
  obtain ⟨hn, -, hb⟩ := headerOf_eq_ok.1 hh
  have hidx := Ref.index_eq hn
  have hend := hp.end_le hb
  have hlt : r.index + offset < h.capacity := by omega
  simp only [setField, hh, ho, if_true, write, hlt, Outcome.ok_iff]
  refine ⟨rfl, rfl, capacity_put .., rfl, ?_, ?_⟩
  · rw [getElem?_put, if_pos ⟨rfl, hlt⟩]
  · intro j hj
    rw [getElem?_put, if_neg fun hh => hj hh.1]

namespace Replaced

/-- No header is replaced. -/
theorem blockAt_iff (hr : h.Replaced r offset value h') (hp : h.Partitioned)
    (hh : h.headerOf r = .ok header) (ho : offset < header.length) (hv : value.header? = none) :
    h'.BlockAt i other ↔ h.BlockAt i other := by
  obtain ⟨hn, -, hb⟩ := headerOf_eq_ok.1 hh
  have hidx := Ref.index_eq hn
  by_cases hi : i = r.index + offset
  · subst hi
    have hold : ¬ h.BlockAt (r.index + offset) other := hp.inside hb (by omega) (by omega)
    have hnew : ¬ h'.BlockAt (r.index + offset) other := fun hnew => by
      have := hr.word.symm.trans hnew
      cases this
      cases hv
    simp [hold, hnew]
  · simp only [BlockAt]
    rw [hr.other hi]

theorem leadsToWhite_iff (hr : h.Replaced r offset value h') (hp : h.Partitioned)
    (hh : h.headerOf r = .ok header) (ho : offset < header.length) (hv : value.header? = none) :
    h'.LeadsToWhite s ↔ h.LeadsToWhite s := by
  simp only [LeadsToWhite, headerOf_eq_ok, hr.blockAt_iff hp hh ho hv, hr.capacity]

theorem orderly (hr : h.Replaced r offset value h') (hs : h.Orderly)
    (hh : h.headerOf r = .ok header) (hc : header.color = .white) (ho : offset < header.length)
    (hv : value.header? = none) : h'.Orderly := by
  have hp := hs.partitioned
  have hblock : ∀ {i header}, h'.BlockAt i header ↔ h.BlockAt i header :=
    hr.blockAt_iff hp hh ho hv
  obtain ⟨hn, -, hb⟩ := headerOf_eq_ok.1 hh
  have hidx := Ref.index_eq hn
  refine ⟨hp.congr hr.capacity (fun hb => ⟨_, hblock.2 hb, rfl⟩) fun hb => ⟨_, hblock.1 hb, rfl⟩,
    fun hb => hs.states (hblock.1 hb), ?_⟩
  obtain ⟨entries, ht, hall⟩ := hs.threaded
  refine ⟨entries, ⟨?_, ht.nodup, ?_⟩, fun hb => hall (hblock.1 hb)⟩
  · rw [hr.freeList]
    refine ht.links.frame fun s hs' => hr.other ?_
    intro heq
    -- The link of an entry is in a block that is not in use.
    obtain ⟨free, hfree, hisFree, hpos⟩ := ht.free s hs'
    have hsidx := Ref.index_eq (ht.ne_null hs')
    have hne : s.headerIndex ≠ r.headerIndex := fun heq' => by
      rw [heq'] at hfree
      have htag := (hs.cons_iff hb).2 hc
      rw [hfree.unique hb] at hisFree
      simp [Header.isFree, htag] at hisFree
    have := hp.disjoint hfree hb hne
    omega
  · intro r hr
    obtain ⟨free, hfree, hrest⟩ := ht.free r hr
    exact ⟨free, hblock.2 hfree, hrest⟩

theorem sound (hr : h.Replaced r offset value h') (hs : h.Sound)
    (hh : h.headerOf r = .ok header) (hc : header.color = .white) (ho : offset < header.length)
    (hv : h.Valid value) : h'.Sound := by
  have hp := hs.orderly.partitioned
  have valid : ∀ {w}, h.Valid w → h'.Valid w := fun hw =>
    hw.mono fun _ => (hr.leadsToWhite_iff hp hh ho hv.noHeader).2
  refine ⟨hr.orderly hs.orderly hh hc ho hv.noHeader, fun {i other k w} hb ht hlt hle hw => ?_⟩
  by_cases hk : k = r.index + offset
  · subst hk
    rw [hr.word] at hw
    cases hw
    exact valid hv
  · rw [hr.other hk] at hw
    exact valid (hs.data ((hr.blockAt_iff hp hh ho hv.noHeader).1 hb) ht hlt hle hw)

end Replaced

end ConsMachine.Heap
