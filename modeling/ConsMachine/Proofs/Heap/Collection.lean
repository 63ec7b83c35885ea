import ConsMachine.Proofs.Heap.Tidiness

/-!
# Collections

In a sound heap every reference that the data words hold leads to a block in use. A collection of a
sound heap succeeds, and what the roots reach is what is left of it, in place and unchanged.

## Main definitions

* `Heap.Valid` — a word that may be stored: an integer, null or a reference to a block in use.
* `Heap.Sound` — an orderly heap of valid data words.
* `Heap.Collected` — the heap after a collection.
-/

namespace ConsMachine.Heap

/-- A word that the program may hold. -/
structure Valid (h : Heap) (w : Word) : Prop where
  noHeader : w.header? = none
  target : ∀ r, w.target? = some r → h.LeadsToWhite r

/-- The heap is orderly and its blocks in use hold valid words. -/
structure Sound (h : Heap) : Prop where
  orderly : h.Orderly
  data : ∀ {i header k w}, h.BlockAt i header → header.tag = .cons → i < k →
    k ≤ i + header.length → h.words[k]? = some w → h.Valid w

/-- `h'` is `h` with the blocks reclaimed that the roots do not reach. -/
structure Collected (h : Heap) (roots : List Word) (h' : Heap) : Prop where
  allocations : h'.allocations = h.allocations
  collections : h'.collections = h.collections + 1
  capacity : h'.capacity = h.capacity
  orderly : h'.Orderly
  start : ∀ {i header}, h'.BlockAt i header → ∃ old, h.BlockAt i old
  kept : ∀ {i header}, h.BlockAt i header → h.Reaches roots (.ofHeader i) →
    h'.BlockAt i header ∧ ∀ k, i < k → k ≤ i + header.length → h'.words[k]? = h.words[k]?
  survivor : ∀ {i header}, h'.BlockAt i header → header.tag = .cons →
    h.BlockAt i header ∧ h.Reaches roots (.ofHeader i)

variable {h h' : Heap} {roots : List Word} {i : Nat} {header : Header} {r : Ref} {w : Word}

/-! ## Valid words -/

theorem valid_int (value : Int64) : h.Valid (.int value) := ⟨rfl, fun r hr => by cases hr⟩

theorem valid_null : h.Valid .null := ⟨rfl, fun r hr => by cases hr⟩

theorem valid_ref (hr : h.LeadsToWhite r) : h.Valid (.ref r) := by
  refine ⟨rfl, ?_⟩
  intro s hs
  obtain ⟨heq, -⟩ := Word.target?_eq_some.1 hs
  cases heq
  exact hr

/-- A word stays valid while the block that it leads to stays in use. -/
theorem Valid.mono (hv : h.Valid w) (hw : ∀ r, h.LeadsToWhite r → h'.LeadsToWhite r) :
    h'.Valid w :=
  ⟨hv.noHeader, fun r hr => hw r (hv.target r hr)⟩

namespace Orderly

theorem settled (ho : h.Orderly) : h.Settled := fun hb => by
  rcases ho.states hb with ⟨hcons, hwhite, -⟩ | hfree
  · exact .inl ⟨hcons, hwhite⟩
  · exact .inr hfree

/-- The white blocks are the ones in use. -/
theorem cons_iff (ho : h.Orderly) (hb : h.BlockAt i header) :
    header.tag = .cons ↔ header.color = .white := by
  rcases ho.states hb with ⟨ht, hc, -⟩ | ⟨ht, hc⟩ <;> simp [ht, hc]

theorem length_pos (ho : h.Orderly) (hb : h.BlockAt i header) (ht : header.tag = .cons) :
    0 < header.length := by
  rcases ho.states hb with ⟨-, -, hpos⟩ | ⟨hfree, -⟩
  · exact hpos
  · rw [ht] at hfree
    cases hfree

theorem leadsToWhite_iff (ho : h.Orderly) : h.LeadsToWhite r ↔
    r.isNull = false ∧ ∃ header, h.BlockAt r.headerIndex header ∧ header.tag = .cons := by
  constructor
  · rintro ⟨header, hh, hc⟩
    obtain ⟨hn, -, hb⟩ := headerOf_eq_ok.1 hh
    exact ⟨hn, header, hb, (ho.cons_iff hb).2 hc⟩
  · rintro ⟨hn, header, hb, ht⟩
    have hpos := ho.length_pos hb ht
    have hend := ho.partitioned.end_le hb
    have hidx := Ref.index_eq hn
    exact ⟨header, headerOf_eq_ok.2 ⟨hn, by omega, hb⟩, (ho.cons_iff hb).1 ht⟩

end Orderly

/-! ## What the roots reach -/

theorem Reaches.ne_null (hr : h.Reaches roots r) : r.isNull = false := by
  cases hr with
  | root _ ht => exact (Word.target?_eq_some.1 ht).2
  | child _ _ _ _ _ ht => exact (Word.target?_eq_some.1 ht).2

/-- From valid roots, only blocks in use are reached. -/
theorem Sound.leadsToWhite (hs : h.Sound) (hroots : ∀ w ∈ roots, h.Valid w)
    (hr : h.Reaches roots r) : h.LeadsToWhite r := by
  induction hr with
  | root hw ht => exact (hroots _ hw).target _ ht
  | @child r s header offset w hr hh hc ho hw ht ih =>
    obtain ⟨hn, -, hb⟩ := headerOf_eq_ok.1 hh
    have hidx := Ref.index_eq hn
    exact (hs.data hb ((hs.orderly.cons_iff hb).2 hc) (by omega) (by omega) hw).target _ ht

/-! ## What a collection leaves -/

/-- The free list of a tidy heap holds every free block that has data words, once. -/
theorem Tidy.threaded (ht : h.Tidy) : ∃ entries, h.Threaded entries ∧ ∀ {i header},
    h.BlockAt i header → header.tag = .free → 0 < header.length → .ofHeader i ∈ entries := by
  obtain ⟨entries, hlinks, hsorted, hmem⟩ := ht.freeList
  refine ⟨entries, ⟨hlinks, ?_, fun r hr => ?_⟩, fun {i header} hb hfree hpos => ?_⟩
  · apply hsorted.imp
    intro r s hlt heq
    rw [heq] at hlt
    omega
  · obtain ⟨j, length, rfl, hpos, hb⟩ := (hmem r).1 hr
    exact ⟨_, hb, rfl, hpos⟩
  · exact (hmem _).2 ⟨i, _, rfl, hpos, Settled.eq_unused ht.settled hb hfree ▸ hb⟩

theorem Reclaimed.collected (hc : h.Reclaimed roots h') (ho : h.Orderly)
    (hw : ∀ r, h.Reaches roots r → h.LeadsToWhite r) : h.Collected roots h' where
  allocations := hc.allocations
  collections := hc.collections
  capacity := hc.capacity
  orderly := by
    refine ⟨hc.tidy.partitioned, fun {i header} hb => ?_, hc.tidy.threaded⟩
    rcases hc.tidy.settled hb with ⟨hcons, -⟩ | hfree
    · exact ho.states ((hc.blockAt_iff hcons).1 hb).1
    · exact .inr hfree
  start := hc.start
  kept := by
    intro i header hb hr
    have hcons := (Settled.tag_of_leadsToWhite ho.settled hb (hw _ hr)).1
    exact ⟨(hc.blockAt_iff hcons).2 ⟨hb, hr⟩, hc.data hb hr⟩
  survivor := fun hb ht => (hc.blockAt_iff ht).1 hb

theorem collect_spec (hs : h.Sound) (hroots : ∀ w ∈ roots, h.Valid w) :
    Outcome (fun _ h' => h.Collected roots h') (fun _ _ => False) (collect roots h) := by
  have ho := hs.orderly
  have hw : ∀ r, h.Reaches roots r → h.LeadsToWhite r := fun _ => hs.leadsToWhite hroots
  refine (collect_reclaimed ho.partitioned ho.settled fun w hw => (hroots w hw).noHeader).mono
    (fun _ h' hc => hc.1.collected ho hw) fun failure h' hf => ?_
  obtain ⟨r, -, hr, hno⟩ := hf.cause
  exact hno (hw r hr)

/-! ## After a collection -/

namespace Collected

theorem leadsToWhite (hc : h.Collected roots h') (ho : h.Orderly) (hr : h.Reaches roots r)
    (hw : h.LeadsToWhite r) : h'.LeadsToWhite r := by
  obtain ⟨hn, header, hb, ht⟩ := ho.leadsToWhite_iff.1 hw
  refine hc.orderly.leadsToWhite_iff.2 ⟨hn, header, (hc.kept hb ?_).1, ht⟩
  rwa [Ref.ofHeader_headerIndex hn]

theorem valid_roots (hc : h.Collected roots h') (hs : h.Sound) (hroots : ∀ w ∈ roots, h.Valid w)
    (hw : w ∈ roots) : h'.Valid w :=
  ⟨(hroots w hw).noHeader, fun r hr =>
    hc.leadsToWhite hs.orderly (.root hw hr) ((hroots w hw).target r hr)⟩

theorem sound (hc : h.Collected roots h') (hs : h.Sound) (hroots : ∀ w ∈ roots, h.Valid w) :
    h'.Sound := by
  refine ⟨hc.orderly, fun {i header k w} hb ht hlt hle hw => ?_⟩
  obtain ⟨hold, hr⟩ := hc.survivor hb ht
  rw [(hc.kept hold hr).2 k hlt hle] at hw
  have hv := hs.data hold ht hlt hle hw
  refine ⟨hv.noHeader, fun s hs' => hc.leadsToWhite hs.orderly ?_ (hv.target s hs')⟩
  obtain ⟨white, hh, hcolor⟩ := hs.leadsToWhite hroots hr
  obtain rfl := (headerOf_eq_ok.1 hh).2.2.unique hold
  obtain ⟨offset, rfl⟩ := Nat.exists_eq_add_of_lt hlt
  have hoffset : offset < white.length := by omega
  refine .child hr hh hcolor hoffset ?_ hs'
  rwa [show (Ref.ofHeader i).index + offset = i + offset + 1 by simp [Ref.ofHeader]; omega]

/-- The roots reach the same blocks as before. -/
theorem reaches_iff (hc : h.Collected roots h') (hs : h.Sound)
    (hroots : ∀ w ∈ roots, h.Valid w) : h'.Reaches roots r ↔ h.Reaches roots r := by
  refine reaches_iff_of_kept (hs.leadsToWhite hroots) fun {r header} hr hh => ?_
  obtain ⟨hn, hlt, hb⟩ := headerOf_eq_ok.1 hh
  have hidx := Ref.index_eq hn
  obtain ⟨hkept, hwords⟩ := hc.kept hb (by rwa [Ref.ofHeader_headerIndex hn])
  exact ⟨headerOf_eq_ok.2 ⟨hn, hc.capacity ▸ hlt, hkept⟩,
    fun offset ho => hwords _ (by omega) (by omega)⟩

end Collected

end ConsMachine.Heap
