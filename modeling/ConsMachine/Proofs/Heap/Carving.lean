import ConsMachine.Proofs.Heap.FirstFit

/-!
# Cutting a block

Cutting a block from an entry of the free list changes the words of the entry and one link. What is
left of the entry takes its place on the list, if it can hold a link.

## Main definitions

* `Heap.Mended` — the heap once the free list leads around the block.
* `Heap.Cuttable` — what has to hold of the entry, whatever the rest of the free list is like.
* `Heap.Carved` — the heap once the block has been cut, word by word.
-/

namespace ConsMachine

namespace Fit

/-- The index just past a block of `length` data words that is cut from the entry. -/
def after (fit : Fit) (length : Nat) : Nat := fit.block.headerIndex + length + 1

/-- The number of words of the entry that are left over. -/
def rest (fit : Fit) (length : Nat) : Nat := fit.available - length

/-- What takes the place of the entry on the list. -/
def remainder (fit : Fit) (length : Nat) : List Ref :=
  if 1 < fit.rest length then [.ofHeader (fit.after length)] else []

/-- Where the list goes on in place of the entry. -/
def successor (fit : Fit) (length : Nat) : Ref :=
  if 1 < fit.rest length then .ofHeader (fit.after length) else fit.next

end Fit

namespace Heap

/-- The free list of `h` has been mended around a block of `length` data words that is to be cut
from the entry `fit`. -/
structure Mended (length : Nat) (fit : Fit) (h h' : Heap) : Prop where
  allocations : h'.allocations = h.allocations
  collections : h'.collections = h.collections
  capacity : h'.capacity = h.capacity
  freeList : h'.freeList = if fit.previous = none then fit.successor length else h.freeList
  words : ∀ j, h'.words[j]? =
    if fit.previous.map Ref.index = some j then some (.ref (fit.successor length))
    else if j = fit.after length ∧ 0 < fit.rest length then
      some (.header (.unused (fit.rest length - 1)))
    else if j = fit.after length + 1 ∧ 1 < fit.rest length then some (.ref fit.next)
    else h.words[j]?

/-- A block of `length` data words can be cut from `fit`: the entry is a block that is long enough,
and the link that leads to it is in another block, unless it is the register. -/
structure Cuttable (h : Heap) (length : Nat) (fit : Fit) : Prop where
  block_ne_null : fit.block.isNull = false
  block : ∃ header, h.BlockAt fit.block.headerIndex header ∧ header.length = fit.available
  fits : length ≤ fit.available
  previous_apart : ∀ {r}, fit.previous = some r → r.index < h.capacity ∧
      (∃ header, h.BlockAt r.headerIndex header ∧ r.headerIndex < r.index ∧
        r.index ≤ r.headerIndex + header.length) ∧
      (r.index < fit.block.headerIndex ∨ fit.block.headerIndex + fit.available < r.index)

/-- `h'` is `h` with a block of `length` data words cut from the entry `fit`. -/
structure Carved (tag : Tag) (length : Nat) (fit : Fit) (h h' : Heap) : Prop where
  allocations : h'.allocations = h.allocations
  collections : h'.collections = h.collections
  capacity : h'.capacity = h.capacity
  freeList : h'.freeList = if fit.previous = none then fit.successor length else h.freeList
  header : h'.BlockAt fit.block.headerIndex ⟨tag, length, .white⟩
  data : ∀ {j}, fit.block.index ≤ j → j < fit.after length → h'.words[j]? = some .zero
  remainder : 0 < fit.rest length →
    h'.BlockAt (fit.after length) (.unused (fit.rest length - 1))
  link : 1 < fit.rest length → h'.words[fit.after length + 1]? = some (.ref fit.next)
  inside : ∀ {j}, fit.after length + 1 < j → j ≤ fit.block.headerIndex + fit.available →
    h'.words[j]? = h.words[j]?
  outside : ∀ {j}, j < fit.block.headerIndex ∨ fit.block.headerIndex + fit.available < j →
    h'.words[j]? = if fit.previous.map Ref.index = some j then some (.ref (fit.successor length))
      else h.words[j]?

variable {h h' : Heap} {tag : Tag} {i length : Nat} {fit : Fit} {front back entries : List Ref}
  {header : Header} {r : Ref}

theorem FirstFit.cuttable (hf : h.FirstFit length fit front back) (hp : h.Partitioned) :
    h.Cuttable length fit where
  block_ne_null := hf.block_ne_null
  block := by
    obtain ⟨header, hb, -, hav⟩ := hf.block
    exact ⟨header, hb, hav⟩
  fits := hf.fits
  previous_apart := hf.previous_apart hp

/-! ## Writing -/

theorem write_spec {index : Nat} {word : Word} (hlt : index < h.capacity) :
    Outcome (fun _ h' => h' = h.put index word) (fun _ _ => False) (write index word h) := by
  rw [write, if_pos hlt]
  rfl

theorem clear_spec {index count : Nat} (hle : index + count ≤ h.capacity) :
    Outcome (fun _ h' => h'.allocations = h.allocations ∧ h'.collections = h.collections ∧
        h'.capacity = h.capacity ∧ h'.freeList = h.freeList ∧ ∀ j, h'.words[j]? =
          if index ≤ j ∧ j < index + count then some .zero else h.words[j]?)
      (fun _ _ => False) (clear index count h) := by
  induction count generalizing h index with
  | zero =>
    refine ⟨rfl, rfl, rfl, rfl, ?_⟩
    intro j
    rw [if_neg (by omega)]
  | succ count ih =>
    refine (write_spec (by omega)).bind ?_
    intro _ h₁ h₁_eq
    subst h₁_eq
    refine (ih (by rw [capacity_put]; omega)).mono (fun _ h' ⟨ha, hc, hcap, hf, hw⟩ => ?_)
      fun _ _ => id
    refine ⟨ha, hc, hcap.trans (capacity_put ..), hf, ?_⟩
    intro j
    rw [hw, getElem?_put]
    grind

theorem relink_spec {previous : Option Ref} {next : Ref}
    (hlt : ∀ r, previous = some r → r.index < h.capacity) :
    Outcome (fun _ h' => h'.allocations = h.allocations ∧ h'.collections = h.collections ∧
        h'.capacity = h.capacity ∧
        h'.freeList = (if previous = none then next else h.freeList) ∧ ∀ j, h'.words[j]? =
          if previous.map Ref.index = some j then some (.ref next) else h.words[j]?)
      (fun _ _ => False) (relink previous next h) := by
  cases previous with
  | none => exact ⟨rfl, rfl, rfl, rfl, fun j => rfl⟩
  | some r =>
    refine (write_spec (hlt r rfl)).mono (fun _ h' h'_eq => ?_) fun _ _ => id
    subst h'_eq
    refine ⟨rfl, rfl, capacity_put .., rfl, ?_⟩
    intro j
    rw [getElem?_put]
    have := hlt r rfl
    simp only [Option.map_some, Option.some.injEq]
    grind

/-! ## Cutting -/

theorem Mended.carve_spec (hm : Mended length fit h h') (hf : h.Cuttable length fit)
    (hp : h.Partitioned) :
    Outcome (fun _ h'' => Carved tag length fit h h'') (fun _ _ => False)
      ((do write fit.block.headerIndex (.header ⟨tag, length, .white⟩)
           clear fit.block.index length : Action Unit) h') := by
  obtain ⟨header, hb, hav⟩ := hf.block
  have hend := hp.end_le hb
  have hidx := Ref.index_eq hf.block_ne_null
  have hfits := hf.fits
  have hcap := hm.capacity
  have hafter : fit.after length = fit.block.headerIndex + length + 1 := rfl
  have hrest : fit.rest length = fit.available - length := rfl
  -- The link that is replaced is in another block.
  have hapart : ∀ j, fit.block.headerIndex ≤ j → j ≤ fit.block.headerIndex + fit.available →
      fit.previous.map Ref.index ≠ some j := fun j hge hle hj => by
    obtain ⟨r, hr, rfl⟩ := Option.map_eq_some_iff.1 hj
    have := (hf.previous_apart hr).2.2
    omega
  refine (write_spec (by omega)).bind ?_
  intro _ h₁ h₁_eq
  subst h₁_eq
  refine (clear_spec (by rw [capacity_put]; omega)).mono
    (fun _ h₂ ⟨ha, hc, hcap₂, hl, hw⟩ => ?_) fun _ _ => id
  have words : ∀ j, h₂.words[j]? =
      if j = fit.block.headerIndex then some (.header ⟨tag, length, .white⟩)
      else if fit.block.index ≤ j ∧ j < fit.after length then some .zero
      else h'.words[j]? := fun j => by
    rw [hw, getElem?_put]
    grind
  refine
    { allocations := ha.trans hm.allocations
      collections := hc.trans hm.collections
      capacity := hcap₂.trans ((capacity_put ..).trans hcap)
      freeList := hl.trans hm.freeList
      header := ?_
      data := fun {j} hge hlt => ?_
      remainder := fun hpos => ?_
      link := fun hpos => ?_
      inside := fun {j} hlt hle => ?_
      outside := fun {j} hj => ?_ }
  · change h₂.words[_]? = _
    rw [words, if_pos rfl]
  · rw [words, if_neg (by omega), if_pos ⟨hge, hlt⟩]
  · change h₂.words[_]? = _
    rw [words, if_neg (by omega), if_neg (by omega), hm.words,
      if_neg (hapart _ (by omega) (by omega)), if_pos ⟨rfl, hpos⟩]
  · rw [words, if_neg (by omega), if_neg (by omega), hm.words,
      if_neg (hapart _ (by omega) (by omega)), if_neg (by omega), if_pos ⟨rfl, hpos⟩]
  · rw [words, if_neg (by omega), if_neg (by omega), hm.words,
      if_neg (hapart _ (by omega) (by omega)), if_neg (by omega), if_neg (by omega)]
  · rw [words, if_neg (by omega), if_neg (by omega), hm.words]
    split
    · rfl
    · rw [if_neg (by omega), if_neg (by omega)]

theorem carve_spec (tag : Tag) (hp : h.Partitioned) (hf : h.Cuttable length fit) :
    Outcome (fun _ h' => Carved tag length fit h h') (fun _ _ => False)
      (carve tag length fit h) := by
  obtain ⟨header, hb, hav⟩ := hf.block
  have hend := hp.end_le hb
  have hfits := hf.fits
  have hafter : fit.after length = fit.block.headerIndex + length + 1 := rfl
  have hprev : ∀ r, fit.previous = some r → r.index < h.capacity := fun r hr =>
    (hf.previous_apart hr).1
  simp only [carve]
  rcases hav' : fit.available - length with _ | _ | rest
  · have hrest : fit.rest length = 0 := hav'
    have hsucc : fit.successor length = fit.next := by simp [Fit.successor, hrest]
    refine (relink_spec hprev).bind fun _ h₁ ⟨ha, hc, hcap, hl, hw⟩ => ?_
    refine Mended.carve_spec ⟨ha, hc, hcap, hsucc ▸ hl, fun j => ?_⟩ hf hp
    rw [hw, hsucc, hrest]
    simp
  · have hrest : fit.rest length = 1 := hav'
    have hsucc : fit.successor length = fit.next := by simp [Fit.successor, hrest]
    refine (relink_spec hprev).bind fun _ h₁ ⟨ha, hc, hcap, hl, hw⟩ => ?_
    refine (write_spec (by omega)).bind ?_
    intro _ h₂ h₂_eq
    subst h₂_eq
    refine Mended.carve_spec ⟨ha, hc, (capacity_put ..).trans hcap, hsucc ▸ hl, fun j => ?_⟩ hf hp
    have hapart : fit.previous.map Ref.index ≠ some (fit.after length) := fun hj => by
      obtain ⟨r, hr, hidx⟩ := Option.map_eq_some_iff.1 hj
      have := (hf.previous_apart hr).2.2
      omega
    rw [getElem?_put, hw, hsucc, hrest]
    grind
  · have hrest : fit.rest length = rest + 2 := hav'
    have hsucc : fit.successor length = .ofHeader (fit.after length) := by
      simp [Fit.successor, hrest]
    refine (write_spec (by omega)).bind ?_
    intro _ h₁ h₁_eq
    subst h₁_eq
    refine (write_spec (by rw [capacity_put]; omega)).bind ?_
    intro _ h₂ h₂_eq
    subst h₂_eq
    refine (relink_spec (by simpa using hprev)).bind fun _ h₃ ⟨ha, hc, hcap, hl, hw⟩ => ?_
    refine Mended.carve_spec ⟨ha, hc, by simpa using hcap, hsucc ▸ hl, fun j => ?_⟩ hf hp
    rw [hw, getElem?_put, getElem?_put, hsucc, hrest, capacity_put]
    grind

theorem tryAllocate_of_none (tag : Tag) (hs : h.search length = .ok none) :
    tryAllocate tag length h = .ok none h := by
  simp only [tryAllocate, hs]

theorem tryAllocate_of_fit (tag : Tag) (hp : h.Partitioned)
    (hs : h.search length = .ok (some fit)) (hf : h.Cuttable length fit) :
    ∃ h', tryAllocate tag length h = .ok (some fit.block) h' ∧ Carved tag length fit h h' := by
  have hcarve := carve_spec tag hp hf
  simp only [tryAllocate, hs]
  cases hc : carve tag length fit h with
  | error failure h' => exact (hcarve.of_error hc).elim
  | ok _ h' => exact ⟨h', rfl, hcarve.of_ok hc⟩

/-! ## The heap after the cut -/

namespace Carved

theorem blockAt (hc : Carved tag length fit h h') (hf : h.Cuttable length fit)
    (hp : h.Partitioned) : h'.BlockAt i header ↔
      i = fit.block.headerIndex ∧ header = ⟨tag, length, .white⟩ ∨
      0 < fit.rest length ∧ i = fit.after length ∧ header = .unused (fit.rest length - 1) ∨
      (i < fit.block.headerIndex ∨ fit.block.headerIndex + fit.available < i) ∧
        h.BlockAt i header := by
  obtain ⟨found, hb, hav⟩ := hf.block
  have hidx := Ref.index_eq hf.block_ne_null
  have hfits := hf.fits
  have hafter : fit.after length = fit.block.headerIndex + length + 1 := rfl
  have hrest : fit.rest length = fit.available - length := rfl
  by_cases hout : i < fit.block.headerIndex ∨ fit.block.headerIndex + fit.available < i
  · have hnew : h'.BlockAt i header ↔ h.BlockAt i header := by
      simp only [BlockAt]
      rw [hc.outside hout]
      split
      · next hprev =>
        -- The link of the entry before is no header, neither now nor then.
        obtain ⟨r, hr, rfl⟩ := Option.map_eq_some_iff.1 hprev
        obtain ⟨-, ⟨other, ho, hlt, hle⟩, -⟩ := hf.previous_apart hr
        have hno : ¬ h.words[r.index]? = some (Word.header header) := hp.inside ho hlt hle
        simp [hno]
      · rfl
    rw [hnew]
    constructor
    · exact fun ho => .inr (.inr ⟨hout, ho⟩)
    · rintro (⟨rfl, -⟩ | ⟨hpos, rfl, -⟩ | ⟨-, ho⟩)
      · omega
      · omega
      · exact ho
  · constructor
    · intro ho
      rcases Nat.eq_or_lt_of_le (Nat.ge_of_not_lt fun hlt => hout (.inl hlt)) with heq | hne
      · subst heq
        exact .inl ⟨rfl, ho.unique hc.header⟩
      · rcases Nat.lt_trichotomy i (fit.after length) with hlt | heq | hgt
        · have hzero : h'.words[i]? = some (Word.header header) := ho
          rw [hc.data (by omega) hlt] at hzero
          cases hzero
        · subst heq
          exact .inr (.inl ⟨by omega, rfl, ho.unique (hc.remainder (by omega))⟩)
        · exfalso
          by_cases hlink : i = fit.after length + 1
          · subst hlink
            have hw : h'.words[_]? = some (Word.header header) := ho
            rw [hc.link (by omega)] at hw
            cases hw
          · have hno : ¬ h.BlockAt i header := hp.inside hb (by omega) (by omega)
            exact hno ((hc.inside (by omega) (by omega)).symm.trans ho)
    · rintro (⟨rfl, rfl⟩ | ⟨hpos, rfl, rfl⟩ | ⟨ho, -⟩)
      · exact hc.header
      · exact hc.remainder hpos
      · exact absurd ho hout

theorem partitioned (hc : Carved tag length fit h h') (hf : h.Cuttable length fit)
    (hp : h.Partitioned) : h'.Partitioned := by
  obtain ⟨found, hb, hav⟩ := hf.block
  have hfits := hf.fits
  have hafter : fit.after length = fit.block.headerIndex + length + 1 := rfl
  have hrest : fit.rest length = fit.available - length := rfl
  refine hp.replace hc.capacity (.inr ⟨_, hb⟩) (hp.next hb) (fun {j other} hj => ?_)
    ⟨_, hc.header⟩ (fun {j other} hge hlt ho => ?_)
    fun {j k other next} hge hjk hlt ho hle hn => ?_
  · rw [hc.blockAt hf hp]
    constructor
    · rintro (⟨rfl, -⟩ | ⟨hpos, rfl, -⟩ | ⟨-, ho⟩)
      · omega
      · omega
      · exact ho
    · exact fun ho => .inr (.inr ⟨by omega, ho⟩)
  · rcases (hc.blockAt hf hp).1 ho with ⟨rfl, rfl⟩ | ⟨hpos, rfl, rfl⟩ | ⟨hout, -⟩
    · change _ + length + 1 = _ ∨ _ + length + 1 < _ ∧ _
      by_cases hpos : 0 < fit.rest length
      · exact .inr ⟨by omega, _, hc.remainder hpos⟩
      · exact .inl (by omega)
    · change _ + (fit.rest length - 1) + 1 = _ ∨ _
      exact .inl (by omega)
    · omega
  · rcases (hc.blockAt hf hp).1 ho with ⟨rfl, rfl⟩ | ⟨hpos, rfl, rfl⟩ | ⟨hout, -⟩
    · change k ≤ _ + length at hle
      rcases (hc.blockAt hf hp).1 hn with ⟨rfl, -⟩ | ⟨-, rfl, -⟩ | ⟨hout, -⟩ <;> omega
    · rcases (hc.blockAt hf hp).1 hn with ⟨rfl, -⟩ | ⟨-, rfl, -⟩ | ⟨hout, -⟩ <;> omega
    · omega

/-- The blocks other than the entries of the free list keep their data. -/
theorem data_eq (hc : Carved tag length fit h h') (hf : h.FirstFit length fit front back)
    (hp : h.Partitioned) (hb : h.BlockAt i header) (hfree : header.isFree = false) {k : Nat}
    (hlt : i < k) (hle : k ≤ i + header.length) : h'.words[k]? = h.words[k]? := by
  have apart : ∀ {r found}, h.BlockAt r found → found.isFree = true →
      k < r ∨ r + found.length < k := fun {r found} hr hisFree => by
    have hne : i ≠ r := by
      rintro rfl
      rw [hb.unique hr, hisFree] at hfree
      cases hfree
    have := hp.disjoint hb hr hne
    omega
  obtain ⟨found, hfound, hisFree, hav⟩ := hf.block
  have hout := apart hfound hisFree
  rw [hc.outside (by omega), if_neg]
  intro hprev
  obtain ⟨r, hr, rfl⟩ := Option.map_eq_some_iff.1 hprev
  have hmem : r ∈ front := List.mem_of_getLast? (hf.previous.symm.trans hr)
  obtain ⟨other, ho, hisFree, hpos⟩ := hf.threaded.free r (List.mem_append_left _ hmem)
  have := apart ho hisFree
  have := Ref.index_eq (hf.threaded.ne_null (List.mem_append_left _ hmem))
  omega

/-- The other entries keep their links, except the one before the entry that was cut. -/
theorem link_eq (hc : Carved tag length fit h h') (hf : h.FirstFit length fit front back)
    (hp : h.Partitioned) (hr : r ∈ front ∨ r ∈ back) (hne : fit.previous ≠ some r) :
    h'.words[r.index]? = h.words[r.index]? := by
  rw [hc.outside (hf.entry_apart hp hr).2.2, if_neg]
  intro hprev
  obtain ⟨s, hs, hidx⟩ := Option.map_eq_some_iff.1 hprev
  have heq : s = r := by
    cases s
    cases r
    exact congrArg Ref.mk hidx
  exact hne (heq ▸ hs)

theorem links_front (hc : Carved tag length fit h h') (hf : h.FirstFit length fit front back)
    (hp : h.Partitioned) (hl : h.Links h.freeList front fit.block) :
    h'.Links h'.freeList front (fit.successor length) := by
  rw [hc.freeList]
  rcases front.eq_nil_or_concat' with rfl | ⟨init, r, rfl⟩
  · rw [if_pos (by simp [hf.previous])]
    rfl
  · have hprev : fit.previous = some r := by simp [hf.previous]
    obtain ⟨mid, hinit, rfl, hn, next, hlink, hlast⟩ := links_append.1 hl
    obtain ⟨hnodup, -⟩ := hf.nodup
    rw [if_neg (by simp [hprev])]
    refine links_append.2 ⟨mid, hinit.frame ?_, rfl, hn, _, ?_, rfl⟩
    · intro s hs
      refine hc.link_eq hf hp (.inl (List.mem_append_left _ hs)) ?_
      intro heq
      rw [hprev] at heq
      cases heq
      exact (List.nodup_append.1 hnodup).2.2 _ hs _ (List.mem_singleton_self _) rfl
    · rw [hc.outside (hf.previous_apart hp hprev).2.2, if_pos (by simp [hprev])]

theorem links_back (hc : Carved tag length fit h h') (hf : h.FirstFit length fit front back)
    (hp : h.Partitioned) (hl : h.Links fit.next back .null) :
    h'.Links (fit.successor length) (fit.remainder length ++ back) .null := by
  obtain ⟨-, -, -, -, hdisjoint⟩ := hf.nodup
  have hback : h'.Links fit.next back .null := hl.frame fun s hs =>
    hc.link_eq hf hp (.inr hs) fun heq => hdisjoint _ (hf.previous_mem heq) hs
  simp only [Fit.successor, Fit.remainder]
  split
  · next hpos => exact ⟨rfl, rfl, _, hc.link hpos, hback⟩
  · exact hback

theorem threaded (hc : Carved tag length fit h h') (hf : h.FirstFit length fit front back)
    (hp : h.Partitioned) : h'.Threaded (front ++ (fit.remainder length ++ back)) := by
  obtain ⟨mid, hfront, rfl, -, next, hlink, hback⟩ := links_append.1 hf.threaded.links
  obtain rfl : next = fit.next := by
    have := hlink.symm.trans hf.link
    simpa using this
  obtain ⟨hnf, hnb, hbf, hbb, hdisjoint⟩ := hf.nodup
  obtain ⟨found, hfound, -, hav⟩ := hf.block
  have hafter : fit.after length = fit.block.headerIndex + length + 1 := rfl
  have hrest : fit.rest length = fit.available - length := rfl
  have hrem : ∀ {r}, r ∈ fit.remainder length → 1 < fit.rest length ∧
      r = .ofHeader (fit.after length) := fun {r} hr => by
    simp only [Fit.remainder] at hr
    split at hr
    · next hpos => exact ⟨hpos, List.mem_singleton.1 hr⟩
    · cases hr
  -- The remainder starts where no entry stood before.
  have hnew : ∀ {r}, r ∈ fit.remainder length → ¬ (r ∈ front ∨ r ∈ back) := fun {r} hr hmem => by
    obtain ⟨hpos, rfl⟩ := hrem hr
    have := (hf.entry_apart hp hmem).2.2
    change fit.after length + 1 < _ ∨ _ < fit.after length + 1 at this
    omega
  refine ⟨links_append.2 ⟨_, hc.links_front hf hp hfront, hc.links_back hf hp hback⟩, ?_, ?_⟩
  · refine List.nodup_append.2 ⟨hnf, List.nodup_append.2 ⟨?_, hnb, ?_⟩, ?_⟩
    · simp only [Fit.remainder]
      split
      · exact List.nodup_singleton _
      · exact .nil
    · rintro r hr _ hs rfl
      exact hnew hr (.inr hs)
    · rintro r hr s hs rfl
      rcases List.mem_append.1 hs with hs | hs
      · exact hnew hs (.inl hr)
      · exact hdisjoint r hr hs
  · intro r hr
    have hcases : (r ∈ front ∨ r ∈ back) ∨ r ∈ fit.remainder length := by
      simp only [List.mem_append] at hr
      rcases hr with hr | hr | hr
      · exact .inl (.inl hr)
      · exact .inr hr
      · exact .inl (.inr hr)
    rcases hcases with hr | hr
    · obtain ⟨header, hb, hisFree, hlen⟩ := hf.threaded.free r (by
        rw [List.mem_append, List.mem_cons]
        exact hr.imp_right .inr)
      refine ⟨header, (hc.blockAt (hf.cuttable hp) hp).2 (.inr (.inr ⟨?_, hb⟩)), hisFree, hlen⟩
      obtain ⟨-, ⟨other, ho, hlt, hle⟩, hout⟩ := hf.entry_apart hp hr
      have hne : r.headerIndex ≠ fit.block.headerIndex := fun heq => by
        rw [heq] at ho hlt hle
        obtain rfl := ho.unique hfound
        omega
      have := hp.disjoint hb hfound hne
      omega
    · obtain ⟨hpos, rfl⟩ := hrem hr
      refine ⟨_, hc.remainder (by omega), rfl, ?_⟩
      change 0 < fit.rest length - 1
      omega

/-- Cutting a block of data leaves an orderly heap orderly. -/
theorem orderly (hc : Carved .cons length fit h h') (hf : h.FirstFit length fit front back)
    (ho : h.Orderly) (hpos : 0 < length)
    (hall : ∀ {i header}, h.BlockAt i header → header.tag = .free → 0 < header.length →
      .ofHeader i ∈ front ++ fit.block :: back) : h'.Orderly where
  partitioned := hc.partitioned (hf.cuttable ho.partitioned) ho.partitioned
  states := by
    intro i header hb
    rcases (hc.blockAt (hf.cuttable ho.partitioned) ho.partitioned).1 hb with
      ⟨-, rfl⟩ | ⟨-, -, rfl⟩ | ⟨-, hold⟩
    · exact .inl ⟨rfl, rfl, hpos⟩
    · exact .inr ⟨rfl, rfl⟩
    · exact ho.states hold
  threaded := by
    refine ⟨_, hc.threaded hf ho.partitioned, fun {i header} hb hfree hlen => ?_⟩
    rcases (hc.blockAt (hf.cuttable ho.partitioned) ho.partitioned).1 hb with
      ⟨-, rfl⟩ | ⟨-, rfl, rfl⟩ | ⟨hout, hold⟩
    · cases hfree
    · change 0 < fit.rest length - 1 at hlen
      simp only [Fit.remainder, show 1 < fit.rest length by omega, if_true, List.mem_append,
        List.mem_singleton, true_or, or_true]
    · have hmem := hall hold hfree hlen
      rw [List.mem_append, List.mem_cons] at hmem
      simp only [List.mem_append]
      rcases hmem with hmem | heq | hmem
      · exact .inl hmem
      · have := congrArg Ref.headerIndex heq
        simp only [Ref.headerIndex_ofHeader] at this
        omega
      · exact .inr (.inr hmem)

end Carved

end Heap

end ConsMachine
