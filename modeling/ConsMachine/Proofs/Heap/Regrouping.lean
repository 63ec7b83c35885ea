import ConsMachine.Proofs.Heap.Sweeping

/-!
# Regrouping

What a sweep makes of a heap can be read off the blocks that the heap had: the black ones stay, and
of the others each longest run of neighbors becomes one block. The free list leads through these
runs from the last to the first. So nothing else of the heap matters, neither the tags of the dead
blocks nor the free list as it was.

## Main definitions

* `Heap.LongestRun` — a dead run that no dead block precedes.
* `Heap.Rewrites` — the words that a sweep may change.
* `Heap.ListsDownward` — the free list holds given blocks, the last one first.
* `Heap.Regrouped` — the heap after a sweep.
-/

namespace ConsMachine.Heap

/-- The `length` data words at `index` are a dead run with no dead block before it or behind it. -/
structure LongestRun (h : Heap) (index length : Nat) : Prop extends h.DeadRun index length where
  first : ∀ {j header}, h.BlockAt j header → j + header.length + 1 = index →
    header.color.isUnmarked = false

/-- `h'` is `h` with headers from `i` on replaced, and with links in blocks that are not in use. -/
structure Rewrites (h : Heap) (i : Nat) (h' : Heap) : Prop where
  behind : ∀ {k}, k < i → h'.words[k]? = h.words[k]?
  words : ∀ k, h'.words[k]? = h.words[k]? ∨ (∃ header, h.BlockAt k header) ∨
    ∃ j length, k = j + 1 ∧ 0 < length ∧ h'.BlockAt j (.unused length)

/-- The free list leads through the blocks that `free` tells of, by index and length, from the last
one to the first. Those without data words are left out. -/
def ListsDownward (h : Heap) (free : Nat → Nat → Prop) : Prop :=
  ∃ entries, h.Links h.freeList entries .null ∧
    entries.Pairwise (fun r s => s.index < r.index) ∧
    ∀ r, r ∈ entries ↔ ∃ j length, r = .ofHeader j ∧ 0 < length ∧ free j length

/-- `h` is `g` with the black blocks white and every longest dead run one block. -/
structure Regrouped (g h : Heap) : Prop where
  allocations : h.allocations = g.allocations
  collections : h.collections = g.collections
  capacity : h.capacity = g.capacity
  partitioned : h.Partitioned
  /-- Headers stand where black blocks and longest dead runs start, and nowhere else. -/
  blockAt_iff : ∀ {j header}, h.BlockAt j header ↔
    (∃ old, g.BlockAt j old ∧ old.color = .black ∧ header = old.paint .white) ∨
      header = .unused header.length ∧ g.LongestRun j header.length
  kept : ∀ {j header}, g.BlockAt j header → header.color = .black →
    ∀ k, j < k → k ≤ j + header.length → h.words[k]? = g.words[k]?
  words : ∀ k, h.words[k]? = g.words[k]? ∨ (∃ header, g.BlockAt k header) ∨
    ∃ j length, k = j + 1 ∧ 0 < length ∧ h.BlockAt j (.unused length)
  freeList : h.ListsDownward g.LongestRun

variable {g h h' : Heap} {i j k index length : Nat} {header : Header}

/-! ## Dead runs -/

/-- A dead run goes on to the next marked block or to the end of the heap. -/
theorem DeadRun.length_unique {other : Nat} (hr : g.DeadRun i length) (ho : g.DeadRun i other) :
    length = other := by
  have notShorter : ∀ {l m : Nat}, g.DeadRun i l → g.DeadRun i m → ¬ l < m := by
    intro l m hl hm hlt
    have hend : i + m + 1 ≤ g.capacity := by
      rcases hm.maximal with hend | ⟨next, hn, -⟩
      · exact Nat.le_of_eq hend
      · exact Nat.le_of_lt hn.lt
    rcases hl.maximal with hcap | ⟨next, hn, hmarked⟩
    · omega
    · have := hm.dead (by omega) (by omega) hn
      rw [hmarked] at this
      cases this
  have := notShorter hr ho
  have := notShorter ho hr
  omega

/-- Behind the walk, a block has stayed because it was black, or it has become part of a run. -/
theorem Swept.origin_of_blockAt (hs : g.Swept h k) (hp : g.Partitioned) (hi : i < k)
    (hb : g.BlockAt i header) :
    header.color = .black ∨ ∃ j length, h.BlockAt j (.unused length) ∧ g.DeadRun j length ∧
      j ≤ i ∧ i ≤ j + length := by
  obtain ⟨j, other, ho, hle, hge⟩ := hs.partitioned.exists_block (hs.capacity ▸ hb.lt)
  rcases hs.origin (by omega) ho with ⟨old, hold, hblack, rfl⟩ | ⟨hunused, hrun⟩
  · rcases Nat.eq_or_lt_of_le hle with rfl | hlt
    · exact .inl (hold.unique hb ▸ hblack)
    · exact absurd hb (hp.inside hold hlt hge)
  · exact .inr ⟨j, _, hunused ▸ ho, hrun, hle, hge⟩

theorem Swept.not_grey (hs : g.Swept h k) (hp : g.Partitioned) (hi : i < k)
    (hb : g.BlockAt i header) : header.color ≠ .grey := by
  intro hgrey
  rcases hs.origin_of_blockAt hp hi hb with hblack | ⟨j, length, -, hrun, hle, hge⟩
  · rw [hgrey] at hblack
    cases hblack
  · have := hrun.dead hle hge hb
    rw [hgrey] at this
    cases this

/-- A run that the walk has freed did not follow a dead block: that block's run would have gone on
through it. -/
theorem Swept.longestRun (hs : g.Swept h g.capacity) (hp : g.Partitioned)
    (hb : h.BlockAt j (.unused length)) : g.LongestRun j length := by
  have hlt : j < g.capacity := hs.capacity ▸ hb.lt
  have hrun : g.DeadRun j length := by
    rcases hs.origin hlt hb with ⟨old, -, -, hpaint⟩ | ⟨-, hrun⟩
    · cases congrArg Header.color hpaint
    · exact hrun
  refine ⟨hrun, fun {i old} hold hend => ?_⟩
  rcases hs.origin_of_blockAt hp hold.lt hold with hblack | ⟨k, l, hk, hdead, hle, hge⟩
  · rw [hblack]
    rfl
  · obtain ⟨start, hstart⟩ := hrun.start
    have hapart : k + l < j := hs.partitioned.apart hk hb (by omega)
    rcases hdead.maximal with hcap | ⟨next, hn, hmarked⟩
    · omega
    · rcases Nat.lt_or_ge (k + l + 1) j with hin | hout
      · exact absurd hn (hp.inside hold (by omega) (by omega))
      · obtain rfl : k + l + 1 = j := by omega
        have := hrun.dead (Nat.le_refl _) (Nat.le_add_right _ _) hn
        rw [hmarked] at this
        cases this

/-- The walk frees every longest run as a whole. -/
theorem Swept.blockAt_of_longestRun (hs : g.Swept h g.capacity) (hp : g.Partitioned)
    (hr : g.LongestRun i length) : h.BlockAt i (.unused length) := by
  obtain ⟨start, hstart⟩ := hr.start
  have hdead := hr.dead (Nat.le_refl _) (Nat.le_add_right _ _) hstart
  rcases hs.origin_of_blockAt hp hstart.lt hstart with hblack | ⟨j, l, hj, hrun, hle, hge⟩
  · rw [hblack] at hdead
    cases hdead
  · rcases Nat.eq_or_lt_of_le hle with rfl | hlt
    · rwa [hr.length_unique hrun]
    · exfalso
      obtain ⟨first, hfirst⟩ := hrun.start
      -- The block that ends where the run starts is in the run from `j` on, too.
      obtain ⟨m, before, hm, hmle, hmge⟩ := hp.exists_block (i := i - 1) (by have := hstart.lt; omega)
      have hend := hp.apart hm hstart (by omega)
      have hjm : j ≤ m := Nat.le_of_not_lt fun hlt => hp.inside hm hlt (by omega) hfirst
      have hmarked := hr.first hm (by omega)
      rw [hrun.dead hjm (by omega) hm] at hmarked
      cases hmarked

/-! ## Words that stay -/

/-- A part of the walk, and the rest of it. -/
theorem Rewrites.trans {next : Nat} {h₁ : Heap} (hle : i ≤ next)
    (hbehind : ∀ {k}, k < i → h₁.words[k]? = h.words[k]?)
    (hwords : ∀ k, h₁.words[k]? = h.words[k]? ∨ (∃ header, h.BlockAt k header) ∨
      ∃ j length, k = j + 1 ∧ 0 < length ∧ j < next ∧ h₁.BlockAt j (.unused length))
    (hr : h₁.Rewrites next h') : h.Rewrites i h' where
  behind := fun hk => (hr.behind (by omega)).trans (hbehind hk)
  words := by
    intro k
    rcases hwords k with hsame | hheader | ⟨j, length, hk, hpos, hj, hb⟩
    · rcases hr.words k with hsame' | ⟨header, hb⟩ | hlink
      · exact .inl (hsame'.trans hsame)
      · exact .inr (.inl ⟨header, hsame.symm.trans hb⟩)
      · exact .inr (.inr hlink)
    · exact .inr (.inl hheader)
    · exact .inr (.inr ⟨j, length, hk, hpos, (hr.behind hj).trans hb⟩)

/-- Absorbing clears headers behind the start of the run. -/
theorem absorb_words (hlt : index + length < h.capacity) :
    Outcome (fun length' h' => index + length' < h'.capacity ∧ ∀ k : Nat,
        h'.words[k]? = h.words[k]? ∨ index < k ∧ ∃ header, h.BlockAt k header)
      (fun _ _ => True) (h.absorb index length) := by
  fun_induction absorb h index length with
  | case1 | case3 => trivial
  | case2 h length next hlt following hh hu hle ih =>
    have hb : h.BlockAt next following := headerAt_eq_ok.1 hh
    refine (ih (by rw [capacity_put]; omega)).mono (fun length' h' hrest => ?_) fun _ _ => id
    refine ⟨hrest.1, fun k => ?_⟩
    by_cases hk : k = next
    · subst hk
      exact .inr ⟨by omega, following, hb⟩
    · have hput : (h.put next .zero).words[k]? = h.words[k]? := by
        rw [getElem?_put, if_neg fun heq => hk heq.1]
      simpa only [BlockAt, hput] using hrest.2 k
  | case4 | case5 => exact ⟨hlt, fun _ => .inl rfl⟩

/-- The walk frees a dead run: it writes the header and the link of the run, and it clears the
headers in it. -/
theorem Rewrites.free {h₁ h₂ : Heap} (hb : h.BlockAt i header)
    (hle : i + header.length + 1 ≤ h.capacity) (ha : h.absorb i header.length = .ok length h₁)
    (hr : release i length h₁ = .ok () h₂) (hrest : h₂.Rewrites (i + length + 1) h') :
    h.Rewrites i h' := by
  obtain ⟨hlt, hwords⟩ := (absorb_words (by omega)).of_ok ha
  cases (release_eq_ok hlt).symm.trans hr
  have hreleased : ∀ k, (h₁.released i length).words[k]? =
      if k = i then some (.header (.unused length))
      else if k = i + 1 ∧ 0 < length then some (.ref h₁.freeList) else h₁.words[k]? :=
    fun _ => getElem?_released hlt
  have hstart : (h₁.released i length).BlockAt i (.unused length) := by
    rw [BlockAt, hreleased, if_pos rfl]
  refine .trans (by omega) (fun {k} hk => ?_) (fun k => ?_) hrest
  · rw [hreleased, if_neg (by omega), if_neg (by omega)]
    exact (hwords k).resolve_right fun hk' => by omega
  · by_cases hk : k = i
    · exact .inr (.inl ⟨header, hk ▸ hb⟩)
    · by_cases hlink : k = i + 1 ∧ 0 < length
      · exact .inr (.inr ⟨i, length, hlink.1, hlink.2, by omega, hstart⟩)
      · rw [hreleased, if_neg hk, if_neg hlink]
        exact (hwords k).imp_right fun hheader => .inl hheader.2

/-- The walk passes a black block and changes its header only. -/
theorem Rewrites.pass {w : Word} (hb : h.BlockAt i header)
    (hrest : (h.put i w).Rewrites (i + header.length + 1) h') : h.Rewrites i h' := by
  have hput : ∀ {k}, k ≠ i → (h.put i w).words[k]? = h.words[k]? := fun hk => by
    rw [getElem?_put, if_neg fun heq => hk heq.1]
  refine .trans (by omega) (fun hk => hput (by omega)) (fun k => ?_) hrest
  by_cases hk : k = i
  · exact .inr (.inl ⟨header, hk ▸ hb⟩)
  · exact .inl (hput hk)

theorem sweepFrom_rewrites (h : Heap) (i : Nat) :
    Outcome (fun _ h' => h.Rewrites i h') (fun _ _ => True) (h.sweepFrom i) := by
  fun_induction sweepFrom h i with
  | case1 | case3 | case4 | case5 | case7 | case8 | case10 => trivial
  | case2 h i hlt header hh hle hblack ih =>
    exact ih.mono (fun _ _ => .pass (headerAt_eq_ok.1 hh)) fun _ _ => id
  | case6 h i hlt header hh hle hwhite length h₁ ha h₂ hr ih =>
    exact ih.mono (fun _ _ => .free (headerAt_eq_ok.1 hh) hle ha hr) fun _ _ => id
  | case9 h i hlt header hh hle hblue length h₁ ha h₂ hr ih =>
    exact ih.mono (fun _ _ => .free (headerAt_eq_ok.1 hh) hle ha hr) fun _ _ => id
  | case11 h i hge => exact ⟨fun _ => rfl, fun _ => .inl rfl⟩

/-! ## The whole sweep -/

theorem Swept.regrouped (hs : g.Swept h g.capacity) (hp : g.Partitioned)
    (hw : Rewrites { g with freeList := .null } 0 h) : g.Regrouped h where
  allocations := hs.allocations
  collections := hs.collections
  capacity := hs.capacity
  partitioned := hs.partitioned
  blockAt_iff := by
    intro j header
    constructor
    · intro hb
      rcases hs.origin (hs.capacity ▸ hb.lt) hb with hblack | ⟨hunused, -⟩
      · exact .inl hblack
      · exact .inr ⟨hunused, hs.longestRun hp (hunused ▸ hb)⟩
    · rintro (⟨old, hold, hblack, rfl⟩ | ⟨hunused, hrun⟩)
      · exact (hs.kept hold.lt hold hblack).1
      · exact hunused ▸ hs.blockAt_of_longestRun hp hrun
  kept := fun hb hblack => (hs.kept hb.lt hb hblack).2
  words := hw.words
  freeList := by
    obtain ⟨entries, hlinks, hsorted, hmem⟩ := hs.freeList
    refine ⟨entries, hlinks, hsorted, fun r => (hmem r).trans ?_⟩
    constructor
    · rintro ⟨j, length, rfl, -, hpos, hb⟩
      exact ⟨j, length, rfl, hpos, hs.longestRun hp hb⟩
    · rintro ⟨j, length, rfl, hpos, hrun⟩
      have hb := hs.blockAt_of_longestRun hp hrun
      exact ⟨j, length, rfl, hs.capacity ▸ hb.lt, hpos, hb⟩

theorem Regrouped.longestRun_iff (hr : g.Regrouped h) :
    g.LongestRun j length ↔ h.BlockAt j (.unused length) := by
  rw [hr.blockAt_iff]
  constructor
  · exact fun hrun => .inr ⟨rfl, hrun⟩
  · rintro (⟨old, -, -, hpaint⟩ | ⟨-, hrun⟩)
    · cases congrArg Header.color hpaint
    · exact hrun

theorem sweep_regrouped (hp : g.Partitioned) :
    Outcome (fun _ h => g.Regrouped h)
      (fun failure h => ∃ j header, failure = .fault (.greyAtSweep j) ∧
        g.BlockAt j header ∧ header.color = .grey ∧ g.Swept h j) (sweep g) := by
  have hspec := sweep_spec hp
  have hwords := sweepFrom_rewrites { g with freeList := .null } 0
  cases hr : sweep g with
  | ok _ h => exact (hspec.of_ok hr).regrouped hp (hwords.of_ok hr)
  | error failure h => exact hspec.of_error hr

/-- A sweep succeeds if no block is grey, and it regroups the blocks. If one is grey it fails at the
lowest of them; the words from there on are as they were, and the heap is still partitioned. -/
theorem sweep_regroups_blocks (hp : g.Partitioned) :
    ((∀ {i header}, g.BlockAt i header → header.color ≠ .grey) →
        ∃ h, sweep g = .ok () h ∧ g.Regrouped h) ∧
      ∀ {i header}, g.BlockAt i header → header.color = .grey →
        ∃ j h, sweep g = .error (.fault (.greyAtSweep j)) h ∧
          (∃ lowest, g.BlockAt j lowest ∧ lowest.color = .grey) ∧
          (∀ {k other}, g.BlockAt k other → other.color = .grey → j ≤ k) ∧
          (∀ k : Nat, j ≤ k → h.words[k]? = g.words[k]?) ∧ h.Partitioned := by
  have hspec := sweep_regrouped hp
  refine ⟨fun hno => ?_, fun {i header} hb hgrey => ?_⟩
  · cases hr : sweep g with
    | ok _ h => exact ⟨h, rfl, hspec.of_ok hr⟩
    | error failure h =>
      obtain ⟨j, header, -, hb, hgrey, -⟩ := hspec.of_error hr
      exact absurd hgrey (hno hb)
  · cases hr : sweep g with
    | ok _ h =>
      have hs := (sweep_spec hp).of_ok hr
      exact absurd hgrey (hs.not_grey hp hb.lt hb)
    | error failure h =>
      obtain ⟨j, lowest, rfl, hlowest, hc, hs⟩ := hspec.of_error hr
      refine ⟨j, h, rfl, ⟨lowest, hlowest, hc⟩, fun {k other} ho hgrey => ?_,
        fun k hk => hs.ahead hk, hs.partitioned⟩
      exact Nat.le_of_not_lt fun hlt => hs.not_grey hp hlt ho hgrey

/-- Between two black blocks an orphan, a white block and another orphan are one run; the orphan at
the end is another. With the second black block grey instead, the sweep stops there. -/
theorem sweep_regroups_blocks_of_orphans : ∃ g h : Heap, g.Partitioned ∧
    (∀ {i header}, g.BlockAt i header → header.color ≠ .grey) ∧
    g.words = #[.header ⟨.cons, 2, .black⟩, .int 5, .ref ⟨1⟩, .header ⟨.free, 0, .white⟩,
      .header ⟨.cons, 1, .white⟩, .int 7, .header (.unused 0), .header ⟨.free, 1, .black⟩, .null,
      .header ⟨.cons, 0, .blue⟩] ∧
    sweep g = .ok () h ∧ g.Regrouped h ∧ h.freeList = ⟨4⟩ ∧
    h.words = #[.header ⟨.cons, 2, .white⟩, .int 5, .ref ⟨1⟩, .header (.unused 3), .null, .int 7,
      .zero, .header ⟨.free, 1, .white⟩, .null, .header (.unused 0)] ∧
    ∃ h', sweep (g.paint ⟨8⟩ .grey) = .error (.fault (.greyAtSweep 7)) h' ∧ h'.Partitioned := by
  let g : Heap := ⟨#[.header ⟨.cons, 2, .black⟩, .int 5, .ref ⟨1⟩, .header ⟨.free, 0, .white⟩,
    .header ⟨.cons, 1, .white⟩, .int 7, .header (.unused 0), .header ⟨.free, 1, .black⟩, .null,
    .header ⟨.cons, 0, .blue⟩], ⟨9⟩, 0, 0⟩
  have hp : g.Partitioned := by decide
  have hno : ∀ {i header}, g.BlockAt i header → header.color ≠ .grey := by decide
  have hp' : (g.paint ⟨8⟩ .grey).Partitioned := by decide
  have hgrey : (g.paint ⟨8⟩ .grey).BlockAt 7 ⟨.free, 1, .grey⟩ := rfl
  have hsweep : sweep g = .ok () ⟨#[.header ⟨.cons, 2, .white⟩, .int 5, .ref ⟨1⟩,
    .header (.unused 3), .null, .int 7, .zero, .header ⟨.free, 1, .white⟩, .null,
    .header (.unused 0)], ⟨4⟩, 0, 0⟩ := by decide +kernel
  have hstop : sweep (g.paint ⟨8⟩ .grey) = .error (.fault (.greyAtSweep 7))
    ⟨#[.header ⟨.cons, 2, .white⟩, .int 5, .ref ⟨1⟩, .header (.unused 3), .null, .int 7,
      .zero, .header ⟨.free, 1, .grey⟩, .null, .header ⟨.cons, 0, .blue⟩], ⟨4⟩, 0, 0⟩ := by
    decide +kernel
  obtain ⟨h, hh, hregrouped⟩ := (sweep_regroups_blocks hp).1 hno
  cases hh.symm.trans hsweep
  obtain ⟨j, h', hh', -, -, -, hpartitioned⟩ := (sweep_regroups_blocks hp').2 hgrey rfl
  cases hh'.symm.trans hstop
  exact ⟨g, _, hp, hno, rfl, hsweep, hregrouped, rfl, rfl, _, hstop, hpartitioned⟩

end ConsMachine.Heap
