import ConsMachine.Proofs.Heap.Client
import ConsMachine.Proofs.Heap.Tidiness

/-!
# Vacant words

A word is vacant if it belongs to no block that the roots reach. A collection makes every longest
run of vacant words one free block. So whether there is room for a block is decided by where the
reached blocks are, and not by how the words between them have been cut up: an allocation fails
exactly when all of these runs are too short.

## Main definitions

* `Heap.Vacant`, `Heap.VacantRun` — words that no reached block holds, and as many of them in a row
  as there are.
-/

namespace ConsMachine.Heap

/-- The word at `k` belongs to no block that the roots reach. -/
def Vacant (h : Heap) (roots : List Word) (k : Nat) : Prop :=
  k < h.capacity ∧ ∀ {r header}, h.Reaches roots r → h.headerOf r = .ok header →
    k < r.headerIndex ∨ r.headerIndex + header.length < k

/-- The `count` words from `first` on are vacant, with no vacant word before them or behind them. -/
structure VacantRun (h : Heap) (roots : List Word) (first count : Nat) : Prop where
  pos : 0 < count
  vacant : ∀ {k}, first ≤ k → k < first + count → h.Vacant roots k
  before : 0 < first → ¬ h.Vacant roots (first - 1)
  behind : ¬ h.Vacant roots (first + count)

variable {g h : Heap} {roots : List Word} {i k first count length : Nat} {header : Header}

/-! ## Free blocks and vacant words -/

section

variable (hs : h.Settled) (hw : ∀ r, h.Reaches roots r → h.LeadsToWhite r)

include hs hw

theorem vacant_of_free (hp : h.Partitioned) (hb : h.BlockAt i header) (hf : header.tag = .free)
    (hle : i ≤ k) (hge : k ≤ i + header.length) : h.Vacant roots k := by
  have hend := hp.end_le hb
  refine ⟨by omega, fun {r other} hr hh => ?_⟩
  obtain ⟨hn, -, ho⟩ := headerOf_eq_ok.1 hh
  have hne : r.headerIndex ≠ i := by
    rintro rfl
    have hwhite := hw r hr
    rw [← Ref.ofHeader_headerIndex hn] at hwhite
    rw [(hs.tag_of_leadsToWhite hb hwhite).1] at hf
    cases hf
  have := hp.disjoint ho hb hne
  omega

namespace Reclaimed

variable (hc : h.Reclaimed roots g)

include hc

/-- The vacant words are those of the blocks that a collection frees. -/
theorem vacant_iff : h.Vacant roots k ↔
    ∃ j length, g.BlockAt j (.unused length) ∧ j ≤ k ∧ k ≤ j + length := by
  have hp := hc.tidy.partitioned
  constructor
  · rintro ⟨hlt, hout⟩
    obtain ⟨j, header, hb, hle, hge⟩ := hp.exists_block (hc.capacity ▸ hlt)
    rcases hc.tidy.settled hb with ⟨hcons, -⟩ | ⟨hfree, -⟩
    · obtain ⟨hold, hreach⟩ := (hc.blockAt_iff hcons).1 hb
      obtain ⟨other, hh, -⟩ := hw _ hreach
      obtain rfl := (headerOf_eq_ok.1 hh).2.2.unique hold
      have := hout hreach hh
      simp only [Ref.headerIndex_ofHeader] at this
      omega
    · exact ⟨j, _, Settled.eq_unused hc.tidy.settled hb hfree ▸ hb, hle, hge⟩
  · rintro ⟨j, length, hb, hle, hge⟩
    have hend : j + length + 1 ≤ g.capacity := hp.end_le hb
    refine ⟨by have := hc.capacity; omega, fun {r header} hr hh => ?_⟩
    obtain ⟨-, -, ho⟩ := headerOf_eq_ok.1 (hc.kept hs hr (hw r hr) hh).1
    have hne : r.headerIndex ≠ j := by
      rintro rfl
      obtain ⟨hn, -, hold⟩ := headerOf_eq_ok.1 hh
      have hwhite := hw r hr
      rw [← Ref.ofHeader_headerIndex hn] at hwhite
      have hcons := (hs.tag_of_leadsToWhite hold hwhite).1
      rw [ho.unique hb] at hcons
      cases hcons
    have : r.headerIndex + header.length < j ∨ j + length < r.headerIndex := hp.disjoint ho hb hne
    omega

/-- A block in use follows a free block, or the heap ends. -/
theorem not_vacant_behind (hb : g.BlockAt i (.unused length)) :
    ¬ h.Vacant roots (i + length + 1) := by
  intro hv
  have hp := hc.tidy.partitioned
  obtain ⟨j, l, hj, hle, hge⟩ := (hc.vacant_iff hs hw).1 hv
  rcases hc.tidy.apart hb with hend | ⟨next, hn, hcons⟩
  · have := hc.capacity
    have := hv.1
    omega
  · rcases Nat.eq_or_lt_of_le hle with rfl | hlt
    · rw [hn.unique hj] at hcons
      cases hcons
    · exact hp.inside hj hlt hge hn

theorem not_vacant_before (hb : g.BlockAt i (.unused length)) (hi : 0 < i) :
    ¬ h.Vacant roots (i - 1) := by
  intro hv
  obtain ⟨j, l, hj, hle, hge⟩ := (hc.vacant_iff hs hw).1 hv
  have hlt : j + l < i := hc.tidy.partitioned.apart hj hb (by omega)
  refine hc.not_vacant_behind hs hw hj ?_
  rw [show j + l + 1 = i by omega]
  exact (hc.vacant_iff hs hw).2 ⟨i, length, hb, Nat.le_refl _, Nat.le_add_right _ _⟩

/-- The longest runs of vacant words are the blocks that a collection frees. -/
theorem vacantRun_iff : h.VacantRun roots first count ↔
    ∃ length, count = length + 1 ∧ g.BlockAt first (.unused length) := by
  constructor
  · intro hr
    have := hr.pos
    obtain ⟨j, length, hb, hle, hge⟩ :=
      (hc.vacant_iff hs hw).1 (hr.vacant (Nat.le_refl _) (by omega))
    obtain rfl : j = first := by
      by_contra hne
      refine hr.before (by omega) ((hc.vacant_iff hs hw).2 ⟨j, length, hb, ?_, ?_⟩) <;> omega
    refine ⟨length, ?_, hb⟩
    rcases Nat.lt_trichotomy count (length + 1) with hlt | heq | hgt
    · refine absurd ((hc.vacant_iff hs hw).2 ⟨j, length, hb, ?_, ?_⟩) hr.behind <;> omega
    · exact heq
    · exact absurd (hr.vacant (by omega) (by omega)) (hc.not_vacant_behind hs hw hb)
  · rintro ⟨length, rfl, hb⟩
    refine ⟨Nat.succ_pos _, fun {k} hle hlt => ?_, hc.not_vacant_before hs hw hb,
      hc.not_vacant_behind hs hw hb⟩
    exact (hc.vacant_iff hs hw).2 ⟨first, length, hb, hle, by omega⟩

/-- A collection loses no room. -/
theorem hasRoom (hp : h.Partitioned) (hr : h.HasRoom length) : g.HasRoom length := by
  obtain ⟨i, header, hb, hf, hle⟩ := hr
  have hvacant : ∀ {k}, i ≤ k → k ≤ i + header.length → h.Vacant roots k :=
    vacant_of_free hs hw hp hb hf
  obtain ⟨j, l, hj, hji, hij⟩ := (hc.vacant_iff hs hw).1 (hvacant (Nat.le_refl _) (by omega))
  have hlong : i + header.length ≤ j + l := Nat.le_of_not_lt fun hlt =>
    hc.not_vacant_behind hs hw hj (hvacant (by omega) (by omega))
  exact ⟨j, _, hj, rfl, show length ≤ l by omega⟩

theorem not_hasRoom_iff : ¬ g.HasRoom length ↔
    ∀ first count, h.VacantRun roots first count → count < length + 1 := by
  constructor
  · intro hno first count hr
    obtain ⟨l, rfl, hb⟩ := (hc.vacantRun_iff hs hw).1 hr
    have : ¬ length ≤ l := fun hle => hno ⟨first, _, hb, rfl, hle⟩
    omega
  · rintro hall ⟨i, header, hb, hf, hle⟩
    have hunused := Settled.eq_unused hc.tidy.settled hb hf
    have := hall _ _ ((hc.vacantRun_iff hs hw).2 ⟨_, rfl, hunused ▸ hb⟩)
    omega

end Reclaimed

end

/-! ## Allocations that fail -/

theorem Sound.allocate_fails_iff (hs : h.Sound) (hroots : ∀ w ∈ roots, h.Valid w)
    (hpos : 0 < length) :
    (∃ failure h', allocate .cons length roots h = .error failure h') ↔
      ∀ first count, h.VacantRun roots first count → count < length + 1 := by
  have hp := hs.orderly.partitioned
  have hset : h.Settled := hs.orderly.settled
  have hw : ∀ r, h.Reaches roots r → h.LeadsToWhite r := fun _ => hs.leadsToWhite hroots
  cases hcollect : collect roots h with
  | error failure g => exact ((collect_spec hs hroots).of_error hcollect).elim
  | ok _ g =>
    obtain ⟨hc, -⟩ := (collect_reclaimed hp hset fun w hw => (hroots w hw).noHeader).of_ok hcollect
    have hspec := allocate_of_collect hs hroots hpos hcollect
    rw [← hc.not_hasRoom_iff hset hw]
    constructor
    · rintro ⟨failure, h', hf⟩
      exact (hspec.of_error hf).2.2.2
    · intro hno
      cases ha : allocate .cons length roots h with
      | error failure h' => exact ⟨failure, h', rfl⟩
      | ok r h' =>
        rcases hspec.of_ok ha with ⟨hroom, -⟩ | ⟨-, hroom, -⟩
        · exact absurd (hc.hasRoom hset hw hp hroom) hno
        · exact absurd hroom hno

namespace Client

variable {capacity : Nat}

/-- However a client uses a heap, an allocation fails exactly when between the blocks that the
client can get at there are nowhere as many words as the block takes. Memory has run out then: a
collection has been counted, no allocation has, and what the client can get at is unchanged. -/
theorem allocate_fails_iff_runs_short (hc : 2 ≤ capacity) : ∃ h, Heap.new capacity = .ok h ∧
    ∀ c, Reachable h c → ∀ length, 1 ≤ length →
      ((∃ failure h', allocate .cons length c.roots c.heap = .error failure h') ↔
        ∀ first count, c.heap.VacantRun c.roots first count → count < length + 1) ∧
      ∀ failure h', allocate .cons length c.roots c.heap = .error failure h' →
        failure = .fault .outOfMemory ∧ h'.collections = c.heap.collections + 1 ∧
          h'.allocations = c.heap.allocations ∧
          ∀ r, c.heap.Reaches c.roots r →
            c.heap.Holds r (c.stored r) ∧ h'.Holds r (c.stored r) := by
  obtain ⟨h, hnew, hh, -⟩ := new_sound hc
  refine ⟨h, hnew, fun c hr length hpos => ?_⟩
  have hs := hr.sound hh
  refine ⟨hs.heap.allocate_fails_iff hs.roots hpos, fun failure h' hf => ?_⟩
  obtain ⟨hmemory, -, hcollected, -⟩ := (allocate_spec hs.heap hs.roots hpos).of_error hf
  exact ⟨hmemory, hcollected.collections, hcollected.allocations, fun r hr =>
    ⟨hs.holds hr, hcollected.holds hr (hs.holds hr)⟩⟩

/-- Behind the block that the client has kept there are five words, two of them in the block that it
has dropped: too few for a block of five words, but not for one of four. -/
theorem allocate_fails_iff_runs_short_of_dropped_block : ∃ h c, Heap.new 8 = .ok h ∧
    Reachable h c ∧
    c.heap.words = #[.header ⟨.cons, 2, .white⟩, .zero, .zero, .header ⟨.cons, 2, .white⟩, .zero,
      .zero, .header (.unused 1), .null] ∧
    (∀ first count, c.heap.VacantRun c.roots first count → count < 6) ∧
    ¬ (∀ first count, c.heap.VacantRun c.roots first count → count < 5) ∧
    ∃ h', allocate .cons 5 c.roots c.heap = .error (.fault .outOfMemory) h' ∧
      h'.collections = c.heap.collections + 1 ∧ h'.allocations = c.heap.allocations := by
  obtain ⟨h, hnew, hc⟩ := allocate_fails_iff_runs_short (show 2 ≤ 8 by decide)
  have hfirst : Reachable h (after ⟨h, [], fun _ => []⟩ (.allocate 2 true)) :=
    .step .start (show 1 ≤ 2 by decide)
  have hsecond := hfirst.step (show May _ (.allocate 2 false) from (by decide : 1 ≤ 2))
  have hfive : allocate .cons 5
      (after (after ⟨h, [], fun _ => []⟩ (.allocate 2 true)) (.allocate 2 false)).roots
      (after (after ⟨h, [], fun _ => []⟩ (.allocate 2 true)) (.allocate 2 false)).heap =
        .error (.fault .outOfMemory) ⟨#[.header ⟨.cons, 2, .white⟩, .zero, .zero,
          .header (.unused 4), .null, .zero, .zero, .null], ⟨4⟩, 2, 1⟩ := by
    cases hnew
    decide +kernel
  have hfour : allocate .cons 4
      (after (after ⟨h, [], fun _ => []⟩ (.allocate 2 true)) (.allocate 2 false)).roots
      (after (after ⟨h, [], fun _ => []⟩ (.allocate 2 true)) (.allocate 2 false)).heap =
        .ok ⟨4⟩ ⟨#[.header ⟨.cons, 2, .white⟩, .zero, .zero, .header ⟨.cons, 4, .white⟩, .zero,
          .zero, .zero, .zero], .null, 3, 1⟩ := by
    cases hnew
    decide +kernel
  obtain ⟨hshort, hleft⟩ := hc _ hsecond 5 (by decide)
  obtain ⟨-, hcollections, hallocations, -⟩ := hleft _ _ hfive
  refine ⟨h, _, hnew, hsecond, ?_, hshort.1 ⟨_, _, hfive⟩, fun hall => ?_, _, hfive,
    hcollections, hallocations⟩
  · cases hnew
    decide +kernel
  · obtain ⟨failure, h', hfails⟩ := (hc _ hsecond 4 (by decide)).1.2 hall
    cases hfour.symm.trans hfails

end Client

end ConsMachine.Heap
