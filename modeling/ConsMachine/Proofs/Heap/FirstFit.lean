import ConsMachine.Heap.Allocation
import ConsMachine.Proofs.Heap.FreeList
import ConsMachine.Proofs.Outcome

/-!
# First fit

The search ends, and it finds the first entry of the free list that is long enough if there is one.

## Main definitions

* `Heap.Short` — an entry has too few data words.
* `Heap.FirstFit` — where the first entry that is long enough stands on the list.
-/

namespace ConsMachine

namespace Heap

/-- The block that `r` leads to has fewer than `length` data words. -/
def Short (h : Heap) (length : Nat) (r : Ref) : Prop :=
  ∃ header, h.BlockAt r.headerIndex header ∧ header.length < length

/-- The free list is `front`, the entry `fit` and `back`, and `fit` is the first of them that has
`length` data words. -/
structure FirstFit (h : Heap) (length : Nat) (fit : Fit) (front back : List Ref) : Prop where
  threaded : h.Threaded (front ++ fit.block :: back)
  previous : fit.previous = front.getLast?
  link : h.words[fit.block.index]? = some (.ref fit.next)
  block : ∃ header, h.BlockAt fit.block.headerIndex header ∧ header.isFree = true ∧
    header.length = fit.available
  fits : length ≤ fit.available
  first : ∀ r ∈ front, h.Short length r

variable {h : Heap} {length : Nat} {fit : Fit} {front back entries : List Ref} {header : Header}
  {r : Ref}

/-! ## The search -/

theorem freeEntry_eq_ok {next : Ref} (hb : h.BlockAt r.headerIndex header)
    (hf : header.isFree = true) (hlen : 0 < header.length)
    (hlink : h.words[r.index]? = some (.ref next)) :
    h.freeEntry r = .ok (header.length, next) := by
  have hne : (header.length != 0) = true := by simp; omega
  simp only [freeEntry, headerAt_eq_ok.2 hb, hf, hne, Bool.and_self, if_true, link_eq_ok.2 hlink]

/-- What the search has made sure of when it has read an entry. -/
theorem freeEntry_spec {available : Nat} {next : Ref}
    (he : h.freeEntry r = .ok (available, next)) :
    ∃ header, h.BlockAt r.headerIndex header ∧ header.isFree = true ∧ 0 < header.length ∧
      header.length = available ∧ h.words[r.index]? = some (.ref next) := by
  simp only [freeEntry] at he
  split at he
  · cases he
  · next header hh =>
    split at he
    · next hfit =>
      simp only [Bool.and_eq_true, bne_iff_ne] at hfit
      split at he
      · cases he
      · next hlink =>
        cases he
        exact ⟨header, headerAt_eq_ok.1 hh, hfit.1, by omega, rfl, link_eq_ok.1 hlink⟩
    · cases he

theorem searchFrom_spec {rest : List Ref} {free : Ref} {budget : Nat}
    (ht : h.Threaded (front ++ rest)) (hl : h.Links free rest .null)
    (hshort : ∀ r ∈ front, h.Short length r) (hbudget : rest.length ≤ budget) :
    (h.searchFrom length budget front.getLast? free = .ok none ∧
        ∀ r ∈ front ++ rest, h.Short length r) ∨
      ∃ fit front' back, h.searchFrom length budget front.getLast? free = .ok (some fit) ∧
        front ++ rest = front' ++ fit.block :: back ∧ h.FirstFit length fit front' back := by
  induction rest generalizing front free budget with
  | nil =>
    have hn : free.isNull = true := Ref.isNull_iff.2 hl
    refine .inl ⟨?_, by simpa using hshort⟩
    unfold searchFrom
    rw [if_pos hn]
  | cons r rest ih =>
    obtain ⟨rfl, hn, next, hlink, hrest⟩ := hl
    obtain ⟨header, hb, hf, hlen⟩ := ht.free free (by simp)
    obtain ⟨budget, rfl⟩ : ∃ n, budget = n + 1 := ⟨budget - 1, by simp at hbudget; omega⟩
    rw [searchFrom]
    simp only [hn, Bool.false_eq_true, if_false, freeEntry_eq_ok hb hf hlen hlink]
    by_cases hle : length ≤ header.length
    · simp only [hle, if_true]
      refine .inr ⟨_, front, rest, rfl, rfl, ht, rfl, hlink, ⟨header, hb, hf, rfl⟩, hle, hshort⟩
    · simp only [hle, if_false]
      have hassoc : front ++ free :: rest = (front ++ [free]) ++ rest := by simp
      have hlast : (front ++ [free]).getLast? = some free := by simp
      rw [hassoc] at ht ⊢
      rw [← hlast]
      refine ih ht hrest (fun s hs => ?_) (by simpa using hbudget)
      rcases List.mem_append.1 hs with hs | hs
      · exact hshort s hs
      · obtain rfl := List.mem_singleton.1 hs
        exact ⟨header, hb, by omega⟩

/-- The search ends, and finds nothing only if there is nothing to find. -/
theorem search_spec (length : Nat) (hp : h.Partitioned) (ht : h.Threaded entries) :
    (h.search length = .ok none ∧ ∀ r ∈ entries, h.Short length r) ∨
      ∃ fit front back, h.search length = .ok (some fit) ∧
        entries = front ++ fit.block :: back ∧ h.FirstFit length fit front back := by
  have hnone : ∀ r ∈ ([] : List Ref), h.Short length r := by simp
  have := searchFrom_spec ht ht.links hnone (ht.length_le hp)
  simpa [search] using this

/-! ## The other entries -/

namespace FirstFit

theorem block_ne_null (hf : h.FirstFit length fit front back) : fit.block.isNull = false :=
  hf.threaded.ne_null (by simp)

theorem nodup (hf : h.FirstFit length fit front back) :
    front.Nodup ∧ back.Nodup ∧ fit.block ∉ front ∧ fit.block ∉ back ∧
      ∀ r ∈ front, r ∉ back := by
  obtain ⟨hfront, hrest, hdisjoint⟩ := List.nodup_append.1 hf.threaded.nodup
  obtain ⟨hnot, hback⟩ := List.nodup_cons.1 hrest
  exact ⟨hfront, hback, fun hmem => hdisjoint _ hmem _ List.mem_cons_self rfl, hnot,
    fun r hr hmem => hdisjoint _ hr _ (List.mem_cons_of_mem _ hmem) rfl⟩

/-- The other entries of the list are blocks of their own. -/
theorem entry_apart (hf : h.FirstFit length fit front back) (hp : h.Partitioned)
    (hr : r ∈ front ∨ r ∈ back) : r.index < h.capacity ∧
      (∃ header, h.BlockAt r.headerIndex header ∧ r.headerIndex < r.index ∧
        r.index ≤ r.headerIndex + header.length) ∧
      (r.index < fit.block.headerIndex ∨ fit.block.headerIndex + fit.available < r.index) := by
  obtain ⟨-, -, hfront, hback, -⟩ := hf.nodup
  have hne : r ≠ fit.block := by
    rintro rfl
    exact hr.elim hfront hback
  have hmem : r ∈ front ++ fit.block :: back := by
    rw [List.mem_append, List.mem_cons]
    exact hr.imp_right .inr
  have hnull := hf.threaded.ne_null hmem
  obtain ⟨header, hb, _, hlen⟩ := hf.threaded.free r hmem
  obtain ⟨found, hfound, _, hav⟩ := hf.block
  have hidx := Ref.index_eq hnull
  have hend := hp.end_le hb
  refine ⟨by omega, ⟨header, hb, by omega, by omega⟩, ?_⟩
  have := hp.disjoint hb hfound fun heq => hne (Ref.headerIndex_inj hnull hf.block_ne_null heq)
  omega

theorem previous_mem (hf : h.FirstFit length fit front back) (hr : fit.previous = some r) :
    r ∈ front :=
  List.mem_of_getLast? (hf.previous.symm.trans hr)

theorem previous_apart (hf : h.FirstFit length fit front back) (hp : h.Partitioned)
    (hr : fit.previous = some r) : r.index < h.capacity ∧
      (∃ header, h.BlockAt r.headerIndex header ∧ r.headerIndex < r.index ∧
        r.index ≤ r.headerIndex + header.length) ∧
      (r.index < fit.block.headerIndex ∨ fit.block.headerIndex + fit.available < r.index) :=
  hf.entry_apart hp (.inl (hf.previous_mem hr))

end FirstFit

end Heap

end ConsMachine
