import ConsMachine.Proofs.Heap.Carving
import ConsMachine.Proofs.Heap.Intact

/-!
# The search of a broken free list

A program can make the free list cyclic, or let it lead anywhere. In an intact heap the search for
a cell ends all the same: only the register can lead to a block that is too short, so the search
looks at two entries at most.

## Main definitions

* `Heap.Searches` — a search without a bound on the entries that it looks at.
-/

namespace ConsMachine.Heap

/-- The search from `free` on for `length` data words looks at `entries`, in this order, and ends
with `result`. A search that does not end has no result. -/
inductive Searches (h : Heap) (length : Nat) :
    Option Ref → Ref → List Ref → Except Fault (Option Fit) → Prop
  | ended {previous : Option Ref} {free : Ref} : free.isNull = true →
    Searches h length previous free [] (.ok none)
  | failed {previous : Option Ref} {free : Ref} {fault : Fault} : free.isNull = false →
    h.freeEntry free = .error fault → Searches h length previous free [free] (.error fault)
  | found {previous : Option Ref} {free next : Ref} {available : Nat} : free.isNull = false →
    h.freeEntry free = .ok (available, next) → length ≤ available →
    Searches h length previous free [free] (.ok (some ⟨previous, free, available, next⟩))
  | skipped {previous : Option Ref} {free next : Ref} {available : Nat} {entries : List Ref}
    {result : Except Fault (Option Fit)} : free.isNull = false →
    h.freeEntry free = .ok (available, next) → available < length →
    Searches h length (some free) next entries result →
    Searches h length previous free (free :: entries) result

variable {h h' : Heap} {length size budget : Nat} {previous : Option Ref} {free r : Ref}
  {entries : List Ref} {result : Except Fault (Option Fit)} {fit : Fit} {roots : List Word}

/-! ## Any search -/

/-- The bound does not matter to a search that looks at fewer entries. -/
theorem Searches.searchFrom_eq (hs : h.Searches length previous free entries result)
    (hb : entries.length ≤ budget) :
    h.searchFrom length budget previous free = result.mapError .fault := by
  induction hs generalizing budget with
  | ended hn =>
    unfold searchFrom
    rw [if_pos hn]
    rfl
  | failed hn he =>
    obtain ⟨budget, rfl⟩ : ∃ n, budget = n + 1 := Nat.exists_eq_add_of_le' hb
    rw [searchFrom]
    simp only [hn, Bool.false_eq_true, if_false, he]
    rfl
  | found hn he hle =>
    obtain ⟨budget, rfl⟩ : ∃ n, budget = n + 1 := Nat.exists_eq_add_of_le' hb
    rw [searchFrom]
    simp only [hn, Bool.false_eq_true, if_false, he, hle, if_true]
    rfl
  | skipped hn he hlt _ ih =>
    obtain ⟨budget, rfl⟩ : ∃ n, budget = n + 1 := ⟨budget - 1, by simp at hb; omega⟩
    rw [searchFrom]
    simp only [hn, Bool.false_eq_true, if_false, he, Nat.not_le.2 hlt]
    exact ih (by simpa using hb)

/-- What a search finds is an entry that is long enough, and the one before it is too short. -/
theorem Searches.found_spec (hs : h.Searches length previous free entries (.ok (some fit))) :
    fit.block.isNull = false ∧ h.freeEntry fit.block = .ok (fit.available, fit.next) ∧
      length ≤ fit.available ∧ (fit.previous = previous ∨ ∃ r available next,
        fit.previous = some r ∧ r.isNull = false ∧ h.freeEntry r = .ok (available, next) ∧
          available < length) := by
  generalize hr : Except.ok (some fit) = result at hs
  induction hs with
  | ended hn => cases hr
  | failed hn he => cases hr
  | found hn he hle =>
    cases hr
    exact ⟨hn, he, hle, .inl rfl⟩
  | @skipped _ skipped next available _ _ hn he hlt _ ih =>
    obtain ⟨hn', he', hle, heq | hbefore⟩ := ih hr
    · exact ⟨hn', he', hle, .inr ⟨skipped, available, next, heq, hn, he, hlt⟩⟩
    · exact ⟨hn', he', hle, .inr hbefore⟩

/-- The block that was found is another one than that of the entry before, as the lengths say. -/
theorem Searches.cuttable (hs : h.Searches length none free entries (.ok (some fit)))
    (hp : h.Partitioned) : h.Cuttable length fit := by
  obtain ⟨hn, he, hle, hprevious⟩ := hs.found_spec
  obtain ⟨found, hfound, -, -, hav, -⟩ := freeEntry_spec he
  refine ⟨hn, ⟨found, hfound, hav⟩, hle, fun {r} hr => ?_⟩
  rcases hprevious with hnone | ⟨s, available, next, hs', hsn, hse, hlt⟩
  · cases hr.symm.trans hnone
  · cases hr.symm.trans hs'
    obtain ⟨header, hb, -, hpos, hlen, -⟩ := freeEntry_spec hse
    have hidx := Ref.index_eq hsn
    have hend := hp.end_le hb
    refine ⟨by omega, ⟨header, hb, by omega, by omega⟩, ?_⟩
    have hne : r.headerIndex ≠ fit.block.headerIndex := fun heq => by
      rw [heq] at hb
      obtain rfl := hb.unique hfound
      omega
    have := hp.disjoint hb hfound hne
    omega

/-! ## The search for a cell -/

namespace Intact

/-- A reference that may be stored leads to an entry that is long enough, if to any. -/
theorem two_le_available {available : Nat} {next : Ref} (hi : h.Intact size)
    (hr : (Word.ref r).Within size) (hn : r.isNull = false)
    (he : h.freeEntry r = .ok (available, next)) : 2 ≤ available := by
  obtain ⟨header, hb, -, -, rfl, -⟩ := freeEntry_spec he
  cases hr with
  | ref hlt =>
    have hidx := Ref.index_eq hn
    have hcap := hi.capacity
    exact hi.partitioned.two_le_length hi.aligned hb (by omega)

theorem within_next {available : Nat} {next : Ref} (hi : h.Intact size)
    (he : h.freeEntry r = .ok (available, next)) : (Word.ref next).Within size := by
  obtain ⟨header, -, -, -, -, hlink⟩ := freeEntry_spec he
  exact hi.data hlink rfl

theorem searches_of_within (previous : Option Ref) (hi : h.Intact size)
    (hr : (Word.ref r).Within size) :
    ∃ entries result, h.Searches 2 previous r entries result ∧ entries.length ≤ 1 := by
  cases hn : r.isNull with
  | true => exact ⟨[], _, .ended hn, by simp⟩
  | false =>
    cases he : h.freeEntry r with
    | error fault => exact ⟨[r], _, .failed hn he, by simp⟩
    | ok entry =>
      exact ⟨[r], _, .found hn he (hi.two_le_available hr hn he), by simp⟩

/-- Whatever the free list is like, the search for a cell looks at two entries at most. -/
theorem searches (hi : h.Intact size) :
    ∃ entries result, h.Searches 2 none h.freeList entries result ∧ entries.length ≤ 2 := by
  cases hn : h.freeList.isNull with
  | true => exact ⟨[], _, .ended hn, by simp⟩
  | false =>
    cases he : h.freeEntry h.freeList with
    | error fault => exact ⟨[h.freeList], _, .failed hn he, by simp⟩
    | ok entry =>
      obtain ⟨available, next⟩ := entry
      by_cases hle : 2 ≤ available
      · exact ⟨[h.freeList], _, .found hn he hle, by simp⟩
      · obtain ⟨entries, result, hs, hlen⟩ :=
          searches_of_within (some h.freeList) hi (hi.within_next he)
        exact ⟨h.freeList :: entries, result, .skipped hn he (by omega) hs, by simpa using hlen⟩

theorem search_eq (hi : h.Intact size) (hs : h.Searches 2 none h.freeList entries result)
    (hlen : entries.length ≤ 2) : h.search 2 = result.mapError .fault := by
  have hcap := hi.capacity
  have htwo := hi.two_le
  exact hs.searchFrom_eq (by omega)

end Intact

/-! ## Cells from a broken free list -/

/-- What takes the place of the entry is only stored in the heap if the entry before it is too
short. That one is the last block, so this one is not. -/
theorem Searches.within_successor (hs : h.Searches 2 none free entries (.ok (some fit)))
    (hi : h.Intact size) (hprevious : fit.previous ≠ none) :
    (Word.ref (fit.successor 2)).Within size := by
  obtain ⟨hn, he, hle, hcases⟩ := hs.found_spec
  simp only [Fit.successor]
  split
  · next hrest =>
    obtain ⟨found, hfound, -, -, hav, -⟩ := freeEntry_spec he
    obtain ⟨r, available, next, hr, hrn, hre, hlt⟩ := hcases.resolve_left hprevious
    obtain ⟨header, hb, -, hpos, hlen, -⟩ := freeEntry_spec hre
    have hp := hi.partitioned
    have hend := hp.end_le hfound
    have hcap := hi.capacity
    have hlast : ¬ r.headerIndex + 3 ≤ h.capacity := fun hle' => by
      have := hp.two_le_length hi.aligned hb hle'
      omega
    have hafter : fit.after 2 = fit.block.headerIndex + 2 + 1 := rfl
    have hrest' : fit.rest 2 = fit.available - 2 := rfl
    have hbefore : fit.block.headerIndex < r.headerIndex := by
      rcases Nat.lt_trichotomy r.headerIndex fit.block.headerIndex with hbefore | heq | hafter
      · have := hp.apart hb hfound hbefore
        omega
      · omega
      · exact hafter
    have hapart := hp.apart hfound hb hbefore
    have := hb.lt
    exact .ref (by change fit.after 2 + 1 + 1 < size; omega)
  · exact hi.within_next he

theorem Carved.intact {tag : Tag} (hc : Carved tag 2 fit h h') (hcut : h.Cuttable 2 fit)
    (hi : h.Intact size) (hnext : (Word.ref fit.next).Within size)
    (hsuccessor : fit.previous ≠ none → (Word.ref (fit.successor 2)).Within size) :
    h'.Intact size where
  capacity := hc.capacity.trans hi.capacity
  two_le := hi.two_le
  partitioned := hc.partitioned hcut hi.partitioned
  aligned := by
    intro i header hb
    obtain ⟨found, hfound, -⟩ := hcut.block
    have := hi.aligned hfound
    rcases (hc.blockAt hcut hi.partitioned).1 hb with ⟨rfl, -⟩ | ⟨-, rfl, -⟩ | ⟨-, hold⟩
    · exact this
    · change (fit.block.headerIndex + 2 + 1) % 3 = 0
      omega
    · exact hi.aligned hold
  data := by
    intro j w hw hno
    have hafter : fit.after 2 = fit.block.headerIndex + 2 + 1 := rfl
    have hrest : fit.rest 2 = fit.available - 2 := rfl
    have hidx := Ref.index_eq hcut.block_ne_null
    by_cases hout : j < fit.block.headerIndex ∨ fit.block.headerIndex + fit.available < j
    · rw [hc.outside hout] at hw
      split at hw
      · next hlink =>
        cases hw
        exact hsuccessor fun hnone => by simp [hnone] at hlink
      · exact hi.data hw hno
    · rcases Nat.lt_trichotomy j (fit.after 2) with hlt | rfl | hgt
      · rcases Nat.eq_or_lt_of_le (Nat.ge_of_not_lt fun hlt => hout (.inl hlt)) with rfl | hne
        · cases hc.header.symm.trans hw
          cases hno
        · cases (hc.data (by omega) hlt).symm.trans hw
          exact .int 0
      · cases (hc.remainder (by omega)).symm.trans hw
        cases hno
      · by_cases hlink : j = fit.after 2 + 1
        · subst hlink
          cases (hc.link (by omega)).symm.trans hw
          exact hnext
        · exact hi.data ((hc.inside (by omega) (by omega)).symm.trans hw) hno

theorem tryAllocate_robust (hi : h.Intact size) :
    Robust (Intact size) (fun found => ∀ r, found = some r → (Word.ref r).Within size)
      (tryAllocate .cons 2 h) := by
  obtain ⟨entries, result, hs, hlen⟩ := hi.searches
  have hsearch := hi.search_eq hs hlen
  rcases result with fault | _ | fit
  · simp only [tryAllocate, hsearch]
    exact .reported hi
  · rw [tryAllocate_of_none .cons hsearch]
    exact .returned hi (by simp)
  · have hcut := hs.cuttable hi.partitioned
    obtain ⟨hn, he, hle, -⟩ := hs.found_spec
    obtain ⟨found, hfound, -, -, hav, -⟩ := freeEntry_spec he
    have hend := hi.partitioned.end_le hfound
    have hidx := Ref.index_eq hn
    have hcap := hi.capacity
    obtain ⟨h', ha, hcarved⟩ := tryAllocate_of_fit .cons hi.partitioned hsearch hcut
    rw [ha]
    refine .returned (hcarved.intact hcut hi (hi.within_next he)
      (hs.within_successor hi)) fun r hr => ?_
    cases hr
    exact .ref (by omega)

theorem allocated_robust (hi : h.Intact size) (hr : (Word.ref r).Within size) :
    Robust (Intact size) (fun r => (Word.ref r).Within size) (allocated r h) :=
  .returned (hi.of_words rfl) hr

theorem allocate_robust (hi : h.Intact size) (hroots : ∀ w ∈ roots, w.header? = none) :
    Robust (Intact size) (fun r => (Word.ref r).Within size) (allocate .cons 2 roots h) := by
  simp only [allocate]
  refine (tryAllocate_robust hi).bind fun found h₁ hfound hi₁ => ?_
  cases found with
  | some r => exact allocated_robust hi₁ (hfound r rfl)
  | none =>
    refine (collect_robust hi₁ hroots).bind fun _ h₂ _ hi₂ => ?_
    refine (tryAllocate_robust hi₂).bind fun found h₃ hfound hi₃ => ?_
    cases found with
    | some r => exact allocated_robust hi₃ (hfound r rfl)
    | none => exact .reported hi₃

end ConsMachine.Heap
