import ConsMachine.Proofs.Machine.Bounds

/-!
# Tail calls

A tail call copies the arguments to where they are to be, one word after the other from the lowest.
The arguments may be moved down, over the words below them, or up, when a negative number of words
is to be dropped. A move down leaves them as they were. A move up overwrites arguments that are
still to be copied, with those that have been copied already: if there are more arguments than the
number of slots that they are moved by, then so many of the lowest are repeated.

## Main definitions

* `Stack.topmost` — so many words on top.
* `Stack.origin` — which of the words that are moved comes to a place.
* `Machine.TailCalled` — what a tail call leaves.
-/

namespace ConsMachine

namespace Stack

/-- The words on top, the lowest of them first. -/
def topmost (s : Stack) (count : Nat) : List Word := s.live.drop (s.height - count)

/-- The place among the words to move of the one that comes to the place `j`. -/
def origin (source target j : Nat) : Nat :=
  if target ≤ source then j else j % (target - source)

variable {s : Stack} {limit source target count j k : Nat} {pointer : Int}

/-! ## Words on top -/

namespace Fits

theorem length_topmost (hs : s.Fits limit) (hcount : count ≤ s.height) :
    (s.topmost count).length = count := by
  rw [topmost, List.length_drop, length_live hs.le]
  omega

theorem topmost_getElem? (hs : s.Fits limit) (hcount : count ≤ s.height) (hj : j < count) :
    (s.topmost count)[j]? = s.slots[s.height - count + j]? := by
  rw [topmost, List.getElem?_drop, live_getElem? hs.le, if_pos (by omega)]

end Fits

/-! ## Words that are moved -/

theorem origin_of_le (h : target ≤ source) : origin source target j = j := if_pos h

theorem origin_of_lt (h : source < target) : origin source target j = j % (target - source) :=
  if_neg (by omega)

theorem origin_of_lt_shift (h : source + j < target) : origin source target j = j := by
  rw [origin_of_lt (by omega), Nat.mod_eq_of_lt (by omega)]

theorem origin_le : origin source target j ≤ j := by
  unfold origin
  split
  · exact Nat.le_refl _
  · exact Nat.mod_le _ _

/-- The next place gets the next word. Where that one has been overwritten by the lowest, the words
are gone through once more. -/
theorem origin_succ : origin source target (j + 1) =
    if source + 1 + origin source target j = target then 0 else origin source target j + 1 := by
  by_cases hle : target ≤ source
  · rw [origin_of_le hle, origin_of_le hle, if_neg (by omega)]
  · have hlt : source < target := Nat.not_le.1 hle
    have hmod : j % (target - source) < target - source := Nat.mod_lt _ (by omega)
    rw [origin_of_lt hlt, origin_of_lt hlt, ← Nat.mod_add_mod]
    split
    · next heq => rw [show j % (target - source) + 1 = target - source by omega, Nat.mod_self]
    · next hne => exact Nat.mod_eq_of_lt (by omega)

/-- Every place gets the word that is at its origin before anything is copied. -/
theorem getElem?_slide (hsource : source + count ≤ s.size) (htarget : target + count ≤ s.size) :
    (s.slide source target count).slots[k]? =
      if target ≤ k ∧ k < target + count then
        s.slots[source + origin source target (k - target)]?
      else s.slots[k]? := by
  induction count generalizing s source target with
  | zero =>
    rw [if_neg (by omega)]
    rfl
  | succ count ih =>
    have hword : s.slots[source]? = some (s.slots[source]?.getD .zero) := by
      have hlt : source < s.slots.size := by
        simp only [size] at hsource
        omega
      rw [Array.getElem?_eq_getElem hlt]
      rfl
    rw [slide]
    generalize s.slots[source]?.getD .zero = word at hword ⊢
    -- What the copies that follow read is the stack after the first one.
    have hfirst : ∀ k : Nat, (s.put target word).slots[k]? =
        if k = target then some word else s.slots[k]? := by
      intro k
      rw [getElem?_put]
      by_cases hk : k = target
      · rw [if_pos hk, if_pos ⟨hk.symm, by omega⟩]
      · rw [if_neg hk, if_neg fun h => hk h.1.symm]
    have hshift : origin (source + 1) (target + 1) = origin source target := by
      funext j
      simp only [origin, Nat.add_le_add_iff_right, Nat.add_sub_add_right]
    rw [ih (by rw [size_put]; omega) (by rw [size_put]; omega), hshift]
    simp only [hfirst]
    by_cases hlow : k = target
    · subst hlow
      have horigin : origin source k (k - k) = 0 := by
        rw [Nat.sub_self]
        exact Nat.le_zero.1 origin_le
      rw [if_neg (by omega), if_pos rfl, if_pos (by omega), horigin]
      exact hword.symm
    · by_cases hin : target + 1 ≤ k ∧ k < target + 1 + count
      · have hin' : target ≤ k ∧ k < target + (count + 1) := by omega
        rw [if_pos hin, if_pos hin', show k - target = k - (target + 1) + 1 by omega, origin_succ]
        split
        · exact hword.symm
        · rw [Nat.add_right_comm, Nat.add_assoc]
      · rw [if_neg hin, if_neg hlow, if_neg (by omega)]

end Stack

/-! ## Tail calls -/

namespace Machine

open Stack

variable {m t : Machine} {limit next : Nat} {count drop address : Int64} {event : Event}

/-- A tail call has lowered the stack pointer by `drop` and has moved the `count` words on top. -/
structure TailCalled (count : Nat) (drop : Int) (m t : Machine) : Prop where
  pointer : t.stack.pointer = m.stack.pointer - drop
  arguments : (m.stack.topmost count).length = count
  moved : (t.stack.topmost count).length = count
  intact : 0 ≤ drop ∨ count ≤ -drop → t.stack.topmost count = m.stack.topmost count
  repeated : drop < 0 → ∀ j < count,
    (t.stack.topmost count)[j]? = (m.stack.topmost count)[j % (-drop).toNat]?
  kept : ∀ k, k < t.stack.height - count ∨ t.stack.height ≤ k →
    t.stack.slots[k]? = m.stack.slots[k]?
  bp : t.bp = m.bp

/-- Words are moved that the stack pointer does not cut off. -/
theorem tailCalled_slide {argc : Nat} {shift target : Int} {pc : Nat} (hs : m.stack.Fits limit)
    (hargc : argc ≤ m.stack.height) (htarget : target = m.stack.pointer - shift)
    (hle : (argc : Int) ≤ target + 1) (hlt : target < limit) :
    TailCalled argc shift m { m with
      stack := (m.stack.slide (m.stack.height - argc) (target + 1 - argc).toNat argc).setPointer
        target
      pc } := by
  have hheight := hs.height
  have hsize := hs.size
  have hpointer := hs.pointer_eq
  generalize hu : (m.stack.slide (m.stack.height - argc) (target + 1 - argc).toNat
    argc).setPointer target = u
  have hslots : ∀ k, u.slots[k]? = if (target + 1 - argc).toNat ≤ k ∧
      k < (target + 1 - argc).toNat + argc then
        m.stack.slots[m.stack.height - argc +
          origin (m.stack.height - argc) (target + 1 - argc).toNat (k - (target + 1 - argc).toNat)]?
      else m.stack.slots[k]? := by
    intro k
    rw [← hu]
    exact getElem?_slide (by omega) (by omega)
  have hraised : (u.height : Int) = target + 1 := hu ▸ height_setPointer (by omega)
  have hfits : u.Fits limit := ⟨hu ▸ size_slide.trans hsize, hu ▸ ⟨by simp; omega, by simp; omega⟩⟩
  have hplace : u.height - argc = (target + 1 - argc).toNat := by omega
  have hmoved : ∀ j < argc, (u.topmost argc)[j]? = (m.stack.topmost argc)[
      origin (m.stack.height - argc) (target + 1 - argc).toNat j]? := by
    intro j hj
    have horigin : origin (m.stack.height - argc) (target + 1 - argc).toNat j < argc :=
      Nat.lt_of_le_of_lt origin_le hj
    rw [hfits.topmost_getElem? (by omega) hj, hs.topmost_getElem? hargc horigin, hplace, hslots,
      if_pos (by omega), Nat.add_sub_cancel_left]
  have hlength := hfits.length_topmost (show argc ≤ u.height by omega)
  refine ⟨?_, hs.length_topmost hargc, hlength, fun hsafe => ?_, fun hneg j hj => ?_,
    fun k hk => ?_, rfl⟩
  · exact htarget ▸ hu ▸ rfl
  · -- Every place gets its own word: none is overwritten before it is copied.
    change u.topmost argc = m.stack.topmost argc
    apply List.ext_getElem?
    intro j
    by_cases hj : j < argc
    · rw [hmoved j hj]
      rcases hsafe with hdown | hfar
      · rw [origin_of_le (by omega)]
      · rw [origin_of_lt_shift (by omega)]
    · have hout := hs.length_topmost hargc
      rw [List.getElem?_eq_none (by omega), List.getElem?_eq_none (by omega)]
  · rw [hmoved j hj, origin_of_lt (by omega)]
    congr 2
    omega
  · exact (hslots k).trans (if_neg (by simp only [] at hk; omega))

theorem tailCall_spec (hs : m.stack.Fits limit) (hlimit : limit < 2 ^ 60)
    (hcall : tailCall count drop address m = .ok () t) :
    ∃ argc : Nat, argc = count.toInt ∧ TailCalled argc drop.toInt m t := by
  obtain ⟨argc, target, pc, hargc, htarget, -, hle, rfl⟩ :=
    tailCall_eq_ok hs.bounded hcall
  obtain ⟨hcount, hheight⟩ := hs.argumentCount_eq_ok.1 hargc
  rw [hs.moved_negateClamped hlimit, settle_eq_ok, hs.size] at htarget
  obtain ⟨rfl, hlow, hhigh⟩ := htarget
  exact ⟨argc, hcount, tailCalled_slide hs hheight rfl hle hhigh⟩

end Machine

namespace Session

open Machine

/-- Whatever the program is, and however far it has run, a tail call that succeeds moves the
arguments by the number of words that it drops, in either direction, and changes no other slot. -/
theorem tail_call_of_any_run (code arguments : List Int64) {heapSize stackSize : Nat}
    (hsize : 2 ≤ heapSize) (hslots : stackSize < 2 ^ 60) :
    ∃ m, Machine.new code arguments heapSize stackSize = .ok m ∧
      ∀ traced sink n count drop address next result t,
        Instruction.decode (after^[n] ⟨m, traced, sink⟩).machine.code
            (after^[n] ⟨m, traced, sink⟩).machine.pc =
          .ok (⟨.tcall, [count, drop, address]⟩, next) →
        step (after^[n] ⟨m, traced, sink⟩) = .ok result t →
        ∃ argc : Nat, argc = count.toInt ∧
          TailCalled argc drop.toInt (after^[n] ⟨m, traced, sink⟩).machine t.machine := by
  obtain ⟨m, hnew, hm⟩ := new_intact code arguments stackSize hsize
  refine ⟨m, hnew, fun traced sink n count drop address next result t hdecode hstep => ?_⟩
  have hs := (iterate_intact (s := ⟨m, traced, sink⟩) n hm).stack
  generalize after^[n] ⟨m, traced, sink⟩ = s at hs hdecode hstep
  obtain ⟨i, next', event, hdecode', hexecute⟩ := step_eq_ok hstep
  cases hdecode.symm.trans hdecode'
  have hcall : tailCall count drop address (s.machine.fetched next) = .ok () t.machine :=
    (silently_eq_ok.1 hexecute).2
  have hfits : (s.machine.fetched next).stack.Fits stackSize := ⟨hs.size, hs.bounded⟩
  obtain ⟨argc, hargc, hcalled⟩ := tailCall_spec hfits hslots hcall
  exact ⟨argc, hargc, ⟨hcalled.pointer, hcalled.arguments, hcalled.moved, hcalled.intact,
    hcalled.repeated, hcalled.kept, hcalled.bp⟩⟩

/-- Three arguments that are moved up by two slots: the lowest is repeated in the place of the
third. -/
theorem tail_call_of_two_more : ∃ m,
    Machine.new [0, 7, 0, 8, 0, 9, 20, 3, -2, 0] [] 2 6 = .ok m ∧ ∃ result t,
      step (after^[3] ⟨m, false, .unlimited⟩) = .ok result t ∧
      TailCalled 3 (-2) (after^[3] ⟨m, false, .unlimited⟩).machine t.machine ∧
      t.machine.stack = ⟨#[.int 7, .int 8, .int 7, .int 8, .int 7, .zero], 4⟩ := by
  obtain ⟨m, hm, h⟩ := tail_call_of_any_run [0, 7, 0, 8, 0, 9, 20, 3, -2, 0] []
    (show 2 ≤ 2 by decide) (show 6 < 2 ^ 60 by decide)
  have hdecode : Instruction.decode (after^[3] ⟨m, false, .unlimited⟩).machine.code
      (after^[3] ⟨m, false, .unlimited⟩).machine.pc = .ok (⟨.tcall, [3, -2, 0]⟩, 10) := by
    cases hm
    decide +kernel
  have hends : Outcome
      (fun _ t => t.machine.stack = ⟨#[.int 7, .int 8, .int 7, .int 8, .int 7, .zero], 4⟩)
      (fun _ _ => False) (step (after^[3] ⟨m, false, .unlimited⟩)) := by
    cases hm
    decide +kernel
  cases hstep : step (after^[3] ⟨m, false, .unlimited⟩) with
  | error failure t => exact (hends.of_error hstep).elim
  | ok result t =>
    obtain ⟨argc, hargc, hcalled⟩ := h false .unlimited 3 3 (-2) 0 10 result t hdecode hstep
    obtain rfl : argc = 3 := Int.ofNat_inj.1 hargc
    exact ⟨m, hm, result, t, hstep, hcalled, hends.of_ok hstep⟩

end Session

end ConsMachine
