import ConsMachine.Proofs.Machine.Program
import ConsMachine.Proofs.Machine.Stores

/-!
# Returning from a call

A call saves the address after it and the base pointer in the two slots below its arguments.
Whatever is executed in between, calls and tail calls included, as long as nothing is stored in
these slots or below them, a return that finds them takes the machine back: it continues after the
call, with the base pointer and the words that the caller has left below the arguments, and with
the result on top.

## Main definitions

* `Stack.Frame` — what a call has saved, and the words below.
* `Machine.Returned` — what a return leaves for the caller.
-/

namespace ConsMachine

namespace Stack

/-- In the slots `base` and `base + 1` the address `next` and the base pointer `bp` are saved, and
the slots below hold the words of `caller`. -/
structure Frame (base next : Nat) (bp : Int64) (caller s : Stack) : Prop where
  address : s.slots[base]? = some (.int (Int64.ofNat next))
  bp : s.slots[base + 1]? = some (.int bp)
  below : ∀ k < base, s.slots[k]? = caller.slots[k]?

theorem Frame.congr {base next : Nat} {bp : Int64} {caller s t : Stack}
    (h : Frame base next bp caller s) (hkept : ∀ k ≤ base + 1, t.slots[k]? = s.slots[k]?) :
    Frame base next bp caller t where
  address := (hkept base (Nat.le_succ base)).trans h.address
  bp := (hkept (base + 1) (Nat.le_refl _)).trans h.bp
  below k hk := (hkept k (by omega)).trans (h.below k hk)

end Stack

namespace Machine

open Stack

variable {m t : Machine} {limit base next : Nat} {count address locals : Int64}

/-- The address after a call is an integer of 64 bits, and not negative. -/
theorem codeAddress_ofNat (hnext : next < 2 ^ 63) :
    codeAddress (Int64.ofNat next) = .ok next := by
  have hint : (Int64.ofNat next).toInt = next := Int64.toInt_ofNat_of_lt hnext
  have hclamp : (Int64.ofNat next).toNatClampNeg = (Int64.ofNat next).toInt.toNat := rfl
  have hnonneg : 0 ≤ Int64.ofNat next := by
    rw [Int64.le_iff_toInt_le, hint, Int64.toInt_zero]
    exact Int.natCast_nonneg next
  rw [codeAddress, if_pos hnonneg, hclamp, hint, Int.toNat_natCast]

/-! ## The call -/

/-- A call saves what the return needs below the arguments, of which there may be none. -/
theorem frame_of_call (hs : m.stack.Fits limit) (hlimit : limit < 2 ^ 60)
    (hcall : call count address next m = .ok () t) :
    ∃ base : Nat, (base : Int) = m.stack.pointer - count.toInt + 1 ∧
      Frame base next m.bp m.stack t.stack := by
  obtain ⟨argc, target, pc, hargc, htarget, -, rfl⟩ := call_eq_ok hcall
  obtain ⟨hcount, hheight⟩ := hs.argumentCount_eq_ok.1 hargc
  have hpointer := hs.pointer_eq
  obtain ⟨rfl, -, hroom⟩ := (hs.moved_eq_ok (by omega)).1 htarget
  have htwo : (2 : Int64).toInt = 2 := rfl
  have hsize := hs.size
  rw [htwo] at hroom
  refine ⟨m.stack.height - argc, by omega, ⟨?_, ?_, fun k hk => ?_⟩⟩
  · refine getElem?_store.trans ((if_pos (by simp; omega)).trans ?_)
    rw [Nat.sub_self]
    rfl
  · refine getElem?_store.trans ((if_pos (by simp; omega)).trans ?_)
    rw [Nat.add_sub_cancel_left]
    rfl
  · exact getElem?_store.trans (if_neg (by omega))

/-! ## The return -/

/-- The call that has taken `argc` arguments off the stack of `m` and goes on at `next` has
returned from the state `s` to `t`. -/
structure Returned (argc : Int) (next : Nat) (m s t : Machine) : Prop where
  pc : t.pc = next
  bp : t.bp = m.bp
  pointer : t.stack.pointer = m.stack.pointer - argc + 1
  result : ∃ word, s.stack.top = .ok word ∧ t.stack.top = .ok word
  below : ∀ k : Nat, k ≤ m.stack.pointer - argc → t.stack.slots[k]? = m.stack.slots[k]?

/-- A return that drops the words down to the arguments of a frame finds what has been saved in it.
-/
theorem returned_of_frame {s : Machine} {argc : Int} (hs : s.stack.Fits limit)
    (hlimit : limit < 2 ^ 60) (hnext : next < 2 ^ 63)
    (hbase : (base : Int) = m.stack.pointer - argc + 1)
    (hframe : Frame base next m.bp m.stack s.stack)
    (hdrop : s.stack.pointer - locals.toInt = base + 2) (hret : ret locals s = .ok () t) :
    Returned argc next m s t := by
  obtain ⟨word, frame, bp, saved, pc, hword, hmoved, hbp, hsaved, hpc, rfl⟩ := ret_eq_ok hret
  rw [hs.moved_negateClamped hlimit, settle_eq_ok, hdrop] at hmoved
  obtain ⟨rfl, -, hroom⟩ := hmoved
  have hplace : ((base : Int) + 2 - 1).toNat = base + 1 := by omega
  have hplace' : ((base : Int) + 2 - 2).toNat = base := by omega
  have hbp := (get_eq_ok.1 hbp).2
  have hsaved := (get_eq_ok.1 hsaved).2
  rw [hplace] at hbp
  rw [hplace'] at hsaved ⊢
  cases hframe.bp.symm.trans hbp
  cases hframe.address.symm.trans hsaved
  cases (codeAddress_ofNat hnext).symm.trans hpc
  refine ⟨rfl, rfl, ?_, ⟨word, hword, ?_⟩, fun k hk => ?_⟩
  · exact pointer_setPointer.trans (by omega)
  · refine get_eq_ok.2 ?_
    rw [pointer_setPointer, hplace']
    refine ⟨by omega, getElem?_store.trans ((if_pos ?_).trans ?_)⟩
    · simp only [List.length_singleton]
      omega
    · rw [Nat.sub_self]
      rfl
  · exact (getElem?_store.trans (if_neg (by omega))).trans (hframe.below k (by omega))

end Machine

namespace Session

open Machine

variable {heapSize stackSize base next : Nat} {s t : Session} {bp : Int64} {caller : Stack}

/-! ## From the call to the return -/

theorem frame_of_step {count address : Int64} {called : Option Word}
    (hs : s.machine.Intact heapSize stackSize) (hslots : stackSize < 2 ^ 60)
    (hdecode : Instruction.decode s.machine.code s.machine.pc =
      .ok (⟨.call, [count, address]⟩, next)) (hstep : step s = .ok called t) :
    ∃ base : Nat, (base : Int) = s.machine.stack.pointer - count.toInt + 1 ∧
      Stack.Frame base next s.machine.bp s.machine.stack t.machine.stack := by
  obtain ⟨i, next', event, hi, hcall⟩ := step_eq_ok hstep
  cases hdecode.symm.trans hi
  have hfits : (s.machine.fetched next).stack.Fits stackSize := ⟨hs.stack.size, hs.stack.bounded⟩
  exact frame_of_call (m := s.machine.fetched next) hfits hslots (silently_eq_ok.1 hcall).2

/-- A frame stays as it is while nothing is stored in it or below. -/
theorem frame_of_iterate {l : Nat} (hs : s.machine.Intact heapSize stackSize)
    (havoids : ∀ j < l, ∀ k ∈ (after^[j] s).stored, base + 1 < k)
    (hframe : Stack.Frame base next bp caller s.machine.stack) :
    Stack.Frame base next bp caller (after^[l] s).machine.stack :=
  hframe.congr fun _ hk => iterate_stores hs havoids hk

theorem returned_of_step {m : Machine} {locals : Int64} {argc : Int} {behind : Nat}
    {returned : Option Word} (hs : s.machine.Intact heapSize stackSize) (hslots : stackSize < 2 ^ 60)
    (hnext : next < 2 ^ 63) (hbase : (base : Int) = m.stack.pointer - argc + 1)
    (hframe : Stack.Frame base next m.bp m.stack s.machine.stack)
    (hdecode : Instruction.decode s.machine.code s.machine.pc = .ok (⟨.ret, [locals]⟩, behind))
    (hdrop : s.machine.stack.pointer - locals.toInt = base + 2)
    (hstep : step s = .ok returned t) : Returned argc next m s.machine t.machine := by
  obtain ⟨i, behind', event, hi, hret⟩ := step_eq_ok hstep
  cases hdecode.symm.trans hi
  have hfits : (s.machine.fetched behind).stack.Fits stackSize := ⟨hs.stack.size, hs.stack.bounded⟩
  have hreturned := returned_of_frame hfits hslots hnext hbase hframe hdrop
    (silently_eq_ok.1 hret).2
  exact ⟨hreturned.pc, hreturned.bp, hreturned.pointer, hreturned.result, hreturned.below⟩

/-- Whatever the program is, and however far it has run, a call returns to where it was made from:
any number of steps after it that store nothing up to the slot of the saved base pointer, the
return that drops the words above that slot and its arguments continues after the call. -/
theorem call_returns_of_any_run (code arguments : List Int64) {heapSize stackSize : Nat}
    (hsize : 2 ≤ heapSize) (hslots : stackSize < 2 ^ 60) (hcode : code.length < 2 ^ 63) :
    ∃ m, Machine.new code arguments heapSize stackSize = .ok m ∧
      ∀ traced sink n count address next called t, let s := after^[n] ⟨m, traced, sink⟩
        Instruction.decode s.machine.code s.machine.pc = .ok (⟨.call, [count, address]⟩, next) →
        step s = .ok called t →
        ∀ l locals behind returned u, let saved := s.machine.stack.pointer - count.toInt + 2
          (∀ j < l, ∀ k ∈ (after^[j] t).stored, saved < k) →
          Instruction.decode (after^[l] t).machine.code (after^[l] t).machine.pc =
            .ok (⟨.ret, [locals]⟩, behind) →
          step (after^[l] t) = .ok returned u →
          (after^[l] t).machine.stack.pointer - locals.toInt = saved + 1 →
          Returned count.toInt next s.machine (after^[l] t).machine u.machine := by
  obtain ⟨m, hnew, hm⟩ := new_intact code arguments stackSize hsize
  refine ⟨m, hnew, fun traced sink n count address next called t => ?_⟩
  intro s hdecode hstep l locals behind returned u saved havoids hdecode' hstep' hdrop
  have hs : s.machine.Intact heapSize stackSize := iterate_intact n hm
  have hnext : next < 2 ^ 63 := by
    have hprogram : s.machine.program = (code.toArray, arguments) :=
      (iterate_program n).trans (program_of_new hnew)
    have hlength : s.machine.code.size = code.length :=
      congrArg (fun program => program.1.size) hprogram
    have hle := (Instruction.lt_of_decode hdecode).2
    omega
  have ht : t.machine.Intact heapSize stackSize := by
    have hafter : s.after = t := by rw [Session.after, hstep]
    exact hafter ▸ after_intact hs
  obtain ⟨base, hbase, hframe⟩ := frame_of_step hs hslots hdecode hstep
  have havoids' : ∀ j < l, ∀ k ∈ (after^[j] t).stored, base + 1 < k := by
    intro j hj k hk
    have hlt : saved < k := havoids j hj k hk
    omega
  have hdrop' : (after^[l] t).machine.stack.pointer - locals.toInt = base + 2 := by omega
  exact returned_of_step (iterate_intact l ht) hslots hnext hbase
    (frame_of_iterate ht havoids' hframe) hdecode' hdrop' hstep'

/-- A function that makes a cell, calls itself in the place of its own frame and then another one,
before it returns. -/
theorem call_returns_of_nested_calls : ∃ m,
    Machine.new [24, 19, 1, 5, 25, 13, 11, 17, 18, 26, 9, 27, 0, 0, 20, 1, 2, 5, 13, 19, 1, 24,
      21, 1, 21, 0] [2] 4 10 = .ok m ∧
    ∃ called t returned u, step (after^[1] ⟨m, false, .unlimited⟩) = .ok called t ∧
      step (after^[14] t) = .ok returned u ∧
      Returned 1 4 (after^[1] ⟨m, false, .unlimited⟩).machine (after^[14] t).machine u.machine ∧
      u.machine.bp = -999 ∧ u.machine.stack.live = [.int 2] ∧ u.machine.heap.allocations = 1 := by
  obtain ⟨m, hm, h⟩ := call_returns_of_any_run [24, 19, 1, 5, 25, 13, 11, 17, 18, 26, 9, 27, 0, 0,
    20, 1, 2, 5, 13, 19, 1, 24, 21, 1, 21, 0] [2]
    (show 2 ≤ 4 by decide) (show 10 < 2 ^ 60 by decide) (by decide)
  have hcalls : Outcome (fun _ _ => True) (fun _ _ => False)
      (step (after^[1] ⟨m, false, .unlimited⟩)) := by
    cases hm
    decide +kernel
  cases hstep : step (after^[1] ⟨m, false, .unlimited⟩) with
  | error failure t => exact (hcalls.of_error hstep).elim
  | ok called t =>
    obtain rfl : (after^[1] ⟨m, false, .unlimited⟩).after = t := by rw [Session.after, hstep]
    have hreturns : Outcome (fun _ u => u.machine.bp = -999 ∧ u.machine.stack.live = [.int 2] ∧
        u.machine.heap.allocations = 1) (fun _ _ => False)
        (step (after^[14] (after^[1] ⟨m, false, .unlimited⟩).after)) := by
      cases hm
      decide +kernel
    cases hstep' : step (after^[14] (after^[1] ⟨m, false, .unlimited⟩).after) with
    | error failure u => exact (hreturns.of_error hstep').elim
    | ok returned u =>
      have hreturned := h false .unlimited 1 1 5 4 called _ (by cases hm; decide +kernel) hstep
        14 1 24 returned u (by cases hm; decide +kernel) (by cases hm; decide +kernel) hstep'
        (by cases hm; decide +kernel)
      exact ⟨m, hm, called, _, returned, u, hstep, hstep', hreturned, hreturns.of_ok hstep'⟩

end Session

end ConsMachine
