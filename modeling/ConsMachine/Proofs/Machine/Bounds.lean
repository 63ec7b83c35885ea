import ConsMachine.Proofs.Machine.Control
import Mathlib.Algebra.Group.Int.Defs

/-!
# Bounds of the stack pointer

The stack pointer is moved by any 64-bit integer or by the opposite of one. What comes out is what
integers without bounds give: the sum may overflow and the lowest integer has no opposite, but then
the pointer would be far outside the stack, on the side that the fault says.

## Main definitions

* `Stack.settle` — where the stack pointer may come to rest.
* `Stack.counted` — how many arguments there may be.
* `Machine.Checked` — an instruction goes by a check of the stack pointer.
* `Machine.ChecksExactly` — what the checks of an operand give, and that the instructions go by them.
-/

namespace ConsMachine

namespace Stack

/-- The stack pointer may come to rest at -1 or at a slot. -/
def settle (s : Stack) (target : Int) : Except Fault Int :=
  if target < -1 then .error .stackUnderflow
  else if s.size ≤ target then .error (.stackOverflow s.size)
  else .ok target

/-- There may be as many arguments as there are words, and no fewer than none. -/
def counted (s : Stack) (count : Int) : Except Fault Nat :=
  if 0 ≤ count ∧ count ≤ s.pointer + 1 then .ok count.toNat else .error .stackUnderflow

variable {s : Stack} {limit : Nat} {shift : Int64} {target : Int}

theorem settle_eq_overflow (h : s.size ≤ target) :
    s.settle target = .error (.stackOverflow s.size) := by
  rw [settle, if_neg (by omega), if_pos h]

theorem settle_eq_ok {pointer : Int} :
    s.settle target = .ok pointer ↔ pointer = target ∧ -1 ≤ target ∧ target < s.size := by
  unfold settle
  split
  · simp only [reduceCtorEq, false_iff]
    omega
  · split
    · simp only [reduceCtorEq, false_iff]
      omega
    · simp only [Except.ok.injEq]
      omega

/-- A sum that does not exist is outside the range of 64-bit integers. -/
theorem addExact?_eq_none {a : Int} {b : Int64} (h : addExact? a b = none) :
    a + b.toInt < -2 ^ 63 ∨ 2 ^ 63 ≤ a + b.toInt := by
  by_contra hin
  cases h.symm.trans (addExact?_eq_some.2 ⟨rfl, by omega, by omega⟩)

theorem Fits.moved_eq_settle (hs : s.Fits limit) (hlimit : limit < 2 ^ 60) :
    s.moved shift = s.settle (s.pointer + shift.toInt) := by
  have hsize := hs.size
  have hlower := hs.bounded.lower
  have hupper := hs.bounded.upper
  simp only [moved, settle]
  cases hsum : addExact? s.pointer shift with
  | some target =>
    obtain ⟨rfl, -⟩ := addExact?_eq_some.1 hsum
    have hhigh : 0 ≤ s.pointer + shift.toInt ∧ s.size ≤ (s.pointer + shift.toInt).toNat ↔
        s.size ≤ s.pointer + shift.toInt := by omega
    simp only [hhigh]
  | none =>
    have hout := addExact?_eq_none hsum
    have hzero : shift < 0 ↔ shift.toInt < 0 := Int64.lt_iff_toInt_lt
    by_cases hneg : shift < 0
    · rw [if_pos hneg, if_pos (by rw [hzero] at hneg; omega)]
    · rw [if_neg hneg]
      rw [hzero] at hneg
      rw [if_neg (by omega), if_pos (by omega)]

/-- The opposite that is missing would be one higher than the highest integer. -/
theorem toInt_negateClamped_cases (shift : Int64) :
    (negateClamped shift).toInt = -shift.toInt ∨
      shift.toInt = -2 ^ 63 ∧ (negateClamped shift).toInt = 2 ^ 63 - 1 := by
  unfold negateClamped
  split
  · next hmin =>
    subst hmin
    exact .inr ⟨rfl, rfl⟩
  · next hmin =>
    have hne : shift.toInt ≠ -2 ^ 63 := fun h => hmin (Int64.toInt_inj.1 h)
    have hle := shift.le_toInt
    have hlt := shift.toInt_lt
    rw [Int64.toInt_neg]
    exact .inl (Int.bmod_eq_of_le (by omega) (by omega))

theorem Fits.moved_negateClamped (hs : s.Fits limit) (hlimit : limit < 2 ^ 60) :
    s.moved (negateClamped shift) = s.settle (s.pointer - shift.toInt) := by
  have hsize := hs.size
  have hlower := hs.bounded.lower
  have hupper := hs.bounded.upper
  rw [hs.moved_eq_settle hlimit]
  rcases toInt_negateClamped_cases shift with hexact | ⟨hmin, hmax⟩
  · rw [hexact]
    rfl
  · -- Whether one slot more or less, the stack is left far behind.
    rw [hmin, hmax, settle_eq_overflow, settle_eq_overflow] <;> omega

theorem argumentCount_eq_counted : s.argumentCount shift = s.counted shift.toInt := by
  unfold argumentCount counted
  simp only [nonneg_iff]
  rfl

end Stack

namespace Machine

variable {m : Machine} {limit : Nat} {operand : Int64}

/-- A fault of the check is the fault of the instruction, which has then done nothing. If the
instruction is executed, it leaves the stack pointer `below` slots lower than the check says. -/
def Checked (m : Machine) (check : Except Fault Int) (below : Int)
    (result : EStateM.Result Failure Machine Event) : Prop :=
  (∀ fault, check = .error fault → result = .error (.fault fault) m) ∧
    ∀ event t, result = .ok event t → check = .ok (t.stack.pointer + below)

/-- The checks of an operand are those of integers without bounds, and the instructions go by them:
the stack is raised by so many slots, lowered by so many, or has so many arguments on top. -/
structure ChecksExactly (m : Machine) (operand : Int64) (next : Nat) : Prop where
  raised : m.stack.moved operand = m.stack.settle (m.stack.pointer + operand.toInt)
  lowered : m.stack.moved (Stack.negateClamped operand) =
    m.stack.settle (m.stack.pointer - operand.toInt)
  counted : m.stack.argumentCount operand = m.stack.counted operand.toInt
  incsp : m.Checked (m.stack.settle (m.stack.pointer + operand.toInt)) 0
    (execute ⟨.incsp, [operand]⟩ next m)
  incsp_executed : ∀ target, m.stack.settle (m.stack.pointer + operand.toInt) = .ok target →
    ∃ t, execute ⟨.incsp, [operand]⟩ next m = .ok .silent t
  tcall : ∀ count address argc, m.stack.counted count.toInt = .ok argc →
    m.Checked (m.stack.settle (m.stack.pointer - operand.toInt)) 0
      (execute ⟨.tcall, [count, operand, address]⟩ next m)
  ret : ∀ result, m.stack.top = .ok result →
    m.Checked (m.stack.settle (m.stack.pointer - operand.toInt)) 2
      (execute ⟨.ret, [operand]⟩ next m)
  uncounted : ∀ fault, m.stack.counted operand.toInt = .error fault →
    (∀ address, execute ⟨.call, [operand, address]⟩ next m = .error (.fault fault) m) ∧
      ∀ drop address, execute ⟨.tcall, [operand, drop, address]⟩ next m = .error (.fault fault) m

/-- Moving the stack pointer is all that `INCSP` may fail in. -/
theorem reserve_eq_of_moved (shift : Int64) (hm : m.stack.Bounded) : reserve shift m =
    match m.stack.moved shift with
    | .error fault => .error (.fault fault) m
    | .ok target => .ok () { m with
        stack := (m.stack.store m.stack.height
          (.replicate (target - m.stack.pointer).toNat .zero)).setPointer target } := by
  rw [reserve_eq hm]
  cases hmoved : m.stack.moved shift with
  | error fault => exact bind_of_error (ofStack_error hmoved)
  | ok target => exact bind_of_ok (ofStack_ok hmoved)

/-- Whatever the operand is, the checks of the stack pointer give what integers without bounds
give, in every stack that is shorter than 2 ^ 60 words. -/
theorem checks_exactly (hs : m.stack.Fits limit) (hlimit : limit < 2 ^ 60) (operand : Int64)
    (next : Nat) : m.ChecksExactly operand next where
  raised := hs.moved_eq_settle hlimit
  lowered := hs.moved_negateClamped hlimit
  counted := Stack.argumentCount_eq_counted
  incsp := by
    rw [← hs.moved_eq_settle hlimit]
    constructor
    · intro fault hfault
      refine silently_eq_error.2 ?_
      rw [reserve_eq_of_moved operand hs.bounded, hfault]
    · intro event t ht
      have hreserve := (silently_eq_ok.1 ht).2
      rw [reserve_eq_of_moved operand hs.bounded] at hreserve
      cases hmoved : m.stack.moved operand with
      | error fault =>
        rw [hmoved] at hreserve
        cases hreserve
      | ok target =>
        rw [hmoved] at hreserve
        cases hreserve
        rw [Stack.pointer_setPointer, Int.add_zero]
  incsp_executed := by
    intro target htarget
    have hreserve := reserve_eq_of_moved operand hs.bounded
    rw [hs.moved_eq_settle hlimit, htarget] at hreserve
    exact ⟨_, silently_eq_ok.2 ⟨rfl, hreserve⟩⟩
  tcall := by
    intro count address argc hargc
    rw [← Stack.argumentCount_eq_counted] at hargc
    rw [← hs.moved_negateClamped hlimit]
    constructor
    · intro fault hfault
      refine silently_eq_error.2 ?_
      rw [tailCall_eq hs.bounded.upper, bind_of_ok (ofStack_ok hargc),
        bind_of_error (ofStack_error hfault)]
    · intro event t ht
      obtain ⟨_, target, _, _, hmoved, _, _, rfl⟩ :=
        tailCall_eq_ok hs.bounded (silently_eq_ok.1 ht).2
      rw [hmoved, Stack.pointer_setPointer, Int.add_zero]
  ret := by
    intro result hresult
    rw [← hs.moved_negateClamped hlimit]
    constructor
    · intro fault hfault
      refine silently_eq_error.2 ?_
      rw [ret_eq, bind_of_ok (ofStack_ok hresult), bind_of_error (ofStack_error hfault)]
    · intro event t ht
      obtain ⟨_, frame, _, _, _, _, hmoved, _, _, _, rfl⟩ := ret_eq_ok (silently_eq_ok.1 ht).2
      rw [hmoved, Stack.pointer_setPointer, Int.sub_add_cancel]
  uncounted := by
    intro fault hfault
    rw [← Stack.argumentCount_eq_counted] at hfault
    constructor
    · intro address
      refine silently_eq_error.2 ?_
      rw [call, bind_of_error (ofStack_error hfault)]
    · intro drop address
      refine silently_eq_error.2 ?_
      rw [tailCall, bind_of_error (ofStack_error hfault)]

/-- The lowest integer would raise the stack pointer to 2 ^ 63 in a return. It lowers it far below
the stack where slots are reserved. -/
theorem checks_exactly_of_lowest : ∃ m n, Machine.new [] [] 2 3 = .ok m ∧
    n = { m with stack := m.stack.push (.int 7) } ∧ n.stack.Fits 3 ∧
      n.ChecksExactly Int64.minValue 2 ∧
      execute ⟨.ret, [Int64.minValue]⟩ 2 n = .error (.fault (.stackOverflow 3)) n ∧
      execute ⟨.incsp, [Int64.minValue]⟩ 2 n = .error (.fault .stackUnderflow) n := by
  obtain ⟨m, hm⟩ : ∃ m, Machine.new [] [] 2 3 = .ok m := ⟨_, rfl⟩
  generalize hn : { m with stack := m.stack.push (.int 7) } = n
  have hstack : n.stack = ⟨#[.int 7, .zero, .zero], 0⟩ := by
    cases hm
    cases hn
    rfl
  have hfits : n.stack.Fits 3 := by
    rw [hstack]
    exact ⟨rfl, by decide, by decide⟩
  have hexact := checks_exactly hfits (by decide) Int64.minValue 2
  have hret := hexact.ret (.int 7) (by rw [hstack]; rfl)
  exact ⟨m, n, hm, hn.symm, hfits, hexact, hret.1 _ (by rw [hstack]; rfl),
    hexact.incsp.1 _ (by rw [hstack]; rfl)⟩

end Machine

end ConsMachine
