import ConsMachine.Machine.Stack

/-!
# Slots and bounds

Reading a slot, and writing and moving several words at once, as functions of the stack; and what a
bounds check has established when it succeeds. A check fails in a fault of the program or of the
stack, never in anything else.

## Main definitions

* `Stack.Bounded` — the stack pointer is -1 or a slot.
* `Stack.get`, `Stack.top` — the word at an index, and the one on top.
* `Stack.store`, `Stack.slide`, `Stack.push` — words that are written from a slot on, moved in place
  and put on top.
-/

namespace ConsMachine.Stack

/-- The stack pointer is -1 or a slot. -/
structure Bounded (s : Stack) : Prop where
  lower : -1 ≤ s.pointer
  upper : s.pointer < s.size

/-- The word at an index. -/
def get (s : Stack) (index : Int) : Except Fault Word :=
  if index < 0 then .error .stackUnderflow
  else
    match s.slots[index.toNat]? with
    | some word => .ok word
    | none => .error (.stackOverflow s.size)

/-- The word on top. -/
def top (s : Stack) : Except Fault Word := s.get s.pointer

/-- Replaces the words from `index` on. -/
def store (s : Stack) (index : Nat) : List Word → Stack
  | [] => s
  | word :: rest => (s.put index word).store (index + 1) rest

/-- Copies `count` words from `source` on to `target` on, one after the other from the lowest: where
the target overlaps the words still to copy, they are overwritten first. -/
def slide (s : Stack) (source target : Nat) : Nat → Stack
  | 0 => s
  | count + 1 =>
    (s.put target (s.slots[source]?.getD .zero)).slide (source + 1) (target + 1) count

/-- Puts a word above the live ones. -/
def push (s : Stack) (word : Word) : Stack :=
  (s.store s.height [word]).setPointer s.height

variable {s t : Stack} {i k source target count : Nat} {w : Word} {words : List Word}
  {index shift : Int64}

/-! ## The stack pointer -/

theorem bounded_empty (size : Nat) : (empty size).Bounded := by
  refine ⟨Int.le_refl _, ?_⟩
  change (-1 : Int) < _
  omega

namespace Bounded

theorem pointer_eq (hs : s.Bounded) : s.pointer = s.height - 1 := by
  have := hs.lower
  unfold height
  omega

theorem height_le (hs : s.Bounded) : s.height ≤ s.size := by
  have := hs.upper
  unfold height
  omega

end Bounded

theorem height_congr (hpointer : t.pointer = s.pointer) : t.height = s.height :=
  congrArg (fun pointer : Int => (pointer + 1).toNat) hpointer

theorem natCast_height (hs : -1 ≤ s.pointer) : (s.height : Int) = s.pointer + 1 :=
  Int.toNat_of_nonneg (by omega)

/-! ## Slots -/

@[simp] theorem size_put : (s.put i w).size = s.size := Array.size_setIfInBounds

@[simp] theorem pointer_put : (s.put i w).pointer = s.pointer := rfl

/-- Stacks with the same words in all slots and the same top are the same. -/
theorem eq_of_slots (hpointer : t.pointer = s.pointer)
    (hslots : ∀ k : Nat, t.slots[k]? = s.slots[k]?) : t = s := by
  obtain ⟨slots, pointer⟩ := s
  obtain ⟨slots', pointer'⟩ := t
  obtain rfl : pointer' = pointer := hpointer
  obtain rfl : slots' = slots := Array.ext_getElem? hslots
  rfl

theorem getElem?_put : (s.put i w).slots[k]? =
    if i = k ∧ i < s.size then some w else s.slots[k]? := by
  simp only [put, size, Array.getElem?_setIfInBounds]
  grind

@[simp] theorem size_store : (s.store i words).size = s.size := by
  induction words generalizing s i with
  | nil => rfl
  | cons w rest ih => rw [store, ih, size_put]

@[simp] theorem pointer_store : (s.store i words).pointer = s.pointer := by
  induction words generalizing s i with
  | nil => rfl
  | cons w rest ih => rw [store, ih, pointer_put]

@[simp] theorem height_store : (s.store i words).height = s.height := height_congr pointer_store

theorem getElem?_store : (s.store i words).slots[k]? =
    if i ≤ k ∧ k < i + words.length ∧ k < s.size then words[k - i]? else s.slots[k]? := by
  induction words generalizing s i with
  | nil =>
    rw [if_neg (by simp; omega)]
    rfl
  | cons w rest ih =>
    rw [store, ih, getElem?_put, size_put, List.length_cons]
    by_cases hk : i = k
    · subst hk
      by_cases hlt : i < s.size
      · rw [if_neg (by omega), if_pos ⟨rfl, hlt⟩, if_pos (by omega)]
        simp
      · rw [if_neg (by omega), if_neg (by omega), if_neg (by omega)]
    · rw [if_neg (show ¬ (i = k ∧ i < s.size) by omega)]
      by_cases hin : i + 1 ≤ k ∧ k < i + 1 + rest.length ∧ k < s.size
      · rw [if_pos hin, if_pos (by omega), show k - i = k - (i + 1) + 1 by omega,
          List.getElem?_cons_succ]
      · rw [if_neg hin, if_neg (by omega)]

/-- A word below those that are stored may as well be put first. -/
theorem put_store (hlt : k < i) : (s.store i words).put k w = (s.put k w).store i words := by
  induction words generalizing s i with
  | nil => rfl
  | cons v rest ih =>
    have hput : (s.put i v).put k w = (s.put k w).put i v := by
      simp only [put, Array.setIfInBounds_comm w v (Nat.ne_of_lt hlt)]
    rw [store, store, ih (by omega), hput]

@[simp] theorem size_slide : (s.slide source target count).size = s.size := by
  induction count generalizing s source target with
  | zero => rfl
  | succ count ih => rw [slide, ih, size_put]

@[simp] theorem pointer_slide : (s.slide source target count).pointer = s.pointer := by
  induction count generalizing s source target with
  | zero => rfl
  | succ count ih => rw [slide, ih, pointer_put]

@[simp] theorem size_setPointer {pointer : Int} : (s.setPointer pointer).size = s.size := rfl

@[simp] theorem slots_setPointer {pointer : Int} : (s.setPointer pointer).slots = s.slots := rfl

@[simp] theorem pointer_setPointer {pointer : Int} : (s.setPointer pointer).pointer = pointer := rfl

theorem height_setPointer {pointer : Int} (hp : -1 ≤ pointer) :
    ((s.setPointer pointer).height : Int) = pointer + 1 := natCast_height hp

@[simp] theorem size_push : (s.push w).size = s.size := size_store

@[simp] theorem pointer_push : (s.push w).pointer = s.height := rfl

@[simp] theorem height_push : (s.push w).height = s.height + 1 := rfl

theorem getElem?_push (hlt : s.height < s.size) :
    (s.push w).slots[k]? = if k = s.height then some w else s.slots[k]? := by
  rw [push, slots_setPointer, getElem?_store]
  by_cases hk : k = s.height
  · subst hk
    simp [hlt]
  · rw [if_neg hk, if_neg (by simp; omega)]

@[simp] theorem size_drop : s.drop.size = s.size := rfl

@[simp] theorem slots_drop : s.drop.slots = s.slots := rfl

@[simp] theorem pointer_drop : s.drop.pointer = s.pointer - 1 := rfl

@[simp] theorem height_drop : s.drop.height = s.height - 1 := by
  simp only [height, pointer_drop]
  omega

namespace Bounded

theorem store (hs : s.Bounded) : (s.store i words).Bounded :=
  ⟨pointer_store.symm ▸ hs.lower, by simpa using hs.upper⟩

theorem push (hlt : s.height < s.size) : (s.push w).Bounded :=
  ⟨by rw [pointer_push]; omega, by simpa using hlt⟩

theorem drop (hs : s.Bounded) (hp : 0 ≤ s.pointer) : s.drop.Bounded := by
  have := hs.upper
  exact ⟨by rw [pointer_drop]; omega, by rw [pointer_drop, size_drop]; omega⟩

end Bounded

theorem mem_live (hfits : s.height ≤ s.size) :
    w ∈ s.live ↔ ∃ k < s.height, s.slots[k]? = some w := by
  simp only [size] at hfits
  rw [live, Array.mem_toList_iff, Array.mem_iff_getElem?]
  simp only [Array.getElem?_extract]
  grind

theorem length_live (hfits : s.height ≤ s.size) : s.live.length = s.height := by
  simp only [size] at hfits
  simp only [live]
  simp [hfits]

theorem live_getElem? (hfits : s.height ≤ s.size) :
    s.live[k]? = if k < s.height then s.slots[k]? else none := by
  simp only [size] at hfits
  rw [live, Array.getElem?_toList, Array.getElem?_extract]
  grind

/-! ## Bounds -/

/-- An error of a bounds check. -/
def BoundsFault (fault : Fault) : Prop :=
  fault = .stackUnderflow ∨ (∃ slots, fault = .stackOverflow slots) ∨
    ∃ index, fault = .badStackIndex index

theorem get_eq_ok {index : Int} :
    s.get index = .ok w ↔ 0 ≤ index ∧ s.slots[index.toNat]? = some w := by
  simp only [get]
  split
  · simp only [reduceCtorEq, false_iff]
    omega
  · split <;> simp_all

theorem slot_eq_ok {index : Int} :
    s.slot index = .ok k ↔ 0 ≤ index ∧ k = index.toNat ∧ k < s.size := by
  simp only [slot]
  split
  · simp only [reduceCtorEq, false_iff]
    omega
  · split
    · simp only [reduceCtorEq, false_iff]
      omega
    · simp only [Except.ok.injEq]
      omega

theorem slotOf_eq_ok : s.slotOf index = .ok k ↔
    0 ≤ index ∧ k = index.toNatClampNeg ∧ k < s.size := by
  simp only [slotOf]
  split <;> simp_all
  all_goals grind

theorem boundsFault_of_slotOf {fault : Fault} (hs : s.slotOf index = .error fault) :
    BoundsFault fault := by
  simp only [slotOf] at hs
  split at hs <;> cases hs
  exact .inr (.inr ⟨_, rfl⟩)

theorem nonneg_iff : 0 ≤ shift ↔ 0 ≤ shift.toInt := by
  rw [Int64.le_iff_toInt_le, Int64.toInt_zero]

theorem argumentCount_eq_ok : s.argumentCount shift = .ok count ↔
    (count : Int) = shift.toInt ∧ (count : Int) ≤ s.pointer + 1 := by
  have hclamp : (shift.toNatClampNeg : Int) = shift.toInt.toNat := rfl
  simp only [argumentCount, nonneg_iff]
  split
  · simp only [Except.ok.injEq]
    omega
  · simp only [reduceCtorEq, false_iff]
    omega

theorem boundsFault_of_argumentCount {fault : Fault} (hs : s.argumentCount shift = .error fault) :
    BoundsFault fault := by
  simp only [argumentCount] at hs
  split at hs <;> cases hs
  exact .inl rfl

/-- A sum that is accepted is the sum of the integers. -/
theorem addExact?_eq_some {a c : Int} {b : Int64} : addExact? a b = some c ↔
    c = a + b.toInt ∧ -9223372036854775808 ≤ c ∧ c < 9223372036854775808 := by
  have hmin : Int64.minValue.toInt = -9223372036854775808 := rfl
  have hmax : Int64.maxValue.toInt = 9223372036854775807 := rfl
  simp only [addExact?, hmin, hmax]
  split
  · simp only [Option.some.injEq]
    omega
  · simp only [reduceCtorEq, false_iff]
    omega

/-- The stack pointer comes to rest between -1 and the last slot, and just as far as asked. -/
theorem moved_eq_ok {pointer : Int} (hm : s.moved shift = .ok pointer) :
    -1 ≤ pointer ∧ pointer < s.size ∧ pointer = s.pointer + shift.toInt := by
  simp only [moved] at hm
  split at hm
  · next target htarget =>
    have hsum := (addExact?_eq_some.1 htarget).1
    split at hm
    · cases hm
    · split at hm <;> cases hm
      omega
  · split at hm <;> cases hm

theorem boundsFault_of_moved {fault : Fault} (hs : s.moved shift = .error fault) :
    BoundsFault fault := by
  simp only [moved] at hs
  split at hs
  · split at hs
    · cases hs
      exact .inl rfl
    · split at hs <;> cases hs
      exact .inr (.inl ⟨_, rfl⟩)
  · split at hs <;> cases hs
    · exact .inl rfl
    · exact .inr (.inl ⟨_, rfl⟩)

theorem negateClamped_nonpos (h : 0 ≤ shift) : (negateClamped shift).toInt ≤ 0 := by
  rw [nonneg_iff] at h
  have hlt := shift.toInt_lt
  simp only [negateClamped]
  split
  · next hmin =>
    subst hmin
    exact absurd h (by decide)
  · rw [Int64.toInt_neg, Int.bmod_def]
    omega

/-- Bounds depend on the size and the stack pointer only. -/
theorem moved_congr (hsize : t.size = s.size) (hpointer : t.pointer = s.pointer) :
    t.moved shift = s.moved shift := by
  simp only [moved, hsize, hpointer]

theorem argumentCount_congr (hpointer : t.pointer = s.pointer) :
    t.argumentCount shift = s.argumentCount shift := by
  unfold argumentCount
  rw [hpointer]

theorem slotOf_congr (hsize : t.size = s.size) : t.slotOf index = s.slotOf index := by
  simp only [slotOf, hsize]

end ConsMachine.Stack
