import ConsMachine.Machine.Session
import ConsMachine.Proofs.Machine.Stack

/-!
# The discipline of frames

Three operations can bring a slot back that is not live: loading from an index of the program, and
moving the stack pointer up where it is meant to go down. A program that keeps to the discipline of
frames does neither, and what those slots have kept does not matter to it.

## Main definitions

* `Instruction.regained` — the slots that an instruction brings back.
* `Instruction.frameDisciplined` — an instruction does not do that.
* `Session.after`, `Session.frameDisciplined` — what a step leaves, and the same of a step.
-/

namespace ConsMachine

namespace Instruction

/-- The slots that are not live, and that the instruction reads or makes live again. -/
def regained (i : Instruction) (s : Stack) : List Nat :=
  match i.opcode, i.operands with
  | .ldi, _ =>
    match s.top with
    | .ok (.int index) =>
      match s.slotOf index with
      | .ok slot => if s.height ≤ slot then [slot] else []
      | .error _ => []
    | _ => []
  | .tcall, [count, drop, _] =>
    match s.argumentCount count, s.moved (Stack.negateClamped drop) with
    | .ok arguments, .ok target =>
      List.range' s.height ((target + 1 - arguments).toNat - s.height)
    | _, _ => []
  | .ret, [locals] =>
    match s.moved (Stack.negateClamped locals) with
    | .ok frame => List.range' s.height (frame.toNat - s.height)
    | .error _ => []
  | _, _ => []

/-- A load that reads a slot reads one below the index that it takes off the stack. A tail call and
a return drop no fewer than zero slots. -/
def frameDisciplined (i : Instruction) (s : Stack) : Bool :=
  match i.opcode, i.operands with
  | .ldi, _ =>
    match s.top with
    | .ok (.int index) =>
      match s.slotOf index with
      | .ok slot => slot + 1 < s.height
      | .error _ => true
    | _ => true
  | .tcall, [_, drop, _] => 0 ≤ drop
  | .ret, [locals] => 0 ≤ locals
  | _, _ => true

/-- The word that the instruction prints. -/
def shown (i : Instruction) (s : Stack) : Option Word :=
  if i.opcode = .printi ∨ i.opcode = .printc then s.top.toOption else none

/-- The slots are above the live ones. -/
theorem mem_regained {i : Instruction} {s : Stack} {k : Nat} (hk : k ∈ i.regained s) :
    s.height ≤ k ∧ k < s.size := by
  simp only [regained] at hk
  split at hk
  · split at hk
    · split at hk
      · next hslot =>
        split at hk
        · next hle =>
          obtain rfl := List.mem_singleton.1 hk
          exact ⟨hle, (Stack.slotOf_eq_ok.1 hslot).2.2⟩
        · cases hk
      · cases hk
    · cases hk
  · split at hk
    · next hm =>
      have := (Stack.moved_eq_ok hm).2.1
      rw [List.mem_range'_1] at hk
      omega
    · cases hk
  · split at hk
    · next hm =>
      have := (Stack.moved_eq_ok hm).2.1
      rw [List.mem_range'_1] at hk
      omega
    · cases hk
  · cases hk

/-- A disciplined instruction brings no slot back. -/
theorem regained_eq_nil {i : Instruction} {s : Stack} (hd : i.frameDisciplined s = true) :
    i.regained s = [] := by
  -- A drop of zero slots or more does not raise the stack pointer.
  have down : ∀ {drop : Int64} {target : Int}, 0 ≤ drop →
      s.moved (Stack.negateClamped drop) = .ok target → target + 1 ≤ s.height := by
    intro drop target hdrop hm
    have hle := (Stack.moved_eq_ok hm).2.2
    have hneg := Stack.negateClamped_nonpos hdrop
    unfold Stack.height
    omega
  simp only [frameDisciplined] at hd
  simp only [regained]
  split at hd
  · split at hd
    · split at hd
      · rw [if_neg (by simp at hd; omega)]
      · rfl
    · rfl
  · next hd' =>
    split
    · next arguments target _ hm =>
      have := down (by simpa using hd) hm
      rw [show (target + 1 - arguments).toNat - s.height = 0 by omega]
      rfl
    · rfl
  · split
    · next frame hm =>
      have := down (by simpa using hd) hm
      rw [show frame.toNat - s.height = 0 by omega]
      rfl
    · rfl
  · rfl

end Instruction

/-! ## Steps -/

namespace Machine

/-- What the instruction that the next step executes has to do with the stack. -/
def ofInstruction {α : Type} (m : Machine) (f : Instruction → Stack → α) (otherwise : α) : α :=
  match Instruction.decode m.code m.pc with
  | .ok (i, _) => f i m.stack
  | .error _ => otherwise

/-- The slots that the next step brings back. -/
def regained (m : Machine) : List Nat := m.ofInstruction Instruction.regained []

/-- The next step keeps to the discipline of frames. -/
def frameDisciplined (m : Machine) : Bool := m.ofInstruction Instruction.frameDisciplined true

/-- The word that the next step prints. -/
def shown (m : Machine) : Option Word := m.ofInstruction Instruction.shown none

theorem regained_eq_nil {m : Machine} (hd : m.frameDisciplined = true) : m.regained = [] := by
  simp only [frameDisciplined, ofInstruction] at hd
  simp only [regained, ofInstruction]
  split at hd
  · exact Instruction.regained_eq_nil hd
  · rfl

end Machine

namespace Session

/-- The state that a step leaves, whether it succeeds or not. -/
def after (s : Session) : Session :=
  match step s with
  | .ok _ s' => s'
  | .error _ s' => s'

/-- The next step, if it comes to executing an instruction, keeps to the discipline of frames. -/
def frameDisciplined (s : Session) : Bool :=
  match announce s with
  | .ok () s' => s'.machine.frameDisciplined
  | .error _ _ => true

end Session

end ConsMachine
