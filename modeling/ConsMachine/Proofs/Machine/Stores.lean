import ConsMachine.Proofs.Machine.TailCall

/-!
# Slots that are stored in

Every instruction stores words in slots that can be told from the height of the stack before and
after it, from its operands and, for `STI`, from the index on the stack. All other slots keep their
words, on the way through a run as well.

## Main definitions

* `Instruction.stored` — the slots that an instruction stores in.
* `Machine.stored`, `Session.stored` — the same of the next step.
-/

namespace ConsMachine

/-- The slots that an instruction stores words in when it takes the stack `s` to `t`. It is the
slot of the new top for most operations. -/
def Instruction.stored (i : Instruction) (s t : Stack) : List Nat :=
  match i.opcode, i.operands with
  | .goto, _ | .ifzero, _ | .ifnzro, _ | .printi, _ | .printc, _ | .stop, _ => []
  | .incsp, _ | .ldargs, _ => List.range' s.height (t.height - s.height)
  | .swap, _ => List.range' (t.height - 2) 2
  | .sti, _ =>
    match s.get (s.pointer - 1) with
    | .ok (.int index) => [index.toNatClampNeg, t.height - 1]
    | _ => [t.height - 1]
  | .call, count :: _ =>
    List.range' (s.height - count.toNatClampNeg) (count.toNatClampNeg + 2)
  | .tcall, count :: _ =>
    List.range' (t.height - count.toNatClampNeg) count.toNatClampNeg
  | _, _ => [t.height - 1]

namespace Machine

/-- The slots that the next step stores in. If it fails, it has stored no more than arguments. -/
def stored (m : Machine) : List Nat :=
  match Instruction.decode m.code m.pc, step m with
  | .ok (i, _), .ok _ t => i.stored m.stack t.stack
  | .ok (i, _), .error _ t => if i.opcode = .ldargs then i.stored m.stack t.stack else []
  | .error _, _ => []

/-- If a value is returned, all slots outside `slots` hold what they held in `m`. -/
def Stores {α : Type} (slots : Stack → List Nat) (m : Machine) :
    EStateM.Result Failure Machine α → Prop :=
  Outcome (fun _ t => ∀ k, k ∉ slots t.stack → t.stack.slots[k]? = m.stack.slots[k]?)
    fun _ _ => True

section

variable {α β : Type} {m t : Machine} {slots : Stack → List Nat} {operation : Opcode} {w : Word}

/-! ## Operations -/

namespace Stores

theorem returned {v : α} : Stores slots m (.ok v m) := fun _ _ => rfl

theorem of_forall {result : EStateM.Result Failure Machine α}
    (h : ∀ v t, result = .ok v t → ∀ k, k ∉ slots t.stack → t.stack.slots[k]? = m.stack.slots[k]?) :
    Stores slots m result := by
  cases result with
  | ok v t => exact h v t rfl
  | error failure t => trivial

theorem require_bind {x : Except Fault α} {k : α → Action β}
    (hn : ∀ v, x = .ok v → Stores slots m (k v m)) : Stores slots m ((require x >>= k) m) := by
  refine of_forall fun w t ht => ?_
  obtain ⟨v, hv, hk⟩ := require_bind_eq_ok.1 ht
  exact (hn v hv).of_ok hk

theorem ofStack_bind {read : Stack → Except Fault α} {k : α → Action β}
    (hn : ∀ v, read m.stack = .ok v → Stores slots m (k v m)) :
    Stores slots m ((ofStack read >>= k) m) := by
  refine of_forall fun w t ht => ?_
  obtain ⟨v, hv, hk⟩ := ofStack_bind_eq_ok.1 ht
  exact (hn v hv).of_ok hk

/-- A slot that is not live any more keeps its word. -/
theorem pop_bind {k : Word → Action β}
    (hn : ∀ w, m.stack.top = .ok w →
      Stores slots { m with stack := m.stack.drop } (k w { m with stack := m.stack.drop })) :
    Stores slots m ((pop >>= k) m) := by
  cases htop : m.stack.top with
  | ok w =>
    rw [bind_of_ok (pop_ok htop)]
    exact hn w htop
  | error fault =>
    rw [bind_of_error (pop_error htop)]
    trivial

theorem popInteger_bind {k : Int64 → Action β}
    (hn : ∀ v, m.stack.top = .ok (.int v) →
      Stores slots { m with stack := m.stack.drop } (k v { m with stack := m.stack.drop })) :
    Stores slots m ((popInteger operation >>= k) m) := by
  rw [popInteger, bind_assoc]
  exact pop_bind fun w htop => require_bind fun v hv => hn v (integer_eq_ok.1 hv ▸ htop)

theorem popCell_bind {k : Ref → Action β} {fault : Fault}
    (hn : ∀ cell,
      Stores slots { m with stack := m.stack.drop } (k cell { m with stack := m.stack.drop })) :
    Stores slots m ((popCell operation fault >>= k) m) := by
  simp only [popCell, bind_assoc]
  refine pop_bind fun w _ => require_bind fun cell _ => ?_
  split
  · trivial
  · exact hn cell

theorem onHeap_bind {action : Heap.Action α} {k : α → Action β}
    (hn : ∀ v heap, Stores slots { m with heap } (k v { m with heap })) :
    Stores slots m ((onHeap action >>= k) m) := by
  have hany : Outcome (fun _ _ => True) (fun _ _ => True) (action m.heap) := by
    cases action m.heap <;> trivial
  refine ((onHeap_spec hany).mono (fun _ _ => And.right) fun _ _ _ => trivial).bind fun v t ht => ?_
  rw [ht]
  exact hn v t.heap

end Stores

open Stores

theorem push_stores : Stores (fun t => [t.height - 1]) m (push w m) := by
  refine of_forall fun _ t ht k hk => ?_
  obtain ⟨-, hroom, rfl⟩ := push_eq_ok ht
  refine (Stack.getElem?_push hroom).trans (if_neg fun heq => ?_)
  exact hk (List.mem_singleton.2 heq)

/-! ## Instructions -/

theorem arithmetic_stores {f : Int64 → Int64 → Except Fault Int64} :
    Stores (fun t => [t.height - 1]) m (arithmetic operation f m) :=
  popInteger_bind fun _ _ => popInteger_bind fun _ _ => require_bind fun _ _ => push_stores

theorem equal_stores : Stores (fun t => [t.height - 1]) m (equal m) :=
  pop_bind fun _ _ => pop_bind fun _ _ => push_stores

theorem negation_stores : Stores (fun t => [t.height - 1]) m (negation m) :=
  pop_bind fun _ _ => push_stores

theorem duplicate_stores : Stores (fun t => [t.height - 1]) m (duplicate m) := by
  rw [duplicate_eq]
  exact ofStack_bind fun _ _ => push_stores

theorem swap_stores : Stores (fun t => List.range' (t.height - 2) 2) m (swap m) := by
  rw [swap_eq]
  refine ofStack_bind fun upper _ => ofStack_bind fun lower _ => fun k hk => ?_
  change k ∉ List.range' ((m.stack.store _ _).height - 2) 2 at hk
  rw [Stack.height_store, List.mem_range'_1] at hk
  exact Stack.getElem?_store.trans (if_neg fun hin => hk ⟨hin.1, hin.2.1⟩)

theorem loadIndirect_stores : Stores (fun t => [t.height - 1]) m (loadIndirect m) := by
  rw [loadIndirect_eq]
  exact popInteger_bind fun _ _ => ofStack_bind fun _ _ => push_stores

/-- The index is below the word that is stored. -/
theorem storeIndirect_stores :
    Stores (Instruction.stored ⟨.sti, []⟩ m.stack) m (storeIndirect m) := by
  rw [storeIndirect_eq]
  refine pop_bind fun w _ => popInteger_bind fun index hindex => ?_
  refine ofStack_bind fun slot hslot => ?_
  have hbelow : m.stack.get (m.stack.pointer - 1) = .ok (.int index) := by
    rw [← Stack.pointer_drop]
    exact hindex
  obtain rfl := (Stack.slotOf_eq_ok.1 hslot).2.1
  have hstored : ∀ t, Instruction.stored ⟨.sti, []⟩ m.stack t =
      [index.toNatClampNeg, t.height - 1] := fun t => by simp only [Instruction.stored, hbelow]
  refine push_stores.mono (fun _ t ht k hk => ?_) fun _ _ _ => trivial
  rw [hstored, List.mem_pair, not_or] at hk
  refine (ht k (mt List.mem_singleton.1 hk.2)).trans ?_
  refine Stack.getElem?_store.trans (if_neg fun hin => hk.1 ?_)
  simp only [List.length_singleton] at hin
  omega

theorem reserve_stores {shift : Int64} (hm : m.stack.Bounded) :
    Stores (fun t => List.range' m.stack.height (t.height - m.stack.height)) m
      (reserve shift m) := by
  refine of_forall fun _ t ht k hk => ?_
  have hpointer := hm.pointer_eq
  rw [reserve_eq_of_moved shift hm] at ht
  split at ht
  · cases ht
  · next target htarget =>
    cases ht
    have hheight := Stack.height_setPointer (s := m.stack.store m.stack.height
      (.replicate (target - m.stack.pointer).toNat .zero)) (Stack.moved_eq_ok htarget).1
    rw [List.mem_range'_1] at hk
    refine Stack.getElem?_store.trans (if_neg fun hin => hk ?_)
    simp only [List.length_replicate] at hin hheight ⊢
    omega

theorem goto_stores {address : Int64} : Stores (fun _ => []) m (goto address m) :=
  require_bind fun _ _ _ _ => rfl

theorem branch_stores {zero : Bool} {address : Int64} :
    Stores (fun _ => []) m (branch zero address m) := by
  refine pop_bind fun w _ => ?_
  split
  · exact goto_stores
  · exact returned

theorem call_stores {count address : Int64} {next : Nat} :
    Stores (fun _ => List.range' (m.stack.height - count.toNatClampNeg) (count.toNatClampNeg + 2)) m
      (call count address next m) := by
  refine of_forall fun _ t ht k hk => ?_
  obtain ⟨argc, target, pc, hargc, -, -, rfl⟩ := call_eq_ok ht
  obtain ⟨hcount, hheight⟩ := Stack.argumentCount_eq_ok.1 hargc
  rw [← Stack.natCast_height (by omega)] at hheight
  have hclamp : (count.toNatClampNeg : Int) = count.toInt.toNat := rfl
  rw [List.mem_range'_1] at hk
  refine Stack.getElem?_store.trans (if_neg fun hin => hk ?_)
  simp only [List.length_append, List.length_cons, List.length_nil, Array.length_toList,
    Array.size_extract] at hin
  omega

theorem tailCall_stores {count drop address : Int64} (hm : m.stack.Bounded) :
    Stores (fun t => List.range' (t.height - count.toNatClampNeg) count.toNatClampNeg) m
      (tailCall count drop address m) := by
  refine of_forall fun _ t ht k hk => ?_
  obtain ⟨argc, target, pc, hargc, htarget, -, hle, rfl⟩ := tailCall_eq_ok hm ht
  obtain ⟨hcount, hheight⟩ := Stack.argumentCount_eq_ok.1 hargc
  have hpointer := hm.pointer_eq
  have hfits := hm.height_le
  obtain ⟨hlow, hhigh, -⟩ := Stack.moved_eq_ok htarget
  have hclamp : (count.toNatClampNeg : Int) = count.toInt.toNat := rfl
  have hraised := Stack.height_setPointer (s := m.stack.slide (m.stack.height - argc)
    (target + 1 - argc).toNat argc) hlow
  rw [List.mem_range'_1] at hk
  refine (Stack.getElem?_slide (by omega) (by omega)).trans (if_neg fun hin => hk ?_)
  simp only
  omega

theorem ret_stores {locals : Int64} : Stores (fun t => [t.height - 1]) m (ret locals m) := by
  refine of_forall fun _ t ht k hk => ?_
  obtain ⟨result, frame, bp, saved, pc, -, -, -, hsaved, -, rfl⟩ := ret_eq_ok ht
  have hplace := (Stack.get_eq_ok.1 hsaved).1
  have hheight := Stack.height_setPointer (s := m.stack.store (frame - 2).toNat [result])
    (show -1 ≤ frame - 2 by omega)
  refine Stack.getElem?_store.trans (if_neg fun hin => hk (List.mem_singleton.2 ?_))
  simp only [List.length_singleton] at hin ⊢
  omega

theorem printWord_stores : Stores (fun _ => []) m (printWord m) := by
  rw [printWord, top_eq]
  exact ofStack_bind fun _ _ => returned

theorem printCharacter_stores : Stores (fun _ => []) m (printCharacter m) := by
  rw [printCharacter, top_eq]
  exact ofStack_bind fun w _ => by cases w <;> exact returned

theorem pushAll_stores (values : List Int64) (hm : m.stack.Bounded) :
    Stores (fun t => List.range' m.stack.height (t.height - m.stack.height)) m
      (pushAll values m) := by
  -- The stack grows with every value.
  suffices hgrows : Outcome (fun _ t => m.stack.height ≤ t.stack.height ∧
      ∀ k, k < m.stack.height ∨ t.stack.height ≤ k → t.stack.slots[k]? = m.stack.slots[k]?)
      (fun _ _ => True) (pushAll values m) by
    refine hgrows.mono (fun _ t ht k hk => ht.2 k ?_) fun _ _ _ => trivial
    have hle := ht.1
    rw [List.mem_range'_1] at hk
    omega
  induction values generalizing m with
  | nil => exact ⟨Nat.le_refl _, fun _ _ => rfl⟩
  | cons value rest ih =>
    rw [pushAll]
    have hpush := push_eq (w := .int value) hm
    by_cases hroom : m.stack.height < m.stack.size
    · rw [if_pos hroom] at hpush
      rw [bind_of_ok hpush]
      refine (ih (.push hroom)).mono (fun _ t ht => ?_) fun _ _ => id
      obtain ⟨hle, hkept⟩ := ht
      rw [Stack.height_push] at hle hkept
      refine ⟨Nat.le_of_succ_le hle, fun k hk => ?_⟩
      rw [hkept k (by omega), Stack.getElem?_push hroom, if_neg (by omega)]
    · rw [if_neg hroom] at hpush
      rw [bind_of_error hpush]
      trivial

theorem stop_stores : Stores (fun _ => []) m (stop m) := by
  change Stores _ _ ((if m.stack.pointer < 0 then _ else _ : Action Event) m)
  rw [top_eq]
  split
  · exact returned
  · exact ofStack_bind fun _ _ => returned

theorem cons_stores : Stores (fun t => [t.height - 1]) m (cons m) := by
  rw [cons_eq]
  refine ofStack_bind fun car hcar => ofStack_bind fun cdr _ => ?_
  refine Stores.onHeap_bind fun cell _ => Stores.onHeap_bind fun _ _ => ?_
  refine Stores.onHeap_bind fun _ _ => fun k hk => ?_
  have htwo := (Stack.get_eq_ok.1 hcar).1
  refine Stack.getElem?_store.trans (if_neg fun hin => hk (List.mem_singleton.2 ?_))
  have hheight := Stack.natCast_height (s := m.stack) (by omega)
  simp only [List.length_singleton, Stack.height_drop, Stack.height_store] at *
  omega

theorem take_stores (part : CellPart) :
    Stores (fun t => [t.height - 1]) m (take operation part m) :=
  popCell_bind fun _ => Stores.onHeap_bind fun _ _ => push_stores

theorem set_stores (part : CellPart) :
    Stores (fun t => [t.height - 1]) m (set operation part m) :=
  pop_bind fun _ _ => popCell_bind fun _ => Stores.onHeap_bind fun _ _ => push_stores

/-! ## Execution -/

theorem silently_stores {action : Action Unit} (h : Stores slots m (action m)) :
    Stores slots m (silently action m) :=
  h.bind fun _ _ ht => ht

theorem execute_stores {i : Instruction} (next : Nat) (hwf : i.WellFormed)
    (hm : m.stack.Bounded) : Stores (i.stored m.stack) m (execute i next m) := by
  obtain ⟨opcode, operands⟩ := i
  change operands.length = _ at hwf
  cases opcode with
  | csti => exact unary_of_length hwf fun k => silently_stores push_stores
  | add => exact nullary_of_length hwf (silently_stores arithmetic_stores)
  | sub => exact nullary_of_length hwf (silently_stores arithmetic_stores)
  | mul => exact nullary_of_length hwf (silently_stores arithmetic_stores)
  | div => exact nullary_of_length hwf (silently_stores arithmetic_stores)
  | mod => exact nullary_of_length hwf (silently_stores arithmetic_stores)
  | eq => exact nullary_of_length hwf (silently_stores equal_stores)
  | lt => exact nullary_of_length hwf (silently_stores arithmetic_stores)
  | not => exact nullary_of_length hwf (silently_stores negation_stores)
  | dup => exact nullary_of_length hwf (silently_stores duplicate_stores)
  | swap => exact nullary_of_length hwf (silently_stores swap_stores)
  | ldi => exact nullary_of_length hwf (silently_stores loadIndirect_stores)
  | sti => exact nullary_of_length hwf (silently_stores storeIndirect_stores)
  | getbp => exact nullary_of_length hwf (silently_stores push_stores)
  | getsp => exact nullary_of_length hwf (silently_stores push_stores)
  | incsp => exact unary_of_length hwf fun shift => silently_stores (reserve_stores hm)
  | goto => exact unary_of_length hwf fun address => silently_stores goto_stores
  | ifzero => exact unary_of_length hwf fun address => silently_stores branch_stores
  | ifnzro => exact unary_of_length hwf fun address => silently_stores branch_stores
  | call =>
    obtain ⟨count, address, rfl⟩ := List.length_eq_two.1 hwf
    exact silently_stores call_stores
  | tcall =>
    obtain ⟨count, drop, address, rfl⟩ := List.length_eq_three.1 hwf
    exact silently_stores (tailCall_stores hm)
  | ret => exact unary_of_length hwf fun locals => silently_stores ret_stores
  | printi => exact nullary_of_length hwf printWord_stores
  | printc => exact nullary_of_length hwf printCharacter_stores
  | ldargs => exact nullary_of_length hwf (silently_stores (pushAll_stores m.arguments hm))
  | stop => exact nullary_of_length hwf stop_stores
  | nil => exact nullary_of_length hwf (silently_stores push_stores)
  | cons => exact nullary_of_length hwf (silently_stores cons_stores)
  | car => exact nullary_of_length hwf (silently_stores (take_stores .car))
  | cdr => exact nullary_of_length hwf (silently_stores (take_stores .cdr))
  | setcar => exact nullary_of_length hwf (silently_stores (set_stores .car))
  | setcdr => exact nullary_of_length hwf (silently_stores (set_stores .cdr))

/-! ## Steps -/

/-- Arguments that are loaded until there is no room left go above the words that were there. -/
theorem Abandoned.loaded_above {next : Nat} (h : Abandoned .ldargs next m t)
    (hm : m.stack.Bounded) {k : Nat}
    (hk : k ∉ List.range' m.stack.height (t.stack.height - m.stack.height)) :
    t.stack.slots[k]? = m.stack.slots[k]? := by
  obtain ⟨hfull, loaded, -, hlive⟩ := h.filled rfl
  have hsize := h.size
  have hheight := Stack.natCast_height (s := t.stack) (by omega)
  rw [List.mem_range'_1] at hk
  by_cases hlow : k < m.stack.height
  · have hword := congrArg (fun words : List Word => words[k]?) hlive
    have hfits := hm.height_le
    have hlength := Stack.length_live hfits
    rw [List.getElem?_append_left (by omega), Stack.live_getElem? hfits, if_pos hlow,
      Stack.live_getElem? (by omega), if_pos (by omega)] at hword
    exact hword
  · simp only [Stack.size] at hsize hfull
    rw [Array.getElem?_eq_none (by omega), Array.getElem?_eq_none (by omega)]

theorem step_stores (hm : m.stack.Bounded) :
    Outcome (fun _ t => ∀ k, k ∉ m.stored → t.stack.slots[k]? = m.stack.slots[k]?)
      (fun _ t => ∀ k, k ∉ m.stored → t.stack.slots[k]? = m.stack.slots[k]?) (step m) := by
  cases hdecode : Instruction.decode m.code m.pc with
  | error fault =>
    have hstep : step m = .error (.fault fault) m := by rw [step, hdecode]
    rw [hstep]
    exact fun _ _ => rfl
  | ok decoded =>
    obtain ⟨i, next⟩ := decoded
    have hwf := Instruction.wellFormed_of_decode hdecode
    have hexecute : execute i next (m.fetched next) = step m := by
      rw [step, hdecode]
      rfl
    cases hstep : step m with
    | ok event t =>
      have hstored : m.stored = i.stored m.stack t.stack := by rw [stored, hdecode, hstep]
      have hexecuted : Stores (i.stored m.stack) (m.fetched next)
          (execute i next (m.fetched next)) := execute_stores next hwf hm
      intro k hk
      exact hexecuted.of_ok (hexecute.trans hstep) k (hstored ▸ hk)
    | error failure t =>
      have habandoned := (step_fails hm).of_error hstep
      rw [StepAbandoned, hdecode] at habandoned
      intro k hk
      rw [stored, hdecode, hstep] at hk
      obtain ⟨opcode, operands⟩ := i
      by_cases hldargs : opcode = .ldargs
      · subst hldargs
        exact habandoned.loaded_above hm hk
      · rw [habandoned.slots hldargs]

end

end Machine

namespace Session

variable {s : Session}

/-- The slots that the next step stores in. Where the trace line is refused, there are none. -/
def stored (s : Session) : List Nat :=
  match announce s with
  | .ok () t => t.machine.stored
  | .error _ _ => []

/-! ## Runs -/

theorem after_stores (hm : s.machine.stack.Bounded) :
    ∀ k, k ∉ s.stored → s.after.machine.stack.slots[k]? = s.machine.stack.slots[k]? := by
  refine after_of_step (P := fun t =>
    ∀ k, k ∉ s.stored → t.machine.stack.slots[k]? = s.machine.stack.slots[k]?) ?_
  unfold stored
  cases hannounce : announce s with
  | error failure t =>
    rw [step, bind_of_error hannounce]
    exact fun k _ => by rw [(announce_spec.of_error hannounce).2]
  | ok written t =>
    have ht : t.machine = s.machine := announce_spec.of_ok hannounce
    rw [step, bind_of_ok hannounce]
    rw [← ht] at hm ⊢
    refine (onMachine_spec (Machine.step_stores hm)).bind fun event u hu => ?_
    exact (emit_spec event).mono (fun _ v hv => hv ▸ hu) fun _ v hv => hv.2 ▸ hu

/-- What no step of a run stores in is what it was before the run. -/
theorem iterate_stores {heapSize stackSize : Nat} (hs : s.machine.Intact heapSize stackSize)
    {l p k : Nat} (havoids : ∀ j < l, ∀ k ∈ (after^[j] s).stored, p < k) (hk : k ≤ p) :
    (after^[l] s).machine.stack.slots[k]? = s.machine.stack.slots[k]? := by
  induction l with
  | zero => rfl
  | succ l ih =>
    have hintact := (iterate_intact l hs).stack
    have hstep := after_stores hintact.bounded k fun hstored =>
      absurd (havoids l (Nat.lt_succ_self l) k hstored) (Nat.not_lt.2 hk)
    rw [Function.iterate_succ_apply', hstep]
    exact ih fun j hj => havoids j (Nat.lt_succ_of_lt hj)

end Session

end ConsMachine
