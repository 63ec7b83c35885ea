import ConsMachine.Proofs.Code.Decoding
import ConsMachine.Proofs.Heap.Faults
import ConsMachine.Proofs.Machine.Content
import ConsMachine.Proofs.Machine.Robustness

/-!
# What a failed step leaves

An instruction that fails has moved the program counter past itself and may have taken words off the
stack. It has stored nothing: every slot keeps its word, and the base pointer and the heap are what
they were. Only a cell that cannot be allocated may leave a heap that was collected in vain, and the
arguments that found room stay on the stack when the next one does not.

The instructions check before they write, and the slots that they write then are there: that is in
the equations of the accesses, which need the stack pointer in bounds. Where an instruction pops
words and pushes another, the push comes last, and it does not fail because the words that were
popped have left room.

## Main definitions

* `Opcode.taken` — how many words an operation has popped when it fails.
* `Machine.Lowered`, `Machine.FailsWithin` — so many words are popped, and nothing else is done.
* `Machine.Abandoned` — what is left when an instruction fails.
* `Session.StepAbandoned` — what is left when a step fails.
-/

namespace ConsMachine

/-! ## Operations -/

namespace Opcode

/-- The most words that an operation has taken off the stack when it fails. -/
def taken : Opcode → Nat
  | .add | .sub | .mul | .div | .mod | .eq | .lt | .sti | .setcar | .setcdr => 2
  | .not | .ldi | .ifzero | .ifnzro | .car | .cdr => 1
  | _ => 0

/-- The operations that move the stack pointer only when nothing can fail any more. -/
def movingLast : List Opcode :=
  [.incsp, .call, .tcall, .ret, .swap, .dup, .cons, .printi, .printc, .csti, .nil, .getbp, .getsp]

theorem taken_le (operation : Opcode) : operation.taken ≤ 2 := by
  cases operation <;> decide

theorem taken_of_movingLast {operation : Opcode} (h : operation ∈ movingLast) :
    operation.taken = 0 := by
  revert h
  cases operation <;> decide

end Opcode

/-! ## Faults of reading -/

theorem Failure.not_ofDecoding_of_ofHeap {failure : Failure} (h : failure.ofHeap = true) :
    ¬ failure.OfDecoding := by
  rintro ⟨⟩ <;> cases h

/-- Something can be read, or the fault is none of decoding. -/
def Readable {α : Type} (x : Except Fault α) : Prop :=
  ∀ fault, x = .error fault → ¬ (Failure.fault fault).OfDecoding

namespace Readable

variable {α : Type} {s : Stack} {operation : Opcode} {left right : Int64}

theorem get (index : Int) : Readable (s.get index) := by
  grind [Readable, Stack.get]

theorem slotOf (index : Int64) : Readable (s.slotOf index) := by
  grind [Readable, Stack.slotOf]

theorem moved (shift : Int64) : Readable (s.moved shift) := by
  grind [Readable, Stack.moved]

theorem argumentCount (count : Int64) : Readable (s.argumentCount count) := by
  grind [Readable, Stack.argumentCount]

theorem integer (word : Word) : Readable (Machine.integer operation word) := by
  cases word <;> grind [Readable, Machine.integer]

theorem reference (word : Word) : Readable (Machine.reference operation word) := by
  cases word <;> grind [Readable, Machine.reference]

theorem codeAddress (address : Int64) : Readable (Machine.codeAddress address) := by
  grind [Readable, Machine.codeAddress]

theorem quotient : Readable (Machine.quotient left right) := by
  grind [Readable, Machine.quotient]

theorem remainder : Readable (Machine.remainder left right) := by
  grind [Readable, Machine.remainder]

theorem value (v : α) : Readable (.ok v : Except Fault α) := nofun

theorem bind {β : Type} {x : Except Fault α} {k : α → Except Fault β} (hx : Readable x)
    (hk : ∀ v, Readable (k v)) : Readable (x >>= k) := by
  cases x with
  | error fault =>
    rintro _ ⟨⟩
    exact hx fault rfl
  | ok v => exact hk v

end Readable

theorem Stack.live_push {s : Stack} {w : Word} (hs : s.Bounded) (hlt : s.height < s.size) :
    (s.push w).live = s.live ++ [w] := by
  have hs : s.Fits s.size := ⟨rfl, hs⟩
  have hcontent := congrArg List.reverse (hs.content_push hlt (w := w))
  simpa [content] using hcontent

namespace Machine

/-! ## Lowered machines -/

/-- At most `count` words have been taken off the stack of `m`, and nothing else has changed. -/
def Lowered (count : Nat) (m t : Machine) : Prop :=
  ∃ pointer, -1 ≤ pointer ∧ pointer ≤ m.stack.pointer ∧ m.stack.pointer ≤ pointer + count ∧
    t = { m with stack := m.stack.setPointer pointer }

namespace Lowered

variable {m t u : Machine} {j k : Nat}

theorem refl (count : Nat) (hm : m.stack.Bounded) : m.Lowered count m :=
  ⟨m.stack.pointer, hm.lower, Int.le_refl _, by omega, rfl⟩

theorem trans (h : m.Lowered j t) (g : t.Lowered k u) : m.Lowered (j + k) u := by
  obtain ⟨pointer, hge, hle, hcount, rfl⟩ := h
  obtain ⟨pointer', hge', hle', hcount', rfl⟩ := g
  simp only [Stack.pointer_setPointer] at hle' hcount'
  exact ⟨pointer', hge', Int.le_trans hle' hle, by omega, rfl⟩

theorem drop (hm : 0 ≤ m.stack.pointer) : m.Lowered 1 { m with stack := m.stack.drop } :=
  ⟨m.stack.pointer - 1, by omega, by omega, by omega, rfl⟩

end Lowered

/-- Where the operation fails, the fault is none of decoding, and `left` holds of what it leaves. -/
def FailsTo {α : Type} (left : Machine → Prop) : EStateM.Result Failure Machine α → Prop :=
  Outcome (fun _ _ => True) fun failure t => ¬ failure.OfDecoding ∧ left t

/-- Where the operation fails, it has taken at most `count` words off the stack of `m`. -/
def FailsWithin {α : Type} (count : Nat) (m : Machine) : EStateM.Result Failure Machine α → Prop :=
  FailsTo (m.Lowered count)

/-- There is a slot for one more word. -/
structure HasRoom (m : Machine) : Prop where
  bounded : m.stack.Bounded
  room : m.stack.height < m.stack.size

/-- The operation does not fail. -/
def Completes {α : Type} : EStateM.Result Failure Machine α → Prop :=
  Outcome (fun _ _ => True) fun _ _ => False

section

variable {α β : Type} {m t : Machine} {left : Machine → Prop} {count : Nat} {operation : Opcode}
  {w : Word}

/-! ## Operations -/

namespace FailsTo

theorem failed {fault : Fault} (hm : left m) (hf : ¬ (Failure.fault fault).OfDecoding) :
    FailsTo left (.error (.fault fault) m : EStateM.Result Failure Machine α) := ⟨hf, hm⟩

theorem require_bind {x : Except Fault α} {k : α → Action β} (hm : left m) (hx : Readable x)
    (hn : ∀ v, FailsTo left (k v m)) : FailsTo left ((require x >>= k) m) := by
  cases x with
  | ok v => exact hn v
  | error fault => exact failed hm (hx fault rfl)

theorem ofStack_bind {read : Stack → Except Fault α} {k : α → Action β} (hm : left m)
    (hr : Readable (read m.stack)) (hn : ∀ v, FailsTo left (k v m)) :
    FailsTo left ((ofStack read >>= k) m) := by
  cases hread : read m.stack with
  | ok v =>
    rw [bind_of_ok (ofStack_ok hread)]
    exact hn v
  | error fault =>
    rw [bind_of_error (ofStack_error hread)]
    exact failed hm (hr fault hread)

theorem onHeap_bind {action : Heap.Action α} {k : α → Action β}
    (ha : Outcome (fun _ _ => True)
      (fun failure g => failure.ofHeap = true ∧ left { m with heap := g }) (action m.heap))
    (hn : ∀ v g, FailsTo left (k v { m with heap := g })) :
    FailsTo left ((onHeap action >>= k) m) := by
  refine ((onHeap_spec ha).mono (fun _ _ => And.right) ?_).bind fun v t ht => ?_
  · rintro failure t ⟨⟨hf, hleft⟩, ht⟩
    exact ⟨Failure.not_ofDecoding_of_ofHeap hf, ht ▸ hleft⟩
  · rw [ht]
    exact hn v t.heap

theorem mono {left' : Machine → Prop} {result : EStateM.Result Failure Machine α}
    (h : FailsTo left result) (hl : ∀ t, left t → left' t) : FailsTo left' result :=
  Outcome.mono h (fun _ _ => id) fun _ t ⟨hf, ht⟩ => ⟨hf, hl t ht⟩

theorem of_completes {result : EStateM.Result Failure Machine α} (h : Completes result) :
    FailsTo left result :=
  h.mono (fun _ _ => id) fun _ _ => False.elim

end FailsTo

namespace FailsWithin

theorem failed {fault : Fault} (hm : m.stack.Bounded)
    (hf : ¬ (Failure.fault fault).OfDecoding) :
    FailsWithin count m (.error (.fault fault) m : EStateM.Result Failure Machine α) :=
  FailsTo.failed (.refl count hm) hf

theorem require_bind {x : Except Fault α} {k : α → Action β} (hm : m.stack.Bounded)
    (hx : Readable x) (hn : ∀ v, FailsWithin count m (k v m)) :
    FailsWithin count m ((require x >>= k) m) :=
  FailsTo.require_bind (.refl count hm) hx hn

theorem ofStack_bind {read : Stack → Except Fault α} {k : α → Action β} (hm : m.stack.Bounded)
    (hr : Readable (read m.stack)) (hn : ∀ v, FailsWithin count m (k v m)) :
    FailsWithin count m ((ofStack read >>= k) m) :=
  FailsTo.ofStack_bind (.refl count hm) hr hn

/-- What is popped leaves room. -/
theorem pop_bind {k : Word → Action β} (hm : m.stack.Bounded)
    (hn : ∀ w t, t.HasRoom → FailsWithin count t (k w t)) :
    FailsWithin (count + 1) m ((pop >>= k) m) := by
  cases htop : m.stack.top with
  | error fault =>
    rw [bind_of_error (pop_error htop)]
    exact failed hm (Readable.get _ fault htop)
  | ok w =>
    rw [bind_of_ok (pop_ok htop)]
    have hpos := (Stack.get_eq_ok.1 htop).1
    have hroom : HasRoom { m with stack := m.stack.drop } := by
      have hpointer := hm.pointer_eq
      have hheight := hm.height_le
      refine ⟨hm.drop hpos, ?_⟩
      rw [Stack.height_drop, Stack.size_drop]
      omega
    refine FailsTo.mono (hn w _ hroom) fun t ht => ?_
    rw [Nat.add_comm]
    exact (Lowered.drop hpos).trans ht

theorem popInteger_bind {k : Int64 → Action β} (hm : m.stack.Bounded)
    (hn : ∀ v t, t.HasRoom → FailsWithin count t (k v t)) :
    FailsWithin (count + 1) m ((popInteger operation >>= k) m) := by
  rw [popInteger, bind_assoc]
  exact pop_bind hm fun w t ht => require_bind ht.bounded (.integer w) fun v => hn v t ht

theorem popCell_bind {k : Ref → Action β} {fault : Fault} (hm : m.stack.Bounded)
    (hf : ¬ (Failure.fault fault).OfDecoding)
    (hn : ∀ cell t, t.HasRoom → FailsWithin count t (k cell t)) :
    FailsWithin (count + 1) m ((popCell operation fault >>= k) m) := by
  simp only [popCell, bind_assoc]
  refine pop_bind hm fun w t ht => require_bind ht.bounded (.reference w) fun cell => ?_
  split
  · exact failed ht.bounded hf
  · exact hn cell t ht

/-- The heap refuses a field, or it gives way to what does not fail. -/
theorem onHeap_bind {action : Heap.Action α} {k : α → Action β} (hm : m.stack.Bounded)
    (ha : Outcome (fun _ _ => True) (fun failure g => failure.ofHeap = true ∧ g = m.heap)
      (action m.heap))
    (hn : ∀ v g, Completes (k v { m with heap := g })) :
    FailsWithin count m ((onHeap action >>= k) m) := by
  refine FailsTo.onHeap_bind (ha.mono (fun _ _ => id) ?_) fun v g => .of_completes (hn v g)
  rintro failure g ⟨hf, rfl⟩
  exact ⟨hf, .refl count hm⟩

end FailsWithin

theorem push_fails (hm : m.stack.Bounded) : FailsWithin count m (push w m) := by
  rw [push_eq hm]
  split
  · trivial
  · exact .failed hm nofun

theorem push_completes (hm : m.HasRoom) : Completes (push w m) := by
  rw [push_eq hm.bounded, if_pos hm.room]
  trivial

/-! ## Instructions -/

open FailsWithin

theorem arithmetic_fails {f : Int64 → Int64 → Except Fault Int64} (hm : m.stack.Bounded)
    (hf : ∀ l r, Readable (f l r)) : FailsWithin 2 m (arithmetic operation f m) :=
  popInteger_bind hm fun right _ ht => popInteger_bind ht.bounded fun left _ hu =>
    require_bind hu.bounded (hf left right) fun _ => .of_completes (push_completes hu)

theorem equal_fails (hm : m.stack.Bounded) : FailsWithin 2 m (equal m) :=
  pop_bind hm fun _ _ ht => pop_bind ht.bounded fun _ _ hu => .of_completes (push_completes hu)

theorem negation_fails (hm : m.stack.Bounded) : FailsWithin 1 m (negation m) :=
  pop_bind hm fun _ _ ht => .of_completes (push_completes ht)

theorem duplicate_fails (hm : m.stack.Bounded) : FailsWithin 0 m (duplicate m) := by
  rw [duplicate_eq]
  exact ofStack_bind hm (.get _) fun _ => push_fails hm

theorem swap_fails (hm : m.stack.Bounded) : FailsWithin 0 m (swap m) := by
  rw [swap_eq]
  exact ofStack_bind hm (.get _) fun _ => ofStack_bind hm (.get _) fun _ => trivial

theorem loadIndirect_fails (hm : m.stack.Bounded) : FailsWithin 1 m (loadIndirect m) := by
  rw [loadIndirect_eq]
  exact popInteger_bind hm fun index _ ht =>
    ofStack_bind ht.bounded (.bind (.slotOf index) fun _ => .get _) fun _ =>
      .of_completes (push_completes ht)

theorem storeIndirect_fails (hm : m.stack.Bounded) : FailsWithin 2 m (storeIndirect m) := by
  rw [storeIndirect_eq]
  refine pop_bind hm fun w _ ht => popInteger_bind ht.bounded fun index u hu => ?_
  refine ofStack_bind hu.bounded (.slotOf index) fun slot => ?_
  -- A slot is written before the push, so the push must not fail.
  have hroom : HasRoom { u with stack := u.stack.store slot [w] } :=
    ⟨hu.bounded.store, by simpa using hu.room⟩
  exact .of_completes (push_completes hroom)

theorem reserve_fails (shift : Int64) (hm : m.stack.Bounded) :
    FailsWithin 0 m (reserve shift m) := by
  rw [reserve_eq hm]
  exact ofStack_bind hm (.moved shift) fun _ => trivial

theorem goto_fails (address : Int64) (hm : m.stack.Bounded) :
    FailsWithin count m (goto address m) :=
  require_bind hm (.codeAddress address) fun _ => trivial

theorem branch_fails (zero : Bool) (address : Int64) (hm : m.stack.Bounded) :
    FailsWithin 1 m (branch zero address m) := by
  refine pop_bind hm fun w t ht => ?_
  split
  · exact goto_fails address ht.bounded
  · trivial

theorem call_fails (argc address : Int64) (next : Nat) (hm : m.stack.Bounded) :
    FailsWithin 0 m (call argc address next m) := by
  rw [call_eq]
  exact ofStack_bind hm (.argumentCount argc) fun _ => ofStack_bind hm (.moved 2) fun _ =>
    require_bind hm (.codeAddress address) fun _ => trivial

theorem tailCall_fails (argc drop address : Int64) (hm : m.stack.Bounded) :
    FailsWithin 0 m (tailCall argc drop address m) := by
  rw [tailCall_eq hm.upper]
  refine ofStack_bind hm (.argumentCount argc) fun _ => ofStack_bind hm (.moved _) fun _ => ?_
  refine require_bind hm (.codeAddress address) fun _ => ?_
  split
  · exact failed hm nofun
  · trivial

theorem ret_fails (locals : Int64) (hm : m.stack.Bounded) : FailsWithin 0 m (ret locals m) := by
  rw [ret_eq]
  exact ofStack_bind hm (.get _) fun _ => ofStack_bind hm (.moved _) fun _ =>
    ofStack_bind hm (.get _) fun bp => require_bind hm (.integer bp) fun _ =>
    ofStack_bind hm (.get _) fun saved => require_bind hm (.integer saved) fun pc =>
    require_bind hm (.codeAddress pc) fun _ => trivial

theorem take_fails (part : CellPart) (hm : m.stack.Bounded) :
    FailsWithin 1 m (take operation part m) :=
  popCell_bind hm nofun fun cell t ht =>
    .onHeap_bind ht.bounded (Heap.field_reports t.heap cell part.offset) fun _ _ =>
      push_completes ⟨ht.bounded, ht.room⟩

theorem set_fails (part : CellPart) (hm : m.stack.Bounded) :
    FailsWithin 2 m (set operation part m) :=
  pop_bind hm fun value _ ht => popCell_bind ht.bounded nofun fun cell u hu =>
    .onHeap_bind hu.bounded (Heap.setField_reports u.heap cell part.offset value) fun _ _ =>
      push_completes ⟨hu.bounded, hu.room⟩

/-- Nothing but the heap has changed when a cell cannot be made. -/
theorem cons_fails (m : Machine) : FailsTo (fun t => t = { m with heap := t.heap }) (cons m) := by
  rw [cons_eq]
  refine .ofStack_bind rfl (.get _) fun car => .ofStack_bind rfl (.get _) fun cdr => ?_
  have allocation := Heap.allocate_reports m.heap .cons 2 m.stack.live
  refine .onHeap_bind (allocation.mono (fun _ _ => id) fun _ _ hf => ⟨hf, rfl⟩) fun cell g => ?_
  have first := Heap.setField_reports g cell CellPart.car.offset car
  refine .onHeap_bind (first.mono (fun _ _ => id) fun _ _ hf => ⟨hf.1, rfl⟩) fun _ g => ?_
  have second := Heap.setField_reports g cell CellPart.cdr.offset cdr
  exact .onHeap_bind (second.mono (fun _ _ => id) fun _ _ hf => ⟨hf.1, rfl⟩) fun _ _ => trivial

/-! ## Arguments -/

/-- The stack has been filled with as many of the values as there was room for. -/
structure Filled (values : List Int64) (m t : Machine) : Prop where
  frame : t = { m with stack := t.stack }
  size : t.stack.size = m.stack.size
  full : t.stack.pointer + 1 = t.stack.size
  live : ∃ loaded, loaded <+: values ∧ t.stack.live = m.stack.live ++ loaded.map Word.int

theorem Filled.cons {value : Int64} {values : List Int64} (hm : m.HasRoom)
    (h : Filled values { m with stack := m.stack.push (.int value) } t) :
    Filled (value :: values) m t := by
  obtain ⟨hframe, hsize, hfull, loaded, hprefix, hlive⟩ := h
  refine ⟨hframe, hsize.trans Stack.size_push, hfull, value :: loaded, ?_, ?_⟩
  · exact List.cons_prefix_cons.2 ⟨rfl, hprefix⟩
  · rw [hlive, Stack.live_push hm.bounded hm.room]
    simp

theorem pushAll_fails (values : List Int64) (hm : m.stack.Bounded) :
    FailsTo (Filled values m) (pushAll values m) := by
  induction values generalizing m with
  | nil => trivial
  | cons value rest ih =>
    have hpush := push_eq (w := .int value) hm
    by_cases hroom : m.stack.height < m.stack.size
    · rw [if_pos hroom] at hpush
      rw [pushAll, bind_of_ok hpush]
      exact (ih (.push hroom)).mono fun _ ht => ht.cons ⟨hm, hroom⟩
    · rw [if_neg hroom] at hpush
      have hpointer := hm.pointer_eq
      have hheight := hm.height_le
      rw [pushAll, bind_of_error hpush]
      exact .failed ⟨rfl, rfl, by omega, [], List.nil_prefix, by simp⟩ nofun

end

/-! ## Execution -/

/-- What is left of `m` when the operation fails. -/
def Leaves (operation : Opcode) (m t : Machine) : Prop :=
  match operation with
  | .cons => t = { m with heap := t.heap }
  | .ldargs => Filled m.arguments m t
  | operation => m.Lowered operation.taken t

/-- The operation fails in its own way, and if it prints something, then it does nothing else. -/
def Executes (operation : Opcode) (m : Machine) : EStateM.Result Failure Machine Event → Prop :=
  Outcome (fun event t => ∀ text, event = .printed text →
      operation ∈ [.printi, .printc] ∧ t = m)
    fun failure t => ¬ failure.OfDecoding ∧ Leaves operation m t

section

variable {m t : Machine} {i : Instruction} {next : Nat}

theorem silently_fails {left : Machine → Prop} {action : Action Unit}
    (h : FailsTo left (action m)) {P : String → Machine → Prop} :
    Outcome (fun event t => ∀ text, event = .printed text → P text t)
      (fun failure t => ¬ failure.OfDecoding ∧ left t) (silently action m) :=
  h.bind fun _ _ _ => nofun

theorem top_executes {operation : Opcode} {k : Word → Action Event} (hm : Leaves operation m m)
    (hk : ∀ w, Executes operation m (k w m)) :
    Executes operation m ((top >>= k) m) := by
  rw [top_eq]
  cases htop : m.stack.top with
  | ok w =>
    rw [bind_of_ok (ofStack_ok htop)]
    exact hk w
  | error fault =>
    rw [bind_of_error (ofStack_error htop)]
    exact ⟨Readable.get _ fault htop, hm⟩

theorem stop_executes (hm : m.stack.Bounded) : Executes .stop m (stop m) := by
  change Executes _ _ ((if m.stack.pointer < 0 then _ else _ : Action Event) m)
  split
  · exact nofun
  · exact top_executes (.refl 0 hm) fun _ => nofun

theorem printWord_executes (hm : m.stack.Bounded) : Executes .printi m (printWord m) :=
  top_executes (.refl 0 hm) fun _ _ _ => ⟨by decide, rfl⟩

theorem printCharacter_executes (hm : m.stack.Bounded) : Executes .printc m (printCharacter m) :=
  top_executes (.refl 0 hm) fun w => by cases w <;> exact fun _ _ => ⟨by decide, rfl⟩

theorem execute_executes (next : Nat) (hwf : i.WellFormed) (hm : m.stack.Bounded) :
    Executes i.opcode m (execute i next m) := by
  obtain ⟨opcode, operands⟩ := i
  change operands.length = _ at hwf
  cases opcode with
  | csti => exact unary_of_length hwf fun k => silently_fails (push_fails hm)
  | add => exact nullary_of_length hwf (silently_fails (arithmetic_fails hm fun _ _ => .value _))
  | sub => exact nullary_of_length hwf (silently_fails (arithmetic_fails hm fun _ _ => .value _))
  | mul => exact nullary_of_length hwf (silently_fails (arithmetic_fails hm fun _ _ => .value _))
  | div => exact nullary_of_length hwf (silently_fails (arithmetic_fails hm fun _ _ => .quotient))
  | mod => exact nullary_of_length hwf (silently_fails (arithmetic_fails hm fun _ _ => .remainder))
  | eq => exact nullary_of_length hwf (silently_fails (equal_fails hm))
  | lt => exact nullary_of_length hwf (silently_fails (arithmetic_fails hm fun _ _ => .value _))
  | not => exact nullary_of_length hwf (silently_fails (negation_fails hm))
  | dup => exact nullary_of_length hwf (silently_fails (duplicate_fails hm))
  | swap => exact nullary_of_length hwf (silently_fails (swap_fails hm))
  | ldi => exact nullary_of_length hwf (silently_fails (loadIndirect_fails hm))
  | sti => exact nullary_of_length hwf (silently_fails (storeIndirect_fails hm))
  | getbp => exact nullary_of_length hwf (silently_fails (push_fails hm))
  | getsp => exact nullary_of_length hwf (silently_fails (push_fails hm))
  | incsp => exact unary_of_length hwf fun shift => silently_fails (reserve_fails shift hm)
  | goto => exact unary_of_length hwf fun address => silently_fails (goto_fails address hm)
  | ifzero => exact unary_of_length hwf fun address => silently_fails (branch_fails true address hm)
  | ifnzro => exact unary_of_length hwf fun address => silently_fails (branch_fails false address hm)
  | call =>
    exact binary_of_length hwf fun argc address => silently_fails (call_fails argc address next hm)
  | tcall =>
    exact ternary_of_length hwf fun argc drop address =>
      silently_fails (tailCall_fails argc drop address hm)
  | ret => exact unary_of_length hwf fun locals => silently_fails (ret_fails locals hm)
  | printi => exact nullary_of_length hwf (printWord_executes hm)
  | printc => exact nullary_of_length hwf (printCharacter_executes hm)
  | ldargs => exact nullary_of_length hwf (silently_fails (pushAll_fails m.arguments hm))
  | stop => exact nullary_of_length hwf (stop_executes hm)
  | nil => exact nullary_of_length hwf (silently_fails (push_fails hm))
  | cons => exact nullary_of_length hwf (silently_fails (cons_fails m))
  | car => exact nullary_of_length hwf (silently_fails (take_fails .car hm))
  | cdr => exact nullary_of_length hwf (silently_fails (take_fails .cdr hm))
  | setcar => exact nullary_of_length hwf (silently_fails (set_fails .car hm))
  | setcdr => exact nullary_of_length hwf (silently_fails (set_fails .cdr hm))

end

/-! ## Steps -/

/-- What is left of `m` when an instruction that ends at `next` is decoded and fails. -/
structure Abandoned (operation : Opcode) (next : Nat) (m t : Machine) : Prop where
  pc : t.pc = next
  bp : t.bp = m.bp
  code : t.code = m.code
  arguments : t.arguments = m.arguments
  executed : t.executed = m.executed + 1
  size : t.stack.size = m.stack.size
  slots : operation ≠ .ldargs → t.stack.slots = m.stack.slots
  pointer : operation ≠ .ldargs → -1 ≤ t.stack.pointer ∧
    t.stack.pointer ≤ m.stack.pointer ∧ m.stack.pointer ≤ t.stack.pointer + 2
  unmoved : operation ∈ Opcode.movingLast → t.stack.pointer = m.stack.pointer
  filled : operation = .ldargs → t.stack.pointer + 1 = t.stack.size ∧
    ∃ loaded, loaded <+: m.arguments ∧ t.stack.live = m.stack.live ++ loaded.map Word.int
  heap : operation ≠ .cons → t.heap = m.heap

section

variable {m t : Machine} {operation : Opcode} {next : Nat}

/-- The machine after an instruction has been decoded. -/
def fetched (m : Machine) (next : Nat) : Machine := { m with pc := next, executed := m.executed + 1 }

theorem Lowered.abandoned (hop : operation ≠ .ldargs)
    (h : (m.fetched next).Lowered operation.taken t) : Abandoned operation next m t := by
  obtain ⟨pointer, hlow, hle, hge, rfl⟩ := h
  have htaken := operation.taken_le
  simp only [fetched] at hle hge
  refine ⟨rfl, rfl, rfl, rfl, rfl, rfl, fun _ => rfl, fun _ => ?_, fun hlast => ?_,
    fun h => absurd h hop, fun _ => rfl⟩
  · simp only [fetched, Stack.pointer_setPointer]
    omega
  · rw [Opcode.taken_of_movingLast hlast] at hge
    simp only [fetched, Stack.pointer_setPointer]
    omega

theorem Filled.abandoned (h : Filled m.arguments (m.fetched next) t) :
    Abandoned .ldargs next m t := by
  obtain ⟨hframe, hsize, hfull, hlive⟩ := h
  rw [hframe]
  exact ⟨rfl, rfl, rfl, rfl, rfl, hsize, fun h => absurd rfl h, fun h => absurd rfl h,
    fun h => absurd h (by decide), fun _ => ⟨hfull, hlive⟩, fun _ => rfl⟩

theorem Leaves.abandoned (hm : m.stack.Bounded) (h : Leaves operation (m.fetched next) t) :
    Abandoned operation next m t := by
  unfold Leaves at h
  split at h
  · rw [h]
    have hlower := hm.lower
    refine ⟨rfl, rfl, rfl, rfl, rfl, rfl, fun _ => rfl, fun _ => ?_, fun _ => rfl, nofun,
      fun h => absurd rfl h⟩
    simp only [fetched]
    omega
  · exact Filled.abandoned h
  · next hop => exact Lowered.abandoned hop h

/-- What a step that fails leaves of the machine. -/
def StepAbandoned (m t : Machine) : Prop :=
  match Instruction.decode m.code m.pc with
  | .ok (i, next) => Abandoned i.opcode next m t
  | .error _ => t = m

/-- A step that prints has to do with failure too: what it prints may still be refused. -/
theorem step_fails (hm : m.stack.Bounded) :
    Outcome (fun event t => ∀ text, event = .printed text → m.StepAbandoned t)
      (fun _ t => m.StepAbandoned t) (step m) := by
  unfold step StepAbandoned
  cases hdecode : Instruction.decode m.code m.pc with
  | error fault => rfl
  | ok decoded =>
    obtain ⟨i, next⟩ := decoded
    have hwf := Instruction.wellFormed_of_decode hdecode
    have hexecute : Executes i.opcode (m.fetched next) (execute i next (m.fetched next)) :=
      execute_executes next hwf hm
    refine hexecute.mono (fun event t h text htext => ?_) fun _ _ h => h.2.abandoned hm
    obtain ⟨hop, rfl⟩ := h text htext
    refine Lowered.abandoned (fun hldargs => ?_) (.refl _ hm)
    rw [hldargs] at hop
    exact absurd hop (by decide)

end

end Machine

/-! ## Sessions -/

namespace Session

open Machine

variable {s : Session}

/-- What a step that fails leaves. Where the trace line is refused, the machine has done nothing. -/
def StepAbandoned (s t : Session) : Prop :=
  match announce s with
  | .ok () _ => s.machine.StepAbandoned t.machine
  | .error _ _ => t.machine = s.machine

theorem step_fails (hm : s.machine.stack.Bounded) :
    Outcome (fun _ _ => True) (fun _ t => s.StepAbandoned t) (step s) := by
  unfold StepAbandoned
  cases hannounce : announce s with
  | error failure u =>
    rw [step, bind_of_error hannounce]
    exact (announce_spec.of_error hannounce).2
  | ok written u =>
    have hu : u.machine = s.machine := announce_spec.of_ok hannounce
    have hmachine := Machine.step_fails hm
    rw [step, bind_of_ok hannounce]
    rw [← hu] at hmachine ⊢
    refine (onMachine_spec hmachine).bind fun event v hv => ?_
    cases event with
    | silent => trivial
    | stopped result => trivial
    | printed text =>
      have hemit := emit_spec (s := v) (.printed text)
      exact hemit.mono (fun _ _ _ => trivial) fun _ _ ht => ht.2 ▸ hv text rfl

/-- Whatever the program is, and whatever steps have failed before, a step that fails has changed
nothing but the program counter and the height of the stack, where it has not collected the heap or
loaded arguments. -/
theorem failed_step_of_any_run (code arguments : List Int64) {heapSize : Nat} (stackSize : Nat)
    (hsize : 2 ≤ heapSize) :
    ∃ m, Machine.new code arguments heapSize stackSize = .ok m ∧ ∀ traced sink n failure t,
      step (after^[n] ⟨m, traced, sink⟩) = .error failure t →
        (after^[n] ⟨m, traced, sink⟩).StepAbandoned t := by
  obtain ⟨m, hnew, hm⟩ := new_intact code arguments stackSize hsize
  refine ⟨m, hnew, fun traced sink n failure t hstep => ?_⟩
  have hs := iterate_intact (s := ⟨m, traced, sink⟩) n hm
  exact (step_fails hs.stack.bounded).of_error hstep

/-- The sum of null and 5 is refused when both have been taken off the stack. -/
theorem failed_step_of_sum_of_null : ∃ m, Machine.new [26, 0, 5, 1] [] 6 2 = .ok m ∧
    ∃ failure t, step (after^[2] ⟨m, false, .unlimited⟩) = .error failure t ∧
      (after^[2] ⟨m, false, .unlimited⟩).StepAbandoned t ∧ t.machine.pc = 4 ∧
      t.machine.stack = ⟨#[.null, .int 5], -1⟩ := by
  obtain ⟨m, hm, h⟩ := failed_step_of_any_run [26, 0, 5, 1] [] 2 (show 2 ≤ 6 by decide)
  have hfails : Outcome (fun _ _ => False)
      (fun _ t => t.machine.pc = 4 ∧ t.machine.stack = ⟨#[.null, .int 5], -1⟩)
      (step (after^[2] ⟨m, false, .unlimited⟩)) := by
    cases hm
    decide +kernel
  cases hstep : step (after^[2] ⟨m, false, .unlimited⟩) with
  | ok result t => exact (hfails.of_ok hstep).elim
  | error failure t =>
    exact ⟨m, hm, failure, t, hstep, h false .unlimited 2 failure t hstep, hfails.of_error hstep⟩

end Session

end ConsMachine
