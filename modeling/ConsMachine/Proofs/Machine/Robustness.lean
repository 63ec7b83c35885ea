import ConsMachine.Proofs.Heap.BoundedSearch
import ConsMachine.Proofs.Machine.MemorySafety

/-!
# Robustness

Whatever the code is, and however often a step is repeated after it has failed or after the program
has stopped, the machine stays in bounds: the stack pointer is one of its slots or -1, the heap is cut
into blocks, and a step that fails reports a fault. The free list may be broken by then; the search
for a cell ends nevertheless.

## Main definitions

* `Machine.Intact` — the invariant.
* `Machine.WellStructured`, `Heap.SearchEnds` — what it means to whoever looks at the machine.
-/

namespace ConsMachine

/-! ## Stacks -/

/-- A stack of so many slots, each with a word that may be stored. -/
structure Stack.Intact (heapSize stackSize : Nat) (s : Stack) : Prop where
  size : s.size = stackSize
  bounded : s.Bounded
  slots : ∀ {k : Nat} {w : Word}, s.slots[k]? = some w → w.Within heapSize

namespace Stack.Intact

variable {s : Stack} {heapSize stackSize : Nat} {w : Word}

theorem get (hs : s.Intact heapSize stackSize) {index : Int} (hg : s.get index = .ok w) :
    w.Within heapSize := hs.slots (Stack.get_eq_ok.1 hg).2

theorem live (hs : s.Intact heapSize stackSize) (hw : w ∈ s.live) : w.Within heapSize := by
  obtain ⟨k, -, hk⟩ := (mem_live hs.bounded.height_le).1 hw
  exact hs.slots hk

theorem store (hs : s.Intact heapSize stackSize) (index : Nat) {words : List Word}
    (hw : ∀ w ∈ words, w.Within heapSize) : (s.store index words).Intact heapSize stackSize := by
  refine ⟨size_store.trans hs.size, hs.bounded.store, fun {k w} hk => ?_⟩
  rw [getElem?_store] at hk
  split at hk
  · exact hw w (List.mem_of_getElem? hk)
  · exact hs.slots hk

theorem slide (hs : s.Intact heapSize stackSize) (source target count : Nat) :
    (s.slide source target count).Intact heapSize stackSize := by
  induction count generalizing s source target with
  | zero => exact hs
  | succ count ih =>
    have hword : (s.slots[source]?.getD .zero).Within heapSize := by
      cases hsource : s.slots[source]? with
      | none => exact .int 0
      | some word => exact hs.slots hsource
    have hstep : (s.store target [s.slots[source]?.getD .zero]).Intact heapSize stackSize :=
      hs.store _ (by simpa using hword)
    exact ih hstep (source + 1) (target + 1)

theorem setPointer (hs : s.Intact heapSize stackSize) {pointer : Int} (hp : -1 ≤ pointer)
    (hlt : pointer < s.size) : (s.setPointer pointer).Intact heapSize stackSize :=
  ⟨hs.size, ⟨hp, hlt⟩, hs.slots⟩

theorem push (hs : s.Intact heapSize stackSize) (hlt : s.height < s.size)
    (hw : w.Within heapSize) : (s.push w).Intact heapSize stackSize := by
  have hstored : (s.store s.height [w]).Intact heapSize stackSize :=
    hs.store _ (by simpa using hw)
  exact ⟨hstored.size, .push hlt, hstored.slots⟩

theorem drop (hs : s.Intact heapSize stackSize) (hp : 0 ≤ s.pointer) :
    s.drop.Intact heapSize stackSize := ⟨hs.size, hs.bounded.drop hp, hs.slots⟩

end Stack.Intact

namespace Machine

/-- What holds of any machine with so many words and slots. -/
structure Intact (heapSize stackSize : Nat) (m : Machine) : Prop where
  stack : m.stack.Intact heapSize stackSize
  heap : m.heap.Intact heapSize

section

variable {heapSize stackSize : Nat} {m : Machine} {α β : Type} {V : α → Prop} {W : β → Prop}
  {w : Word}

/-! ## Readings and words on top -/

theorem robust_require_bind {x : Except Fault α} {k : α → Action β}
    (hm : m.Intact heapSize stackSize)
    (hn : ∀ v, x = .ok v → Robust (Intact heapSize stackSize) W (k v m)) :
    Robust (Intact heapSize stackSize) W ((require x >>= k) m) := by
  cases x with
  | ok v => exact hn v rfl
  | error fault => exact .reported hm

theorem robust_ofStack_bind {read : Stack → Except Fault α} {k : α → Action β}
    (hm : m.Intact heapSize stackSize)
    (hn : ∀ v, read m.stack = .ok v → Robust (Intact heapSize stackSize) W (k v m)) :
    Robust (Intact heapSize stackSize) W ((ofStack read >>= k) m) := by
  cases hr : read m.stack with
  | ok v =>
    rw [bind_of_ok (ofStack_ok hr)]
    exact hn v hr
  | error fault =>
    rw [bind_of_error (ofStack_error hr)]
    exact .reported hm

theorem robust_onStack {change : Stack → Stack} (hm : m.Intact heapSize stackSize)
    (hs : (change m.stack).Intact heapSize stackSize) :
    Robust (Intact heapSize stackSize) (fun _ => True) (onStack change m) :=
  .returned ⟨hs, hm.heap⟩ trivial

theorem robust_onHeap {action : Heap.Action α} (hm : m.Intact heapSize stackSize)
    (ha : Robust (Heap.Intact heapSize) V (action m.heap)) :
    Robust (Intact heapSize stackSize) V (onHeap action m) := by
  refine (onHeap_spec ha).mono (fun v m' ⟨hv, hm'⟩ => ⟨hv.1, ?_, hv.2⟩)
    fun e m' ⟨he, hm'⟩ => ⟨he.1, ?_, he.2⟩
  · rw [hm']
    exact hm.stack
  · rw [hm']
    exact hm.stack

theorem robust_push (hm : m.Intact heapSize stackSize) (hw : w.Within heapSize) :
    Robust (Intact heapSize stackSize) (fun _ => True) (push w m) := by
  rw [push_eq hm.stack.bounded]
  split
  · next hlt => exact .returned ⟨hm.stack.push hlt hw, hm.heap⟩ trivial
  · exact .reported hm

theorem robust_pop (hm : m.Intact heapSize stackSize) :
    Robust (Intact heapSize stackSize) (Word.Within heapSize) (pop m) := by
  cases ht : m.stack.top with
  | ok w =>
    rw [pop_ok ht]
    exact .returned ⟨hm.stack.drop (Stack.get_eq_ok.1 ht).1, hm.heap⟩ (hm.stack.get ht)
  | error fault =>
    rw [pop_error ht]
    exact .reported hm

theorem robust_popInteger (operation : Opcode) (hm : m.Intact heapSize stackSize) :
    Robust (Intact heapSize stackSize) (fun _ => True) (popInteger operation m) := by
  refine (robust_pop hm).bind fun w m _ hm => ?_
  cases w with
  | int value => exact .returned hm trivial
  | ref target => exact .reported hm
  | header header => exact .reported hm

theorem robust_popCell (operation : Opcode) (fault : Fault) (hm : m.Intact heapSize stackSize) :
    Robust (Intact heapSize stackSize) (fun cell => (Word.ref cell).Within heapSize)
      (popCell operation fault m) := by
  refine (robust_pop hm).bind fun w m hw hm => ?_
  refine robust_require_bind hm fun cell hcell => ?_
  obtain rfl : w = .ref cell := by
    cases w <;> cases hcell
    rfl
  split
  · exact .reported hm
  · exact .returned hm hw

/-! ## Instructions -/

theorem robust_arithmetic (operation : Opcode) (f : Int64 → Int64 → Except Fault Int64)
    (hm : m.Intact heapSize stackSize) :
    Robust (Intact heapSize stackSize) (fun _ => True) (arithmetic operation f m) := by
  refine (robust_popInteger operation hm).bind fun right m _ hm => ?_
  refine (robust_popInteger operation hm).bind fun left m _ hm => ?_
  exact robust_require_bind hm fun v _ => robust_push hm (.int v)

theorem robust_equal (hm : m.Intact heapSize stackSize) :
    Robust (Intact heapSize stackSize) (fun _ => True) (equal m) := by
  refine (robust_pop hm).bind fun right m _ hm => ?_
  exact (robust_pop hm).bind fun left m _ hm => robust_push hm (.int _)

theorem robust_negation (hm : m.Intact heapSize stackSize) :
    Robust (Intact heapSize stackSize) (fun _ => True) (negation m) :=
  (robust_pop hm).bind fun _ _ _ hm => robust_push hm (.int _)

theorem robust_duplicate (hm : m.Intact heapSize stackSize) :
    Robust (Intact heapSize stackSize) (fun _ => True) (duplicate m) := by
  rw [duplicate_eq]
  exact robust_ofStack_bind hm fun _ hw => robust_push hm (hm.stack.get hw)

theorem robust_swap (hm : m.Intact heapSize stackSize) :
    Robust (Intact heapSize stackSize) (fun _ => True) (swap m) := by
  rw [swap_eq]
  refine robust_ofStack_bind hm fun upper hupper => ?_
  refine robust_ofStack_bind hm fun lower hlower => ?_
  refine robust_onStack hm (hm.stack.store _ ?_)
  simpa using ⟨hm.stack.get hupper, hm.stack.get hlower⟩

theorem robust_loadIndirect (hm : m.Intact heapSize stackSize) :
    Robust (Intact heapSize stackSize) (fun _ => True) (loadIndirect m) := by
  rw [loadIndirect_eq]
  refine (robust_popInteger .ldi hm).bind fun index m _ hm => ?_
  refine robust_ofStack_bind hm fun w hw => robust_push hm ?_
  cases hs : m.stack.slotOf index with
  | error fault =>
    rw [hs] at hw
    cases hw
  | ok slot =>
    rw [hs] at hw
    change m.stack.get slot = .ok w at hw
    exact hm.stack.get hw

theorem robust_storeIndirect (hm : m.Intact heapSize stackSize) :
    Robust (Intact heapSize stackSize) (fun _ => True) (storeIndirect m) := by
  rw [storeIndirect_eq]
  refine (robust_pop hm).bind fun w m hw hm => ?_
  refine (robust_popInteger .sti hm).bind fun index m _ hm => ?_
  refine robust_ofStack_bind hm fun slot _ => ?_
  exact (robust_onStack hm (hm.stack.store slot (by simpa using hw))).bind
    fun _ _ _ hm => robust_push hm hw

theorem robust_reserve (shift : Int64) (hm : m.Intact heapSize stackSize) :
    Robust (Intact heapSize stackSize) (fun _ => True) (reserve shift m) := by
  rw [reserve_eq hm.stack.bounded]
  refine robust_ofStack_bind hm fun target ht => ?_
  obtain ⟨hge, hlt, -⟩ := Stack.moved_eq_ok ht
  refine robust_onStack hm ((hm.stack.store _ fun w hw => ?_).setPointer hge (by simpa using hlt))
  rw [List.eq_of_mem_replicate hw]
  exact .int 0

theorem robust_goto (address : Int64) (hm : m.Intact heapSize stackSize) :
    Robust (Intact heapSize stackSize) (fun _ => True) (goto address m) :=
  robust_require_bind hm fun _ _ => .returned ⟨hm.stack, hm.heap⟩ trivial

theorem robust_branch (zero : Bool) (address : Int64) (hm : m.Intact heapSize stackSize) :
    Robust (Intact heapSize stackSize) (fun _ => True) (branch zero address m) := by
  refine (robust_pop hm).bind fun w m _ hm => ?_
  split
  · exact robust_goto address hm
  · exact .returned hm trivial

theorem robust_call (count address : Int64) (next : Nat) (hm : m.Intact heapSize stackSize) :
    Robust (Intact heapSize stackSize) (fun _ => True) (call count address next m) := by
  rw [call_eq]
  refine robust_ofStack_bind hm fun count _ => ?_
  refine robust_ofStack_bind hm fun target ht => ?_
  refine robust_require_bind hm fun pc _ => ?_
  obtain ⟨hge, hlt, -⟩ := Stack.moved_eq_ok ht
  refine .returned ⟨(hm.stack.store _ fun w hw => ?_).setPointer hge (by simpa using hlt),
    hm.heap⟩ trivial
  rcases List.mem_append.1 hw with hsaved | hargument
  · simp only [List.mem_cons, List.not_mem_nil, or_false] at hsaved
    rcases hsaved with rfl | rfl <;> exact .int _
  · rw [Array.mem_toList_iff, Array.mem_iff_getElem?] at hargument
    obtain ⟨k, hk⟩ := hargument
    rw [Array.getElem?_extract] at hk
    split at hk
    · exact hm.stack.slots hk
    · cases hk

theorem robust_tailCall (count drop address : Int64) (hm : m.Intact heapSize stackSize) :
    Robust (Intact heapSize stackSize) (fun _ => True) (tailCall count drop address m) := by
  rw [tailCall_eq hm.stack.bounded.upper]
  refine robust_ofStack_bind hm fun count _ => ?_
  refine robust_ofStack_bind hm fun target ht => ?_
  refine robust_require_bind hm fun pc _ => ?_
  obtain ⟨hge, hlt, -⟩ := Stack.moved_eq_ok ht
  split
  · exact .reported hm
  · exact .returned ⟨(hm.stack.slide ..).setPointer hge (by simpa using hlt), hm.heap⟩ trivial

theorem robust_ret (locals : Int64) (hm : m.Intact heapSize stackSize) :
    Robust (Intact heapSize stackSize) (fun _ => True) (ret locals m) := by
  rw [ret_eq]
  refine robust_ofStack_bind hm fun result hresult => ?_
  refine robust_ofStack_bind hm fun frame hf => ?_
  refine robust_ofStack_bind hm fun saved _ => ?_
  refine robust_require_bind hm fun bp _ => ?_
  refine robust_ofStack_bind hm fun back hback => ?_
  refine robust_require_bind hm fun address _ => ?_
  refine robust_require_bind hm fun pc _ => ?_
  obtain ⟨-, hlt, -⟩ := Stack.moved_eq_ok hf
  have hge := (Stack.get_eq_ok.1 hback).1
  refine .returned ⟨(hm.stack.store _ ?_).setPointer (by omega) ?_, hm.heap⟩ trivial
  · simpa using hm.stack.get hresult
  · rw [Stack.size_store]
    omega

theorem robust_pushAll (values : List Int64) (hm : m.Intact heapSize stackSize) :
    Robust (Intact heapSize stackSize) (fun _ => True) (pushAll values m) := by
  induction values generalizing m with
  | nil => exact .returned hm trivial
  | cons value rest ih => exact (robust_push hm (.int value)).bind fun _ _ _ => ih

theorem robust_stop (hm : m.Intact heapSize stackSize) :
    Robust (Intact heapSize stackSize) (fun _ => True) (stop m) := by
  change Robust _ _ ((if m.stack.pointer < 0 then _ else _ : Action Event) m)
  rw [top_eq]
  split
  · exact .returned hm trivial
  · exact robust_ofStack_bind hm fun _ _ => .returned hm trivial

theorem robust_printWord (hm : m.Intact heapSize stackSize) :
    Robust (Intact heapSize stackSize) (fun _ => True) (printWord m) := by
  rw [printWord, top_eq]
  exact robust_ofStack_bind hm fun _ _ => .returned hm trivial

theorem robust_printCharacter (hm : m.Intact heapSize stackSize) :
    Robust (Intact heapSize stackSize) (fun _ => True) (printCharacter m) := by
  rw [printCharacter, top_eq]
  refine robust_ofStack_bind hm fun w _ => ?_
  cases w <;> exact .returned hm trivial

theorem robust_cons (hm : m.Intact heapSize stackSize) :
    Robust (Intact heapSize stackSize) (fun _ => True) (cons m) := by
  rw [cons_eq]
  refine robust_ofStack_bind hm fun car hcar => ?_
  refine robust_ofStack_bind hm fun cdr hcdr => ?_
  have hpos := (Stack.get_eq_ok.1 hcdr).1
  have hvcar := hm.stack.get hcar
  have hvcdr := hm.stack.get hcdr
  have hpopped : ∀ {cell}, (Word.ref cell).Within heapSize →
      (m.stack.store (m.stack.height - 2) [.ref cell]).drop.Intact heapSize stackSize :=
    fun hcell => (hm.stack.store _ (by simpa using hcell)).drop (Stack.pointer_store.symm ▸ hpos)
  have hroots : ∀ w ∈ m.stack.live, w.header? = none := fun w hw =>
    Heap.header?_of_within (hm.stack.live hw)
  refine (robust_onHeap hm (Heap.allocate_robust hm.heap hroots)).bind fun cell m hcell hm => ?_
  refine (robust_onHeap hm (Heap.setField_robust hm.heap hvcar)).bind fun _ m _ hm => ?_
  refine (robust_onHeap hm (Heap.setField_robust hm.heap hvcdr)).bind fun _ m _ hm => ?_
  exact robust_onStack hm (hpopped hcell)

theorem robust_take (operation : Opcode) (part : CellPart) (hm : m.Intact heapSize stackSize) :
    Robust (Intact heapSize stackSize) (fun _ => True) (take operation part m) := by
  refine (robust_popCell operation _ hm).bind fun cell m _ hm => ?_
  exact (robust_onHeap hm (Heap.field_robust hm.heap)).bind fun _ _ hw hm => robust_push hm hw

theorem robust_set (operation : Opcode) (part : CellPart) (hm : m.Intact heapSize stackSize) :
    Robust (Intact heapSize stackSize) (fun _ => True) (set operation part m) := by
  refine (robust_pop hm).bind fun value m hvalue hm => ?_
  refine (robust_popCell operation _ hm).bind fun cell m hcell hm => ?_
  exact (robust_onHeap hm (Heap.setField_robust hm.heap hvalue)).bind
    fun _ _ _ hm => robust_push hm hcell

/-! ## Steps -/

theorem robust_silently {action : Action Unit}
    (ha : Robust (Intact heapSize stackSize) (fun _ => True) (action m)) :
    Robust (Intact heapSize stackSize) (fun _ => True) (silently action m) :=
  ha.bind fun _ _ _ hm => .returned hm trivial

section

variable {operands : List Int64} {P : EStateM.Result Failure Machine Event → Prop}

/-- With the right number of operands an operation is carried out. -/
theorem nullary_of_length {action : Action Event} (hlen : operands.length = 0)
    (ha : P (action m)) : P (nullary operands action m) := by
  obtain rfl := List.length_eq_zero_iff.1 hlen
  exact ha

theorem unary_of_length {action : Int64 → Action Event} (hlen : operands.length = 1)
    (ha : ∀ a, P (action a m)) : P (unary operands action m) := by
  obtain ⟨a, rfl⟩ := List.length_eq_one_iff.1 hlen
  exact ha a

theorem binary_of_length {action : Int64 → Int64 → Action Event} (hlen : operands.length = 2)
    (ha : ∀ a b, P (action a b m)) : P (binary operands action m) := by
  obtain ⟨a, b, rfl⟩ := List.length_eq_two.1 hlen
  exact ha a b

theorem ternary_of_length {action : Int64 → Int64 → Int64 → Action Event}
    (hlen : operands.length = 3) (ha : ∀ a b c, P (action a b c m)) :
    P (ternary operands action m) := by
  obtain ⟨a, b, c, rfl⟩ := List.length_eq_three.1 hlen
  exact ha a b c

end

theorem robust_execute {i : Instruction} (next : Nat) (hwf : i.WellFormed)
    (hm : m.Intact heapSize stackSize) :
    Robust (Intact heapSize stackSize) (fun _ => True) (execute i next m) := by
  obtain ⟨opcode, operands⟩ := i
  change operands.length = _ at hwf
  cases opcode with
  | csti => exact unary_of_length hwf fun k => robust_silently (robust_push hm (.int k))
  | add => exact nullary_of_length hwf (robust_silently (robust_arithmetic _ _ hm))
  | sub => exact nullary_of_length hwf (robust_silently (robust_arithmetic _ _ hm))
  | mul => exact nullary_of_length hwf (robust_silently (robust_arithmetic _ _ hm))
  | div => exact nullary_of_length hwf (robust_silently (robust_arithmetic _ _ hm))
  | mod => exact nullary_of_length hwf (robust_silently (robust_arithmetic _ _ hm))
  | eq => exact nullary_of_length hwf (robust_silently (robust_equal hm))
  | lt => exact nullary_of_length hwf (robust_silently (robust_arithmetic _ _ hm))
  | not => exact nullary_of_length hwf (robust_silently (robust_negation hm))
  | dup => exact nullary_of_length hwf (robust_silently (robust_duplicate hm))
  | swap => exact nullary_of_length hwf (robust_silently (robust_swap hm))
  | ldi => exact nullary_of_length hwf (robust_silently (robust_loadIndirect hm))
  | sti => exact nullary_of_length hwf (robust_silently (robust_storeIndirect hm))
  | getbp => exact nullary_of_length hwf (robust_silently (robust_push hm (.int m.bp)))
  | getsp =>
    exact nullary_of_length hwf (robust_silently (robust_push hm (.int (Int64.ofInt m.stack.pointer))))
  | incsp => exact unary_of_length hwf fun shift => robust_silently (robust_reserve shift hm)
  | goto => exact unary_of_length hwf fun address => robust_silently (robust_goto address hm)
  | ifzero => exact unary_of_length hwf fun address => robust_silently (robust_branch true address hm)
  | ifnzro => exact unary_of_length hwf fun address => robust_silently (robust_branch false address hm)
  | call =>
    exact binary_of_length hwf fun count address =>
      robust_silently (robust_call count address next hm)
  | tcall =>
    exact ternary_of_length hwf fun count drop address =>
      robust_silently (robust_tailCall count drop address hm)
  | ret => exact unary_of_length hwf fun locals => robust_silently (robust_ret locals hm)
  | printi => exact nullary_of_length hwf (robust_printWord hm)
  | printc => exact nullary_of_length hwf (robust_printCharacter hm)
  | ldargs => exact nullary_of_length hwf (robust_silently (robust_pushAll m.arguments hm))
  | stop => exact nullary_of_length hwf (robust_stop hm)
  | nil =>
    exact nullary_of_length hwf (robust_silently (robust_push hm (Heap.within_null hm.heap.two_le)))
  | cons => exact nullary_of_length hwf (robust_silently (robust_cons hm))
  | car => exact nullary_of_length hwf (robust_silently (robust_take .car .car hm))
  | cdr => exact nullary_of_length hwf (robust_silently (robust_take .cdr .cdr hm))
  | setcar => exact nullary_of_length hwf (robust_silently (robust_set .setcar .car hm))
  | setcdr => exact nullary_of_length hwf (robust_silently (robust_set .setcdr .cdr hm))

theorem robust_step (hm : m.Intact heapSize stackSize) :
    Robust (Intact heapSize stackSize) (fun _ => True) (step m) := by
  simp only [step]
  split
  · exact .reported hm
  · next hdecode =>
    exact robust_execute _ (Instruction.wellFormed_of_decode hdecode) ⟨hm.stack, hm.heap⟩

theorem new_intact (code arguments : List Int64) (stackSize : Nat) (hsize : 2 ≤ heapSize) :
    ∃ m, Machine.new code arguments heapSize stackSize = .ok m ∧
      m.Intact heapSize stackSize := by
  obtain ⟨heap, hnew, hi⟩ := Heap.new_intact hsize
  refine ⟨_, by rw [Machine.new, hnew], ?_⟩
  refine ⟨⟨Array.size_replicate, Stack.bounded_empty _, ?_⟩, hi⟩
  intro k w hk
  simp only [Stack.empty, Array.getElem?_replicate] at hk
  split at hk <;> cases hk
  exact .int 0

end

/-! ## What can be seen of an intact machine -/

/-- The stack pointer is in bounds, no slot holds a header, and the walk over the heap ends where
the heap ends and meets all the headers there are. -/
structure WellStructured (heapSize stackSize : Nat) (m : Machine) : Prop where
  size : m.stack.size = stackSize
  pointer : -1 ≤ m.stack.pointer ∧ m.stack.pointer < stackSize
  noHeader : ∀ w ∈ m.stack.slots, w.header? = none
  capacity : m.heap.capacity = heapSize
  walk : ∃ blocks, m.heap.partition = .ok blocks ∧
    (∃ last, blocks.getLast? = some last ∧ last.next = heapSize) ∧
    ∀ i header, m.heap.words[i]? = some (.header header) ↔ ⟨i, header⟩ ∈ blocks

theorem Intact.wellStructured {heapSize stackSize : Nat} {m : Machine}
    (hm : m.Intact heapSize stackSize) : m.WellStructured heapSize stackSize where
  size := hm.stack.size
  pointer := hm.stack.size ▸ ⟨hm.stack.bounded.lower, hm.stack.bounded.upper⟩
  noHeader := by
    intro w hw
    obtain ⟨k, hk⟩ := Array.mem_iff_getElem?.1 hw
    exact Heap.header?_of_within (hm.stack.slots hk)
  capacity := hm.heap.capacity
  walk := by
    obtain ⟨blocks, hblocks, hmem, -⟩ := hm.heap.partitioned.blocks_eq
    have hcap := hm.heap.capacity
    have htwo := hm.heap.two_le
    refine ⟨blocks, by rw [Heap.partition, hblocks], ?_, fun i header => (hmem ⟨i, header⟩).symm⟩
    exact hcap ▸ Heap.blocksFrom_end (by omega) hblocks

end Machine

/-- The search for a cell ends after two entries at most, and its bound plays no part in that. -/
def Heap.SearchEnds (h : Heap) : Prop :=
  ∃ entries result, h.Searches 2 none h.freeList entries result ∧ entries.length ≤ 2 ∧
    h.search 2 = result.mapError .fault

theorem Heap.Intact.searchEnds {h : Heap} {size : Nat} (hi : h.Intact size) : h.SearchEnds := by
  obtain ⟨entries, result, hs, hlen⟩ := hi.searches
  exact ⟨entries, result, hs, hlen, hi.search_eq hs hlen⟩

/-! ## Runs -/

namespace Session

open Machine

variable {s : Session} {heapSize stackSize : Nat}

/-- What leaves the machine alone is robust. -/
theorem robust_of_unchanged {α : Type} {result : EStateM.Result Failure Session α}
    (hs : s.machine.Intact heapSize stackSize)
    (hr : Outcome (fun _ s' => s'.machine = s.machine)
      (fun failure s' => failure.Ordinary ∧ s'.machine = s.machine) result) :
    Robust (fun s => s.machine.Intact heapSize stackSize) (fun _ => True) result := by
  have carry : ∀ {s' : Session}, s'.machine = s.machine →
      s'.machine.Intact heapSize stackSize := fun hm => by rwa [hm]
  refine hr.mono (fun _ s' hm => ⟨trivial, carry hm⟩) fun failure s' ⟨hf, hm⟩ => ⟨?_, carry hm⟩
  obtain ⟨fault, hfault, -⟩ := hf
  exact ⟨fault, hfault⟩

theorem robust_step (hs : s.machine.Intact heapSize stackSize) :
    Robust (fun s => s.machine.Intact heapSize stackSize) (fun _ => True) (step s) := by
  refine (robust_of_unchanged hs announce_spec).bind fun _ s _ hs => ?_
  have hmachine : Robust (fun s => s.machine.Intact heapSize stackSize) (fun _ => True)
      (onMachine Machine.step s) := onMachine_spec (Machine.robust_step hs)
  exact hmachine.bind fun event s _ hs => robust_of_unchanged hs (emit_spec event)

theorem after_intact (hs : s.machine.Intact heapSize stackSize) :
    s.after.machine.Intact heapSize stackSize :=
  after_of_step (Outcome.mono (robust_step hs) (fun _ _ => And.right) fun _ _ => And.right)

theorem iterate_intact (n : Nat) (hs : s.machine.Intact heapSize stackSize) :
    (after^[n] s).machine.Intact heapSize stackSize :=
  Function.Iterate.rec (fun t : Session => t.machine.Intact heapSize stackSize) hs
    (fun _ => after_intact) n

/-- Whatever the program is and whatever steps have failed, the machine is well structured after
any number of steps, and the next one returns or reports a fault. -/
theorem well_structured_of_any_run (code arguments : List Int64) {heapSize : Nat}
    (stackSize : Nat) (hsize : 2 ≤ heapSize) :
    ∃ m, Machine.new code arguments heapSize stackSize = .ok m ∧ ∀ traced sink n,
      (after^[n] ⟨m, traced, sink⟩).machine.WellStructured heapSize stackSize ∧
        ∀ failure t, step (after^[n] ⟨m, traced, sink⟩) = .error failure t →
          ∃ fault, failure = .fault fault := by
  obtain ⟨m, hnew, hm⟩ := new_intact code arguments stackSize hsize
  refine ⟨m, hnew, fun traced sink n => ?_⟩
  have hs := iterate_intact (s := ⟨m, traced, sink⟩) n hm
  exact ⟨hs.wellStructured, fun failure t hstep => ((robust_step hs).of_error hstep).1⟩

/-- Two steps after the program that has broken the free list has stopped. -/
theorem well_structured_of_broken_free_list : ∃ m,
    Machine.new staleProgram [] 6 16 = .ok m ∧
      (after^[20] ⟨m, false, .unlimited⟩).machine.heap.check.isOk = false ∧
      (after^[20] ⟨m, false, .unlimited⟩).machine.WellStructured 6 16 := by
  obtain ⟨m, hm, h⟩ := well_structured_of_any_run staleProgram [] 16 (show 2 ≤ 6 by decide)
  refine ⟨m, hm, ?_, (h false .unlimited 20).1⟩
  cases hm
  decide +kernel

/-- Whatever the program is, the search for a cell ends after two entries at most, in the heap of
any run and in the one that is left when that is collected. -/
theorem search_ends_of_any_run (code arguments : List Int64) {heapSize : Nat}
    (stackSize : Nat) (hsize : 2 ≤ heapSize) :
    ∃ m, Machine.new code arguments heapSize stackSize = .ok m ∧ ∀ traced sink n,
      (after^[n] ⟨m, traced, sink⟩).machine.heap.SearchEnds ∧
        ∀ collected, Heap.collect (after^[n] ⟨m, traced, sink⟩).machine.stack.live
            (after^[n] ⟨m, traced, sink⟩).machine.heap = .ok () collected →
          collected.SearchEnds := by
  obtain ⟨m, hnew, hm⟩ := new_intact code arguments stackSize hsize
  refine ⟨m, hnew, fun traced sink n => ?_⟩
  have hs := iterate_intact (s := ⟨m, traced, sink⟩) n hm
  refine ⟨hs.heap.searchEnds, fun collected hc => ?_⟩
  have hroots : ∀ w ∈ (after^[n] ⟨m, traced, sink⟩).machine.stack.live, w.header? = none :=
    fun w hw => Heap.header?_of_within (hs.stack.live hw)
  exact ((Heap.collect_robust hs.heap hroots).of_ok hc).2.searchEnds

/-- A program that makes a free block its own successor. The heap has two cells and one more word. -/
def cyclicProgram : List Int64 :=
  [0, 1, 0, 1, 0, 1, 26, 26, 27, 26, 26, 27, 15, -5, 26, 26, 27, 0, 4, 11, 0, 4, 11, 30,
    26, 26, 27, 26, 26, 27, 25]

/-- The first entry of the free list leads to itself. -/
theorem search_ends_of_cyclic_free_list : ∃ m h,
    Machine.new cyclicProgram [] 8 16 = .ok m ∧
      (after^[18] ⟨m, false, .unlimited⟩).machine.heap = h ∧
      (h.link h.freeList).toOption = some h.freeList ∧ h.SearchEnds := by
  obtain ⟨m, hm, h⟩ := search_ends_of_any_run cyclicProgram [] 16 (show 2 ≤ 8 by decide)
  refine ⟨m, _, hm, rfl, ?_, (h false .unlimited 18).1⟩
  cases hm
  decide +kernel

end Session

end ConsMachine
