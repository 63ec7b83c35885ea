import ConsMachine.Proofs.Heap.Mirror
import ConsMachine.Proofs.Machine.Discipline
import ConsMachine.Proofs.Machine.Mirror

/-!
# Instructions of machines that mirror each other

Machines that mirror each other execute every instruction except an allocation alike. The slots that
an instruction regains are not live, so they are asked to correspond.
-/

namespace ConsMachine.Machine

variable {ρ : Ref → Ref → Prop} {g h : Heap} {m n : Machine}

/-! ## Arithmetic and stack -/

theorem parallel_arithmetic {operation : Opcode} {f : Int64 → Int64 → Except Fault Int64}
    (hf : ∀ l r fault, f l r = .error fault → fault.isPlain = true)
    (hm : Mirror ρ g h m n) :
    Parallel ρ g h (fun _ _ => True) (arithmetic operation f m) (arithmetic operation f n) := by
  apply Parallel.popInteger_bind hm
  intro right _ hm
  refine Parallel.popInteger_bind hm ?_
  intro left _ hm
  refine Parallel.require_bind hm (.same rfl (hf left right)) fun v v' ⟨_, hv⟩ => ?_
  subst hv
  exact parallel_push hm (.int v')

theorem parallel_equal (hp : Pairing ρ) (hm : Mirror ρ g h m n) :
    Parallel ρ g h (fun _ _ => True) (equal m) (equal n) := by
  refine (parallel_pop hm).bind ?_
  intro right right' m n hr hm
  refine (parallel_pop hm).bind ?_
  intro left left' m n hl hm
  rw [hl.beq_eq hp hr]
  exact parallel_push hm (.int _)

theorem parallel_negation (hp : Pairing ρ) (hm : Mirror ρ g h m n) :
    Parallel ρ g h (fun _ _ => True) (negation m) (negation n) := by
  refine (parallel_pop hm).bind ?_
  intro w w' m n hw hm
  rw [hw.isZero_eq hp]
  exact parallel_push hm (.int _)

theorem parallel_duplicate (hm : Mirror ρ g h m n) :
    Parallel ρ g h (fun _ _ => True) (duplicate m) (duplicate n) := by
  rw [duplicate_eq]
  exact Parallel.ofStack_bind hm (agree_top hm) fun _ _ hw => parallel_push hm hw.2

theorem parallel_swap (hm : Mirror ρ g h m n) :
    Parallel ρ g h (fun _ _ => True) (swap m) (swap n) := by
  have hptr := hm.stack.pointer
  rw [swap_eq, swap_eq]
  refine Parallel.ofStack_bind hm (agree_top hm) fun upper upper' hu => ?_
  refine Parallel.ofStack_bind hm
    (by rw [hptr]; exact agree_get_live hm (by omega))
    fun lower lower' hl => ?_
  apply parallel_onStack hm
  rw [hm.stack.height]
  exact hm.stack.store (.cons hu.2 (.cons hl.2 .nil))

theorem parallel_loadIndirect (hm : Mirror ρ g h m n)
    (hreg : ∀ index slot, m.stack.top = .ok (.int index) → m.stack.slotOf index = .ok slot →
      m.stack.height ≤ slot → m.stack.Paired ρ n.stack slot) :
    Parallel ρ g h (fun _ _ => True) (loadIndirect m) (loadIndirect n) := by
  rw [loadIndirect_eq]
  apply Parallel.popInteger_bind hm
  intro index htop hm'
  refine Parallel.ofStack_bind (V := Word.Corresponds ρ) hm' ?_ fun w w' hw => parallel_push hm' hw
  change Agree ρ _ (m.stack.drop.slotOf index >>= fun slot => m.stack.drop.get slot)
    (n.stack.drop.slotOf index >>= fun slot => n.stack.drop.get slot)
  rw [show n.stack.drop.slotOf index = m.stack.drop.slotOf index from
    Stack.slotOf_congr hm.stack.size]
  cases hs : m.stack.drop.slotOf index with
  | error fault =>
    exact .error (.same (isPlain_of_boundsFault (Stack.boundsFault_of_slotOf hs)))
  | ok slot =>
    have hpair : m.stack.Paired ρ n.stack slot := by
      by_cases hlt : slot < m.stack.height
      · exact hm.stack.words slot hlt
      · exact hreg index slot htop hs (by omega)
    obtain ⟨w, w', hw, hw', hc⟩ := hpair
    have hget : m.stack.drop.get slot = .ok w := Stack.get_eq_ok.2 ⟨by omega, hw⟩
    have hget' : n.stack.drop.get slot = .ok w' := Stack.get_eq_ok.2 ⟨by omega, hw'⟩
    change Agree ρ _ (m.stack.drop.get slot) (n.stack.drop.get slot)
    rw [hget, hget']
    exact .ok hc

theorem parallel_storeIndirect (hm : Mirror ρ g h m n) :
    Parallel ρ g h (fun _ _ => True) (storeIndirect m) (storeIndirect n) := by
  rw [storeIndirect_eq]
  refine (parallel_pop hm).bind ?_
  intro w w' m n hw hm
  apply Parallel.popInteger_bind hm
  intro index _ hm'
  refine Parallel.ofStack_bind hm' (agree_slotOf hm' index) fun slot slot' ⟨_, heq⟩ => ?_
  subst heq
  exact (parallel_onStack hm' (hm'.stack.store (.cons hw .nil))).bind
    fun _ _ m n _ hm => parallel_push hm hw

theorem parallel_reserve (shift : Int64) (hm : Mirror ρ g h m n) :
    Parallel ρ g h (fun _ _ => True) (reserve shift m) (reserve shift n) := by
  rw [reserve_eq hm.stack.bounded, reserve_eq hm.stack.bounded_right]
  refine Parallel.ofStack_bind hm (agree_moved hm shift) fun target target' ⟨ht, heq⟩ => ?_
  subst heq
  obtain ⟨hge, hlt, -⟩ := Stack.moved_eq_ok ht
  have hpointer := hm.stack.bounded.pointer_eq
  apply parallel_onStack hm
  rw [hm.stack.pointer, hm.stack.height]
  refine Stack.Mirror.setPointer (by simpa using hm.stack.size) hge (by simpa using hlt)
    fun k hk => ?_
  have hzeros : List.Forall₂ (Word.Corresponds ρ)
      (List.replicate (target' - m.stack.pointer).toNat .zero)
      (List.replicate (target' - m.stack.pointer).toNat .zero) :=
    List.forall₂_same.2 fun w hw => by
      obtain rfl := List.eq_of_mem_replicate hw
      exact .int 0
  apply Stack.Paired.store hm.stack.size hzeros
  rw [List.length_replicate]
  by_cases hlow : k < m.stack.height
  · exact .inr (hm.stack.words k hlow)
  · exact .inl ⟨by omega, by omega, by omega⟩

/-! ## Control -/

theorem parallel_goto (address : Int64) (hm : Mirror ρ g h m n) :
    Parallel ρ g h (fun _ _ => True) (goto address m) (goto address n) := by
  refine Parallel.require_bind hm (agree_codeAddress address) fun pc pc' ⟨_, heq⟩ => ?_
  subst heq
  exact parallel_jump hm pc'

theorem parallel_branch (zero : Bool) (address : Int64) (hp : Pairing ρ)
    (hm : Mirror ρ g h m n) :
    Parallel ρ g h (fun _ _ => True) (branch zero address m) (branch zero address n) := by
  refine (parallel_pop hm).bind ?_
  intro w w' m n hw hm
  rw [hw.isZero_eq hp]
  split
  · exact parallel_goto address hm
  · exact Parallel.pure hm trivial

theorem parallel_call (count address : Int64) (next : Nat) (hm : Mirror ρ g h m n) :
    Parallel ρ g h (fun _ _ => True) (call count address next m) (call count address next n) := by
  rw [call_eq, call_eq]
  refine Parallel.ofStack_bind hm (agree_argumentCount hm count) fun k k' ⟨hk, heq⟩ => ?_
  subst heq
  refine Parallel.ofStack_bind hm (agree_moved hm 2) fun target target' ⟨ht, heq⟩ => ?_
  subst heq
  refine Parallel.require_bind hm (agree_codeAddress address) fun pc pc' ⟨_, heq⟩ => ?_
  subst heq
  have hcount := (Stack.argumentCount_eq_ok.1 hk).2
  obtain ⟨hge, hlt, hle⟩ := Stack.moved_eq_ok ht
  have htwo : (2 : Int64).toInt = 2 := rfl
  have hpointer := hm.stack.bounded.pointer_eq
  have hfits := hm.stack.fits
  have hsize := hm.stack.size
  rw [htwo] at hle
  simp only [Stack.size] at hfits hsize
  refine ⟨trivial, { hm with stack := ?_, pc := rfl, bp := rfl }⟩
  simp only [hm.stack.height, hm.bp]
  refine Stack.Mirror.setPointer (by simpa using hm.stack.size) hge (by simpa using hlt)
    fun j hj => ?_
  -- The saved words and the arguments fill the slots from the frame on.
  have hargs : List.Forall₂ (Word.Corresponds ρ)
      (m.stack.slots.extract (m.stack.height - k') m.stack.height).toList
      (n.stack.slots.extract (m.stack.height - k') m.stack.height).toList := by
    refine List.forall₂_iff_get.2 ⟨by simp; omega, ?_⟩
    intro i hi hi'
    simp only [Array.length_toList, Array.size_extract] at hi
    obtain ⟨w, w', hw, hw', hc⟩ := hm.stack.words (m.stack.height - k' + i) (by omega)
    simp only [List.get_eq_getElem, Array.getElem_toList, Array.getElem_extract]
    rw [Array.getElem?_eq_some_iff] at hw hw'
    obtain ⟨_, rfl⟩ := hw
    obtain ⟨_, rfl⟩ := hw'
    exact hc
  refine Stack.Paired.store hm.stack.size (.cons (.int _) (.cons (.int _) hargs)) ?_
  by_cases hlow : j < m.stack.height - k'
  · exact .inr (hm.stack.words j (by omega))
  · refine .inl ⟨by omega, ?_, by omega⟩
    simp only [List.length_append, List.length_cons, List.length_nil, Array.length_toList,
      Array.size_extract]
    omega

theorem parallel_tailCall (count drop address : Int64) (hm : Mirror ρ g h m n)
    (hreg : ∀ k arguments target, m.stack.argumentCount count = .ok arguments →
      m.stack.moved (Stack.negateClamped drop) = .ok target → m.stack.height ≤ k →
      (k : Int) < target + 1 - arguments → m.stack.Paired ρ n.stack k) :
    Parallel ρ g h (fun _ _ => True) (tailCall count drop address m)
      (tailCall count drop address n) := by
  rw [tailCall_eq hm.stack.bounded.upper, tailCall_eq hm.stack.bounded_right.upper]
  refine Parallel.ofStack_bind hm (agree_argumentCount hm count) fun k k' ⟨hk, heq⟩ => ?_
  subst heq
  refine Parallel.ofStack_bind hm (agree_moved hm _) fun target target' ⟨ht, heq⟩ => ?_
  subst heq
  refine Parallel.require_bind hm (agree_codeAddress address) fun pc pc' ⟨_, heq⟩ => ?_
  subst heq
  have hcount := (Stack.argumentCount_eq_ok.1 hk).2
  obtain ⟨hge, hlt, -⟩ := Stack.moved_eq_ok ht
  have hpointer := hm.stack.bounded.pointer_eq
  have hfits := hm.stack.fits
  split
  · exact parallel_fail hm rfl
  · next hroom =>
    refine ⟨trivial, { hm with stack := ?_, pc := rfl }⟩
    simp only [hm.stack.height]
    refine Stack.Mirror.setPointer (by simpa using hm.stack.size) hge (by simpa using hlt)
      fun j hj => ?_
    refine Stack.Paired.slide hm.stack.size
      (fun i hi hlt => hm.stack.words i (by omega)) (by omega) ?_
    by_cases hin : (target' + 1 - k').toNat ≤ j
    · exact .inl ⟨hin, by omega⟩
    · by_cases hlive : j < m.stack.height
      · exact .inr (hm.stack.words j hlive)
      · exact .inr (hreg j k' target' hk ht (by omega) (by omega))

theorem parallel_ret (locals : Int64) (hm : Mirror ρ g h m n)
    (hreg : ∀ k frame, m.stack.moved (Stack.negateClamped locals) = .ok frame →
      m.stack.height ≤ k → (k : Int) < frame → m.stack.Paired ρ n.stack k) :
    Parallel ρ g h (fun _ _ => True) (ret locals m) (ret locals n) := by
  rw [ret_eq, ret_eq]
  refine Parallel.ofStack_bind hm (agree_top hm) ?_
  intro result result' hresult
  refine Parallel.ofStack_bind hm (agree_moved hm _) fun frame frame' ⟨hf, heq⟩ => ?_
  subst heq
  obtain ⟨hge, hlt, -⟩ := Stack.moved_eq_ok hf
  have below : ∀ k : Nat, (k : Int) < frame' → m.stack.Paired ρ n.stack k := fun k hk => by
    by_cases hlive : k < m.stack.height
    · exact hm.stack.words k hlive
    · exact hreg k frame' hf (by omega) hk
  refine Parallel.ofStack_bind hm
    (agree_get hm fun hpos => .inl (below _ (by omega))) fun saved saved' hsaved => ?_
  refine Parallel.require_bind hm (agree_integer hsaved.2) fun bp bp' ⟨_, heq⟩ => ?_
  subst heq
  refine Parallel.ofStack_bind hm
    (agree_get hm fun hpos => .inl (below _ (by omega))) fun back back' hback => ?_
  refine Parallel.require_bind hm (agree_integer hback.2) fun address address' ⟨_, heq⟩ => ?_
  subst heq
  refine Parallel.require_bind hm (agree_codeAddress _) fun pc pc' ⟨_, heq⟩ => ?_
  subst heq
  have hpos := (Stack.get_eq_ok.1 hback.1).1
  refine ⟨trivial, { hm with stack := ?_, pc := rfl, bp := rfl }⟩
  refine Stack.Mirror.setPointer (by simpa using hm.stack.size) (by omega)
    (by simp only [Stack.size_store]; omega) fun j hj => ?_
  refine Stack.Paired.store hm.stack.size (.cons hresult.2 .nil) ?_
  by_cases htop : j = (frame' - 2).toNat
  · exact .inl ⟨by omega, by simp only [List.length_cons, List.length_nil]; omega, by omega⟩
  · exact .inr (below j (by omega))

/-! ## Input and output -/

theorem parallel_pushAll (values : List Int64) (hm : Mirror ρ g h m n) :
    Parallel ρ g h (fun _ _ => True) (pushAll values m) (pushAll values n) := by
  induction values generalizing m n with
  | nil => exact Parallel.pure hm trivial
  | cons value rest ih => exact (parallel_push hm (.int value)).bind fun _ _ _ _ _ hm => ih hm

theorem parallel_loadArguments (hm : Mirror ρ g h m n) :
    Parallel ρ g h (fun _ _ => True) (loadArguments m) (loadArguments n) := by
  change Parallel ρ g h _ (pushAll m.arguments m) (pushAll n.arguments n)
  rw [hm.arguments]
  exact parallel_pushAll _ hm

/-- Something printed is the text of the word on top. -/
theorem parallel_print (text : Word → String) (hm : Mirror ρ g h m n) {print : Action Event}
    (hprint : print = (top >>= fun word => pure (.printed (text word)))) :
    Parallel ρ g h (Event.Corresponds ρ m.stack.top.toOption) (print m) (print n) := by
  rw [top_eq] at hprint
  subst hprint
  refine Parallel.ofStack_bind hm (agree_top hm) ?_
  intro w w' hw
  exact Parallel.pure hm (.printed text (by rw [hw.1]; rfl) hw.2)

theorem parallel_printWord (hm : Mirror ρ g h m n) :
    Parallel ρ g h (Event.Corresponds ρ m.stack.top.toOption) (printWord m) (printWord n) :=
  parallel_print (fun word => word.text ++ " ") hm rfl

/-- What is printed for a word as a character. -/
def characterText : Word → String
  | .int code => (character code).toString
  | word => word.text

theorem parallel_printCharacter (hm : Mirror ρ g h m n) :
    Parallel ρ g h (Event.Corresponds ρ m.stack.top.toOption) (printCharacter m)
      (printCharacter n) := by
  apply parallel_print characterText hm
  simp only [printCharacter]
  congr
  funext word
  cases word <;> rfl

theorem parallel_stop {shown : Option Word} (hm : Mirror ρ g h m n) :
    Parallel ρ g h (Event.Corresponds ρ shown) (stop m) (stop n) := by
  change Parallel ρ g h _ ((if m.stack.pointer < 0 then _ else _ : Action Event) m)
    ((if n.stack.pointer < 0 then _ else _ : Action Event) n)
  rw [hm.stack.pointer, top_eq]
  split
  · exact Parallel.pure hm (.stopped (.int 0))
  · exact Parallel.ofStack_bind hm (agree_top hm) fun _ _ hw => Parallel.pure hm (.stopped hw.2)

/-! ## Cells -/

/-- An operation on the heap leaves the rest of the machine alone. -/
theorem onHeap_spec {α : Type} {action : Heap.Action α} {returns : α → Heap → Prop}
    {fails : Failure → Heap → Prop} (ha : Outcome returns fails (action m.heap)) :
    Outcome (fun v m' => returns v m'.heap ∧ m' = { m with heap := m'.heap })
      (fun e m' => fails e m'.heap ∧ m' = { m with heap := m'.heap }) (onHeap action m) := by
  obtain ⟨code, arguments, stack, heap, pc, bp, executed⟩ := m
  simp only [onHeap] at ha ⊢
  cases hr : action heap with
  | ok v heap' => exact ⟨ha.of_ok hr, rfl⟩
  | error e heap' => exact ⟨ha.of_error hr, rfl⟩

theorem offset_lt (part : CellPart) : part.offset < 2 := by
  cases part <;> decide

theorem parallel_field {r s : Ref} (part : CellPart) (hh : Heap.Mirror ρ g h) (hr : ρ r s)
    (hm : Mirror ρ g h m n) :
    Parallel ρ g h (Word.Corresponds ρ) (onHeap (Heap.field r part.offset) m)
      (onHeap (Heap.field s part.offset) n) := by
  obtain ⟨w, w', hw, hw', hc⟩ := hh.data hr (offset_lt part)
  have hleft := Heap.field_spec (hh.left hr) (offset_lt part) hw
  have hright := Heap.field_spec (hh.right hr) (offset_lt part) hw'
  rw [← hm.left] at hleft
  rw [← hm.right] at hright
  refine Twin.mono (Twin.of_outcomes
    ((onHeap_spec hleft).mono (fun _ _ => id) fun _ _ => And.left)
    ((onHeap_spec hright).mono (fun _ _ => id) fun _ _ => And.left))
    (fun v m' v' n' ⟨⟨⟨hv, hg'⟩, hm'⟩, ⟨hv', hh'⟩, hn'⟩ => ?_) fun _ _ _ _ => id
  rw [hg'] at hm'
  rw [hh'] at hn'
  subst hv hv' hm' hn'
  exact ⟨hc, hm⟩

theorem parallel_take (operation : Opcode) (part : CellPart) (hh : Heap.Mirror ρ g h)
    (hm : Mirror ρ g h m n) :
    Parallel ρ g h (fun _ _ => True) (take operation part m) (take operation part n) := by
  refine (parallel_popCell hh.pairing hm rfl).bind ?_
  intro r s m n hr hm
  exact (parallel_field part hh hr hm).bind fun _ _ _ _ hw hm => parallel_push hm hw

/-- Two results that mirror each other, with heaps in which paired cells may have been updated. -/
def Updating {α : Type} (ρ : Ref → Ref → Prop) (g h : Heap) (V : α → α → Prop) :
    EStateM.Result Failure Machine α → EStateM.Result Failure Machine α → Prop :=
  Twin (fun v m w n => V v w ∧ Heap.Update ρ g h m.heap n.heap ∧ Mirror ρ m.heap n.heap m n)
    (fun e m f n => e.Corresponds ρ f ∧ Heap.Update ρ g h m.heap n.heap ∧
      Mirror ρ m.heap n.heap m n)

theorem Mirror.same (hm : Mirror ρ g h m n) :
    Heap.Update ρ g h m.heap n.heap ∧ Mirror ρ m.heap n.heap m n :=
  ⟨.none hm.left hm.right, { hm with left := rfl, right := rfl }⟩

theorem Parallel.updating {α : Type} {V : α → α → Prop}
    {x y : EStateM.Result Failure Machine α} (hx : Parallel ρ g h V x y) :
    Updating ρ g h V x y :=
  Twin.mono hx (fun _ _ _ _ hv => ⟨hv.1, hv.2.same⟩) fun _ _ _ _ hf => ⟨hf.1, hf.2.same⟩

theorem updating_set (operation : Opcode) (part : CellPart) (hh : Heap.Mirror ρ g h)
    (hg : g.Partitioned) (hp : h.Partitioned) (hm : Mirror ρ g h m n) :
    Updating ρ g h (fun _ _ => True) (set operation part m) (set operation part n) := by
  have changed : ∀ {α : Type} {a b : Action α} {k l : α → Action Unit} {V : α → α → Prop}
      {m n : Machine}, Parallel ρ g h V (a m) (b n) →
      (∀ v w m n, V v w → Mirror ρ g h m n → Updating ρ g h (fun _ _ => True) (k v m) (l w n)) →
      Updating ρ g h (fun _ _ => True) ((a >>= k) m) ((b >>= l) n) := fun hx hn =>
    Twin.bind (Twin.mono hx (fun _ _ _ _ => id) fun _ _ _ _ hf => ⟨hf.1, hf.2.same⟩)
      fun _ _ _ _ hv => hn _ _ _ _ hv.1 hv.2
  refine changed (parallel_pop hm) ?_
  intro w w' m n hw hm
  refine changed (parallel_popCell hh.pairing hm rfl) ?_
  intro r s m n hr hm
  have hleft := Heap.setField_spec w hg (hh.left hr) (offset_lt part)
  have hright := Heap.setField_spec w' hp (hh.right hr) (offset_lt part)
  rw [← hm.left] at hleft
  rw [← hm.right] at hright
  refine Twin.bind (Twin.of_outcomes ((onHeap_spec hleft).mono (fun _ _ => id) fun _ _ => And.left)
    ((onHeap_spec hright).mono (fun _ _ => id) fun _ _ => And.left))
    fun _ m' _ n' ⟨⟨hgr, hm'⟩, hhr, hn'⟩ => ?_
  rw [hm.left] at hgr
  rw [hm.right] at hhr
  have hu : Heap.Update ρ g h m'.heap n'.heap := .replaced hr (offset_lt part) hw hgr hhr
  have hmirror : Mirror ρ m'.heap n'.heap m' n' := by
    rw [hm', hn']
    exact { hm with left := rfl, right := rfl }
  have pushed : ∀ {m n : Machine}, Mirror ρ m'.heap n'.heap m n →
      Heap.Update ρ g h m.heap n.heap ∧ Mirror ρ m.heap n.heap m n := by
    intro m n hpush
    rw [hpush.left, hpush.right]
    exact ⟨hu, hpush⟩
  exact Twin.mono (parallel_push hmirror (.ref hr)) (fun _ _ _ _ hv => ⟨hv.1, pushed hv.2⟩)
    fun _ _ _ _ hf => ⟨hf.1, pushed hf.2⟩

/-! ## All instructions but one -/

theorem parallel_silently {shown : Option Word} {action action' : Action Unit}
    (ha : Parallel ρ g h (fun _ _ => True) (action m) (action' n)) :
    Parallel ρ g h (Event.Corresponds ρ shown) (silently action m) (silently action' n) :=
  ha.bind fun _ _ _ _ _ hm => Parallel.pure hm .silent

theorem updating_silently {shown : Option Word} {action action' : Action Unit}
    (ha : Updating ρ g h (fun _ _ => True) (action m) (action' n)) :
    Updating ρ g h (Event.Corresponds ρ shown) (silently action m) (silently action' n) :=
  Twin.bind ha fun _ _ _ _ hv => ⟨.silent, hv.2⟩

theorem quotient_isPlain (l r : Int64) (fault : Fault) (hq : quotient l r = .error fault) :
    fault.isPlain = true := by
  simp only [quotient] at hq
  split at hq <;> cases hq
  rfl

theorem remainder_isPlain (l r : Int64) (fault : Fault) (hq : remainder l r = .error fault) :
    fault.isPlain = true := by
  simp only [remainder] at hq
  split at hq <;> cases hq
  rfl

/-- Every instruction except an allocation is executed alike. -/
theorem updating_execute {i : Instruction} (next : Nat) (hwf : i.WellFormed)
    (hcons : i.opcode ≠ .cons) (hh : Heap.Mirror ρ g h) (hg : g.Partitioned)
    (hp : h.Partitioned) (hm : Mirror ρ g h m n)
    (hreg : ∀ k ∈ i.regained m.stack, m.stack.Paired ρ n.stack k) :
    Updating ρ g h (Event.Corresponds ρ (i.shown m.stack)) (execute i next m)
      (execute i next n) := by
  obtain ⟨opcode, operands⟩ := i
  have hpair := hh.pairing
  have total : ∀ {f : Int64 → Int64 → Int64} (l r : Int64) (fault : Fault),
      (.ok (f l r) : Except Fault Int64) = .error fault → fault.isPlain = true :=
    fun _ _ _ hf => by cases hf
  change operands.length = _ at hwf
  cases opcode with
  | csti =>
    obtain ⟨a, rfl⟩ := List.length_eq_one_iff.1 hwf
    exact (parallel_silently (parallel_push hm (.int a))).updating
  | add =>
    obtain rfl := List.length_eq_zero_iff.1 hwf
    exact (parallel_silently (parallel_arithmetic total hm)).updating
  | sub =>
    obtain rfl := List.length_eq_zero_iff.1 hwf
    exact (parallel_silently (parallel_arithmetic total hm)).updating
  | mul =>
    obtain rfl := List.length_eq_zero_iff.1 hwf
    exact (parallel_silently (parallel_arithmetic total hm)).updating
  | div =>
    obtain rfl := List.length_eq_zero_iff.1 hwf
    exact (parallel_silently (parallel_arithmetic quotient_isPlain hm)).updating
  | mod =>
    obtain rfl := List.length_eq_zero_iff.1 hwf
    exact (parallel_silently (parallel_arithmetic remainder_isPlain hm)).updating
  | eq =>
    obtain rfl := List.length_eq_zero_iff.1 hwf
    exact (parallel_silently (parallel_equal hpair hm)).updating
  | lt =>
    obtain rfl := List.length_eq_zero_iff.1 hwf
    exact (parallel_silently (parallel_arithmetic total hm)).updating
  | not =>
    obtain rfl := List.length_eq_zero_iff.1 hwf
    exact (parallel_silently (parallel_negation hpair hm)).updating
  | dup =>
    obtain rfl := List.length_eq_zero_iff.1 hwf
    exact (parallel_silently (parallel_duplicate hm)).updating
  | swap =>
    obtain rfl := List.length_eq_zero_iff.1 hwf
    exact (parallel_silently (parallel_swap hm)).updating
  | ldi =>
    obtain rfl := List.length_eq_zero_iff.1 hwf
    refine (parallel_silently (parallel_loadIndirect hm fun index slot htop hs hle => ?_)).updating
    exact hreg slot (by simp [Instruction.regained, htop, hs, hle])
  | sti =>
    obtain rfl := List.length_eq_zero_iff.1 hwf
    exact (parallel_silently (parallel_storeIndirect hm)).updating
  | getbp =>
    obtain rfl := List.length_eq_zero_iff.1 hwf
    refine (parallel_silently ?_).updating
    change Parallel ρ g h _ (push (.int m.bp) m) (push (.int n.bp) n)
    rw [hm.bp]
    exact parallel_push hm (.int _)
  | getsp =>
    obtain rfl := List.length_eq_zero_iff.1 hwf
    refine (parallel_silently ?_).updating
    change Parallel ρ g h _ (push (.int (Int64.ofInt m.stack.pointer)) m)
      (push (.int (Int64.ofInt n.stack.pointer)) n)
    rw [hm.stack.pointer]
    exact parallel_push hm (.int _)
  | incsp =>
    obtain ⟨a, rfl⟩ := List.length_eq_one_iff.1 hwf
    exact (parallel_silently (parallel_reserve a hm)).updating
  | goto =>
    obtain ⟨a, rfl⟩ := List.length_eq_one_iff.1 hwf
    exact (parallel_silently (parallel_goto a hm)).updating
  | ifzero =>
    obtain ⟨a, rfl⟩ := List.length_eq_one_iff.1 hwf
    exact (parallel_silently (parallel_branch true a hpair hm)).updating
  | ifnzro =>
    obtain ⟨a, rfl⟩ := List.length_eq_one_iff.1 hwf
    exact (parallel_silently (parallel_branch false a hpair hm)).updating
  | call =>
    obtain ⟨a, b, rfl⟩ := List.length_eq_two.1 hwf
    exact (parallel_silently (parallel_call a b next hm)).updating
  | tcall =>
    obtain ⟨a, b, c, rfl⟩ := List.length_eq_three.1 hwf
    refine (parallel_silently (parallel_tailCall a b c hm fun k _ _ hk ht hle hlt => ?_)).updating
    apply hreg k
    simp only [Instruction.regained, hk, ht, List.mem_range'_1]
    omega
  | ret =>
    obtain ⟨a, rfl⟩ := List.length_eq_one_iff.1 hwf
    refine (parallel_silently (parallel_ret a hm fun k _ hf hle hlt => ?_)).updating
    apply hreg k
    simp only [Instruction.regained, hf, List.mem_range'_1]
    omega
  | printi =>
    obtain rfl := List.length_eq_zero_iff.1 hwf
    exact (parallel_printWord hm).updating
  | printc =>
    obtain rfl := List.length_eq_zero_iff.1 hwf
    exact (parallel_printCharacter hm).updating
  | ldargs =>
    obtain rfl := List.length_eq_zero_iff.1 hwf
    exact (parallel_silently (parallel_loadArguments hm)).updating
  | stop =>
    obtain rfl := List.length_eq_zero_iff.1 hwf
    exact (parallel_stop hm).updating
  | nil =>
    obtain rfl := List.length_eq_zero_iff.1 hwf
    exact (parallel_silently (parallel_push hm .null)).updating
  | cons => exact absurd rfl hcons
  | car =>
    obtain rfl := List.length_eq_zero_iff.1 hwf
    exact (parallel_silently (parallel_take .car .car hh hm)).updating
  | cdr =>
    obtain rfl := List.length_eq_zero_iff.1 hwf
    exact (parallel_silently (parallel_take .cdr .cdr hh hm)).updating
  | setcar =>
    obtain rfl := List.length_eq_zero_iff.1 hwf
    exact updating_silently (updating_set .setcar .car hh hg hp hm)
  | setcdr =>
    obtain rfl := List.length_eq_zero_iff.1 hwf
    exact updating_silently (updating_set .setcdr .cdr hh hg hp hm)

end ConsMachine.Machine
