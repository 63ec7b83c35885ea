import ConsMachine.Machine.Step
import ConsMachine.Proofs.Machine.Stack
import ConsMachine.Proofs.Outcome

/-!
# Access to the stack

The machine reads and writes one slot at a time, and each access is checked or must be to a slot
that is there. An instruction that has passed its checks makes no access that fails, so what it does
to the stack can be said at once: the words of a frame are moved, a saved frame is put below them, a
word takes the place of others. The equations of this module say so of every instruction that writes
more than the word on top. Those of pushing, of reserving slots and of a tail call ask for a stack
pointer that is a slot or -1; the others find that out by their reads.

## Main statements

* `load_eq`, `store_eq`, `push_eq` — single words.
* `clearWords_eq`, `copyWords_up`, `copyWords_down` — loops over slots.
* `swap_eq`, `reserve_eq`, `call_eq`, `tailCall_eq`, `ret_eq`, `cons_eq` — instructions.
-/

namespace ConsMachine.Machine

variable {m : Machine} {α β : Type} {index : Int} {w : Word}

/-! ## Sequences -/

theorem ofStack_ok {read : Stack → Except Fault α} {v : α} (hr : read m.stack = .ok v) :
    ofStack read m = .ok v m := by
  rw [ofStack, hr]

theorem ofStack_error {read : Stack → Except Fault α} {fault : Fault}
    (hr : read m.stack = .error fault) : ofStack read m = .error (.fault fault) m := by
  rw [ofStack, hr]

/-- After the same reading it is enough to compare what comes next. -/
theorem ofStack_bind_congr {read : Stack → Except Fault α} {k l : α → Action β}
    (h : ∀ v, read m.stack = .ok v → k v m = l v m) :
    (ofStack read >>= k) m = (ofStack read >>= l) m := by
  cases hr : read m.stack with
  | ok v => rw [bind_of_ok (ofStack_ok hr), bind_of_ok (ofStack_ok hr), h v hr]
  | error fault => rw [bind_of_error (ofStack_error hr), bind_of_error (ofStack_error hr)]

theorem require_bind_congr {x : Except Fault α} {k l : α → Action β}
    (h : ∀ v, x = .ok v → k v m = l v m) : (require x >>= k) m = (require x >>= l) m := by
  cases x with
  | ok v => exact h v rfl
  | error fault => rfl

/-- An operation on the heap leaves the stack as it was. -/
theorem onHeap_bind_congr {action : Heap.Action α} {k l : α → Action β}
    (h : ∀ v t, t.stack = m.stack → k v t = l v t) :
    (onHeap action >>= k) m = (onHeap action >>= l) m := by
  obtain ⟨code, arguments, stack, heap, pc, bp, executed⟩ := m
  change EStateM.bind _ _ _ = EStateM.bind _ _ _
  simp only [EStateM.bind, onHeap]
  cases action heap with
  | ok v heap => exact h _ _ rfl
  | error failure heap => rfl

/-! ## Single words -/

theorem wordAt_of_some {slot : Nat} (hw : m.stack.slots[slot]? = some w) :
    wordAt slot m = .ok w m := by
  rw [wordAt, hw]

theorem putWordAt_of_lt {slot : Nat} (hlt : slot < m.stack.size) :
    putWordAt slot w m = .ok () { m with stack := m.stack.put slot w } := if_pos hlt

/-- An index that has been checked is in a slot. -/
theorem load_eq : load index = ofStack fun s => s.get index := by
  funext m
  by_cases hlow : index < 0
  · have hslot : m.stack.slot index = .error .stackUnderflow := if_pos hlow
    have hget : m.stack.get index = .error .stackUnderflow := if_pos hlow
    rw [load, bind_of_error (ofStack_error hslot), ofStack_error hget]
  · by_cases hhigh : m.stack.size ≤ index.toNat
    · have hslot : m.stack.slot index = .error (.stackOverflow m.stack.size) := by
        rw [Stack.slot, if_neg hlow, if_pos hhigh]
      have hget : m.stack.get index = .error (.stackOverflow m.stack.size) := by
        rw [Stack.get, if_neg hlow, Array.getElem?_eq_none hhigh]
      rw [load, bind_of_error (ofStack_error hslot), ofStack_error hget]
    · obtain ⟨w, hw⟩ : ∃ w, m.stack.slots[index.toNat]? = some w :=
        ⟨_, Array.getElem?_eq_getElem (Nat.lt_of_not_le hhigh)⟩
      have hslot : m.stack.slot index = .ok index.toNat :=
        Stack.slot_eq_ok.2 ⟨by omega, rfl, by omega⟩
      have hget : m.stack.get index = .ok w := Stack.get_eq_ok.2 ⟨by omega, hw⟩
      rw [load, bind_of_ok (ofStack_ok hslot), wordAt_of_some hw, ofStack_ok hget]

theorem top_eq : top = ofStack Stack.top := by
  funext m
  change load m.stack.pointer m = _
  rw [load_eq]
  rfl

theorem pop_ok (ht : m.stack.top = .ok w) : pop m = .ok w { m with stack := m.stack.drop } := by
  rw [pop, top_eq, bind_of_ok (ofStack_ok ht)]
  rfl

theorem pop_error {fault : Fault} (ht : m.stack.top = .error fault) :
    pop m = .error (.fault fault) m := by
  rw [pop, top_eq, bind_of_error (ofStack_error ht)]

theorem store_eq (hge : 0 ≤ index) (hlt : index < m.stack.size) :
    store index w m = .ok () { m with stack := m.stack.put index.toNat w } := by
  have hslot : m.stack.slot index = .ok index.toNat :=
    Stack.slot_eq_ok.2 ⟨hge, rfl, by omega⟩
  rw [store, bind_of_ok (ofStack_ok hslot), putWordAt_of_lt (by omega)]

theorem push_eq (hm : m.stack.Bounded) : push w m =
    if m.stack.height < m.stack.size then .ok () { m with stack := m.stack.push w }
    else .error (.fault (.stackOverflow m.stack.size)) m := by
  have hlower := hm.lower
  have hpointer := hm.pointer_eq
  change (store (m.stack.pointer + 1) w >>= fun _ => setPointer (m.stack.pointer + 1)) m = _
  split
  · next hlt =>
    rw [bind_of_ok (store_eq (by omega) (by omega)),
      show m.stack.pointer + 1 = m.stack.height by omega]
    rfl
  · have hslot : m.stack.slot (m.stack.pointer + 1) = .error (.stackOverflow m.stack.size) := by
      rw [Stack.slot, if_neg (by omega), if_pos (by omega)]
    have hstore : store (m.stack.pointer + 1) w m =
        .error (.fault (.stackOverflow m.stack.size)) m := by
      rw [store, bind_of_error (ofStack_error hslot)]
    rw [bind_of_error hstore]

/-- A push succeeds only on a stack that is in bounds and has room. -/
theorem push_eq_ok {t : Machine} (hpush : push w m = .ok () t) : m.stack.Bounded ∧
    m.stack.height < m.stack.size ∧ t = { m with stack := m.stack.push w } := by
  have hbounded : m.stack.Bounded := by
    change (store (m.stack.pointer + 1) w >>= fun _ => setPointer (m.stack.pointer + 1)) m = _
      at hpush
    cases hslot : m.stack.slot (m.stack.pointer + 1) with
    | error fault =>
      rw [store, bind_assoc, bind_of_error (ofStack_error hslot)] at hpush
      cases hpush
    | ok slot =>
      obtain ⟨hge, rfl, hlt⟩ := Stack.slot_eq_ok.1 hslot
      exact ⟨by omega, by omega⟩
  rw [push_eq hbounded] at hpush
  split at hpush
  · next hlt =>
    cases hpush
    exact ⟨hbounded, hlt, rfl⟩
  · cases hpush

/-! ## Loops -/

theorem clearWords_eq {count : Nat} (hge : 0 ≤ index) (hle : index + count ≤ m.stack.size) :
    clearWords index count m =
      .ok () { m with stack := m.stack.store index.toNat (.replicate count .zero) } := by
  induction count generalizing m index with
  | zero => rfl
  | succ count ih =>
    rw [clearWords, bind_of_ok (store_eq hge (by omega)),
      ih (by omega) (by simp only [Stack.size_put]; omega), List.replicate_succ, Stack.store,
      show (index + 1).toNat = index.toNat + 1 by omega]

/-- From the lowest word up. -/
theorem copyWords_up (m : Machine) (source target count : Nat)
    (hsource : source + count ≤ m.stack.size)
    (htarget : target + count ≤ m.stack.size) :
    copyWords 1 source target count m =
      .ok () { m with stack := m.stack.slide source target count } := by
  induction count generalizing m source target with
  | zero => rfl
  | succ count ih =>
    obtain ⟨w, hw⟩ : ∃ w, m.stack.slots[source]? = some w :=
      ⟨_, Array.getElem?_eq_getElem (by simp only [Stack.size] at hsource; omega)⟩
    have hget : m.stack.get source = .ok w := Stack.get_eq_ok.2 ⟨by omega, hw⟩
    rw [copyWords, load_eq, bind_of_ok (ofStack_ok hget),
      bind_of_ok (store_eq (by omega) (by omega)), Stack.slide, hw]
    exact ih _ _ _ (by simp only [Stack.size_put]; omega) (by simp only [Stack.size_put]; omega)

/-- From the highest word down: where the words move up, they arrive as they were. -/
theorem copyWords_down (m : Machine) (base count : Nat) {shift : Nat} (hshift : 0 < shift)
    (hle : base + count + shift ≤ m.stack.size) :
    copyWords (-1) (base + count - 1) (base + count - 1 + shift) count m =
      .ok () { m with
        stack := m.stack.store (base + shift)
          (m.stack.slots.extract base (base + count)).toList } := by
  induction count generalizing m with
  | zero =>
    have hnil : (m.stack.slots.extract base (base + 0)).toList = [] := by simp
    rw [hnil]
    rfl
  | succ count ih =>
    have hsize : base + count < m.stack.slots.size := by
      simp only [Stack.size] at hle
      omega
    obtain ⟨w, hw⟩ : ∃ w, m.stack.slots[base + count]? = some w :=
      ⟨_, Array.getElem?_eq_getElem hsize⟩
    have hsource : ((base : Int) + (count + 1 : Nat) - 1) = (base + count : Nat) := by omega
    have hget : m.stack.get (base + count : Nat) = .ok w := Stack.get_eq_ok.2 ⟨by omega, hw⟩
    have hlower : ((base + count : Nat) : Int) + -1 = base + count - 1 := by omega
    have hupper : ((base + count : Nat) : Int) + shift + -1 = base + count - 1 + shift := by omega
    rw [hsource, copyWords, load_eq, bind_of_ok (ofStack_ok hget),
      bind_of_ok (store_eq (by omega) (by omega)), hlower, hupper,
      ih _ (by simp only [Stack.size_put]; omega)]
    -- The topmost word has gone above all the others.
    congr 2
    refine Stack.eq_of_slots (by simp) fun k => ?_
    have htarget : ((base + count : Nat) + (shift : Int)).toNat = base + count + shift := by omega
    have hsize' : (m.stack.put (base + count + shift) w).slots.size = m.stack.slots.size :=
      Stack.size_put
    simp only [htarget, Stack.getElem?_store, Stack.getElem?_put, Stack.size_put,
      Array.length_toList, Array.size_extract, Array.getElem?_toList, Array.getElem?_extract,
      hsize']
    by_cases htop : k = base + count + shift
    · rw [if_neg (by omega), if_pos (by omega), if_pos (by omega), if_pos (by omega),
        show base + (k - (base + shift)) = base + count by omega, hw]
    · by_cases hin : base + shift ≤ k ∧ k < base + shift + count
      · rw [if_pos (by omega), if_pos (by omega), if_neg (by omega), if_pos (by omega),
          if_pos (by omega)]
      · rw [if_neg (by omega), if_neg (by omega), if_neg (by omega)]

/-! ## Instructions -/

theorem duplicate_eq : duplicate = (do push (← ofStack Stack.top)) := by
  rw [duplicate, top_eq]

theorem swap_eq : swap m = (do
    let upper ← ofStack Stack.top
    let lower ← ofStack fun s => s.get (s.pointer - 1)
    onStack fun s => s.store (s.height - 2) [upper, lower] : Action Unit) m := by
  change (load m.stack.pointer >>= fun upper => load (m.stack.pointer - 1) >>= fun lower =>
    store m.stack.pointer lower >>= fun _ => store (m.stack.pointer - 1) upper) m = _
  rw [load_eq, load_eq]
  refine ofStack_bind_congr fun upper hupper => ofStack_bind_congr fun lower hlower => ?_
  obtain ⟨hpos, hupper⟩ := Stack.get_eq_ok.1 hupper
  obtain ⟨hpos', hlower⟩ := Stack.get_eq_ok.1 hlower
  have hlt := (Array.getElem?_eq_some_iff.1 hupper).1
  have hheight := Stack.natCast_height (s := m.stack) (by omega)
  change _ < m.stack.size at hlt
  rw [bind_of_ok (store_eq hpos (by omega)), store_eq hpos' (by simp only [Stack.size_put]; omega),
    show m.stack.pointer.toNat = m.stack.height - 2 + 1 by omega,
    show (m.stack.pointer - 1).toNat = m.stack.height - 2 by omega]
  have hstored : (m.stack.store (m.stack.height - 2 + 1) [lower]).put (m.stack.height - 2) upper =
      (m.stack.put (m.stack.height - 2) upper).store (m.stack.height - 2 + 1) [lower] :=
    Stack.put_store (Nat.lt_succ_self _)
  exact congrArg (fun s => EStateM.Result.ok () { m with stack := s }) hstored

theorem loadIndirect_eq : loadIndirect = (do
    let index ← popInteger .ldi
    let word ← ofStack fun s => do
      let slot ← s.slotOf index
      s.get slot
    push word) := by
  unfold loadIndirect
  congr 1
  funext index m
  cases hslot : m.stack.slotOf index with
  | error fault =>
    have hread : (m.stack.slotOf index >>= fun slot => m.stack.get slot) = .error fault := by
      rw [hslot]
      rfl
    rw [bind_of_error (ofStack_error hslot)]
    exact (bind_of_error (ofStack_error hread)).symm
  | ok slot =>
    obtain ⟨w, hw⟩ : ∃ w, m.stack.slots[slot]? = some w :=
      ⟨_, Array.getElem?_eq_getElem (Stack.slotOf_eq_ok.1 hslot).2.2⟩
    have hget : m.stack.get slot = .ok w := Stack.get_eq_ok.2 ⟨by omega, hw⟩
    have hread : (m.stack.slotOf index >>= fun slot => m.stack.get slot) = .ok w := by
      rw [hslot]
      exact hget
    rw [bind_of_ok (ofStack_ok hslot), bind_of_ok (wordAt_of_some hw)]
    exact (bind_of_ok (ofStack_ok hread)).symm

theorem storeIndirect_eq : storeIndirect = (do
    let word ← pop
    let index ← popInteger .sti
    let slot ← ofStack fun s => s.slotOf index
    onStack fun s => s.store slot [word]
    push word) := by
  unfold storeIndirect
  congr 1
  funext word
  congr 1
  funext index m
  refine ofStack_bind_congr fun slot hslot => ?_
  rw [bind_of_ok (putWordAt_of_lt (Stack.slotOf_eq_ok.1 hslot).2.2)]
  rfl

theorem reserve_eq {shift : Int64} (hm : m.stack.Bounded) : reserve shift m = (do
    let target ← ofStack fun s => s.moved shift
    onStack fun s =>
      (s.store s.height (.replicate (target - s.pointer).toNat .zero)).setPointer target :
        Action Unit) m := by
  refine ofStack_bind_congr fun target htarget => ?_
  obtain ⟨hge, hlt, -⟩ := Stack.moved_eq_ok htarget
  have hlower := hm.lower
  have hupper := hm.upper
  change (clearWords (m.stack.pointer + 1) (target - m.stack.pointer).toNat >>= fun _ =>
    setPointer target) m = _
  rw [bind_of_ok (clearWords_eq (by omega) (by omega))]
  rfl

theorem call_eq {count address : Int64} {next : Nat} : call count address next m = (do
    let count ← ofStack fun s => s.argumentCount count
    let target ← ofStack fun s => s.moved 2
    let pc ← require (codeAddress address)
    modify fun m =>
      let frame := m.stack.height - count
      let arguments := (m.stack.slots.extract frame m.stack.height).toList
      let saved := [.int (Int64.ofNat next), .int m.bp]
      { m with
        stack := (m.stack.store frame (saved ++ arguments)).setPointer target
        bp := Int64.ofInt (target + 1 - count)
        pc } : Action Unit) m := by
  refine ofStack_bind_congr fun argc hargc => ofStack_bind_congr fun target htarget => ?_
  refine require_bind_congr fun pc _ => ?_
  obtain ⟨-, hargc⟩ := Stack.argumentCount_eq_ok.1 hargc
  obtain ⟨-, hlt, htarget⟩ := Stack.moved_eq_ok htarget
  have htwo : (2 : Int64).toInt = 2 := rfl
  rw [htwo] at htarget
  have hheight := Stack.natCast_height (s := m.stack) (by omega)
  have hcopy := copyWords_down m (m.stack.height - argc) argc Nat.zero_lt_two (by omega)
  rw [show ((m.stack.height - argc : Nat) : Int) + argc - 1 = m.stack.pointer by omega,
    show ((2 : Nat) : Int) = 2 from rfl,
    show m.stack.height - argc + argc = m.stack.height by omega] at hcopy
  have hframe : (m.stack.pointer - argc + 1).toNat = m.stack.height - argc := by omega
  have hsaved : (m.stack.pointer - argc + 2).toNat = m.stack.height - argc + 1 := by omega
  change (copyWords (-1) m.stack.pointer (m.stack.pointer + 2) argc >>= fun _ =>
    store (m.stack.pointer - argc + 1) (.int (Int64.ofNat next)) >>= fun _ =>
    (get : Action Machine) >>= fun t => store (m.stack.pointer - argc + 2) (.int t.bp) >>= fun _ =>
    setPointer target >>= fun _ =>
    modify fun t => { t with bp := Int64.ofInt (target + 1 - argc), pc }) m = _
  rw [bind_of_ok hcopy, bind_of_ok (store_eq (by omega) (by simp only [Stack.size_store]; omega))]
  refine (bind_of_ok (store_eq (by omega)
    (by simp only [Stack.size_put, Stack.size_store]; omega))).trans ?_
  simp only [hframe, hsaved]
  rw [Stack.put_store (by omega), Stack.put_store (by omega)]
  rfl

theorem tailCall_eq {count drop address : Int64} (hm : m.stack.pointer < m.stack.size) :
    tailCall count drop address m = (do
      let count ← ofStack fun s => s.argumentCount count
      let target ← ofStack fun s => s.moved (Stack.negateClamped drop)
      let pc ← require (codeAddress address)
      if target + 1 < count then fail .stackUnderflow
      modify fun m =>
        let source := m.stack.height - count
        { m with
          stack := (m.stack.slide source (target + 1 - count).toNat count).setPointer target
          pc } : Action Unit) m := by
  refine ofStack_bind_congr fun argc hargc => ofStack_bind_congr fun target htarget => ?_
  refine require_bind_congr fun pc _ => ?_
  obtain ⟨-, hargc⟩ := Stack.argumentCount_eq_ok.1 hargc
  obtain ⟨hge, hlt, -⟩ := Stack.moved_eq_ok htarget
  have hheight := Stack.natCast_height (s := m.stack) (by omega)
  by_cases hunder : target + 1 < argc
  · rw [if_pos hunder, if_pos hunder]
    rfl
  · rw [if_neg hunder, if_neg hunder]
    have hcopy := copyWords_up m (m.stack.height - argc) (target + 1 - argc).toNat argc
      (by omega) (by omega)
    rw [show ((m.stack.height - argc : Nat) : Int) = m.stack.pointer + 1 - argc by omega,
      Int.toNat_of_nonneg (by omega)] at hcopy
    exact bind_of_ok hcopy

theorem ret_eq {locals : Int64} : ret locals m = (do
    let result ← ofStack Stack.top
    let frame ← ofStack fun s => s.moved (Stack.negateClamped locals)
    let bp ← require (integer .ret (← ofStack fun s => s.get (frame - 1)))
    let saved ← require (integer .ret (← ofStack fun s => s.get (frame - 2)))
    let pc ← require (codeAddress saved)
    modify fun m =>
      { m with
        stack := (m.stack.store (frame - 2).toNat [result]).setPointer (frame - 2)
        bp
        pc } : Action Unit) m := by
  rw [ret, top_eq]
  refine ofStack_bind_congr fun result _ => ofStack_bind_congr fun frame _ => ?_
  rw [load_eq, load_eq]
  refine ofStack_bind_congr fun word _ => require_bind_congr fun bp _ => ?_
  refine ofStack_bind_congr fun back hback => require_bind_congr fun saved _ => ?_
  refine require_bind_congr fun pc _ => ?_
  obtain ⟨hpos, hback⟩ := Stack.get_eq_ok.1 hback
  have hlt := (Array.getElem?_eq_some_iff.1 hback).1
  change _ < m.stack.size at hlt
  exact store_eq (m := { m with stack := m.stack.setPointer (frame - 2), bp, pc }) hpos
    (by simp only [Stack.size_setPointer]; omega)

theorem cons_eq : cons m = (do
    let car ← ofStack fun s => s.get (s.pointer - 1)
    let cdr ← ofStack Stack.top
    let cell ← onHeap (Heap.allocate .cons 2 m.stack.live)
    onHeap (Heap.setField cell CellPart.car.offset car)
    onHeap (Heap.setField cell CellPart.cdr.offset cdr)
    onStack fun _ => (m.stack.store (m.stack.height - 2) [.ref cell]).drop : Action Unit) m := by
  change (load (m.stack.pointer - 1) >>= fun car => load m.stack.pointer >>= fun cdr =>
    liveWords >>= fun live => onHeap (Heap.allocate .cons 2 live) >>= fun cell =>
    onHeap (Heap.setField cell CellPart.car.offset car) >>= fun _ =>
    onHeap (Heap.setField cell CellPart.cdr.offset cdr) >>= fun _ =>
    setPointer (m.stack.pointer - 1) >>= fun _ => store (m.stack.pointer - 1) (.ref cell)) m = _
  rw [load_eq, load_eq]
  refine ofStack_bind_congr fun car hcar => ofStack_bind_congr fun cdr hcdr => ?_
  have hpos := (Stack.get_eq_ok.1 hcar).1
  have hlt := (Array.getElem?_eq_some_iff.1 (Stack.get_eq_ok.1 hcdr).2).1
  have hheight := Stack.natCast_height (s := m.stack) (by omega)
  change _ < m.stack.size at hlt
  have hlive : liveWords m = .ok m.stack.live m := if_pos ⟨by omega, by omega⟩
  rw [bind_of_ok hlive]
  refine onHeap_bind_congr fun cell t ht => onHeap_bind_congr fun _ u hu => ?_
  refine onHeap_bind_congr fun _ v hv => ?_
  rw [hu.trans ht] at hv
  have hindex : (m.stack.pointer - 1).toNat = m.stack.height - 2 := by omega
  refine (store_eq (m := { v with stack := v.stack.setPointer (m.stack.pointer - 1) }) hpos
    (by simp only [Stack.size_setPointer, hv]; omega)).trans ?_
  simp only [hindex, onStack, hv]
  rfl

end ConsMachine.Machine
