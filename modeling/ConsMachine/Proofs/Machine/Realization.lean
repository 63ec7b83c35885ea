import ConsMachine.Proofs.Machine.Content
import ConsMachine.Proofs.Machine.ListSemantics
import ConsMachine.Proofs.Machine.Mirror

/-!
# Realizing a configuration

The semantics on lists says which configuration is expected of a machine. An operation realizes it if
it succeeds with a machine that is seen as this configuration, or fails where there is none or no room
for it. Sequences are reasoned about one operation at a time, with the same configuration in view.

## Main definitions

* `Machine.Excluded` — no configuration is expected, or one that does not fit.
* `Machine.Realizes` — an operation does what is expected of it within the limit on the stack.
-/

namespace ConsMachine.Machine

variable {limit : Nat} {m : Machine} {expected : Option Configuration} {α β : Type}
  {w : Word}

@[simp] theorem configuration_stack : m.configuration.stack = m.stack.content := rfl

theorem configuration_eq {stack : List Word} (h : m.stack.content = stack) :
    some m.configuration = some ⟨stack, m.bp, m.pc, m.heap⟩ := by
  subst h
  rfl

/-- Nothing is expected, or more words on the stack than there is room for. -/
def Excluded (limit : Nat) (expected : Option Configuration) : Prop :=
  ∀ c, expected = some c → limit < c.stack.length

theorem excluded_none : Excluded limit none := fun _ hc => nomatch hc

/-- A value comes with the machine that is expected, and a failure means that there is none. -/
def Realizes (limit : Nat) (expected : Option Configuration)
    (result : EStateM.Result Failure Machine α) : Prop :=
  Outcome (fun _ m => m.stack.Fits limit ∧ expected = some m.configuration)
    (fun _ _ => Excluded limit expected) result

/-! ## Sequences -/

section

variable {k : α → Action β}

theorem realizes_ok {v : α} (hm : m.stack.Fits limit) (he : expected = some m.configuration) :
    Realizes limit expected (.ok v m) := ⟨hm, he⟩

theorem realizes_error {e : Failure} (he : expected = none) :
    Realizes limit expected (.error e m : EStateM.Result Failure Machine α) :=
  he.symm ▸ excluded_none

theorem realizes_ofStack_bind {read : Stack → Except Fault α}
    (herror : (∀ v, read m.stack ≠ .ok v) → Excluded limit expected)
    (hok : ∀ v, read m.stack = .ok v → Realizes limit expected (k v m)) :
    Realizes limit expected ((ofStack read >>= k) m) := by
  cases hr : read m.stack with
  | ok v =>
    rw [bind_of_ok (ofStack_ok hr)]
    exact hok v hr
  | error fault =>
    rw [bind_of_error (ofStack_error hr)]
    exact herror (by simp [hr])

theorem realizes_require_bind {x : Except Fault α}
    (herror : (∀ v, x ≠ .ok v) → expected = none)
    (hok : ∀ v, x = .ok v → Realizes limit expected (k v m)) :
    Realizes limit expected ((require x >>= k) m) := by
  cases x with
  | ok v => exact hok v rfl
  | error fault => exact realizes_error (herror (by simp))

theorem realizes_onHeap_bind {action : Heap.Action α}
    (herror : (∀ v h, action m.heap ≠ .ok v h) → expected = none)
    (hok : ∀ v h, action m.heap = .ok v h → Realizes limit expected (k v { m with heap := h })) :
    Realizes limit expected ((onHeap action >>= k) m) := by
  obtain ⟨code, arguments, stack, heap, pc, bp, executed⟩ := m
  cases hr : action heap with
  | ok v h =>
    rw [bind_of_ok (t := ⟨code, arguments, stack, h, pc, bp, executed⟩) (by rw [onHeap, hr])]
    exact hok v h hr
  | error e h =>
    rw [bind_of_error (t := ⟨code, arguments, stack, h, pc, bp, executed⟩) (by rw [onHeap, hr])]
    exact realizes_error (herror (by simp [hr]))

end

/-! ## Words on top of the stack -/

theorem realizes_push (hm : m.stack.Fits limit) :
    Realizes limit (some { m.configuration with stack := w :: m.stack.content }) (push w m) := by
  have hsize := hm.size
  rw [push_eq hm.bounded]
  split
  · next hlt =>
    rw [hsize] at hlt
    rw [← hm.content_push hlt]
    exact realizes_ok (hm.push hlt) rfl
  · next hfull =>
    intro c hc
    cases hc
    simp only [List.length_cons, hm.length_content]
    omega

theorem realizes_pop_bind {k : Word → Action β} (hm : m.stack.Fits limit)
    (hnil : m.stack.content = [] → expected = none)
    (hcons : ∀ w s, m.stack.content = w :: s.content → s.Fits limit →
      Realizes limit expected (k w { m with stack := s })) :
    Realizes limit expected ((pop >>= k) m) := by
  cases ht : m.stack.top with
  | ok w =>
    have hpos := (Stack.get_eq_ok.1 ht).1
    rw [bind_of_ok (pop_ok ht)]
    refine hcons w m.stack.drop ?_ (hm.drop hpos)
    rw [hm.top_eq_ok, List.head?_eq_some_iff] at ht
    obtain ⟨rest, hrest⟩ := ht
    rw [hm.content_drop hpos, hrest]
    rfl
  | error fault =>
    rw [bind_of_error (pop_error ht)]
    refine realizes_error (hnil ?_)
    cases hc : m.stack.content with
    | nil => rfl
    | cons w rest =>
      rw [hm.top_eq_ok.2 (by rw [hc]; rfl)] at ht
      cases ht

/-- A word is read at a depth below the top. -/
theorem realizes_get_bind {read : Stack → Except Fault Word} {k : Word → Action β} (depth : Nat)
    (hm : m.stack.Fits limit)
    (hread : read m.stack = m.stack.get (m.stack.pointer - depth))
    (hshort : m.stack.content.length ≤ depth → expected = none)
    (hword : ∀ w, m.stack.content[depth]? = some w → Realizes limit expected (k w m)) :
    Realizes limit expected ((ofStack read >>= k) m) := by
  refine realizes_ofStack_bind (fun hno => ?_) fun w hw => ?_
  · have hnone : m.stack.content[depth]? = none := Option.eq_none_iff_forall_ne_some.2 fun w hw =>
      hno w (by rw [hread, hm.get_eq_ok rfl, hw])
    rw [hshort (List.getElem?_eq_none_iff.1 hnone)]
    exact excluded_none
  · rw [hread, hm.get_eq_ok rfl] at hw
    exact hword w hw

theorem integer_eq_ok {operation : Opcode} {value : Int64} :
    integer operation w = .ok value ↔ w = .int value := by
  cases w <;> simp [integer]

theorem realizes_popInteger_bind {operation : Opcode} {k : Int64 → Action β}
    (hm : m.stack.Fits limit)
    (hother : (∀ value rest, m.stack.content ≠ .int value :: rest) → expected = none)
    (hcons : ∀ value s, m.stack.content = .int value :: s.content → s.Fits limit →
      Realizes limit expected (k value { m with stack := s })) :
    Realizes limit expected ((popInteger operation >>= k) m) := by
  rw [popInteger, bind_assoc]
  refine realizes_pop_bind hm (fun hnil => hother (by simp [hnil])) fun w s hw hs => ?_
  refine realizes_require_bind (fun hno => hother ?_) fun value hvalue => ?_
  · rintro value rest hrest
    rw [hw] at hrest
    cases hrest
    exact hno value rfl
  · obtain rfl := integer_eq_ok.1 hvalue
    exact hcons value s hw hs

theorem realizes_popCell_bind {operation : Opcode} {fault : Fault} {k : Ref → Action β}
    (hm : m.stack.Fits limit)
    (hother : (∀ cell rest, m.stack.content = .ref cell :: rest → cell = .null) → expected = none)
    (hcons : ∀ cell s, m.stack.content = .ref cell :: s.content → cell ≠ .null → s.Fits limit →
      Realizes limit expected (k cell { m with stack := s })) :
    Realizes limit expected ((popCell operation fault >>= k) m) := by
  rw [popCell, bind_assoc]
  refine realizes_pop_bind hm (fun hnil => hother (by simp [hnil])) fun w s hw hs => ?_
  rw [bind_assoc]
  refine realizes_require_bind (fun hno => hother ?_) fun cell hcell => ?_
  · rintro cell rest hrest
    rw [hw] at hrest
    cases hrest
    exact absurd rfl (hno cell)
  · cases w <;> cases hcell
    split
    · next hnull =>
      refine realizes_error (hother fun cell' rest hrest => ?_)
      rw [hw] at hrest
      cases hrest
      exact Ref.isNull_iff.1 hnull
    · next hnull => exact hcons cell s hw (fun hc => hnull (Ref.isNull_iff.2 hc)) hs

theorem realizes_onStack {change : Stack → Stack} (hs : (change m.stack).Fits limit)
    (he : expected = some { m.configuration with stack := (change m.stack).content }) :
    Realizes limit expected (onStack change m) := realizes_ok hs he

/-! ## Bounds -/

/-- The stack pointer is to move by so many slots. -/
theorem realizes_moved_bind {shift : Int64} {distance : Int} {k : Int → Action β}
    (hlimit : limit ≤ 2 ^ 63) (hm : m.stack.Fits limit) (hshift : shift.toInt = distance)
    (hout : m.stack.height + distance < 0 ∨ limit < m.stack.height + distance →
      Excluded limit expected)
    (hok : ∀ target : Int, target + 1 = m.stack.height + distance → -1 ≤ target →
      target < limit → Realizes limit expected (k target m)) :
    Realizes limit expected ((ofStack (fun s => s.moved shift) >>= k) m) := by
  have hmoved (target : Int) : m.stack.moved shift = .ok target ↔
      target = m.stack.height - 1 + distance ∧ -1 ≤ target ∧ target < limit := by
    rw [hm.moved_eq_ok hlimit, hshift, hm.pointer_eq]
  refine realizes_ofStack_bind (fun hno => hout ?_) fun target ht => ?_
  · have hnot : ¬ (-1 ≤ m.stack.height - 1 + distance ∧ m.stack.height - 1 + distance < limit) :=
      fun hin => hno _ ((hmoved _).2 ⟨rfl, hin⟩)
    omega
  · obtain ⟨htarget, hge, hlt⟩ := (hmoved target).1 ht
    exact hok target (by omega) hge hlt

theorem realizes_argumentCount_bind {count : Int64} {k : Nat → Action β}
    (hm : m.stack.Fits limit)
    (hout : ¬ (0 ≤ count.toInt ∧ count.toInt ≤ m.stack.height) → expected = none)
    (hok : ∀ n : Nat, n = count.toInt → n ≤ m.stack.height → Realizes limit expected (k n m)) :
    Realizes limit expected ((ofStack (fun s => s.argumentCount count) >>= k) m) := by
  refine realizes_ofStack_bind (fun hno => ?_) fun n hn => ?_
  · rw [hout fun hin => hno count.toInt.toNat (hm.argumentCount_eq_ok.2 (by omega))]
    exact excluded_none
  · obtain ⟨hcount, hle⟩ := hm.argumentCount_eq_ok.1 hn
    exact hok n hcount hle

theorem codeAddress_eq_ok {address : Int64} {pc : Nat} :
    codeAddress address = .ok pc ↔ Configuration.address address = some pc := by
  simp only [codeAddress, Configuration.address, Stack.nonneg_iff]
  split
  · exact ⟨fun h => by cases h; rfl, fun h => by cases h; rfl⟩
  · simp

theorem realizes_codeAddress_bind {address : Int64} {k : Nat → Action β}
    (hnone : Configuration.address address = none → expected = none)
    (hok : ∀ pc, Configuration.address address = some pc → Realizes limit expected (k pc m)) :
    Realizes limit expected ((require (codeAddress address) >>= k) m) := by
  refine realizes_require_bind (fun hno => hnone ?_) fun pc hpc => hok pc (codeAddress_eq_ok.1 hpc)
  exact Option.eq_none_iff_forall_ne_some.2 fun pc hpc => hno pc (codeAddress_eq_ok.2 hpc)

end ConsMachine.Machine
