import ConsMachine.Proofs.Correspondence
import ConsMachine.Proofs.Machine.Access
import Mathlib.Data.List.Forall2

/-!
# Machines that mirror each other

Two machines mirror each other when their registers are the same and their live words correspond.
The operations that instructions are made of keep that, and they return and fail alike.

## Main definitions

* `Stack.Paired`, `Stack.Mirror` — corresponding words in one slot, and in all live slots.
* `Machine.Mirror` — machines over two given heaps that mirror each other.
* `Machine.Parallel` — two results that mirror each other.
-/

namespace ConsMachine

variable {ρ : Ref → Ref → Prop}

namespace Stack

/-- Slot `k` holds corresponding words. -/
def Paired (ρ : Ref → Ref → Prop) (s t : Stack) (k : Nat) : Prop :=
  ∃ w w', s.slots[k]? = some w ∧ t.slots[k]? = some w' ∧ w.Corresponds ρ w'

/-- The live slots hold corresponding words. -/
structure Mirror (ρ : Ref → Ref → Prop) (s t : Stack) : Prop where
  size : t.size = s.size
  pointer : t.pointer = s.pointer
  bounded : s.Bounded
  words : ∀ k < s.height, s.Paired ρ t k

variable {s t : Stack} {w w' : Word} {words words' : List Word} {i k source target count : Nat}

theorem Paired.store (hsize : t.size = s.size)
    (hws : List.Forall₂ (Word.Corresponds ρ) words words')
    (hk : i ≤ k ∧ k < i + words.length ∧ k < s.size ∨ s.Paired ρ t k) :
    (s.store i words).Paired ρ (t.store i words') k := by
  have hlen := hws.length_eq
  rw [Paired, getElem?_store, getElem?_store, hsize, ← hlen]
  by_cases hin : i ≤ k ∧ k < i + words.length ∧ k < s.size
  · have hpair := (List.forall₂_iff_get.1 hws).2 (k - i) (by omega) (by omega)
    rw [if_pos hin, if_pos hin]
    exact ⟨_, _, List.getElem?_eq_getElem (by omega), List.getElem?_eq_getElem (by omega), hpair⟩
  · rw [if_neg hin, if_neg hin]
    exact hk.resolve_left hin

theorem Paired.slide (hsize : t.size = s.size)
    (hsource : ∀ j, source ≤ j → j < source + count → s.Paired ρ t j)
    (hle : target + count ≤ s.size)
    (hk : target ≤ k ∧ k < target + count ∨ s.Paired ρ t k) :
    (s.slide source target count).Paired ρ (t.slide source target count) k := by
  induction count generalizing s t source target with
  | zero => exact hk.resolve_left (by omega)
  | succ count ih =>
    obtain ⟨w, w', hw, hw', hc⟩ := hsource source (by omega) (by omega)
    -- One word has been copied; the slot it went to is paired now.
    have moved : ∀ j, j = target ∨ s.Paired ρ t j →
        (s.put target w).Paired ρ (t.put target w') j := by
      intro j hj
      rw [Paired, getElem?_put, getElem?_put]
      by_cases heq : target = j
      · rw [if_pos ⟨heq, by omega⟩, if_pos ⟨heq, by omega⟩]
        exact ⟨w, w', rfl, rfl, hc⟩
      · rw [if_neg fun h => heq h.1, if_neg fun h => heq h.1]
        exact hj.resolve_left fun h => heq h.symm
    rw [Stack.slide, Stack.slide, hw, hw']
    refine ih ?_ (fun j hge hlt => moved j (.inr (hsource j (by omega) (by omega)))) ?_ ?_
    · simpa using hsize
    · rw [size_put]
      omega
    · by_cases heq : k = target
      · exact .inr (moved k (.inl heq))
      · rcases hk with ⟨hge, hlt⟩ | hk
        · exact .inl ⟨by omega, by omega⟩
        · exact .inr (moved k (.inr hk))

namespace Mirror

theorem height (hs : s.Mirror ρ t) : t.height = s.height := height_congr hs.pointer

theorem fits (hs : s.Mirror ρ t) : s.height ≤ s.size := hs.bounded.height_le

theorem bounded_right (hs : s.Mirror ρ t) : t.Bounded :=
  ⟨hs.pointer.symm ▸ hs.bounded.lower, by rw [hs.pointer, hs.size]; exact hs.bounded.upper⟩

theorem push (hs : s.Mirror ρ t) (hlt : s.height < s.size) (hw : w.Corresponds ρ w') :
    (s.push w).Mirror ρ (t.push w') := by
  have hsize := hs.size
  have hheight := hs.height
  refine ⟨by simpa using hsize, by simp [hheight], .push hlt, fun k hk => ?_⟩
  rw [height_push] at hk
  rw [Paired, getElem?_push hlt, getElem?_push (by omega), hheight]
  by_cases heq : k = s.height
  · rw [if_pos heq, if_pos heq]
    exact ⟨w, w', rfl, rfl, hw⟩
  · rw [if_neg heq, if_neg heq]
    exact hs.words k (by omega)

theorem drop (hs : s.Mirror ρ t) (hp : 0 ≤ s.pointer) : s.drop.Mirror ρ t.drop := by
  refine ⟨hs.size, by simp [hs.pointer], hs.bounded.drop hp, fun k hk => hs.words k ?_⟩
  rw [height_drop] at hk
  omega

theorem store (hs : s.Mirror ρ t) (hws : List.Forall₂ (Word.Corresponds ρ) words words') :
    (s.store i words).Mirror ρ (t.store i words') where
  size := by simpa using hs.size
  pointer := by simpa using hs.pointer
  bounded := hs.bounded.store
  words := fun k hk => Paired.store hs.size hws (.inr (hs.words k (by simpa using hk)))

/-- A new top, below which all slots are paired. -/
theorem setPointer {pointer : Int} (hsize : t.size = s.size) (hp : -1 ≤ pointer)
    (hlt : pointer < s.size) (hwords : ∀ k : Nat, (k : Int) ≤ pointer → s.Paired ρ t k) :
    (s.setPointer pointer).Mirror ρ (t.setPointer pointer) := by
  have hheight := height_setPointer (s := s) hp
  refine ⟨by simpa using hsize, rfl, ⟨hp, hlt⟩, ?_⟩
  intro k hk
  exact hwords k (by omega)

theorem live (hs : s.Mirror ρ t) : List.Forall₂ (Word.Corresponds ρ) s.live t.live := by
  have hheight := hs.height
  have hfits : t.height ≤ t.size := by
    rw [hs.height, hs.size]
    exact hs.fits
  refine List.forall₂_iff_get.2 ⟨?_, ?_⟩
  · rw [length_live hs.fits, length_live hfits, hheight]
  · intro k hk hk'
    rw [length_live hs.fits] at hk
    obtain ⟨w, w', hw, hw', hc⟩ := hs.words k hk
    have hleft := live_getElem? hs.fits (k := k)
    have hright := live_getElem? hfits (k := k)
    rw [if_pos hk, hw] at hleft
    rw [hheight, if_pos hk, hw'] at hright
    obtain ⟨_, rfl⟩ := List.getElem_of_getElem? hleft
    obtain ⟨_, rfl⟩ := List.getElem_of_getElem? hright
    exact hc

end Mirror

end Stack

/-! ## Machines -/

namespace Machine

/-- The machines have heaps `g` and `h`, and are the same otherwise up to the pairing. -/
structure Mirror (ρ : Ref → Ref → Prop) (g h : Heap) (m n : Machine) : Prop where
  code : n.code = m.code
  arguments : n.arguments = m.arguments
  stack : m.stack.Mirror ρ n.stack
  pc : n.pc = m.pc
  bp : n.bp = m.bp
  executed : n.executed = m.executed
  left : m.heap = g
  right : n.heap = h

variable {g h : Heap} {m n : Machine} {α β : Type} {V : α → α → Prop} {W : β → β → Prop}

/-- Both operations return, or both fail; either way the machines still mirror each other. -/
def Parallel (ρ : Ref → Ref → Prop) (g h : Heap) (V : α → α → Prop) :
    EStateM.Result Failure Machine α → EStateM.Result Failure Machine α → Prop :=
  Twin (fun v m w n => V v w ∧ Mirror ρ g h m n)
    (fun e m f n => e.Corresponds ρ f ∧ Mirror ρ g h m n)

/-- Both readings have a value, or both have a fault. -/
inductive Agree (ρ : Ref → Ref → Prop) (V : α → α → Prop) :
    Except Fault α → Except Fault α → Prop
  | ok {v w : α} : V v w → Agree ρ V (.ok v) (.ok w)
  | error {f f' : Fault} : f.Corresponds ρ f' → Agree ρ V (.error f) (.error f')

theorem Parallel.bind {a b : Action α} {k l : α → Action β} (h₁ : Parallel ρ g h V (a m) (b n))
    (h₂ : ∀ v w m' n', V v w → Mirror ρ g h m' n' → Parallel ρ g h W (k v m') (l w n')) :
    Parallel ρ g h W ((a >>= k) m) ((b >>= l) n) :=
  Twin.bind h₁ fun v m' w n' hv => h₂ v w m' n' hv.1 hv.2

theorem Parallel.pure {v w : α} (hm : Mirror ρ g h m n) (hv : V v w) :
    Parallel ρ g h V ((pure v : Action α) m) ((pure w : Action α) n) := ⟨hv, hm⟩

/-! ## Readings -/

/-- A reading that is the same of both machines. -/
theorem Agree.same {x y : Except Fault α} (heq : y = x)
    (hx : ∀ fault, x = .error fault → fault.isPlain = true) :
    Agree ρ (fun v w => x = .ok v ∧ w = v) x y := by
  rw [heq]
  cases x with
  | ok v => exact .ok ⟨rfl, rfl⟩
  | error fault => exact .error (.same (hx fault rfl))

theorem isPlain_of_boundsFault {fault : Fault} (hb : Stack.BoundsFault fault) :
    fault.isPlain = true := by
  rcases hb with rfl | ⟨_, rfl⟩ | ⟨_, rfl⟩ <;> rfl

theorem Parallel.require_bind {x y : Except Fault α} {k l : α → Action β}
    (hm : Mirror ρ g h m n) (ha : Agree ρ V x y)
    (hn : ∀ v w, V v w → Parallel ρ g h W (k v m) (l w n)) :
    Parallel ρ g h W ((Machine.require x >>= k) m) ((Machine.require y >>= l) n) := by
  cases ha with
  | ok hv => exact hn _ _ hv
  | error hf => exact ⟨.fault hf, hm⟩

theorem Parallel.ofStack_bind {read read' : Stack → Except Fault α} {k l : α → Action β}
    (hm : Mirror ρ g h m n) (ha : Agree ρ V (read m.stack) (read' n.stack))
    (hn : ∀ v w, V v w → Parallel ρ g h W (k v m) (l w n)) :
    Parallel ρ g h W ((Machine.ofStack read >>= k) m) ((Machine.ofStack read' >>= l) n) := by
  generalize hx : read m.stack = x at ha
  generalize hy : read' n.stack = y at ha
  cases ha with
  | ok hv =>
    rw [bind_of_ok (ofStack_ok hx), bind_of_ok (ofStack_ok hy)]
    exact hn _ _ hv
  | error hf =>
    rw [bind_of_error (ofStack_error hx), bind_of_error (ofStack_error hy)]
    exact ⟨.fault hf, hm⟩

theorem agree_get (hm : Mirror ρ g h m n) {index : Int} (hp : 0 ≤ index →
      m.stack.Paired ρ n.stack index.toNat ∨ m.stack.size ≤ index.toNat) :
    Agree ρ (fun w w' => m.stack.get index = .ok w ∧ w.Corresponds ρ w') (m.stack.get index)
      (n.stack.get index) := by
  have hsize := hm.stack.size
  simp only [Stack.get]
  split
  · exact .error (.same rfl)
  · next hge =>
    rcases hp (by omega) with ⟨w, w', hw, hw', hc⟩ | hout
    · rw [hw, hw']
      exact .ok ⟨rfl, hc⟩
    · rw [Array.getElem?_eq_none hout, Array.getElem?_eq_none (by rw [← hsize] at hout; exact hout),
        hsize]
      exact .error (.same rfl)

/-- The words at and below the stack pointer agree. -/
theorem agree_get_live (hm : Mirror ρ g h m n) {index : Int} (hle : index ≤ m.stack.pointer) :
    Agree ρ (fun w w' => m.stack.get index = .ok w ∧ w.Corresponds ρ w') (m.stack.get index)
      (n.stack.get index) := by
  have hpointer := hm.stack.bounded.pointer_eq
  exact agree_get hm fun hge => .inl (hm.stack.words _ (by omega))

theorem agree_top (hm : Mirror ρ g h m n) :
    Agree ρ (fun w w' => m.stack.top = .ok w ∧ w.Corresponds ρ w') m.stack.top n.stack.top := by
  simp only [Stack.top]
  rw [hm.stack.pointer]
  exact agree_get_live hm (Int.le_refl _)

theorem agree_integer {operation : Opcode} {w w' : Word} (hw : w.Corresponds ρ w') :
    Agree ρ (fun v v' => w = .int v ∧ v' = v) (integer operation w) (integer operation w') := by
  cases hw with
  | int value => exact .ok ⟨rfl, rfl⟩
  | null => exact .error (.integer .null)
  | ref hr => exact .error (.integer (.ref hr))

theorem agree_reference {operation : Opcode} {w w' : Word} (hw : w.Corresponds ρ w') :
    Agree ρ (fun r s => r.isNull = true ∧ s.isNull = true ∨ ρ r s) (reference operation w)
      (reference operation w') := by
  cases hw with
  | int value => exact .error (.reference (.int value))
  | null => exact .ok (.inl ⟨rfl, rfl⟩)
  | ref hr => exact .ok (.inr hr)

theorem agree_codeAddress (address : Int64) :
    Agree ρ (fun v w => codeAddress address = .ok v ∧ w = v) (codeAddress address)
      (codeAddress address) := by
  refine .same rfl ?_
  intro fault hf
  simp only [codeAddress] at hf
  split at hf <;> cases hf
  rfl

theorem agree_moved (hm : Mirror ρ g h m n) (shift : Int64) :
    Agree ρ (fun v w => m.stack.moved shift = .ok v ∧ w = v) (m.stack.moved shift)
      (n.stack.moved shift) :=
  .same (Stack.moved_congr hm.stack.size hm.stack.pointer) fun _ hf =>
    isPlain_of_boundsFault (Stack.boundsFault_of_moved hf)

theorem agree_argumentCount (hm : Mirror ρ g h m n) (count : Int64) :
    Agree ρ (fun v w => m.stack.argumentCount count = .ok v ∧ w = v)
      (m.stack.argumentCount count) (n.stack.argumentCount count) :=
  .same (Stack.argumentCount_congr hm.stack.pointer) fun _ hf =>
    isPlain_of_boundsFault (Stack.boundsFault_of_argumentCount hf)

theorem agree_slotOf (hm : Mirror ρ g h m n) (index : Int64) :
    Agree ρ (fun v w => m.stack.slotOf index = .ok v ∧ w = v) (m.stack.slotOf index)
      (n.stack.slotOf index) :=
  .same (Stack.slotOf_congr hm.stack.size) fun _ hf =>
    isPlain_of_boundsFault (Stack.boundsFault_of_slotOf hf)

/-! ## Operations -/

theorem parallel_fail {fault : Fault} (hm : Mirror ρ g h m n) (hk : fault.isPlain = true) :
    Parallel ρ g h V (fail fault m) (fail fault n) := ⟨.fault (.same hk), hm⟩

theorem Mirror.withStack (hm : Mirror ρ g h m n) {s t : Stack} (hs : s.Mirror ρ t) :
    Mirror ρ g h { m with stack := s } { n with stack := t } :=
  { hm with stack := hs }

theorem parallel_onStack {change change' : Stack → Stack} (hm : Mirror ρ g h m n)
    (hs : (change m.stack).Mirror ρ (change' n.stack)) :
    Parallel ρ g h (fun _ _ => True) (onStack change m) (onStack change' n) :=
  ⟨trivial, hm.withStack hs⟩

theorem parallel_push {w w' : Word} (hm : Mirror ρ g h m n) (hw : w.Corresponds ρ w') :
    Parallel ρ g h (fun _ _ => True) (push w m) (push w' n) := by
  rw [push_eq hm.stack.bounded, push_eq hm.stack.bounded_right, hm.stack.size, hm.stack.height]
  split
  · next hlt => exact ⟨trivial, hm.withStack (hm.stack.push hlt hw)⟩
  · exact ⟨.fault (.same rfl), hm⟩

theorem Parallel.pop_bind {k l : Word → Action β} (hm : Mirror ρ g h m n)
    (hn : ∀ w w', m.stack.top = .ok w → w.Corresponds ρ w' →
      Mirror ρ g h { m with stack := m.stack.drop } { n with stack := n.stack.drop } →
      Parallel ρ g h W (k w { m with stack := m.stack.drop })
        (l w' { n with stack := n.stack.drop })) :
    Parallel ρ g h W ((pop >>= k) m) ((pop >>= l) n) := by
  have ha := agree_top hm
  generalize hx : m.stack.top = x at ha
  generalize hy : n.stack.top = y at ha
  cases ha with
  | ok hw =>
    rw [bind_of_ok (pop_ok hx), bind_of_ok (pop_ok hy)]
    exact hn _ _ (hw.1 ▸ hx) hw.2 (hm.withStack (hm.stack.drop (Stack.get_eq_ok.1 hx).1))
  | error hf =>
    rw [bind_of_error (pop_error hx), bind_of_error (pop_error hy)]
    exact ⟨.fault hf, hm⟩

theorem parallel_pop (hm : Mirror ρ g h m n) :
    Parallel ρ g h (Word.Corresponds ρ) (pop m) (pop n) := by
  have hpop := Parallel.pop_bind (k := pure) (l := pure) (W := Word.Corresponds ρ) hm
    fun _ _ _ hw hm => Parallel.pure hm hw
  rwa [bind_pure] at hpop

theorem Parallel.popInteger_bind {operation : Opcode} {k l : Int64 → Action β}
    (hm : Mirror ρ g h m n)
    (hn : ∀ v, m.stack.top = .ok (.int v) →
      Mirror ρ g h { m with stack := m.stack.drop } { n with stack := n.stack.drop } →
      Parallel ρ g h W (k v { m with stack := m.stack.drop })
        (l v { n with stack := n.stack.drop })) :
    Parallel ρ g h W ((popInteger operation >>= k) m) ((popInteger operation >>= l) n) := by
  rw [popInteger, bind_assoc, bind_assoc]
  apply pop_bind hm
  intro w w' htop hw hm
  refine require_bind hm (agree_integer hw) ?_
  intro v v' hv
  obtain ⟨rfl, rfl⟩ := hv
  exact hn _ htop hm

theorem parallel_popCell {operation : Opcode} {fault : Fault} (hp : Pairing ρ)
    (hm : Mirror ρ g h m n) (hk : fault.isPlain = true) :
    Parallel ρ g h ρ (popCell operation fault m) (popCell operation fault n) := by
  refine (parallel_pop hm).bind ?_
  intro _ _ m n hw hm
  refine Parallel.require_bind hm (agree_reference hw) ?_
  intro r s hr
  rcases hr with ⟨hr, hs⟩ | hr
  · simp only [hr, hs, if_true]
    exact parallel_fail hm hk
  · simp only [hp.left hr, hp.right hr, Bool.false_eq_true, if_false]
    exact Parallel.pure hm hr

theorem parallel_jump (hm : Mirror ρ g h m n) (address : Nat) :
    Parallel ρ g h (fun _ _ => True) (jump address m) (jump address n) :=
  ⟨trivial, { hm with pc := rfl }⟩

end Machine

end ConsMachine
