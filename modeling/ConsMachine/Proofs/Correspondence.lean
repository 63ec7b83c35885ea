import ConsMachine.Machine.Step
import ConsMachine.Proofs.Outcome

/-!
# Corresponding words

Two machines that differ in where their cells are hold words that correspond: integers are equal,
null is null, and the other references are paired. No operation outside the heap can tell
corresponding words apart, except by printing a reference.

## Main definitions

* `Pairing` — a relation of references that is one-to-one and leaves null out.
* `Word.Corresponds`, `Fault.Corresponds`, `Machine.Event.Corresponds` — the same up to the pairing.
* `Failure.Ordinary` — a failure that is none of the heap.
* `Twin` — what holds of two results: both are values, or both are failures.
-/

namespace ConsMachine

variable {ρ : Ref → Ref → Prop} {v v' w w' : Word}

/-! ## Words -/

/-- Pairs the references to some cells with the references to some cells, one to one. -/
structure Pairing (ρ : Ref → Ref → Prop) : Prop where
  left : ∀ {r s}, ρ r s → r.isNull = false
  right : ∀ {r s}, ρ r s → s.isNull = false
  functional : ∀ {r s s'}, ρ r s → ρ r s' → s = s'
  injective : ∀ {r r' s}, ρ r s → ρ r' s → r = r'

theorem Pairing.symm (hp : Pairing ρ) : Pairing (flip ρ) :=
  ⟨hp.right, hp.left, hp.injective, hp.functional⟩

/-- The words are the same up to the pairing. -/
inductive Word.Corresponds (ρ : Ref → Ref → Prop) : Word → Word → Prop
  | int (value : Int64) : Corresponds ρ (.int value) (.int value)
  | null : Corresponds ρ .null .null
  | ref {r s : Ref} : ρ r s → Corresponds ρ (.ref r) (.ref s)

namespace Word.Corresponds

theorem mono {σ : Ref → Ref → Prop} (hw : w.Corresponds ρ w') (h : ∀ r s, ρ r s → σ r s) :
    w.Corresponds σ w' := by
  cases hw with
  | int value => exact .int value
  | null => exact .null
  | ref hr => exact .ref (h _ _ hr)

theorem symm (hw : w.Corresponds ρ w') : w'.Corresponds (flip ρ) w := by
  cases hw with
  | int value => exact .int value
  | null => exact .null
  | ref hr => exact .ref hr

theorem isZero_eq (hp : Pairing ρ) (hw : w.Corresponds ρ w') : w'.isZero = w.isZero := by
  cases hw with
  | int value => rfl
  | null => rfl
  | ref hr => exact (hp.right hr).trans (hp.left hr).symm

theorem beq_eq (hp : Pairing ρ) (hv : v.Corresponds ρ v') (hw : w.Corresponds ρ w') :
    (v' == w') = (v == w) := by
  have hnull : ∀ {r s}, ρ r s → r ≠ .null ∧ s ≠ .null := fun hr => by
    constructor
    · rintro rfl
      cases hp.left hr
    · rintro rfl
      cases hp.right hr
  rw [Bool.eq_iff_iff, beq_iff_eq, beq_iff_eq]
  cases hv with
  | int value => cases hw <;> simp [Word.null]
  | null =>
    cases hw with
    | int value => simp [Word.null]
    | null => simp
    | ref hr => simp [Word.null, (hnull hr).1.symm, (hnull hr).2.symm]
  | ref hr =>
    cases hw with
    | int value => simp
    | null => simp [Word.null, (hnull hr).1, (hnull hr).2]
    | ref hs =>
      simp only [Word.ref.injEq]
      constructor
      · rintro rfl
        exact hp.injective hr hs
      · rintro rfl
        exact hp.functional hr hs

/-- Words that are no references correspond only to themselves. -/
theorem eq_of_target? (hp : Pairing ρ) (hw : w.Corresponds ρ w') (ht : w.target? = none) :
    w' = w := by
  cases hw with
  | int value => rfl
  | null => rfl
  | ref hr => simp [Word.target?, hp.left hr] at ht

end Word.Corresponds

/-! ## Failures and events -/

/-- A fault that shows no word of the machine, and is none of the heap. -/
def Fault.isPlain : Fault → Bool
  | .expectedInteger .. | .expectedReference .. => false
  | fault => fault.kind != .consistency

/-- The faults are the same up to the words that they show, and none is a fault of the heap. -/
inductive Fault.Corresponds (ρ : Ref → Ref → Prop) : Fault → Fault → Prop
  | same {fault : Fault} (hp : fault.isPlain = true) : Corresponds ρ fault fault
  | integer {operation : Opcode} {w w' : Word} (hw : w.Corresponds ρ w') :
    Corresponds ρ (.expectedInteger operation w) (.expectedInteger operation w')
  | reference {operation : Opcode} {w w' : Word} (hw : w.Corresponds ρ w') :
    Corresponds ρ (.expectedReference operation w) (.expectedReference operation w')

theorem Fault.kind_of_isPlain {fault : Fault} (hp : fault.isPlain = true) :
    fault.kind ≠ .consistency := by
  simp only [isPlain] at hp
  split at hp
  · cases hp
  · cases hp
  · simpa using hp

inductive Failure.Corresponds (ρ : Ref → Ref → Prop) : Failure → Failure → Prop
  | fault {f f' : Fault} : f.Corresponds ρ f' → Corresponds ρ (.fault f) (.fault f')

/-- A failure that the program or the sizes of the stores account for, not a disorder of the
heap. -/
def Failure.Ordinary (failure : Failure) : Prop :=
  ∃ fault, failure = .fault fault ∧ fault.kind ≠ .consistency

theorem Failure.Corresponds.ordinary {e f : Failure} (h : e.Corresponds ρ f) : e.Ordinary := by
  cases h with
  | fault hf =>
    refine ⟨_, rfl, ?_⟩
    cases hf with
    | same hp => exact Fault.kind_of_isPlain hp
    | integer hw => simp [Fault.kind]
    | reference hw => simp [Fault.kind]

/-- The events are the same up to the words that they show. A text is that of the word `shown`. -/
inductive Machine.Event.Corresponds (ρ : Ref → Ref → Prop) (shown : Option Word) :
    Machine.Event → Machine.Event → Prop
  | silent : Corresponds ρ shown .silent .silent
  | printed {w w' : Word} (text : Word → String) (hs : shown = some w)
    (hw : w.Corresponds ρ w') : Corresponds ρ shown (.printed (text w)) (.printed (text w'))
  | stopped {w w' : Word} (hw : w.Corresponds ρ w') : Corresponds ρ shown (.stopped w) (.stopped w')

/-! ## Two results -/

variable {ε σ τ α β α' β' : Type}

/-- Both results are values, or both are failures. -/
def Twin (returns : α → σ → β → τ → Prop) (fails : ε → σ → ε → τ → Prop) :
    EStateM.Result ε σ α → EStateM.Result ε τ β → Prop
  | .ok v s, .ok w t => returns v s w t
  | .error e s, .error f t => fails e s f t
  | _, _ => False

namespace Twin

variable {returns : α → σ → β → τ → Prop} {fails : ε → σ → ε → τ → Prop}
  {returns' : α' → σ → β' → τ → Prop}

theorem bind {a : EStateM ε σ α} {b : EStateM ε τ β} {k : α → EStateM ε σ α'}
    {l : β → EStateM ε τ β'} {s : σ} {t : τ} (h : Twin returns fails (a s) (b t))
    (hn : ∀ v s' w t', returns v s' w t' → Twin returns' fails (k v s') (l w t')) :
    Twin returns' fails ((a >>= k) s) ((b >>= l) t) := by
  cases ha : a s <;> cases hb : b t <;> rw [ha, hb] at h
  · rw [bind_of_ok ha, bind_of_ok hb]
    exact hn _ _ _ _ h
  · exact h.elim
  · exact h.elim
  · rw [bind_of_error ha, bind_of_error hb]
    exact h

theorem mono {returns' : α → σ → β → τ → Prop} {fails' : ε → σ → ε → τ → Prop}
    {x : EStateM.Result ε σ α} {y : EStateM.Result ε τ β} (h : Twin returns fails x y)
    (hr : ∀ v s w t, returns v s w t → returns' v s w t)
    (hf : ∀ e s f t, fails e s f t → fails' e s f t) : Twin returns' fails' x y := by
  cases x <;> cases y
  · exact hr _ _ _ _ h
  · exact h
  · exact h
  · exact hf _ _ _ _ h

/-- Two operations that cannot fail. -/
theorem of_outcomes {p : α → σ → Prop} {q : β → τ → Prop} {x : EStateM.Result ε σ α}
    {y : EStateM.Result ε τ β} (hx : Outcome p (fun _ _ => False) x)
    (hy : Outcome q (fun _ _ => False) y) : Twin (fun v s w t => p v s ∧ q w t) fails x y := by
  cases x <;> cases y
  · exact ⟨hx, hy⟩
  · exact hy.elim
  · exact hx.elim
  · exact hx.elim

/-- An operation that is its own twin. -/
theorem outcome {returns : α → σ → α → σ → Prop} {fails : ε → σ → ε → σ → Prop}
    {x : EStateM.Result ε σ α} (h : Twin returns fails x x) :
    Outcome (fun v s => returns v s v s) (fun e s => fails e s e s) x := by
  cases x <;> exact h

end Twin

end ConsMachine
