import ConsMachine.Fault

/-!
# Outcomes

An operation that leaves its changes also when it fails has a state with either result. `Outcome`
says what holds of both; sequences of operations are reasoned about one operation at a time.

## Main definitions

* `Outcome` — what holds of a value, or of a failure, with the state that comes with it.
* `Robust` — an invariant holds with either result, and a failure is one that is reported.
-/

namespace ConsMachine

variable {ε σ α β : Type} {returns returns' : α → σ → Prop} {fails fails' : ε → σ → Prop}

/-! ## Sequences -/

section

variable {action : EStateM ε σ α} {next : α → EStateM ε σ β} {s t : σ}

theorem bind_of_ok {value : α} (ha : action s = .ok value t) :
    (action >>= next) s = next value t := by
  change EStateM.bind action next s = _
  rw [EStateM.bind, ha]

theorem bind_of_error {failure : ε} (ha : action s = .error failure t) :
    (action >>= next) s = .error failure t := by
  change EStateM.bind action next s = _
  rw [EStateM.bind, ha]

end

/-! ## What holds of a result -/

instance decidableEqResult [DecidableEq ε] [DecidableEq σ] [DecidableEq α] :
    DecidableEq (EStateM.Result ε σ α)
  | .ok value s, .ok value' s' => decidable_of_iff (value = value' ∧ s = s') (by simp)
  | .error failure s, .error failure' s' => decidable_of_iff (failure = failure' ∧ s = s') (by simp)
  | .ok _ _, .error _ _ => isFalse nofun
  | .error _ _, .ok _ _ => isFalse nofun

/-- A value is returned with a state that `returns` holds of, or a failure leaves one that `fails`
holds of. -/
def Outcome (returns : α → σ → Prop) (fails : ε → σ → Prop) : EStateM.Result ε σ α → Prop
  | .ok value s => returns value s
  | .error failure s => fails failure s

namespace Outcome

instance decidable [∀ value s, Decidable (returns value s)] [∀ failure s, Decidable (fails failure s)] :
    ∀ result : EStateM.Result ε σ α, Decidable (Outcome returns fails result)
  | .ok value s => inferInstanceAs (Decidable (returns value s))
  | .error failure s => inferInstanceAs (Decidable (fails failure s))

@[simp] theorem ok_iff {value : α} {s : σ} :
    Outcome returns fails (.ok value s) ↔ returns value s := Iff.rfl

@[simp] theorem error_iff {failure : ε} {s : σ} :
    Outcome returns fails (.error failure s : EStateM.Result ε σ α) ↔ fails failure s := Iff.rfl

theorem mono {result : EStateM.Result ε σ α} (h : Outcome returns fails result)
    (hr : ∀ value s, returns value s → returns' value s)
    (hf : ∀ failure s, fails failure s → fails' failure s) : Outcome returns' fails' result := by
  cases result with
  | ok value s => exact hr value s h
  | error failure s => exact hf failure s h

theorem bind {action : EStateM ε σ α} {next : α → EStateM ε σ β} {s : σ}
    {result : β → σ → Prop} (h : Outcome returns fails (action s))
    (hn : ∀ value t, returns value t → Outcome result fails (next value t)) :
    Outcome result fails ((action >>= next) s) := by
  cases ha : action s with
  | ok value t =>
    rw [ha] at h
    rw [bind_of_ok ha]
    exact hn value t h
  | error failure t =>
    rw [ha] at h
    rw [bind_of_error ha]
    exact h

/-- The postcondition may mention the result itself. -/
theorem and_eq {result : EStateM.Result ε σ α} (h : Outcome returns fails result) :
    Outcome (fun value s => result = .ok value s ∧ returns value s)
      (fun failure s => result = .error failure s ∧ fails failure s) result := by
  cases result with
  | ok value s => exact ⟨rfl, h⟩
  | error failure s => exact ⟨rfl, h⟩

/-- The values and states that an operation really returns. -/
theorem of_ok {result : EStateM.Result ε σ α} {t : σ} {value : α}
    (h : Outcome returns fails result) (ha : result = .ok value t) : returns value t := by
  rwa [ha] at h

theorem of_error {result : EStateM.Result ε σ α} {t : σ} {failure : ε}
    (h : Outcome returns fails result) (ha : result = .error failure t) : fails failure t := by
  rwa [ha] at h

end Outcome

/-! ## Robust operations -/

/-- Either a value is returned or a fault is reported, and the invariant holds in both cases. -/
def Robust (invariant : σ → Prop) (returns : α → Prop) : EStateM.Result Failure σ α → Prop :=
  Outcome (fun value s => returns value ∧ invariant s)
    (fun failure s => (∃ fault, failure = .fault fault) ∧ invariant s)

namespace Robust

variable {invariant : σ → Prop} {V : α → Prop} {W : β → Prop} {s : σ}

theorem bind {action : EStateM Failure σ α} {next : α → EStateM Failure σ β}
    (h : Robust invariant V (action s))
    (hn : ∀ value t, V value → invariant t → Robust invariant W (next value t)) :
    Robust invariant W ((action >>= next) s) :=
  Outcome.bind h fun value t ht => hn value t ht.1 ht.2

theorem returned {value : α} (hs : invariant s) (hv : V value) :
    Robust invariant V (.ok value s) := ⟨hv, hs⟩

theorem reported {fault : Fault} (hs : invariant s) :
    Robust invariant V (.error (.fault fault) s) := ⟨⟨fault, rfl⟩, hs⟩

end Robust

end ConsMachine
