import ConsMachine.Proofs.Machine.Failure
import ConsMachine.Proofs.Machine.Realization

/-!
# Calls and returns that succeed

What a call, a tail call and a return have checked when they succeed, and what they leave. A step
that succeeds has executed the instruction that is decoded.
-/

namespace ConsMachine

namespace Machine

variable {m t : Machine}

/-! ## Sequences that succeed -/

section

variable {α β : Type} {k : α → Action β} {w : β}

theorem ofStack_bind_eq_ok {read : Stack → Except Fault α} :
    (ofStack read >>= k) m = .ok w t ↔ ∃ v, read m.stack = .ok v ∧ k v m = .ok w t := by
  cases hread : read m.stack with
  | ok v =>
    rw [bind_of_ok (ofStack_ok hread)]
    simp
  | error fault =>
    rw [bind_of_error (ofStack_error hread)]
    simp

theorem require_bind_eq_ok {x : Except Fault α} :
    (require x >>= k) m = .ok w t ↔ ∃ v, x = .ok v ∧ k v m = .ok w t := by
  cases x with
  | ok v =>
    change k v m = .ok w t ↔ _
    simp
  | error fault =>
    change EStateM.Result.error (Failure.fault fault) m = .ok w t ↔ _
    simp

theorem silently_eq_ok {action : Action Unit} {event : Event} :
    silently action m = .ok event t ↔ event = .silent ∧ action m = .ok () t := by
  unfold silently
  cases ha : action m with
  | ok v u =>
    rw [bind_of_ok ha]
    change EStateM.Result.ok Event.silent u = .ok event t ↔ _
    grind
  | error failure u =>
    rw [bind_of_error ha]
    simp

theorem silently_eq_error {action : Action Unit} {failure : Failure} :
    silently action m = .error failure t ↔ action m = .error failure t := by
  unfold silently
  cases ha : action m with
  | ok v u =>
    rw [bind_of_ok ha]
    exact ⟨nofun, nofun⟩
  | error failure' u => rw [bind_of_error ha]; simp

end

/-! ## Instructions -/

variable {count drop address locals : Int64} {next : Nat}

theorem call_eq_ok (hcall : call count address next m = .ok () t) : ∃ argc target pc,
    m.stack.argumentCount count = .ok argc ∧ m.stack.moved 2 = .ok target ∧
      codeAddress address = .ok pc ∧
      t = { m with
        stack := (m.stack.store (m.stack.height - argc)
          ([.int (Int64.ofNat next), .int m.bp] ++
            (m.stack.slots.extract (m.stack.height - argc) m.stack.height).toList)).setPointer
              target
        bp := Int64.ofInt (target + 1 - argc)
        pc } := by
  rw [call_eq] at hcall
  obtain ⟨argc, hargc, hcall⟩ := ofStack_bind_eq_ok.1 hcall
  obtain ⟨target, htarget, hcall⟩ := ofStack_bind_eq_ok.1 hcall
  obtain ⟨pc, hpc, hcall⟩ := require_bind_eq_ok.1 hcall
  cases hcall
  exact ⟨argc, target, pc, hargc, htarget, hpc, rfl⟩

theorem tailCall_eq_ok (hm : m.stack.Bounded)
    (hcall : tailCall count drop address m = .ok () t) : ∃ argc target pc,
    m.stack.argumentCount count = .ok argc ∧
      m.stack.moved (Stack.negateClamped drop) = .ok target ∧ codeAddress address = .ok pc ∧
      (argc : Int) ≤ target + 1 ∧
      t = { m with
        stack := (m.stack.slide (m.stack.height - argc) (target + 1 - argc).toNat argc).setPointer
          target
        pc } := by
  rw [tailCall_eq hm.upper] at hcall
  obtain ⟨argc, hargc, hcall⟩ := ofStack_bind_eq_ok.1 hcall
  obtain ⟨target, htarget, hcall⟩ := ofStack_bind_eq_ok.1 hcall
  obtain ⟨pc, hpc, hcall⟩ := require_bind_eq_ok.1 hcall
  refine ⟨argc, target, pc, hargc, htarget, hpc, ?_⟩
  by_cases hunder : target + 1 < argc
  · rw [if_pos hunder] at hcall
    cases hcall
  · rw [if_neg hunder] at hcall
    cases hcall
    exact ⟨Int.not_lt.1 hunder, rfl⟩

theorem ret_eq_ok (hret : ret locals m = .ok () t) : ∃ result frame bp saved pc,
    m.stack.top = .ok result ∧ m.stack.moved (Stack.negateClamped locals) = .ok frame ∧
      m.stack.get (frame - 1) = .ok (.int bp) ∧ m.stack.get (frame - 2) = .ok (.int saved) ∧
      codeAddress saved = .ok pc ∧
      t = { m with
        stack := (m.stack.store (frame - 2).toNat [result]).setPointer (frame - 2)
        bp
        pc } := by
  rw [ret_eq] at hret
  obtain ⟨result, hresult, hret⟩ := ofStack_bind_eq_ok.1 hret
  obtain ⟨frame, hframe, hret⟩ := ofStack_bind_eq_ok.1 hret
  obtain ⟨word, hword, hret⟩ := ofStack_bind_eq_ok.1 hret
  obtain ⟨bp, hbp, hret⟩ := require_bind_eq_ok.1 hret
  obtain ⟨word', hword', hret⟩ := ofStack_bind_eq_ok.1 hret
  obtain ⟨saved, hsaved, hret⟩ := require_bind_eq_ok.1 hret
  obtain ⟨pc, hpc, hret⟩ := require_bind_eq_ok.1 hret
  rw [integer_eq_ok.1 hbp] at hword
  rw [integer_eq_ok.1 hsaved] at hword'
  cases hret
  exact ⟨result, frame, bp, saved, pc, hresult, hframe, hword, hword', hpc, rfl⟩

end Machine

/-! ## Steps -/

theorem Machine.step_eq_ok {m t : Machine} {event : Machine.Event} (hstep : step m = .ok event t) :
    ∃ i next, Instruction.decode m.code m.pc = .ok (i, next) ∧
      execute i next (m.fetched next) = .ok event t := by
  unfold step at hstep
  split at hstep
  · cases hstep
  · next i next hdecode => exact ⟨i, next, hdecode, hstep⟩

namespace Session

variable {s t : Session} {result : Option Word}

/-- A step that succeeds has executed the next instruction. -/
theorem step_eq_ok (hstep : step s = .ok result t) : ∃ i next event,
    Instruction.decode s.machine.code s.machine.pc = .ok (i, next) ∧
      Machine.execute i next (s.machine.fetched next) = .ok event t.machine := by
  have hmachine : Outcome (fun event m => Machine.step s.machine = .ok event m) (fun _ _ => True)
      (Machine.step s.machine) := by
    cases Machine.step s.machine with
    | ok event m => rfl
    | error failure m => trivial
  have hany : Outcome (fun _ u => u.machine = s.machine) (fun _ _ => True) (announce s) :=
    announce_spec.mono (fun _ _ => id) fun _ _ _ => trivial
  have hspec : Outcome (fun _ u => ∃ event, Machine.step s.machine = .ok event u.machine)
      (fun _ _ => True) (step s) := by
    refine hany.bind fun _ u hu => ?_
    rw [← hu] at hmachine ⊢
    refine (onMachine_spec hmachine).bind fun event v hv => ?_
    exact (emit_spec event).mono (fun _ w hw => ⟨event, hw ▸ hv⟩) fun _ _ _ => trivial
  obtain ⟨event, hm⟩ := hspec.of_ok hstep
  obtain ⟨i, next, hdecode, hexecute⟩ := Machine.step_eq_ok hm
  exact ⟨i, next, event, hdecode, hexecute⟩

end Session

end ConsMachine
