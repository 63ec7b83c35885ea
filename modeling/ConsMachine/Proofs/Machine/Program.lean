import ConsMachine.Proofs.Machine.Soundness

/-!
# The program of a machine

The code and the arguments of a machine are there from the beginning, and no step changes them.

## Main definitions

* `Machine.program` — the code and the arguments.
* `Machine.KeepsProgram` — an operation changes neither, whether it fails or not.
-/

namespace ConsMachine

namespace Machine

/-- The code and the arguments. -/
def program (m : Machine) : Array Int64 × List Int64 := (m.code, m.arguments)

/-- The program is the same when a value is returned and when the operation fails. -/
def KeepsProgram {α : Type} (action : Action α) : Prop :=
  ∀ m, Outcome (fun _ t => t.program = m.program) (fun _ t => t.program = m.program) (action m)

section

variable {α β : Type} {action : Action α} {k : α → Action β}

/-! ## What operations are made of -/

theorem KeepsProgram.bind (ha : KeepsProgram action) (hk : ∀ v, KeepsProgram (k v)) :
    KeepsProgram (action >>= k) := fun m =>
  (ha m).bind fun v t ht => ht ▸ hk v t

theorem keepsProgram_pure (v : α) : KeepsProgram (pure v) := fun _ => rfl

theorem keepsProgram_modify {f : Machine → Machine} (hf : ∀ m, (f m).program = m.program) :
    KeepsProgram (modify f) := fun m => hf m

theorem keepsProgram_require (x : Except Fault α) : KeepsProgram (require x) := fun m => by
  cases x <;> rfl

theorem keepsProgram_ofStack (read : Stack → Except Fault α) : KeepsProgram (ofStack read) :=
  fun m => by
    cases hr : read m.stack with
    | ok v =>
      rw [ofStack_ok hr]
      rfl
    | error fault =>
      rw [ofStack_error hr]
      rfl

theorem keepsProgram_onHeap (action : Heap.Action α) : KeepsProgram (onHeap action) := fun m => by
  obtain ⟨code, arguments, stack, heap, pc, bp, executed⟩ := m
  simp only [onHeap]
  cases action heap <;> rfl

theorem keepsProgram_get : KeepsProgram (get : Action Machine) := fun _ => rfl

theorem keepsProgram_setPointer (pointer : Int) : KeepsProgram (setPointer pointer) := fun _ => rfl

theorem keepsProgram_wordAt (slot : Nat) : KeepsProgram (wordAt slot) := fun m => by
  unfold wordAt
  split <;> rfl

theorem keepsProgram_putWordAt (slot : Nat) (w : Word) : KeepsProgram (putWordAt slot w) :=
  fun m => by
    unfold putWordAt
    split <;> rfl

theorem keepsProgram_liveWords : KeepsProgram liveWords := fun m => by
  unfold liveWords
  split <;> rfl

theorem keepsProgram_load (index : Int) : KeepsProgram (load index) :=
  (keepsProgram_ofStack _).bind keepsProgram_wordAt

theorem keepsProgram_store (index : Int) (w : Word) : KeepsProgram (store index w) :=
  (keepsProgram_ofStack _).bind fun slot => keepsProgram_putWordAt slot w

theorem keepsProgram_top : KeepsProgram top :=
  keepsProgram_get.bind fun m => keepsProgram_load m.stack.pointer

theorem keepsProgram_push (w : Word) : KeepsProgram (push w) :=
  keepsProgram_get.bind fun _ => (keepsProgram_store _ w).bind fun _ => keepsProgram_setPointer _

theorem keepsProgram_pop : KeepsProgram pop :=
  keepsProgram_top.bind fun w => KeepsProgram.bind (fun _ => rfl) fun _ => keepsProgram_pure w

theorem keepsProgram_copyWords (stride source target : Int) (count : Nat) :
    KeepsProgram (copyWords stride source target count) := by
  induction count generalizing source target with
  | zero => exact keepsProgram_pure ()
  | succ count ih =>
    exact (keepsProgram_load _).bind fun w => (keepsProgram_store _ w).bind fun _ => ih _ _

theorem keepsProgram_clearWords (index : Int) (count : Nat) :
    KeepsProgram (clearWords index count) := by
  induction count generalizing index with
  | zero => exact keepsProgram_pure ()
  | succ count ih => exact (keepsProgram_store _ _).bind fun _ => ih _

theorem keepsProgram_popInteger (operation : Opcode) : KeepsProgram (popInteger operation) :=
  keepsProgram_pop.bind fun _ => keepsProgram_require _

theorem keepsProgram_popCell (operation : Opcode) (ifNull : Fault) :
    KeepsProgram (popCell operation ifNull) := by
  refine keepsProgram_pop.bind fun w => (keepsProgram_require _).bind fun cell => ?_
  split
  · exact fun _ => rfl
  · exact keepsProgram_pure cell

end

/-! ## Operations -/

theorem keepsProgram_arithmetic (operation : Opcode) (f : Int64 → Int64 → Except Fault Int64) :
    KeepsProgram (arithmetic operation f) := by
  refine (keepsProgram_popInteger _).bind fun right => ?_
  refine (keepsProgram_popInteger _).bind fun left => ?_
  exact (keepsProgram_require _).bind fun v => keepsProgram_push _

theorem keepsProgram_equal : KeepsProgram equal :=
  keepsProgram_pop.bind fun _ => keepsProgram_pop.bind fun _ => keepsProgram_push _

theorem keepsProgram_negation : KeepsProgram negation :=
  keepsProgram_pop.bind fun _ => keepsProgram_push _

theorem keepsProgram_duplicate : KeepsProgram duplicate :=
  keepsProgram_top.bind fun w => keepsProgram_push w

theorem keepsProgram_swap : KeepsProgram swap := by
  refine keepsProgram_get.bind fun m => (keepsProgram_load _).bind fun upper => ?_
  refine (keepsProgram_load _).bind fun lower => ?_
  exact (keepsProgram_store _ _).bind fun _ => keepsProgram_store _ _

theorem keepsProgram_loadIndirect : KeepsProgram loadIndirect := by
  refine (keepsProgram_popInteger _).bind fun index => (keepsProgram_ofStack _).bind fun slot => ?_
  exact (keepsProgram_wordAt _).bind fun w => keepsProgram_push w

theorem keepsProgram_storeIndirect : KeepsProgram storeIndirect := by
  refine keepsProgram_pop.bind fun w => (keepsProgram_popInteger _).bind fun index => ?_
  refine (keepsProgram_ofStack _).bind fun slot => ?_
  exact (keepsProgram_putWordAt slot w).bind fun _ => keepsProgram_push w

theorem keepsProgram_reserve (shift : Int64) : KeepsProgram (reserve shift) := by
  refine (keepsProgram_ofStack _).bind fun target => keepsProgram_get.bind fun m => ?_
  exact (keepsProgram_clearWords _ _).bind fun _ => keepsProgram_setPointer target

theorem keepsProgram_goto (address : Int64) : KeepsProgram (goto address) :=
  (keepsProgram_require _).bind fun _ _ => rfl

theorem keepsProgram_branch (zero : Bool) (address : Int64) : KeepsProgram (branch zero address) := by
  refine keepsProgram_pop.bind fun w => ?_
  split
  · exact keepsProgram_goto address
  · exact keepsProgram_pure ()

theorem keepsProgram_call (count address : Int64) (next : Nat) :
    KeepsProgram (call count address next) := by
  refine (keepsProgram_ofStack _).bind fun count => (keepsProgram_ofStack _).bind fun target => ?_
  refine (keepsProgram_require _).bind fun pc => keepsProgram_get.bind fun m => ?_
  refine (keepsProgram_copyWords _ _ _ _).bind fun _ => (keepsProgram_store _ _).bind fun _ => ?_
  refine keepsProgram_get.bind fun t => (keepsProgram_store _ _).bind fun _ => ?_
  exact (keepsProgram_setPointer _).bind fun _ => keepsProgram_modify fun _ => rfl

theorem keepsProgram_tailCall (count drop address : Int64) :
    KeepsProgram (tailCall count drop address) := by
  refine (keepsProgram_ofStack _).bind fun count => (keepsProgram_ofStack _).bind fun target => ?_
  refine (keepsProgram_require _).bind fun pc => ?_
  split
  · exact fun _ => rfl
  · refine keepsProgram_get.bind fun m => (keepsProgram_copyWords _ _ _ _).bind fun _ => ?_
    exact (keepsProgram_setPointer _).bind fun _ _ => rfl

theorem keepsProgram_ret (locals : Int64) : KeepsProgram (ret locals) := by
  refine keepsProgram_top.bind fun result => (keepsProgram_ofStack _).bind fun frame => ?_
  refine (keepsProgram_load _).bind fun saved => (keepsProgram_require _).bind fun bp => ?_
  refine (keepsProgram_load _).bind fun saved => (keepsProgram_require _).bind fun back => ?_
  refine (keepsProgram_require _).bind fun pc => ?_
  refine KeepsProgram.bind (fun _ => rfl) fun _ => ?_
  exact (keepsProgram_setPointer _).bind fun _ => keepsProgram_store _ _

theorem keepsProgram_pushAll (values : List Int64) : KeepsProgram (pushAll values) := by
  induction values with
  | nil => exact keepsProgram_pure ()
  | cons value rest ih => exact (keepsProgram_push _).bind fun _ => ih

theorem keepsProgram_stop : KeepsProgram stop := by
  refine keepsProgram_get.bind fun m => ?_
  split
  · exact keepsProgram_pure _
  · exact keepsProgram_top.bind fun w => keepsProgram_pure _

theorem keepsProgram_printCharacter : KeepsProgram printCharacter := by
  refine keepsProgram_top.bind fun w => ?_
  cases w <;> exact keepsProgram_pure _

theorem keepsProgram_cons : KeepsProgram cons := by
  refine keepsProgram_get.bind fun m => (keepsProgram_load _).bind fun car => ?_
  refine (keepsProgram_load _).bind fun cdr => keepsProgram_liveWords.bind fun live => ?_
  refine (keepsProgram_onHeap _).bind fun cell => (keepsProgram_onHeap _).bind fun _ => ?_
  refine (keepsProgram_onHeap _).bind fun _ => ?_
  exact (keepsProgram_setPointer _).bind fun _ => keepsProgram_store _ _

theorem keepsProgram_take (operation : Opcode) (part : CellPart) :
    KeepsProgram (take operation part) := by
  refine (keepsProgram_popCell _ _).bind fun cell => ?_
  exact (keepsProgram_onHeap _).bind fun w => keepsProgram_push w

theorem keepsProgram_set (operation : Opcode) (part : CellPart) :
    KeepsProgram (set operation part) := by
  refine keepsProgram_pop.bind fun value => (keepsProgram_popCell _ _).bind fun cell => ?_
  exact (keepsProgram_onHeap _).bind fun _ => keepsProgram_push _

theorem keepsProgram_silently {action : Action Unit} (ha : KeepsProgram action) :
    KeepsProgram (silently action) := ha.bind fun _ => keepsProgram_pure _

theorem keepsProgram_execute {i : Instruction} (next : Nat) : KeepsProgram (execute i next) := by
  obtain ⟨opcode, operands⟩ := i
  have nullary : ∀ {action : Action Event}, KeepsProgram action →
      KeepsProgram (nullary operands action) := by
    intro action ha
    unfold nullary
    split
    · exact ha
    · exact fun _ => rfl
  have unary : ∀ {action : Int64 → Action Event}, (∀ a, KeepsProgram (action a)) →
      KeepsProgram (unary operands action) := by
    intro action ha
    unfold unary
    split
    · exact ha _
    · exact fun _ => rfl
  cases opcode with
  | csti => exact unary fun k => keepsProgram_silently (keepsProgram_push _)
  | add => exact nullary (keepsProgram_silently (keepsProgram_arithmetic _ _))
  | sub => exact nullary (keepsProgram_silently (keepsProgram_arithmetic _ _))
  | mul => exact nullary (keepsProgram_silently (keepsProgram_arithmetic _ _))
  | div => exact nullary (keepsProgram_silently (keepsProgram_arithmetic _ _))
  | mod => exact nullary (keepsProgram_silently (keepsProgram_arithmetic _ _))
  | eq => exact nullary (keepsProgram_silently keepsProgram_equal)
  | lt => exact nullary (keepsProgram_silently (keepsProgram_arithmetic _ _))
  | not => exact nullary (keepsProgram_silently keepsProgram_negation)
  | dup => exact nullary (keepsProgram_silently keepsProgram_duplicate)
  | swap => exact nullary (keepsProgram_silently keepsProgram_swap)
  | ldi => exact nullary (keepsProgram_silently keepsProgram_loadIndirect)
  | sti => exact nullary (keepsProgram_silently keepsProgram_storeIndirect)
  | getbp =>
    exact nullary (keepsProgram_silently (.bind (fun _ => rfl) fun _ => keepsProgram_push _))
  | getsp =>
    exact nullary (keepsProgram_silently (.bind (fun _ => rfl) fun _ => keepsProgram_push _))
  | incsp => exact unary fun shift => keepsProgram_silently (keepsProgram_reserve shift)
  | goto => exact unary fun address => keepsProgram_silently (keepsProgram_goto address)
  | ifzero => exact unary fun address => keepsProgram_silently (keepsProgram_branch true address)
  | ifnzro => exact unary fun address => keepsProgram_silently (keepsProgram_branch false address)
  | call =>
    unfold execute binary
    simp only
    split
    · exact keepsProgram_silently (keepsProgram_call _ _ next)
    · exact fun _ => rfl
  | tcall =>
    unfold execute ternary
    simp only
    split
    · exact keepsProgram_silently (keepsProgram_tailCall _ _ _)
    · exact fun _ => rfl
  | ret => exact unary fun locals => keepsProgram_silently (keepsProgram_ret locals)
  | printi => exact nullary (keepsProgram_top.bind fun w => keepsProgram_pure _)
  | printc => exact nullary keepsProgram_printCharacter
  | ldargs =>
    exact nullary (keepsProgram_silently (.bind (fun _ => rfl) fun _ => keepsProgram_pushAll _))
  | stop => exact nullary keepsProgram_stop
  | nil => exact nullary (keepsProgram_silently (keepsProgram_push _))
  | cons => exact nullary (keepsProgram_silently keepsProgram_cons)
  | car => exact nullary (keepsProgram_silently (keepsProgram_take .car .car))
  | cdr => exact nullary (keepsProgram_silently (keepsProgram_take .cdr .cdr))
  | setcar => exact nullary (keepsProgram_silently (keepsProgram_set .setcar .car))
  | setcdr => exact nullary (keepsProgram_silently (keepsProgram_set .setcdr .cdr))

theorem program_of_new {code arguments : List Int64} {heapSize stackSize : Nat} {m : Machine}
    (hnew : new code arguments heapSize stackSize = .ok m) :
    m.program = (code.toArray, arguments) := by
  simp only [new] at hnew
  split at hnew <;> cases hnew
  rfl

theorem keepsProgram_step : KeepsProgram step := fun m => by
  simp only [step]
  split
  · rfl
  · exact keepsProgram_execute _ _

end Machine

/-! ## Runs -/

namespace Session

variable {s : Session}

theorem step_program : Outcome (fun _ t => t.machine.program = s.machine.program)
    (fun _ t => t.machine.program = s.machine.program) (step s) := by
  refine (announce_spec.mono (fun _ t ht => congrArg Machine.program ht)
    fun _ t ht => congrArg Machine.program ht.2).bind fun _ t ht => ?_
  refine Outcome.bind (ht ▸ onMachine_spec (Machine.keepsProgram_step t.machine)) fun event u hu => ?_
  exact (emit_spec event).mono (fun _ v hv => hv ▸ hu) fun _ v hv => hv.2 ▸ hu

theorem after_program : s.after.machine.program = s.machine.program :=
  after_of_step (P := fun t => t.machine.program = s.machine.program) step_program

theorem iterate_program (n : Nat) : (after^[n] s).machine.program = s.machine.program :=
  Function.Iterate.rec (fun t : Session => t.machine.program = s.machine.program) rfl
    (fun _ ht => after_program.trans ht) n

end Session

end ConsMachine
