import ConsMachine.Proofs.Machine.Cons
import Mathlib.Logic.Function.Iterate

/-!
# Soundness

A sound machine stays sound. A step could only spoil it by bringing back a word that was left above
the stack pointer and whose cell has been reclaimed since; a disciplined step brings no word back.

## Main definitions

* `Heap.self` — every cell paired with itself.
* `Machine.RegainsValid`, `Session.RegainsValid` — a step brings back valid words only.
-/

namespace ConsMachine

/-! ## Machines that mirror themselves -/

namespace Heap

variable {h g : Heap} {w w' : Word}

/-- Pairs every cell with itself. -/
def self (h : Heap) (r s : Ref) : Prop := s = r ∧ h.IsCell r

theorem pairing_self : Pairing h.self where
  left := fun hr => hr.2.ne_null
  right := fun hr => hr.1 ▸ hr.2.ne_null
  functional := fun hr hs => hr.1.trans hs.1.symm
  injective := fun hr hs => hr.1.symm.trans hs.1

theorem corresponds_self (ho : h.Orderly) (hc : h.Cellular) :
    w.Corresponds h.self w' ↔ w' = w ∧ h.Valid w := by
  constructor
  · rintro (value | _ | ⟨rfl, hr⟩)
    · exact ⟨rfl, valid_int value⟩
    · exact ⟨rfl, valid_null⟩
    · exact ⟨rfl, valid_ref hr.leadsToWhite⟩
  · rintro ⟨rfl, hv⟩
    cases w' with
    | int value => exact .int value
    | header header =>
      have := hv.noHeader
      cases this
    | ref r =>
      cases hn : r.isNull with
      | true =>
        rw [Ref.isNull_iff.1 hn]
        exact .null
      | false =>
        exact .ref ⟨rfl, (hc.isCell_iff ho).2 (hv.target r (Word.target?_eq_some.2 ⟨rfl, hn⟩))⟩

theorem Sound.mirror_self (hs : h.Sound) (hc : h.Cellular) : Mirror h.self h h where
  pairing := pairing_self
  left := fun hr => hr.2
  right := fun hr => hr.1 ▸ hr.2
  data := by
    rintro r s offset ⟨rfl, hr⟩ ho
    obtain ⟨w, hw, hv⟩ := hs.exists_word hr rfl ho
    exact ⟨w, w, hw, hw, (corresponds_self hs.orderly hc).2 ⟨rfl, hv⟩⟩

/-- An update of cells paired with themselves keeps a heap sound and the words valid. -/
theorem Sound.update_self (hs : h.Sound) (hc : h.Cellular) (hu : Update h.self h h g g) :
    g.capacity = h.capacity ∧ g.Sound ∧ g.Cellular ∧ ∀ {w}, h.Valid w → g.Valid w := by
  cases hu with
  | none heq _ =>
    subst heq
    exact ⟨rfl, hs, hc, id⟩
  | replaced hr ho hw hrep _ =>
    have hp := hs.orderly.partitioned
    have hv := ((corresponds_self hs.orderly hc).1 hw).2
    refine ⟨hrep.capacity, hrep.sound hs hr.2 rfl ho hv,
      hrep.cellular hp hr.2 ho hv.noHeader hc, ?_⟩
    intro w hv'
    exact hv'.mono fun _ => (hrep.leadsToWhite_iff hp hr.2 ho hv.noHeader).2

end Heap

namespace Machine

variable {m : Machine} {heapSize : Nat}

/-- The words that the next step brings back are valid. -/
def RegainsValid (m : Machine) : Prop :=
  ∀ k ∈ m.regained, ∀ w, m.stack.slots[k]? = some w → m.heap.Valid w

theorem Sound.paired_self (hs : m.Sound heapSize) {k : Nat} {w : Word}
    (hk : m.stack.slots[k]? = some w) (hv : m.heap.Valid w) :
    m.stack.Paired m.heap.self m.stack k :=
  ⟨w, w, hk, hk, (Heap.corresponds_self hs.heap.orderly hs.cellular).2 ⟨rfl, hv⟩⟩

theorem Sound.mirror_self (hs : m.Sound heapSize) : Mirror m.heap.self m.heap m.heap m m where
  code := rfl
  arguments := rfl
  stack := ⟨rfl, rfl, hs.bounded, fun k hk => by
    obtain ⟨w, hw, hlive⟩ := hs.exists_slot hk
    exact hs.paired_self hw (hs.live w hlive)⟩
  pc := rfl
  bp := rfl
  executed := rfl
  left := rfl
  right := rfl

/-! ## One step -/

theorem cons_sound (hs : m.Sound heapSize) :
    Outcome (fun _ m' => m'.Sound heapSize)
      (fun failure m' => failure.Ordinary ∧ m'.Sound heapSize) (cons m) := by
  by_cases htwo : 2 ≤ m.stack.height
  · refine (cons_spec hs htwo).mono (fun _ m' ⟨_, _, g, cell, _, _, hclear, hnew, hm'⟩ => ?_)
      fun failure m' ⟨hf, _, hc, _, hm'⟩ => ⟨⟨_, hf, by simp [Fault.kind]⟩, ?_⟩
    · have hgs := hclear.sound hs.heap hs.live
      have hgc := hclear.cellular hs.cellular
      have hfits := hs.fits
      have hcap := hnew.capacity.trans (hclear.capacity.trans hs.capacity)
      have hvalid : ∀ {w}, g.Valid w → m'.heap.Valid w := fun hv => hv.mono fun r hr =>
        (hnew.kept ((hgc.isCell_iff hgs.orderly).2 hr)).1.leadsToWhite
      have hstack : m'.stack = (m.stack.store (m.stack.height - 2) [.ref cell]).drop := by rw [hm']
      have hbounded : m'.stack.Bounded := by
        have hpointer := hs.bounded.pointer_eq
        rw [hstack]
        exact hs.bounded.store.drop (by rw [Stack.pointer_store]; omega)
      refine ⟨hcap, hbounded, hnew.sound, hnew.cellular, ?_⟩
      intro w hw
      obtain ⟨k, hk, hslot⟩ := (Stack.mem_live hbounded.height_le).1 hw
      rw [hstack] at hk hslot
      simp only [Stack.height_drop, Stack.height_store, Stack.slots_drop] at hk hslot
      rw [Stack.getElem?_store] at hslot
      split at hslot
      · next hin =>
        simp only [List.length_singleton] at hin
        obtain rfl : k = m.stack.height - 2 := by omega
        simp only [Nat.sub_self, List.getElem?_cons_zero, Option.some.injEq] at hslot
        rw [← hslot]
        exact Heap.valid_ref hnew.isCell.leadsToWhite
      · refine hvalid (hclear.valid_roots hs.heap hs.live ?_)
        exact (Stack.mem_live hfits).2 ⟨k, by omega, hslot⟩
    · have hstack : m'.stack = m.stack := by rw [hm']
      refine ⟨hc.capacity.trans hs.capacity, hstack ▸ hs.bounded, hc.sound hs.heap hs.live,
        hc.cellular hs.cellular, ?_⟩
      intro w hw
      rw [hstack] at hw
      exact hc.valid_roots hs.heap hs.live hw
  · rw [cons_underflow (by omega)]
    exact ⟨⟨_, rfl, by simp [Fault.kind]⟩, hs⟩

theorem execute_sound {i : Instruction} (next : Nat) (hwf : i.WellFormed) (hs : m.Sound heapSize)
    (hreg : ∀ k ∈ i.regained m.stack, ∀ w, m.stack.slots[k]? = some w → m.heap.Valid w) :
    Outcome (fun _ m' => m'.Sound heapSize) (fun failure m' => failure.Ordinary ∧ m'.Sound heapSize)
      (execute i next m) := by
  by_cases hcons : i.opcode = .cons
  · obtain ⟨opcode, operands⟩ := i
    subst hcons
    obtain rfl := List.length_eq_zero_iff.1 hwf
    exact (cons_sound hs).bind fun _ _ hs' => hs'
  · have ho := hs.heap.orderly
    have sound : ∀ {m' : Machine}, Heap.Update m.heap.self m.heap m.heap m'.heap m'.heap →
        Mirror m.heap.self m'.heap m'.heap m' m' → m'.Sound heapSize := fun {m'} hu hm => by
      obtain ⟨hcap, hheap, hcell, hvalid⟩ := hs.heap.update_self hs.cellular hu
      refine ⟨hcap.trans hs.capacity, hm.stack.bounded, hheap, hcell, ?_⟩
      intro w hw
      obtain ⟨k, hk, hslot⟩ := (Stack.mem_live hm.stack.fits).1 hw
      obtain ⟨v, v', hv, hv', hc⟩ := hm.stack.words k hk
      cases hv.symm.trans hslot
      exact hvalid ((Heap.corresponds_self ho hs.cellular).1 hc).2
    refine (updating_execute next hwf hcons (hs.heap.mirror_self hs.cellular) ho.partitioned
      ho.partitioned hs.mirror_self fun k hk => ?_).outcome.mono
      (fun _ _ hv => sound hv.2.1 hv.2.2) fun _ _ hf => ⟨hf.1.ordinary, sound hf.2.1 hf.2.2⟩
    have hlt := (Instruction.mem_regained hk).2
    have hslot := Array.getElem?_eq_getElem hlt
    exact hs.paired_self hslot (hreg k hk _ hslot)

theorem isPlain_of_decode {code : Array Int64} {address : Nat} {fault : Fault}
    (hd : Instruction.decode code address = .error fault) : fault.isPlain = true := by
  simp only [Instruction.decode] at hd
  split at hd
  · cases hd
    rfl
  · split at hd
    · cases hd
      rfl
    · split at hd <;> cases hd
      rfl

theorem step_sound (hs : m.Sound heapSize) (hreg : m.RegainsValid) :
    Outcome (fun _ m' => m'.Sound heapSize) (fun failure m' => failure.Ordinary ∧ m'.Sound heapSize)
      (step m) := by
  simp only [step]
  split
  · next fault hdecode =>
    exact ⟨⟨fault, rfl, Fault.kind_of_isPlain (isPlain_of_decode hdecode)⟩, hs⟩
  · next i next hdecode =>
    refine execute_sound next (Instruction.wellFormed_of_decode hdecode)
      (hs.decoded next _) ?_
    rwa [RegainsValid, regained, ofInstruction, hdecode] at hreg

/-! ## The machine before the first step -/

theorem new_sound (code arguments : List Int64) (stackSize : Nat)
    (hsize : Heap.minimumCapacity ≤ heapSize) :
    ∃ m, Machine.new code arguments heapSize stackSize = .ok m ∧ m.Sound heapSize := by
  obtain ⟨heap, hnew, hsound, hcap, hblock⟩ := Heap.new_sound hsize
  refine ⟨_, by rw [Machine.new, hnew], hcap, Stack.bounded_empty _, hsound, ⟨?_, ?_⟩, ?_⟩
  · intro i header hb
    rw [(hblock hb).1]
  · intro i header hb ht
    rw [(hblock hb).2] at ht
    cases ht
  · intro w hw
    obtain ⟨k, hk, -⟩ := (Stack.mem_live (Nat.zero_le _)).1 hw
    exact absurd hk (Nat.not_lt_zero k)

end Machine

/-! ## Runs -/

namespace Session

variable {s : Session} {heapSize : Nat}

/-- The words that the next step brings back, if it comes to executing an instruction, are
valid. -/
def RegainsValid (s : Session) : Prop :=
  ∀ s', announce s = .ok () s' → s'.machine.RegainsValid

theorem write_spec (text : String) :
    Outcome (fun _ s' => s'.machine = s.machine)
      (fun failure s' => failure.Ordinary ∧ s'.machine = s.machine) (write text s) := by
  unfold write Sink.write
  split
  · rfl
  · next fault sink hw =>
    refine ⟨⟨fault, rfl, ?_⟩, rfl⟩
    simp only at hw
    split at hw
    · cases hw
    · split at hw <;> cases hw
      simp [Fault.kind]

theorem announce_spec :
    Outcome (fun _ s' => s'.machine = s.machine)
      (fun failure s' => failure.Ordinary ∧ s'.machine = s.machine) (announce s) := by
  change Outcome _ _ ((if s.traced then write (s.machine.traceLine ++ "\n") else pure () :
    Action Unit) s)
  split
  · exact write_spec _
  · rfl

theorem emit_spec (event : Machine.Event) :
    Outcome (fun _ s' => s'.machine = s.machine)
      (fun failure s' => failure.Ordinary ∧ s'.machine = s.machine) (emit event s) := by
  cases event with
  | silent => rfl
  | printed text => exact (write_spec text).bind fun _ _ hs => hs
  | stopped result => rfl

theorem onMachine_spec {α : Type} {action : Machine.Action α} {returns : α → Machine → Prop}
    {fails : Failure → Machine → Prop} (ha : Outcome returns fails (action s.machine)) :
    Outcome (fun v s' => returns v s'.machine) (fun e s' => fails e s'.machine)
      (onMachine action s) := by
  obtain ⟨machine, traced, sink⟩ := s
  simp only [onMachine] at ha ⊢
  cases hr : action machine with
  | ok v machine' => exact ha.of_ok hr
  | error e machine' => exact ha.of_error hr

theorem step_sound (hs : s.machine.Sound heapSize) (hreg : s.RegainsValid) :
    Outcome (fun _ s' => s'.machine.Sound heapSize)
      (fun failure s' => failure.Ordinary ∧ s'.machine.Sound heapSize) (step s) := by
  have hannounce := (announce_spec (s := s)).and_eq.mono (fun _ _ => id)
    fun failure s' ⟨_, hf, hm⟩ => (⟨hf, by rwa [hm]⟩ : failure.Ordinary ∧ s'.machine.Sound heapSize)
  refine hannounce.bind fun _ s' ⟨ha, hm⟩ => ?_
  have hs' : s'.machine.Sound heapSize := by rwa [hm]
  refine (onMachine_spec (Machine.step_sound hs' (hreg s' ha))).bind ?_
  intro event t ht
  refine (emit_spec event).mono (?_) fun _ _ hf => ⟨hf.1, ?_⟩
  · intro _ _ hu
    rwa [hu]
  · rwa [hf.2]

/-- What holds after a step that succeeds and after one that fails. -/
theorem after_of_step {P : Session → Prop}
    (h : Outcome (fun _ t => P t) (fun _ t => P t) (step s)) : P s.after := by
  unfold after
  split
  · next heq => exact h.of_ok heq
  · next heq => exact h.of_error heq

theorem after_sound (hs : s.machine.Sound heapSize) (hreg : s.RegainsValid) :
    s.after.machine.Sound heapSize :=
  after_of_step ((step_sound hs hreg).mono (fun _ _ => id) fun _ _ => And.right)

theorem regainsValid_of_frameDisciplined (hd : s.frameDisciplined = true) : s.RegainsValid := by
  intro s' ha k hk
  rw [frameDisciplined, ha] at hd
  rw [Machine.regained_eq_nil hd] at hk
  cases hk

theorem iterate_sound {n : Nat} (hs : s.machine.Sound heapSize)
    (hreg : ∀ k < n, (after^[k] s).RegainsValid) : (after^[n] s).machine.Sound heapSize := by
  induction n with
  | zero => exact hs
  | succ n ih =>
    rw [Function.iterate_succ_apply']
    exact after_sound (ih fun k hk => hreg k (by omega)) (hreg n (Nat.lt_succ_self n))

/-- A run that has ended does not go on. -/
theorem advance_ended {fuel more : Nat} {result : Except Failure Word} {t : Session}
    (hrun : advance fuel s = .ended result t) (hle : fuel ≤ more) :
    advance more s = .ended result t := by
  induction fuel generalizing s more with
  | zero => cases hrun
  | succ fuel ih =>
    obtain ⟨more, rfl⟩ : ∃ n, more = n + 1 := ⟨more - 1, by omega⟩
    rw [advance] at hrun ⊢
    split at hrun
    · exact ih hrun (by omega)
    · exact hrun
    · exact hrun

theorem advance_sound (fuel : Nat) (hs : s.machine.Sound heapSize)
    (hreg : ∀ k t, advance k s = .running t → t.RegainsValid) :
    match advance fuel s with
    | .running t => t.machine.Sound heapSize
    | .ended result t => t.machine.Sound heapSize ∧
      ∀ failure, result = .error failure → failure.Ordinary := by
  have completed : ∀ {result : Except Failure Word} {t : Session},
      (∀ failure, result = .error failure → failure.Ordinary) →
      ∀ failure, complete result t = .error failure → failure.Ordinary := by
    intro result t hr failure hf
    simp only [complete] at hf
    split at hf
    · exact hr _ hf
    · next fault hflush =>
      cases hf
      simp only [Sink.flush] at hflush
      split at hflush <;> cases hflush
      exact ⟨_, rfl, by simp [Fault.kind]⟩
    · exact hr _ hf
  induction fuel generalizing s with
  | zero => exact hs
  | succ fuel ih =>
    have hstep := step_sound hs (hreg 0 s rfl)
    rw [advance]
    cases hr : step s with
    | error failure t =>
      obtain ⟨hf, ht⟩ := hstep.of_error hr
      exact ⟨ht, completed fun _ heq => by cases heq; exact hf⟩
    | ok result t =>
      have ht := hstep.of_ok hr
      cases result with
      | none =>
        refine ih ht fun k u hu => hreg (k + 1) u ?_
        rw [advance, hr]
        exact hu
      | some word => exact ⟨ht, completed fun _ heq => by cases heq⟩

end Session

end ConsMachine
