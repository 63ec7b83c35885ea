import ConsMachine.Proofs.Machine.Simulation
import Mathlib.Data.Set.Function

/-!
# Renamed cells

Machines that mirror each other are the same machine with its cells renamed: a function takes the
cells that the live words of one reach to those that the live words of the other reach, one to one,
and the words on the stack and in the cells are the same but for their references.

## Main definitions

* `Word.rename`, `Fault.rename`, `Failure.rename` — the same with every reference renamed.
* `Machine.Renamed` — a machine is another one with its cells renamed.
-/

namespace ConsMachine

variable {ρ : Ref → Ref → Prop} {f : Ref → Ref}

/-! ## Words and failures -/

/-- The word with the cell that it leads to renamed. -/
def Word.rename (f : Ref → Ref) : Word → Word
  | .ref r => if r.isNull then .ref r else .ref (f r)
  | w => w

def Fault.rename (f : Ref → Ref) : Fault → Fault
  | .expectedInteger operation found => .expectedInteger operation (found.rename f)
  | .expectedReference operation found => .expectedReference operation (found.rename f)
  | fault => fault

def Failure.rename (f : Ref → Ref) : Failure → Failure
  | .fault reason => .fault (reason.rename f)
  | .breach cause => .breach cause

/-- The function goes by the pairing wherever that says anything. -/
def Follows (f : Ref → Ref) (ρ : Ref → Ref → Prop) : Prop := ∀ {r s}, ρ r s → f r = s

theorem Pairing.exists_follows (hp : Pairing ρ) : ∃ f, Follows f ρ := by
  have value : ∀ r, ∃ s, ∀ s', ρ r s' → s = s' := by
    intro r
    by_cases hr : ∃ s, ρ r s
    · obtain ⟨s, hs⟩ := hr
      exact ⟨s, fun _ => hp.functional hs⟩
    · exact ⟨r, fun s' hs' => absurd ⟨s', hs'⟩ hr⟩
  choose f hf using value
  exact ⟨f, fun {r s} hrs => hf r s hrs⟩

theorem Word.Corresponds.eq_rename {w w' : Word} (hw : w.Corresponds ρ w') (hp : Pairing ρ)
    (hf : Follows f ρ) : w' = w.rename f := by
  cases hw with
  | int value => rfl
  | null => rfl
  | ref hr =>
    rw [Word.rename, hp.left hr, hf hr]
    rfl

theorem Fault.rename_of_isPlain {fault : Fault} (hp : fault.isPlain = true) :
    fault.rename f = fault := by
  cases fault <;> first | rfl | cases hp

theorem Failure.Corresponds.eq_rename {e e' : Failure} (he : e.Corresponds ρ e')
    (hp : Pairing ρ) (hf : Follows f ρ) : e' = e.rename f := by
  cases he with
  | fault hfault =>
    cases hfault with
    | same hplain => exact congrArg Failure.fault (Fault.rename_of_isPlain hplain).symm
    | integer hw => rw [hw.eq_rename hp hf, Failure.rename, Fault.rename]
    | reference hw => rw [hw.eq_rename hp hf, Failure.rename, Fault.rename]

namespace Machine

variable {m n : Machine}

/-- `n` is `m` with its cells renamed by `f`, as far as the program can tell. -/
structure Renamed (f : Ref → Ref) (m n : Machine) : Prop where
  pc : n.pc = m.pc
  bp : n.bp = m.bp
  height : n.stack.height = m.stack.height
  executed : n.executed = m.executed
  bijective : Set.BijOn f m.reached n.reached
  live : n.stack.live = m.stack.live.map (Word.rename f)
  cells : ∀ r ∈ m.reached, ∀ part : CellPart, ∃ w,
    Heap.field r part.offset m.heap = .ok w m.heap ∧
    Heap.field (f r) part.offset n.heap = .ok (w.rename f) n.heap

theorem field_eq {h : Heap} {r : Ref} {offset : Nat} {w : Word} (hc : h.IsCell r)
    (ho : offset < 2) (hw : h.words[r.index + offset]? = some w) :
    Heap.field r offset h = .ok w h := by
  have hfield := Heap.field_spec hc ho hw
  cases hr : Heap.field r offset h with
  | ok v h' =>
    obtain ⟨rfl, rfl⟩ := hfield.of_ok hr
    rfl
  | error _ _ => exact (hfield.of_error hr).elim

theorem Similar.renamed (hs : Similar ρ m n) (hf : Follows f ρ) : Renamed f m n where
  pc := hs.machines.pc
  bp := hs.machines.bp
  height := hs.machines.stack.height
  executed := hs.machines.executed
  bijective := by
    refine ⟨?_, ?_, ?_⟩
    · intro r hr
      obtain ⟨s, hs', hrs⟩ := hs.reached hr
      rwa [hf hrs]
    · intro r hr r' hr' heq
      obtain ⟨s, -, hrs⟩ := hs.reached hr
      obtain ⟨s', -, hrs'⟩ := hs.reached hr'
      rw [hf hrs, hf hrs'] at heq
      exact hs.heaps.pairing.injective hrs (heq ▸ hrs')
    · intro s hs'
      obtain ⟨r, hr, hrs⟩ := hs.reached' hs'
      exact ⟨r, hr, hf hrs⟩
  live := by
    have hlive := hs.machines.stack.live.imp fun _ _ hc =>
      (hc.eq_rename hs.heaps.pairing hf).symm
    rw [← List.forall₂_map_left_iff, List.forall₂_eq_eq_eq] at hlive
    exact hlive.symm
  cells := by
    intro r hr part
    obtain ⟨s, -, hrs⟩ := hs.reached hr
    obtain ⟨w, w', hw, hw', hc⟩ := hs.heaps.data hrs (offset_lt part)
    refine ⟨w, field_eq (hs.heaps.left hrs) (offset_lt part) hw, ?_⟩
    rw [hf hrs, ← hc.eq_rename hs.heaps.pairing hf]
    exact field_eq (hs.heaps.right hrs) (offset_lt part) hw'

end Machine

end ConsMachine
