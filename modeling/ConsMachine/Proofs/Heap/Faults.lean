import ConsMachine.Heap.Allocation
import ConsMachine.Proofs.Outcome

/-!
# The faults of the heap

Whatever state the heap is in, what its operations report is that it has run out of memory or that
it is out of order. So a fault of the code or of the program never comes from the heap.

## Main definitions

* `Failure.ofHeap` — a fault of these two kinds, or a breach.
* `HeapReports` — an operation fails in no other way.
-/

namespace ConsMachine

/-- A fault of the kinds that the heap reports. A breach is no report. -/
@[grind] def Failure.ofHeap : Failure → Bool
  | .fault cause => cause.kind == .memory || cause.kind == .consistency
  | .breach _ => true

/-- The operation returns, or it fails as the heap does. -/
def HeapReports {σ α : Type} : EStateM.Result Failure σ α → Prop :=
  Outcome (fun _ _ => True) fun failure _ => failure.ofHeap = true

namespace HeapReports

variable {σ α β : Type} {s : σ}

@[grind =] theorem ok_iff {v : α} : HeapReports (.ok v s : EStateM.Result Failure σ α) ↔ True :=
  Iff.rfl

@[grind =] theorem error_iff {failure : Failure} :
    HeapReports (.error failure s : EStateM.Result Failure σ α) ↔ failure.ofHeap = true := Iff.rfl

theorem bind {action : EStateM Failure σ α} {next : α → EStateM Failure σ β}
    (h : HeapReports (action s)) (hn : ∀ v t, HeapReports (next v t)) :
    HeapReports ((action >>= next) s) :=
  Outcome.bind h fun v t _ => hn v t

end HeapReports

/-! ## Marking -/

namespace Heap

variable {h : Heap} {r : Ref} {index : Nat} {fault : Fault}

@[grind →] theorem ofHeap_of_headerOf (hh : h.headerOf r = .error fault) :
    (Failure.fault fault).ofHeap = true := by
  grind [headerOf, Fault.kind]

@[grind →] theorem ofHeap_of_headerAt (hh : h.headerAt index = .error fault) :
    (Failure.fault fault).ofHeap = true := by
  grind [headerAt, Fault.kind]

@[grind →] theorem ofHeap_of_link (hh : h.link r = .error fault) :
    (Failure.fault fault).ofHeap = true := by
  grind [link, Fault.kind]

@[grind →] theorem ofHeap_of_freeEntry (hh : h.freeEntry r = .error fault) :
    (Failure.fault fault).ofHeap = true := by
  grind [freeEntry, Fault.kind]

end Heap

namespace Marking

theorem paint_reports (m : Marking) (r : Ref) (color : Color) : HeapReports (paint r color m) := by
  grind [paint]

theorem shade_reports (m : Marking) (r : Ref) : HeapReports (shade r m) := by
  grind [shade, paint_reports, Fault.kind]

theorem shadeAll_reports (m : Marking) (refs : List Ref) : HeapReports (shadeAll refs m) := by
  induction refs generalizing m with
  | nil => trivial
  | cons r rest ih => exact (shade_reports m r).bind fun _ t => ih t

theorem shadeRoots_reports (m : Marking) (roots : List Word) :
    HeapReports (shadeRoots roots m) := by
  fun_induction shadeRoots roots generalizing m with
  | case1 => trivial
  | case2 => rfl
  | case3 word rest _ _ r _ ih => exact (shade_reports m r).bind fun _ => ih
  | case4 word rest _ _ _ ih => exact ih m

theorem scan_reports (m : Marking) (r : Ref) : HeapReports (scan r m) := by
  grind [scan, paint_reports, shadeAll_reports]

theorem drain_reports (m : Marking) : HeapReports (drain m) := by
  fun_induction drain m with
  | case1 => trivial
  | case2 m r grey hgrey m' hscan ih => exact ih
  | case3 m r grey hgrey failure m' hscan =>
    have hreports := scan_reports ⟨m.heap, grey⟩ r
    rwa [hscan] at hreports

end Marking

namespace Heap

theorem mark_reports (h : Heap) (roots : List Word) : HeapReports (mark roots h) := by
  grind [mark, Marking.shadeRoots_reports, Marking.drain_reports]

/-! ## Sweeping -/

theorem write_reports (h : Heap) (index : Nat) (word : Word) :
    HeapReports (write index word h) := by
  grind [write]

theorem absorb_reports (h : Heap) (index length : Nat) : HeapReports (h.absorb index length) := by
  fun_induction absorb h index length <;> grind [Fault.kind]

theorem release_reports (h : Heap) (index length : Nat) : HeapReports (release index length h) := by
  refine (write_reports h index _).bind fun _ g => ?_
  split
  · exact (write_reports g _ _).bind fun _ _ => trivial
  · trivial

theorem sweepFrom_reports (h : Heap) (index : Nat) : HeapReports (h.sweepFrom index) := by
  fun_induction sweepFrom h index <;> grind [absorb_reports, release_reports, Fault.kind]

theorem collect_reports (h : Heap) (roots : List Word) : HeapReports (collect roots h) :=
  (mark_reports h roots).bind fun _ _ => (sweepFrom_reports _ 0).bind fun _ _ => trivial

/-! ## Allocation -/

theorem search_reports {h : Heap} {length : Nat} {failure : Failure}
    (hs : h.search length = .error failure) : failure.ofHeap = true := by
  unfold search at hs
  generalize h.capacity = budget, (none : Option Ref) = previous, h.freeList = free at hs
  fun_induction searchFrom h length budget previous free <;> grind [Failure.ofHeap]

theorem clear_reports (h : Heap) (index count : Nat) : HeapReports (clear index count h) := by
  induction count generalizing h index with
  | zero => trivial
  | succ count ih => exact (write_reports h index _).bind fun _ g => ih g _

theorem relink_reports (h : Heap) (previous : Option Ref) (next : Ref) :
    HeapReports (relink previous next h) := by
  cases previous with
  | none => trivial
  | some r => exact write_reports h _ _

theorem carve_reports (h : Heap) (tag : Tag) (length : Nat) (fit : Fit) :
    HeapReports (carve tag length fit h) := by
  have block (g : Heap) : HeapReports ((do
      write fit.block.headerIndex (.header ⟨tag, length, .white⟩)
      clear fit.block.index length : Action Unit) g) :=
    (write_reports g _ _).bind fun _ g => clear_reports g _ _
  unfold carve
  rcases fit.available - length with _ | _ | left
  · exact (relink_reports h _ _).bind fun _ g => block g
  · refine (relink_reports h _ _).bind fun _ g => ?_
    exact (write_reports g _ _).bind fun _ g => block g
  · refine (write_reports h _ _).bind fun _ g => (write_reports g _ _).bind fun _ g => ?_
    exact (relink_reports g _ _).bind fun _ g => block g

theorem tryAllocate_reports (h : Heap) (tag : Tag) (length : Nat) :
    HeapReports (tryAllocate tag length h) := by
  grind [tryAllocate, search_reports, carve_reports]

/-- An allocation in any heap fails only for want of memory or because the heap is out of order. -/
theorem allocate_reports (h : Heap) (tag : Tag) (length : Nat) (roots : List Word) :
    HeapReports (allocate tag length roots h) := by
  refine (tryAllocate_reports h tag length).bind fun found g => ?_
  split
  · trivial
  · refine (collect_reports g roots).bind fun _ g => ?_
    refine (tryAllocate_reports g tag length).bind fun found g => ?_
    split
    · trivial
    · rfl

/-! ## Fields -/

/-- A field that cannot be read leaves the heap as it is. -/
theorem field_reports (h : Heap) (r : Ref) (offset : Nat) :
    Outcome (fun _ _ => True) (fun failure g => failure.ofHeap = true ∧ g = h)
      (field r offset h) := by
  grind [field, Outcome, Fault.kind]

/-- A field that cannot be written leaves the heap as it is. -/
theorem setField_reports (h : Heap) (r : Ref) (offset : Nat) (value : Word) :
    Outcome (fun _ _ => True) (fun failure g => failure.ofHeap = true ∧ g = h)
      (setField r offset value h) := by
  grind [setField, write, Outcome, Fault.kind]

end Heap

end ConsMachine
