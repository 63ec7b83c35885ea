import ConsMachine.Proofs.Heap.Fields

/-!
# Intact heaps

A program can keep references to cells that have been reclaimed and store through them. It can
break the free list that way, and a collection that fails leaves blocks in any color, but the heap
stays cut into blocks that start at multiples of three. No access of the heap is without a report
as long as that holds.

A reference to the last word of the heap could only lead to a block too short for a cell. None is
ever stored: not by the program, which gets references to cells only, and not as a link.

## Main definitions

* `Word.Within` — a word that may be stored.
* `Heap.Intact` — what holds of the heap of any program.
-/

namespace ConsMachine

/-- An integer, or a reference that does not lead past the last word but one of so many. -/
inductive Word.Within (size : Nat) : Word → Prop
  | int (value : Int64) : Within size (.int value)
  | ref {r : Ref} : r.index + 1 < size → Within size (.ref r)

namespace Heap

/-- The heap of so many words is cut into aligned blocks, and its data words may be stored. -/
structure Intact (size : Nat) (h : Heap) : Prop where
  capacity : h.capacity = size
  two_le : 2 ≤ size
  partitioned : h.Partitioned
  aligned : ∀ {i header}, h.BlockAt i header → i % 3 = 0
  data : ∀ {i : Nat} {w : Word}, h.words[i]? = some w → w.header? = none → w.Within size

variable {g h h' : Heap} {size i offset : Nat} {header : Header} {color : Color} {r : Ref}
  {w value : Word} {roots : List Word}

theorem within_null (hs : 2 ≤ size) : Word.null.Within size :=
  .ref (by change 0 + 1 < size; omega)

theorem header?_of_within (hw : w.Within size) : w.header? = none := by
  cases hw <;> rfl

namespace Intact

/-- Registers do not matter. -/
theorem of_words (hi : h.Intact size) (hw : h'.words = h.words) : h'.Intact size := by
  obtain ⟨words, freeList, allocations, collections⟩ := h
  obtain ⟨words', freeList', allocations', collections'⟩ := h'
  obtain rfl : words' = words := hw
  exact ⟨hi.capacity, hi.two_le,
    hi.partitioned.congr rfl (fun hb => ⟨_, hb, rfl⟩) fun hb => ⟨_, hb, rfl⟩, hi.aligned, hi.data⟩

end Intact

theorem new_intact (hs : 2 ≤ size) : ∃ h, Heap.new size = .ok h ∧ h.Intact size := by
  obtain ⟨h, hnew, hsound, hcap, hblock⟩ := new_sound hs
  refine ⟨h, hnew, hcap, hs, hsound.orderly.partitioned, fun hb => by rw [(hblock hb).1], ?_⟩
  intro i w hw hno
  rw [Heap.new, if_neg (by unfold minimumCapacity; omega)] at hnew
  cases hnew
  simp only [Array.getElem?_setIfInBounds, Array.size_setIfInBounds, Array.size_replicate,
    Array.getElem?_replicate] at hw
  split at hw
  · split at hw <;> cases hw
    exact within_null hs
  · split at hw
    · split at hw <;> cases hw
      cases hno
    · split at hw <;> cases hw
      exact .int 0

/-! ## Fields -/

/-- A data word of a block is no header. -/
theorem Intact.within_of_block (hi : h.Intact size) (hb : h.BlockAt i header) {k : Nat}
    (hlt : i < k) (hle : k ≤ i + header.length) (hw : h.words[k]? = some w) : w.Within size := by
  refine hi.data hw ?_
  cases w with
  | header other => exact absurd hw (hi.partitioned.inside hb hlt hle)
  | int value => rfl
  | ref target => rfl

theorem field_robust (hi : h.Intact size) :
    Robust (Intact size) (Word.Within size) (field r offset h) := by
  simp only [field]
  split
  · exact .reported hi
  · next header hh =>
    obtain ⟨hn, -, hb⟩ := headerOf_eq_ok.1 hh
    have hidx := Ref.index_eq hn
    have hend := hi.partitioned.end_le hb
    split
    · next hlt =>
      split
      · next w hw => exact .returned hi (hi.within_of_block hb (by omega) (by omega) hw)
      · next hnone =>
        have := Array.getElem?_eq_none_iff.1 hnone
        simp only [Heap.capacity] at hend
        omega
    · exact .reported hi

theorem Replaced.intact (hr : h.Replaced r offset value h') (hi : h.Intact size)
    (hh : h.headerOf r = .ok header) (ho : offset < header.length) (hv : value.Within size) :
    h'.Intact size := by
  have hblock : ∀ {i other}, h'.BlockAt i other ↔ h.BlockAt i other :=
    hr.blockAt_iff hi.partitioned hh ho (header?_of_within hv)
  refine ⟨hr.capacity.trans hi.capacity, hi.two_le,
    hi.partitioned.congr hr.capacity (fun hb => ⟨_, hblock.2 hb, rfl⟩)
      fun hb => ⟨_, hblock.1 hb, rfl⟩,
    fun hb => hi.aligned (hblock.1 hb), fun {i w} hw hno => ?_⟩
  by_cases heq : i = r.index + offset
  · subst heq
    cases hr.word.symm.trans hw
    exact hv
  · exact hi.data ((hr.other heq).symm.trans hw) hno

theorem setField_robust (hi : h.Intact size) (hv : value.Within size) :
    Robust (Intact size) (fun _ => True) (setField r offset value h) := by
  cases hh : h.headerOf r with
  | error fault =>
    simp only [setField, hh]
    exact .reported hi
  | ok header =>
    by_cases ho : offset < header.length
    · exact (setField_spec value hi.partitioned hh ho).mono
        (fun _ _ hr => ⟨trivial, hr.intact hi hh ho hv⟩) fun _ _ => False.elim
    · simp only [setField, hh, if_neg ho]
      exact .reported hi

/-! ## Marking -/

theorem Intact.paint (hi : h.Intact size) (hb : h.BlockAt r.headerIndex header) :
    (h.paint r color).Intact size := by
  have hblock : ∀ {i other}, (h.paint r color).BlockAt i other ↔
      if i = r.headerIndex then other = header.paint color else h.BlockAt i other :=
    blockAt_paint hb
  refine ⟨(capacity_paint ..).trans hi.capacity, hi.two_le,
    hi.partitioned.congr (capacity_paint ..) (fun {i old} ho => ?_) fun {i new} hn => ?_,
    fun {i new} hn => ?_, fun {i w} hw hno => ?_⟩
  · by_cases heq : i = r.headerIndex
    · subst heq
      obtain rfl := hb.unique ho
      exact ⟨header.paint color, hblock.2 (by simp), rfl⟩
    · exact ⟨old, hblock.2 (by rwa [if_neg heq]), rfl⟩
  · rw [hblock] at hn
    split at hn
    · next heq => exact ⟨header, heq ▸ hb, by rw [hn]; rfl⟩
    · exact ⟨new, hn, rfl⟩
  · rw [hblock] at hn
    split at hn
    · next heq => exact heq ▸ hi.aligned hb
    · exact hi.aligned hn
  · by_cases heq : i = r.headerIndex
    · subst heq
      have hnew : (h.paint r color).BlockAt r.headerIndex (header.paint color) :=
        hblock.2 (by simp)
      cases hnew.symm.trans hw
      cases hno
    · exact hi.data ((getElem?_paint_of_ne hb heq).symm.trans hw) hno

end Heap

namespace Marking

open Heap

variable {m : Marking} {size : Nat} {r : Ref}

theorem shade_robust (r : Ref) (hi : m.heap.Intact size) :
    Robust (fun m => m.heap.Intact size) (fun _ => True) (shade r m) := by
  simp only [shade]
  split
  · exact .reported hi
  · next header hh =>
    split
    · rw [paint_of_headerOf .grey hh]
      exact .returned (hi.paint (headerOf_eq_ok.1 hh).2.2) trivial
    · exact .returned hi trivial
    · exact .returned hi trivial
    · exact .reported hi

theorem shadeAll_robust (refs : List Ref) (hi : m.heap.Intact size) :
    Robust (fun m => m.heap.Intact size) (fun _ => True) (shadeAll refs m) := by
  induction refs generalizing m with
  | nil => exact .returned hi trivial
  | cons r rest ih => exact (shade_robust r hi).bind fun _ _ _ => ih

theorem scan_robust (r : Ref) (hi : m.heap.Intact size) :
    Robust (fun m => m.heap.Intact size) (fun _ => True) (scan r m) := by
  simp only [scan]
  split
  · exact .reported hi
  · next header hh =>
    obtain ⟨hn, -, hb⟩ := headerOf_eq_ok.1 hh
    have hidx := Ref.index_eq hn
    have hend := hi.partitioned.end_le hb
    rw [data?, if_pos (by omega), paint_of_headerOf .black hh]
    exact shadeAll_robust _ (hi.paint hb)

theorem drain_robust (hi : m.heap.Intact size) :
    Robust (fun m => m.heap.Intact size) (fun _ => True) (drain m) := by
  fun_induction drain m with
  | case1 m hgrey => exact .returned hi trivial
  | case2 m r grey hgrey m' hscan ih =>
    have hi' : (⟨m.heap, grey⟩ : Marking).heap.Intact size := hi
    exact ih ((scan_robust r hi').of_ok hscan).2
  | case3 m r grey hgrey failure m' hscan =>
    have hi' : (⟨m.heap, grey⟩ : Marking).heap.Intact size := hi
    exact (scan_robust r hi').of_error hscan

end Marking

namespace Heap

variable {g h h' : Heap} {size i : Nat} {roots : List Word}

theorem mark_robust (hi : h.Intact size) (hroots : ∀ w ∈ roots, w.header? = none) :
    Robust (Intact size) (fun _ => True) (mark roots h) := by
  have hshade := Marking.shadeAll_robust (m := ⟨h, []⟩) (roots.filterMap Word.target?) hi
  rw [← Marking.shadeRoots_eq hroots] at hshade
  simp only [mark]
  cases hs : Marking.shadeRoots roots ⟨h, []⟩ with
  | error failure m => exact hshade.of_error hs
  | ok _ m =>
    have hdrain := Marking.drain_robust (hshade.of_ok hs).2
    cases hd : Marking.drain m with
    | error failure m' =>
      simp only [hd]
      exact hdrain.of_error hd
    | ok _ m' =>
      simp only [hd]
      exact hdrain.of_ok hd

/-! ## Sweeping -/

/-- Also a sweep that a grey block has stopped leaves the heap intact. -/
theorem Swept.intact (hs : g.Swept h i) (hi : g.Intact size) : h.Intact size where
  capacity := hs.capacity.trans hi.capacity
  two_le := hi.two_le
  partitioned := hs.partitioned
  aligned := by
    intro j header hb
    by_cases hj : j < i
    · rcases hs.origin hj hb with ⟨old, hold, -, -⟩ | ⟨-, hrun⟩
      · exact hi.aligned hold
      · obtain ⟨old, hold⟩ := hrun.start
        exact hi.aligned hold
    · exact hi.aligned ((hs.blockAt_iff (by omega)).1 hb)
  data := by
    intro j w hw hno
    have hlt : j < h.capacity := (Array.getElem?_eq_some_iff.1 hw).1
    have hcap := hs.capacity.trans hi.capacity
    rcases hs.data hw hno with hold | rfl | ⟨r, rfl, hr⟩
    · exact hi.data hold hno
    · exact .int 0
    · exact .ref (by omega)

theorem sweep_robust (hi : h.Intact size) :
    Robust (Intact size) (fun _ => True) (sweep h) :=
  (sweep_spec hi.partitioned).mono (fun _ _ hs => ⟨trivial, hs.intact hi⟩)
    fun _ _ ⟨_, _, hf, _, _, hs⟩ => ⟨⟨_, hf⟩, hs.intact hi⟩

theorem collect_robust (hi : h.Intact size) (hroots : ∀ w ∈ roots, w.header? = none) :
    Robust (Intact size) (fun _ => True) (collect roots h) := by
  refine (mark_robust hi hroots).bind fun _ g _ hg => ?_
  refine (sweep_robust hg).bind fun _ h' _ hh' => ?_
  exact .returned (hh'.of_words rfl) trivial

end Heap

end ConsMachine
