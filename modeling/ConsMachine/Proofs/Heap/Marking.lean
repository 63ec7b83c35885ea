import ConsMachine.Proofs.Heap.Reachability
import ConsMachine.Proofs.Outcome

/-!
# Marking is exact

While a heap is marked, `Tricolor` holds: what a root or a black block leads to is marked, or it is
still to be shaded. Once nothing is grey and nothing is left to shade, the black blocks are exactly
those that the roots reach. A marking that fails has met a reference that the roots reach and that
leads to no white block.
-/

namespace ConsMachine

/-- The state of a marking of `h` from `roots` with the references in `pending` still to shade. -/
structure Tricolor (h : Heap) (roots : List Word) (m : Marking) (pending : List Ref) : Prop where
  recolored : h.Recolored m.heap
  grey : ∀ r, r ∈ m.grey ↔ r.isNull = false ∧
    ∃ header, m.heap.BlockAt r.headerIndex header ∧ header.color = .grey
  nodup : m.grey.Nodup
  reached : ∀ r, m.heap.Marked r → r.index < h.capacity ∧ h.Reaches roots r
  pendingReached : ∀ r ∈ pending, h.Reaches roots r
  fromRoots : ∀ w ∈ roots, ∀ r, w.target? = some r → m.heap.Marked r ∨ r ∈ pending
  fromBlack : ∀ {r : Ref} {header offset w s}, r.isNull = false →
    m.heap.BlockAt r.headerIndex header → header.color = .black → offset < header.length →
    h.words[r.index + offset]? = some w → w.target? = some s → m.heap.Marked s ∨ s ∈ pending

/-- A marking of `h` from `roots` failed in `failure` and left `h'`. -/
structure MarkingFailed (h : Heap) (roots : List Word) (failure : Failure) (h' : Heap) :
    Prop where
  recolored : h.Recolored h'
  cause : ∃ r, failure = .fault (.danglingReference r) ∧ h.Reaches roots r ∧ ¬ h.LeadsToWhite r

namespace Marking

open Heap

variable {h : Heap} {roots : List Word} {m : Marking} {r : Ref} {pending : List Ref}

/-! ## Shading -/

theorem shade_spec (hu : h.Unmarked) (ht : Tricolor h roots m (r :: pending)) :
    Outcome (fun _ m' => Tricolor h roots m' pending)
      (fun failure m' => MarkingFailed h roots failure m'.heap) (shade r m) := by
  have hreach := ht.pendingReached r List.mem_cons_self
  -- Once `r` is marked, nothing has to wait for it any more.
  have settled : ∀ {m' : Marking} {s : Ref}, m'.heap.Marked r →
      (m.heap.Marked s → m'.heap.Marked s) → m.heap.Marked s ∨ s ∈ r :: pending →
      m'.heap.Marked s ∨ s ∈ pending := by
    intro m' s hr hmono hs
    simp only [List.mem_cons] at hs
    rcases hs with hs | rfl | hs
    · exact .inl (hmono hs)
    · exact .inl hr
    · exact .inr hs
  simp only [shade]
  split
  · next fault hh =>
    refine ⟨ht.recolored, r, by rw [headerOf_eq_error hh], hreach, ?_⟩
    rintro ⟨header, hold, -⟩
    obtain ⟨color, hnew⟩ := ht.recolored.headerOf_old hold
    rw [hh] at hnew
    cases hnew
  · next header hh =>
    obtain ⟨hn, hlt, hb⟩ := headerOf_eq_ok.1 hh
    have keep : header.color.isUnmarked = false → Tricolor h roots m pending := fun hm => by
      have hr : m.heap.Marked r := ⟨hn, header, hb, hm⟩
      exact {
        recolored := ht.recolored
        grey := ht.grey
        nodup := ht.nodup
        reached := ht.reached
        pendingReached := fun s hs => ht.pendingReached s (List.mem_cons_of_mem _ hs)
        fromRoots := fun w hw s hs => settled hr id (ht.fromRoots w hw s hs)
        fromBlack := fun hs hb hc ho hw ht' => settled hr id (ht.fromBlack hs hb hc ho hw ht') }
    split
    · next hwhite =>
      rw [paint_of_headerOf .grey hh]
      have hmark : ∀ s, (m.heap.paint r .grey).Marked s ↔ s = r ∨ m.heap.Marked s :=
        fun s => marked_paint hb hn rfl
      have hr : (m.heap.paint r .grey).Marked r := (hmark r).2 (.inl rfl)
      have hmono : ∀ {s}, m.heap.Marked s → (m.heap.paint r .grey).Marked s :=
        fun hs => (hmark _).2 (.inr hs)
      exact {
        recolored := ht.recolored.paint hu hb (.inl hwhite) rfl
        grey := fun s => by
          simp only [List.mem_cons, ht.grey, blockAt_paint hb]
          constructor
          · rintro (rfl | ⟨hs, other, ho, hg⟩)
            · exact ⟨hn, header.paint .grey, by simp, rfl⟩
            · have hne : s.headerIndex ≠ r.headerIndex := by
                intro heq
                rw [heq] at ho
                rw [ho.unique hb, hwhite] at hg
                cases hg
              exact ⟨hs, other, by rwa [if_neg hne], hg⟩
          · rintro ⟨hs, other, ho, hg⟩
            split at ho
            · next heq => exact .inl (Ref.headerIndex_inj hs hn heq)
            · exact .inr ⟨hs, other, ho, hg⟩
        nodup := by
          refine List.nodup_cons.2 ⟨fun hmem => ?_, ht.nodup⟩
          obtain ⟨_, other, ho, hg⟩ := (ht.grey r).1 hmem
          rw [ho.unique hb, hwhite] at hg
          cases hg
        reached := fun s hs => by
          rcases (hmark s).1 hs with rfl | hs
          · exact ⟨ht.recolored.capacity ▸ hlt, hreach⟩
          · exact ht.reached s hs
        pendingReached := fun s hs => ht.pendingReached s (List.mem_cons_of_mem _ hs)
        fromRoots := fun w hw s hs => settled hr hmono (ht.fromRoots w hw s hs)
        fromBlack := fun {s other offset w target} hs hb' hc ho hw ht' => by
          have hblack := (blockAt_paint hb).1 hb'
          split at hblack
          · subst hblack
            cases hc
          · exact settled hr hmono (ht.fromBlack hs hblack hc ho hw ht') }
    · next hgrey => exact keep (by rw [hgrey]; rfl)
    · next hblack => exact keep (by rw [hblack]; rfl)
    · next hblue =>
      refine ⟨ht.recolored, r, rfl, hreach, ?_⟩
      rintro ⟨old, hold, hwhite⟩
      obtain ⟨-, -, hbold⟩ := headerOf_eq_ok.1 hold
      rcases ht.recolored.blockAt hb with hsame | ⟨_, _, _, _, hm⟩
      · rw [hbold.unique hsame, hblue] at hwhite
        cases hwhite
      · rw [hblue] at hm
        cases hm

theorem shadeAll_spec (hu : h.Unmarked) (ht : Tricolor h roots m pending) :
    Outcome (fun _ m' => Tricolor h roots m' [])
      (fun failure m' => MarkingFailed h roots failure m'.heap) (shadeAll pending m) := by
  induction pending generalizing m with
  | nil => exact ht
  | cons r rest ih => exact (shade_spec hu ht).bind fun _ _ => ih

theorem shadeRoots_eq (hroots : ∀ w ∈ roots, w.header? = none) :
    shadeRoots roots = shadeAll (roots.filterMap Word.target?) := by
  induction roots with
  | nil => rfl
  | cons w rest ih =>
    have hrest := ih fun w hw => hroots w (List.mem_cons_of_mem _ hw)
    cases w with
    | int value => exact hrest
    | ref r =>
      cases hn : r.isNull <;> simp [shadeRoots, Word.target?, hn, shadeAll, hrest]
    | header header =>
      have := hroots _ List.mem_cons_self
      simp [Word.header?] at this

/-! ## Scanning -/

theorem mem_data? {data : List Word} {length : Nat} (hd : h.data? r length = some data)
    {w : Word} : w ∈ data ↔ ∃ offset < length, h.words[r.index + offset]? = some w := by
  simp only [data?] at hd
  split at hd
  · next hle =>
    cases hd
    simp only [capacity] at hle
    rw [Array.mem_toList_iff, Array.mem_iff_getElem?]
    simp only [Array.getElem?_extract]
    grind
  · cases hd

theorem scan_spec {heap : Heap} {grey : List Ref} (hp : h.Partitioned) (hu : h.Unmarked)
    (ht : Tricolor h roots ⟨heap, r :: grey⟩ []) :
    Outcome (fun _ m' => Tricolor h roots m' [])
      (fun failure m' => MarkingFailed h roots failure m'.heap) (scan r ⟨heap, grey⟩) := by
  obtain ⟨hn, header, hb, hgrey⟩ := (ht.grey r).1 List.mem_cons_self
  obtain ⟨hlt, hreach⟩ := ht.reached r ⟨hn, header, hb, by rw [hgrey]; rfl⟩
  have hcap : heap.capacity = h.capacity := ht.recolored.capacity
  have hh : heap.headerOf r = .ok header := headerOf_eq_ok.2 ⟨hn, hcap.symm ▸ hlt, hb⟩
  have hend : r.headerIndex + header.length + 1 ≤ heap.capacity :=
    (ht.recolored.partitioned hp).end_le hb
  have hidx := Ref.index_eq hn
  -- In the heap as it was, `r` leads to a white block with the same data.
  obtain ⟨old, hold, hwhite, hpaint⟩ :
      ∃ old, h.BlockAt r.headerIndex old ∧ old.color = .white ∧ header = old.paint .grey := by
    rcases ht.recolored.blockAt hb with hsame | ⟨old, hold, hwhite, heq, _⟩
    · have := hu hsame
      rw [hgrey] at this
      cases this
    · exact ⟨old, hold, hwhite, by rw [heq, hgrey]⟩
  have hlen : old.length = header.length := by rw [hpaint]; rfl
  have hdata : ∀ offset < header.length,
      heap.words[r.index + offset]? = h.words[r.index + offset]? := fun offset ho =>
    ht.recolored.getElem?_eq fun _ => hp.inside hold (by omega) (by omega)
  have hsome : heap.data? r header.length =
      some (heap.words.extract r.index (r.index + header.length)).toList := by
    rw [data?, if_pos (by omega)]
  simp only [scan, hh, hsome]
  rw [paint_of_headerOf .black hh]
  have hmark : ∀ s, (heap.paint r .black).Marked s ↔ s = r ∨ heap.Marked s :=
    fun s => marked_paint hb hn rfl
  refine shadeAll_spec hu
    { recolored := ht.recolored.paint hu hb (.inr (by rw [hgrey]; rfl)) rfl
      grey := fun s => ?_
      nodup := ht.nodup.of_cons
      reached := fun s hs => ?_
      pendingReached := fun s hs => ?_
      fromRoots := fun w hw s hs => ?_
      fromBlack := fun {s other offset w target} hs hb' hc ho hw ht' => ?_ }
  · have hmem := ht.grey s
    have hnot := (List.nodup_cons.1 ht.nodup).1
    simp only [blockAt_paint hb]
    constructor
    · intro hs
      obtain ⟨hsn, other, ho, hg⟩ := hmem.1 (List.mem_cons_of_mem _ hs)
      have hne : s.headerIndex ≠ r.headerIndex :=
        fun heq => hnot (Ref.headerIndex_inj hsn hn heq ▸ hs)
      exact ⟨hsn, other, by rwa [if_neg hne], hg⟩
    · rintro ⟨hsn, other, ho, hg⟩
      split at ho
      · subst ho
        cases hg
      · next hne =>
        rcases List.mem_cons.1 (hmem.2 ⟨hsn, other, ho, hg⟩) with rfl | hs
        · exact absurd rfl hne
        · exact hs
  · rcases (hmark s).1 hs with rfl | hs
    · exact ⟨hlt, hreach⟩
    · exact ht.reached s hs
  · obtain ⟨w, hw, hs⟩ := List.mem_filterMap.1 hs
    obtain ⟨offset, ho, hget⟩ := (mem_data? hsome).1 hw
    exact .child hreach (headerOf_eq_ok.2 ⟨hn, hlt, hold⟩) hwhite (hlen ▸ ho)
      ((hdata offset ho).symm.trans hget) hs
  · rcases ht.fromRoots w hw s hs with hs | hs
    · exact .inl ((hmark s).2 (.inr hs))
    · cases hs
  · have hblack := (blockAt_paint hb).1 hb'
    split at hblack
    · next heq =>
      obtain rfl := Ref.headerIndex_inj hs hn heq
      subst hblack
      exact .inr (List.mem_filterMap.2 ⟨w,
        (mem_data? hsome).2 ⟨offset, ho, (hdata offset ho).trans hw⟩, ht'⟩)
    · rcases ht.fromBlack hs hblack hc ho hw ht' with hm | hm
      · exact .inl ((hmark target).2 (.inr hm))
      · cases hm

theorem drain_spec (hp : h.Partitioned) (hu : h.Unmarked) (ht : Tricolor h roots m []) :
    Outcome (fun _ m' => Tricolor h roots m' [] ∧ m'.grey = [])
      (fun failure m' => MarkingFailed h roots failure m'.heap) (drain m) := by
  fun_induction drain m with
  | case1 m hgrey => exact ⟨ht, hgrey⟩
  | case2 m r grey hgrey m' hscan ih =>
    have ht : Tricolor h roots ⟨m.heap, r :: grey⟩ [] := by rwa [← hgrey]
    exact ih ((scan_spec hp hu ht).of_ok hscan)
  | case3 m r grey hgrey failure m' hscan =>
    have ht : Tricolor h roots ⟨m.heap, r :: grey⟩ [] := by rwa [← hgrey]
    exact (scan_spec hp hu ht).of_error hscan

end Marking

/-! ## The whole marking -/

namespace Tricolor

open Heap

variable {h : Heap} {roots : List Word} {r : Ref}

theorem start (hu : h.Unmarked) :
    Tricolor h roots ⟨h, []⟩ (roots.filterMap Word.target?) := by
  have unmarked : ∀ {i header}, h.BlockAt i header → header.color ≠ .grey ∧
      header.color ≠ .black := fun hb => by
    have := hu hb
    constructor <;> intro hc <;> rw [hc] at this <;> cases this
  refine
    { recolored := .refl h
      grey := fun r => ?_
      nodup := .nil
      reached := fun r hr => ?_
      pendingReached := fun r hr => ?_
      fromRoots := fun w hw r hr => .inr (List.mem_filterMap.2 ⟨w, hw, hr⟩)
      fromBlack := fun _ hb hc => absurd hc (unmarked hb).2 }
  · simp only [List.not_mem_nil, false_iff, not_and, not_exists]
    exact fun _ header hb => (unmarked hb).1
  · obtain ⟨_, header, hb, hm⟩ := hr
    rw [hu hb] at hm
    cases hm
  · obtain ⟨w, hw, hr⟩ := List.mem_filterMap.1 hr
    exact .root hw hr

/-- Nothing is left to do: what the roots reach is black. -/
theorem black_of_reaches {m : Marking} (ht : Tricolor h roots m []) (hg : m.grey = [])
    (hr : h.Reaches roots r) : r.isNull = false ∧
      ∃ header, m.heap.BlockAt r.headerIndex header ∧ header.color = .black := by
  have black : ∀ {s}, m.heap.Marked s → s.isNull = false ∧
      ∃ header, m.heap.BlockAt s.headerIndex header ∧ header.color = .black := by
    rintro s ⟨hn, header, hb, hm⟩
    refine ⟨hn, header, hb, ?_⟩
    have hnot : header.color ≠ .grey := fun hc => by
      have := (ht.grey s).2 ⟨hn, header, hb, hc⟩
      rw [hg] at this
      cases this
    revert hm hnot
    cases header.color <;> simp [Color.isUnmarked]
  induction hr with
  | root hw ht' => exact black ((ht.fromRoots _ hw _ ht').resolve_right (List.not_mem_nil))
  | child _ hh _ ho hw ht' ih =>
    obtain ⟨hn, header, hb, hc⟩ := ih
    obtain ⟨_, _, hold⟩ := headerOf_eq_ok.1 hh
    obtain ⟨color, hnew, _⟩ := ht.recolored.blockAt_old hold
    obtain rfl := hb.unique hnew
    exact black ((ht.fromBlack hn hb hc ho hw ht').resolve_right (List.not_mem_nil))

end Tricolor

namespace Heap

variable {h : Heap} {roots : List Word}

/-- A marking of `h` from `roots` ended with `h'`. -/
structure Blackened (h : Heap) (roots : List Word) (h' : Heap) : Prop where
  recolored : h.Recolored h'
  white : ∀ {r}, h.Reaches roots r → h.LeadsToWhite r
  black : ∀ {i header}, h'.BlockAt i header →
    (header.color = .black ↔ h.Reaches roots (.ofHeader i))
  noGrey : ∀ {i header}, h'.BlockAt i header → header.color ≠ .grey

theorem mark_spec (hp : h.Partitioned) (hu : h.Unmarked)
    (hroots : ∀ w ∈ roots, w.header? = none) :
    Outcome (fun _ h' => h.Blackened roots h') (MarkingFailed h roots) (mark roots h) := by
  have hstart := Marking.shadeAll_spec hu (Tricolor.start hu : Tricolor h roots _ _)
  rw [← Marking.shadeRoots_eq hroots] at hstart
  simp only [mark]
  cases hs : Marking.shadeRoots roots ⟨h, []⟩ with
  | error failure m => exact hstart.of_error hs
  | ok _ m =>
    have hdrain := Marking.drain_spec hp hu (hstart.of_ok hs)
    cases hd : Marking.drain m with
    | error failure m' =>
      simp only [hd]
      exact hdrain.of_error hd
    | ok _ m' =>
      simp only [hd, Outcome.ok_iff]
      obtain ⟨ht, hg⟩ := hdrain.of_ok hd
      refine ⟨ht.recolored, ?_, fun hb => ⟨?_, ?_⟩, ?_⟩
      · intro r hr
        obtain ⟨hn, header, hb, hc⟩ := ht.black_of_reaches hg hr
        obtain ⟨hlt, _⟩ := ht.reached _ ⟨hn, header, hb, by rw [hc]; rfl⟩
        rcases ht.recolored.blockAt hb with hsame | ⟨old, hold, hwhite, _, _⟩
        · have := hu hsame
          rw [hc] at this
          cases this
        · exact ⟨old, headerOf_eq_ok.2 ⟨hn, hlt, hold⟩, hwhite⟩
      · intro hc
        exact (ht.reached (.ofHeader _) ⟨rfl, _, hb, by rw [hc]; rfl⟩).2
      · intro hr
        obtain ⟨_, header, hb', hc⟩ := ht.black_of_reaches hg hr
        rw [hb.unique hb', hc]
      · intro i header hb hc
        have := (ht.grey (.ofHeader _)).2 ⟨rfl, _, by exact hb, hc⟩
        rw [hg] at this
        cases this

/-! ## What is painted -/

namespace Blackened

variable {h' : Heap} {i : Nat} {header : Header}

theorem blockAt_reached (hm : h.Blackened roots h') (hb : h.BlockAt i header)
    (hr : h.Reaches roots (.ofHeader i)) : h'.BlockAt i (header.paint .black) := by
  obtain ⟨color, hnew, -⟩ := hm.recolored.blockAt_old hb
  have hblack : color = .black := (hm.black hnew).2 hr
  rwa [hblack] at hnew

theorem old (hm : h.Blackened roots h') (hu : h.Unmarked) (hb : h'.BlockAt i header)
    (hc : header.color = .black) : ∃ old, h.BlockAt i old ∧ old.color = .white ∧
      header = old.paint .black := by
  rcases hm.recolored.blockAt hb with hsame | ⟨old, ho, hwhite, heq, -⟩
  · have := hu hsame
    rw [hc] at this
    cases this
  · exact ⟨old, ho, hwhite, by rw [heq, hc]⟩

/-- What the roots do not reach keeps its color. -/
theorem blockAt_unreached (hm : h.Blackened roots h') (hb : h.BlockAt i header)
    (hr : ¬ h.Reaches roots (.ofHeader i)) : h'.BlockAt i header := by
  obtain ⟨color, hnew, rfl | ⟨-, hmark⟩⟩ := hm.recolored.blockAt_old hb
  · exact hnew
  · cases color with
    | black => exact absurd ((hm.black hnew).1 rfl) hr
    | grey => exact absurd rfl (hm.noGrey hnew)
    | white | blue => cases hmark

end Blackened

/-- A marking fails exactly when the roots reach a reference that leads to no white block, and it
names such a reference. If it does not fail, it paints just the blocks that the roots reach. Either
way it changes nothing but the color of white blocks. -/
theorem mark_paints_reached (hp : h.Partitioned) (hu : h.Unmarked)
    (hroots : ∀ w ∈ roots, w.header? = none) :
    ((∃ r h', mark roots h = .error (.fault (.danglingReference r)) h') ↔
        ∃ r, h.Reaches roots r ∧ ¬ h.LeadsToWhite r) ∧
      (∀ h', mark roots h = .ok () h' → h.Blackened roots h' ∧
        ∀ i header, h.BlockAt i header → ¬ h.Reaches roots (.ofHeader i) → h'.BlockAt i header) ∧
      ∀ failure h', mark roots h = .error failure h' → MarkingFailed h roots failure h' := by
  have hspec := mark_spec hp hu hroots
  refine ⟨⟨?_, ?_⟩, fun h' hm => ?_, fun failure h' hm => hspec.of_error hm⟩
  · rintro ⟨r, h', hm⟩
    obtain ⟨s, -, hr, hno⟩ := (hspec.of_error hm).cause
    exact ⟨s, hr, hno⟩
  · rintro ⟨r, hr, hno⟩
    cases hm : mark roots h with
    | ok _ h' => exact absurd ((hspec.of_ok hm).white hr) hno
    | error failure h' =>
      obtain ⟨s, rfl, -⟩ := (hspec.of_error hm).cause
      exact ⟨s, h', rfl⟩
  · have hpainted := hspec.of_ok hm
    exact ⟨hpainted, fun i header hb hr => hpainted.blockAt_unreached hb hr⟩

/-- The block at 0 leads to itself, the one at 3 to a block that is not in use. From the first the
marking paints just that block; from both it fails. -/
theorem mark_paints_reached_of_dangling_link : ∃ h h' : Heap,
    h.Partitioned ∧ h.Unmarked ∧
    h.words = #[.header ⟨.cons, 2, .white⟩, .ref ⟨1⟩, .null, .header ⟨.cons, 1, .white⟩,
      .ref ⟨6⟩, .header (.unused 1), .null] ∧
    h'.words = #[.header ⟨.cons, 2, .black⟩, .ref ⟨1⟩, .null, .header ⟨.cons, 1, .white⟩,
      .ref ⟨6⟩, .header (.unused 1), .null] ∧
    mark [.ref ⟨1⟩] h = .ok () h' ∧ h.Blackened [.ref ⟨1⟩] h' ∧
    ∃ r, h.Reaches [.ref ⟨1⟩, .ref ⟨4⟩] r ∧ ¬ h.LeadsToWhite r := by
  let h : Heap := ⟨#[.header ⟨.cons, 2, .white⟩, .ref ⟨1⟩, .null, .header ⟨.cons, 1, .white⟩,
    .ref ⟨6⟩, .header (.unused 1), .null], ⟨6⟩, 0, 0⟩
  have hp : h.Partitioned := by decide
  have hu : h.Unmarked := by decide
  have hone : mark [.ref ⟨1⟩] h = .ok () (h.paint ⟨1⟩ .black) := by cbv
  have htwo : ∃ r h', mark [.ref ⟨1⟩, .ref ⟨4⟩] h = .error (.fault (.danglingReference r)) h' :=
    ⟨⟨6⟩, _, by cbv⟩
  exact ⟨h, h.paint ⟨1⟩ .black, hp, hu, rfl, rfl, hone,
    ((mark_paints_reached hp hu (by decide)).2.1 _ hone).1,
    (mark_paints_reached hp hu (by decide)).1.1 htwo⟩

end Heap

end ConsMachine
