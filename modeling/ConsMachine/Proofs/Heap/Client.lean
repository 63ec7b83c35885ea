import ConsMachine.Proofs.Heap.Allocation
import ConsMachine.Proofs.Heap.Fields
import Mathlib.Logic.Function.Basic

/-!
# Clients of the heap

A client allocates blocks of any length, keeps references to some of them among its roots, and reads
and writes the blocks that it can get at. As long as it keeps to that, the heap is in order after
every request, the blocks that the client can get at hold what it has stored in them, a new block is
none of these, and no request fails except an allocation that finds no room.

## Main definitions

* `Heap.Client` — a heap with the roots of its client, and a record of what the client has stored.
* `Client.Request`, `Client.May`, `Client.perform` — what a client asks for and may ask for.
* `Client.InOrder` — what the client finds.
* `Client.Keeps`, `Client.Granted` — what a request leaves as it was, and what it gives.
-/

namespace ConsMachine.Heap

/-! ## Data of blocks -/

/-- `r` leads to a block in use that holds just these words. -/
structure Holds (h : Heap) (r : Ref) (words : List Word) : Prop where
  header : h.headerOf r = .ok ⟨.cons, words.length, .white⟩
  words : ∀ offset < words.length, h.words[r.index + offset]? = words[offset]?

section

variable {g h h' : Heap} {roots : List Word} {r s : Ref} {length offset : Nat}
  {words : List Word} {value : Word}

theorem Holds.reaches (hh : h.Holds r words) (hr : h.Reaches roots r) {w : Word} (hw : w ∈ words)
    (ht : w.target? = some s) : h.Reaches roots s := by
  obtain ⟨offset, ho, rfl⟩ := List.getElem_of_mem hw
  exact .child hr hh.header rfl ho ((hh.words offset ho).trans (List.getElem?_eq_getElem ho)) ht

/-- The block stays where it is, with its header and its data. -/
theorem Holds.kept (hh : h.Holds r words) (hcap : h'.capacity = h.capacity)
    (hkept : h'.BlockAt r.headerIndex ⟨.cons, words.length, .white⟩ ∧ ∀ k, r.headerIndex < k →
      k ≤ r.headerIndex + words.length → h'.words[k]? = h.words[k]?) : h'.Holds r words := by
  obtain ⟨hn, hlt, -⟩ := headerOf_eq_ok.1 hh.header
  have hidx := Ref.index_eq hn
  refine ⟨headerOf_eq_ok.2 ⟨hn, hcap ▸ hlt, hkept.1⟩, fun offset ho => ?_⟩
  exact (hkept.2 _ (by omega) (by omega)).trans (hh.words offset ho)

theorem Holds.blockAt (hh : h.Holds r words) :
    h.BlockAt r.headerIndex ⟨.cons, words.length, .white⟩ := (headerOf_eq_ok.1 hh.header).2.2

/-- The walk over the heap reads off the words. -/
theorem Holds.dataOf_eq (hh : h.Holds r words) (hp : h.Partitioned) :
    h.dataOf ⟨r.headerIndex, ⟨.cons, words.length, .white⟩⟩ = words := by
  obtain ⟨hn, -, hb⟩ := headerOf_eq_ok.1 hh.header
  have hidx := Ref.index_eq hn
  have hend : r.headerIndex + words.length + 1 ≤ h.words.size := hp.end_le hb
  have hnext : (Block.mk r.headerIndex ⟨.cons, words.length, .white⟩).next =
    r.headerIndex + words.length + 1 := rfl
  apply List.ext_getElem?
  intro k
  rw [dataOf, Array.getElem?_toList, Array.getElem?_extract, hnext]
  split
  · next hk =>
    simp only at hk
    rw [← hh.words k (by omega), hidx]
  · next hk =>
    simp only at hk
    rw [List.getElem?_eq_none (by omega)]

/-! ### Collections -/

theorem Collected.holds (hc : h.Collected roots h') (hr : h.Reaches roots r)
    (hh : h.Holds r words) : h'.Holds r words := by
  refine hh.kept hc.capacity (hc.kept hh.blockAt ?_)
  rwa [Ref.ofHeader_headerIndex hr.ne_null]

theorem Cleared.reaches (hc : Cleared length h roots g) (hs : h.Sound)
    (hroots : ∀ w ∈ roots, h.Valid w) (hr : g.Reaches roots r) : h.Reaches roots r := by
  cases hc with
  | roomy _ heq => exact heq ▸ hr
  | collected _ hg _ => exact (hg.reaches_iff hs hroots).1 hr

theorem Cleared.holds (hc : Cleared length h roots g) (hr : h.Reaches roots r)
    (hh : h.Holds r words) : g.Holds r words := by
  cases hc with
  | roomy _ heq => exact heq ▸ hh
  | collected _ hg _ => exact hg.holds hr hh

/-! ### Allocations -/

theorem Allocated.holds (ha : Allocated length r h h') (hh : h.Holds s words) :
    h'.Holds s words :=
  hh.kept ha.capacity (ha.kept hh.blockAt rfl)

theorem Allocated.holds_new (ha : Allocated length r h h') :
    h'.Holds r (.replicate length .zero) := by
  have hpos : 0 < length := ha.orderly.length_pos ha.block rfl
  have hend : r.headerIndex + length + 1 ≤ h'.capacity :=
    ha.orderly.partitioned.end_le ha.block
  have hidx := Ref.index_eq ha.ne_null
  refine ⟨headerOf_eq_ok.2 ⟨ha.ne_null, by omega, ?_⟩, fun offset ho => ?_⟩
  · rw [List.length_replicate]
    exact ha.block
  · rw [List.length_replicate] at ho
    rw [ha.zero ho, List.getElem?_replicate, if_pos ho]

/-- The new block leads nowhere, and the others lead where they led before. -/
theorem Allocated.reaches (ha : Allocated length r g h') (hs : g.Sound)
    (hroots : ∀ w ∈ roots, g.Valid w) (hr : h'.Reaches (roots ++ [.ref r]) s) :
    s = r ∨ g.Reaches roots s := by
  induction hr with
  | @root w s hw ht =>
    rcases List.mem_append.1 hw with hw | hw
    · exact .inr (.root hw ht)
    · obtain rfl := List.mem_singleton.1 hw
      obtain ⟨heq, -⟩ := Word.target?_eq_some.1 ht
      cases heq
      exact .inl rfl
  | @child t s header offset w _ hh hc ho hw ht ih =>
    obtain ⟨hn, hlt, hb⟩ := headerOf_eq_ok.1 hh
    have hidx := Ref.index_eq hn
    rcases ih with rfl | hreach
    · obtain rfl := hb.unique ha.block
      cases (ha.zero ho).symm.trans hw
      cases ht
    · obtain ⟨old, hold, hwhite⟩ := hs.leadsToWhite hroots hreach
      have hblock := (headerOf_eq_ok.1 hold).2.2
      obtain ⟨hkept, hwords⟩ := ha.kept hblock ((hs.orderly.cons_iff hblock).2 hwhite)
      obtain rfl := hb.unique hkept
      exact .inr (.child hreach hold hwhite ho
        ((hwords _ (by omega) (by omega)).symm.trans hw) ht)

/-! ### Writing -/

theorem Replaced.headerOf_iff {header other : Header} (hr : h.Replaced r offset value h')
    (hp : h.Partitioned) (hh : h.headerOf r = .ok header) (ho : offset < header.length)
    (hv : value.header? = none) : h'.headerOf s = .ok other ↔ h.headerOf s = .ok other := by
  simp only [headerOf_eq_ok, hr.blockAt_iff hp hh ho hv, hr.capacity]

/-- The new word leads only to what could be got at before. -/
theorem Replaced.reaches {header : Header} (hr : h.Replaced r offset value h')
    (hp : h.Partitioned) (hh : h.headerOf r = .ok header) (ho : offset < header.length)
    (hv : value.header? = none) (hvalue : ∀ t, value.target? = some t → h.Reaches roots t)
    (hs : h'.Reaches roots s) : h.Reaches roots s := by
  induction hs with
  | root hw ht => exact .root hw ht
  | @child t s _ k w _ hh' hc hk hw ht ih =>
    by_cases heq : t.index + k = r.index + offset
    · rw [heq, hr.word] at hw
      cases hw
      exact hvalue _ ht
    · exact .child ih ((hr.headerOf_iff hp hh ho hv).1 hh') hc hk ((hr.other heq).symm.trans hw) ht

theorem Replaced.holds_set (hr : h.Replaced r offset value h') (hp : h.Partitioned)
    (hh : h.Holds r words) (ho : offset < words.length) (hv : value.header? = none) :
    h'.Holds r (words.set offset value) := by
  refine ⟨?_, fun k hk => ?_⟩
  · rw [List.length_set]
    exact (hr.headerOf_iff hp hh.header ho hv).2 hh.header
  · rw [List.length_set] at hk
    rw [List.getElem?_set]
    by_cases heq : offset = k
    · subst heq
      rw [if_pos rfl, if_pos ho]
      exact hr.word
    · rw [if_neg heq, hr.other (by omega)]
      exact hh.words k hk

theorem Replaced.holds_of_ne (hr : h.Replaced r offset value h') (hp : h.Partitioned)
    {stored : List Word} (hh : h.Holds r stored) (ho : offset < stored.length)
    (hv : value.header? = none) (hs : h.Holds s words) (hne : s ≠ r) : h'.Holds s words := by
  refine ⟨(hr.headerOf_iff hp hh.header ho hv).2 hs.header, fun k hk => ?_⟩
  rw [hr.other fun heq => hne (hp.eq_of_index hs.header hh.header hk ho heq).1]
  exact hs.words k hk

end

/-! ## Clients -/

/-- A heap in the hands of a client. -/
structure Client where
  heap : Heap
  /-- What collections start from. -/
  roots : List Word
  /-- For every reference that has been returned, the words that have last been stored there. -/
  stored : Ref → List Word

namespace Client

/-- What a client asks for. -/
inductive Request where
  /-- A block of so many words, which becomes a root or is dropped at once. -/
  | allocate (length : Nat) (keep : Bool)
  /-- One root less. -/
  | drop (index : Nat)
  /-- A root once more. -/
  | duplicate (index : Nat)
  /-- A word of a block, which becomes a root. -/
  | read (r : Ref) (offset : Nat)
  | write (r : Ref) (offset : Nat) (value : Word)
  | collect

/-- What the client can get at, by its roots and by what it has stored. -/
inductive Leads (c : Client) : Ref → Prop
  | root {w : Word} {r : Ref} : w ∈ c.roots → w.target? = some r → Leads c r
  | child {r s : Ref} {w : Word} : Leads c r → w ∈ c.stored r → w.target? = some s → Leads c s

/-- Blocks have at least one word. Only words of blocks that the client can get at are read and
written, and a reference that is written leads to one. -/
def May (c : Client) : Request → Prop
  | .allocate length _ => 1 ≤ length
  | .drop _ | .duplicate _ | .collect => True
  | .read r offset => c.Leads r ∧ offset < (c.stored r).length
  | .write r offset value => c.Leads r ∧ offset < (c.stored r).length ∧ value.header? = none ∧
    ∀ s, value.target? = some s → c.Leads s

/-- An operation of the client. A failure leaves what has been done to the heap. -/
abbrev Action := EStateM Failure Client

def onHeap {α : Type} (action : Heap.Action α) : Action α := fun c =>
  match action c.heap with
  | .ok value heap => .ok value { c with heap }
  | .error failure heap => .error failure { c with heap }

def perform : Request → Action Unit
  | .allocate length keep => do
    let r ← onHeap (Heap.allocate .cons length (← get).roots)
    modify fun c => { c with
      roots := if keep then c.roots ++ [.ref r] else c.roots
      stored := Function.update c.stored r (.replicate length .zero) }
  | .drop index => modify fun c => { c with roots := c.roots.eraseIdx index }
  | .duplicate index => modify fun c => { c with roots := c.roots ++ c.roots[index]?.toList }
  | .read r offset => do
    let w ← onHeap (field r offset)
    modify fun c => { c with roots := c.roots ++ [w] }
  | .write r offset value => do
    onHeap (setField r offset value)
    modify fun c => { c with
      stored := Function.update c.stored r ((c.stored r).set offset value) }
  | .collect => do onHeap (Heap.collect (← get).roots)

/-- The client after a request, whether it has succeeded or not. -/
def after (c : Client) (request : Request) : Client :=
  match perform request c with
  | .ok () c' => c'
  | .error _ c' => c'

/-- The clients that a heap can come to have. -/
inductive Reachable (h : Heap) : Client → Prop
  | start : Reachable h ⟨h, [], fun _ => []⟩
  | step {c : Client} {request : Request} : Reachable h c → c.May request →
    Reachable h (c.after request)

/-- The heap is sound, and what can be got at holds what has been stored. -/
structure Sound (c : Client) : Prop where
  heap : c.heap.Sound
  roots : ∀ w ∈ c.roots, c.heap.Valid w
  holds : ∀ {r}, c.heap.Reaches c.roots r → c.heap.Holds r (c.stored r)

/-- What the client finds. The check passes; blocks are white and in use or blue and free, the free
list holds the free ones that have words, once each, and the blocks that the client can get at are
in use and hold what it has stored. -/
structure InOrder (c : Client) : Prop where
  check : c.heap.check = .ok ()
  blocks : ∀ b ∈ c.heap.blocks.1,
    b.header.tag = .cons ∧ b.header.color = .white ∧ 1 ≤ b.header.length ∨
      b.header.tag = .free ∧ b.header.color = .blue
  freeList : ∃ entries, c.heap.Links c.heap.freeList entries .null ∧ entries.Nodup ∧
    ∀ r, r ∈ entries ↔
      ∃ b ∈ c.heap.blocks.1, b.ref = r ∧ b.header.tag = .free ∧ 1 ≤ b.header.length
  stored : ∀ r, c.Leads r → ∃ b ∈ c.heap.blocks.1, b.ref = r ∧
    b.header = ⟨.cons, (c.stored r).length, .white⟩ ∧ c.heap.dataOf b = c.stored r

/-- What a request leaves of the words of a block that was there before. -/
def Request.leaves : Request → Ref → List Word → List Word
  | .write r offset value, s, words => if s = r then words.set offset value else words
  | _, _, words => words

/-- Every block that the client could get at is still in use, and it holds what it has held, but for
a word that has been written. The record says the same. -/
def Keeps (c : Client) (request : Request) (c' : Client) : Prop :=
  ∀ s, c.Leads s → c'.heap.Holds s (request.leaves s (c.stored s)) ∧
    c'.stored s = request.leaves s (c.stored s)

/-- What the client gets by a request that succeeds: a block of zeros that it could not get at
before, or the word that it has last stored where it reads. -/
def Granted (c : Client) (request : Request) (c' : Client) : Prop :=
  match request with
  | .allocate length keep => ∃ r, ¬ c.Leads r ∧ c'.heap.Holds r (.replicate length .zero) ∧
      c'.roots = if keep then c.roots ++ [.ref r] else c.roots
  | .drop index => c'.roots = c.roots.eraseIdx index
  | .duplicate index => c'.roots = c.roots ++ c.roots[index]?.toList
  | .read r offset => ∃ w, (c.stored r)[offset]? = some w ∧ c'.roots = c.roots ++ [w]
  | .write _ _ _ | .collect => c'.roots = c.roots

variable {c : Client} {r : Ref} {request : Request} {capacity : Nat}

theorem onHeap_spec {α : Type} {action : Heap.Action α} {returns : α → Heap → Prop}
    {fails : Failure → Heap → Prop} (ha : Outcome returns fails (action c.heap)) :
    Outcome (fun v c' => ∃ h, returns v h ∧ c' = { c with heap := h })
      (fun failure c' => ∃ h, fails failure h ∧ c' = { c with heap := h }) (onHeap action c) := by
  simp only [onHeap]
  cases hr : action c.heap with
  | ok v h => exact ⟨h, ha.of_ok hr, rfl⟩
  | error failure h => exact ⟨h, ha.of_error hr, rfl⟩

/-! ## One request -/

namespace Sound

theorem leads_iff (hs : c.Sound) : c.Leads r ↔ c.heap.Reaches c.roots r := by
  constructor
  · intro hr
    induction hr with
    | root hw ht => exact .root hw ht
    | child _ hw ht ih => exact (hs.holds ih).reaches ih hw ht
  · intro hr
    induction hr with
    | root hw ht => exact .root hw ht
    | @child r s header offset w hr hh hc ho hw ht ih =>
      have hheld := hs.holds hr
      rw [hheld.header] at hh
      cases hh
      exact .child ih (List.mem_of_getElem? ((hheld.words offset ho).symm.trans hw)) ht

/-- Roots that lead nowhere else change nothing. -/
theorem withRoots {roots : List Word} (hs : c.Sound) (hvalid : ∀ w ∈ roots, c.heap.Valid w)
    (hroots : ∀ w ∈ roots, ∀ t, w.target? = some t → c.heap.Reaches c.roots t) :
    Sound { c with roots } :=
  ⟨hs.heap, hvalid, fun hr => hs.holds (hr.of_roots hroots)⟩

theorem withSomeRoots {roots : List Word} (hs : c.Sound) (hsub : ∀ w ∈ roots, w ∈ c.roots) :
    Sound { c with roots } :=
  hs.withRoots (fun w hw => hs.roots w (hsub w hw)) fun _ hw _ ht => .root (hsub _ hw) ht

theorem keeps_of_heap_eq {roots : List Word} (hs : c.Sound)
    (hleaves : ∀ s words, request.leaves s words = words) : c.Keeps request { c with roots } :=
  fun s hr => by
    rw [hleaves]
    exact ⟨hs.holds (hs.leads_iff.1 hr), rfl⟩

/-! ### Collections -/

theorem keeps_of_collected {h' : Heap} (hs : c.Sound) (hc : c.heap.Collected c.roots h')
    (hleaves : ∀ s words, request.leaves s words = words) :
    c.Keeps request { c with heap := h' } := fun s hr => by
  have hreach := hs.leads_iff.1 hr
  rw [hleaves]
  exact ⟨hc.holds hreach (hs.holds hreach), rfl⟩

theorem collected {h' : Heap} (hs : c.Sound) (hc : c.heap.Collected c.roots h') :
    Sound { c with heap := h' } where
  heap := hc.sound hs.heap hs.roots
  roots := fun _ hw => hc.valid_roots hs.heap hs.roots hw
  holds := fun hr =>
    have hold := (hc.reaches_iff hs.heap hs.roots).1 hr
    hc.holds hold (hs.holds hold)

/-! ### Allocations -/

section

variable {length : Nat} {g h' : Heap} (keep : Bool)

/-- The client's blocks are in use, the new one was not. -/
theorem not_leads (hs : c.Sound) (hc : Cleared length c.heap c.roots g)
    (ha : Allocated length r g h') : ¬ c.Leads r := fun hr =>
  have hreach := hs.leads_iff.1 hr
  ha.not_leadsToWhite (hc.sound hs.heap hs.roots).orderly
    ⟨_, (hc.holds hreach (hs.holds hreach)).header, rfl⟩

theorem keeps_of_allocated {roots : List Word} (hs : c.Sound)
    (hc : Cleared length c.heap c.roots g) (ha : Allocated length r g h') :
    c.Keeps (.allocate length keep) {
      heap := h'
      roots
      stored := Function.update c.stored r (.replicate length .zero) } := fun s hr => by
  have hreach := hs.leads_iff.1 hr
  have hne : s ≠ r := fun heq => hs.not_leads hc ha (heq ▸ hr)
  exact ⟨ha.holds (hc.holds hreach (hs.holds hreach)), Function.update_of_ne hne ..⟩

theorem allocated (hs : c.Sound) (hc : Cleared length c.heap c.roots g)
    (ha : Allocated length r g h') :
    Sound {
      heap := h'
      roots := if keep then c.roots ++ [.ref r] else c.roots
      stored := Function.update c.stored r (.replicate length .zero) } := by
  have hgs := hc.sound hs.heap hs.roots
  have hvalid : ∀ w ∈ c.roots, g.Valid w := fun _ hw => hc.valid_roots hs.heap hs.roots hw
  have hsub : ∀ w ∈ (if keep then c.roots ++ [.ref r] else c.roots),
      w ∈ c.roots ++ [.ref r] := fun w hw => by
    cases keep
    · exact List.mem_append_left _ hw
    · exact hw
  refine ⟨ha.sound hgs, fun w hw => ?_, fun {s} hr => ?_⟩
  · rcases List.mem_append.1 (hsub w hw) with hw | hw
    · exact ha.valid hgs.orderly (hvalid w hw)
    · obtain rfl := List.mem_singleton.1 hw
      exact valid_ref ((ha.leadsToWhite_iff hgs.orderly).2 (.inl rfl))
  · rcases ha.reaches hgs hvalid (hr.of_roots fun w hw t ht => .root (hsub w hw) ht) with
      rfl | hreach
    · simp only [Function.update_self]
      exact ha.holds_new
    · have hleads := hs.leads_iff.2 (hc.reaches hs.heap hs.roots hreach)
      have hkept : c.Keeps (.allocate length keep) ⟨h', [], _⟩ := hs.keeps_of_allocated keep hc ha
      obtain ⟨hheld, hstored⟩ := hkept s hleads
      exact hstored ▸ hheld

end

/-! ### Writing -/

section

variable {offset : Nat} {value : Word} {h' : Heap}

theorem keeps_of_replaced (hs : c.Sound) (hr : c.Leads r) (ho : offset < (c.stored r).length)
    (hv : value.header? = none) (hrep : c.heap.Replaced r offset value h') :
    c.Keeps (.write r offset value) { c with
      heap := h'
      stored := Function.update c.stored r ((c.stored r).set offset value) } := fun s hs' => by
  have hp := hs.heap.orderly.partitioned
  have hheld := hs.holds (hs.leads_iff.1 hr)
  simp only [Request.leaves]
  by_cases heq : s = r
  · subst heq
    rw [if_pos rfl]
    exact ⟨hrep.holds_set hp hheld ho hv, Function.update_self ..⟩
  · rw [if_neg heq]
    exact ⟨hrep.holds_of_ne hp hheld ho hv (hs.holds (hs.leads_iff.1 hs')) heq,
      Function.update_of_ne heq ..⟩

theorem replaced (hs : c.Sound) (hr : c.Leads r) (ho : offset < (c.stored r).length)
    (hv : value.header? = none) (hvalue : ∀ s, value.target? = some s → c.Leads s)
    (hrep : c.heap.Replaced r offset value h') :
    Sound { c with
      heap := h'
      stored := Function.update c.stored r ((c.stored r).set offset value) } := by
  have hp := hs.heap.orderly.partitioned
  have hheld := hs.holds (hs.leads_iff.1 hr)
  have hreach : ∀ s, value.target? = some s → c.heap.Reaches c.roots s := fun s hs' =>
    hs.leads_iff.1 (hvalue s hs')
  have hvalid : c.heap.Valid value :=
    ⟨hv, fun s hs' => hs.heap.leadsToWhite hs.roots (hreach s hs')⟩
  refine ⟨hrep.sound hs.heap hheld.header rfl ho hvalid, fun w hw => ?_, fun {s} hs' => ?_⟩
  · exact (hs.roots w hw).mono fun _ =>
      (hrep.leadsToWhite_iff hp hheld.header ho hv).2
  · have hleads := hs.leads_iff.2 (hrep.reaches hp hheld.header ho hv hreach hs')
    obtain ⟨hheld, hstored⟩ := hs.keeps_of_replaced hr ho hv hrep s hleads
    exact hstored ▸ hheld

end

end Sound

/-- A permitted request leaves the client sound, and it fails only if no block can be had. -/
theorem perform_spec (hs : c.Sound) (hm : c.May request) :
    Outcome (fun _ c' => c'.Sound ∧ c.Keeps request c' ∧ c.Granted request c')
      (fun failure c' => c'.Sound ∧ c.Keeps request c' ∧ c'.roots = c.roots ∧
        failure = .fault .outOfMemory ∧ ∃ length keep, request = .allocate length keep)
      (perform request c) := by
  cases request with
  | allocate length keep =>
    refine ((onHeap_spec (allocate_spec hs.heap hs.roots hm)).mono (fun _ _ => id)
      fun failure c' hf => ?_).bind fun r c' hr => ?_
    · obtain ⟨h', ⟨rfl, -, hc, -⟩, rfl⟩ := hf
      exact ⟨hs.collected hc, hs.keeps_of_collected hc fun _ _ => rfl, rfl, rfl, length, keep, rfl⟩
    · obtain ⟨h', ⟨g, hc, ha⟩, rfl⟩ := hr
      exact ⟨hs.allocated keep hc ha, hs.keeps_of_allocated keep hc ha, r, hs.not_leads hc ha,
        ha.holds_new, rfl⟩
  | drop index =>
    exact ⟨hs.withSomeRoots fun w hw => List.mem_of_mem_eraseIdx hw,
      hs.keeps_of_heap_eq fun _ _ => rfl, rfl⟩
  | duplicate index =>
    refine ⟨hs.withSomeRoots fun w hw => ?_, hs.keeps_of_heap_eq fun _ _ => rfl, rfl⟩
    rcases List.mem_append.1 hw with hw | hw
    · exact hw
    · exact List.mem_of_getElem? (Option.mem_toList.1 hw)
  | read r offset =>
    obtain ⟨hr, ho⟩ := hm
    have hreach := hs.leads_iff.1 hr
    have hheld := hs.holds hreach
    obtain ⟨w, hw, hvalid⟩ := hs.heap.exists_word hheld.header rfl ho
    refine ((onHeap_spec (field_spec hheld.header ho hw)).mono (fun _ _ => id)
      fun _ _ ⟨_, hf, _⟩ => hf.elim).bind fun v c' hv => ?_
    obtain ⟨h', ⟨rfl, rfl⟩, rfl⟩ := hv
    refine ⟨hs.withRoots (fun u hu => ?_) fun u hu t ht => ?_,
      hs.keeps_of_heap_eq fun _ _ => rfl, v, (hheld.words offset ho).symm.trans hw, rfl⟩
    · rcases List.mem_append.1 hu with hu | hu
      · exact hs.roots u hu
      · rwa [List.mem_singleton.1 hu]
    · rcases List.mem_append.1 hu with hu | hu
      · exact .root hu ht
      · rw [List.mem_singleton.1 hu] at ht
        exact .child hreach hheld.header rfl ho hw ht
  | write r offset value =>
    obtain ⟨hr, ho, hv, hvalue⟩ := hm
    have hheld := hs.holds (hs.leads_iff.1 hr)
    have hp := hs.heap.orderly.partitioned
    refine ((onHeap_spec (setField_spec value hp hheld.header ho)).mono (fun _ _ => id)
      fun _ _ ⟨_, hf, _⟩ => hf.elim).bind fun _ c' hrep => ?_
    obtain ⟨h', hrep, rfl⟩ := hrep
    exact ⟨hs.replaced hr ho hv hvalue hrep, hs.keeps_of_replaced hr ho hv hrep, rfl⟩
  | collect =>
    refine (onHeap_spec (collect_spec hs.heap hs.roots)).mono (fun _ c' hc => ?_)
      fun _ _ ⟨_, hf, _⟩ => hf.elim
    obtain ⟨h', hc, rfl⟩ := hc
    exact ⟨hs.collected hc, hs.keeps_of_collected hc fun _ _ => rfl, rfl⟩

theorem Sound.after (hs : c.Sound) (hm : c.May request) : (c.after request).Sound := by
  have hspec := perform_spec hs hm
  simp only [Client.after]
  split
  · next heq => exact (hspec.of_ok heq).1
  · next heq => exact (hspec.of_error heq).1

theorem Reachable.sound {h : Heap} (hr : Reachable h c) (hh : h.Sound) : c.Sound := by
  induction hr with
  | start =>
    exact ⟨hh, by simp, fun hr => absurd hr not_reaches_nil⟩
  | step _ hm ih => exact ih.after hm

/-! ## What the client finds -/

theorem Sound.inOrder (hs : c.Sound) : c.InOrder := by
  have ho := hs.heap.orderly
  obtain ⟨blocks, hblocks, hmem, -⟩ := ho.partitioned.blocks_eq
  have hmem : ∀ b, b ∈ c.heap.blocks.1 ↔ c.heap.BlockAt b.index b.header := by
    rw [hblocks]
    exact hmem
  refine
    { check := ho.check_eq_ok
      blocks := fun b hb => ho.states ((hmem b).1 hb)
      freeList := ?_
      stored := fun r hr => ?_ }
  · obtain ⟨entries, ht, hall⟩ := ho.threaded
    refine ⟨entries, ht.links, ht.nodup, fun r => ⟨fun hr => ?_, ?_⟩⟩
    · obtain ⟨header, hb, hisFree, hpos⟩ := ht.free r hr
      exact ⟨⟨r.headerIndex, header⟩, (hmem _).2 hb,
        Ref.ofHeader_headerIndex (ht.ne_null hr), (Header.isFree_iff.1 hisFree).1, hpos⟩
    · rintro ⟨b, hb, rfl, hfree, hpos⟩
      exact hall ((hmem b).1 hb) hfree hpos
  · have hheld := hs.holds (hs.leads_iff.1 hr)
    have hn := (headerOf_eq_ok.1 hheld.header).1
    exact ⟨⟨r.headerIndex, _⟩, (hmem _).2 hheld.blockAt, Ref.ofHeader_headerIndex hn, rfl,
      hheld.dataOf_eq ho.partitioned⟩

/-- However a client uses a heap, as long as it only asks for what it may ask for, it finds the heap
in order with what it has stored. No block that it could get at is handed out again or written by
any other request than a write to it, and no request fails but an allocation, out of memory. -/
theorem in_order_of_reachable (hc : 2 ≤ capacity) : ∃ h, Heap.new capacity = .ok h ∧
    ∀ c, Reachable h c → c.InOrder ∧ ∀ request, c.May request →
      Outcome (fun _ c' => c.Keeps request c' ∧ c.Granted request c')
        (fun failure c' => c.Keeps request c' ∧ c'.roots = c.roots ∧
          failure = .fault .outOfMemory ∧ ∃ length keep, request = .allocate length keep)
        (perform request c) := by
  obtain ⟨h, hnew, hh, -⟩ := new_sound hc
  refine ⟨h, hnew, fun c hr => ?_⟩
  have hs := hr.sound hh
  exact ⟨hs.inOrder, fun request hm =>
    (perform_spec hs hm).mono (fun _ _ hreturns => hreturns.2) fun _ _ hfails => hfails.2⟩

/-- A block that leads to itself, in a heap that has no room for a longer one. -/
theorem in_order_of_cyclic_block : ∃ h c, Heap.new 8 = .ok h ∧ Reachable h c ∧ c.InOrder ∧
    c.stored ⟨1⟩ = [.zero, .ref ⟨1⟩] ∧
    ∃ c', perform (.allocate 5 true) c = .error (.fault .outOfMemory) c' := by
  obtain ⟨h, hnew, hc⟩ := in_order_of_reachable (show 2 ≤ 8 by decide)
  have hfirst : Reachable h (after ⟨h, [], fun _ => []⟩ (.allocate 2 true)) :=
    .step .start (show 1 ≤ 2 by decide)
  have hroot : (after ⟨h, [], fun _ => []⟩ (.allocate 2 true)).roots = [.ref ⟨1⟩] := by
    cases hnew
    decide +kernel
  have hstored : (after ⟨h, [], fun _ => []⟩ (.allocate 2 true)).stored ⟨1⟩ = [.zero, .zero] := by
    cases hnew
    decide +kernel
  have hleads : (after ⟨h, [], fun _ => []⟩ (.allocate 2 true)).Leads ⟨1⟩ :=
    .root (hroot ▸ List.mem_singleton_self _) rfl
  have hsecond := hfirst.step (show May _ (.write ⟨1⟩ 1 (.ref ⟨1⟩)) from
    ⟨hleads, by rw [hstored]; decide, rfl, fun s hs => by cases hs; exact hleads⟩)
  refine ⟨h, _, hnew, hsecond, (hc _ hsecond).1, ?_, ?_⟩
  · cases hnew
    decide +kernel
  · have hfails : (match perform (.allocate 5 true) (after
        (after ⟨h, [], fun _ => []⟩ (.allocate 2 true)) (.write ⟨1⟩ 1 (.ref ⟨1⟩))) with
        | .ok _ _ => false
        | .error _ _ => true) = true := by
      cases hnew
      decide +kernel
    split at hfails
    · cases hfails
    · next failure c' hfail =>
      have hmay : May (after (after ⟨h, [], fun _ => []⟩ (.allocate 2 true))
        (.write ⟨1⟩ 1 (.ref ⟨1⟩))) (.allocate 5 true) := show 1 ≤ 5 by decide
      obtain ⟨-, -, hmemory, -⟩ := ((hc _ hsecond).2 _ hmay).of_error hfail
      exact ⟨c', hmemory ▸ hfail⟩

end Client

end ConsMachine.Heap
