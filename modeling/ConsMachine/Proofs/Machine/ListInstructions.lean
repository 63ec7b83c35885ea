import ConsMachine.Proofs.Machine.Instructions
import ConsMachine.Proofs.Machine.Realization

/-!
# Instructions on lists

Every instruction realizes its effect on lists. Loads and stores have to keep to the words that are
left when the operands have been taken off, and tail calls and returns drop no fewer than zero words.

## Main definitions

* `Machine.Computes` — an operation on 64-bit integers is one on integers that is wrapped around.
-/

namespace ConsMachine.Machine

variable {limit : Nat} {m : Machine} {expected : Option Configuration} {α β : Type} {w : Word}

/-! ## Arithmetic and comparisons -/

/-- Integers of 64 bits are computed with as `g` computes in full, up to the wrapping around. -/
def Computes (f : Int64 → Int64 → Except Fault Int64) (g : Int → Int → Option Int) : Prop :=
  ∀ l r, (f l r).toOption = (g l.toInt r.toInt).map Int64.ofInt

theorem computes_add : Computes (fun l r => .ok (l + r)) fun l r => some (l + r) := fun l r => by
  simp [Except.toOption, Int64.ofInt_add]

theorem computes_sub : Computes (fun l r => .ok (l - r)) fun l r => some (l - r) := fun l r => by
  simp [Except.toOption, Int64.ofInt_sub]

theorem computes_mul : Computes (fun l r => .ok (l * r)) fun l r => some (l * r) := fun l r => by
  simp [Except.toOption, Int64.ofInt_mul]

theorem computes_quotient :
    Computes quotient fun l r => if r = 0 then none else some (l.tdiv r) := fun l r => by
  have hdiv : Int64.ofInt (l.toInt.tdiv r.toInt) = l / r := by
    rw [← Int64.toInt_inj, Int64.toInt_div, Int64.toInt_ofInt]
  simp only [quotient, ← Int64.toInt_inj, Int64.toInt_zero]
  split
  · rfl
  · exact congrArg some hdiv.symm

theorem computes_remainder :
    Computes remainder fun l r => if r = 0 then none else some (l.tmod r) := fun l r => by
  have hmod : Int64.ofInt (l.toInt.tmod r.toInt) = l % r := by
    rw [← Int64.toInt_mod, Int64.ofInt_toInt]
  simp only [remainder, ← Int64.toInt_inj, Int64.toInt_zero]
  split
  · rfl
  · exact congrArg some hmod.symm

theorem computes_lt :
    Computes (fun l r => .ok (truth (l < r))) fun l r => some (if l < r then 1 else 0) :=
  fun l r => by
    simp only [truth, decide_eq_true_eq, Int64.lt_iff_toInt_lt]
    split <;> rfl

theorem isZero_eq : w.isZero = decide w.IsFalse := by
  cases w with
  | int value =>
    simp only [Word.isZero, Word.IsFalse, Word.null, Word.int.injEq, reduceCtorEq, or_false]
    rfl
  | ref target =>
    simp only [Word.isZero, Word.IsFalse, Word.null, Word.ref.injEq, reduceCtorEq, false_or,
      ← Ref.isNull_iff, Bool.decide_eq_true]
  | header header => simp [Word.isZero, Word.IsFalse, Word.null]

theorem truth_eq {p : Prop} [Decidable p] : Configuration.truth p = .int (truth p) := by
  by_cases hp : p <;> simp [Configuration.truth, truth, hp]

theorem realizes_arithmetic {operation : Opcode} {f : Int64 → Int64 → Except Fault Int64}
    {g : Int → Int → Option Int} (hf : Computes f g) (hm : m.stack.Fits limit) :
    Realizes limit (m.configuration.withStack (Configuration.arithmetic g m.stack.content))
      (arithmetic operation f m) := by
  refine realizes_popInteger_bind hm (fun hother => ?_) fun right s hright hs => ?_
  · unfold Configuration.arithmetic
    split
    · next h => exact absurd h (hother _ _)
    · rfl
  rw [hright]
  refine realizes_popInteger_bind hs (fun hother => ?_) fun left t hleft ht => ?_
  · unfold Configuration.arithmetic
    split
    · next h => exact absurd (List.cons.inj h).2 (hother _ _)
    · rfl
  rw [hleft, Configuration.arithmetic]
  have hfg := hf left right
  refine realizes_require_bind (fun hno => ?_) fun value hv => ?_
  · cases hv : f left right with
    | ok value => exact absurd hv (hno value)
    | error fault =>
      rw [hv] at hfg
      rw [Option.map_eq_none_iff.1 hfg.symm]
      rfl
  · rw [hv] at hfg
    obtain ⟨exact, hexact, rfl⟩ := Option.map_eq_some_iff.1 hfg.symm
    rw [hexact]
    exact realizes_push ht

theorem realizes_equal (hm : m.stack.Fits limit) :
    Realizes limit (m.configuration.withStack (Configuration.equal m.stack.content)) (equal m) := by
  refine realizes_pop_bind hm (fun hnil => by rw [hnil]; rfl) fun right s hright hs => ?_
  rw [hright]
  refine realizes_pop_bind hs (fun hnil => by rw [hnil]; rfl) fun left t hleft ht => ?_
  rw [hleft]
  rw [Configuration.equal, truth_eq]
  exact realizes_push ht

theorem realizes_negation (hm : m.stack.Fits limit) :
    Realizes limit (m.configuration.withStack (Configuration.negation m.stack.content))
      (negation m) := by
  refine realizes_pop_bind hm (fun hnil => by rw [hnil]; rfl) fun word s hword hs => ?_
  rw [hword, Configuration.negation, truth_eq, isZero_eq]
  exact realizes_push hs

/-! ## The stack -/

theorem realizes_duplicate (hm : m.stack.Fits limit) :
    Realizes limit (m.configuration.withStack (Configuration.duplicate m.stack.content))
      (duplicate m) := by
  rw [duplicate_eq]
  refine realizes_get_bind 0 hm (by simp [Stack.top]) (fun hlen => ?_) fun w hw => ?_
  · rw [List.eq_nil_of_length_eq_zero (Nat.le_zero.1 hlen)]
    rfl
  · obtain ⟨rest, hrest⟩ := List.head?_eq_some_iff.1 (List.head?_eq_getElem? ▸ hw)
    have hpush := realizes_push (w := w) hm
    rw [hrest] at hpush ⊢
    exact hpush

theorem eq_cons_cons {upper lower : Word} {stack : List Word} (hupper : stack[0]? = some upper)
    (hlower : stack[1]? = some lower) : ∃ rest, stack = upper :: lower :: rest := by
  rcases stack with _ | ⟨_, _ | ⟨_, rest⟩⟩
  · cases hupper
  · cases hlower
  · cases hupper
    cases hlower
    exact ⟨rest, rfl⟩

theorem realizes_swap (hm : m.stack.Fits limit) :
    Realizes limit (m.configuration.withStack (Configuration.swap m.stack.content)) (swap m) := by
  have hlen := hm.length_content
  rw [swap_eq]
  refine realizes_get_bind 0 hm (by simp [Stack.top]) (fun hshort => ?_) fun upper hupper => ?_
  · rcases hc : m.stack.content with _ | ⟨_, _⟩
    · rfl
    · simp [hc] at hshort
  refine realizes_get_bind 1 hm rfl (fun hshort => ?_) fun lower hlower => ?_
  · rcases hc : m.stack.content with _ | ⟨_, _ | ⟨_, _⟩⟩
    · rfl
    · rfl
    · simp [hc] at hshort
  obtain ⟨rest, hc⟩ := eq_cons_cons hupper hlower
  have htwo : m.stack.height - 2 + [upper, lower].length = m.stack.height := by
    rw [hc] at hlen
    simp only [List.length_cons, List.length_nil] at hlen ⊢
    omega
  refine realizes_onStack hm.store ?_
  rw [hm.content_store_top htwo, hc]
  rfl

/-- A load below the top. -/
theorem realizes_loadIndirect (hm : m.stack.Fits limit)
    (hkeep : ∀ index rest, m.stack.content = .int index :: rest → index.toInt < rest.length) :
    Realizes limit (m.configuration.withStack (Configuration.load m.stack.content))
      (loadIndirect m) := by
  rw [loadIndirect_eq]
  refine realizes_popInteger_bind hm (fun hother => ?_) fun index s hindex hs => ?_
  · unfold Configuration.load
    split
    · next h => exact absurd h (hother _ _)
    · rfl
  have hlt := hkeep index s.content hindex
  rw [hs.length_content] at hlt
  rw [hindex, Configuration.load]
  by_cases hnonneg : 0 ≤ index.toInt
  · obtain ⟨slot, hslot⟩ := Int.eq_ofNat_of_zero_le hnonneg
    have hin : slot < s.content.reverse.length := by
      rw [List.length_reverse, hs.length_content]
      omega
    have hword := List.getElem?_eq_getElem hin
    rw [if_pos hnonneg, hslot, Int.toNat_natCast, hword]
    have hread : (do let slot ← s.slotOf index; s.get slot) = .ok s.content.reverse[slot] := by
      rw [(hs.slotOf_eq_ok hlt).2 hslot.symm]
      exact (hs.get_eq_ok_of_lt (by omega)).2 hword
    rw [bind_of_ok (ofStack_ok hread)]
    exact realizes_push hs
  · rw [if_neg hnonneg]
    refine realizes_ofStack_bind (fun _ => excluded_none) fun w hw => ?_
    cases hslot : s.slotOf index with
    | ok slot =>
      have := (hs.slotOf_eq_ok hlt).1 hslot
      omega
    | error fault =>
      rw [hslot] at hw
      cases hw

/-- A store below the top. -/
theorem realizes_storeIndirect (hm : m.stack.Fits limit)
    (hkeep : ∀ w index rest, m.stack.content = w :: .int index :: rest →
      index.toInt < rest.length) :
    Realizes limit (m.configuration.withStack (Configuration.store m.stack.content))
      (storeIndirect m) := by
  rw [storeIndirect_eq]
  refine realizes_pop_bind hm (fun hnil => by rw [hnil]; rfl) fun w s hw hs => ?_
  rw [hw]
  refine realizes_popInteger_bind hs (fun hother => ?_) fun index t hindex ht => ?_
  · unfold Configuration.store
    split
    · next h => exact absurd (List.cons.inj h).2 (hother _ _)
    · rfl
  have hlt := hkeep w index t.content (by rw [hw, hindex])
  rw [hindex, Configuration.store]
  refine realizes_ofStack_bind (fun hno => ?_) fun slot hslot => ?_
  · have hneg : ¬ 0 ≤ index.toInt := fun hnonneg => by
      rw [ht.length_content] at hlt
      exact hno index.toInt.toNat ((ht.slotOf_eq_ok hlt).2 (Int.toNat_of_nonneg hnonneg))
    rw [if_neg (fun h => hneg h.1)]
    exact excluded_none
  · rw [ht.length_content] at hlt
    have hslot := (ht.slotOf_eq_ok hlt).1 hslot
    rw [if_pos (by rw [ht.length_content]; omega), ← hslot, Int.toNat_natCast,
      ← ht.content_store_live (by omega)]
    exact realizes_push (m := { m with stack := t.store slot [w] }) ht.store

theorem realizes_reserve (hlimit : limit ≤ 2 ^ 63) (shift : Int64) (hm : m.stack.Fits limit) :
    Realizes limit (m.configuration.withStack (Configuration.reserve shift m.stack.content))
      (reserve shift m) := by
  have hlen := hm.length_content
  have hpointer := hm.pointer_eq
  rw [reserve_eq hm.bounded]
  unfold Configuration.reserve
  refine realizes_moved_bind hlimit hm rfl (fun hout => ?_) fun target htarget hge hlt => ?_
  · split
    · rintro c ⟨⟩
      simp only [List.length_append, List.length_replicate]
      omega
    · have hheight := hm.height
      rw [if_neg (by omega)]
      exact excluded_none
  have hcount : (target - m.stack.pointer).toNat = shift.toInt.toNat := by omega
  split
  · next hnonneg =>
    have hwords : (List.replicate shift.toInt.toNat Word.zero).length = shift.toInt.toNat :=
      List.length_replicate
    have htop : target + 1 = m.stack.height +
        (List.replicate shift.toInt.toNat Word.zero).length := by omega
    refine realizes_onStack ?_ ?_
    · rw [hcount]
      exact hm.replaced htop (by omega)
    · rw [hcount, hm.content_replaced (Nat.le_refl _) htop (by omega), List.reverse_replicate,
        Nat.sub_self]
      rfl
  · next hneg =>
    have hnone : shift.toInt.toNat = 0 := by omega
    rw [if_pos (by omega)]
    refine realizes_onStack ?_ ?_
    · rw [hcount, hnone]
      exact hm.lowered hge (by omega)
    · have hlowered := hm.content_lowered hge (by omega)
      rw [show m.stack.height - (target + 1).toNat = (-shift.toInt).toNat by omega] at hlowered
      rw [hcount, hnone, ← hlowered]
      rfl

/-! ## Control -/

theorem realizes_goto (address : Int64) (hm : m.stack.Fits limit) :
    Realizes limit (m.configuration.goto address) (goto address m) := by
  unfold Configuration.goto
  refine realizes_codeAddress_bind (fun hnone => by rw [hnone]; rfl) fun pc hpc => ?_
  rw [hpc]
  exact realizes_ok hm rfl

theorem realizes_branch (zero : Bool) (address : Int64) (hm : m.stack.Fits limit) :
    Realizes limit (m.configuration.branch zero address) (branch zero address m) := by
  unfold Configuration.branch
  rw [configuration_stack]
  refine realizes_pop_bind hm (fun hnil => by rw [hnil]) fun w s hw hs => ?_
  rw [hw, isZero_eq]
  by_cases hzero : zero = decide w.IsFalse
  · rw [if_pos (beq_iff_eq.2 hzero.symm)]
    simp only [if_pos hzero]
    exact realizes_goto address hs
  · rw [if_neg (fun h => hzero (beq_iff_eq.1 h).symm)]
    simp only [if_neg hzero]
    exact realizes_ok hs rfl

theorem realizes_call (hlimit : limit ≤ 2 ^ 63) (count address : Int64) (hm : m.stack.Fits limit) :
    Realizes limit (m.configuration.call count address) (call count address m.pc m) := by
  have hlen := hm.length_content
  have hpointer := hm.pointer_eq
  rw [call_eq]
  unfold Configuration.call
  rw [configuration_stack, hlen]
  refine realizes_argumentCount_bind hm (fun hout => if_neg hout) fun n hn hle => ?_
  rw [if_pos (by omega), ← hn, Int.toNat_natCast]
  refine realizes_moved_bind hlimit hm (show (2 : Int64).toInt = 2 from rfl) (fun hout => ?_)
    fun target htarget hge hlt => ?_
  · intro c hc
    obtain ⟨pc, -, rfl⟩ := Option.map_eq_some_iff.1 hc
    simp only [List.length_append, List.length_cons, List.length_take, List.length_drop, hlen]
    omega
  refine realizes_codeAddress_bind (fun hnone => by rw [hnone]; rfl) fun pc hpc => ?_
  rw [hpc]
  have hsaved : target = m.stack.pointer + [Word.int (.ofNat m.pc), .int m.bp].length := by
    simp only [List.length_cons, List.length_nil]
    omega
  obtain ⟨hfits, hcontent⟩ := hm.insert_spec hle hsaved hlt
  have hbase : target + 1 - n = m.stack.height - n + 2 := by omega
  refine realizes_ok hfits ?_
  simp only [hbase]
  exact Eq.symm (configuration_eq hcontent)

theorem realizes_tailCall (hlimit : limit ≤ 2 ^ 63) (count drop address : Int64)
    (hdrop : 0 ≤ drop.toInt) (hm : m.stack.Fits limit) :
    Realizes limit (m.configuration.tailCall count drop address)
      (tailCall count drop address m) := by
  have hlen := hm.length_content
  have hheight := hm.height
  have hpointer := hm.pointer_eq
  rw [tailCall_eq (hm.bounded.upper)]
  unfold Configuration.tailCall
  rw [configuration_stack, hlen]
  refine realizes_argumentCount_bind hm (fun hout => if_neg (by omega)) fun n hn hle => ?_
  refine realizes_moved_bind hlimit hm (Stack.toInt_negateClamped hdrop) (fun hout => ?_)
    fun target htarget hge hlt => ?_
  · rw [if_neg (by omega)]
    exact excluded_none
  refine realizes_codeAddress_bind (fun hnone => by rw [hnone]; split <;> rfl) fun pc hpc => ?_
  rw [hpc]
  by_cases hunder : target + 1 < n
  · rw [if_pos hunder, if_neg (by omega)]
    exact excluded_none
  · have hdropped : target = m.stack.pointer - drop.toInt.toNat := by omega
    have htaken : n + drop.toInt.toNat ≤ m.stack.height := by omega
    obtain ⟨hfits, hcontent⟩ := hm.remove_spec htaken hdropped
    rw [if_neg hunder, if_pos (by omega), ← hn,
      show (n + drop.toInt).toNat = n + drop.toInt.toNat by omega]
    exact realizes_ok hfits (Eq.symm (configuration_eq hcontent))

section

variable {c : Configuration} {locals : Int64} {n : Nat}

/-- There is a meaning only if the saved words are there. -/
theorem ret_eq_none (hcount : locals.toInt.toNat = n)
    (h : ∀ bp back, c.stack[n + 1]? = some (.int bp) → c.stack[n + 2]? = some (.int back) → False) :
    c.ret locals = none := by
  unfold Configuration.ret
  rw [hcount]
  split
  · next bp back rest _ hdrop =>
    refine (h bp back ?_ ?_).elim
    · rw [← Nat.add_zero (n + 1), ← List.getElem?_drop, hdrop]
      rfl
    · rw [← Nat.add_assoc n 1 1, ← List.getElem?_drop, hdrop]
      rfl
  · rfl

theorem ret_eq_of_saved {result : Word} {bp back : Int64} (hcount : locals.toInt.toNat = n)
    (hresult : c.stack[0]? = some result) (hbp : c.stack[n + 1]? = some (.int bp))
    (hback : c.stack[n + 2]? = some (.int back)) :
    c.ret locals = (Configuration.address back).map fun pc =>
      { c with stack := result :: c.stack.drop (n + 3), bp, pc } := by
  obtain ⟨hlt, hbp⟩ := List.getElem?_eq_some_iff.1 hbp
  obtain ⟨hlt', hback⟩ := List.getElem?_eq_some_iff.1 hback
  obtain ⟨rest, hrest⟩ := List.head?_eq_some_iff.1 (List.head?_eq_getElem? ▸ hresult)
  have hdrop : c.stack.drop (n + 1) = .int bp :: .int back :: c.stack.drop (n + 3) := by
    rw [List.drop_eq_getElem_cons hlt, hbp, List.drop_eq_getElem_cons hlt', hback]
  unfold Configuration.ret
  rw [hcount, hdrop, hrest]

end

theorem realizes_ret (hlimit : limit ≤ 2 ^ 63) (locals : Int64) (hlocals : 0 ≤ locals.toInt)
    (hm : m.stack.Fits limit) :
    Realizes limit (m.configuration.ret locals) (ret locals m) := by
  have hlen := hm.length_content
  have hheight := hm.height
  have hpointer := hm.pointer_eq
  rw [ret_eq]
  generalize hcount : locals.toInt.toNat = n
  have hother := ret_eq_none (c := m.configuration) hcount
  rw [configuration_stack] at hother
  refine realizes_get_bind 0 hm (by simp [Stack.top]) (fun hshort => hother ?_) fun result hres => ?_
  · intro bp back hbp
    rw [List.getElem?_eq_none (by omega)] at hbp
    cases hbp
  refine realizes_moved_bind hlimit hm (Stack.toInt_negateClamped hlocals) (fun hout => ?_)
    fun frame hframe hge hlt => ?_
  · have hnone : m.configuration.ret locals = none := hother fun bp back hbp _ => by
      have hbelow := (List.getElem?_eq_some_iff.1 hbp).1
      omega
    rw [hnone]
    exact excluded_none
  refine realizes_get_bind (n + 1) hm ?_ (fun hshort => hother ?_) fun saved hsaved => ?_
  · congr 1
    omega
  · intro bp back hbp
    rw [List.getElem?_eq_none hshort] at hbp
    cases hbp
  refine realizes_require_bind (fun hno => hother fun bp _ h _ =>
    hno bp (integer_eq_ok.2 (Option.some.inj (hsaved.symm.trans h)))) fun bp hbp => ?_
  obtain rfl := integer_eq_ok.1 hbp
  refine realizes_get_bind (n + 2) hm ?_ (fun hshort => hother ?_) fun saved' hsaved' => ?_
  · congr 1
    omega
  · intro _ back _ hback
    rw [List.getElem?_eq_none hshort] at hback
    cases hback
  refine realizes_require_bind (fun hno => hother fun _ back _ h =>
    hno back (integer_eq_ok.2 (Option.some.inj (hsaved'.symm.trans h)))) fun back hback => ?_
  obtain rfl := integer_eq_ok.1 hback
  have hret := ret_eq_of_saved (c := m.configuration) hcount hres hsaved hsaved'
  rw [hret]
  refine realizes_codeAddress_bind (fun hnone => by rw [hnone]; rfl) fun pc hpc => ?_
  rw [hpc]
  have hbelow : n + 2 < m.stack.height := hlen ▸ (List.getElem?_eq_some_iff.1 hsaved').1
  have htop : frame - 2 + 1 = (frame - 2).toNat + [result].length := by
    simp only [List.length_singleton]
    omega
  have hroom : (frame - 2).toNat + [result].length ≤ limit := by omega
  refine realizes_ok (hm.replaced htop hroom) (Eq.symm (configuration_eq ?_))
  rw [hm.content_replaced (by omega) htop hroom,
    show m.stack.height - (frame - 2).toNat = n + 3 by omega]
  rfl

/-! ## Input and output -/

theorem realizes_pushAll (values : List Int64) (hm : m.stack.Fits limit) :
    Realizes limit (some { m.configuration with
      stack := Configuration.withArguments values m.stack.content }) (pushAll values m) := by
  induction values generalizing m with
  | nil => exact realizes_ok hm rfl
  | cons value rest ih =>
    have hstep : Configuration.withArguments (value :: rest) m.stack.content =
        Configuration.withArguments rest (.int value :: m.stack.content) := by
      simp [Configuration.withArguments]
    rw [hstep]
    -- Where there is no room for one of the arguments there is none for all of them.
    refine ((realizes_push (w := .int value) hm).mono (fun _ _ => id) fun _ _ hfull => ?_).bind
      fun _ t ⟨ht, hpushed⟩ => ?_
    · rintro c ⟨⟩
      have hmore := hfull _ rfl
      simp only [Configuration.withArguments, List.length_append] at hmore ⊢
      omega
    · have hrest := ih ht
      rw [← configuration_stack (m := t), ← Option.some.inj hpushed] at hrest
      exact hrest

/-- What only looks at the word on top. -/
theorem realizes_top_bind {k : Word → Action α} (hm : m.stack.Fits limit)
    (hk : ∀ w, ∃ v, k w m = .ok v m) :
    Realizes limit m.configuration.print ((top >>= k) m) := by
  rw [top_eq]
  unfold Configuration.print
  rw [configuration_stack]
  refine realizes_get_bind 0 hm (by simp [Stack.top]) (fun hshort => ?_) fun w hw => ?_
  · rw [if_pos (List.eq_nil_of_length_eq_zero (Nat.le_zero.1 hshort))]
  · obtain ⟨v, hv⟩ := hk w
    rw [hv, if_neg (fun hnil => by rw [hnil] at hw; cases hw)]
    exact realizes_ok hm rfl

theorem realizes_stop (hm : m.stack.Fits limit) :
    Realizes limit (some m.configuration) (stop m) := by
  change Realizes limit _ ((if m.stack.pointer < 0 then _ else _ : Action Event) m)
  split
  · exact realizes_ok hm rfl
  · next hne =>
    rw [hm.pointer_eq] at hne
    have hprint := realizes_top_bind (k := fun w => pure (Event.stopped w)) hm fun w => ⟨_, rfl⟩
    have hnil : m.stack.content ≠ [] := fun hnil => hne (by rw [← hm.length_content, hnil]; decide)
    rwa [Configuration.print, configuration_stack, if_neg hnil] at hprint

/-! ## Cells -/

theorem onHeap_bind (action : Heap.Action α) (k : α → Heap.Action β) :
    onHeap (action >>= k) = onHeap action >>= fun v => onHeap (k v) := by
  funext m
  obtain ⟨code, arguments, stack, heap, pc, bp, executed⟩ := m
  cases hr : action heap with
  | ok v h =>
    rw [bind_of_ok (t := ⟨code, arguments, stack, h, pc, bp, executed⟩) (by rw [onHeap, hr])]
    simp only [onHeap, bind_of_ok hr]
  | error e h =>
    rw [bind_of_error (t := ⟨code, arguments, stack, h, pc, bp, executed⟩) (by rw [onHeap, hr])]
    simp only [onHeap, bind_of_error hr]

theorem onHeap_newCell_bind (roots : List Word) (car cdr : Word) (k : Ref → Action β) :
    onHeap (Configuration.newCell roots car cdr) >>= k = (do
      let cell ← onHeap (Heap.allocate .cons 2 roots)
      onHeap (Heap.setField cell CellPart.car.offset car)
      onHeap (Heap.setField cell CellPart.cdr.offset cdr)
      k cell) := by
  simp only [Configuration.newCell, onHeap_bind, bind_assoc]
  rfl

theorem realizes_withHeap_bind {action : Heap.Action α} {k : α → Action β} {s : Stack}
    {stack : α → List Word}
    (hok : ∀ v h, Realizes limit (some { m.configuration with stack := stack v, heap := h })
      (k v { m with stack := s, heap := h })) :
    Realizes limit (m.configuration.withHeap action stack)
      ((onHeap action >>= k) { m with stack := s }) := by
  have hheap : m.configuration.heap = m.heap := rfl
  unfold Configuration.withHeap
  rw [hheap]
  refine realizes_onHeap_bind (fun hno => ?_) fun v h ha => ?_
  · split
    · next v h ha => exact absurd ha (hno v h)
    · rfl
  · rw [ha]
    exact hok v h

theorem realizes_take (operation : Opcode) (part : CellPart) (hm : m.stack.Fits limit) :
    Realizes limit (m.configuration.take part.offset) (take operation part m) := by
  unfold Configuration.take
  rw [configuration_stack]
  refine realizes_popCell_bind hm (fun hother => ?_) fun cell s hcell hne hs => ?_
  · split
    · next h => rw [if_pos (hother _ _ h)]
    · rfl
  rw [hcell]
  simp only [if_neg hne]
  exact realizes_withHeap_bind fun w h => realizes_push (m := { m with stack := s, heap := h }) hs

theorem realizes_set (operation : Opcode) (part : CellPart) (hm : m.stack.Fits limit) :
    Realizes limit (m.configuration.set part.offset) (set operation part m) := by
  unfold Configuration.set
  rw [configuration_stack]
  refine realizes_pop_bind hm (fun hnil => by rw [hnil]) fun value s hvalue hs => ?_
  rw [hvalue]
  refine realizes_popCell_bind hs (fun hother => ?_) fun cell t hcell hne ht => ?_
  · split
    · next h => rw [if_pos (hother _ _ (List.cons.inj h).2)]
    · rfl
  rw [hcell]
  simp only [if_neg hne]
  exact realizes_withHeap_bind fun _ h => realizes_push (m := { m with stack := t, heap := h }) ht

theorem realizes_cons (hm : m.stack.Fits limit) :
    Realizes limit m.configuration.cons (cons m) := by
  have hlen := hm.length_content
  rw [cons_eq]
  unfold Configuration.cons
  rw [configuration_stack]
  refine realizes_get_bind 1 hm rfl (fun hshort => ?_) fun car hcar => ?_
  · rcases hc : m.stack.content with _ | ⟨_, _ | ⟨_, _⟩⟩
    · rfl
    · rfl
    · simp [hc] at hshort
  refine realizes_get_bind 0 hm (by simp [Stack.top]) (fun hshort => ?_) fun cdr hcdr => ?_
  · rcases hc : m.stack.content with _ | ⟨_, _⟩
    · rfl
    · simp [hc] at hshort
  obtain ⟨rest, hc⟩ := eq_cons_cons hcdr hcar
  have hroots : m.stack.live = (cdr :: car :: rest).reverse := by
    rw [← hc, Stack.content, List.reverse_reverse]
  rw [hc]
  change Realizes limit _ ((do
    let cell ← onHeap (Heap.allocate .cons 2 m.stack.live)
    onHeap (Heap.setField cell CellPart.car.offset car)
    onHeap (Heap.setField cell CellPart.cdr.offset cdr)
    onStack fun _ => (m.stack.store (m.stack.height - 2) [.ref cell]).drop) m)
  rw [hroots, ← onHeap_newCell_bind]
  refine realizes_withHeap_bind (s := m.stack) fun cell h => ?_
  have htwo : 2 ≤ m.stack.height := by
    rw [← hlen, hc]
    simp
  obtain ⟨hfits, hcontent⟩ := hm.merge_spec (w := .ref cell) htwo
  rw [hc] at hcontent
  exact realizes_ok hfits (Eq.symm (configuration_eq hcontent))

/-! ## All instructions -/

theorem realizes_silently {action : Action Unit} (ha : Realizes limit expected (action m)) :
    Realizes limit expected (silently action m) :=
  Outcome.bind ha fun _ _ hm => hm

theorem realizes_execute {i : Instruction} (hlimit : limit ≤ 2 ^ 63) (hwf : i.WellFormed)
    (hm : m.stack.Fits limit) (hkeep : i.keepsToLive m.stack.content = true) :
    Realizes limit (i.effect m.arguments m.configuration) (execute i m.pc m) := by
  obtain ⟨opcode, operands⟩ := i
  change operands.length = _ at hwf
  cases opcode with
  | csti =>
    obtain ⟨k, rfl⟩ := List.length_eq_one_iff.1 hwf
    exact realizes_silently (realizes_push hm)
  | add =>
    obtain rfl := List.length_eq_zero_iff.1 hwf
    exact realizes_silently (realizes_arithmetic computes_add hm)
  | sub =>
    obtain rfl := List.length_eq_zero_iff.1 hwf
    exact realizes_silently (realizes_arithmetic computes_sub hm)
  | mul =>
    obtain rfl := List.length_eq_zero_iff.1 hwf
    exact realizes_silently (realizes_arithmetic computes_mul hm)
  | div =>
    obtain rfl := List.length_eq_zero_iff.1 hwf
    exact realizes_silently (realizes_arithmetic computes_quotient hm)
  | mod =>
    obtain rfl := List.length_eq_zero_iff.1 hwf
    exact realizes_silently (realizes_arithmetic computes_remainder hm)
  | eq =>
    obtain rfl := List.length_eq_zero_iff.1 hwf
    exact realizes_silently (realizes_equal hm)
  | lt =>
    obtain rfl := List.length_eq_zero_iff.1 hwf
    exact realizes_silently (realizes_arithmetic computes_lt hm)
  | not =>
    obtain rfl := List.length_eq_zero_iff.1 hwf
    exact realizes_silently (realizes_negation hm)
  | dup =>
    obtain rfl := List.length_eq_zero_iff.1 hwf
    exact realizes_silently (realizes_duplicate hm)
  | swap =>
    obtain rfl := List.length_eq_zero_iff.1 hwf
    exact realizes_silently (realizes_swap hm)
  | ldi =>
    obtain rfl := List.length_eq_zero_iff.1 hwf
    refine realizes_silently (realizes_loadIndirect hm fun index rest hrest => ?_)
    rw [hrest] at hkeep
    exact of_decide_eq_true hkeep
  | sti =>
    obtain rfl := List.length_eq_zero_iff.1 hwf
    refine realizes_silently (realizes_storeIndirect hm fun w index rest hrest => ?_)
    rw [hrest] at hkeep
    exact of_decide_eq_true hkeep
  | getbp =>
    obtain rfl := List.length_eq_zero_iff.1 hwf
    exact realizes_silently (realizes_push hm)
  | getsp =>
    obtain rfl := List.length_eq_zero_iff.1 hwf
    have htop : (m.stack.content.length : Int) - 1 = m.stack.pointer := by
      rw [hm.length_content, hm.pointer_eq]
    refine realizes_silently ?_
    change Realizes limit (some { m.configuration with
      stack := .int (.ofInt (m.stack.content.length - 1)) :: m.stack.content })
      (push (.int (.ofInt m.stack.pointer)) m)
    rw [htop]
    exact realizes_push hm
  | incsp =>
    obtain ⟨shift, rfl⟩ := List.length_eq_one_iff.1 hwf
    exact realizes_silently (realizes_reserve hlimit shift hm)
  | goto =>
    obtain ⟨address, rfl⟩ := List.length_eq_one_iff.1 hwf
    exact realizes_silently (realizes_goto address hm)
  | ifzero =>
    obtain ⟨address, rfl⟩ := List.length_eq_one_iff.1 hwf
    exact realizes_silently (realizes_branch true address hm)
  | ifnzro =>
    obtain ⟨address, rfl⟩ := List.length_eq_one_iff.1 hwf
    exact realizes_silently (realizes_branch false address hm)
  | call =>
    obtain ⟨count, address, rfl⟩ := List.length_eq_two.1 hwf
    exact realizes_silently (realizes_call hlimit count address hm)
  | tcall =>
    obtain ⟨count, drop, address, rfl⟩ := List.length_eq_three.1 hwf
    exact realizes_silently
      (realizes_tailCall hlimit count drop address (of_decide_eq_true hkeep) hm)
  | ret =>
    obtain ⟨locals, rfl⟩ := List.length_eq_one_iff.1 hwf
    exact realizes_silently (realizes_ret hlimit locals (of_decide_eq_true hkeep) hm)
  | printi =>
    obtain rfl := List.length_eq_zero_iff.1 hwf
    exact realizes_top_bind hm fun w => ⟨_, rfl⟩
  | printc =>
    obtain rfl := List.length_eq_zero_iff.1 hwf
    exact realizes_top_bind hm fun w => by cases w <;> exact ⟨_, rfl⟩
  | ldargs =>
    obtain rfl := List.length_eq_zero_iff.1 hwf
    exact realizes_silently (realizes_pushAll m.arguments hm)
  | stop =>
    obtain rfl := List.length_eq_zero_iff.1 hwf
    exact realizes_stop hm
  | nil =>
    obtain rfl := List.length_eq_zero_iff.1 hwf
    exact realizes_silently (realizes_push hm)
  | cons =>
    obtain rfl := List.length_eq_zero_iff.1 hwf
    exact realizes_silently (realizes_cons hm)
  | car =>
    obtain rfl := List.length_eq_zero_iff.1 hwf
    exact realizes_silently (realizes_take .car .car hm)
  | cdr =>
    obtain rfl := List.length_eq_zero_iff.1 hwf
    exact realizes_silently (realizes_take .cdr .cdr hm)
  | setcar =>
    obtain rfl := List.length_eq_zero_iff.1 hwf
    exact realizes_silently (realizes_set .setcar .car hm)
  | setcdr =>
    obtain rfl := List.length_eq_zero_iff.1 hwf
    exact realizes_silently (realizes_set .setcdr .cdr hm)

end ConsMachine.Machine
