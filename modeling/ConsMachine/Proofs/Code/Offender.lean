import ConsMachine.Proofs.Code.Grammar
import Mathlib.Data.List.DropRight

/-!
# What a rejected listing is reported for

The report of a text that is no listing names a token of the text, up to the next blank, with its
line. The reader gives up at the end of the longest row of integers, which need not be the end of a
token: if a minus sign follows a digit directly, then what is named is the rest of a token, and this
may be an integer. Blanks other than separators end the row as well, but they are skipped before
the token that is named: this may be an integer again, or there may be none left. Apart from these
two, what is named is no integer.

## Main definitions

* `Listing.Acceptable` — the token of an integer.
* `Listing.Located` — where in a text a token is, and in which line.
* `Listing.Stopped` — why reading does not go on.
-/

namespace ConsMachine.Listing

open Text

/-- The token of a 64-bit integer. -/
def Acceptable (token : List Char) : Prop := ∃ value : Int64, Numeral token value.toInt

/-- The token is in the text after the characters `before`, it has no blank in it and a blank after
it, and its line is counted by the line ends before it. -/
structure Located (text : List Char) (line : Nat) (token before after : List Char) : Prop where
  text_eq : text = before ++ (token ++ after)
  line_eq : line = before.count '\n' + 1
  unbroken : ∀ c ∈ token, isBlank c = false
  ended : ∀ c ∈ after.head?, isBlank c = true

/-- The blanks are separators, all of them. -/
def BlanksSeparate (cs : List Char) : Prop := ∀ c ∈ cs, isBlank c = true → isSeparator c = true

instance (cs : List Char) : Decidable (BlanksSeparate cs) := List.decidableBAll _ cs

/-- A digit is what the text ends with. -/
def EndsInDigit (cs : List Char) : Prop := ∃ c ∈ cs.getLast?, c.isDigit = true

/-- Reading has stopped between `before` and `rest`. Either no integer follows, after separators or
without, or something follows the digits of an integer that is no separator. -/
inductive Stopped (before rest : List Char) : Prop
  | atToken (hnone : integer? (rest.dropWhile isSeparator) = none)
  | inToken (hdigit : EndsInDigit before) (hrest : rest.dropWhile isSeparator = rest)
    (hnext : NoDigitFirst rest)

variable {text before after rest cs token : List Char} {value : Int64} {n : Int}

/-! ## Characters -/

theorem isDigit_eq_false_of_isBlank {c : Char} (hc : isBlank c = true) : c.isDigit = false := by
  rw [Bool.eq_false_iff]
  intro hd
  simp only [isBlank, blankRanges, List.any_cons, List.any_nil, Bool.or_false, Bool.or_eq_true,
    Bool.and_eq_true, decide_eq_true_eq] at hc
  simp only [Char.isDigit, Bool.and_eq_true, decide_eq_true_eq, ge_iff_le,
    UInt32.le_iff_toNat_le] at hd
  change 48 ≤ c.toNat ∧ c.toNat ≤ 57 at hd
  omega

theorem EndsInDigit.append (hd : EndsInDigit token) : EndsInDigit (before ++ token) := by
  obtain ⟨c, hc, hdigit⟩ := hd
  refine ⟨c, ?_, hdigit⟩
  rw [Option.mem_def] at hc ⊢
  rw [List.getLast?_append, hc]
  rfl

theorem Numeral.endsInDigit (ht : Numeral token n) : EndsInDigit token := by
  have last : ∀ {digits : List Char}, digits ≠ [] → (∀ c ∈ digits, c.isDigit = true) →
      EndsInDigit digits := fun hne hd =>
    ⟨_, List.getLast?_eq_some_getLast hne, hd _ (List.getLast_mem hne)⟩
  cases ht with
  | natural hne hd => exact last hne hd
  | @negative digits hne hd =>
    change EndsInDigit (['-'] ++ digits)
    exact (last hne hd).append

/-- A numeral starts with a minus sign, where it does not start with a digit. -/
theorem Numeral.head?_eq_minus (ht : Numeral token n) (hd : NoDigitFirst token) :
    token.head? = some '-' := by
  cases ht with
  | natural hne hdigits =>
    obtain ⟨c, digits, rfl⟩ := List.exists_cons_of_ne_nil hne
    exact absurd (hd c rfl) (by simp [hdigits c List.mem_cons_self])
  | negative hne hdigits => rfl

/-! ## Where reading stops -/

theorem stopped_moreIntegers (cs : List Char) : ∀ before, EndsInDigit before → NoDigitFirst cs →
    ∃ consumed, cs = consumed ++ (moreIntegers cs).2 ∧
      Stopped (before ++ consumed) (moreIntegers cs).2 := by
  fun_induction moreIntegers cs with
  | case1 => exact fun _ _ _ => ⟨[], rfl, .atToken rfl⟩
  | case2 c tail hc hread =>
    refine fun _ _ _ => ⟨[], rfl, .atToken ?_⟩
    rwa [List.dropWhile_cons_of_pos hc]
  | case3 c tail hc value more hread values rest heq ih =>
    intro before hbefore hcs
    obtain ⟨token, htail, ht, hmore⟩ := integer?_eq_some.1 hread
    -- The row goes on after the next numeral.
    obtain ⟨consumed, hconsumed, hstopped⟩ :=
      ih (before ++ (c :: tail.takeWhile isSeparator ++ token)) ht.endsInDigit.append.append hmore
    rw [heq] at hconsumed hstopped
    refine ⟨c :: tail.takeWhile isSeparator ++ token ++ consumed, ?_, ?_⟩
    · rw [List.append_assoc, List.append_assoc, ← hconsumed, ← htail, List.cons_append,
        List.takeWhile_append_dropWhile]
    · rwa [← List.append_assoc]
  | case4 c tail hc =>
    refine fun before hbefore hcs => ⟨[], rfl, .inToken ?_ ?_ hcs⟩
    · rwa [List.append_nil]
    · exact List.dropWhile_cons_of_neg hc

theorem stopped_integers (text : List Char) : ∃ before,
    text = before ++ (integers (text.dropWhile isSeparator)).2 ∧
      Stopped before (integers (text.dropWhile isSeparator)).2 := by
  have hsplit : text = text.takeWhile isSeparator ++ text.dropWhile isSeparator :=
    List.takeWhile_append_dropWhile.symm
  cases hread : integer? (text.dropWhile isSeparator) with
  | none =>
    rw [integers_eq_nil hread]
    refine ⟨_, hsplit, .atToken ?_⟩
    rwa [List.dropWhile_idempotent]
  | some first =>
    obtain ⟨value, more⟩ := first
    obtain ⟨token, htext, ht, hmore⟩ := integer?_eq_some.1 hread
    rw [integers_eq_cons hread]
    obtain ⟨consumed, hconsumed, hstopped⟩ := stopped_moreIntegers more
      (text.takeWhile isSeparator ++ token) ht.endsInDigit.append hmore
    refine ⟨_, ?_, hstopped⟩
    rw [List.append_assoc, ← hconsumed, List.append_assoc, ← htext, ← hsplit]

/-! ## The report -/

/-- Blanks are skipped, and what follows them up to the next blank is reported. -/
theorem notAnInteger_eq (htext : text = before ++ rest) : ∃ line found after,
    notAnInteger text rest = .notAnInteger line found ∧
      rest.dropWhile isBlank = found.toList ++ after ∧
      Located text line found.toList (before ++ rest.takeWhile isBlank) after := by
  have hrest : rest = rest.takeWhile isBlank ++ rest.dropWhile isBlank :=
    List.takeWhile_append_dropWhile.symm
  have hskipped : text = (before ++ rest.takeWhile isBlank) ++ rest.dropWhile isBlank := by
    rw [List.append_assoc, ← hrest, htext]
  have hbefore : text.take (text.length - (rest.dropWhile isBlank).length) =
      before ++ rest.takeWhile isBlank := by
    rw [hskipped, List.length_append, Nat.add_sub_cancel]
    exact List.take_left
  have htoken : rest.dropWhile isBlank = (rest.dropWhile isBlank).takeWhile (fun c => !isBlank c) ++
      (rest.dropWhile isBlank).dropWhile (fun c => !isBlank c) :=
    List.takeWhile_append_dropWhile.symm
  refine ⟨_, _, (rest.dropWhile isBlank).dropWhile fun c => !isBlank c, rfl, ?_, ?_, ?_, ?_, ?_⟩
  · rwa [String.toList_ofList]
  · rwa [String.toList_ofList, ← htoken]
  · rw [hbefore]
  · intro c hc
    rw [String.toList_ofList] at hc
    simpa using List.mem_takeWhile_imp hc
  · intro c hc
    have hfirst := List.head?_dropWhile_not (fun c => !isBlank c) (rest.dropWhile isBlank)
    rw [Option.mem_def.1 hc] at hfirst
    simpa using hfirst

/-- If the blanks are separators, then there is none where no separator is left. -/
theorem not_isBlank_of_mem_head? (hblanks : BlanksSeparate (rest.takeWhile isBlank))
    (hrest : rest.dropWhile isSeparator = rest) : ∀ c ∈ rest.head?, isBlank c = false := by
  intro c hc
  obtain ⟨tail, rfl⟩ := List.head?_eq_some_iff.1 hc
  rw [Bool.eq_false_iff]
  intro hblank
  have hsep : isSeparator c = true :=
    hblanks c (List.takeWhile_cons_of_pos hblank ▸ List.mem_cons_self) hblank
  have hlength := length_dropWhile_le isSeparator tail
  rw [List.dropWhile_cons_of_pos hsep] at hrest
  rw [hrest, List.length_cons] at hlength
  omega

/-- What reading has stopped at is no integer, unless it is the rest of a token. -/
theorem Stopped.not_acceptable (hstopped : Stopped before rest)
    (hrest : rest.dropWhile isSeparator = token ++ after) (hafter : NoDigitFirst after)
    (hdetached : ¬ (EndsInDigit (before ++ rest.takeWhile isSeparator) ∧ token.head? = some '-')) :
    ¬ Acceptable token := by
  rintro ⟨value, ht⟩
  cases hstopped with
  | atToken hnone => cases hnone.symm.trans (integer?_eq_some.2 ⟨token, hrest, ht, hafter⟩)
  | inToken hdigit hself hnext =>
    refine hdetached ⟨?_, ht.head?_eq_minus fun c hc => hnext c ?_⟩
    · have hlength := congrArg List.length
        (List.takeWhile_append_dropWhile (p := isSeparator) (l := rest))
      rw [hself, List.length_append] at hlength
      rwa [List.length_eq_zero_iff.1 (show (rest.takeWhile isSeparator).length = 0 by omega),
        List.append_nil]
    · rw [← hself, hrest, List.head?_append, hc]
      rfl

/-- The report of a text that is no listing names a token of the text and its line. The token is no
integer, and there is one, as long as all blanks before it are separators and it does not start with
a minus sign that follows a digit. -/
theorem read_names_offender (text : String) (fault : Fault) (hread : read text = .error fault) :
    ∃ line found before after, fault = .notAnInteger line found ∧
      Located text.toList line found.toList before after ∧
      (BlanksSeparate before → ¬ (EndsInDigit before ∧ found.toList.head? = some '-') →
        found ≠ "" ∧ ¬ Acceptable found.toList) := by
  obtain ⟨before, htext, hstopped⟩ := stopped_integers text.toList
  simp only [read] at hread
  generalize (integers (text.toList.dropWhile isSeparator)).2 = rest at htext hstopped hread
  split at hread
  · cases hread
  · next hne =>
    cases hread
    have hsplit : text.toList =
        before ++ rest.takeWhile isSeparator ++ rest.dropWhile isSeparator := by
      rw [List.append_assoc, List.takeWhile_append_dropWhile, htext]
    obtain ⟨line, found, after, hfault, hfound, hlocated⟩ := notAnInteger_eq hsplit
    refine ⟨line, found, _, after, hfault, hlocated, fun hblanks hdetached => ?_⟩
    have hfirst := not_isBlank_of_mem_head?
      (fun c hc => hblanks c (List.mem_append_right _ hc)) (List.dropWhile_idempotent _ rest)
    have hafter : NoDigitFirst after := fun c hc => isDigit_eq_false_of_isBlank (hlocated.ended c hc)
    obtain ⟨c, tail, hrest⟩ := List.exists_cons_of_ne_nil hne
    -- No blank is skipped, so the report is about what reading has stopped at.
    have hc : ¬ isBlank c = true := by
      rw [hrest] at hfirst
      exact Bool.eq_false_iff.1 (hfirst c rfl)
    rw [hrest, List.dropWhile_cons_of_neg hc] at hfound
    rw [hrest, List.takeWhile_cons_of_neg hc, List.append_nil] at hdetached
    refine ⟨?_, hstopped.not_acceptable (hrest.trans hfound) hafter hdetached⟩
    rintro rfl
    rw [String.toList_empty, List.nil_append] at hfound
    exact hc (hlocated.ended c (hfound ▸ rfl))

/-- The token that is reported is the one in the third line that has a letter in it. -/
theorem read_names_offender_of_letter : ∃ before after,
    read "0 1\n0 2\n1 x3 25" = .error (.notAnInteger 3 "x3") ∧
      Located "0 1\n0 2\n1 x3 25".toList 3 "x3".toList before after ∧ BlanksSeparate before ∧
      "x3" ≠ "" ∧ ¬ Acceptable "x3".toList := by
  have hread : read "0 1\n0 2\n1 x3 25" = .error (.notAnInteger 3 "x3") := by decide +kernel
  obtain ⟨line, found, before, after, hfault, hlocated, hoffends⟩ :=
    read_names_offender "0 1\n0 2\n1 x3 25" _ hread
  cases hfault
  have hlength : before.length = 10 := by
    have hfirst : "0 1\n0 2\n1 x3 25".toList[before.length]? = some 'x' := by
      rw [hlocated.text_eq, List.getElem?_append_right (Nat.le_refl _), Nat.sub_self]
      rfl
    have hlt : before.length < 15 := (List.getElem?_eq_some_iff.1 hfirst).1
    have honly : ∀ k < 15, "0 1\n0 2\n1 x3 25".toList[k]? = some 'x' → k = 10 := by decide +kernel
    exact honly _ hlt hfirst
  have hbefore : before = "0 1\n0 2\n1 ".toList := by
    have htake := congrArg (List.take before.length) hlocated.text_eq
    rw [List.take_left, hlength] at htake
    exact htake.symm
  have hblanks : BlanksSeparate before := by
    subst hbefore
    decide +kernel
  exact ⟨before, after, hread, hlocated, hblanks, hoffends hblanks fun hminus =>
    absurd hminus.2 (by decide)⟩

/-- A token may be rejected with its last part reported, which is an integer. -/
theorem read_names_integer_after_digit : ¬ ∀ text line found,
    read text = .error (.notAnInteger line found) →
      found ≠ "" ∧ ¬ Acceptable found.toList ∧ ∃ before after,
        text.toList = before ++ (found.toList ++ after) ∧ line = before.count '\n' + 1 := by
  intro h
  have hread : read "1-2" = .error (.notAnInteger 1 "-2") := by decide +kernel
  have hnumeral : Numeral (toString (-2 : Int)).toList (-2) := numeral_toString (-2)
  exact (h "1-2" 1 "-2" hread).2.1 ⟨-2, hnumeral⟩

end ConsMachine.Listing
