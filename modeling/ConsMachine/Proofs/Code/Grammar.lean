import ConsMachine.Code.Listing
import Mathlib.Data.List.TakeWhile

/-!
# The grammar of listings

A listing is a row of numerals with separators between them and around them. The reader takes every
text of this form, whatever numerals it is written with, and it takes no other text.

## Main definitions

* `Listing.Numeral` — the digits of an integer, after a minus sign or not.
* `Listing.Row` — numerals with separators between them, and the integers that they stand for.
* `Listing.Written` — a whole listing, and its integers.
-/

namespace ConsMachine.Listing

open Text

/-! ## The grammar -/

/-- Spaces, tabs and line ends only. -/
def Separators (cs : List Char) : Prop := ∀ c ∈ cs, c = ' ' ∨ c = '\t' ∨ c = '\r' ∨ c = '\n'

instance (cs : List Char) : Decidable (Separators cs) := List.decidableBAll _ cs

/-- One decimal digit or more, after a minus sign or not. -/
inductive Numeral : List Char → Int → Prop
  | natural {digits : List Char} (hne : digits ≠ []) (hd : ∀ c ∈ digits, c.isDigit) :
    Numeral digits (Nat.ofDigitChars 10 digits 0)
  | negative {digits : List Char} (hne : digits ≠ []) (hd : ∀ c ∈ digits, c.isDigit) :
    Numeral ('-' :: digits) (-Nat.ofDigitChars 10 digits 0)

/-- Numerals of 64-bit integers, at least one, and between two of them at least one separator. -/
inductive Row : List Char → List Int64 → Prop
  | last {token : List Char} {value : Int64} (ht : Numeral token value.toInt) : Row token [value]
  | more {token gap rest : List Char} {value : Int64} {values : List Int64}
    (ht : Numeral token value.toInt) (hne : gap ≠ []) (hg : Separators gap)
    (hr : Row rest values) : Row (token ++ (gap ++ rest)) (value :: values)

/-- A row of numerals, or none at all, with any number of separators before and after. -/
def Written (text : List Char) (values : List Int64) : Prop :=
  ∃ lead body trail, text = lead ++ (body ++ trail) ∧ Separators lead ∧ Separators trail ∧
    (Row body values ∨ body = [] ∧ values = [])

variable {cs token gap body rest trail : List Char} {value : Int64} {values : List Int64} {n : Int}

theorem separators_iff : Separators cs ↔ ∀ c ∈ cs, isSeparator c = true := by
  simp [Separators, isSeparator, or_assoc]

theorem Separators.dropWhile_append (hg : Separators gap) :
    (gap ++ cs).dropWhile isSeparator = cs.dropWhile isSeparator :=
  List.dropWhile_append_of_pos (separators_iff.1 hg)

/-! ## One numeral -/

/-- A numeral is not cut short by what follows it. -/
def NoDigitFirst (cs : List Char) : Prop := ∀ c, cs.head? = some c → c.isDigit = false

theorem digits_iff {digits : List Char} :
    cs.takeWhile Char.isDigit = digits ∧ cs.dropWhile Char.isDigit = rest ↔
      cs = digits ++ rest ∧ (∀ c ∈ digits, c.isDigit = true) ∧ NoDigitFirst rest := by
  constructor
  · rintro ⟨rfl, rfl⟩
    refine ⟨List.takeWhile_append_dropWhile.symm, fun c hc => List.mem_takeWhile_imp hc, ?_⟩
    intro c hc
    have hfirst := List.head?_dropWhile_not Char.isDigit cs
    rwa [hc] at hfirst
  · rintro ⟨rfl, hd, hr⟩
    rw [List.takeWhile_append_of_pos hd, List.dropWhile_append_of_pos hd]
    cases rest with
    | nil => simp
    | cons c rest => simp [hr c rfl]

/-- The digits after the sign are read as far as they go. -/
theorem signedNumeral?_of_splitMinus {negative : Bool} (hs : splitMinus cs = (negative, body)) :
    signedNumeral? cs = some (n, rest) ↔ ∃ digits, digits ≠ [] ∧ body = digits ++ rest ∧
      (∀ c ∈ digits, c.isDigit = true) ∧ NoDigitFirst rest ∧
      n = if negative then -(Nat.ofDigitChars 10 digits 0 : Int)
        else Nat.ofDigitChars 10 digits 0 := by
  simp only [signedNumeral?, hs]
  constructor
  · intro h
    split at h
    · cases h
    · next digits hne =>
      cases h
      exact ⟨_, hne, (digits_iff.1 ⟨rfl, rfl⟩).1, (digits_iff.1 ⟨rfl, rfl⟩).2.1,
        (digits_iff.1 ⟨rfl, rfl⟩).2.2, rfl⟩
  · rintro ⟨digits, hne, hbody, hd, hr, rfl⟩
    obtain ⟨htake, hdrop⟩ := digits_iff.2 ⟨hbody, hd, hr⟩
    rw [htake, hdrop]
    split
    · contradiction
    · rfl

/-- What is read is a numeral, and as many digits as there are. -/
theorem signedNumeral?_eq_some : signedNumeral? cs = some (n, rest) ↔
    ∃ token, cs = token ++ rest ∧ Numeral token n ∧ NoDigitFirst rest := by
  constructor
  · intro h
    cases hs : splitMinus cs with
    | mk negative body =>
      obtain ⟨digits, hne, rfl, hd, hr, rfl⟩ := (signedNumeral?_of_splitMinus hs).1 h
      unfold splitMinus at hs
      split at hs <;> cases hs
      · exact ⟨'-' :: digits, rfl, .negative hne hd, hr⟩
      · exact ⟨digits, rfl, .natural hne hd, hr⟩
  · rintro ⟨token, rfl, ht, hr⟩
    cases ht with
    | natural hne hd =>
      have hs : splitMinus (token ++ rest) = (false, token ++ rest) := by
        unfold splitMinus
        split
        · next heq =>
          obtain ⟨c, digits, rfl⟩ := List.exists_cons_of_ne_nil hne
          cases heq
          exact absurd (hd '-' List.mem_cons_self) (by decide)
        · rfl
      exact (signedNumeral?_of_splitMinus hs).2 ⟨token, hne, rfl, hd, hr, rfl⟩
    | negative hne hd =>
      exact (signedNumeral?_of_splitMinus rfl).2 ⟨_, hne, rfl, hd, hr, rfl⟩

theorem integer?_eq_some : integer? cs = some (value, rest) ↔
    ∃ token, cs = token ++ rest ∧ Numeral token value.toInt ∧ NoDigitFirst rest := by
  have hmin : Int64.minValue.toInt = -2 ^ 63 := rfl
  have hmax : Int64.maxValue.toInt = 2 ^ 63 - 1 := rfl
  have hlt := value.toInt_lt
  have hle := value.le_toInt
  simp only [← signedNumeral?_eq_some, integer?]
  constructor
  · intro h
    split at h
    · cases h
    · next n rest' hread =>
      split at h
      · next hrange =>
        cases h
        rw [hread, Int64.toInt_ofInt_of_le (by omega) (by omega)]
      · cases h
  · intro h
    simp only [h]
    rw [if_pos (by omega), Int64.ofInt_toInt]

/-! ## Rows -/

theorem isSeparator_eq_false {c : Char} (hc : c.isDigit = true ∨ c = '-') :
    isSeparator c = false := by
  rw [Bool.eq_false_iff]
  intro hs
  have : c = ' ' ∨ c = '\t' ∨ c = '\r' ∨ c = '\n' := by simpa [isSeparator, or_assoc] using hs
  rcases this with rfl | rfl | rfl | rfl <;> revert hc <;> decide

theorem Numeral.dropWhile_append (ht : Numeral token n) :
    (token ++ cs).dropWhile isSeparator = token ++ cs := by
  cases ht with
  | natural hne hd =>
    obtain ⟨c, digits, rfl⟩ := List.exists_cons_of_ne_nil hne
    simp [isSeparator_eq_false (.inl (hd c List.mem_cons_self))]
  | negative hne hd => simp [isSeparator_eq_false (.inr rfl)]

theorem Row.dropWhile_append (hr : Row body values) :
    (body ++ cs).dropWhile isSeparator = body ++ cs := by
  cases hr with
  | last ht => exact ht.dropWhile_append
  | more ht hne hg hr =>
    rw [List.append_assoc]
    exact ht.dropWhile_append

theorem Separators.noDigitFirst (hg : Separators gap) : NoDigitFirst gap := by
  intro c hc
  rcases hg c (List.mem_of_head? hc) with rfl | rfl | rfl | rfl <;> decide

theorem Separators.append_noDigitFirst (hg : Separators gap) (hne : gap ≠ []) :
    NoDigitFirst (gap ++ rest) := by
  obtain ⟨c, gap, rfl⟩ := List.exists_cons_of_ne_nil hne
  exact hg.noDigitFirst

/-- After a separator the row goes on with the next numeral, if there is one. -/
theorem moreIntegers_eq (hne : gap ≠ []) (hg : Separators gap)
    (hcs : cs.dropWhile isSeparator = cs) :
    moreIntegers (gap ++ cs) =
      match integer? cs with
      | none => ([], gap ++ cs)
      | some _ => integers cs := by
  obtain ⟨c, gap, rfl⟩ := List.exists_cons_of_ne_nil hne
  have hc : isSeparator c = true := separators_iff.1 hg c List.mem_cons_self
  have hdrop : (gap ++ cs).dropWhile isSeparator = cs := by
    rw [Separators.dropWhile_append fun d hd => hg d (List.mem_cons_of_mem c hd), hcs]
  rw [List.cons_append, moreIntegers, if_pos hc, hdrop, integers]
  split <;> split <;> simp_all

theorem moreIntegers_separators (hg : Separators gap) : moreIntegers gap = ([], gap) := by
  by_cases hne : gap = []
  · rw [hne, moreIntegers]
  · have heq : moreIntegers (gap ++ []) = ([], gap ++ []) := moreIntegers_eq hne hg rfl
    rwa [List.append_nil] at heq

theorem integers_eq_nil (hnone : integer? cs = none) : integers cs = ([], cs) := by
  rw [integers, hnone]

theorem integers_eq_cons (hread : integer? cs = some (value, rest)) :
    integers cs = (value :: (moreIntegers rest).1, (moreIntegers rest).2) := by
  rw [integers, hread]

/-- A row that is written is read to its end. -/
theorem Row.integers_eq (hr : Row body values) (ht : Separators trail) :
    integers (body ++ trail) = (values, trail) := by
  induction hr with
  | last hn =>
    have hread := integer?_eq_some.2 ⟨_, rfl, hn, ht.noDigitFirst⟩
    rw [integers_eq_cons hread, moreIntegers_separators ht]
  | @more token gap rest value values hn hne hg hr ih =>
    have hgap : NoDigitFirst (gap ++ (rest ++ trail)) := hg.append_noDigitFirst hne
    have hread := integer?_eq_some.2 ⟨_, rfl, hn, hgap⟩
    have hmore : moreIntegers (gap ++ (rest ++ trail)) = (values, trail) := by
      rw [moreIntegers_eq hne hg hr.dropWhile_append]
      split
      · next hnone =>
        rw [integers_eq_nil hnone] at ih
        obtain rfl := (Prod.mk.inj ih).1
        cases hr
      · exact ih
    rw [List.append_assoc, List.append_assoc, integers_eq_cons hread, hmore]

/-- What has been read after a numeral: nothing, or a row with separators in front of it. -/
def ReadOn (cs : List Char) (values : List Int64) (rest : List Char) : Prop :=
  values = [] ∧ rest = cs ∨
    ∃ gap body, cs = gap ++ (body ++ rest) ∧ gap ≠ [] ∧ Separators gap ∧ Row body values

theorem ReadOn.row {more : List Char} (hm : ReadOn more values rest)
    (hread : integer? cs = some (value, more)) :
    ∃ body, cs = body ++ rest ∧ Row body (value :: values) := by
  obtain ⟨token, rfl, ht, -⟩ := integer?_eq_some.1 hread
  rcases hm with ⟨rfl, rfl⟩ | ⟨gap, body, rfl, hne, hg, hr⟩
  · exact ⟨token, rfl, .last ht⟩
  · exact ⟨token ++ (gap ++ body), by simp, .more ht hne hg hr⟩

theorem readOn_moreIntegers (cs : List Char) :
    ReadOn cs (moreIntegers cs).1 (moreIntegers cs).2 := by
  fun_induction moreIntegers cs with
  | case1 => exact .inl ⟨rfl, rfl⟩
  | case2 c tail hc hread => exact .inl ⟨rfl, rfl⟩
  | case3 c tail hc value more hread values rest heq ih =>
    rw [heq] at ih
    obtain ⟨body, hbody, hr⟩ := ih.row hread
    refine .inr ⟨c :: tail.takeWhile isSeparator, body, ?_, List.cons_ne_nil c _, ?_, hr⟩
    · rw [← hbody, List.cons_append, List.takeWhile_append_dropWhile]
    · rw [separators_iff]
      intro d hd
      rcases List.mem_cons.1 hd with rfl | hd
      · exact hc
      · exact List.mem_takeWhile_imp hd
  | case4 c tail hc => exact .inl ⟨rfl, rfl⟩

/-- Where a row ends, and before it nothing but the row. -/
theorem integers_spec (cs : List Char) :
    (integers cs).1 = [] ∧ (integers cs).2 = cs ∨
      ∃ body, cs = body ++ (integers cs).2 ∧ Row body (integers cs).1 := by
  cases hfirst : integer? cs with
  | none =>
    rw [integers_eq_nil hfirst]
    exact .inl ⟨rfl, rfl⟩
  | some first =>
    rw [integers_eq_cons hfirst]
    exact .inr ((readOn_moreIntegers first.2).row hfirst)

/-! ## Listings -/

theorem read_eq_ok {text : String} : read text = .ok values ↔ Written text.toList values := by
  simp only [read]
  constructor
  · intro h
    split at h
    · next hrest =>
      cases h
      have htrail : Separators _ := separators_iff.2 (List.dropWhile_eq_nil_iff.1 hrest)
      have hsplit : text.toList =
          text.toList.takeWhile isSeparator ++ text.toList.dropWhile isSeparator :=
        List.takeWhile_append_dropWhile.symm
      have hlead : Separators (text.toList.takeWhile isSeparator) :=
        separators_iff.2 fun c hc => List.mem_takeWhile_imp hc
      rcases integers_spec (text.toList.dropWhile isSeparator) with ⟨hnil, hall⟩ | ⟨body, hbody, hr⟩
      · refine ⟨_, [], _, ?_, hlead, htrail, .inr ⟨rfl, hnil⟩⟩
        rwa [List.nil_append, hall]
      · refine ⟨_, body, _, ?_, hlead, htrail, .inl hr⟩
        rwa [← hbody]
    · cases h
  · rintro ⟨lead, body, trail, htext, hlead, htrail, hr⟩
    have htrail' : trail.dropWhile isSeparator = [] :=
      List.dropWhile_eq_nil_iff.2 (separators_iff.1 htrail)
    rw [htext, hlead.dropWhile_append]
    rcases hr with hr | ⟨rfl, rfl⟩
    · rw [hr.dropWhile_append, hr.integers_eq htrail, htrail']
    · rw [List.nil_append, htrail']
      rfl

theorem exists_fault_of_read {text : String} (hno : ∀ values, read text ≠ .ok values) :
    ∃ line found, read text = .error (.notAnInteger line found) := by
  simp only [read] at hno ⊢
  split at hno
  · exact absurd rfl (hno _)
  · exact ⟨_, _, rfl⟩

/-! ## Listings as they are usually written -/

theorem numeral_toString (n : Int) : Numeral (toString n).toList n := by
  have digits (m : Nat) : ∀ c ∈ Nat.toDigits 10 m, c.isDigit = true := fun c hc =>
    Nat.isDigit_of_mem_toDigits (by decide) (by decide) hc
  have value (m : Nat) : Nat.ofDigitChars 10 (Nat.toDigits 10 m) 0 = m :=
    Nat.ofDigitChars_toDigits (by decide) (by decide)
  cases n with
  | ofNat m =>
    have htext : (toString (Int.ofNat m)).toList = Nat.toDigits 10 m := by
      change m.repr.toList = _
      rw [Nat.repr_eq_ofList_toDigits, String.toList_ofList]
    have := Numeral.natural Nat.toDigits_ne_nil (digits m)
    rwa [value, ← htext] at this
  | negSucc m =>
    have htext : (toString (Int.negSucc m)).toList = '-' :: Nat.toDigits 10 (m + 1) := by
      change ("-" ++ (m + 1).repr).toList = _
      simp [Nat.repr_eq_ofList_toDigits]
    have := Numeral.negative Nat.toDigits_ne_nil (digits (m + 1))
    rwa [value, ← htext] at this

theorem row_intercalate (hne : gap ≠ []) (hg : Separators gap) (value : Int64)
    (values : List Int64) :
    Row (gap.intercalate ((value :: values).map fun v => (toString v.toInt).toList))
      (value :: values) := by
  induction values generalizing value with
  | nil => simpa [List.intercalate] using Row.last (numeral_toString value.toInt)
  | cons next values ih =>
    have := Row.more (numeral_toString value.toInt) hne hg (ih next)
    simpa [List.intercalate] using this

/-- A text is read just if it is written as the grammar says, and then the integers are those that
its numerals stand for; every other text is reported to hold something that is no integer. Among the
texts that are read are all lists of integers in decimal, with any separators between them. -/
theorem read_accepts_the_grammar :
    (∀ (text : String) (values : List Int64),
      read text = .ok values ↔ Written text.toList values) ∧
    (∀ text : String, (∀ values, ¬ Written text.toList values) →
      ∃ line found, read text = .error (.notAnInteger line found)) ∧
    ∀ (gap : String) (values : List Int64), gap ≠ "" → Separators gap.toList →
      read (gap.intercalate (values.map fun v => toString v.toInt)) = .ok values := by
  refine ⟨fun text values => read_eq_ok, fun text hno => ?_, fun gap values hne hg => ?_⟩
  · exact exists_fault_of_read fun values h => hno values (read_eq_ok.1 h)
  · refine read_eq_ok.2 ?_
    have hne' : gap.toList ≠ [] := by simpa using hne
    rw [String.toList_intercalate, List.map_map]
    cases values with
    | nil => exact ⟨[], [], [], rfl, nofun, nofun, .inr ⟨rfl, rfl⟩⟩
    | cons value values =>
      refine ⟨[], _, [], ?_, nofun, nofun, .inl (row_intercalate hne' hg value values)⟩
      rw [List.nil_append, List.append_nil]
      rfl

/-- Both ends of the range are read; a numeral that follows another one directly is not. -/
theorem read_accepts_the_grammar_of_extremes :
    ("\r\n" ≠ "" ∧ Separators "\r\n".toList ∧
      read ("\r\n".intercalate ([Int64.minValue, Int64.maxValue].map fun v => toString v.toInt)) =
        .ok [Int64.minValue, Int64.maxValue]) ∧
    (∀ values, ¬ Written "1-2".toList values) ∧
      ∃ line found, read "1-2" = .error (.notAnInteger line found) := by
  have hno : ∀ values, ¬ Written "1-2".toList values := by
    intro values h
    have hread : read "1-2" = .error (.notAnInteger 1 "-2") := by decide +kernel
    cases hread.symm.trans ((read_accepts_the_grammar.1 "1-2" values).2 h)
  have hgap : Separators "\r\n".toList := by decide
  exact ⟨⟨by decide, hgap, read_accepts_the_grammar.2.2 "\r\n" _ (by decide) hgap⟩, hno,
    read_accepts_the_grammar.2.1 "1-2" hno⟩

end ConsMachine.Listing
