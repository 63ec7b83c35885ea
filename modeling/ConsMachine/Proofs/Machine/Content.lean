import ConsMachine.Proofs.Machine.Stack
import Mathlib.Algebra.Group.Nat.Defs

/-!
# The content of the stack

The live words of a stack as a list, the top first. Whatever an instruction does to the slots, it
comes down to words that take the place of those on top.

## Main definitions

* `Stack.content` — the live words, the top first.
* `Stack.Fits` — a stack of so many slots, the pointer of which is one of them or -1.
-/

namespace ConsMachine.Stack

/-- The live words, the top first. -/
def content (s : Stack) : List Word := s.live.reverse

/-- The stack has so many slots, and the stack pointer is one of them or -1. -/
structure Fits (limit : Nat) (s : Stack) : Prop where
  size : s.size = limit
  bounded : s.Bounded

variable {s : Stack} {limit i k source target count : Nat} {w : Word} {words : List Word}
  {pointer : Int} {index shift : Int64}

namespace Fits

theorem le (hs : s.Fits limit) : s.height ≤ s.size := hs.bounded.height_le

theorem height (hs : s.Fits limit) : s.height ≤ limit := hs.size ▸ hs.le

theorem pointer_eq (hs : s.Fits limit) : s.pointer = s.height - 1 := hs.bounded.pointer_eq

theorem length_content (hs : s.Fits limit) : s.content.length = s.height := by
  rw [content, List.length_reverse, length_live hs.le]

/-! ## Replacing the words on top -/

theorem replaced (hs : s.Fits limit) (hp : pointer + 1 = i + words.length)
    (hle : i + words.length ≤ limit) : ((s.store i words).setPointer pointer).Fits limit := by
  have hsize := hs.size
  refine ⟨size_store.trans hsize, ?_, ?_⟩
  · rw [pointer_setPointer]
    omega
  · rw [pointer_setPointer, size_setPointer, size_store]
    omega

/-- Words are stored from a slot on, and the last of them is made the top. -/
theorem content_replaced (hs : s.Fits limit) (hi : i ≤ s.height)
    (hp : pointer + 1 = i + words.length) (hle : i + words.length ≤ limit) :
    ((s.store i words).setPointer pointer).content =
      words.reverse ++ s.content.drop (s.height - i) := by
  have hnew := hs.replaced hp hle
  have hheight := height_setPointer (s := s.store i words) (show -1 ≤ pointer by omega)
  have hsize := hs.size
  have hlive : ((s.store i words).setPointer pointer).live = s.live.take i ++ words := by
    apply List.ext_getElem?
    intro k
    rw [live_getElem? hnew.le, slots_setPointer, getElem?_store, List.getElem?_append,
      List.length_take, length_live hs.le, List.getElem?_take, live_getElem? hs.le]
    by_cases hk : k < i
    · rw [if_pos (by omega), if_neg (by omega), if_pos (by omega), if_pos hk, if_pos (by omega)]
    · rw [if_neg (show ¬ k < min i s.height by omega), show k - min i s.height = k - i by omega]
      by_cases hlt : k < i + words.length
      · rw [if_pos (by omega), if_pos (by omega)]
      · rw [if_neg (by omega), List.getElem?_eq_none (by omega)]
  have htake : (s.live.take i).reverse = s.content.drop (s.height - i) := by
    rw [content, List.drop_reverse, length_live hs.le, show s.height - (s.height - i) = i by omega]
  rw [content, hlive, List.reverse_append, htake]

theorem store (hs : s.Fits limit) : (s.store i words).Fits limit :=
  ⟨size_store.trans hs.size, hs.bounded.store⟩

/-- Words that are stored in the place of those on top. -/
theorem content_store_top (hs : s.Fits limit) (hi : i + words.length = s.height) :
    (s.store i words).content = words.reverse ++ s.content.drop words.length := by
  have hkept : (s.store i words).setPointer s.pointer = s.store i words := by
    rw [setPointer, ← show (s.store i words).pointer = s.pointer from pointer_store]
  have hheight := hs.height
  have hpointer := hs.pointer_eq
  have htop : s.pointer + 1 = i + words.length := by omega
  have hreplaced := hs.content_replaced (by omega) htop (by omega)
  rw [hkept] at hreplaced
  rw [hreplaced, show s.height - i = words.length by omega]

/-- A word that is stored among the live ones. -/
theorem content_store_live (hs : s.Fits limit) (hk : k < s.height) :
    (s.store k [w]).content = (s.content.reverse.set k w).reverse := by
  have hle : k < s.size := Nat.lt_of_lt_of_le hk hs.le
  have hlive : (s.store k [w]).live = s.live.set k w := by
    apply List.ext_getElem?
    intro j
    rw [live_getElem? hs.store.le, getElem?_store, height_store, List.getElem?_set,
      live_getElem? hs.le, length_live hs.le]
    by_cases hj : k = j
    · subst hj
      simp [hk, hle]
    · have hout : ¬ (k ≤ j ∧ j < k + [w].length ∧ j < s.size) := by
        rw [List.length_singleton]
        omega
      rw [if_neg hj, if_neg hout]
  rw [content, hlive, content, List.reverse_reverse]

theorem push (hs : s.Fits limit) (hlt : s.height < limit) : (s.push w).Fits limit :=
  ⟨size_push.trans hs.size, .push (hs.size.symm ▸ hlt)⟩

theorem content_push (hs : s.Fits limit) (hlt : s.height < limit) :
    (s.push w).content = w :: s.content := by
  have hpush : s.push w = (s.store s.height [w]).setPointer s.height := rfl
  have hle : s.height + [w].length ≤ limit := hlt
  rw [hpush, hs.content_replaced (Nat.le_refl _) (by simp) hle, Nat.sub_self]
  rfl

/-- The top is lowered. -/
theorem lowered (hs : s.Fits limit) (hp : -1 ≤ pointer) (hle : pointer + 1 ≤ s.height) :
    (s.setPointer pointer).Fits limit := by
  have hpointer := hs.pointer_eq
  have hupper := hs.bounded.upper
  exact ⟨hs.size, hp, by rw [pointer_setPointer, size_setPointer]; omega⟩

theorem content_lowered (hs : s.Fits limit) (hp : -1 ≤ pointer) (hle : pointer + 1 ≤ s.height) :
    (s.setPointer pointer).content = s.content.drop (s.height - (pointer + 1).toNat) := by
  have := hs.height
  have hpointer : pointer + 1 = (pointer + 1).toNat + ([] : List Word).length := by simp; omega
  have hlimit : (pointer + 1).toNat + ([] : List Word).length ≤ limit := by simp; omega
  exact hs.content_replaced (by omega) hpointer hlimit

theorem drop (hs : s.Fits limit) (hp : 0 ≤ s.pointer) : s.drop.Fits limit :=
  ⟨hs.size, hs.bounded.drop hp⟩

theorem content_drop (hs : s.Fits limit) (hp : 0 ≤ s.pointer) :
    s.drop.content = s.content.drop 1 := by
  have hpointer := hs.pointer_eq
  have hlowered : s.drop.content = _ := hs.content_lowered (by omega) (by omega)
  rw [show s.height - (s.pointer - 1 + 1).toNat = 1 by omega] at hlowered
  exact hlowered

/-! ## Reading -/

theorem content_getElem? (hs : s.Fits limit) :
    s.content[k]? = if k < s.height then s.slots[s.height - 1 - k]? else none := by
  by_cases hk : k < s.height
  · rw [if_pos hk, content, List.getElem?_reverse (by rwa [length_live hs.le]), length_live hs.le,
      live_getElem? hs.le, if_pos (by omega)]
  · rw [if_neg hk, List.getElem?_eq_none (by rw [hs.length_content]; omega)]

/-- Slots are counted down from the top. -/
theorem get_eq_ok (hs : s.Fits limit) (hp : pointer = s.pointer - k) :
    s.get pointer = .ok w ↔ s.content[k]? = some w := by
  rw [hs.pointer_eq] at hp
  subst hp
  rw [Stack.get_eq_ok, hs.content_getElem?]
  by_cases hk : k < s.height
  · rw [if_pos hk, show ((s.height : Int) - 1 - k).toNat = s.height - 1 - k by omega]
    simp only [and_iff_right_iff_imp]
    omega
  · rw [if_neg hk]
    simp only [reduceCtorEq, iff_false, not_and]
    omega

/-- Slots are counted up from the bottom. -/
theorem get_eq_ok_of_lt (hs : s.Fits limit) (hk : k < s.height) :
    s.get k = .ok w ↔ s.content.reverse[k]? = some w := by
  rw [Stack.get_eq_ok, content, List.reverse_reverse, live_getElem? hs.le, if_pos hk]
  simp only [Int.toNat_natCast, and_iff_right_iff_imp]
  omega

/-- An index of the program that is not above the top is a slot. -/
theorem slotOf_eq_ok (hs : s.Fits limit) (hlt : index.toInt < s.height) :
    s.slotOf index = .ok k ↔ (k : Int) = index.toInt := by
  have hle := hs.le
  have hclamp : (index.toNatClampNeg : Int) = index.toInt.toNat := rfl
  rw [Stack.slotOf_eq_ok, nonneg_iff]
  omega

theorem top_eq_ok (hs : s.Fits limit) : s.top = .ok w ↔ s.content.head? = some w := by
  rw [top, hs.get_eq_ok (k := 0) (by simp), List.head?_eq_getElem?]

/-- The slots from one on, up to the top. -/
theorem extract_eq (hs : s.Fits limit) (hi : i ≤ s.height) :
    (s.slots.extract (s.height - i) s.height).toList = (s.content.take i).reverse := by
  have hsize : s.slots.size = limit := hs.size
  have hheight := hs.height
  have hlive : (s.slots.extract (s.height - i) s.height).toList = s.live.drop (s.height - i) := by
    apply List.ext_getElem?
    intro k
    rw [List.getElem?_drop, live_getElem? hs.le, Array.getElem?_toList, Array.getElem?_extract]
    by_cases hk : k < i
    · rw [if_pos (by omega), if_pos (by omega)]
    · rw [if_neg (by omega), if_neg (by omega)]
  rw [hlive, content, List.take_reverse, List.reverse_reverse, length_live hs.le]

end Fits

/-! ## Sliding words down -/

/-- Where the words move down, they arrive as they were. -/
theorem slide_eq_store (hle : target ≤ source) (hsource : source + count ≤ s.size) :
    s.slide source target count =
      s.store target (s.slots.extract source (source + count)).toList := by
  induction count generalizing s source target with
  | zero =>
    have hnil : (s.slots.extract source (source + 0)).toList = [] := by simp
    rw [hnil]
    rfl
  | succ count ih =>
    have hlt : source < s.slots.size := by
      change _ ≤ s.slots.size at hsource
      omega
    obtain ⟨word, hword⟩ : ∃ word, s.slots[source]? = some word := ⟨_, Array.getElem?_eq_getElem hlt⟩
    rw [slide, hword, Option.getD_some, ih (by omega) (by rw [size_put]; omega)]
    have hcons : (s.slots.extract source (source + (count + 1))).toList =
        word :: ((s.put target word).slots.extract (source + 1)
          (source + 1 + count)).toList := by
      apply List.ext_getElem?
      intro k
      rw [Array.getElem?_toList, Array.getElem?_extract]
      cases k with
      | zero =>
        rw [if_pos (by omega)]
        exact hword
      | succ k =>
        have hsize : (s.put target word).slots.size = s.slots.size := size_put
        rw [List.getElem?_cons_succ, Array.getElem?_toList, Array.getElem?_extract, hsize,
          getElem?_put, if_neg (show ¬ (target = source + 1 + k ∧ target < s.size) by omega)]
        simp only [show source + (k + 1) = source + 1 + k by omega]
        congr 1
        simp only [eq_iff_iff]
        omega
    rw [hcons]
    rfl

/-! ## Words below those on top -/

/-- Words go in below the topmost ones, which move up. -/
theorem Fits.insert_spec (hs : s.Fits limit) (hcount : count ≤ s.height)
    (hp : pointer = s.pointer + words.length) (hlt : pointer < limit) :
    let arguments := (s.slots.extract (s.height - count) s.height).toList
    let t := (s.store (s.height - count) (words ++ arguments)).setPointer pointer
    t.Fits limit ∧ t.content = s.content.take count ++ (words.reverse ++ s.content.drop count) := by
  have harguments := hs.extract_eq hcount
  have hlen : (words ++ (s.content.take count).reverse).length = words.length + count := by
    rw [List.length_append, List.length_reverse, List.length_take, hs.length_content,
      Nat.min_eq_left hcount]
  have hpointer := hs.pointer_eq
  simp only [harguments]
  refine ⟨hs.replaced (by omega) (by omega), ?_⟩
  rw [hs.content_replaced (by omega) (by omega) (by omega), List.reverse_append,
    List.reverse_reverse, List.append_assoc, show s.height - (s.height - count) = count by omega]

/-- A word takes the place of the two on top. -/
theorem Fits.merge_spec (hs : s.Fits limit) (htwo : 2 ≤ s.height) :
    let t := (s.store (s.height - 2) [w]).drop
    t.Fits limit ∧ t.content = w :: s.content.drop 2 := by
  have hheight := hs.height
  have hpointer := hs.pointer_eq
  have hdrop : (s.store (s.height - 2) [w]).drop =
      (s.store (s.height - 2) [w]).setPointer (s.height - 2 : Nat) := by
    rw [Stack.drop, setPointer, pointer_store]
    congr 1
    omega
  have htop : ((s.height - 2 : Nat) : Int) + 1 = (s.height - 2 : Nat) + [w].length := rfl
  have hroom : s.height - 2 + [w].length ≤ limit := by
    rw [List.length_singleton]
    omega
  simp only [hdrop]
  refine ⟨hs.replaced htop hroom, ?_⟩
  rw [hs.content_replaced (by omega) htop hroom, show s.height - (s.height - 2) = 2 by omega]
  rfl

/-- Words are taken out from below the topmost ones, which move down. -/
theorem Fits.remove_spec {drop : Nat} (hs : s.Fits limit) (hcount : count + drop ≤ s.height)
    (hp : pointer = s.pointer - drop) :
    let t := (s.slide (s.height - count) (pointer + 1 - count).toNat count).setPointer pointer
    t.Fits limit ∧ t.content = s.content.take count ++ s.content.drop (count + drop) := by
  have hsize := hs.le
  have hheight := hs.height
  have hpointer := hs.pointer_eq
  have htarget : (pointer + 1 - count).toNat = s.height - (count + drop) := by omega
  have hslide : s.slide (s.height - count) (s.height - (count + drop)) count =
      s.store (s.height - (count + drop)) (s.content.take count).reverse := by
    rw [slide_eq_store (by omega) (by omega), Nat.sub_add_cancel (by omega),
      hs.extract_eq (by omega)]
  have hlen : (s.content.take count).reverse.length = count := by
    rw [List.length_reverse, List.length_take, hs.length_content]
    omega
  simp only [htarget, hslide]
  refine ⟨hs.replaced (by omega) (by omega), ?_⟩
  rw [hs.content_replaced (by omega) (by omega) (by omega), List.reverse_reverse,
    show s.height - (s.height - (count + drop)) = count + drop by omega]

/-! ## Bounds -/

/-- The opposite of an integer that is not negative is exact. -/
theorem toInt_negateClamped (hshift : 0 ≤ shift.toInt) :
    (negateClamped shift).toInt = -shift.toInt := by
  have hlt := shift.toInt_lt
  have hmin : shift ≠ Int64.minValue := by
    rintro rfl
    exact absurd hshift (by decide)
  rw [negateClamped, if_neg hmin, Int64.toInt_neg]
  exact Int.bmod_eq_of_le (by omega) (by omega)

/-- In a stack that 64-bit integers can count, the stack pointer moves wherever it may rest. -/
theorem Fits.moved_eq_ok (hs : s.Fits limit) (hlimit : limit ≤ 2 ^ 63) :
    s.moved shift = .ok pointer ↔
      pointer = s.pointer + shift.toInt ∧ -1 ≤ pointer ∧ pointer < limit := by
  have hsize := hs.size
  constructor
  · intro hm
    obtain ⟨hge, hlt, heq⟩ := Stack.moved_eq_ok hm
    exact ⟨heq, hge, hsize ▸ hlt⟩
  · rintro ⟨heq, hge, hlt⟩
    have hadd : addExact? s.pointer shift = some pointer :=
      addExact?_eq_some.2 ⟨heq, by omega, by omega⟩
    have hhigh : ¬ (0 ≤ pointer ∧ s.size ≤ pointer.toNat) := by omega
    simp only [moved, hadd, if_neg (Int.not_lt.2 hge), if_neg hhigh]

theorem Fits.argumentCount_eq_ok (hs : s.Fits limit) : s.argumentCount shift = .ok count ↔
    (count : Int) = shift.toInt ∧ count ≤ s.height := by
  have hpointer := hs.pointer_eq
  rw [Stack.argumentCount_eq_ok]
  omega

end ConsMachine.Stack
