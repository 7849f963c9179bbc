import Mathlib.Data.Nat.Bitwise
import Mathlib.Data.List.Basic
import Mathlib.Logic.Function.Basic

/-!
# Two flag bits a bucket, sixteen buckets a word

The high bit of a pair says that the bucket is empty, the low bit that its
content was deleted. `Shows flags n mark` reads the packed words as one mark for
each of the first `n` buckets.
-/

namespace TWlib.Lib.PackedFlags

set_option autoImplicit false

inductive Mark where
  | live
  | deleted
  | empty
deriving DecidableEq

def Mark.bits : Mark → Bool × Bool
  | .live => (false, false)
  | .deleted => (false, true)
  | .empty => (true, false)

def pairAt (flags : List (BitVec 32)) (i : Nat) : Option (Bool × Bool) :=
  flags[i / 16]?.map fun word => (word.getLsbD (2 * (i % 16) + 1), word.getLsbD (2 * (i % 16)))

def Shows (flags : List (BitVec 32)) (n : Nat) (mark : Nat → Mark) : Prop :=
  ∀ i, i < n → pairAt flags i = some (mark i).bits

/-! ## Bits of one word -/

theorem shift_eq (i : Nat) : (i &&& 0xf) <<< 1 = 2 * (i % 16) := by
  have low : i &&& 0xf = i % 16 := Nat.and_two_pow_sub_one_eq_mod i 4
  rw [low, Nat.shiftLeft_eq]
  omega

theorem word_eq (i : Nat) : i >>> 4 = i / 16 := Nat.shiftRight_eq_div_pow i 4

theorem and_one_ne_zero (word : BitVec 32) (shift : Nat) :
    ((word >>> shift &&& 1#32) != 0#32) = word.getLsbD shift := by
  have bits : (word >>> shift &&& 1#32) = if word.getLsbD shift then 1#32 else 0#32 := by
    apply BitVec.eq_of_getLsbD_eq
    intro j bound
    by_cases first : j = 0
    · subst first
      cases set : word.getLsbD shift <;> simp [set]
    · cases set : word.getLsbD shift <;> simp [first]
  rw [bits]
  cases word.getLsbD shift <;> decide

theorem and_two_ne_zero (word : BitVec 32) (shift : Nat) :
    ((word >>> shift &&& 2#32) != 0#32) = word.getLsbD (shift + 1) := by
  have bits : (word >>> shift &&& 2#32) = if word.getLsbD (shift + 1) then 2#32 else 0#32 := by
    have two : 2#32 = BitVec.twoPow 32 1 := by decide
    apply BitVec.eq_of_getLsbD_eq
    intro j bound
    rw [two]
    by_cases second : j = 1
    · subst second
      cases set : word.getLsbD (shift + 1) <;> simp [set]
    · have other : ¬ 1 = j := fun same => second same.symm
      cases set : word.getLsbD (shift + 1) <;> simp [other]
  rw [bits]
  cases word.getLsbD (shift + 1) <;> decide

theorem and_three_ne_zero (word : BitVec 32) (shift : Nat) :
    ((word >>> shift &&& 3#32) != 0#32) = (word.getLsbD (shift + 1) || word.getLsbD shift) := by
  have split : word >>> shift &&& 3#32 =
      (word >>> shift &&& 2#32) ||| (word >>> shift &&& 1#32) := by
    have three : 3#32 = 2#32 ||| 1#32 := by decide
    rw [three]
    apply BitVec.eq_of_getLsbD_eq
    intro j bound
    simp only [BitVec.getLsbD_and, BitVec.getLsbD_or, Bool.and_or_distrib_left]
  rw [← and_two_ne_zero, ← and_one_ne_zero, split, Bool.eq_iff_iff]
  simp only [bne_iff_ne, Bool.or_eq_true, ne_eq, BitVec.or_eq_zero_iff]
  exact Decidable.not_and_iff_or_not

theorem get_one_shifted {shift j : Nat} (bound : shift < 32) :
    (1#32 <<< shift).getLsbD j = decide (j = shift) := by
  rw [← BitVec.twoPow_eq, BitVec.getLsbD_twoPow, Bool.eq_iff_iff]
  simp only [Bool.and_eq_true, decide_eq_true_eq]
  omega

theorem get_two_shifted {shift j : Nat} (bound : shift + 1 < 32) :
    (2#32 <<< shift).getLsbD j = decide (j = shift + 1) := by
  have two : 2#32 <<< shift = 1#32 <<< (shift + 1) := by
    rw [Nat.add_comm, BitVec.shiftLeft_add]
    rfl
  rw [two, get_one_shifted bound]

theorem get_three_shifted {shift j : Nat} (bound : shift + 1 < 32) :
    (3#32 <<< shift).getLsbD j = (decide (j = shift + 1) || decide (j = shift)) := by
  have three : 3#32 <<< shift = 2#32 <<< shift ||| 1#32 <<< shift := by
    rw [← BitVec.shiftLeft_or_distrib]
    rfl
  rw [three, BitVec.getLsbD_or, get_two_shifted bound, get_one_shifted (by omega)]

/-! ## All pairs of a table -/

variable {flags : List (BitVec 32)} {n i : Nat} {mark : Nat → Mark}

theorem shows_congr {other : Nat → Mark} (shows_ : Shows flags n mark)
    (same : ∀ i, i < n → other i = mark i) : Shows flags n other := by
  intro i bound
  rw [same i bound]
  exact shows_ i bound

theorem shows_word (shows_ : Shows flags n mark) (bound : i < n) :
    ∃ word, flags[i / 16]? = some word ∧ word.getLsbD (2 * (i % 16) + 1) = (mark i).bits.1 ∧
      word.getLsbD (2 * (i % 16)) = (mark i).bits.2 := by
  have pair := shows_ i bound
  unfold pairAt at pair
  rcases Option.map_eq_some_iff.mp pair with ⟨word, found, same⟩
  exact ⟨word, found, congrArg Prod.fst same, congrArg Prod.snd same⟩

/-- Rewriting the two bits of one pair leaves the other pairs as they are. -/
theorem shows_set (shows_ : Shows flags n mark) {word changed : BitVec 32} {new : Mark}
    (here : flags[i / 16]? = some word)
    (high : changed.getLsbD (2 * (i % 16) + 1) = new.bits.1)
    (low : changed.getLsbD (2 * (i % 16)) = new.bits.2)
    (kept : ∀ j, j ≠ 2 * (i % 16) + 1 → j ≠ 2 * (i % 16) → changed.getLsbD j = word.getLsbD j) :
    Shows (flags.set (i / 16) changed) n (Function.update mark i new) := by
  intro j jBound
  have inside : i / 16 < flags.length := by
    by_contra outside
    rw [List.getElem?_eq_none (Nat.le_of_not_lt outside)] at here
    cases here
  by_cases same : j = i
  · subst same
    simp [pairAt, inside, high, low]
  · rw [Function.update_of_ne same]
    by_cases sameWord : i / 16 = j / 16
    · have old := shows_ j jBound
      have highKept : changed.getLsbD (2 * (j % 16) + 1) = word.getLsbD (2 * (j % 16) + 1) :=
        kept _ (by omega) (by omega)
      have lowKept : changed.getLsbD (2 * (j % 16)) = word.getLsbD (2 * (j % 16)) :=
        kept _ (by omega) (by omega)
      simp only [pairAt, ← sameWord, here, Option.map_some] at old
      simp only [pairAt, ← sameWord, List.getElem?_set_self inside, Option.map_some,
        highKept, lowKept]
      exact old
    · have old := shows_ j jBound
      rw [pairAt, List.getElem?_set_ne sameWord]
      exact old

/-- Words that are `0xaa` in every byte. -/
theorem shows_fresh {words : Nat} (enough : n ≤ 16 * words) (behind : List (BitVec 32)) :
    Shows (List.replicate words 0xaaaaaaaa#32 ++ behind) n fun _ => .empty := by
  intro i bound
  have inside : i / 16 < words := by omega
  have pattern : ∀ k : Fin 16, (0xaaaaaaaa#32).getLsbD (2 * k.val + 1) = true ∧
      (0xaaaaaaaa#32).getLsbD (2 * k.val) = false := by decide
  have pair := pattern ⟨i % 16, Nat.mod_lt _ (by decide)⟩
  have word : (List.replicate words 0xaaaaaaaa#32 ++ behind)[i / 16]? = some 0xaaaaaaaa#32 := by
    rw [List.getElem?_append_left (by simpa using inside), List.getElem?_replicate, if_pos inside]
  simp only [pairAt, word, Option.map_some, pair.1, pair.2]
  rfl

end TWlib.Lib.PackedFlags
