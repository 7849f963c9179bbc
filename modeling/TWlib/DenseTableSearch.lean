import TWlib.DenseTable
import TWlib.Lib.FiniteMap
import Mathlib.Tactic.SplitIfs

/-!
# Searching the dense table

`Sound` relates the array of the table to the slots of open addressing: an empty
or deleted slot is a bucket with the reserved key, a live one has its value. The
probes of a key then follow its path, which comes to every bucket, up to the
first that is empty or has the key.
-/

namespace TWlib.DenseTableSearch

open TWlib.Lib.OpenAddressing TWlib.Lib.FiniteMap TWlib.DenseTable TWlib.DenseTable.DenseHashtable

set_option autoImplicit false

variable {Key T : Type}

def probing (hash : Key → BitVec 64) (m : Nat) : Probing Key (2 ^ (m + 2)) :=
  Probing.triangular (m + 2) fun key => (hash key).toNat

def delkeyOf (h : DenseHashtable Key T) : Option Key :=
  if h.settings.useDeleted then h.delkey else none

theorem mem_delkey_of {h : DenseHashtable Key T} {delkey : Key} :
    delkey ∈ delkeyOf h ↔ h.settings.useDeleted = true ∧ h.delkey = some delkey := by
  unfold delkeyOf
  split_ifs with used
  · simp [used]
  · simp [used]

def Usable (equal : Key → Key → Bool) (h : DenseHashtable Key T) (key : Key) : Prop :=
  ¬ SameKey equal h.emptyval.1 key ∧ ∀ delkey ∈ delkeyOf h, ¬ SameKey equal delkey key

/-- What a bucket has in it for a slot. -/
def Marks (equal : Key → Key → Bool) (h : DenseHashtable Key T) (value : Key × T) :
    Slot (Key × T) → Prop
  | .empty => SameKey equal h.emptyval.1 value.1
  | .deleted =>
      ¬ SameKey equal h.emptyval.1 value.1 ∧ ∃ delkey ∈ delkeyOf h, SameKey equal delkey value.1
  | .live entry => value = entry ∧ Usable equal h entry.1

/-- The array of the table shows the first `n` slots. -/
structure ShowsSlots (equal : Key → Key → Bool) (h : DenseHashtable Key T) (n : Nat)
    (slots : Nat → Slot (Key × T)) : Prop where
  length : ∃ cells, h.table = some cells ∧ cells.length = n
  marks : ∀ i, i < n → ∃ value, h.cell i = some value ∧ Marks equal h value (slots i)

structure Sound (hash : Key → BitVec 64) (equal : Key → Key → Bool) (m : Nat)
    (h : DenseHashtable Key T) (slots : Nat → Slot (Key × T)) : Prop where
  small : m ≤ 61
  buckets : h.numBuckets = 2 ^ (m + 2)
  useEmpty : h.settings.useEmpty = true
  shows_ : ShowsSlots equal h (2 ^ (m + 2)) slots
  placed : Placed (probing hash m) Prod.fst (SameKey equal) slots
  elements : h.numElements = occupied (2 ^ (m + 2)) slots
  deleted : (entries (2 ^ (m + 2)) slots).length + h.numDeleted = h.numElements
  reserved : h.settings.useDeleted = true → ∃ delkey, h.delkey = some delkey ∧
    ¬ SameKey equal h.emptyval.1 delkey
  enlarge : h.settings.enlargeThreshold = 2 ^ (m + 1)
  shrink : h.settings.shrinkThreshold = shrinkSize (2 ^ (m + 2))
  below : h.numElements ≤ 2 ^ (m + 1)

section Paths

variable (hash : Key → BitVec 64) (m : Nat) (key : Key)

theorem first_bucket_eq {h : DenseHashtable Key T} (buckets : h.numBuckets = 2 ^ (m + 2)) :
    h.firstBucket hash key = (probing hash m).path key 0 := by
  rw [firstBucket, buckets, Nat.and_two_pow_sub_one_eq_mod, probing, triangular_zero]

theorem next_bucket_eq {h : DenseHashtable Key T} (small : m ≤ 61)
    (buckets : h.numBuckets = 2 ^ (m + 2)) (t : Nat) : h.nextBucket ((probing hash m).path key t)
    (t + 1) = (probing hash m).path key (t + 1) := by
  rw [nextBucket, buckets, Nat.and_two_pow_sub_one_eq_mod, sizeType,
    Nat.mod_mod_of_dvd _ (pow_dvd_pow 2 (by omega)), probing, triangular_succ]

end Paths

theorem same_path {hash : Key → BitVec 64} {equal : Key → Key → Bool}
    (lawful : Lawful hash equal) (m : Nat) (left right : Key) (equals : SameKey equal left right) :
    (probing hash m).path left = (probing hash m).path right := by
  funext t
  simp only [probing, Probing.triangular, lawful.same_hash left right equals]

section Tests

variable {hash : Key → BitVec 64} {equal : Key → Key → Bool} {m : Nat} {h : DenseHashtable Key T}
  {slots : Nat → Slot (Key × T)} {i : Nat} {key : Key}

theorem sound_room (sound : Sound hash equal m h slots) :
    occupied (2 ^ (m + 2)) slots < 2 ^ (m + 2) := by
  have below := sound.below
  rw [sound.elements] at below
  have positive : 0 < 2 ^ m := Nat.two_pow_pos m
  rw [Nat.pow_succ] at below ⊢
  rw [Nat.pow_succ] at below ⊢
  omega

theorem test_empty_eq (useEmpty : h.settings.useEmpty = true) {value : Key × T}
    (held : h.cell i = some value) (marks : Marks equal h value (slots i)) :
    h.testEmpty equal i = some (!(slots i).occupied) := by
  rw [testEmpty, if_pos useEmpty, held, Option.map_some]
  congr 1
  cases slot : slots i with
  | empty =>
      rw [slot] at marks
      exact marks
  | deleted =>
      rw [slot] at marks
      exact Bool.eq_false_iff.mpr marks.1
  | live entry =>
      rw [slot] at marks
      rcases marks with ⟨rfl, usable⟩
      exact Bool.eq_false_iff.mpr usable.1

theorem sound_value (sound : Sound hash equal m h slots) (bound : i < 2 ^ (m + 2)) :
    ∃ value, h.cell i = some value ∧ Marks equal h value (slots i) := sound.shows_.marks i bound

theorem sound_test_empty (sound : Sound hash equal m h slots) (bound : i < 2 ^ (m + 2)) :
    h.testEmpty equal i = some (!(slots i).occupied) := by
  rcases sound_value sound bound with ⟨value, held, marks⟩
  exact test_empty_eq sound.useEmpty held marks

theorem sound_live (sound : Sound hash equal m h slots) (bound : i < 2 ^ (m + 2)) {entry : Key × T}
    (slot : slots i = .live entry) : h.cell i = some entry ∧ Usable equal h entry.1 := by
  rcases sound_value sound bound with ⟨value, held, marks⟩
  rw [slot] at marks
  rcases marks with ⟨rfl, usable⟩
  exact ⟨held, usable⟩

theorem sound_counts (sound : Sound hash equal m h slots) (bound : i < 2 ^ (m + 2))
    (slot : slots i = .deleted) :
    0 < h.numDeleted := by
  have less := length_lt_occupied bound slot
  have counted := sound.deleted
  rw [sound.elements] at counted
  omega

/-- Without a deleted key nothing counts as deleted. -/
theorem sound_unused (sound : Sound hash equal m h slots) (unused : h.settings.useDeleted = false) :
    h.numDeleted = 0 := by
  have clean : ∀ i, i < 2 ^ (m + 2) → slots i ≠ .deleted := by
    intro i bound slot
    rcases sound_value sound bound with ⟨value, held, marks⟩
    rw [slot] at marks
    rcases marks with ⟨-, delkey, member, -⟩
    rw [(mem_delkey_of.mp member).1] at unused
    cases unused
  have counted := sound.deleted
  rw [sound.elements, occupied_eq_length clean] at counted
  omega

def isDeletedSlot : Slot (Key × T) → Bool
  | .deleted => true
  | _ => false

theorem sound_test_deleted (sound : Sound hash equal m h slots) (bound : i < 2 ^ (m + 2))
    (filled : slots i ≠ .empty) : h.testDeleted equal i = some (isDeletedSlot (slots i)) := by
  rcases sound_value sound bound with ⟨value, held, marks⟩
  rw [testDeleted, held, Option.bind_some, testDeletedKey]
  have defined : h.settings.useDeleted = true ∨ h.numDeleted = 0 := by
    cases used : h.settings.useDeleted with
    | true => exact Or.inl rfl
    | false => exact Or.inr (sound_unused sound used)
  rw [if_pos defined]
  cases slot : slots i with
  | empty => exact absurd slot filled
  | deleted =>
      rw [slot] at marks
      rcases marks with ⟨-, delkey, member, same⟩
      have used := mem_delkey_of.mp member
      rw [if_pos (sound_counts sound bound slot), used.2, Option.map_some]
      exact congrArg some same
  | live entry =>
      rw [slot] at marks
      rcases marks with ⟨rfl, usable⟩
      split_ifs with some_
      · have used : h.settings.useDeleted = true := by
          rcases defined with used | none_
          · exact used
          · omega
        rcases sound.reserved used with ⟨delkey, found, apart⟩
        rw [found, Option.map_some]
        exact congrArg some (Bool.eq_false_iff.mpr
          (usable.2 delkey (mem_delkey_of.mpr ⟨used, found⟩)))
      · rfl

theorem usable_key_eq (lawful : Lawful hash equal) (usable : Usable equal h key) :
    h.usableKey equal key = some () := by
  have emptyApart : equal key h.emptyval.1 = false := by
    apply Bool.eq_false_iff.mpr
    exact fun same => usable.1 (lawful.equivalence.symm same)
  have delApart : (!h.settings.useDeleted || !h.delkey.any (equal key ·)) = true := by
    cases used : h.settings.useDeleted with
    | false => rfl
    | true =>
        cases found : h.delkey with
        | none => rfl
        | some delkey =>
            have apart : equal key delkey = false := by
              apply Bool.eq_false_iff.mpr
              exact fun same => usable.2 delkey (mem_delkey_of.mpr ⟨used, found⟩)
                (lawful.equivalence.symm same)
            simp [apart]
  rw [usableKey, emptyApart, delApart]
  simp

end Tests

/-! ## The probes -/

section Probes

variable {hash : Key → BitVec 64} {equal : Key → Key → Bool} {m : Nat} {h : DenseHashtable Key T}
  {slots : Nat → Slot (Key × T)} {sought : Key}

/-- The first deleted slot among the first `t` of the path. -/
def SiteBefore (hash : Key → BitVec 64) (m : Nat) (slots : Nat → Slot (Key × T))
    (key : Key) (t : Nat) :
    Option Nat → Prop
  | none => ∀ s, s < t → slots ((probing hash m).path key s) ≠ .deleted
  | some site => ∃ s, s < t ∧ (probing hash m).path key s = site ∧ slots site = .deleted

/-- The loop of `find_position` passes over the buckets before the one where the search stops. -/
theorem find_position_skip (sound : Sound hash equal m h slots)
    (lawful : Lawful hash equal) {t : Nat} (bound : t < 2 ^ (m + 2))
    (passes : ∀ s, s < t → ¬ Stops (probing hash m) Prod.fst (SameKey equal) slots sought s) :
    ∃ insertPos, SiteBefore hash m slots sought t insertPos ∧
      ∀ fuel, h.findPositionFrom equal sought (t + fuel) 0 ((probing hash m).path sought 0) none =
        h.findPositionFrom equal sought fuel t ((probing hash m).path sought t) insertPos := by
  induction t with
  | zero =>
      refine ⟨none, fun s lower => absurd lower (by omega), fun fuel => ?_⟩
      rw [Nat.zero_add]
  | succ t ih =>
      rcases ih (by omega) (fun s lower => passes s (by omega)) with ⟨insertPos, site, reached⟩
      have inside := (probing hash m).path_lt sought t
      have goes := passes t (by omega)
      have filled : slots ((probing hash m).path sought t) ≠ .empty :=
        fun empty => goes (Or.inl empty)
      have isFull : (slots ((probing hash m).path sought t)).occupied = true := by
        cases slot : slots ((probing hash m).path sought t) with
        | empty => exact absurd slot filled
        | deleted => rfl
        | live entry => rfl
      have more : t + 1 < h.numBuckets := by rw [sound.buckets]; exact bound
      rcases sound_value sound inside with ⟨value, held, marks⟩
      have step : ∀ fuel, h.findPositionFrom equal sought (fuel + 1) t
          ((probing hash m).path sought t) insertPos =
          h.findPositionFrom equal sought fuel (t + 1) ((probing hash m).path sought (t + 1))
            (if isDeletedSlot (slots ((probing hash m).path sought t))
              then some (insertPos.getD ((probing hash m).path sought t)) else insertPos) := by
        intro fuel
        have passed : (!isDeletedSlot (slots ((probing hash m).path sought t)) &&
            equal sought value.1) = false := by
          cases slot : slots ((probing hash m).path sought t) with
          | empty => exact absurd slot filled
          | deleted => rfl
          | live entry =>
              rw [slot] at marks
              rcases marks with ⟨rfl, usable⟩
              apply Bool.eq_false_iff.mpr
              exact fun same => goes (Or.inr ⟨value, slot, lawful.equivalence.symm same⟩)
        rw [findPositionFrom, sound_test_empty sound inside, isFull,
          sound_test_deleted sound inside filled, held]
        simp only [Option.bind_eq_bind, Option.bind_some, Bool.not_true, Bool.false_eq_true,
          if_false, passed,
          next_bucket_eq hash m sought sound.small sound.buckets t, if_pos more]
      have onward : ∀ fuel, h.findPositionFrom equal sought (t + 1 + fuel) 0
          ((probing hash m).path sought 0) none =
          h.findPositionFrom equal sought fuel (t + 1) ((probing hash m).path sought (t + 1))
            (if isDeletedSlot (slots ((probing hash m).path sought t))
              then some (insertPos.getD ((probing hash m).path sought t)) else insertPos) := by
        intro fuel
        rw [show t + 1 + fuel = t + (fuel + 1) by omega, reached, step]
      refine ⟨_, ?_, onward⟩
      cases slot : slots ((probing hash m).path sought t) with
      | empty => exact absurd slot filled
      | deleted =>
          simp only [isDeletedSlot, if_true]
          cases insertPos with
          | none => exact ⟨t, by omega, rfl, slot⟩
          | some position =>
              rcases site with ⟨s, lower, here, isDeleted⟩
              exact ⟨s, by omega, here, isDeleted⟩
      | live entry =>
          simp only [isDeletedSlot, Bool.false_eq_true, if_false]
          cases insertPos with
          | none =>
              intro s lower isDeleted
              rcases Nat.lt_or_eq_of_le (Nat.le_of_lt_succ lower) with earlier | now
              · exact site s earlier isDeleted
              · rw [now, slot] at isDeleted
                cases isDeleted
          | some position =>
              rcases site with ⟨s, lower, here, isDeleted⟩
              exact ⟨s, by omega, here, isDeleted⟩

/-- The bucket that a new key would be put in. -/
structure Vacant (hash : Key → BitVec 64) (m : Nat) (slots : Nat → Slot (Key × T)) (key : Key)
    (pos : Nat) :
    Prop where
  free : (slots pos).content = none
  onPath : ∃ t, t < 2 ^ (m + 2) ∧ (probing hash m).path key t = pos ∧
    ∀ s, s < t → slots ((probing hash m).path key s) ≠ .empty

/-- `find_position` comes to the bucket of the key, or to a place for it when no value has the
key. -/
theorem find_position_eq (sound : Sound hash equal m h slots) (lawful : Lawful hash equal)
    (sought : Key) :
    (∃ pos, h.findPosition equal hash sought = some (none, some pos) ∧
      Vacant hash m slots sought pos ∧
      ∀ entry ∈ entries (2 ^ (m + 2)) slots, ¬ SameKey equal entry.1 sought) ∨
    ∃ pos entry, h.findPosition equal hash sought = some (some pos, none) ∧ pos < 2 ^ (m + 2) ∧
      slots pos = .live entry ∧ SameKey equal entry.1 sought := by
  rcases stop_exists (probing hash m) Prod.fst (SameKey equal) (sound_room sound) sought with
    ⟨t, bound, stops, first⟩
  have inside := (probing hash m).path_lt sought t
  rcases find_position_skip sound lawful bound first with ⟨insertPos, site, reached⟩
  obtain ⟨fuel, enough⟩ : ∃ fuel, 2 ^ (m + 2) = t + (fuel + 1) := ⟨2 ^ (m + 2) - t - 1, by omega⟩
  have started : h.findPosition equal hash sought =
      h.findPositionFrom equal sought (fuel + 1) t ((probing hash m).path sought t) insertPos := by
    rw [findPosition, show h.numBuckets = t + (fuel + 1) by rw [sound.buckets, enough],
      first_bucket_eq hash m sought sound.buckets]
    exact reached (fuel + 1)
  rw [findPositionFrom, sound_test_empty sound inside] at started
  rcases stops with empty | ⟨entry, slot, equals⟩
  · left
    have absent := absent_of_empty sound.placed (same_path lawful m) first empty
    rw [empty] at started
    refine ⟨_, started, ?_, absent⟩
    have nonempty : ∀ s, s < t → slots ((probing hash m).path sought s) ≠ .empty :=
      fun s lower isEmpty => first s lower (Or.inl isEmpty)
    cases insertPos with
    | none => exact ⟨by rw [Option.getD_none, empty]; rfl, t, bound, rfl, nonempty⟩
    | some position =>
        rcases site with ⟨s, lower, here, isDeleted⟩
        exact ⟨by rw [Option.getD_some, isDeleted]; rfl, s, by omega, here,
          fun r before => nonempty r (by omega)⟩
  · right
    have filled : slots ((probing hash m).path sought t) ≠ .empty := by rw [slot]; simp
    have matches_ : equal sought entry.1 = true := lawful.equivalence.symm equals
    rw [sound_test_deleted sound inside filled, (sound_live sound inside slot).1, slot] at started
    simp only [Slot.occupied, isDeletedSlot, Bool.not_true, Option.bind_eq_bind, Option.bind_some,
      Bool.false_eq_true, if_false, Bool.not_false, Bool.true_and, matches_, if_true] at started
    exact ⟨_, entry, started, inside, slot, equals⟩

theorem size_eq (sound : Sound hash equal m h slots) :
    h.size = (entries (2 ^ (m + 2)) slots).length := by
  have counted := sound.deleted
  rw [size]
  omega

theorem find_eq (sound : Sound hash equal m h slots) (lawful : Lawful hash equal) (sought : Key) :
    (h.find equal hash sought = some h.numBuckets ∧
      ∀ entry ∈ entries (2 ^ (m + 2)) slots, ¬ SameKey equal entry.1 sought) ∨
    ∃ pos entry, h.find equal hash sought = some pos ∧ pos < 2 ^ (m + 2) ∧ slots pos = .live entry ∧
      SameKey equal entry.1 sought := by
  unfold find
  split_ifs with nothing
  · left
    rw [size_eq sound, List.length_eq_zero_iff] at nothing
    rw [nothing]
    exact ⟨rfl, fun entry member => absurd member List.not_mem_nil⟩
  · rcases find_position_eq sound lawful sought with ⟨pos, found, -, absent⟩ | ⟨pos, entry, found,
      bound, slot, same⟩
    · left
      rw [found]
      exact ⟨rfl, absent⟩
    · right
      rw [found]
      exact ⟨pos, entry, rfl, bound, slot, same⟩

end Probes

end TWlib.DenseTableSearch
