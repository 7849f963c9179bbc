import TWlib.KHashPairs
import Mathlib.Data.List.Pairwise

/-!
# What a resizing of the table preserves

The slots are read off the arrays themselves here, so that two tables can be
compared without knowing how either came about. How the slots of the table that is
rehashed are arranged makes no difference.
-/

namespace TWlib.KHashRehash

open TWlib.Lib.PackedFlags TWlib.Lib.OpenAddressing TWlib.Lib.FiniteMap TWlib.KHashTable
  TWlib.KHashSearch TWlib.KHashResize

set_option autoImplicit false

variable {Key : Type} {hash : Key → BitVec 32} {equal : Key → Key → Bool} {m : Nat}
  {h after : KhA Key} {table : Nat → Slot (Key × Nat)}

/-! ## The slots of a table -/

def slotAt (h : KhA Key) (i : Nat) : Slot (Key × Nat) :=
  match acIsempty h.flags i, acIsdel h.flags i, cellAt h.keys i, cellAt h.vals i with
  | some false, some false, some key, some val => .live (key, val)
  | some false, _, _, _ => .deleted
  | _, _, _, _ => .empty

def livePairs (h : KhA Key) : List (Key × Nat) := entries h.nBuckets (slotAt h)

/-- The flags are packed for all buckets, the live buckets have a key and a value, no two the same
key. -/
structure WellFormed (equal : Key → Key → Bool) (h : KhA Key) : Prop where
  flags : Shows h.flags h.nBuckets fun i => mark (slotAt h i)
  stored : Stored h.keys h.vals h.nBuckets (slotAt h)
  distinct : (livePairs h).Pairwise fun left right => ¬ SameKey equal left.1 right.1
  size : h.size = (livePairs h).length

/-- `new_n_buckets` after `kroundup32`, and at least 4. -/
def newCapacity (request : Nat) : Nat := if kroundup32 request < 4 then 4 else kroundup32 request

structure Preserves (hash : Key → BitVec 32) (equal : Key → Key → Bool)
    (h after : KhA Key) : Prop where
  pairs : (livePairs after).Perm (livePairs h)
  formed : WellFormed equal after
  size : after.size = h.size
  occupied : after.nOccupied = after.size
  found : ∀ pair ∈ livePairs h, ∃ x, khGet equal hash after pair.1 = some x ∧ x < after.nBuckets ∧
    slotAt after x = .live pair
  absent : ∀ key, (∀ pair ∈ livePairs h, ¬ SameKey equal pair.1 key) →
    khGet equal hash after key = some after.nBuckets

/-- Whatever the arrays hold, the slots read off them are those they hold. -/
theorem slot_at_eq {n i : Nat} (shows_ : Shows h.flags n fun i => mark (table i))
    (stored : Stored h.keys h.vals n table) (bound : i < n) : slotAt h i = table i := by
  have isEmpty := ac_isempty_eq shows_ bound
  have isDel := ac_isdel_eq shows_ bound
  cases slot : table i with
  | empty =>
      rw [slot] at isEmpty
      simp [slotAt, isEmpty, mark]
  | deleted =>
      rw [slot] at isEmpty isDel
      simp [slotAt, isEmpty, isDel, mark]
  | live entry =>
      rw [slot] at isEmpty isDel
      simp [slotAt, isEmpty, isDel, mark, stored.key i entry bound slot,
        stored.val i entry bound slot]

theorem live_pairs_eq (shows_ : Shows h.flags h.nBuckets fun i => mark (table i))
    (stored : Stored h.keys h.vals h.nBuckets table) : livePairs h = entries h.nBuckets table := by
  apply entries_congr
  intro i bound
  exact slot_at_eq shows_ stored bound

theorem well_formed_of_sound (sound : Sound hash equal m h table) :
    livePairs h = entries (2 ^ (m + 2)) table ∧ WellFormed equal h := by
  have shows_ := sound.flags
  have stored := sound.stored
  rw [← sound.buckets] at shows_ stored
  have same : ∀ i, i < h.nBuckets → slotAt h i = table i :=
    fun i bound => slot_at_eq shows_ stored bound
  have pairs : livePairs h = entries (2 ^ (m + 2)) table := by
    rw [live_pairs_eq shows_ stored, sound.buckets]
  refine ⟨pairs, ?_⟩
  exact {
    flags := by
      apply shows_congr shows_
      intro i bound
      rw [same i bound]
    stored := {
      keys_length := stored.keys_length
      vals_length := stored.vals_length
      key := fun i entry bound slot => stored.key i entry bound ((same i bound).symm.trans slot)
      val := fun i entry bound slot => stored.val i entry bound ((same i bound).symm.trans slot) }
    distinct := by
      rw [pairs]
      exact sound.placed.distinct
    size := by
      rw [pairs]
      exact sound.size }

/-! ## The capacity -/

/-- Every request is answered with a capacity that `khint_t` can count. -/
theorem new_capacity_eq (request : Nat) : ∃ m, m ≤ 29 ∧ newCapacity request = 2 ^ (m + 2) := by
  by_cases large : 2 ^ 31 ≤ khint (request + (2 ^ 32 - 1))
  · refine ⟨0, by omega, ?_⟩
    rw [newCapacity, kroundup32_large large]
    rfl
  · have bits : khint (request + (2 ^ 32 - 1)) < 2 ^ 31 := by omega
    have same : kroundup32 request = kroundup32 (khint (request + (2 ^ 32 - 1)) + 1) := by
      apply kroundup32_congr
      simp only [khint] at bits ⊢
      omega
    rcases resize_target (Nat.le_add_left 1 _) bits with ⟨m, small, target, _⟩
    refine ⟨m, small, ?_⟩
    rw [newCapacity, same]
    exact target

/-! ## The resizing -/

theorem entry_unique (lawful : Lawful hash equal) {pairs : List (Key × Nat)}
    (distinct : pairs.Pairwise fun left right => ¬ SameKey equal left.1 right.1)
    {left right : Key × Nat} (first : left ∈ pairs) (second : right ∈ pairs)
    (equals : SameKey equal left.1 right.1) : left = right := by
  have symmetric : Std.Symm fun left right : Key × Nat => ¬ SameKey equal left.1 right.1 :=
    ⟨fun _ _ differ other => differ (lawful.equivalence.symm other)⟩
  by_contra differ
  exact distinct.forall first second differ equals

theorem found_of_sound (lawful : Lawful hash equal) (sound : Sound hash equal m h table)
    {pair : Key × Nat} (member : pair ∈ livePairs h) :
    ∃ x, khGet equal hash h pair.1 = some x ∧ x < h.nBuckets ∧ slotAt h x = .live pair := by
  have pairs := (well_formed_of_sound sound).1
  rw [pairs] at member
  rcases kh_get_eq sound lawful pair.1 with ⟨_, absent⟩ | ⟨x, entry, got, inside, here, equals⟩
  · exact absurd (lawful.equivalence.refl pair.1) (absent pair member)
  · have same : entry = pair :=
      entry_unique lawful sound.placed.distinct (mem_entries.mpr ⟨x, inside, here⟩) member equals
    refine ⟨x, got, sound.buckets ▸ inside, ?_⟩
    rw [slot_at_eq sound.flags sound.stored inside, here, same]

theorem absent_of_sound (lawful : Lawful hash equal)
    (sound : Sound hash equal m h table) {key : Key}
    (absent : ∀ pair ∈ livePairs h, ¬ SameKey equal pair.1 key) :
    khGet equal hash h key = some h.nBuckets := by
  rcases kh_get_eq sound lawful key with ⟨missed, _⟩ | ⟨x, entry, got, inside, here, equals⟩
  · exact missed
  · have member : entry ∈ livePairs h := by
      rw [(well_formed_of_sound sound).1]
      exact mem_entries.mpr ⟨x, inside, here⟩
    exact absurd equals (absent entry member)

theorem kh_resize_occupied {request : Nat} (loose : h.size < acHashUpper (newCapacity request))
    (resized : khResize hash h request = some after) : after.nOccupied = after.size := by
  have carried : ¬ h.size ≥ acHashUpper (newCapacity request) := Nat.not_le.mpr loose
  simp only [khResize] at resized
  change (if h.size ≥ acHashUpper (newCapacity request) then some h else _) = some after at resized
  rw [if_neg carried] at resized
  rcases Option.bind_eq_some_iff.mp resized with ⟨⟨rehashed, newFlags⟩, _, done⟩
  cases done
  rfl

/-- Four buckets: one deleted, two live, one empty. -/
def tombstone : KhA Nat where
  nBuckets := 4
  size := 2
  nOccupied := 3
  upperBound := 3
  flags := [0xaaaaaa81#32]
  keys := [some 1, some 5, some 9, none]
  vals := [some 0, some 1, some 2, none]

private theorem below_four {i : Nat} (bound : i < tombstone.nBuckets) :
    i = 0 ∨ i = 1 ∨ i = 2 ∨ i = 3 := by
  change i < 4 at bound
  omega

theorem tombstone_well_formed : WellFormed (fun left right => left == right) tombstone where
  flags := by
    intro i bound
    rcases below_four bound with rfl | rfl | rfl | rfl <;> rfl
  stored := {
    keys_length := by decide
    vals_length := by decide
    key := by
      intro i entry bound slot
      rcases below_four bound with rfl | rfl | rfl | rfl <;> cases slot <;> rfl
    val := by
      intro i entry bound slot
      rcases below_four bound with rfl | rfl | rfl | rfl <;> cases slot <;> rfl }
  distinct := by
    have pairs : livePairs tombstone = [(5, 1), (9, 2)] := rfl
    rw [pairs]
    simp [SameKey]
  size := rfl

end TWlib.KHashRehash
