import TWlib.KHashResize

/-!
# The hash table as a collection of keys with values

`Represents h pairs` forgets where the entries stand. The functions of the table
are followed at this level: a search finds the pair of the key or there is none,
a put adds a pair and makes room first, a deletion removes one.
-/

namespace TWlib.KHashPairs

open TWlib.Lib.PackedFlags TWlib.Lib.OpenAddressing TWlib.Lib.FiniteMap TWlib.KHashTable
  TWlib.KHashSearch TWlib.KHashUpdate TWlib.KHashResize

set_option autoImplicit false

variable {Key : Type} {hash : Key → BitVec 32} {equal : Key → Key → Bool} {h : KhA Key}
  {pairs : List (Key × Nat)}

/-- A table that was not resized yet has no buckets. -/
def Represents (hash : Key → BitVec 32) (equal : Key → Key → Bool) (h : KhA Key)
    (pairs : List (Key × Nat)) :
    Prop :=
  (h = khInit ∧ pairs = []) ∨
    ∃ m table, Sound hash equal m h table ∧ (entries (2 ^ (m + 2)) table).Perm pairs

theorem represents_perm (held : Represents hash equal h pairs) {others : List (Key × Nat)}
    (perm : pairs.Perm others) : Represents hash equal h others := by
  rcases held with ⟨fresh, none_⟩ | ⟨m, table, sound, all⟩
  · rw [none_] at perm
    exact Or.inl ⟨fresh, perm.nil_eq.symm⟩
  · exact Or.inr ⟨m, table, sound, all.trans perm⟩

theorem represents_size (held : Represents hash equal h pairs) : h.size = pairs.length := by
  rcases held with ⟨fresh, none_⟩ | ⟨m, table, sound, all⟩
  · rw [fresh, none_]
    rfl
  · rw [sound.size, all.length_eq]

theorem represents_clear (held : Represents hash equal h pairs) {keys : List (Option Key)}
    (length : keys.length = h.keys.length) :
    Represents hash equal (khClear { h with keys }) [] := by
  rcases held with ⟨fresh, none_⟩ | ⟨m, table, sound, all⟩
  · rw [fresh] at length ⊢
    rw [List.eq_nil_of_length_eq_zero length]
    exact Or.inl ⟨rfl, rfl⟩
  · refine Or.inr ⟨m, _, kh_clear_eq sound length, ?_⟩
    rw [entries_nil fun i bound => rfl]

/-! ## Searching -/

/-- A bucket that holds a pair: the other pairs are `rest`. -/
structure Bucket (hash : Key → BitVec 32) (equal : Key → Key → Bool) (h : KhA Key) (x : Nat)
    (pair : Key × Nat) (rest : List (Key × Nat)) : Prop where
  inside : x ≠ h.nBuckets
  value : cellAt h.vals x = some pair.2
  delete : ∃ after, khDel h x = some after ∧ Represents hash equal after rest
  overwrite : ∀ val, ∃ vals, setCell h.vals x val = some vals ∧
    Represents hash equal { h with vals } ((pair.1, val) :: rest)

theorem kh_get_cases (held : Represents hash equal h pairs) (lawful : Lawful hash equal)
    (key : Key) :
    (khGet equal hash h key = some h.nBuckets ∧ ∀ pair ∈ pairs, ¬ SameKey equal pair.1 key) ∨
    ∃ x pair rest, khGet equal hash h key = some x ∧ SameKey equal pair.1 key ∧
      pairs.Perm (pair :: rest) ∧ Bucket hash equal h x pair rest := by
  rcases held with ⟨fresh, none_⟩ | ⟨m, table, sound, all⟩
  · left
    rw [fresh, none_]
    exact ⟨rfl, fun pair member => by cases member⟩
  · rcases kh_get_eq sound lawful key with ⟨missed, absent⟩ | ⟨x, pair, found, inside, here, equals⟩
    · exact Or.inl ⟨missed, fun pair member => absent pair (all.mem_iff.mpr member)⟩
    · right
      rcases kh_del_eq sound lawful inside here with ⟨after, tableAfter, deleted, soundAfter, split⟩
      refine ⟨x, pair, entries (2 ^ (m + 2)) tableAfter, found, equals, all.symm.trans split, ?_⟩
      exact {
        inside := by
          rw [sound.buckets]
          omega
        value := sound.stored.val x pair inside here
        delete := ⟨after, deleted, Or.inr ⟨m, tableAfter, soundAfter, List.Perm.refl _⟩⟩
        overwrite := by
          intro val
          rcases overwrite_eq sound lawful inside here val with
            ⟨vals, tableNew, rest, valSet, soundNew, before, changed⟩
          have sameRest := (before.symm.trans split).cons_inv
          exact ⟨vals, valSet, Or.inr ⟨m, tableNew, soundNew, changed.trans (sameRest.cons _)⟩⟩ }

/-! ## Adding -/

theorem resize_sound {m k : Nat} {table : Nat → Slot (Key × Nat)}
    (sound : Sound hash equal m h table) (lawful : Lawful hash equal) (small : k ≤ 29)
    {request : Nat} (target : (if kroundup32 request < 4 then 4 else kroundup32 request) =
      2 ^ (k + 2))
    (loose : h.size < acHashUpper (2 ^ (k + 2))) :
    ∃ after tableAfter, khResize hash h request = some after ∧ Sound hash equal k after tableAfter ∧
      (entries (2 ^ (k + 2)) tableAfter).Perm (entries (2 ^ (m + 2)) table) ∧
      after.nOccupied < after.upperBound := by
  have shows_ := sound.flags
  have stored := sound.stored
  have distinct := sound.placed.distinct
  have counted := sound.size
  rw [← sound.buckets] at shows_ stored distinct counted ⊢
  exact kh_resize_eq lawful.equivalence.stdSymm small target shows_ stored distinct counted loose

/-- The counters allow `kh_put_A` to add a key: there is room, or rehashing makes some. -/
def CanGrow (h : KhA Key) : Prop :=
  h.nBuckets < 2 ^ 31 ∨ h.nOccupied < h.upperBound ∨ h.nBuckets > khint (h.size <<< 1)

/-- The size that `kh_put_A` asks for always has room: a table that is more than half free is
rehashed as it is, any other one is doubled. -/
theorem room_request {m : Nat} {table : Nat → Slot (Key × Nat)} (sound : Sound hash equal m h table)
    (bounded : h.nBuckets < 2 ^ 31 ∨ h.nBuckets > khint (h.size <<< 1)) :
    ∃ request, (if h.nBuckets > khint (h.size <<< 1) then
          khResize hash h (khint (h.nBuckets + (2 ^ 32 - 1)))
        else khResize hash h (khint (h.nBuckets + 1))) = khResize hash h request ∧
      1 ≤ request ∧ request ≤ 2 ^ 31 ∧ ∀ k, request ≤ 2 ^ (k + 2) →
      h.size < acHashUpper (2 ^ (k + 2)) := by
  have large := buckets_ge m
  rcases sound_counts sound with ⟨sizeSmall, occupiedSmall, fits⟩
  have doubled : khint (h.size <<< 1) = 2 * h.size := by
    rw [Nat.shiftLeft_eq, khint]
    omega
  rw [doubled] at bounded ⊢
  rw [sound.buckets] at bounded ⊢
  by_cases sparse : 2 ^ (m + 2) > 2 * h.size
  · have less : khint (2 ^ (m + 2) + (2 ^ 32 - 1)) = 2 ^ (m + 2) - 1 := by
      unfold khint
      omega
    rw [if_pos sparse, less]
    refine ⟨2 ^ (m + 2) - 1, rfl, by omega, by omega, fun k enough => ?_⟩
    have wide := buckets_ge k
    unfold acHashUpper
    omega
  · have more : khint (2 ^ (m + 2) + 1) = 2 ^ (m + 2) + 1 := Nat.mod_eq_of_lt (by omega)
    rw [if_neg sparse, more]
    refine ⟨2 ^ (m + 2) + 1, rfl, by omega, by omega, fun k enough => ?_⟩
    have higher : m + 1 ≤ k := by
      by_contra lower
      have less : 2 ^ (k + 2) ≤ 2 ^ (m + 2) := Nat.pow_le_pow_right (by decide) (by omega)
      omega
    have twice : 2 ^ (m + 3) ≤ 2 ^ (k + 2) := Nat.pow_le_pow_right (by decide) (by omega)
    have step : 2 ^ (m + 3) = 2 * 2 ^ (m + 2) := by rw [Nat.pow_succ, Nat.mul_comm]
    have filled : h.size ≤ acHashUpper (2 ^ (m + 2)) := by
      rw [← sound.upper, sound.size]
      apply Nat.le_trans length_le_occupied
      rw [← sound.occupied]
      exact sound.below
    unfold acHashUpper at filled ⊢
    omega

theorem resize_init (lawful : Lawful hash equal) {request : Nat} (positive : 1 ≤ request)
    (fits : request ≤ 2 ^ 31) :
    ∃ after m table, khResize hash khInit request = some after ∧ Sound hash equal m after table ∧
      (entries (2 ^ (m + 2)) table).Perm [] ∧ after.nOccupied < after.upperBound := by
  rcases resize_target positive fits with ⟨m, small, target, enough⟩
  have large := buckets_ge m
  have loose : 0 < acHashUpper (2 ^ (m + 2)) := by
    unfold acHashUpper
    omega
  have noShows : Shows (khInit : KhA Key).flags (khInit : KhA Key).nBuckets
      fun i => mark ((fun _ => Slot.empty : Nat → Slot (Key × Nat)) i) :=
    fun i bound => absurd bound (Nat.not_lt_zero i)
  rcases kh_resize_eq (h := khInit) lawful.equivalence.stdSymm small target noShows
    (stored_fresh (Nat.zero_le _) (Nat.zero_le _)) List.Pairwise.nil rfl loose with
    ⟨after, table, resized, sound, perm, room⟩
  exact ⟨after, m, table, resized, sound, perm, room⟩

/-- After the resizing at the start of `kh_put_A` the table takes another key. -/
theorem kh_make_room_eq (held : Represents hash equal h pairs) (lawful : Lawful hash equal)
    (bounded : CanGrow h) :
    ∃ after m table, khMakeRoom hash h = some after ∧ Sound hash equal m after table ∧
      (entries (2 ^ (m + 2)) table).Perm pairs ∧ after.nOccupied < after.upperBound := by
  rcases held with ⟨fresh, none_⟩ | ⟨m, table, sound, all⟩
  · rw [fresh, none_]
    rcases resize_init lawful (Nat.le_refl 1) (by decide) with ⟨after, m, table, resized,
      sound, perm, room⟩
    have asked : khMakeRoom hash (khInit : KhA Key) = khResize hash khInit 1 := by
      simp [khMakeRoom, khInit, khint]
    exact ⟨after, m, table, asked.trans resized, sound, perm, room⟩
  · by_cases full : h.nOccupied ≥ h.upperBound
    · have canRehash : h.nBuckets < 2 ^ 31 ∨ h.nBuckets > khint (h.size <<< 1) := by
        rcases bounded with few | room | sparse
        · exact Or.inl few
        · omega
        · exact Or.inr sparse
      rcases room_request sound canRehash with ⟨request, asked, positive, fits, loose⟩
      rcases resize_target positive fits with ⟨k, small, target, enough⟩
      rcases resize_sound sound lawful small target (loose k enough) with
        ⟨after, tableAfter, resized, soundAfter, perm, room⟩
      refine ⟨after, k, tableAfter, ?_, soundAfter, perm.trans all, room⟩
      rw [khMakeRoom, if_pos full, asked, resized]
    · refine ⟨h, m, table, ?_, sound, all, by omega⟩
      rw [khMakeRoom, if_neg full]

theorem kh_put_eq (held : Represents hash equal h pairs) (lawful : Lawful hash equal)
    (bounded : CanGrow h) {key : Key} (absent : ∀ pair ∈ pairs, ¬ SameKey equal pair.1 key) :
    ∃ after x ret, khPut equal hash h key = some (after, x, ret) ∧
      ∀ val, ∃ vals, setCell after.vals x val = some vals ∧
        Represents hash equal { after with vals } ((key, val) :: pairs) := by
  rcases kh_make_room_eq held lawful bounded with ⟨roomy, m, table, made, sound, all, room⟩
  have missing : ∀ entry ∈ entries (2 ^ (m + 2)) table, ¬ SameKey equal entry.1 key :=
    fun entry member => absent entry (all.mem_iff.mp member)
  rcases kh_put_bucket_eq sound missing with ⟨t, bound, decided, filled, free⟩
  rcases kh_occupy_eq sound lawful room missing bound filled free with ⟨after, ret, occupied, set⟩
  refine ⟨after, (probing hash m).path key t, ret, ?_, fun val => ?_⟩
  · simp [khPut, made, decided, occupied]
  · rcases set val with ⟨vals, valSet, tableAfter, soundAfter, perm⟩
    exact ⟨vals, valSet, Or.inr ⟨m, tableAfter, soundAfter, perm.trans (all.cons _)⟩⟩

end TWlib.KHashPairs
