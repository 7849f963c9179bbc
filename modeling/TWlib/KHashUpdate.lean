import TWlib.KHashSearch

/-!
# Changing the hash table in place

A new key goes to the last deleted bucket on its path, or to the empty bucket
where its search ends; a removal leaves a deleted bucket; a value is overwritten
where it stands. Each keeps the table sound, with the entries it should have.
-/

namespace TWlib.KHashUpdate

open TWlib.Lib.PackedFlags TWlib.Lib.OpenAddressing TWlib.Lib.FiniteMap TWlib.KHashTable
    TWlib.KHashSearch

set_option autoImplicit false

variable {Key : Type} {hash : Key → BitVec 32} {equal : Key → Key → Bool} {m : Nat} {h : KhA Key}
  {table : Nat → Slot (Key × Nat)} {key : Key}

/-! ## The bucket for a new key -/

/-- What `site` holds when the loop of `kh_put_A` comes to step `t`. -/
def SiteBefore (hash : Key → BitVec 32) (m : Nat) (table : Nat → Slot (Key × Nat)) (key : Key)
    (t site : Nat) :
    Prop :=
  site = 2 ^ (m + 2) ∨ ∃ u, u < t ∧ site = (probing hash m).path key u ∧
    mark (table site) = .deleted

theorem kh_put_from_skip (sound : Sound hash equal m h table) {t : Nat} (bound : t < 2 ^ (m + 2))
    (passes : ∀ s, s < t → ¬ Stops (probing hash m) Prod.fst (SameKey equal) table key s)
    (fuel : Nat) :
    ∃ site, SiteBefore hash m table key t site ∧
      khPutFrom equal h key (2 ^ (m + 2) - 1) (acInc (hash key).toNat (2 ^ (m + 2) - 1))
          ((probing hash m).path key 0) (t + fuel) ((probing hash m).path key 0) (2 ^ (m + 2)) =
        khPutFrom equal h key (2 ^ (m + 2) - 1) (acInc (hash key).toNat (2 ^ (m + 2) - 1))
          ((probing hash m).path key 0) fuel ((probing hash m).path key t) site := by
  induction t generalizing fuel with
  | zero => exact ⟨2 ^ (m + 2), Or.inl rfl, by rw [Nat.zero_add]⟩
  | succ t ih =>
      rcases ih (by omega) (fun s lower => passes s (by omega)) (fuel + 1) with ⟨site,
        before, reached⟩
      have on := (probes_on_goes sound (passes t (by omega))).1
      have inside := (probing hash m).path_lt key t
      refine ⟨if mark (table ((probing hash m).path key t)) =
        .deleted then (probing hash m).path key t
        else site, ?_, ?_⟩
      · split_ifs with deleted
        · exact Or.inr ⟨t, by omega, rfl, deleted⟩
        · rcases before with none_ | ⟨u, lower, same, deleted⟩
          · exact Or.inl none_
          · exact Or.inr ⟨u, by omega, same, deleted⟩
      · rw [show t + 1 + fuel = t + (fuel + 1) by omega, reached]
        simp only [khPutFrom, on, Option.bind_eq_bind, Option.bind_some, if_true,
          ac_isdel_eq sound.flags inside, probe_next hash m key sound.small,
          if_neg (probe_not_last hash m key bound), decide_eq_true_eq]

/-- `kh_put_A` decides on a bucket that is free, with no empty bucket before it on the path. -/
theorem kh_put_bucket_eq (sound : Sound hash equal m h table)
    (absent : ∀ entry ∈ entries (2 ^ (m + 2)) table, ¬ SameKey equal entry.1 key) :
    ∃ t, t < 2 ^ (m + 2) ∧ khPutBucket equal hash h key = some ((probing hash m).path key t) ∧
      (∀ s, s < t → table ((probing hash m).path key s) ≠ .empty) ∧
      (table ((probing hash m).path key t)).content = none := by
  rcases stop_exists (probing hash m) Prod.fst (SameKey equal) (sound_room sound) key with
    ⟨t, bound, stops, first⟩
  have inside := (probing hash m).path_lt key t
  have empty : table ((probing hash m).path key t) = .empty := by
    rcases stops with empty | ⟨entry, slot, equals⟩
    · exact empty
    · exact absurd equals (absent entry (mem_entries.mpr ⟨_, inside, slot⟩))
  have filled : ∀ s, s < t → table ((probing hash m).path key s) ≠ .empty :=
    fun s lower => (probes_on_goes sound (first s lower)).2
  have start := (probing hash m).path_lt key 0
  simp only [khPutBucket, sound.buckets, probe_start, ac_isempty_eq sound.flags start,
    Option.bind_eq_bind, Option.bind_some, decide_eq_true_eq]
  by_cases fast : mark (table ((probing hash m).path key 0)) = .empty
  · have startEmpty : table ((probing hash m).path key 0) = .empty := by
      cases slot : table ((probing hash m).path key 0) with
      | empty => rfl
      | deleted => rw [slot] at fast; cases fast
      | live entry => rw [slot] at fast; cases fast
    rw [if_pos fast]
    exact ⟨0, by omega, rfl, fun s lower => by omega, by rw [startEmpty]; rfl⟩
  · rw [if_neg fast]
    obtain ⟨fuel, enough⟩ : ∃ fuel, 2 ^ (m + 2) = t + (fuel + 1) := ⟨2 ^ (m + 2) - t - 1, by omega⟩
    rcases kh_put_from_skip sound bound first (fuel + 1) with ⟨site, before, reached⟩
    rw [← enough] at reached
    rw [reached]
    simp only [khPutFrom, probes_on_stops sound stops, Option.bind_eq_bind, Option.bind_some,
      Bool.false_eq_true, if_false, sound.buckets, if_true, ac_isempty_eq sound.flags inside,
      empty, mark,
      decide_true, Bool.true_and, bne_iff_ne, ne_eq]
    rcases before with none_ | ⟨u, lower, same, deleted⟩
    · rw [if_neg (by simpa using none_)]
      exact ⟨t, bound, rfl, filled, by rw [empty]; rfl⟩
    · have siteInside := (probing hash m).path_lt key u
      rw [if_pos (by rw [same]; omega), same]
      refine ⟨u, by omega, rfl, fun s early => filled s (by omega), ?_⟩
      rw [same] at deleted
      cases slot : table ((probing hash m).path key u) with
      | empty => rfl
      | deleted => rfl
      | live entry => rw [slot] at deleted; cases deleted

/-! ## The cells -/

section Cells

variable {keys : List (Option Key)} {vals : List (Option Nat)} {n i : Nat}

theorem stored_live (stored : Stored keys vals n table) {keysAfter : List (Option Key)}
    {valsAfter : List (Option Nat)} {val : Nat} (keySet : setCell keys i key = some keysAfter)
    (valSet : setCell vals i val = some valsAfter) :
    Stored keysAfter valsAfter n (Function.update table i (.live (key, val))) where
  keys_length := (cell_at_set (j := i) keySet).1 ▸ stored.keys_length
  vals_length := (cell_at_set (j := i) valSet).1 ▸ stored.vals_length
  key j entry bound found := by
    rw [(cell_at_set keySet).2]
    by_cases here : j = i
    · subst here
      rw [Function.update_self] at found
      cases found
      rw [if_pos rfl]
    · rw [Function.update_of_ne here] at found
      rw [if_neg here]
      exact stored.key j entry bound found
  val j entry bound found := by
    rw [(cell_at_set valSet).2]
    by_cases here : j = i
    · subst here
      rw [Function.update_self] at found
      cases found
      rw [if_pos rfl]
    · rw [Function.update_of_ne here] at found
      rw [if_neg here]
      exact stored.val j entry bound found

theorem stored_dead (stored : Stored keys vals n table) {slot : Slot (Key × Nat)}
    (dead : slot.content = none) : Stored keys vals n (Function.update table i slot) where
  keys_length := stored.keys_length
  vals_length := stored.vals_length
  key j entry bound found := by
    by_cases here : j = i
    · subst here
      rw [Function.update_self] at found
      rw [found] at dead
      cases dead
    · rw [Function.update_of_ne here] at found
      exact stored.key j entry bound found
  val j entry bound found := by
    by_cases here : j = i
    · subst here
      rw [Function.update_self] at found
      rw [found] at dead
      cases dead
    · rw [Function.update_of_ne here] at found
      exact stored.val j entry bound found

/-- A key written over itself changes nothing. -/
theorem stored_value (stored : Stored keys vals n table) {valsAfter : List (Option Nat)} {val : Nat}
    {entry : Key × Nat} (bound : i < n) (here : table i = .live entry)
    (valSet : setCell vals i val = some valsAfter) :
    Stored keys valsAfter n (Function.update table i (.live (entry.1, val))) := by
  have inside : i < keys.length := Nat.lt_of_lt_of_le bound stored.keys_length
  have cell := stored.key i entry bound here
  have same : setCell keys i entry.1 = some keys := by
    have content : keys[i] = some entry.1 := by
      simpa [cellAt, List.getElem?_eq_getElem inside] using cell
    rw [setCell, if_pos inside, ← content, List.set_getElem_self]
  exact stored_live stored same valSet

end Cells

/-! ## Occupying, deleting, overwriting -/

theorem sound_counts (sound : Sound hash equal m h table) :
    h.size < 2 ^ 31 ∧ h.nOccupied < 2 ^ 31 ∧ 2 ^ (m + 2) ≤ 2 ^ 31 := by
  have fits : 2 ^ (m + 2) ≤ 2 ^ 31 :=
    Nat.pow_le_pow_right (by decide) (by have := sound.small; omega)
  have room := sound_room sound
  have fewer : (entries (2 ^ (m + 2)) table).length ≤ occupied (2 ^ (m + 2)) table :=
    length_le_occupied
  rw [sound.size, sound.occupied]
  omega

theorem kh_occupy_eq (sound : Sound hash equal m h table) (lawful : Lawful hash equal)
    (room : h.nOccupied < h.upperBound)
    (absent : ∀ entry ∈ entries (2 ^ (m + 2)) table, ¬ SameKey equal entry.1 key) {t : Nat}
    (bound : t < 2 ^ (m + 2)) (filled : ∀ s, s < t → table ((probing hash m).path key s) ≠ .empty)
    (free : (table ((probing hash m).path key t)).content = none) :
    ∃ after ret, khOccupy h ((probing hash m).path key t) key = some (after, ret) ∧
      ∀ val, ∃ vals, setCell after.vals ((probing hash m).path key t) val = some vals ∧
        ∃ tableAfter, Sound hash equal m { after with vals } tableAfter ∧
          (entries (2 ^ (m + 2)) tableAfter).Perm ((key, val) :: entries (2 ^ (m + 2)) table) := by
  let x := (probing hash m).path key t
  have inside : x < 2 ^ (m + 2) := (probing hash m).path_lt key t
  rcases sound_counts sound with ⟨sizeSmall, occupiedSmall, fits⟩
  have sizeNext : khint (h.size + 1) = h.size + 1 := Nat.mod_eq_of_lt (by omega)
  have occupiedNext : khint (h.nOccupied + 1) = h.nOccupied + 1 := Nat.mod_eq_of_lt (by omega)
  rcases set_cell_eq (Nat.lt_of_lt_of_le inside sound.stored.keys_length) key with ⟨keys, keySet⟩
  rcases ac_set_isboth_false_eq sound.flags inside with ⟨flags, flagsSet, shows_⟩
  rcases occupied_split inside table with ⟨others, before, count⟩
  -- whatever the counters are set to, if they are right, the table is sound
  have placed : ∀ val nOccupied, nOccupied = others + 1 → nOccupied ≤ h.upperBound →
      ∃ vals, setCell h.vals x val = some vals ∧ ∃ tableAfter,
        Sound hash equal m { h with keys, flags, vals, size := h.size + 1, nOccupied } tableAfter ∧
          (entries (2 ^ (m + 2)) tableAfter).Perm ((key, val) :: entries (2 ^ (m + 2)) table) := by
    intro val nOccupied counted below
    rcases set_cell_eq (Nat.lt_of_lt_of_le inside sound.stored.vals_length) val with ⟨vals, valSet⟩
    rcases placed_insert sound.placed (fun _ _ => lawful.equivalence.symm) (key, val) bound filled
      free absent with ⟨placed, perm⟩
    refine ⟨vals, valSet, _, ?_, perm⟩
    exact {
      small := sound.small
      buckets := sound.buckets
      flags := by
        rw [mark_update]
        exact shows_
      stored := stored_live sound.stored keySet valSet
      placed := placed
      size := by rw [perm.length_eq, List.length_cons, ← sound.size]
      occupied := by
        rw [count, counted]
        rfl
      upper := sound.upper
      below := below }
  have isEmpty := ac_isempty_eq sound.flags inside
  have isDel := ac_isdel_eq sound.flags inside
  cases slot : table x with
  | empty =>
      rw [slot] at isEmpty before
      have counted : h.nOccupied + 1 = others + 1 := by rw [sound.occupied, before]; rfl
      refine ⟨{ h with keys, flags, size := h.size + 1, nOccupied := h.nOccupied + 1 }, 1, ?_, ?_⟩
      · simp [khOccupy, x, isEmpty, mark, keySet, flagsSet, sizeNext, occupiedNext]
      · exact fun val => placed val _ counted room
  | deleted =>
      rw [slot] at isEmpty isDel before
      have counted : h.nOccupied = others + 1 := by rw [sound.occupied, before]; rfl
      refine ⟨{ h with keys, flags, size := h.size + 1 }, 2, ?_, ?_⟩
      · simp [khOccupy, x, isEmpty, isDel, mark, keySet, flagsSet, sizeNext]
      · exact fun val => placed val _ counted sound.below
  | live entry =>
      have isLive : table ((probing hash m).path key t) = .live entry := slot
      rw [isLive] at free
      cases free

theorem kh_del_eq (sound : Sound hash equal m h table) (lawful : Lawful hash equal) {x : Nat}
    (inside : x < 2 ^ (m + 2)) {entry : Key × Nat} (here : table x = .live entry) :
    ∃ after tableAfter, khDel h x = some after ∧ Sound hash equal m after tableAfter ∧
      (entries (2 ^ (m + 2)) table).Perm (entry :: entries (2 ^ (m + 2)) tableAfter) := by
  have either := ac_iseither_eq sound.flags inside
  rcases ac_set_isdel_true_eq sound.flags inside (by rw [here]; rfl) with ⟨flags, flagsSet, shows_⟩
  rcases occupied_split inside table with ⟨others, before, count⟩
  rcases placed_delete sound.placed (fun _ _ => lawful.equivalence.symm) inside here with ⟨placed,
    perm⟩
  have length : h.size = (entries (2 ^ (m + 2)) (Function.update table x .deleted)).length + 1 := by
    rw [sound.size, perm.length_eq, List.length_cons]
  have sizeSmall := (sound_counts sound).1
  have sizeNext : khint (h.size + (2 ^ 32 - 1)) = h.size - 1 := by
    unfold khint
    omega
  refine ⟨{ h with flags, size := h.size - 1 }, _, ?_, ?_, perm⟩
  · rw [here] at either
    have notEnd : x ≠ h.nBuckets := by
      rw [sound.buckets]
      omega
    simpa [khDel, notEnd, either, mark, flagsSet] using sizeNext
  · exact {
      small := sound.small
      buckets := sound.buckets
      flags := by
        rw [mark_update]
        exact shows_
      stored := stored_dead sound.stored rfl
      placed := placed
      size := by
        show h.size - 1 = _
        omega
      occupied := by
        rw [count]
        show h.nOccupied = others + 1
        rw [sound.occupied, before, here]
        rfl
      upper := sound.upper
      below := sound.below }

theorem overwrite_eq (sound : Sound hash equal m h table) (lawful : Lawful hash equal) {x : Nat}
    (inside : x < 2 ^ (m + 2)) {entry : Key × Nat} (here : table x = .live entry) (val : Nat) :
    ∃ vals tableAfter rest, setCell h.vals x val = some vals ∧
      Sound hash equal m { h with vals } tableAfter ∧
      (entries (2 ^ (m + 2)) table).Perm (entry :: rest) ∧
      (entries (2 ^ (m + 2)) tableAfter).Perm ((entry.1, val) :: rest) := by
  rcases set_cell_eq (Nat.lt_of_lt_of_le inside sound.stored.vals_length) val with ⟨vals, valSet⟩
  have kept : ((entry.1, val) : Key × Nat).1 = entry.1 := rfl
  rcases placed_replace sound.placed (fun _ _ => lawful.equivalence.symm) inside here kept with
    ⟨placed, rest, before, after⟩
  rcases occupied_split inside table with ⟨others, occupiedBefore, count⟩
  refine ⟨vals, _, rest, valSet, ?_, before, after⟩
  exact {
    small := sound.small
    buckets := sound.buckets
    flags := by
      rw [mark_update]
      apply shows_congr sound.flags
      intro j bound
      by_cases same : j = x
      · subst same
        rw [Function.update_self, here]
        rfl
      · rw [Function.update_of_ne same]
    stored := stored_value sound.stored inside here valSet
    placed := placed
    size := by rw [after.length_eq, List.length_cons, ← List.length_cons (a := entry),
      ← before.length_eq,
      sound.size]
    occupied := by
      rw [count]
      show h.nOccupied = others + 1
      rw [sound.occupied, occupiedBefore, here]
      rfl
    upper := sound.upper
    below := sound.below }

/-! ## Clearing -/

theorem stored_fresh {keys : List (Option Key)} {vals : List (Option Nat)} {n : Nat}
    (keysLength : n ≤ keys.length) (valsLength : n ≤ vals.length) : Stored keys vals n fun _ =>
    .empty where
  keys_length := keysLength
  vals_length := valsLength
  key j entry bound found := by cases found
  val j entry bound found := by cases found

theorem occupied_fresh (n : Nat) : occupied n (fun _ => (Slot.empty : Slot (Key × Nat))) = 0 := by
  rw [occupied, List.countP_eq_zero]
  intro i member
  simp [Slot.occupied]

/-- The keys may have been destroyed before. -/
theorem kh_clear_eq (sound : Sound hash equal m h table) {keys : List (Option Key)}
    (length : keys.length = h.keys.length) :
    Sound hash equal m (khClear { h with keys }) fun _ => .empty := by
  have some_ : h.flags ≠ [] := by
    intro none_
    rcases shows_word sound.flags (Nat.two_pow_pos _ : 0 < 2 ^ (m + 2)) with ⟨word,
      found, high, low⟩
    rw [none_] at found
    cases found
  have nothing : entries (2 ^ (m + 2)) (fun _ => (Slot.empty : Slot (Key × Nat))) = [] :=
    entries_nil fun i bound => rfl
  rw [khClear, if_neg some_]
  exact {
    small := sound.small
    buckets := sound.buckets
    flags := by
      rw [sound.buckets]
      exact shows_fresh (fsize_enough (m + 2)) _
    stored := stored_fresh (length ▸ sound.stored.keys_length) sound.stored.vals_length
    placed := placed_empty _ _
    size := by
      rw [nothing]
      rfl
    occupied := by
      rw [occupied_fresh]
    upper := sound.upper
    below := Nat.zero_le _ }

end TWlib.KHashUpdate
