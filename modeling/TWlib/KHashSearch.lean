import TWlib.KHashTable
import TWlib.Lib.OpenAddressing
import TWlib.Lib.FiniteMap
import Mathlib.Tactic.SplitIfs

/-!
# Searching the hash table

`Sound` relates the arrays of the table to the slots of open addressing, with
the counters in step. The probe loops then follow the path of the key to the
first slot that is empty or holds the key.
-/

namespace TWlib.KHashSearch

open TWlib.Lib.PackedFlags TWlib.Lib.OpenAddressing TWlib.Lib.FiniteMap TWlib.KHashTable

set_option autoImplicit false

variable {Key : Type}

def probing (hash : Key → BitVec 32) (m : Nat) : Probing Key (2 ^ (m + 2)) :=
  Probing.double (m + 2) (fun key => (hash key).toNat)
    (fun key => acInc (hash key).toNat (2 ^ (m + 2) - 1)) (fun _ => ac_inc_odd _ (by omega))

def mark : Slot (Key × Nat) → Mark
  | .empty => .empty
  | .deleted => .deleted
  | .live _ => .live

theorem mark_of_content {slot : Slot (Key × Nat)} (dead : slot.content = none) :
    mark slot ≠ .live := by
  intro isLive
  cases slot with
  | empty => cases isLive
  | deleted => cases isLive
  | live entry => cases dead

/-- The arrays `keys` and `vals` hold the live entries of the first `n` slots. -/
structure Stored (keys : List (Option Key)) (vals : List (Option Nat)) (n : Nat)
    (table : Nat → Slot (Key × Nat)) : Prop where
  keys_length : n ≤ keys.length
  vals_length : n ≤ vals.length
  key : ∀ i entry, i < n → table i = .live entry → cellAt keys i = some entry.1
  val : ∀ i entry, i < n → table i = .live entry → cellAt vals i = some entry.2

structure Sound (hash : Key → BitVec 32) (equal : Key → Key → Bool) (m : Nat) (h : KhA Key)
    (table : Nat → Slot (Key × Nat)) : Prop where
  small : m ≤ 29
  buckets : h.nBuckets = 2 ^ (m + 2)
  flags : Shows h.flags (2 ^ (m + 2)) fun i => mark (table i)
  stored : Stored h.keys h.vals (2 ^ (m + 2)) table
  placed : Placed (probing hash m) Prod.fst (SameKey equal) table
  size : h.size = (entries (2 ^ (m + 2)) table).length
  occupied : h.nOccupied = occupied (2 ^ (m + 2)) table
  upper : h.upperBound = acHashUpper (2 ^ (m + 2))
  below : h.nOccupied ≤ h.upperBound

theorem mark_update (table : Nat → Slot (Key × Nat)) (i : Nat) (slot : Slot (Key × Nat)) :
    (fun j => mark (Function.update table i slot j)) =
      Function.update (fun j => mark (table j)) i (mark slot) := by
  funext j
  by_cases here : j = i
  · subst here
    simp
  · simp [here]

theorem cell_at_set {Cell : Type} {cells after : List (Option Cell)} {i j : Nat} {value : Cell}
    (set : setCell cells i value = some after) :
    after.length = cells.length ∧ cellAt after j = if j = i then some value
    else cellAt cells j := by
  unfold setCell at set
  split_ifs at set with inside
  cases set
  refine ⟨List.length_set, ?_⟩
  by_cases here : j = i
  · subst here
    simp [cellAt, inside]
  · simp [cellAt, here, List.getElem?_set_ne (Ne.symm here)]

theorem set_cell_eq {Cell : Type} {cells : List (Option Cell)} {i : Nat} (inside : i < cells.length)
    (value : Cell) : ∃ after, setCell cells i value = some after := by
  unfold setCell
  rw [if_pos inside]
  exact ⟨_, rfl⟩

section Paths

variable (hash : Key → BitVec 32) (m : Nat) (key : Key)

theorem probe_start : (hash key).toNat &&& (2 ^ (m + 2) - 1) = (probing hash m).path key 0 := by
  rw [Nat.and_two_pow_sub_one_eq_mod, probing, double_zero]

theorem probe_next (small : m ≤ 29) (t : Nat) :
    khint ((probing hash m).path key t + acInc (hash key).toNat
      (2 ^ (m + 2) - 1)) &&& (2 ^ (m + 2) - 1) =
      (probing hash m).path key (t + 1) := by
  rw [Nat.and_two_pow_sub_one_eq_mod, khint, Nat.mod_mod_of_dvd _ (pow_dvd_pow 2 (by omega)),
    probing,
    double_succ]

theorem probe_not_last {t : Nat} (bound : t + 1 < 2 ^ (m + 2)) :
    (probing hash m).path key (t + 1) ≠ (probing hash m).path key 0 := by
  intro same
  have turned := (probing hash m).apart key (t + 1) 0 bound (by omega) same
  omega

end Paths

section Get

variable {hash : Key → BitVec 32} {equal : Key → Key → Bool} {m : Nat} {h : KhA Key}
  {table : Nat → Slot (Key × Nat)} {sought : Key}

theorem probes_on_stops (sound : Sound hash equal m h table) {t : Nat}
    (stops : Stops (probing hash m) Prod.fst (SameKey equal) table sought t) :
    probesOn equal h sought ((probing hash m).path sought t) = some false := by
  have inside := (probing hash m).path_lt sought t
  unfold probesOn
  rw [ac_isempty_eq sound.flags inside, Option.bind_some, ac_isdel_eq sound.flags inside]
  rcases stops with empty | ⟨entry, slot, equals⟩
  · simp [empty, mark]
  · have matches_ : equal entry.1 sought = true := equals
    simp [slot, mark, sound.stored.key _ entry inside slot, matches_]

theorem probes_on_goes (sound : Sound hash equal m h table) {t : Nat}
    (goes : ¬ Stops (probing hash m) Prod.fst (SameKey equal) table sought t) :
    probesOn equal h sought ((probing hash m).path sought t) = some true ∧
      table ((probing hash m).path sought t) ≠ .empty := by
  have inside := (probing hash m).path_lt sought t
  unfold probesOn
  rw [ac_isempty_eq sound.flags inside, Option.bind_some, ac_isdel_eq sound.flags inside]
  cases slot : table ((probing hash m).path sought t) with
  | empty => exact absurd (Or.inl slot) goes
  | deleted => simp [mark]
  | live entry =>
      have differs : ¬ equal entry.1 sought = true :=
        fun equals => goes (Or.inr ⟨entry, slot, equals⟩)
      simp [mark, sound.stored.key _ entry inside slot, differs]

/-- The loop of `kh_get_A` passes over the buckets before the one where the search stops. -/
theorem kh_get_from_skip (sound : Sound hash equal m h table) {t : Nat} (bound : t < 2 ^ (m + 2))
    (passes : ∀ s, s < t → ¬ Stops (probing hash m) Prod.fst (SameKey equal)
      table sought s) (fuel : Nat) :
    khGetFrom equal h sought (2 ^ (m + 2) - 1) (acInc (hash sought).toNat (2 ^ (m + 2) - 1))
        ((probing hash m).path sought 0) (t + fuel) ((probing hash m).path sought 0) =
      khGetFrom equal h sought (2 ^ (m + 2) - 1) (acInc (hash sought).toNat (2 ^ (m + 2) - 1))
        ((probing hash m).path sought 0) fuel ((probing hash m).path sought t) := by
  induction t generalizing fuel with
  | zero => rw [Nat.zero_add]
  | succ t ih =>
      have reached := ih (by omega) (fun s lower => passes s (by omega)) (fuel + 1)
      rw [show t + 1 + fuel = t + (fuel + 1) by omega, reached]
      have on := (probes_on_goes sound (passes t (by omega))).1
      simp only [khGetFrom, on, Option.bind_eq_bind, Option.bind_some, if_true,
        probe_next hash m sought sound.small, if_neg (probe_not_last hash m sought bound)]

theorem upper_lt {n : Nat} (large : 4 ≤ n) : acHashUpper n < n := by
  unfold acHashUpper
  omega

theorem buckets_ge (m : Nat) : 4 ≤ 2 ^ (m + 2) := by
  have positive : 0 < 2 ^ m := Nat.two_pow_pos m
  rw [Nat.pow_add]
  omega

theorem sound_room (sound : Sound hash equal m h table) :
    occupied (2 ^ (m + 2)) table < 2 ^ (m + 2) := by
  have below := sound.below
  rw [sound.occupied, sound.upper] at below
  have upper := upper_lt (buckets_ge m)
  omega

theorem same_path (lawful : Lawful hash equal)
    (left right : Key) (equals : SameKey equal left right) :
    (probing hash m).path left = (probing hash m).path right := by
  funext t
  simp only [probing, Probing.double, lawful.same_hash left right equals]

/-- `kh_get_A` comes to the bucket of the key, or to `n_buckets` when no entry has the key. -/
theorem kh_get_eq (sound : Sound hash equal m h table)
    (lawful : Lawful hash equal) (sought : Key) :
    (khGet equal hash h sought = some h.nBuckets ∧
      ∀ entry ∈ entries (2 ^ (m + 2)) table, ¬ SameKey equal entry.1 sought) ∨
    ∃ x entry, khGet equal hash h sought = some x ∧ x < 2 ^ (m + 2) ∧ table x = .live entry ∧
      SameKey equal entry.1 sought := by
  rcases stop_exists (probing hash m) Prod.fst (SameKey equal) (sound_room sound) sought with
    ⟨t, bound, stops, first⟩
  have inside := (probing hash m).path_lt sought t
  have started : khGet equal hash h sought = khGetFrom equal h sought (2 ^ (m + 2) - 1)
      (acInc (hash sought).toNat (2 ^ (m + 2) - 1)) ((probing hash m).path sought 0)
      (t + (2 ^ (m + 2) - t)) ((probing hash m).path sought 0) := by
    have some_ : h.nBuckets ≠ 0 := by
      rw [sound.buckets]
      omega
    rw [khGet, if_neg some_, sound.buckets, Nat.add_sub_cancel' (by omega)]
    simp only [probe_start]
  obtain ⟨fuel, enough⟩ : ∃ fuel, 2 ^ (m + 2) - t = fuel + 1 := ⟨2 ^ (m + 2) - t - 1, by omega⟩
  rw [kh_get_from_skip sound bound first, enough] at started
  simp only [khGetFrom, probes_on_stops sound stops, ac_iseither_eq sound.flags inside,
    Option.bind_eq_bind, Option.bind_some, Bool.false_eq_true, if_false] at started
  rcases stops with empty | ⟨entry, slot, equals⟩
  · left
    rw [empty] at started
    exact ⟨started, absent_of_empty sound.placed (same_path lawful) first empty⟩
  · right
    rw [slot] at started
    exact ⟨_, entry, started, inside, slot, equals⟩

end Get

end TWlib.KHashSearch
