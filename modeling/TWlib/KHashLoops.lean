import TWlib.KHashRehash
import TWlib.KHashRefinement

/-!
# The probe loops end

`Shaped` is what every run of the map's operations leaves of a table, however full it
is and whatever the equality of its keys is: the capacity, and arrays that go with
the flags. It is enough for every loop to end within one pass, since the path of a key
is back at its start when it has been everywhere.
-/

namespace TWlib.KHashLoops

open TWlib.Lib.PackedFlags TWlib.Lib.OpenAddressing TWlib.Lib.FiniteMap TWlib.Lib.CellStore
  TWlib.KHashTable TWlib.KHashSearch TWlib.KHashUpdate TWlib.KHashResize TWlib.KHashMap
  TWlib.KHashRehash
  TWlib.KHashRefinement

set_option autoImplicit false

variable {Key Data : Type} {hash : Key → BitVec 32} {equal : Key → Key → Bool} {h : KhA Key}
  {table : Nat → Slot (Key × Nat)} {key : Key} {m : Nat}

structure Shaped (h : KhA Key) (table : Nat → Slot (Key × Nat)) : Prop where
  capacity : h.nBuckets = 0 ∨ ∃ m, m ≤ 29 ∧ h.nBuckets = 2 ^ (m + 2)
  flags : Shows h.flags h.nBuckets fun i => mark (table i)
  stored : Stored h.keys h.vals h.nBuckets table
  size : h.size = (entries h.nBuckets table).length
  fresh : h.nBuckets = 0 → h.upperBound = 0

def Kept (h : KhA Key) : Prop := ∃ table, Shaped h table

def Live (h : KhA Key) (x : Nat) : Prop :=
  ∃ table entry, Shaped h table ∧ x < h.nBuckets ∧ table x = .live entry

/-! ## One pass of a search -/

/-- After a whole round the path is where it began. -/
theorem path_returns (hash : Key → BitVec 32) (m : Nat) (key : Key) :
    (probing hash m).path key (2 ^ (m + 2)) = (probing hash m).path key 0 := by
  simp [probing, Probing.double]

section Pass

variable (hash equal key) (shaped : Shaped h table) (small : m ≤ 29)
    (buckets : h.nBuckets = 2 ^ (m + 2))

include shaped in
theorem probes_on_some {i : Nat} (bound : i < h.nBuckets) :
    ∃ on, probesOn equal h key i = some on := by
  unfold probesOn
  rw [ac_isempty_eq shaped.flags bound, Option.bind_some, ac_isdel_eq shaped.flags bound]
  cases slot : table i with
  | empty => exact ⟨false, by simp [mark]⟩
  | deleted => exact ⟨true, by simp [mark]⟩
  | live entry =>
      have cell := shaped.stored.key i entry bound slot
      exact ⟨!equal entry.1 key, by simp [mark, cell]⟩

include shaped small buckets

theorem kh_get_from_ends {t fuel : Nat} (left : t + fuel = 2 ^ (m + 2)) (bound : t < 2 ^ (m + 2)) :
    ∃ x, khGetFrom equal h key (2 ^ (m + 2) - 1) (acInc (hash key).toNat (2 ^ (m + 2) - 1))
        ((probing hash m).path key 0) fuel ((probing hash m).path key t) = some x ∧
      (x ≠ h.nBuckets → Live h x) := by
  induction fuel generalizing t with
  | zero => omega
  | succ fuel ih =>
      have inside : (probing hash m).path key t < h.nBuckets := by
        rw [buckets]
        exact (probing hash m).path_lt key t
      rcases probes_on_some equal key shaped inside with ⟨on, probed⟩
      have either := ac_iseither_eq shaped.flags inside
      cases on with
      | true =>
          by_cases last : t + 1 = 2 ^ (m + 2)
          · refine ⟨h.nBuckets, ?_, fun other => absurd rfl other⟩
            simp only [khGetFrom, probed, Option.bind_eq_bind, Option.bind_some, if_true,
              probe_next hash m key small, last, path_returns]
          · rcases @ih (t + 1) (by omega) (by omega) with ⟨x, got, live⟩
            refine ⟨x, ?_, live⟩
            simp only [khGetFrom, probed, Option.bind_eq_bind, Option.bind_some, if_true,
              probe_next hash m key small,
              if_neg (probe_not_last hash m key (by omega : t + 1 < 2 ^ (m + 2)))]
            exact got
      | false =>
          cases slot : table ((probing hash m).path key t) with
          | live entry =>
              refine ⟨_, ?_, fun _ => ⟨table, entry, shaped, inside, slot⟩⟩
              simp [khGetFrom, probed, either, slot, mark]
          | _ =>
              refine ⟨h.nBuckets, ?_, fun other => absurd rfl other⟩
              simp [khGetFrom, probed, either, slot, mark]

theorem kh_put_from_ends {t fuel site : Nat} (left : t + fuel = 2 ^ (m + 2))
    (bound : t < 2 ^ (m + 2)) (siteBound : site ≤ 2 ^ (m + 2)) :
    ∃ x i siteAfter, khPutFrom equal h key (2 ^ (m + 2) - 1)
        (acInc (hash key).toNat (2 ^ (m + 2) - 1))
        ((probing hash m).path key 0) fuel ((probing hash m).path key t) site = some (x, i,
          siteAfter) ∧
      x ≤ 2 ^ (m + 2) ∧ i < 2 ^ (m + 2) ∧ siteAfter ≤ 2 ^ (m + 2) := by
  induction fuel generalizing t site with
  | zero => omega
  | succ fuel ih =>
      have pathLt := (probing hash m).path_lt key t
      have inside : (probing hash m).path key t < h.nBuckets := by
        rw [buckets]
        exact pathLt
      rcases probes_on_some equal key shaped inside with ⟨on, probed⟩
      have isDel := ac_isdel_eq shaped.flags inside
      cases on with
      | true =>
          let next := if decide (mark (table ((probing hash m).path key t)) = .deleted) = true then
            (probing hash m).path key t else site
          have nextBound : next ≤ 2 ^ (m + 2) := by
            simp only [next]
            split_ifs
            · exact Nat.le_of_lt pathLt
            · exact siteBound
          by_cases last : t + 1 = 2 ^ (m + 2)
          · refine ⟨next, (probing hash m).path key 0, next, ?_, nextBound,
              (probing hash m).path_lt key 0, nextBound⟩
            simp only [khPutFrom, probed, isDel, Option.bind_eq_bind, Option.bind_some, if_true,
              probe_next hash m key small, last, path_returns, next]
          · rcases @ih (t + 1) next (by omega) (by omega) nextBound with ⟨x, i, siteAfter,
              put, bounds⟩
            refine ⟨x, i, siteAfter, ?_, bounds⟩
            simp only [khPutFrom, probed, isDel, Option.bind_eq_bind, Option.bind_some, if_true,
              probe_next hash m key small,
              if_neg (probe_not_last hash m key (by omega : t + 1 < 2 ^ (m + 2)))]
            exact put
      | false =>
          refine ⟨h.nBuckets, _, site, ?_, Nat.le_of_eq buckets, pathLt, siteBound⟩
          simp only [khPutFrom, probed, Option.bind_eq_bind, Option.bind_some,
            Bool.false_eq_true, if_false]

theorem kh_put_bucket_ends : ∃ x, khPutBucket equal hash h key = some x ∧ x < h.nBuckets := by
  have start := (probing hash m).path_lt key 0
  have startInside : (probing hash m).path key 0 < h.nBuckets := by
    rw [buckets]
    exact start
  have isEmpty := ac_isempty_eq shaped.flags startInside
  have positive : 0 < 2 ^ (m + 2) := Nat.two_pow_pos _
  rcases kh_put_from_ends hash equal key shaped small buckets (Nat.zero_add _) positive
      (Nat.le_refl _) with
    ⟨x, i, site, put, xBound, iBound, siteBound⟩
  have emptyThere := ac_isempty_eq shaped.flags (buckets ▸ iBound : i < h.nBuckets)
  simp only [khPutBucket, buckets, probe_start, isEmpty, put, emptyThere, Option.bind_eq_bind,
    Option.bind_some]
  split_ifs with fast full taken
  · exact ⟨_, rfl, start⟩
  · refine ⟨site, rfl, ?_⟩
    simp only [Bool.and_eq_true, bne_iff_ne, ne_eq] at taken
    omega
  · exact ⟨i, rfl, iBound⟩
  · exact ⟨x, rfl, by omega⟩

end Pass

theorem kh_get_ends (kept : Kept h) (hash : Key → BitVec 32) (equal : Key → Key → Bool)
    (key : Key) :
    ∃ x, khGet equal hash h key = some x ∧ (x ≠ h.nBuckets → Live h x) := by
  rcases kept with ⟨table, shaped⟩
  rcases shaped.capacity with none | ⟨m, small, buckets⟩
  · refine ⟨0, ?_, fun other => absurd none.symm other⟩
    rw [khGet, if_pos none]
  · have positive : 0 < 2 ^ (m + 2) := Nat.two_pow_pos _
    have some_ : h.nBuckets ≠ 0 := by omega
    rcases kh_get_from_ends hash equal key shaped small buckets (Nat.zero_add _) positive with ⟨x,
      got, live⟩
    refine ⟨x, ?_, live⟩
    rw [khGet, if_neg some_]
    simp only [buckets, probe_start]
    exact got

/-! ## Rehashing -/

theorem kept_init : Kept (khInit : KhA Key) :=
  ⟨fun _ => .empty,
    { capacity := Or.inl rfl
      flags := fun i bound => absurd bound (Nat.not_lt_zero i)
      stored := stored_fresh (Nat.zero_le _) (Nat.zero_le _)
      size := rfl
      fresh := fun _ => rfl }⟩

/-- No two keys count as the same here. -/
private def never (_ _ : Key) : Bool := false

private theorem never_same (left right : Key) : ¬ SameKey never left right := Bool.false_ne_true

/-- The kick-out process places every entry, also those whose keys are the same. -/
theorem kh_resize_ends (kept : Kept h) (hash : Key → BitVec 32) (request : Nat) :
    ∃ after, khResize hash h request = some after ∧ Kept after ∧ after.nBuckets ≠ 0 ∧
      (livePairs after).Perm (livePairs h) := by
  rcases kept with ⟨table, shaped⟩
  rcases new_capacity_eq request with ⟨m, small, capacity⟩
  by_cases loose : h.size < acHashUpper (newCapacity request)
  · have distinct : (entries h.nBuckets table).Pairwise fun left right =>
        ¬ SameKey never left.1 right.1 := by
      apply List.pairwise_of_forall
      intro left right
      exact never_same left.1 right.1
    have symmetric : Std.Symm (@SameKey Key never) :=
      ⟨fun left right same => absurd same (never_same left right)⟩
    rcases @kh_resize_eq _ hash never m h table symmetric request small capacity shaped.flags
      shaped.stored distinct
      shaped.size (capacity ▸ loose) with ⟨after, tableAfter, resized, sound, perm, _⟩
    have some_ : after.nBuckets ≠ 0 := by
      rw [sound.buckets]
      exact Nat.ne_of_gt (Nat.two_pow_pos _)
    refine ⟨after, resized, ⟨tableAfter, ?_⟩, some_, ?_⟩
    · exact {
        capacity := Or.inr ⟨m, small, sound.buckets⟩
        flags := sound.buckets ▸ sound.flags
        stored := sound.buckets ▸ sound.stored
        size := sound.buckets ▸ sound.size
        fresh := fun none => absurd none some_ }
    · rw [(well_formed_of_sound sound).1, live_pairs_eq shaped.flags shaped.stored]
      exact perm
  · refine ⟨h, ?_, ⟨table, shaped⟩, ?_, List.Perm.refl _⟩
    · rw [khResize]
      exact if_pos (Nat.not_lt.mp loose)
    · intro none
      have nothing := shaped.size
      rw [none] at nothing
      have wide := buckets_ge m
      rw [capacity, acHashUpper, nothing, show (entries 0 table).length = 0 from rfl] at loose
      omega

theorem kh_make_room_ends (kept : Kept h) (hash : Key → BitVec 32) :
    ∃ after, khMakeRoom hash h = some after ∧ Kept after ∧ after.nBuckets ≠ 0 := by
  unfold khMakeRoom
  split_ifs with full sparse
  · rcases kh_resize_ends kept hash (khint (h.nBuckets + (2 ^ 32 - 1))) with ⟨after, resized,
      still, some_, _⟩
    exact ⟨after, resized, still, some_⟩
  · rcases kh_resize_ends kept hash (khint (h.nBuckets + 1)) with ⟨after, resized, still, some_, _⟩
    exact ⟨after, resized, still, some_⟩
  · refine ⟨h, rfl, kept, fun none => ?_⟩
    rcases kept with ⟨table, shaped⟩
    rw [shaped.fresh none] at full
    omega

/-! ## Occupying, deleting, overwriting -/

theorem capacity_le (shaped : Shaped h table) : h.nBuckets ≤ 2 ^ 31 := by
  rcases shaped.capacity with none | ⟨m, small, buckets⟩
  · omega
  · rw [buckets]
    exact Nat.pow_le_pow_right (by decide) (by omega)

theorem shaped_live (shaped : Shaped h table) {x : Nat} (inside : x < h.nBuckets)
    (free : (table x).content = none) {keys : List (Option Key)} {vals : List (Option Nat)}
    {flags : List (BitVec 32)} {val nOccupied : Nat} (keySet : setCell h.keys x key = some keys)
    (valSet : setCell h.vals x val = some vals)
    (shows_ : Shows flags h.nBuckets (Function.update (fun i => mark (table i)) x .live)) :
    Shaped { h with keys, flags, vals, size := khint (h.size + 1), nOccupied }
      (Function.update table x (.live (key, val))) where
  capacity := shaped.capacity
  flags := by
    rw [mark_update]
    exact shows_
  stored := stored_live shaped.stored keySet valSet
  size := by
    rcases entries_split_self inside table with ⟨rest, self, split⟩
    rw [free] at self
    have before : (entries h.nBuckets table).length = rest.length := self.length_eq
    have after := (split (.live (key, val))).length_eq
    have most := entries_length_le h.nBuckets table
    have small := capacity_le shaped
    have next : khint (h.size + 1) = h.size + 1 := by
      rw [khint, shaped.size]
      exact Nat.mod_eq_of_lt (by omega)
    change khint (h.size + 1) = _
    rw [next, shaped.size, before, after]
    simp [Slot.content]
  fresh := shaped.fresh

theorem shaped_value (shaped : Shaped h table) {x : Nat} (inside : x < h.nBuckets)
    {entry : Key × Nat} (here : table x = .live entry) {vals : List (Option Nat)} {val : Nat}
    (valSet : setCell h.vals x val = some vals) :
    Shaped { h with vals } (Function.update table x (.live (entry.1, val))) where
  capacity := shaped.capacity
  flags := by
    apply shows_congr shaped.flags
    intro j bound
    by_cases same : j = x
    · subst same
      rw [Function.update_self, here]
      rfl
    · rw [Function.update_of_ne same]
  stored := stored_value shaped.stored inside here valSet
  size := by
    rcases entries_split_self inside table with ⟨rest, self, split⟩
    rw [here] at self
    change h.size = (entries h.nBuckets _).length
    rw [shaped.size, self.length_eq, (split _).length_eq]
    rfl
  fresh := shaped.fresh

theorem kept_value {x : Nat} (live : Live h x) {vals : List (Option Nat)} {val : Nat}
    (valSet : setCell h.vals x val = some vals) : Kept { h with vals } := by
  rcases live with ⟨table, entry, shaped, inside, here⟩
  exact ⟨_, shaped_value shaped inside here valSet⟩

/-- A bucket of any kind is occupied, which may also be a live one when the table is full. -/
theorem kh_occupy_ends (shaped : Shaped h table) {x : Nat} (inside : x < h.nBuckets) (key : Key) :
    ∃ after ret, khOccupy h x key = some (after, ret) ∧
      ∀ val vals, setCell after.vals x val = some vals → Kept { after with vals } := by
  have isEmpty := ac_isempty_eq shaped.flags inside
  have isDel := ac_isdel_eq shaped.flags inside
  rcases set_cell_eq (Nat.lt_of_lt_of_le inside shaped.stored.keys_length) key with ⟨keys, keySet⟩
  rcases ac_set_isboth_false_eq shaped.flags inside with ⟨flags, flagsSet, shows_⟩
  cases slot : table x with
  | empty =>
      rw [slot] at isEmpty
      refine ⟨{ h with keys, flags, size := khint (h.size + 1),
                       nOccupied := khint (h.nOccupied + 1) }, 1, ?_, ?_⟩
      · simp [khOccupy, isEmpty, mark, keySet, flagsSet]
      · intro val vals valSet
        exact ⟨_, shaped_live shaped inside (by rw [slot]; rfl) keySet valSet shows_⟩
  | deleted =>
      rw [slot] at isEmpty isDel
      refine ⟨{ h with keys, flags, size := khint (h.size + 1) }, 2, ?_, ?_⟩
      · simp [khOccupy, isEmpty, isDel, mark, keySet, flagsSet]
      · intro val vals valSet
        exact ⟨_, shaped_live shaped inside (by rw [slot]; rfl) keySet valSet shows_⟩
  | live entry =>
      rw [slot] at isEmpty isDel
      refine ⟨h, 0, ?_, ?_⟩
      · simp [khOccupy, isEmpty, isDel, mark]
      · intro val vals valSet
        exact ⟨_, shaped_value shaped inside slot valSet⟩

theorem kh_put_ends (kept : Kept h) (hash : Key → BitVec 32) (equal : Key → Key → Bool)
    (key : Key) :
    ∃ after x ret, khPut equal hash h key = some (after, x, ret) ∧
      ∀ val vals, setCell after.vals x val = some vals → Kept { after with vals } := by
  rcases kh_make_room_ends kept hash with ⟨roomy, made, ⟨table, shaped⟩, some_⟩
  rcases shaped.capacity with none | ⟨m, small, buckets⟩
  · exact absurd none some_
  · rcases kh_put_bucket_ends hash equal key shaped small buckets with ⟨x, decided, inside⟩
    rcases kh_occupy_ends shaped inside key with ⟨after, ret, occupied, set⟩
    refine ⟨after, x, ret, ?_, set⟩
    simp only [khPut, made, decided, occupied, Option.bind_eq_bind, Option.bind_some]

theorem kh_del_kept {x : Nat} (live : Live h x) : ∃ after, khDel h x = some after ∧ Kept after := by
  rcases live with ⟨table, entry, shaped, inside, here⟩
  have either := ac_iseither_eq shaped.flags inside
  rcases ac_set_isdel_true_eq shaped.flags inside (by rw [here]; rfl) with ⟨flags, flagsSet, shows_⟩
  rw [here] at either
  have notEnd : x ≠ h.nBuckets := Nat.ne_of_lt inside
  rcases entries_split_self inside table with ⟨rest, self, split⟩
  rw [here] at self
  have before : h.size = rest.length + 1 := shaped.size.trans self.length_eq
  have after : (entries h.nBuckets (Function.update table x .deleted)).length = rest.length :=
    (split .deleted).length_eq
  have most := entries_length_le h.nBuckets table
  have small := capacity_le shaped
  rw [← shaped.size] at most
  have sizeNext : khint (h.size + (2 ^ 32 - 1)) = rest.length := by
    unfold khint
    omega
  refine ⟨{ h with flags, size := rest.length }, ?_, Function.update table x .deleted, ?_⟩
  · simpa [khDel, notEnd, either, mark, flagsSet] using sizeNext
  · exact {
      capacity := shaped.capacity
      flags := by
        rw [mark_update]
        exact shows_
      stored := stored_dead shaped.stored rfl
      size := after.symm
      fresh := shaped.fresh }

theorem kh_clear_kept (kept : Kept h) {keys : List (Option Key)}
    (length : keys.length = h.keys.length) :
    Kept (khClear { h with keys }) := by
  rcases kept with ⟨table, shaped⟩
  have stored : Stored keys h.vals h.nBuckets fun _ => .empty :=
    stored_fresh (length ▸ shaped.stored.keys_length) shaped.stored.vals_length
  have nothing : (entries h.nBuckets fun _ => (Slot.empty : Slot (Key × Nat))).length = 0 := by
    rw [entries_nil fun i bound => rfl]
    rfl
  refine ⟨fun _ => .empty, ?_⟩
  by_cases flags : h.flags = []
  · have none : h.nBuckets = 0 := by
      by_contra some_
      rcases shows_word shaped.flags (Nat.pos_of_ne_zero some_) with ⟨word, found, _⟩
      rw [flags] at found
      cases found
    rw [khClear, if_pos flags]
    exact {
      capacity := shaped.capacity
      flags := fun i bound => absurd bound (none ▸ Nat.not_lt_zero i)
      stored := stored
      size := by
        have size := shaped.size
        rw [none] at size
        exact size.trans nothing.symm
      fresh := shaped.fresh }
  · rw [khClear, if_neg flags]
    exact {
      capacity := shaped.capacity
      flags := by
        rcases shaped.capacity with none | ⟨m, small, buckets⟩
        · exact fun i bound => absurd bound (none ▸ Nat.not_lt_zero i)
        · change Shows (setFlags h.flags (acFsize h.nBuckets)) h.nBuckets _
          rw [buckets]
          exact shows_fresh (fsize_enough (m + 2)) _
      stored := stored
      size := nothing.symm
      fresh := shaped.fresh }

/-! ## The operations -/

variable {map after : KHash32 Key Data} {k : Nat} {dat : Data}

theorem new_value_eq (made : newValue map k dat = some after) :
    ∃ vals, setCell map.khashmap.vals k map.heap.fresh = some vals ∧
      after.khashmap = { map.khashmap with vals } := by
  rcases Option.bind_eq_some_iff.mp made with ⟨vals, set, done⟩
  cases done
  exact ⟨vals, set, rfl⟩

theorem put_value_kept (kept : Kept map.khashmap)
    (put : putValue equal hash map key dat = some (after, k)) :
    Kept after.khashmap := by
  rcases kh_put_ends kept hash equal key with ⟨khashmap, x, ret, found, set⟩
  simp only [putValue, found, Option.bind_eq_bind, Option.bind_some] at put
  rcases Option.bind_eq_some_iff.mp put with ⟨middle, made, done⟩
  cases done
  rcases new_value_eq made with ⟨vals, valSet, same⟩
  rw [same]
  exact set _ vals valSet

theorem replace_value_kept (live : Live map.khashmap k)
    (replaced : replaceValue map k dat = some after) :
    Kept after.khashmap := by
  rcases Option.bind_eq_some_iff.mp replaced with ⟨old, _, later⟩
  rcases Option.bind_eq_some_iff.mp later with ⟨heap, _, made⟩
  rcases new_value_eq made with ⟨vals, valSet, same⟩
  rw [same]
  exact kept_value live valSet

theorem remove_all_from_table (ks : List Nat) (removed : removeAllFrom ks map = some after) :
    ∃ keys, keys.length = map.khashmap.keys.length ∧
    after.khashmap = { map.khashmap with keys } := by
  induction ks generalizing map with
  | nil =>
      cases removed
      exact ⟨_, rfl, rfl⟩
  | cons k ks ih =>
      rcases Option.bind_eq_some_iff.mp removed with ⟨exist, _, later⟩
      cases exist with
      | false => exact ih later
      | true =>
          rcases Option.bind_eq_some_iff.mp later with ⟨d, _, afterCell⟩
          rcases Option.bind_eq_some_iff.mp afterCell with ⟨heap, _, ran⟩
          rcases ih ran with ⟨keys, length, same⟩
          exact ⟨keys, length.trans List.length_set, same⟩

theorem remove_all_kept (kept : Kept map.khashmap) {answer : Answer Data}
    (removed : removeAll map = some (after, answer)) : Kept after.khashmap := by
  rcases Option.bind_eq_some_iff.mp removed with ⟨middle, ran, done⟩
  cases done
  rcases remove_all_from_table _ ran with ⟨keys, length, same⟩
  change Kept (khClear middle.khashmap)
  rw [same]
  exact kh_clear_kept kept length

theorem delete_kept (live : Live map.khashmap k) {khashmap : KhA Key}
    (deleted : khDel map.khashmap k = some khashmap) :
    Kept khashmap := by
  rcases kh_del_kept live with ⟨after, same, kept⟩
  rw [deleted] at same
  cases same
  exact kept

theorem perform_kept {blank : Data} (kept : Kept map.khashmap) {op : Op Key Data}
    {answer : Answer Data} (performed : perform hash equal blank map op = some (after, answer)) :
    Kept after.khashmap := by
  -- a bucket that was found is a live one
  have live : ∀ {key k}, khGet equal hash map.khashmap key = some k → k ≠ map.khashmap.nBuckets →
      Live map.khashmap k := by
    intro key k got there
    rcases kh_get_ends kept hash equal key with ⟨found, gotToo, live⟩
    cases Option.some.inj (got.symm.trans gotToo)
    exact live there
  cases adding : adds op with
  | some key =>
      cases perform_adds adding performed with
      | leaves _ _ same =>
          rw [same]
          exact kept
      | replaces found inside replaced => exact replace_value_kept (live found inside) replaced
      | puts _ put => exact put_value_kept kept put
  | none =>
      cases op with
      | addReplace | addReplaceOld | addReplaceNew | addNoreplace | addNoreplaceNew | findOrNew =>
          cases adding
      | findFill key =>
          rw [perform, find_fill_by_value_eq] at performed
          rcases Option.bind_eq_some_iff.mp performed with ⟨k, got, rest⟩
          split_ifs at rest with there
          · rcases Option.bind_eq_some_iff.mp rest with ⟨d, _, later⟩
            rcases Option.bind_eq_some_iff.mp later with ⟨fill, _, done⟩
            cases done
            exact kept
          · cases rest
            exact kept
      | find key =>
          rcases Option.bind_eq_some_iff.mp performed with ⟨k, got, rest⟩
          split_ifs at rest with there
          · rcases Option.bind_eq_some_iff.mp rest with ⟨ret, _, done⟩
            cases done
            exact kept
          · cases rest
            exact kept
      | remove key =>
          rcases Option.bind_eq_some_iff.mp performed with ⟨k, got, rest⟩
          split_ifs at rest with there
          · rcases Option.bind_eq_some_iff.mp rest with ⟨d, _, later⟩
            rcases Option.bind_eq_some_iff.mp later with ⟨heap, _, last⟩
            rcases Option.bind_eq_some_iff.mp last with ⟨khashmap, deleted, done⟩
            cases done
            exact delete_kept (live got there) deleted
          · cases rest
            exact kept
      | removeFill key =>
          rw [perform, remove_fill_by_value_eq] at performed
          rcases Option.bind_eq_some_iff.mp performed with ⟨k, got, rest⟩
          split_ifs at rest with there
          · rcases Option.bind_eq_some_iff.mp rest with ⟨d, _, later⟩
            rcases Option.bind_eq_some_iff.mp later with ⟨fill, _, more⟩
            rcases Option.bind_eq_some_iff.mp more with ⟨heap, _, last⟩
            rcases Option.bind_eq_some_iff.mp last with ⟨khashmap, deleted, done⟩
            cases done
            exact delete_kept (live got there) deleted
          · cases rest
            exact kept
      | removeAll => exact remove_all_kept kept performed
      | size =>
          cases performed
          exact kept

/-! ## Whole runs -/

def run (hash : Key → BitVec 32) (equal : Key → Key → Bool) (blank : Data) :
    KHash32 Key Data → List (Op Key Data) → Option (KHash32 Key Data)
  | map, [] => some map
  | map, op :: ops =>
      (perform hash equal blank map op).elim none fun done => run hash equal blank done.1 ops

theorem run_kept {blank : Data} {ops : List (Op Key Data)} (kept : Kept map.khashmap)
    (ran : run hash equal blank map ops = some after) : Kept after.khashmap := by
  induction ops generalizing map with
  | nil =>
      cases ran
      exact kept
  | cons op ops ih =>
      cases performed : perform hash equal blank map op with
      | none => simp [run, performed] at ran
      | some done =>
          simp only [run, performed, Option.elim] at ran
          exact ih (perform_kept kept performed) ran

theorem init_kept (hash : Key → BitVec 32) (items : Int) :
    ∃ start : KHash32 Key Data, init hash items = some start ∧ Kept start.khashmap := by
  unfold init
  split_ifs with positive
  · rcases kh_resize_ends kept_init hash items.toNat with ⟨after, resized, kept, _⟩
    exact ⟨⟨after, Store.empty⟩, by rw [resized]; rfl, kept⟩
  · exact ⟨⟨khInit, Store.empty⟩, rfl, kept_init⟩

/-- The probes of a key with an odd step come to every bucket in one pass. -/
theorem probes_cover (kept : Kept h) (hash : Key → BitVec 32) (key : Key) {i : Nat}
    (bound : i < h.nBuckets) :
    ∃ t, t < h.nBuckets ∧
      ((hash key).toNat + t * acInc (hash key).toNat (h.nBuckets - 1)) % h.nBuckets = i := by
  rcases kept with ⟨table, shaped⟩
  rcases shaped.capacity with none | ⟨m, small, buckets⟩
  · omega
  · rw [buckets] at bound ⊢
    exact path_covers (probing hash m) key bound

/-- Three keys come and go in four buckets, which leaves no bucket empty but one. -/
def comeAndGo : List (Op Nat Nat) :=
  [.addReplace 1 10, .addReplace 5 50, .addReplace 9 90, .remove 1, .remove 5, .remove 9]

end TWlib.KHashLoops
