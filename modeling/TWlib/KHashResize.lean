import TWlib.KHashUpdate

/-!
# Rehashing the table in place

While the arrays are rehashed they hold two tables at once: what is left of the
old one under the old flags and what was placed under the new flags. A key in
hand goes to an empty bucket of the new table; a key of the old table that stands
there is the next one in hand. Nothing is lost, since new table, hand and old
table together always hold the same entries.
-/

namespace TWlib.KHashResize

open TWlib.Lib.PackedFlags TWlib.Lib.OpenAddressing TWlib.Lib.FiniteMap TWlib.KHashTable
  TWlib.KHashSearch TWlib.KHashUpdate

set_option autoImplicit false

variable {Key : Type} {hash : Key → BitVec 32} {equal : Key → Key → Bool} {m : Nat} {h : KhA Key}
  {old new : Nat → Slot (Key × Nat)} {newFlags : List (BitVec 32)} {whole : List (Key × Nat)}

structure Rehashing (hash : Key → BitVec 32) (equal : Key → Key → Bool) (m : Nat)
    (whole : List (Key × Nat)) (h : KhA Key) (newFlags : List (BitVec 32))
    (old new : Nat → Slot (Key × Nat)) (hand : List (Key × Nat)) :
    Prop where
  oldFlags : Shows h.flags h.nBuckets fun i => mark (old i)
  newFlags : Shows newFlags (2 ^ (m + 2)) fun i => mark (new i)
  oldStored : Stored h.keys h.vals h.nBuckets old
  newStored : Stored h.keys h.vals (2 ^ (m + 2)) new
  apart : ∀ i, i < h.nBuckets → i < 2 ^ (m + 2) → new i ≠ .empty → (old i).content = none
  clean : ∀ i, i < 2 ^ (m + 2) → new i ≠ .deleted
  placed : Placed (probing hash m) Prod.fst (SameKey equal) new
  all : (entries (2 ^ (m + 2)) new ++ hand ++ entries h.nBuckets old).Perm whole

/-- What the rehashing does not change. -/
structure SameShape (before after : KhA Key) : Prop where
  nBuckets : after.nBuckets = before.nBuckets
  size : after.size = before.size

/-- Entries of the old table only disappear. -/
def Shrinks (before after : Nat → Slot (Key × Nat)) : Prop :=
  ∀ i, (before i).content = none → (after i).content = none

/-! ## Cells -/

theorem stored_overwrite {keys keysAfter : List (Option Key)}
    {vals valsAfter : List (Option Nat)} {n i : Nat} {table : Nat → Slot (Key × Nat)}
    {entry : Key × Nat} (stored : Stored keys vals n table)
    (dead : i < n → (table i).content = none) (keySet : setCell keys i entry.1 = some keysAfter)
    (valSet : setCell vals i entry.2 = some valsAfter) : Stored keysAfter valsAfter n table where
  keys_length := (cell_at_set (j := i) keySet).1 ▸ stored.keys_length
  vals_length := (cell_at_set (j := i) valSet).1 ▸ stored.vals_length
  key j found bound slot := by
    have other : j ≠ i := by
      intro same
      subst same
      have none_ := dead bound
      rw [slot] at none_
      cases none_
    rw [(cell_at_set keySet).2, if_neg other]
    exact stored.key j found bound slot
  val j found bound slot := by
    have other : j ≠ i := by
      intro same
      subst same
      have none_ := dead bound
      rw [slot] at none_
      cases none_
    rw [(cell_at_set valSet).2, if_neg other]
    exact stored.val j found bound slot

theorem realloc_length {Cell : Type} (cells : List (Option Cell)) (count : Nat) :
    (realloc cells count).length = count := by
  rw [realloc, List.length_append, List.length_take, List.length_replicate]
  omega

theorem cell_at_realloc {Cell : Type} {cells : List (Option Cell)} {count i : Nat}
    (bound : i < count) (inside : i < cells.length) :
    cellAt (realloc cells count) i = cellAt cells i := by
  have first : i < (cells.take count).length := by
    rw [List.length_take]
    omega
  rw [cellAt, cellAt, realloc, List.getElem?_append_left first, List.getElem?_take_of_lt bound]

theorem stored_realloc {keys : List (Option Key)} {vals : List (Option Nat)} {n count : Nat}
    {table : Nat → Slot (Key × Nat)} (stored : Stored keys vals n table) (enough : n ≤ count) :
    Stored (realloc keys count) (realloc vals count) n table where
  keys_length := by
    rw [realloc_length]
    exact enough
  vals_length := by
    rw [realloc_length]
    exact enough
  key j entry bound slot := by
    have inside := stored.keys_length
    rw [cell_at_realloc (by omega) (by omega)]
    exact stored.key j entry bound slot
  val j entry bound slot := by
    have inside := stored.vals_length
    rw [cell_at_realloc (by omega) (by omega)]
    exact stored.val j entry bound slot

/-! ## One key in hand -/

theorem kh_place_from_skip {key : Key} (small : m ≤ 29)
    (shows_ : Shows newFlags (2 ^ (m + 2)) fun i => mark (new i)) {t : Nat}
    (filled : ∀ s, s < t → new ((probing hash m).path key s) ≠ .empty) (fuel : Nat) :
    khPlaceFrom newFlags (2 ^ (m + 2) - 1) (acInc (hash key).toNat (2 ^ (m + 2) - 1)) (t + fuel)
        ((probing hash m).path key 0) =
      khPlaceFrom newFlags (2 ^ (m + 2) - 1) (acInc (hash key).toNat (2 ^ (m + 2) - 1)) fuel
        ((probing hash m).path key t) := by
  induction t generalizing fuel with
  | zero => rw [Nat.zero_add]
  | succ t ih =>
      have reached := ih (fun s lower => filled s (by omega)) (fuel + 1)
      have inside := (probing hash m).path_lt key t
      have isFilled : ¬ mark (new ((probing hash m).path key t)) = .empty := by
        cases slot : new ((probing hash m).path key t) with
        | empty => exact absurd slot (filled t (by omega))
        | deleted => simp [mark]
        | live entry => simp [mark]
      rw [show t + 1 + fuel = t + (fuel + 1) by omega, reached]
      simp only [khPlaceFrom, ac_isempty_eq shows_ inside, Option.bind_eq_bind, Option.bind_some,
        decide_eq_true_eq, if_neg isFilled, probe_next hash m key small]

theorem kh_place_from_eq (small : m ≤ 29)
    (shows_ : Shows newFlags (2 ^ (m + 2)) fun i => mark (new i))
    (room : occupied (2 ^ (m + 2)) new < 2 ^ (m + 2)) (key : Key) :
    ∃ t, t < 2 ^ (m + 2) ∧ khPlaceFrom newFlags (2 ^ (m + 2) - 1)
        (acInc (hash key).toNat (2 ^ (m + 2) - 1))
        (2 ^ (m + 2) - 1 + 1) ((hash key).toNat &&& (2 ^ (m + 2) - 1)) =
        some ((probing hash m).path key t) ∧
      (∀ s, s < t → new ((probing hash m).path key s) ≠ .empty) ∧
      new ((probing hash m).path key t) = .empty := by
  rcases stop_exists (probing hash m) Prod.fst (fun _ _ => False) room key with ⟨t, bound,
    stops, first⟩
  have empty : new ((probing hash m).path key t) = .empty := by
    rcases stops with empty | ⟨entry, slot, never⟩
    · exact empty
    · exact never.elim
  have filled : ∀ s, s < t → new ((probing hash m).path key s) ≠ .empty :=
    fun s lower isEmpty => first s lower (Or.inl isEmpty)
  obtain ⟨fuel, enough⟩ : ∃ fuel, 2 ^ (m + 2) - 1 + 1 = t + (fuel + 1) :=
    ⟨2 ^ (m + 2) - t - 1, by omega⟩
  refine ⟨t, bound, ?_, filled, empty⟩
  rw [probe_start, enough, kh_place_from_skip small shows_ filled]
  simp [khPlaceFrom, ac_isempty_eq shows_ ((probing hash m).path_lt key t), empty, mark]

/-- Placing the key in hand in the new table, whatever stands in its bucket in the old one. -/
theorem place_hand (symmetric : Std.Symm (SameKey equal)) {entry : Key × Nat}
    (state : Rehashing hash equal m whole h newFlags old new [entry])
    (distinct : whole.Pairwise fun left right => ¬ SameKey equal left.1 right.1) {t : Nat}
    (bound : t < 2 ^ (m + 2)) (filled : ∀ s, s < t → new ((probing hash m).path entry.1 s) ≠ .empty)
    (empty : new ((probing hash m).path entry.1 t) = .empty) :
    Placed (probing hash m) Prod.fst (SameKey equal)
        (Function.update new ((probing hash m).path entry.1 t) (.live entry)) ∧
      (entries (2 ^ (m + 2)) (Function.update new ((probing hash m).path entry.1 t)
        (.live entry))).Perm
        (entry :: entries (2 ^ (m + 2)) new) := by
  have allDistinct := state.all.symm.pairwise distinct fun differ equals =>
    differ (symmetric.symm _ _ equals)
  have apart := (List.pairwise_append.mp (List.pairwise_append.mp allDistinct).1).2.2
  apply placed_insert state.placed symmetric.symm entry bound filled
  · rw [empty]
    rfl
  · exact fun other member => apart other member entry (List.mem_singleton.mpr rfl)

theorem clean_update {i : Nat} {entry : Key × Nat}
    (clean : ∀ i, i < 2 ^ (m + 2) → new i ≠ .deleted) :
    ∀ j, j < 2 ^ (m + 2) → Function.update new i (.live entry) j ≠ .deleted := by
  intro j bound
  by_cases here : j = i
  · subst here
    simp
  · rw [Function.update_of_ne here]
    exact clean j bound

/-- The bucket holds nothing of the old table: the key is written and the process ends. -/
theorem rehashing_write (symmetric : Std.Symm (SameKey equal)) {entry : Key × Nat}
    (state : Rehashing hash equal m whole h newFlags old new [entry])
    (distinct : whole.Pairwise fun left right => ¬ SameKey equal left.1 right.1) {t : Nat}
    (bound : t < 2 ^ (m + 2)) (filled : ∀ s, s < t → new ((probing hash m).path entry.1 s) ≠ .empty)
    (empty : new ((probing hash m).path entry.1 t) = .empty)
    (dead : (probing hash m).path entry.1 t < h.nBuckets →
      (old ((probing hash m).path entry.1 t)).content = none)
    {keys : List (Option Key)} {vals : List (Option Nat)} {flagsAfter : List (BitVec 32)}
    (keySet : setCell h.keys ((probing hash m).path entry.1 t) entry.1 = some keys)
    (valSet : setCell h.vals ((probing hash m).path entry.1 t) entry.2 = some vals)
    (shows_ : Shows flagsAfter (2 ^ (m + 2))
      (Function.update (fun i => mark (new i)) ((probing hash m).path entry.1 t) .live)) :
    Rehashing hash equal m whole { h with keys, vals } flagsAfter old
      (Function.update new ((probing hash m).path entry.1 t) (.live entry)) [] := by
  rcases place_hand symmetric state distinct bound filled empty with ⟨placed, perm⟩
  exact {
    oldFlags := state.oldFlags
    newFlags := by
      rw [mark_update]
      exact shows_
    oldStored := stored_overwrite state.oldStored dead keySet valSet
    newStored := stored_live state.newStored keySet valSet
    apart := by
      intro j oldBound newBound nonempty
      by_cases here : j = (probing hash m).path entry.1 t
      · rw [here]
        exact dead (here ▸ oldBound)
      · rw [Function.update_of_ne here] at nonempty
        exact state.apart j oldBound newBound nonempty
    clean := clean_update state.clean
    placed := placed
    all := by
      have moved : (entry :: entries (2 ^ (m + 2)) new).Perm
          (entries (2 ^ (m + 2)) new ++ [entry]) :=
        (List.perm_append_singleton entry _).symm
      rw [List.append_nil]
      exact ((perm.trans moved).append_right _).trans state.all }

/-- The bucket holds a key of the old table, which is the next one in hand. -/
theorem rehashing_swap (symmetric : Std.Symm (SameKey equal)) {entry kicked : Key × Nat}
    (state : Rehashing hash equal m whole h newFlags old new [entry])
    (distinct : whole.Pairwise fun left right => ¬ SameKey equal left.1 right.1) {t : Nat}
    (bound : t < 2 ^ (m + 2)) (filled : ∀ s, s < t → new ((probing hash m).path entry.1 s) ≠ .empty)
    (empty : new ((probing hash m).path entry.1 t) = .empty)
    (inside : (probing hash m).path entry.1 t < h.nBuckets)
    (here : old ((probing hash m).path entry.1 t) = .live kicked)
    {keys : List (Option Key)} {vals : List (Option Nat)} {flags flagsAfter : List (BitVec 32)}
    (keySet : setCell h.keys ((probing hash m).path entry.1 t) entry.1 = some keys)
    (valSet : setCell h.vals ((probing hash m).path entry.1 t) entry.2 = some vals)
    (oldShows : Shows flags h.nBuckets
      (Function.update (fun i => mark (old i)) ((probing hash m).path entry.1 t) .deleted))
    (newShows : Shows flagsAfter (2 ^ (m + 2))
      (Function.update (fun i => mark (new i)) ((probing hash m).path entry.1 t) .live)) :
    Rehashing hash equal m whole { h with keys, vals, flags } flagsAfter
        (Function.update old ((probing hash m).path entry.1 t) .deleted)
        (Function.update new ((probing hash m).path entry.1 t) (.live entry)) [kicked] ∧
      (entries h.nBuckets old).length =
        (entries h.nBuckets (Function.update old ((probing hash m).path entry.1 t)
          .deleted)).length + 1 := by
  rcases place_hand symmetric state distinct bound filled empty with ⟨placed, perm⟩
  rcases entries_split_self inside old with ⟨rest, self, split⟩
  rw [here] at self
  have remaining : (entries h.nBuckets old).Perm
      (kicked :: entries h.nBuckets (Function.update old ((probing hash m).path entry.1 t)
        .deleted)) :=
    self.trans (List.Perm.cons _ (split .deleted).symm)
  constructor
  · exact {
      oldFlags := by
        rw [mark_update]
        exact oldShows
      newFlags := by
        rw [mark_update]
        exact newShows
      oldStored := by
        apply stored_overwrite (stored_dead state.oldStored rfl) _ keySet valSet
        intro _
        rw [Function.update_self]
        rfl
      newStored := stored_live state.newStored keySet valSet
      apart := by
        intro j oldBound newBound nonempty
        by_cases at_ : j = (probing hash m).path entry.1 t
        · rw [at_, Function.update_self]
          rfl
        · rw [Function.update_of_ne at_] at nonempty ⊢
          exact state.apart j oldBound newBound nonempty
      clean := clean_update state.clean
      placed := placed
      all := by
        have moved : (entry :: entries (2 ^ (m + 2)) new).Perm
            (entries (2 ^ (m + 2)) new ++ [entry]) :=
          (List.perm_append_singleton entry _).symm
        have joined := ((perm.trans moved).append remaining.symm).trans state.all
        rw [List.append_assoc]
        exact joined }
  · rw [remaining.length_eq, List.length_cons]

theorem shrinks_refl (table : Nat → Slot (Key × Nat)) : Shrinks table table := fun _ dead => dead

theorem shrinks_trans {first second third : Nat → Slot (Key × Nat)} (early : Shrinks first second)
    (late : Shrinks second third) : Shrinks first third := fun i dead => late i (early i dead)

theorem shrinks_delete (table : Nat → Slot (Key × Nat)) (i : Nat) :
    Shrinks table (Function.update table i .deleted) := by
  intro j dead
  by_cases here : j = i
  · subst here
    rw [Function.update_self]
    rfl
  · rw [Function.update_of_ne here]
    exact dead

theorem kh_holds_dead (shows_ : Shows h.flags h.nBuckets fun i => mark (old i)) {j : Nat}
    (dead : j < h.nBuckets → (old j).content = none) : khHolds h j = some false := by
  unfold khHolds
  split_ifs with inside
  · have skipped := mark_of_content (dead inside)
    simp [ac_iseither_eq shows_ inside, skipped]
  · rfl

theorem kh_holds_live (shows_ : Shows h.flags h.nBuckets fun i => mark (old i)) {j : Nat}
    (inside : j < h.nBuckets) {entry : Key × Nat} (here : old j = .live entry) :
    khHolds h j = some true := by
  rw [khHolds, if_pos inside, ac_iseither_eq shows_ inside, here]
  rfl

/-- The kick-out process ends, since every round takes an entry out of the old table. -/
theorem kh_kick_out_eq (symmetric : Std.Symm (SameKey equal)) (small : m ≤ 29)
    (distinct : whole.Pairwise fun left right => ¬ SameKey equal left.1 right.1)
    (fits : whole.length < 2 ^ (m + 2)) (fuel : Nat) {entry : Key × Nat}
    (state : Rehashing hash equal m whole h newFlags old new [entry])
    (enough : (entries h.nBuckets old).length < fuel) :
    ∃ after flagsAfter oldAfter newAfter,
      khKickOut hash (2 ^ (m + 2) - 1) fuel h newFlags entry.1 entry.2 = some (after, flagsAfter) ∧
      Rehashing hash equal m whole after flagsAfter oldAfter newAfter [] ∧ SameShape h after ∧
      Shrinks old oldAfter := by
  induction fuel generalizing h newFlags old new entry with
  | zero => exact absurd enough (Nat.not_lt_zero _)
  | succ fuel ih =>
      have room : occupied (2 ^ (m + 2)) new < 2 ^ (m + 2) := by
        have total := state.all.length_eq
        rw [List.length_append, List.length_append] at total
        rw [occupied_eq_length state.clean]
        omega
      rcases kh_place_from_eq small state.newFlags room entry.1 with ⟨t, bound, placed,
        filled, empty⟩
      have newInside := (probing hash m).path_lt entry.1 t
      rcases ac_set_isempty_false_eq state.newFlags newInside (by rw [empty]; rfl) with
        ⟨flagsAfter, flagsSet, newShows⟩
      rcases set_cell_eq (Nat.lt_of_lt_of_le newInside state.newStored.keys_length) entry.1 with
        ⟨keys, keySet⟩
      rcases set_cell_eq (Nat.lt_of_lt_of_le newInside state.newStored.vals_length) entry.2 with
        ⟨vals, valSet⟩
      by_cases dead : (probing hash m).path entry.1 t < h.nBuckets →
          (old ((probing hash m).path entry.1 t)).content = none
      · refine ⟨_, _, old, _, ?_, rehashing_write symmetric state distinct bound filled empty dead
          keySet valSet
          newShows, ⟨rfl, rfl⟩, shrinks_refl old⟩
        have notHeld : khHolds h ((probing hash m).path entry.1 t) = some false :=
          kh_holds_dead state.oldFlags dead
        simp only [khKickOut, placed, flagsSet, notHeld, keySet, valSet, Option.bind_eq_bind,
          Option.bind_some, Bool.false_eq_true, if_false]
      · obtain ⟨inside, kicked, here⟩ : (probing hash m).path entry.1 t < h.nBuckets ∧
            ∃ kicked, old ((probing hash m).path entry.1 t) = .live kicked := by
          rw [Classical.not_imp] at dead
          exact ⟨dead.1, (content_or_live _).resolve_left dead.2⟩
        rcases ac_set_isdel_true_eq state.oldFlags inside (by rw [here]; rfl) with ⟨flags,
          delSet, oldShows⟩
        rcases rehashing_swap symmetric state distinct bound filled empty inside here keySet
          valSet oldShows
          newShows with ⟨swapped, fewer⟩
        have enoughAfter : (entries h.nBuckets
            (Function.update old ((probing hash m).path entry.1 t) .deleted)).length <
            fuel := by omega
        rcases ih swapped enoughAfter with ⟨after, finalFlags, oldAfter, newAfter, ran, final,
          shape, shrinks⟩
        refine ⟨after, finalFlags, oldAfter, newAfter, ?_, final, ⟨shape.nBuckets, shape.size⟩,
          shrinks_trans (shrinks_delete old _) shrinks⟩
        have held : khHolds h ((probing hash m).path entry.1 t) = some true :=
          kh_holds_live state.oldFlags inside here
        simp only [khKickOut, placed, flagsSet, held, keySet, valSet, delSet, Option.bind_eq_bind,
          Option.bind_some, if_true, state.oldStored.key _ kicked inside here,
          state.oldStored.val _ kicked inside here]
        exact ran

/-! ## All old buckets -/

theorem rehashing_take {entry : Key × Nat} {j : Nat}
    (state : Rehashing hash equal m whole h newFlags old new []) (bound : j < h.nBuckets)
    (here : old j = .live entry) {flags : List (BitVec 32)}
    (shows_ : Shows flags h.nBuckets (Function.update (fun i => mark (old i)) j .deleted)) :
    Rehashing hash equal m whole { h with flags } newFlags (Function.update old j .deleted) new
    [entry] := by
  rcases entries_split_self bound old with ⟨rest, self, split⟩
  rw [here] at self
  have remaining : (entry :: entries h.nBuckets (Function.update old j .deleted)).Perm
      (entries h.nBuckets old) := (List.Perm.cons _ (split .deleted)).trans self.symm
  exact {
    oldFlags := by
      rw [mark_update]
      exact shows_
    newFlags := state.newFlags
    oldStored := stored_dead state.oldStored rfl
    newStored := state.newStored
    apart := fun i oldBound newBound nonempty =>
      shrinks_delete old j i (state.apart i oldBound newBound nonempty)
    clean := state.clean
    placed := state.placed
    all := by
      have before := state.all
      rw [List.append_nil] at before
      rw [List.append_assoc]
      exact (remaining.append_left _).trans before }

theorem kh_rehash_eq (symmetric : Std.Symm (SameKey equal)) (small : m ≤ 29)
    (distinct : whole.Pairwise fun left right => ¬ SameKey equal left.1 right.1)
    (fits : whole.length < 2 ^ (m + 2)) (js : List Nat)
    (state : Rehashing hash equal m whole h newFlags old new [])
    (inside : ∀ j ∈ js, j < h.nBuckets) :
    ∃ after flagsAfter oldAfter newAfter,
      khRehash hash (2 ^ (m + 2) - 1) js h newFlags = some (after, flagsAfter) ∧
      Rehashing hash equal m whole after flagsAfter oldAfter newAfter [] ∧ SameShape h after ∧
      Shrinks old oldAfter ∧ ∀ j ∈ js, (oldAfter j).content = none := by
  induction js generalizing h newFlags old new with
  | nil =>
      exact ⟨h, newFlags, old, new, rfl, state, ⟨rfl, rfl⟩, shrinks_refl old,
        fun j member => by cases member⟩
  | cons j js ih =>
      have bound := inside j List.mem_cons_self
      have either := ac_iseither_eq state.oldFlags bound
      rcases content_or_live (old j) with deadHere | ⟨entry, here⟩
      · have skipped : mark (old j) ≠ .live := mark_of_content deadHere
        rcases ih state (fun i member => inside i (List.mem_cons_of_mem _ member)) with
          ⟨after, finalFlags, oldAfter, newAfter, ran, final, shape, shrinks, dead⟩
        refine ⟨after, finalFlags, oldAfter, newAfter, ?_, final, shape, shrinks, ?_⟩
        · simp only [khRehash, either, Option.bind_eq_bind, Option.bind_some, skipped, ne_eq,
            not_false_eq_true, decide_true, if_true]
          exact ran
        · intro i member
          rcases List.mem_cons.mp member with first | later
          · rw [first]
            exact shrinks j deadHere
          · exact dead i later
      · rcases ac_set_isdel_true_eq state.oldFlags bound (by rw [here]; rfl) with ⟨flags,
          delSet, shows_⟩
        have taken := rehashing_take state bound here shows_
        have few : (entries h.nBuckets (Function.update old j .deleted)).length <
            h.nBuckets + 1 := by
          have most := entries_length_le h.nBuckets (Function.update old j .deleted)
          omega
        rcases kh_kick_out_eq symmetric small distinct fits (h.nBuckets + 1) taken few with
          ⟨mid, midFlags, oldMid, newMid, kicked, midState, midShape, midShrinks⟩
        have insideMid : ∀ i ∈ js, i < mid.nBuckets := by
          intro i member
          rw [midShape.nBuckets]
          exact inside i (List.mem_cons_of_mem _ member)
        rcases ih midState insideMid with
          ⟨after, finalFlags, oldAfter, newAfter, ran, final, shape, shrinks, dead⟩
        refine ⟨after, finalFlags, oldAfter, newAfter, ?_, final,
          ⟨shape.nBuckets.trans midShape.nBuckets, shape.size.trans midShape.size⟩,
          shrinks_trans (shrinks_trans (shrinks_delete old j) midShrinks) shrinks, ?_⟩
        · rw [here] at either
          simp only [khRehash, either, state.oldStored.key _ entry bound here,
            state.oldStored.val _ entry bound here, delSet, kicked, Option.bind_eq_bind,
            Option.bind_some, mark,
            ne_eq, not_true_eq_false, decide_false, Bool.false_eq_true, if_false]
          exact ran
        · intro i member
          rcases List.mem_cons.mp member with first | later
          · rw [first]
            apply shrinks
            apply midShrinks
            rw [Function.update_self]
            rfl
          · exact dead i later

/-! ## The resizing -/

theorem resize_target {request : Nat} (positive : 1 ≤ request) (bound : request ≤ 2 ^ 31) :
    ∃ m, m ≤ 29 ∧ (if kroundup32 request < 4 then 4 else kroundup32 request) = 2 ^ (m + 2) ∧
      request ≤ 2 ^ (m + 2) := by
  rcases kroundup32_eq positive bound with ⟨k, kBound, rounded, enough⟩
  rw [rounded]
  split_ifs with few
  · exact ⟨0, by omega, rfl, by omega⟩
  · have large : 2 ≤ k := by
      by_contra below
      have tiny : 2 ^ k ≤ 2 ^ 1 := Nat.pow_le_pow_right (by decide) (by omega)
      omega
    refine ⟨k - 2, by omega, ?_, ?_⟩
    · rw [Nat.sub_add_cancel large]
    · rw [Nat.sub_add_cancel large]
      exact enough

theorem rehashing_start (h : KhA Key) (old : Nat → Slot (Key × Nat))
    (shows_ : Shows h.flags h.nBuckets fun i => mark (old i))
    (stored : Stored h.keys h.vals h.nBuckets old) (keysLength : 2 ^ (m + 2) ≤ h.keys.length)
    (valsLength : 2 ^ (m + 2) ≤ h.vals.length) :
    Rehashing hash equal m (entries h.nBuckets old) h
      (List.replicate (acFsize (2 ^ (m + 2))) 0xaaaaaaaa#32) old (fun _ => .empty) [] where
  oldFlags := shows_
  newFlags := by
    have fresh := shows_fresh (fsize_enough (m + 2)) []
    rw [List.append_nil] at fresh
    exact fresh
  oldStored := stored
  newStored := stored_fresh keysLength valsLength
  apart := fun i oldBound newBound nonempty => absurd rfl nonempty
  clean := fun i bound => by simp
  placed := placed_empty _ _
  all := by
    rw [entries_nil fun i bound => rfl]
    exact List.Perm.refl _

theorem rehashing_grown (shows_ : Shows h.flags h.nBuckets fun i => mark (old i))
    (stored : Stored h.keys h.vals h.nBuckets old) :
    Rehashing hash equal m (entries h.nBuckets old)
      (if h.nBuckets < 2 ^ (m + 2) then khRealloc h (2 ^ (m + 2)) else h)
      (List.replicate (acFsize (2 ^ (m + 2))) 0xaaaaaaaa#32) old (fun _ => .empty) [] := by
  split_ifs with expand
  · exact rehashing_start (khRealloc h (2 ^ (m + 2))) old shows_
      (stored_realloc stored (Nat.le_of_lt expand))
      (Nat.le_of_eq (realloc_length _ _).symm) (Nat.le_of_eq (realloc_length _ _).symm)
  · have keysLength := stored.keys_length
    have valsLength := stored.vals_length
    exact rehashing_start h old shows_ stored (by omega) (by omega)

theorem stored_cut (stored : Stored h.keys h.vals (2 ^ (m + 2)) new) :
    Stored (if h.nBuckets > 2 ^ (m + 2) then khRealloc h (2 ^ (m + 2)) else h).keys
      (if h.nBuckets > 2 ^ (m + 2) then khRealloc h (2 ^ (m + 2)) else h).vals
      (2 ^ (m + 2)) new := by
  split_ifs with shrink
  · exact stored_realloc stored (Nat.le_refl _)
  · exact stored

theorem same_shape_realloc (condition : Prop) [Decidable condition] (count : Nat) :
    SameShape h (if condition then khRealloc h count else h) := by
  split_ifs
  · exact ⟨rfl, rfl⟩
  · exact ⟨rfl, rfl⟩

/-- `kh_resize_A` rehashes all entries, when the new table is not too small for them. -/
theorem kh_resize_eq (symmetric : Std.Symm (SameKey equal)) {request : Nat} (small : m ≤ 29)
    (target : (if kroundup32 request < 4 then 4 else kroundup32 request) = 2 ^ (m + 2))
    (shows_ : Shows h.flags h.nBuckets fun i => mark (old i))
    (stored : Stored h.keys h.vals h.nBuckets old)
    (distinct : (entries h.nBuckets old).Pairwise fun left right => ¬ SameKey equal left.1 right.1)
    (counted : h.size = (entries h.nBuckets old).length)
    (loose : h.size < acHashUpper (2 ^ (m + 2))) :
    ∃ after table, khResize hash h request = some after ∧ Sound hash equal m after table ∧
      (entries (2 ^ (m + 2)) table).Perm (entries h.nBuckets old) ∧
      after.nOccupied < after.upperBound := by
  let grown := if h.nBuckets < 2 ^ (m + 2) then khRealloc h (2 ^ (m + 2)) else h
  have grownShape : SameShape h grown := same_shape_realloc _ _
  have start : Rehashing hash equal m (entries h.nBuckets old) grown
    (List.replicate (acFsize (2 ^ (m + 2))) 0xaaaaaaaa#32) old (fun _ => .empty) [] :=
    rehashing_grown shows_ stored
  have upper := upper_lt (buckets_ge m)
  have fits : (entries h.nBuckets old).length < 2 ^ (m + 2) := by omega
  have inside : ∀ j ∈ List.range grown.nBuckets, j < grown.nBuckets :=
    fun j member => List.mem_range.mp member
  rcases kh_rehash_eq symmetric small distinct fits (List.range grown.nBuckets) start inside with
    ⟨after, flagsAfter, oldAfter, newAfter, ran, final, shape, shrinks, dead⟩
  have nothing : entries after.nBuckets oldAfter = [] := by
    apply entries_nil
    intro i bound
    exact dead i (List.mem_range.mpr (shape.nBuckets ▸ bound))
  have perm := final.all
  rw [nothing, List.append_nil, List.append_nil] at perm
  let cut := if after.nBuckets > 2 ^ (m + 2) then khRealloc after (2 ^ (m + 2)) else after
  have cutShape : SameShape after cut := same_shape_realloc _ _
  have cutSize : cut.size = h.size := cutShape.size.trans (shape.size.trans grownShape.size)
  refine ⟨{ cut with flags := flagsAfter, nBuckets := 2 ^ (m + 2), nOccupied := cut.size,
                     upperBound := acHashUpper (2 ^ (m + 2)) }, newAfter, ?_, ?_, perm, ?_⟩
  · have notFull : ¬ h.size ≥ acHashUpper (2 ^ (m + 2)) := by omega
    simp only [khResize, target, if_neg notFull, Option.bind_eq_bind]
    exact congrArg (Option.bind · _) ran
  · exact {
      small := small
      buckets := rfl
      flags := final.newFlags
      stored := stored_cut final.newStored
      placed := final.placed
      size := by
        rw [perm.length_eq, ← counted]
        exact cutSize
      occupied := by
        rw [occupied_eq_length final.clean, perm.length_eq, ← counted]
        exact cutSize
      upper := rfl
      below := by
        show cut.size ≤ _
        rw [cutSize]
        exact Nat.le_of_lt loose }
  · show cut.size < _
    rw [cutSize]
    exact loose

end TWlib.KHashResize
