import Mathlib.Data.Nat.ModEq
import Mathlib.Data.Nat.Prime.Basic
import Mathlib.Data.List.Range
import Mathlib.Data.List.Perm.Basic
import Mathlib.Data.Fintype.Card
import Mathlib.Data.Fintype.EquivFin
import Mathlib.Logic.Function.Basic
import Mathlib.Algebra.Group.Nat.Even
import Mathlib.Tactic.Ring

/-!
# Open addressing with deleted slots

A key visits the buckets in the order of its probe path. An entry is found as
long as no bucket before it on the path of its key is empty, which is why a
removal leaves a deleted slot behind. `Placed` is that invariant together with
the absence of equal keys.
-/

namespace TWlib.Lib.OpenAddressing

set_option autoImplicit false

/-- Paths that visit each of the `n` buckets once in their first `n` steps. -/
structure Probing (Key : Type*) (n : Nat) where
  path : Key → Nat → Nat
  path_lt : ∀ key t, path key t < n
  apart : ∀ key s t, s < n → t < n → path key s = path key t → s = t

section Paths

variable {Key : Type*} {n : Nat}

theorem path_covers (probing : Probing Key n) (key : Key) {i : Nat} (bound : i < n) :
    ∃ t, t < n ∧ probing.path key t = i := by
  let visit : Fin n → Fin n := fun t => ⟨probing.path key t, probing.path_lt key t⟩
  have injective : Function.Injective visit := by
    intro s t same
    apply Fin.ext
    exact probing.apart key s t s.isLt t.isLt (congrArg Fin.val same)
  rcases Finite.injective_iff_surjective.mp injective ⟨i, bound⟩ with ⟨t, visited⟩
  exact ⟨t, t.isLt, congrArg Fin.val visited⟩

/-- A step that is odd leads round all buckets of a table whose size is a power of two. -/
def Probing.double (m : Nat) (start step : Key → Nat) (odd : ∀ key, step key % 2 = 1) :
    Probing Key (2 ^ m) where
  path key t := (start key + t * step key) % 2 ^ m
  path_lt key t := Nat.mod_lt _ (Nat.two_pow_pos m)
  apart key s t sBound tBound same := by
    have coprime : Nat.gcd (2 ^ m) (step key) = 1 := by
      apply Nat.Coprime.pow_left
      exact Nat.coprime_two_left.mpr (Nat.odd_iff.mpr (odd key))
    have shifted : start key + s * step key ≡ start key + t * step key [MOD 2 ^ m] := same
    have turned : s ≡ t [MOD 2 ^ m] :=
      Nat.ModEq.cancel_right_of_coprime coprime (Nat.ModEq.add_left_cancel' _ shifted)
    exact Nat.ModEq.eq_of_lt_of_lt turned sBound tBound

theorem double_zero (m : Nat) (start step : Key → Nat) (odd : ∀ key, step key % 2 = 1) (key : Key) :
    (Probing.double m start step odd).path key 0 = start key % 2 ^ m := by
  simp [Probing.double]

theorem double_succ (m : Nat) (start step : Key → Nat) (odd : ∀ key, step key % 2 = 1) (key : Key)
    (t : Nat) : (Probing.double m start step odd).path key (t + 1) =
      ((Probing.double m start step odd).path key t + step key) % 2 ^ m := by
  simp only [Probing.double, Nat.mod_add_mod]
  congr 1
  rw [Nat.succ_mul, Nat.add_assoc]

/-- The distances `1`, `2`, `3` and so on lead round all buckets of a table whose size is a power of
two. -/
theorem triangle_apart {m s t : Nat} (lower : s < t) (bound : t < 2 ^ m) :
    ¬ 2 ^ m ∣ t * (t + 1) / 2 - s * (s + 1) / 2 := by
  intro divides
  have evenLeft : t * (t + 1) / 2 * 2 = t * (t + 1) :=
    Nat.div_mul_cancel (Nat.even_mul_succ_self t).two_dvd
  have evenRight : s * (s + 1) / 2 * 2 = s * (s + 1) :=
    Nat.div_mul_cancel (Nat.even_mul_succ_self s).two_dvd
  obtain ⟨d, rfl⟩ : ∃ d, t = s + d := ⟨t - s, by omega⟩
  have split : d * (s + d + s + 1) = (s + d) * (s + d + 1) - s * (s + 1) := by
    apply Nat.eq_sub_of_add_eq
    ring
  have product : 2 ^ (m + 1) ∣ d * (s + d + s + 1) := by
    rw [split, ← evenLeft, ← evenRight, ← Nat.sub_mul, Nat.pow_succ]
    exact Nat.mul_dvd_mul_right divides 2
  -- One of the factors is odd, and neither is as large as the power.
  rcases Nat.even_or_odd d with even | odd
  · have coprime : Nat.Coprime (2 ^ (m + 1)) (s + d + s + 1) := by
      apply Nat.Coprime.pow_left
      apply Nat.coprime_two_left.mpr
      rcases even with ⟨half, rfl⟩
      exact ⟨s + half, by omega⟩
    have large := Nat.le_of_dvd (by omega) (coprime.dvd_of_dvd_mul_right product)
    rw [Nat.pow_succ] at large
    omega
  · have coprime : Nat.Coprime (2 ^ (m + 1)) d := by
      apply Nat.Coprime.pow_left
      exact Nat.coprime_two_left.mpr odd
    have large := Nat.le_of_dvd (by omega) (coprime.dvd_of_dvd_mul_left product)
    rw [Nat.pow_succ] at large
    omega

def Probing.triangular (m : Nat) (start : Key → Nat) : Probing Key (2 ^ m) where
  path key t := (start key + t * (t + 1) / 2) % 2 ^ m
  path_lt key t := Nat.mod_lt _ (Nat.two_pow_pos m)
  apart key s t sBound tBound same := by
    have shifted : start key + s * (s + 1) / 2 ≡ start key + t * (t + 1) / 2 [MOD 2 ^ m] := same
    have turned := Nat.ModEq.add_left_cancel' _ shifted
    have monotone : ∀ {a b : Nat}, a < b → a * (a + 1) / 2 ≤ b * (b + 1) / 2 := by
      intro a b lower
      exact Nat.div_le_div_right (Nat.mul_le_mul (by omega) (by omega))
    rcases Nat.lt_trichotomy s t with lower | here | upper
    · exact absurd ((Nat.modEq_iff_dvd' (monotone lower)).mp turned) (triangle_apart lower tBound)
    · exact here
    · exact absurd ((Nat.modEq_iff_dvd' (monotone upper)).mp turned.symm)
        (triangle_apart upper sBound)

theorem triangular_zero (m : Nat) (start : Key → Nat) (key : Key) :
    (Probing.triangular m start).path key 0 = start key % 2 ^ m := by
  simp [Probing.triangular]

theorem triangular_succ (m : Nat) (start : Key → Nat) (key : Key) (t : Nat) :
    (Probing.triangular m start).path key (t + 1) =
      ((Probing.triangular m start).path key t + (t + 1)) % 2 ^ m := by
  simp only [Probing.triangular, Nat.mod_add_mod]
  congr 1
  have next : (t + 1) * (t + 1 + 1) / 2 = t * (t + 1) / 2 + (t + 1) := by
    rw [show (t + 1) * (t + 1 + 1) = t * (t + 1) + (t + 1) * 2 by ring,
      Nat.add_mul_div_right _ _ (by omega)]
  rw [next, Nat.add_assoc]

end Paths

/-! ## Slots and their entries -/

inductive Slot (Entry : Type*) where
  | empty
  | deleted
  | live (entry : Entry)

section Slots

variable {Entry : Type*}

def Slot.content : Slot Entry → Option Entry
  | .live entry => some entry
  | _ => none

def Slot.occupied : Slot Entry → Bool
  | .empty => false
  | _ => true

def entries (n : Nat) (table : Nat → Slot Entry) : List Entry :=
  (List.range n).filterMap fun i => (table i).content

def occupied (n : Nat) (table : Nat → Slot Entry) : Nat :=
  (List.range n).countP fun i => (table i).occupied

variable {n : Nat} {table : Nat → Slot Entry}

theorem content_or_live (slot : Slot Entry) : slot.content = none ∨
    ∃ entry, slot = .live entry := by
  cases slot with
  | empty => exact Or.inl rfl
  | deleted => exact Or.inl rfl
  | live entry => exact Or.inr ⟨entry, rfl⟩

theorem mem_entries {entry : Entry} : entry ∈ entries n table ↔ ∃ i, i < n ∧
    table i = .live entry := by
  simp only [entries, List.mem_filterMap, List.mem_range]
  constructor
  · rintro ⟨i, bound, found⟩
    refine ⟨i, bound, ?_⟩
    cases slot : table i with
    | empty => rw [slot] at found; cases found
    | deleted => rw [slot] at found; cases found
    | live other =>
        rw [slot] at found
        cases found
        rfl
  · rintro ⟨i, bound, slot⟩
    exact ⟨i, bound, by rw [slot]; rfl⟩

private theorem range_split {i : Nat} (bound : i < n) :
    (List.range n).Perm (i :: (List.range n).erase i) :=
    List.perm_cons_erase (List.mem_range.mpr bound)

private theorem rest_same {i j : Nat} (member : j ∈ (List.range n).erase i) (slot : Slot Entry) :
    Function.update table i slot j = table j := by
  have apart : j ≠ i := by
    intro same
    subst same
    exact List.nodup_range.not_mem_erase member
  exact Function.update_of_ne apart _ _

theorem entries_split {i : Nat} (bound : i < n) (table : Nat → Slot Entry) :
    ∃ rest, ∀ slot, (entries n (Function.update table i slot)).Perm
    (slot.content.toList ++ rest) := by
  refine ⟨((List.range n).erase i).filterMap fun j => (table j).content, fun slot => ?_⟩
  have turned := (range_split bound).filterMap fun j => (Function.update table i slot j).content
  have others : ((List.range n).erase i).filterMap
      (fun j => (Function.update table i slot j).content) =
      ((List.range n).erase i).filterMap fun j => (table j).content := by
    apply List.filterMap_congr
    intro j member
    rw [rest_same member]
  rw [List.filterMap_cons, Function.update_self, others] at turned
  unfold entries
  cases found : slot.content with
  | none => simpa [found] using turned
  | some entry => simpa [found] using turned

theorem entries_split_self {i : Nat} (bound : i < n) (table : Nat → Slot Entry) :
    ∃ rest, (entries n table).Perm ((table i).content.toList ++ rest) ∧
      ∀ slot, (entries n (Function.update table i slot)).Perm (slot.content.toList ++ rest) := by
  rcases entries_split bound table with ⟨rest, split⟩
  have self := split (table i)
  rw [Function.update_eq_self] at self
  exact ⟨rest, self, split⟩

theorem occupied_split {i : Nat} (bound : i < n) (table : Nat → Slot Entry) :
    ∃ rest, occupied n table = rest + (if (table i).occupied then 1 else 0) ∧
      ∀ slot, occupied n (Function.update table i slot) = rest + if slot.occupied then 1
      else 0 := by
  have split : ∀ slot : Slot Entry, occupied n (Function.update table i slot) =
      ((List.range n).erase i).countP (fun j => (table j).occupied) + if slot.occupied then 1
      else 0 := by
    intro slot
    have others : ((List.range n).erase i).countP (fun j =>
        (Function.update table i slot j).occupied) =
        ((List.range n).erase i).countP fun j => (table j).occupied := by
      apply List.countP_congr
      intro j member
      rw [rest_same member]
    rw [occupied, (range_split bound).countP_eq, List.countP_cons, Function.update_self, others]
  have self := split (table i)
  rw [Function.update_eq_self] at self
  exact ⟨_, self, split⟩

theorem exists_empty (room : occupied n table < n) : ∃ i, i < n ∧ table i = .empty := by
  by_contra none_
  have all : ∀ i ∈ List.range n, (table i).occupied = true := by
    intro i member
    cases slot : table i with
    | empty => exact absurd ⟨i, List.mem_range.mp member, slot⟩ none_
    | deleted => rfl
    | live entry => rfl
  rw [occupied, List.countP_eq_length.mpr all, List.length_range] at room
  exact Nat.lt_irrefl n room

theorem occupied_eq_length (clean : ∀ i, i < n → table i ≠ .deleted) :
    occupied n table = (entries n table).length := by
  rw [occupied, entries, List.length_filterMap_eq_countP]
  apply List.countP_congr
  intro i member
  cases slot : table i with
  | empty => simp [Slot.occupied, Slot.content]
  | deleted => exact absurd slot (clean i (List.mem_range.mp member))
  | live entry => simp [Slot.occupied, Slot.content]

theorem length_le_occupied : (entries n table).length ≤ occupied n table := by
  rw [occupied, entries, List.length_filterMap_eq_countP]
  apply List.countP_mono_left
  intro i member isLive
  cases slot : table i with
  | empty => simp [slot, Slot.content] at isLive
  | deleted => rfl
  | live entry => rfl

theorem length_lt_occupied {i : Nat} (bound : i < n) (slot : table i = .deleted) :
    (entries n table).length < occupied n table := by
  rcases entries_split_self bound table with ⟨rest, self, split⟩
  rcases occupied_split bound table with ⟨others, counted, update⟩
  have lengths := self.length_eq
  have without := (split .empty).length_eq
  rw [slot] at lengths counted
  have most : (entries n (Function.update table i .empty)).length ≤
      occupied n (Function.update table i .empty) :=
    length_le_occupied
  rw [update .empty] at most
  simp only [Slot.content, Slot.occupied, Option.toList_none, List.nil_append,
    if_true] at lengths without counted
  simp only [Slot.occupied, Bool.false_eq_true, if_false] at most
  omega

/-! ## Deletions leave the other slots -/

def Deletes (table after : Nat → Slot Entry) : Prop := ∀ i, after i = table i ∨ after i = .deleted

variable {after last : Nat → Slot Entry}

theorem deletes_refl (table : Nat → Slot Entry) : Deletes table table := fun _ => .inl rfl

theorem deletes_update (table : Nat → Slot Entry) (i : Nat) :
    Deletes table (Function.update table i .deleted) := by
  intro j
  rw [Function.update_apply]
  split_ifs
  · exact .inr rfl
  · exact .inl rfl

theorem deletes_trans (early : Deletes table after) (late : Deletes after last) :
    Deletes table last := by
  intro i
  rcases late i with same | gone
  · rw [same]
    exact early i
  · exact .inr gone

theorem deletes_live {i : Nat} {entry : Entry} (deletes : Deletes table after)
    (slot : after i = .live entry) :
    table i = .live entry := by
  rcases deletes i with same | gone
  · rw [← same, slot]
  · rw [slot] at gone
    cases gone

theorem entries_sublist (deletes : Deletes table after) (n : Nat) :
    (entries n after).Sublist (entries n table) := by
  induction n with
  | zero => exact List.Sublist.refl _
  | succ n inductionHypothesis =>
      rw [entries, entries, List.range_succ, List.filterMap_append, List.filterMap_append]
      apply List.Sublist.append inductionHypothesis
      rcases deletes n with same | gone
      · simp only [List.filterMap_cons, List.filterMap_nil, same]
        exact List.Sublist.refl _
      · simp [gone, Slot.content]

def entriesFrom (n i : Nat) (table : Nat → Slot Entry) : List Entry :=
  (List.range' i (n - i)).filterMap fun j => (table j).content

theorem entries_from_zero (n : Nat) (table : Nat → Slot Entry) :
    entriesFrom n 0 table = entries n table := by
  rw [entriesFrom, entries, Nat.sub_zero, List.range_eq_range']

theorem entries_from_end (n : Nat) (table : Nat → Slot Entry) : entriesFrom n n table = [] := by
  rw [entriesFrom, Nat.sub_self]
  rfl

theorem entries_from_step {i : Nat} (bound : i < n) (table : Nat → Slot Entry) :
    entriesFrom n i table = (table i).content.toList ++ entriesFrom n (i + 1) table := by
  obtain ⟨left, split⟩ : ∃ left, n - i = left + 1 := ⟨n - i - 1, by omega⟩
  rw [entriesFrom, entriesFrom, split, show n - (i + 1) = left by omega, List.range'_succ,
    List.filterMap_cons]
  cases (table i).content <;> rfl

theorem entries_from_update {i j : Nat} (behind : i < j) (table : Nat → Slot Entry)
    (slot : Slot Entry) :
    entriesFrom n j (Function.update table i slot) = entriesFrom n j table := by
  apply List.filterMap_congr
  intro k member
  rw [List.mem_range'] at member
  rcases member with ⟨d, -, rfl⟩
  rw [Function.update_of_ne (by omega)]

theorem entries_length_le (n : Nat) (table : Nat → Slot Entry) : (entries n table).length ≤ n := by
  have most := List.length_filterMap_le (fun i => (table i).content) (List.range n)
  rwa [List.length_range] at most

theorem entries_congr {other : Nat → Slot Entry} (same : ∀ i, i < n → table i = other i) :
    entries n table = entries n other := by
  apply List.filterMap_congr
  intro i member
  rw [same i (List.mem_range.mp member)]

theorem entries_nil (dead : ∀ i, i < n → (table i).content = none) : entries n table = [] := by
  rw [entries, List.filterMap_eq_nil_iff]
  intro i member
  exact dead i (List.mem_range.mp member)

end Slots

/-! ## The invariant of the table -/

section Invariant

variable {Entry Key : Type*} {n : Nat} (probing : Probing Key n) (key : Entry → Key)
    (same : Key → Key → Prop)

structure Placed (table : Nat → Slot Entry) : Prop where
  reached : ∀ i entry, i < n → table i = .live entry → ∃ t, t < n ∧ probing.path (key entry) t = i ∧
    ∀ s, s < t → table (probing.path (key entry) s) ≠ .empty
  distinct : (entries n table).Pairwise fun left right => ¬ same (key left) (key right)

/-- A search for `sought` ends here. -/
def Stops (table : Nat → Slot Entry) (sought : Key) (t : Nat) : Prop :=
  table (probing.path sought t) = .empty ∨
    ∃ entry, table (probing.path sought t) = .live entry ∧ same (key entry) sought

variable {probing key same} {table : Nat → Slot Entry} {sought : Key}

theorem placed_unique {i j : Nat} {one other : Entry} (placed : Placed probing key same table)
    (symmetric : ∀ a b, same a b → same b a) (boundOne : i < n) (boundOther : j < n)
    (slotOne : table i = .live one) (slotOther : table j = .live other)
    (equal : same (key one) (key other)) : i = j := by
  have apart := List.pairwise_iff_getElem.mp (List.pairwise_filterMap.mp placed.distinct)
  rcases Nat.lt_trichotomy i j with before | here | behind
  · have differ := apart i j (by simpa using boundOne) (by simpa using boundOther) before
    simp only [List.getElem_range, slotOne, slotOther, Slot.content] at differ
    exact absurd equal (differ one rfl other rfl)
  · exact here
  · have differ := apart j i (by simpa using boundOther) (by simpa using boundOne) behind
    simp only [List.getElem_range, slotOne, slotOther, Slot.content] at differ
    exact absurd (symmetric _ _ equal) (differ other rfl one rfl)

variable (probing key same) in
theorem stop_exists (room : occupied n table < n) (sought : Key) :
    ∃ t, t < n ∧ Stops probing key same table sought t ∧
      ∀ s, s < t → ¬ Stops probing key same table sought s := by
  classical
  rcases exists_empty room with ⟨i, iBound, iEmpty⟩
  rcases path_covers probing sought iBound with ⟨u, uBound, visited⟩
  have some_ : ∃ t, Stops probing key same table sought t := ⟨u, Or.inl (by rw [visited, iEmpty])⟩
  have before : Nat.find some_ ≤ u := Nat.find_min' some_ (Or.inl (by rw [visited, iEmpty]))
  exact ⟨Nat.find some_, by omega, Nat.find_spec some_, fun s lower => Nat.find_min some_ lower⟩

/-- A search that comes to an empty slot has not missed an entry. -/
theorem absent_of_empty (placed : Placed probing key same table)
    (compatible : ∀ left right, same left right → probing.path left = probing.path right) {t : Nat}
    (first : ∀ s, s < t → ¬ Stops probing key same table sought s)
    (empty : table (probing.path sought t) = .empty) :
    ∀ entry ∈ entries n table, ¬ same (key entry) sought := by
  intro entry member equal
  rcases mem_entries.mp member with ⟨i, bound, slot⟩
  rcases placed.reached i entry bound slot with ⟨u, uBound, visited, filled⟩
  rw [compatible _ _ equal] at visited filled
  rcases Nat.lt_trichotomy u t with earlier | now | later
  · exact first u earlier (Or.inr ⟨entry, by rw [visited, slot], equal⟩)
  · rw [← now, visited, slot] at empty
    cases empty
  · exact filled t later empty

theorem placed_reached_update (placed : Placed probing key same table) {i : Nat} {slot : Slot Entry}
    (filled : slot ≠ .empty)
    (fresh : ∀ entry, slot = .live entry → ∃ t, t < n ∧ probing.path (key entry) t = i ∧
      ∀ s, s < t → table (probing.path (key entry) s) ≠ .empty) :
    ∀ j entry, j < n → Function.update table i slot j = .live entry →
      ∃ t, t < n ∧ probing.path (key entry) t = j ∧
        ∀ s, s < t → Function.update table i slot (probing.path (key entry) s) ≠ .empty := by
  have stays : ∀ j, table j ≠ .empty → Function.update table i slot j ≠ .empty := by
    intro j nonempty
    by_cases here : j = i
    · subst here
      rw [Function.update_self]
      exact filled
    · rw [Function.update_of_ne here]
      exact nonempty
  intro j entry bound found
  by_cases here : j = i
  · subst here
    rw [Function.update_self] at found
    rcases fresh entry found with ⟨t, tBound, visited, before⟩
    exact ⟨t, tBound, visited, fun s lower => stays _ (before s lower)⟩
  · rw [Function.update_of_ne here] at found
    rcases placed.reached j entry bound found with ⟨t, tBound, visited, before⟩
    exact ⟨t, tBound, visited, fun s lower => stays _ (before s lower)⟩

private theorem distinct_of_perm (symmetric : ∀ left right, same left right → same right left)
    {before after : List Entry} (perm : before.Perm after)
    (distinct : before.Pairwise fun left right => ¬ same (key left) (key right)) :
    after.Pairwise fun left right => ¬ same (key left) (key right) :=
  perm.pairwise distinct fun differ equal => differ (symmetric _ _ equal)

/-- A new entry in the first free slot of its path, or in a deleted one before it. -/
theorem placed_insert (placed : Placed probing key same table)
    (symmetric : ∀ left right, same left right → same right left) (entry : Entry) {t : Nat}
    (bound : t < n) (filled : ∀ s, s < t → table (probing.path (key entry) s) ≠ .empty)
    (free : (table (probing.path (key entry) t)).content = none)
    (absent : ∀ other ∈ entries n table, ¬ same (key other) (key entry)) :
    Placed probing key same (Function.update table (probing.path (key entry) t) (.live entry)) ∧
      (entries n (Function.update table (probing.path (key entry) t) (.live entry))).Perm
        (entry :: entries n table) := by
  rcases entries_split_self (probing.path_lt (key entry) t) table with ⟨rest, self, split⟩
  rw [free] at self
  have perm : (entries n (Function.update table (probing.path (key entry) t) (.live entry))).Perm
      (entry :: entries n table) := (split (.live entry)).trans (List.Perm.cons _ self.symm)
  refine ⟨⟨?_, ?_⟩, perm⟩
  · apply placed_reached_update placed (by simp)
    intro other isNew
    cases isNew
    exact ⟨t, bound, rfl, filled⟩
  · apply distinct_of_perm symmetric perm.symm
    rw [List.pairwise_cons]
    exact ⟨fun other member equal => absent other member (symmetric _ _ equal), placed.distinct⟩

theorem placed_delete (placed : Placed probing key same table)
    (symmetric : ∀ left right, same left right → same right left) {entry : Entry} {i : Nat}
    (bound : i < n) (here : table i = .live entry) :
    Placed probing key same (Function.update table i .deleted) ∧
      (entries n table).Perm (entry :: entries n (Function.update table i .deleted)) := by
  rcases entries_split_self bound table with ⟨rest, self, split⟩
  rw [here] at self
  have perm : (entries n table).Perm (entry :: entries n (Function.update table i .deleted)) :=
    self.trans (List.Perm.cons _ (split .deleted).symm)
  refine ⟨⟨?_, ?_⟩, perm⟩
  · apply placed_reached_update placed (by simp)
    intro other isNew
    cases isNew
  · exact (List.pairwise_cons.mp (distinct_of_perm symmetric perm placed.distinct)).2

theorem placed_replace (placed : Placed probing key same table)
    (symmetric : ∀ left right, same left right → same right left) {entry other : Entry} {i : Nat}
    (bound : i < n) (here : table i = .live entry) (sameKey : key other = key entry) :
    Placed probing key same (Function.update table i (.live other)) ∧
      ∃ rest, (entries n table).Perm (entry :: rest) ∧
        (entries n (Function.update table i (.live other))).Perm (other :: rest) := by
  rcases entries_split_self bound table with ⟨rest, self, split⟩
  rw [here] at self
  refine ⟨⟨?_, ?_⟩, rest, self, split (.live other)⟩
  · apply placed_reached_update placed (by simp)
    intro found isNew
    cases isNew
    rw [sameKey]
    exact placed.reached i entry bound here
  · apply distinct_of_perm symmetric (split (.live other)).symm
    have before := List.pairwise_cons.mp (distinct_of_perm symmetric self placed.distinct)
    rw [show (Slot.live other).content.toList ++ rest = other :: rest from rfl,
      List.pairwise_cons, sameKey]
    exact before

theorem placed_empty (n : Nat) (probing : Probing Key n) : Placed probing key same fun _ =>
    Slot.empty := by
  constructor
  · intro i entry bound found
    cases found
  · rw [entries_nil fun i bound => rfl]
    exact List.Pairwise.nil

end Invariant

end TWlib.Lib.OpenAddressing
