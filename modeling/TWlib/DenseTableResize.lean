import TWlib.DenseTableCopy

/-!
# The dense table grows and shrinks

`maybe_shrink` and `resize_delta` rebuild the table or leave it, and the values
are the same behind them. A table that looked whether to shrink has at most 32
buckets, or at most six for each value; one that was enlarged has room for what
is to come.
-/

namespace TWlib.DenseTableResize

open TWlib.Lib.OpenAddressing TWlib.Lib.FiniteMap TWlib.DenseTable TWlib.DenseTable.DenseHashtable
  TWlib.DenseTableSearch TWlib.DenseTableUpdate TWlib.DenseTableCopy

set_option autoImplicit false

variable {Key T : Type} {hash : Key → BitVec 64} {equal : Key → Key → Bool} {m : Nat}
  {h after : DenseHashtable Key T} {slots : Nat → Slot (Key × T)}

structure SameKeys (before after : DenseHashtable Key T) : Prop where
  emptyval : after.emptyval = before.emptyval
  delkey : delkeyOf after = delkeyOf before

theorem same_keys_trans {last : DenseHashtable Key T} (early : SameKeys h after)
    (late : SameKeys after last) :
    SameKeys h last := ⟨late.emptyval.trans early.emptyval, late.delkey.trans early.delkey⟩

theorem same_keys_usable (same : SameKeys h after) (key : Key) :
    Usable equal after key ↔ Usable equal h key := by
  rw [Usable, Usable, same.emptyval, same.delkey]

theorem keeps_same_keys (keeps : Keeps h after) : SameKeys h after :=
  ⟨keeps.emptyval, keeps_delkey_of keeps⟩

theorem renewed_same_keys (renewed : Renewed h after) : SameKeys h after :=
  ⟨renewed.emptyval, by rw [delkeyOf, delkeyOf, renewed.useDeleted, renewed.delkey]⟩

/-! ## Shrinking -/

/-- What became of a table whose values are to stay. -/
structure Resized (hash : Key → BitVec 64) (equal : Key → Key → Bool) (h : DenseHashtable Key T)
    (pairs : List (Key × T)) (after : DenseHashtable Key T) (k : Nat)
    (others : Nat → Slot (Key × T)) : Prop where
  keys : SameKeys h after
  sound : Sound hash equal k after others
  perm : pairs.Perm (entries (2 ^ (k + 2)) others)

theorem rebuilt_resized {pairs : List (Key × T)} {wanted k : Nat} {others : Nat → Slot (Key × T)}
    (rebuilt : Rebuilt hash equal h pairs wanted after k others) :
    Resized hash equal h pairs after k others :=
  ⟨renewed_same_keys rebuilt.renewed, rebuilt.sound, rebuilt.perm⟩

theorem considering_resized (sound : Sound hash equal m h slots) (flag : Bool) :
    Resized hash equal h (entries (2 ^ (m + 2)) slots) (considering h flag) m slots :=
  ⟨keeps_same_keys (keeps_considering h flag), sound_considering sound flag, List.Perm.refl _⟩

/-- A `float` is not far above what it is rounded from. -/
theorem to_float_le (x : Nat) : toFloat x * 5 ≤ x * 6 := by
  unfold toFloat
  split_ifs with small
  · omega
  · have large : x ≠ 0 := by omega
    have most : 24 ≤ Nat.log2 x := (Nat.le_log2 large).mpr (by omega)
    have unit : 2 ^ (Nat.log2 x - 23) * 2 ^ 23 ≤ x := by
      rw [← Nat.pow_add, Nat.sub_add_cancel (by omega)]
      exact Nat.log2_self_le large
    have whole : x / 2 ^ (Nat.log2 x - 23) * 2 ^ (Nat.log2 x - 23) ≤ x := Nat.div_mul_le_self x _
    have next : (x / 2 ^ (Nat.log2 x - 23) + 1) * 2 ^ (Nat.log2 x - 23) =
        x / 2 ^ (Nat.log2 x - 23) * 2 ^ (Nat.log2 x - 23) + 2 ^ (Nat.log2 x - 23) := by
      rw [Nat.add_mul, Nat.one_mul]
    dsimp only
    split_ifs
    · omega
    · omega

theorem shrink_to_eq (numRemain : Nat) {fuel j : Nat} (enough : j < fuel) :
    ∃ k, shrinkTo numRemain fuel (2 ^ (j + 2)) = 2 ^ (k + 2) ∧ k ≤ j ∧
      (k ≤ 3 ∨ belowShrink numRemain (2 ^ (k + 2)) = false) := by
  induction fuel generalizing j with
  | zero => omega
  | succ fuel ih =>
      rw [shrinkTo]
      split_ifs with shrinks
      · rw [Bool.and_eq_true, decide_eq_true_eq] at shrinks
        obtain ⟨below, rfl⟩ : ∃ below, j = below + 1 := by
          refine ⟨j - 1, ?_⟩
          by_contra small
          have nothing : j = 0 := by omega
          subst nothing
          simp [htDefaultStartingBuckets] at shrinks
        have half : 2 ^ (below + 1 + 2) / 2 = 2 ^ (below + 2) := by
          rw [Nat.pow_succ]
          omega
        rw [half]
        rcases ih (show below < fuel by omega) with ⟨k, found, bound, stops⟩
        exact ⟨k, found, by omega, stops⟩
      · refine ⟨j, rfl, Nat.le_refl j, ?_⟩
        by_cases small : j ≤ 3
        · exact Or.inl small
        · right
          have large : 2 ^ (3 + 2) < 2 ^ (j + 2) := Nat.pow_lt_pow_right (by omega) (by omega)
          rw [Bool.and_eq_true, decide_eq_true_eq] at shrinks
          exact Bool.eq_false_iff.mpr fun below => shrinks ⟨large, below⟩

/-- The buckets are used, or they are few. -/
def Dense (numBuckets size : Nat) : Prop := numBuckets ≤ htDefaultStartingBuckets ∨
    numBuckets ≤ 6 * size

theorem dense_rebuilt {pairs : List (Key × T)} {j k : Nat} {others : Nat → Slot (Key × T)}
    (rebuilt : Rebuilt hash equal h pairs (2 ^ (j + 2)) after k others)
    (stops : j ≤ 3 ∨ belowShrink pairs.length (2 ^ (j + 2)) = false) :
    Dense (2 ^ (k + 2)) pairs.length := by
  rcases Nat.eq_zero_or_pos k with none_ | positive
  · subst none_
    exact Or.inl (by simp [htDefaultStartingBuckets])
  · rcases rebuilt.least positive with below | many
    · have less : k + 1 < j + 2 := (Nat.pow_lt_pow_iff_right (by omega)).mp below
      rcases stops with small | loose
      · left
        exact Nat.pow_le_pow_right (show 0 < 2 by omega) (show k + 2 ≤ 5 by omega)
      · right
        have reached : j + 2 ≤ k + 2 := (Nat.pow_le_pow_iff_right (by omega)).mp rebuilt.large
        have here : j = k := by omega
        subst here
        rw [belowShrink, decide_eq_false_iff_not] at loose
        have rounded := to_float_le pairs.length
        omega
    · right
      rw [Nat.pow_succ, Nat.pow_succ]
      omega

theorem dense_above {n size : Nat}
    (stays : ¬ (0 < shrinkSize n ∧ size < shrinkSize n ∧ htDefaultStartingBuckets < n)) :
    Dense n size := by
  by_cases large : htDefaultStartingBuckets < n
  · right
    unfold shrinkSize at stays
    unfold htDefaultStartingBuckets at large stays
    omega
  · exact Or.inl (by omega)

theorem maybe_shrink_eq (sound : Sound hash equal m h slots) (lawful : Lawful hash equal) :
    ∃ after shrunk k others, h.maybeShrink equal hash = some (after, shrunk) ∧
      Resized hash equal h (entries (2 ^ (m + 2)) slots) after k others ∧ k ≤ m ∧
      after.settings.considerShrink = false ∧
      (shrunk = false → after = considering h false ∧ k = m ∧ others = slots) ∧
      (shrunk = true → after.numDeleted = 0) ∧
      Dense (2 ^ (k + 2)) (entries (2 ^ (m + 2)) slots).length := by
  have size := size_eq sound
  rw [DenseHashtable.size] at size
  have counts : h.numDeleted ≤ h.numElements := by
    have counted := sound.deleted
    omega
  have large : htMinBuckets ≤ h.numBuckets := by
    rw [sound.buckets, htMinBuckets, Nat.pow_succ, Nat.pow_succ]
    have positive : 0 < 2 ^ m := Nat.two_pow_pos m
    omega
  have power : h.numBuckets &&& (h.numBuckets - 1) = 0 := by
    rw [sound.buckets]
    exact power_and m
  rw [maybeShrink, if_pos ⟨counts, power, large⟩]
  dsimp only
  split_ifs with shrinks
  · rw [sound.shrink, size, sound.buckets] at shrinks
    rcases shrinks with ⟨-, below, beyond⟩
    have more : 3 < m := by
      have exponents : 5 < m + 2 := (Nat.pow_lt_pow_iff_right (show 1 < 2 by omega)).mp beyond
      omega
    obtain ⟨j, rfl⟩ : ∃ j, m = j + 1 := ⟨m - 1, by omega⟩
    have exponent : j + 1 ≤ 61 := sound.small
    have half : h.numBuckets / 2 = 2 ^ (j + 2) := by
      rw [sound.buckets, Nat.pow_succ]
      omega
    rcases shrink_to_eq (entries (2 ^ (j + 1 + 2)) slots).length (show j < 64 by omega) with
      ⟨wanted, target, bound, stops⟩
    have modest : 2 ^ (wanted + 2) ≤ 2 ^ 63 := Nat.pow_le_pow_right (by omega) (by omega)
    have few : (entries (2 ^ (j + 1 + 2)) slots).length < 2 ^ 62 := by
      have power : 2 ^ (j + 1 + 2) ≤ 2 ^ 63 := Nat.pow_le_pow_right (by omega) (by omega)
      unfold shrinkSize at below
      omega
    rcases rebuild_eq sound lawful few modest with ⟨after, k, others, rebuilt, done⟩
    have smaller : k ≤ j + 1 := by
      rcases Nat.eq_zero_or_pos k with none_ | positive
      · omega
      · rcases done.least positive with less | many
        · have exponents : k + 1 < wanted + 2 := (Nat.pow_lt_pow_iff_right (by omega)).mp less
          omega
        · by_contra beyondIt
          have powers : 2 ^ (j + 2) ≤ 2 ^ k := Nat.pow_le_pow_right (by omega) (by omega)
          have doubled : 2 ^ (j + 1 + 2) = 2 ^ (j + 2) * 2 := Nat.pow_succ 2 (j + 2)
          unfold shrinkSize at below
          omega
    refine ⟨considering after false, true, k, others, ?_, ?_, smaller, rfl,
      (fun absurd_ => by cases absurd_),
      fun _ => done.clean, dense_rebuilt done stops⟩
    · rw [half, size, target, rebuilt]
      rfl
    · have resized := rebuilt_resized done
      exact ⟨same_keys_trans resized.keys (keeps_same_keys (keeps_considering after false)),
        sound_considering resized.sound false, resized.perm⟩
  · rw [sound.shrink, size, sound.buckets] at shrinks
    exact ⟨considering h false, false, m, slots, rfl, considering_resized sound false,
      Nat.le_refl m, rfl,
      fun _ => ⟨rfl, rfl, rfl⟩, (fun absurd_ => by cases absurd_), dense_above shrinks⟩

/-! ## Growing -/

/-- The size that is grown to has room for what is there and what is to come. -/
theorem resize_to_some {delta : Nat} (buckets : h.numBuckets ≤ 2 ^ 63) (needed : Nat)
    (fewer : h.numElements - h.numDeleted + delta < 2 ^ 62) :
    ∃ wanted, h.resizeTo delta needed = some wanted ∧ wanted ≤ 2 ^ 63 ∧
      ∀ k, wanted ≤ 2 ^ (k + 2) → h.numElements - h.numDeleted + delta < 2 ^ (k + 1) := by
  rcases min_buckets_eq fewer buckets with ⟨k, small, found, large, loose, -⟩
  have modest : 2 ^ (k + 2) ≤ 2 ^ 63 := Nat.pow_le_pow_right (by omega) (by omega)
  have room : ∀ j, 2 ^ (k + 2) ≤ 2 ^ (j + 2) →
      h.numElements - h.numDeleted + delta < 2 ^ (j + 1) := by
    intro j bound
    have exponents : k + 2 ≤ j + 2 := (Nat.pow_le_pow_iff_right (by omega)).mp bound
    exact Nat.lt_of_lt_of_le loose (Nat.pow_le_pow_right (by omega) (by omega))
  rw [resizeTo, found, Option.map_some]
  split_ifs with doubles
  · refine ⟨_, rfl, ?_, fun j bound => room j (by omega)⟩
    have less : k + 2 < 63 := by
      by_contra last
      have here : k + 2 = 63 := by omega
      rw [here] at doubles
      omega
    rw [← Nat.pow_succ]
    exact Nat.pow_le_pow_right (by omega) (by omega)
  · exact ⟨_, rfl, modest, room⟩

theorem resize_to_eq (sound : Sound hash equal m h slots) {delta : Nat} (needed : Nat)
    (fits : h.numElements + delta < 2 ^ 62) :
    ∃ wanted, h.resizeTo delta needed = some wanted ∧ wanted ≤ 2 ^ 63 ∧
      ∀ k, wanted ≤ 2 ^ (k + 2) → (entries (2 ^ (m + 2)) slots).length + delta < 2 ^ (k + 1) := by
  have size := size_eq sound
  rw [DenseHashtable.size] at size
  have buckets : h.numBuckets ≤ 2 ^ 63 := by
    rw [sound.buckets]
    exact Nat.pow_le_pow_right (by omega) (by have small := sound.small; omega)
  rw [← size]
  exact resize_to_some buckets needed (by omega)

theorem enlarge_eq (sound : Sound hash equal m h slots) (lawful : Lawful hash equal)
    (small : m ≤ 60) (didResize : Bool) {delta : Nat} (fits : h.numElements + delta < 2 ^ 62) :
    (h.enlarge equal hash didResize delta = some (h, didResize) ∧
      h.numElements + delta ≤ 2 ^ (m + 1)) ∨
    ∃ after k others, h.enlarge equal hash didResize delta = some (after, true) ∧
      Resized hash equal h (entries (2 ^ (m + 2)) slots) after k others ∧ after.numDeleted = 0 ∧
      after.settings.considerShrink = false ∧ after.numElements + delta ≤ 2 ^ (k + 1) := by
  rw [enlarge, if_neg (by omega), sound.enlarge]
  split_ifs with room
  · exact Or.inl ⟨rfl, room.2⟩
  · rcases min_buckets_eq fits (show 0 ≤ 2 ^ 63 by omega) with ⟨needed, neededSmall, found,
      -, loose, -⟩
    rw [found]
    simp only [Option.bind_eq_bind, Option.bind_some]
    split_ifs with enough
    · left
      rw [sound.buckets] at enough
      have exponents : needed + 2 ≤ m + 2 := (Nat.pow_le_pow_iff_right (by omega)).mp enough
      have powers : 2 ^ (needed + 1) ≤ 2 ^ (m + 1) := Nat.pow_le_pow_right (by omega) (by omega)
      exact ⟨rfl, by omega⟩
    · right
      rcases resize_to_eq sound (2 ^ (needed + 2)) fits with ⟨wanted, target, modest, holds⟩
      rcases rebuild_eq sound lawful (entries_few sound small) modest with
        ⟨after, k, others, rebuilt, done⟩
      refine ⟨after, k, others, ?_, rebuilt_resized done, done.clean, done.renewed.considers, ?_⟩
      · rw [target, Option.bind_some, rebuilt, Option.bind_some]
      · have counted := done.sound.deleted
        have lengths := done.perm.length_eq
        have fitsIn := holds k done.large
        have clean := done.clean
        omega

theorem resize_delta_eq (sound : Sound hash equal m h slots) (lawful : Lawful hash equal)
    (small : m ≤ 60) {delta : Nat} (fits : h.numElements + delta < 2 ^ 62) :
    ∃ after didResize k others, h.resizeDelta equal hash delta = some (after, didResize) ∧
      Resized hash equal h (entries (2 ^ (m + 2)) slots) after k others ∧
      after.settings.considerShrink = false ∧ after.numElements + delta ≤ 2 ^ (k + 1) ∧
      (didResize = false → Keeps h after ∧ k = m ∧ others = slots ∧
        after.numElements = h.numElements) := by
  have grown : ∀ {middle : DenseHashtable Key T} {did : Bool} {j : Nat} {mid : Nat →
      Slot (Key × T)}, j ≤ m →
      Resized hash equal h (entries (2 ^ (m + 2)) slots) middle j mid →
      middle.settings.considerShrink = false →
      (did = false → Keeps h middle ∧ j = m ∧ mid = slots ∧ middle.numElements = h.numElements) →
      middle.numElements ≤ h.numElements →
      ∃ after didResize k others, middle.enlarge equal hash did delta = some (after, didResize) ∧
        Resized hash equal h (entries (2 ^ (m + 2)) slots) after k others ∧
        after.settings.considerShrink = false ∧ after.numElements + delta ≤ 2 ^ (k + 1) ∧
        (didResize = false → Keeps h after ∧ k = m ∧ others = slots ∧
          after.numElements = h.numElements) := by
    intro middle did j mid smaller resized considers kept fewer
    rcases enlarge_eq resized.sound lawful (by omega) did (show middle.numElements + delta <
        2 ^ 62 by omega) with
      ⟨same, room⟩ | ⟨after, k, others, grew, again, clean, considersAfter, room⟩
    · exact ⟨middle, did, j, mid, same, resized, considers, room, kept⟩
    · exact ⟨after, true, k, others, grew,
        ⟨same_keys_trans resized.keys again.keys, again.sound, resized.perm.trans again.perm⟩,
        considersAfter, room,
        fun absurd_ => by cases absurd_⟩
  rw [resizeDelta]
  cases considers : h.settings.considerShrink with
  | false =>
      have same : considering h h.settings.considerShrink = h := rfl
      rw [considers] at same
      have resized := considering_resized sound false
      rw [same] at resized
      exact grown (Nat.le_refl m) resized considers
        (fun _ => ⟨⟨rfl, rfl, rfl, rfl, rfl, rfl, rfl⟩, rfl, rfl, rfl⟩) (Nat.le_refl _)
  | true =>
      rcases maybe_shrink_eq sound lawful with
        ⟨middle, shrunk, j, mid, shrank, resized, smaller, calm, kept, clean, -⟩
      simp only [if_true, shrank, Option.bind_eq_bind, Option.bind_some]
      apply grown smaller resized calm
      · intro same
        rcases kept same with ⟨rfl, rfl, rfl⟩
        exact ⟨keeps_considering h false, rfl, rfl, rfl⟩
      · cases shrunk with
        | false =>
            rcases kept rfl with ⟨rfl, -, -⟩
            exact Nat.le_refl _
        | true =>
            have counted := resized.sound.deleted
            have lengths := resized.perm.length_eq
            have before := sound.deleted
            have none_ := clean rfl
            omega

theorem resize_eq (sound : Sound hash equal m h slots) (lawful : Lawful hash equal) (small : m ≤ 60)
    {reqElements : Nat} (modest : reqElements < 2 ^ 62) :
    ∃ after k others, h.resize equal hash reqElements = some after ∧
      Resized hash equal h (entries (2 ^ (m + 2)) slots) after k others ∧
      after.settings.considerShrink = false ∧
      (reqElements = 0 → Dense (2 ^ (k + 2)) (entries (2 ^ (m + 2)) slots).length) := by
  have grown : ∀ {middle : DenseHashtable Key T} {j : Nat} {mid : Nat → Slot (Key × T)}, j ≤ m →
      Resized hash equal h (entries (2 ^ (m + 2)) slots) middle j mid →
      middle.settings.considerShrink = false →
      (reqElements = 0 → Dense (2 ^ (j + 2)) (entries (2 ^ (m + 2)) slots).length) →
      ∃ after k others, (if middle.numElements < reqElements then
          (middle.resizeDelta equal hash (reqElements - middle.numElements)).map Prod.fst
            else some middle) =
          some after ∧
        Resized hash equal h (entries (2 ^ (m + 2)) slots) after k others ∧
        after.settings.considerShrink = false ∧
        (reqElements = 0 → Dense (2 ^ (k + 2)) (entries (2 ^ (m + 2)) slots).length) := by
    intro middle j mid smaller resized calm dense
    split_ifs with more
    · rcases resize_delta_eq resized.sound lawful (by omega)
        (show middle.numElements + (reqElements - middle.numElements) < 2 ^ 62 by omega) with
        ⟨after, did, k, others, grew, again, calmer, -, -⟩
      exact ⟨after, k, others, by rw [grew]; rfl,
        ⟨same_keys_trans resized.keys again.keys, again.sound, resized.perm.trans again.perm⟩,
        calmer,
        fun nothing => by omega⟩
    · exact ⟨middle, j, mid, rfl, resized, calm, dense⟩
  rw [resize]
  by_cases looks : h.settings.considerShrink = true ∨ reqElements = 0
  · rcases maybe_shrink_eq sound lawful with
      ⟨middle, shrunk, j, mid, shrank, resized, smaller, calm, -, -, dense⟩
    simp only [if_pos looks, shrank, Option.map_some, Option.bind_eq_bind, Option.bind_some]
    exact grown smaller resized calm fun _ => dense
  · simp only [if_neg looks, Option.bind_eq_bind, Option.bind_some]
    have calm : h.settings.considerShrink = false := Bool.eq_false_iff.mpr fun considers =>
      looks (Or.inl considers)
    have same : considering h h.settings.considerShrink = h := rfl
    rw [calm] at same
    have resized := considering_resized sound false
    rw [same] at resized
    exact grown (Nat.le_refl m) resized calm fun nothing => absurd (Or.inr nothing) looks

/-- `resize(0)` only looks whether to shrink, at any size. -/
theorem resize_zero_eq (sound : Sound hash equal m h slots) (lawful : Lawful hash equal) :
    ∃ after k others, h.resize equal hash 0 = some after ∧
      Resized hash equal h (entries (2 ^ (m + 2)) slots) after k others := by
  rcases maybe_shrink_eq sound lawful with ⟨after, shrunk, k, others, shrank, resized, -⟩
  refine ⟨after, k, others, ?_, resized⟩
  rw [resize, if_pos (Or.inr rfl), shrank]
  rfl

end TWlib.DenseTableResize
