import TWlib.DenseTableUpdate

/-!
# Iterators and copies of the dense table

An iterator goes from value to value in the order of the buckets. A copy puts
the values into empty buckets of a table that `min_buckets` finds large enough,
and has no deleted bucket.
-/

namespace TWlib.DenseTableCopy

open TWlib.Lib.OpenAddressing TWlib.Lib.FiniteMap TWlib.DenseTable TWlib.DenseTable.DenseHashtable
  TWlib.DenseTableSearch TWlib.DenseTableUpdate

set_option autoImplicit false

variable {Key T : Type} {hash : Key → BitVec 64} {equal : Key → Key → Bool} {m : Nat}
  {h after : DenseHashtable Key T} {slots : Nat → Slot (Key × T)}

/-! ## Iterators -/

/-- Where an iterator stands: at `end()` or at a value. -/
def AtValue (n : Nat) (slots : Nat → Slot (Key × T)) (pos : Nat) : Prop :=
  pos = n ∨ pos < n ∧ ∃ entry, slots pos = .live entry

theorem advance_eq (sound : Sound hash equal m h slots) (left pos : Nat)
    (reach : pos + left = 2 ^ (m + 2)) :
    ∃ stop, h.advancePastEmptyAndDeleted equal left pos = some stop ∧ pos ≤ stop ∧
      AtValue (2 ^ (m + 2)) slots stop ∧
      entriesFrom (2 ^ (m + 2)) pos slots = entriesFrom (2 ^ (m + 2)) stop slots := by
  induction left generalizing pos with
  | zero => exact ⟨pos, rfl, Nat.le_refl pos, Or.inl (by omega), rfl⟩
  | succ left ih =>
      have inside : pos < 2 ^ (m + 2) := by omega
      rw [advancePastEmptyAndDeleted, sound_test_empty sound inside]
      rcases slot : slots pos with - | - | entry
      · rcases ih (pos + 1) (by omega) with ⟨stop, advanced, later, stands, same⟩
        refine ⟨stop, ?_, by omega, stands, ?_⟩
        · exact advanced
        · rw [entries_from_step inside, slot, ← same]
          rfl
      · rcases ih (pos + 1) (by omega) with ⟨stop, advanced, later, stands, same⟩
        have filled : slots pos ≠ .empty := by rw [slot]; simp
        refine ⟨stop, ?_, by omega, stands, ?_⟩
        · rw [sound_test_deleted sound inside filled, slot]
          exact advanced
        · rw [entries_from_step inside, slot, ← same]
          rfl
      · have filled : slots pos ≠ .empty := by rw [slot]; simp
        refine ⟨pos, ?_, Nat.le_refl pos, Or.inr ⟨inside, entry, slot⟩, rfl⟩
        rw [sound_test_deleted sound inside filled, slot]
        rfl

theorem begin_eq (sound : Sound hash equal m h slots) :
    ∃ stop, h.begin equal = some stop ∧ AtValue (2 ^ (m + 2)) slots stop ∧
      entries (2 ^ (m + 2)) slots = entriesFrom (2 ^ (m + 2)) stop slots := by
  rcases advance_eq sound h.numBuckets 0 (by rw [sound.buckets, Nat.zero_add]) with
    ⟨stop, advanced, -, stands, same⟩
  rw [entries_from_zero] at same
  exact ⟨stop, advanced, stands, same⟩

theorem following_eq (sound : Sound hash equal m h slots) {pos : Nat} (inside : pos < 2 ^ (m + 2)) :
    ∃ stop, h.following equal pos = some stop ∧ pos < stop ∧ AtValue (2 ^ (m + 2)) slots stop ∧
      entriesFrom (2 ^ (m + 2)) (pos + 1) slots = entriesFrom (2 ^ (m + 2)) stop slots := by
  rw [following, sound.buckets, if_pos inside]
  rcases advance_eq sound (2 ^ (m + 2) - (pos + 1)) (pos + 1) (by omega) with
    ⟨stop, advanced, later, stands, same⟩
  exact ⟨stop, advanced, by omega, stands, same⟩

theorem entries_from_value {n pos : Nat} {entry : Key × T} (inside : pos < n)
    (slot : slots pos = .live entry) :
    entriesFrom n pos slots = entry :: entriesFrom n (pos + 1) slots := by
  rw [entries_from_step inside, slot]
  rfl

/-! ## Sizes -/

theorem enlarge_power (m : Nat) : enlargeSize (2 ^ (m + 2)) = 2 ^ (m + 1) := by
  rw [enlargeSize, Nat.pow_succ]
  omega

theorem min_buckets_from {numElts wanted fuel k : Nat} (few : numElts < 2 ^ 62)
    (modest : wanted ≤ 2 ^ 63) (small : k ≤ 61) (enough : 61 < k + fuel) :
    ∃ m, k ≤ m ∧ m ≤ 61 ∧ minBucketsFrom numElts wanted fuel (2 ^ (k + 2)) = some (2 ^ (m + 2)) ∧
      wanted ≤ 2 ^ (m + 2) ∧ numElts < 2 ^ (m + 1) ∧
      (k < m → 2 ^ (m + 1) < wanted ∨ 2 ^ m ≤ numElts) := by
  induction fuel generalizing k with
  | zero => omega
  | succ fuel ih =>
      rw [minBucketsFrom, enlarge_power]
      split_ifs with crowded wrapped
      · exfalso
        rw [sizeType, ← Nat.pow_succ] at wrapped
        rcases Nat.lt_or_eq_of_le small with less | last
        · have grows : 2 ^ (k + 2 + 1) < 2 ^ 64 := Nat.pow_lt_pow_right (by omega) (by omega)
          rw [Nat.mod_eq_of_lt grows, Nat.pow_succ] at wrapped
          omega
        · subst last
          omega
      · have less : k < 61 := by
          by_contra last
          have here : k = 61 := by omega
          subst here
          omega
        have grows : 2 ^ (k + 2 + 1) < 2 ^ 64 := Nat.pow_lt_pow_right (by omega) (by omega)
        rw [sizeType, ← Nat.pow_succ, Nat.mod_eq_of_lt grows]
        rcases ih (k := k + 1) (by omega) (by omega) with ⟨m, later, bound, found, holds,
          fits, least⟩
        refine ⟨m, by omega, bound, found, holds, fits, fun _ => ?_⟩
        rcases Nat.lt_or_eq_of_le later with beyond | here
        · exact least beyond
        · rw [← here]
          exact crowded
      · refine ⟨k, Nat.le_refl k, small, rfl, by omega, by omega,
          fun loop => absurd loop (Nat.lt_irrefl k)⟩

theorem min_buckets_eq {numElts wanted : Nat} (few : numElts < 2 ^ 62) (modest : wanted ≤ 2 ^ 63) :
    ∃ m, m ≤ 61 ∧ minBuckets numElts wanted = some (2 ^ (m + 2)) ∧ wanted ≤ 2 ^ (m + 2) ∧
      numElts < 2 ^ (m + 1) ∧
      (0 < m → 2 ^ (m + 1) < wanted ∨ 2 ^ m ≤ numElts) := by
  rcases min_buckets_from few modest (show 0 ≤ 61 by omega) (show 61 < 0 + 64 by omega) with
    ⟨m, -, bound, found, holds, fits, least⟩
  exact ⟨m, bound, found, holds, fits, least⟩

theorem sound_thresholds (sound : Sound hash equal m h slots) :
    h.settings.resetThresholds h.numBuckets = { h.settings with considerShrink := false } := by
  rw [Settings.resetThresholds, sound.buckets, enlarge_power, ← sound.enlarge, ← sound.shrink]

theorem sound_reset (sound : Sound hash equal m h slots) :
    h.resetThresholds = considering h false := by
  rw [resetThresholds, sound_thresholds sound]
  rfl

/-! ## Empty tables -/

/-- What a table has to be given when it gets its array. -/
structure Reserving (equal : Key → Key → Bool) (h : DenseHashtable Key T) : Prop where
  useEmpty : h.settings.useEmpty = true
  reserved : h.settings.useDeleted = true → ∃ delkey, h.delkey = some delkey ∧
    ¬ SameKey equal h.emptyval.1 delkey

theorem sound_reserving (sound : Sound hash equal m h slots) : Reserving equal h :=
  ⟨sound.useEmpty, sound.reserved⟩

theorem shows_empty (lawful : Lawful hash equal) {n : Nat} {value : Key × T}
    (same : h.emptyval = value) (array : h.table = some (List.replicate n value)) :
    ShowsSlots equal h n fun _ => Slot.empty where
  length := ⟨_, array, List.length_replicate⟩
  marks i bound := by
    refine ⟨value, ?_, ?_⟩
    · rw [cell, array]
      exact List.getElem?_replicate_of_lt bound
    · rw [Marks, same]
      exact lawful.equivalence.refl value.1

theorem occupied_empty (n : Nat) : occupied n (fun _ => (Slot.empty : Slot (Key × T))) = 0 := by
  rw [occupied_eq_length (by simp), entries_nil (fun _ _ => rfl)]
  rfl

theorem sound_empty (small : m ≤ 61) (buckets : h.numBuckets = 2 ^ (m + 2))
    (reserving : Reserving equal h) (shows_ : ShowsSlots equal h (2 ^ (m + 2)) fun _ => Slot.empty)
    (elements : h.numElements = 0) (deleted : h.numDeleted = 0)
    (enlarge : h.settings.enlargeThreshold = 2 ^ (m + 1))
    (shrink : h.settings.shrinkThreshold = shrinkSize (2 ^ (m + 2))) :
    Sound hash equal m h fun _ => Slot.empty where
  small := small
  buckets := buckets
  useEmpty := reserving.useEmpty
  shows_ := shows_
  placed := placed_empty _ _
  elements := by rw [elements, occupied_empty]
  deleted := by rw [elements, deleted, entries_nil (fun _ _ => rfl)]; rfl
  reserved := reserving.reserved
  enlarge := enlarge
  shrink := shrink
  below := by omega

/-- What a table is like once its array is made anew. -/
structure Renewed (h after : DenseHashtable Key T) : Prop where
  emptyval : after.emptyval = h.emptyval
  delkey : after.delkey = h.delkey
  useEmpty : after.settings.useEmpty = h.settings.useEmpty
  useDeleted : after.settings.useDeleted = h.settings.useDeleted
  considers : after.settings.considerShrink = false

theorem renewed_usable (renewed : Renewed h after) (key : Key) :
    Usable equal after key ↔ Usable equal h key := by
  rw [Usable, Usable, delkeyOf, delkeyOf, renewed.emptyval, renewed.delkey, renewed.useDeleted]

theorem clear_to_size_eq (lawful : Lawful hash equal) (small : m ≤ 61)
    (reserving : Reserving equal h) :
    Sound hash equal m (h.clearToSize (2 ^ (m + 2))) (fun _ => Slot.empty) ∧
      Renewed h (h.clearToSize (2 ^ (m + 2))) :=
  ⟨sound_empty small rfl ⟨reserving.useEmpty, reserving.reserved⟩
    (shows_empty lawful rfl rfl) rfl rfl
    (enlarge_power m) rfl, rfl, rfl, rfl, rfl, rfl⟩

/-! ## Copies -/

section Copies

variable {key : Key}

theorem empty_bucket_skip (sound : Sound hash equal m h slots) {t : Nat} (bound : t < 2 ^ (m + 2))
    (filled : ∀ s, s < t → slots ((probing hash m).path key s) ≠ .empty) (fuel : Nat) :
    h.emptyBucketFrom equal (t + fuel) 0 ((probing hash m).path key 0) =
      h.emptyBucketFrom equal fuel t ((probing hash m).path key t) := by
  induction t generalizing fuel with
  | zero => rw [Nat.zero_add]
  | succ t ih =>
      have inside := (probing hash m).path_lt key t
      have isFull : (slots ((probing hash m).path key t)).occupied = true := by
        cases slot : slots ((probing hash m).path key t) with
        | empty => exact absurd slot (filled t (by omega))
        | deleted => rfl
        | live entry => rfl
      have more : t + 1 < h.numBuckets := by rw [sound.buckets]; exact bound
      rw [show t + 1 + fuel = t + (fuel + 1) by omega,
        ih (by omega) (fun s lower => filled s (by omega)),
        emptyBucketFrom, sound_test_empty sound inside, isFull]
      simp only [Option.bind_eq_bind, Option.bind_some, Bool.not_true, Bool.false_eq_true, if_false,
        if_pos more,
        next_bucket_eq hash m key sound.small sound.buckets t]

theorem copy_value_eq (sound : Sound hash equal m h slots) (lawful : Lawful hash equal)
    {value : Key × T} (usable : Usable equal h value.1)
    (absent : ∀ entry ∈ entries (2 ^ (m + 2)) slots, ¬ SameKey equal entry.1 value.1)
    (room : h.numElements + 1 ≤ 2 ^ (m + 1)) :
    ∃ after pos, h.copyValue equal hash value = some after ∧
    Inserted hash equal m h after slots value pos := by
  rcases stop_exists (probing hash m) Prod.fst (SameKey equal) (sound_room sound) value.1 with
    ⟨t, bound, stops, first⟩
  have inside := (probing hash m).path_lt value.1 t
  have isEmpty : slots ((probing hash m).path value.1 t) = .empty := by
    rcases stops with empty | ⟨entry, slot, equals⟩
    · exact empty
    · exact absurd equals (absent entry (mem_entries.mpr ⟨_, inside, slot⟩))
  have filled : ∀ s, s < t → slots ((probing hash m).path value.1 s) ≠ .empty :=
    fun s lower empty => first s lower (Or.inl empty)
  have vacant : Vacant hash m slots value.1 ((probing hash m).path value.1 t) :=
    ⟨by rw [isEmpty]; rfl, t, bound, rfl, filled⟩
  rcases insert_empty sound lawful usable vacant absent isEmpty room with ⟨after, stored, inserted⟩
  obtain ⟨fuel, enough⟩ : ∃ fuel, 2 ^ (m + 2) = t + (fuel + 1) := ⟨2 ^ (m + 2) - t - 1, by omega⟩
  have placed : h.emptyBucketFrom equal h.numBuckets 0 (h.firstBucket hash value.1) =
      some ((probing hash m).path value.1 t) := by
    rw [show h.numBuckets = t + (fuel + 1) by rw [sound.buckets, enough],
      first_bucket_eq hash m _ sound.buckets,
      empty_bucket_skip sound bound filled, emptyBucketFrom, sound_test_empty sound inside, isEmpty]
    rfl
  refine ⟨after, _, ?_, inserted⟩
  rcases set_value_eq sound.shows_ inside value with ⟨cells, length, written, wrote⟩
  have made := wrote { h with numElements := h.numElements + 1 } rfl
  rw [stored] at made
  cases made
  rw [copyValue, placed]
  simp only [Option.bind_eq_bind, Option.bind_some, wrote h rfl]

/-- What is left to copy when the iterator is at `it`. -/
theorem copy_all_eq {n : Nat} {ht : DenseHashtable Key T} {old : Nat → Slot (Key × T)} {k : Nat}
    (source : Sound hash equal k ht old) (lawful : Lawful hash equal) (fuel : Nat) {it : Nat}
    (stands : AtValue (2 ^ (k + 2)) old it) (enough : 2 ^ (k + 2) < it + fuel)
    (sound : Sound hash equal m h slots) (clean : ∀ i, i < 2 ^ (m + 2) → slots i ≠ .deleted)
    (usable : ∀ key, Usable equal ht key → Usable equal h key)
    (perm : (entries (2 ^ (k + 2)) old).Perm
      (entries (2 ^ (m + 2)) slots ++ entriesFrom (2 ^ (k + 2)) it old))
    (counted : (entries (2 ^ (k + 2)) old).length = n) (room : n ≤ 2 ^ (m + 1)) :
    ∃ after others, copyAll equal hash ht fuel it h = some after ∧ Keeps h after ∧
      after.settings.considerShrink = h.settings.considerShrink ∧ Sound hash equal m after others ∧
      (∀ i, i < 2 ^ (m + 2) → others i ≠ .deleted) ∧
      (entries (2 ^ (k + 2)) old).Perm (entries (2 ^ (m + 2)) others) := by
  induction fuel generalizing it h slots with
  | zero =>
      exfalso
      rcases stands with last | ⟨inside, -⟩
      · omega
      · omega
  | succ fuel ih =>
      rw [copyAll]
      rcases stands with last | ⟨inside, entry, slot⟩
      · subst last
        rw [if_pos source.buckets.symm]
        rw [entries_from_end, List.append_nil] at perm
        exact ⟨h, slots, rfl, ⟨rfl, rfl, rfl, rfl, rfl, rfl, rfl⟩, rfl, sound, clean, perm⟩
      · rw [if_neg (by rw [source.buckets]; omega)]
        rcases sound_live source inside slot with ⟨held, free⟩
        rw [entries_from_value inside slot] at perm
        have apart := perm.pairwise source.placed.distinct fun {left right} differ same =>
          differ (lawful.equivalence.symm same)
        have absent : ∀ other ∈ entries (2 ^ (m + 2)) slots, ¬ SameKey equal other.1 entry.1 :=
          fun other member => (List.pairwise_append.mp apart).2.2 other member entry
            List.mem_cons_self
        have lengths := perm.length_eq
        rw [List.length_append, List.length_cons, counted] at lengths
        have filled : h.numElements + 1 ≤ 2 ^ (m + 1) := by
          rw [sound.elements, occupied_eq_length clean]
          omega
        rcases copy_value_eq sound lawful (usable entry.1 free) absent filled with ⟨middle, pos,
          copied, inserted⟩
        rcases following_eq source inside with ⟨next, follows, later, standing, same⟩
        have cleaner : ∀ i, i < 2 ^ (m + 2) → Function.update slots pos (.live entry) i ≠
            .deleted := by
          intro i bound
          by_cases here : i = pos
          · subst here
            rw [Function.update_self]
            simp
          · rw [Function.update_of_ne here]
            exact clean i bound
        have moved : (entries (2 ^ (k + 2)) old).Perm
            (entries (2 ^ (m + 2)) (Function.update slots pos (.live entry)) ++
              entriesFrom (2 ^ (k + 2)) next old) := by
          rw [← same]
          apply perm.trans
          apply List.perm_middle.trans
          exact List.Perm.append_right _ inserted.perm.symm
        rcases ih standing (by omega) inserted.sound cleaner
          (fun key free => (keeps_usable inserted.keeps key).mpr (usable key free)) moved with
          ⟨after, others, done, keeps, considers, soundness, cleanness, all⟩
        refine ⟨after, others, ?_, keeps_trans inserted.keeps keeps,
          considers.trans inserted.considers, soundness,
          cleanness, all⟩
        rw [held]
        simp only [Option.bind_eq_bind, Option.bind_some, copied, follows]
        exact done

/-- What a rebuilt table is like: the values, no deleted bucket, and the size that was asked for. -/
structure Rebuilt (hash : Key → BitVec 64) (equal : Key → Key → Bool) (h : DenseHashtable Key T)
    (pairs : List (Key × T)) (wanted : Nat) (after : DenseHashtable Key T) (k : Nat)
    (others : Nat → Slot (Key × T)) : Prop where
  renewed : Renewed h after
  sound : Sound hash equal k after others
  perm : pairs.Perm (entries (2 ^ (k + 2)) others)
  clean : after.numDeleted = 0
  large : wanted ≤ 2 ^ (k + 2)
  loose : pairs.length < 2 ^ (k + 1)
  least : 0 < k → 2 ^ (k + 1) < wanted ∨ 2 ^ k ≤ pairs.length

theorem clean_deleted (sound : Sound hash equal m h slots)
    (clean : ∀ i, i < 2 ^ (m + 2) → slots i ≠ .deleted) :
    h.numDeleted = 0 := by
  have counted := sound.deleted
  rw [sound.elements, occupied_eq_length clean] at counted
  omega

theorem power_and (k : Nat) : 2 ^ (k + 2) &&& (2 ^ (k + 2) - 1) = 0 := by
  rw [Nat.and_two_pow_sub_one_eq_mod, Nat.mod_self]

theorem entries_few (sound : Sound hash equal m h slots) (small : m ≤ 60) :
    (entries (2 ^ (m + 2)) slots).length < 2 ^ 62 := by
  have below := sound.below
  have counted := sound.deleted
  have power : 2 ^ (m + 1) ≤ 2 ^ 61 := Nat.pow_le_pow_right (by omega) (by omega)
  omega

theorem rebuild_eq (sound : Sound hash equal m h slots) (lawful : Lawful hash equal) {wanted : Nat}
    (few : (entries (2 ^ (m + 2)) slots).length < 2 ^ 62) (modest : wanted ≤ 2 ^ 63) :
    ∃ after k others, h.rebuild equal hash wanted = some after ∧
      Rebuilt hash equal h (entries (2 ^ (m + 2)) slots) wanted after k others := by
  rcases min_buckets_eq few modest with
    ⟨k, kSmall, found, large, loose, least⟩
  let start : DenseHashtable Key T :=
    resetThresholds { h with numDeleted := 0, numElements := 0, numBuckets := 0, table := none }
  rcases clear_to_size_eq lawful kSmall (h := start) ⟨sound.useEmpty,
    sound.reserved⟩ with ⟨cleared, renewed⟩
  rcases begin_eq sound with ⟨it, began, stands, all⟩
  have enough : 2 ^ (m + 2) < it + (h.numBuckets + 1) := by
    rw [sound.buckets]
    omega
  have usable : ∀ key, Usable equal h key → Usable equal (start.clearToSize (2 ^ (k + 2))) key :=
    fun key free => (renewed_usable renewed key).mpr free
  have nothing : entries (2 ^ (k + 2)) (fun _ => (Slot.empty : Slot (Key × T))) = [] :=
    entries_nil fun _ _ => rfl
  rcases copy_all_eq sound lawful (h.numBuckets + 1) stands enough cleared (by simp) usable
    (by rw [nothing, List.nil_append, all]) rfl (by omega) with
    ⟨after, others, copied, keeps, considers, soundness, cleanness, perm⟩
  have made : h.copy equal hash wanted = some after := by
    rw [copy, if_pos sound.useEmpty]
    show start.copyFrom equal hash h wanted = some after
    rw [copyFrom, size_eq sound, found]
    simp only [Option.bind_eq_bind, Option.bind_some]
    rw [cleared.buckets, if_pos (power_and k), began]
    exact copied
  have settled := sound_reset soundness
  have settledSound := sound_considering soundness false
  refine ⟨considering after false, k, others, ?_, ?_, settledSound, perm, ?_, large, loose, least⟩
  · rw [rebuild, made, Option.map_some, settled]
  · exact ⟨keeps.emptyval.trans renewed.emptyval, keeps.delkey.trans renewed.delkey,
      keeps.useEmpty.trans renewed.useEmpty, keeps.useDeleted.trans renewed.useDeleted, rfl⟩
  · exact clean_deleted settledSound cleanness

end Copies

end TWlib.DenseTableCopy
