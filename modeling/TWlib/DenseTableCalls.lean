import TWlib.DenseTableResize

/-!
# The calls of the dense table

What each function does to the values of a sound table: the reserved keys are
set when no bucket is deleted, a key is inserted where it was looked for or
looked for again in the rebuilt table, and a value that goes out leaves the
others where they are.
-/

namespace TWlib.DenseTableCalls

open TWlib.Lib.OpenAddressing TWlib.Lib.FiniteMap TWlib.DenseTable TWlib.DenseTable.DenseHashtable
  TWlib.DenseTableSearch TWlib.DenseTableUpdate TWlib.DenseTableCopy TWlib.DenseTableResize

set_option autoImplicit false

variable {Key T : Type} {hash : Key → BitVec 64} {equal : Key → Key → Bool} {m : Nat}
  {h after : DenseHashtable Key T} {slots : Nat → Slot (Key × T)} {key : Key}

/-! ## The reserved keys -/

/-- A table before its empty key is set: there is no array yet. -/
structure Unset (m : Nat) (h : DenseHashtable Key T) : Prop where
  small : m ≤ 61
  buckets : h.numBuckets = 2 ^ (m + 2)
  useEmpty : h.settings.useEmpty = false
  useDeleted : h.settings.useDeleted = false
  table : h.table = none
  elements : h.numElements = 0
  deleted : h.numDeleted = 0
  enlarge : h.settings.enlargeThreshold = 2 ^ (m + 1)
  shrink : h.settings.shrinkThreshold = shrinkSize (2 ^ (m + 2))
  considers : h.settings.considerShrink = false

theorem construct_eq (null : Key × T) {items : Nat} (modest : items < 2 ^ 62) :
    ∃ h : DenseHashtable Key T, construct null items = some h ∧ ∃ m, Unset m h := by
  unfold construct
  split_ifs with none_
  · exact ⟨_, rfl, 3, by omega, rfl, rfl, rfl, rfl, rfl, rfl, enlarge_power 3, rfl, rfl⟩
  · rcases min_buckets_eq modest (show 0 ≤ 2 ^ 63 by omega) with ⟨m, small, found, -⟩
    rw [found]
    exact ⟨_, rfl, m, small, rfl, rfl, rfl, rfl, rfl, rfl, enlarge_power m, rfl, rfl⟩

/-- A table without an empty key is rebuilt without an array. -/
theorem unset_rebuild_eq (hash : Key → BitVec 64) (equal : Key → Key → Bool) (unset : Unset m h)
    {wanted : Nat} (modest : wanted ≤ 2 ^ 63) :
    ∃ after k, h.rebuild equal hash wanted = some after ∧ Unset k after := by
  have nothing : h.size = 0 := by rw [DenseHashtable.size, unset.elements, Nat.zero_sub]
  rcases min_buckets_eq (show 0 < 2 ^ 62 by omega) modest with ⟨k, small, found, -⟩
  let empty : DenseHashtable Key T :=
    { h with numDeleted := 0, numElements := 0, numBuckets := 2 ^ (k + 2), table := none }
  refine ⟨empty.resetThresholds.resetThresholds, k, ?_, small, rfl, unset.useEmpty,
    unset.useDeleted, rfl, rfl, rfl, enlarge_power k, rfl, rfl⟩
  rw [rebuild, copy, if_neg (by rw [unset.useEmpty]; exact Bool.false_ne_true), if_pos nothing,
    nothing, found]
  rfl

theorem unset_resize_eq (hash : Key → BitVec 64) (equal : Key → Key → Bool) (unset : Unset m h)
    {reqElements : Nat} (some_ : reqElements ≠ 0) (modest : reqElements < 2 ^ 62) :
    ∃ after k, h.resize equal hash reqElements = some after ∧ Unset k after := by
  have more : 0 < reqElements := Nat.pos_of_ne_zero some_
  have buckets : h.numBuckets ≤ 2 ^ 63 := by
    rw [unset.buckets]
    exact Nat.pow_le_pow_right (by omega) (by have small := unset.small; omega)
  rw [resize, if_neg (by rw [unset.considers]; simp [some_])]
  simp only [Option.bind_eq_bind, Option.bind_some, unset.elements, if_pos more, Nat.sub_zero]
  rw [resizeDelta, unset.considers]
  simp only [Bool.false_eq_true, if_false, Option.bind_eq_bind, Option.bind_some]
  rw [DenseHashtable.enlarge, if_neg (by rw [unset.elements]; omega)]
  split_ifs with enough
  · exact ⟨h, m, rfl, unset⟩
  · rcases min_buckets_eq (show h.numElements + reqElements < 2 ^ 62 by rw [unset.elements]; omega)
      (show 0 ≤ 2 ^ 63 by omega) with ⟨needed, -, found, -⟩
    rw [found]
    simp only [Option.bind_eq_bind, Option.bind_some]
    split_ifs with there
    · exact ⟨h, m, rfl, unset⟩
    · rcases resize_to_some (h := h) buckets (2 ^ (needed + 2))
        (show h.numElements - h.numDeleted + reqElements < 2 ^ 62 by
          rw [unset.elements]; omega) with ⟨wanted, target, bound, -⟩
      rcases unset_rebuild_eq hash equal unset bound with
        ⟨after, k, rebuilt, still⟩
      refine ⟨after, k, ?_, still⟩
      rw [target, Option.bind_some, rebuilt]
      rfl

/-- The array is made when the empty key is set. -/
theorem set_empty_key_eq (lawful : Lawful hash equal) (unset : Unset m h) (val : Key × T) :
    ∃ after, h.setEmptyKey equal val = some after ∧ Sound hash equal m after (fun _ => Slot.empty) ∧
      after.emptyval = val ∧ delkeyOf after = none := by
  have unused := unset.useDeleted
  rw [setEmptyKey, if_pos ⟨unset.useEmpty, by simp [unused], unset.table⟩]
  refine ⟨_, rfl, ?_, rfl, ?_⟩
  · have reserving : Reserving equal { h with
        settings.useEmpty := true, emptyval := val, table :=
          some (List.replicate h.numBuckets val) } :=
      ⟨rfl, fun used => by rw [unused] at used; cases used⟩
    rw [unset.buckets] at reserving ⊢
    exact sound_empty unset.small rfl reserving (shows_empty lawful rfl rfl) unset.elements
      unset.deleted unset.enlarge unset.shrink
  · rw [delkeyOf]
    exact if_neg (by rw [unused]; simp)

theorem squash_deleted_eq (sound : Sound hash equal m h slots) (lawful : Lawful hash equal) :
    ∃ after k others, h.squashDeleted equal hash = some after ∧
      Resized hash equal h (entries (2 ^ (m + 2)) slots) after k others ∧ after.numDeleted = 0 := by
  rw [squashDeleted]
  split_ifs with clean
  · exact ⟨h, m, slots, rfl, ⟨⟨rfl, rfl⟩, sound, List.Perm.refl _⟩, clean⟩
  · have few : (entries (2 ^ (m + 2)) slots).length < 2 ^ 62 := by
      have exponent := sound.small
      have below := sound.below
      have counted := sound.deleted
      have power : 2 ^ (m + 1) ≤ 2 ^ 62 := Nat.pow_le_pow_right (by omega) (by omega)
      omega
    rcases rebuild_eq sound lawful few (show htDefaultStartingBuckets ≤ 2 ^ 63 by decide) with
      ⟨after, k, others, rebuilt, done⟩
    exact ⟨after, k, others, rebuilt, rebuilt_resized done, done.clean⟩

/-- With no deleted bucket any key that no value has can be the deleted key, or none. -/
theorem sound_rekey (sound : Sound hash equal m h slots) (clean : h.numDeleted = 0) (flag : Bool)
    (delkey : Option Key) (reserved : flag = true → ∃ key, delkey = some key ∧
      ¬ SameKey equal h.emptyval.1 key)
    (apart : ∀ entry ∈ entries (2 ^ (m + 2)) slots, ∀ key, flag = true → delkey = some key →
      ¬ SameKey equal key entry.1) :
    Sound hash equal m { h with settings.useDeleted := flag, delkey := delkey } slots where
  small := sound.small
  buckets := sound.buckets
  useEmpty := sound.useEmpty
  shows_ := by
    constructor
    · exact sound.shows_.length
    · intro i bound
      rcases sound.shows_.marks i bound with ⟨value, held, marks⟩
      refine ⟨value, held, ?_⟩
      rcases slot : slots i with - | - | entry
      · rw [slot] at marks
        exact marks
      · have counted := sound_counts sound bound slot
        omega
      · rw [slot] at marks
        refine ⟨marks.1, marks.2.1, fun key member => ?_⟩
        have used := mem_delkey_of.mp member
        exact apart entry (mem_entries.mpr ⟨i, bound, slot⟩) key used.1 used.2
  placed := sound.placed
  elements := sound.elements
  deleted := sound.deleted
  reserved := reserved
  enlarge := sound.enlarge
  shrink := sound.shrink
  below := sound.below

theorem set_deleted_key_eq (sound : Sound hash equal m h slots) (lawful : Lawful hash equal)
    (apart : ¬ SameKey equal h.emptyval.1 key)
    (absent : ∀ entry ∈ entries (2 ^ (m + 2)) slots, ¬ SameKey equal entry.1 key) :
    ∃ after k others, h.setDeletedKey equal hash key = some after ∧
      Sound hash equal k after others ∧
      (entries (2 ^ (m + 2)) slots).Perm (entries (2 ^ (k + 2)) others) ∧
      after.emptyval = h.emptyval ∧
      delkeyOf after = some key := by
  have differs : equal key h.emptyval.1 = false := by
    apply Bool.eq_false_iff.mpr
    exact fun same => apart (lawful.equivalence.symm same)
  rcases squash_deleted_eq sound lawful with ⟨middle, k, others, squashed, resized, clean⟩
  have rekeyed := sound_rekey resized.sound clean true (some key)
    (fun _ => ⟨key, rfl, by rw [resized.keys.emptyval]; exact apart⟩)
    (fun entry member other _ here same => by
      cases here
      exact absent entry (resized.perm.mem_iff.mpr member) (lawful.equivalence.symm same))
  refine ⟨_, k, others, ?_, rekeyed, resized.perm, resized.keys.emptyval, rfl⟩
  rw [setDeletedKey, differs, squashed]
  simp

theorem clear_deleted_key_eq (sound : Sound hash equal m h slots) (lawful : Lawful hash equal) :
    ∃ after k others, h.clearDeletedKey equal hash = some after ∧ Sound hash equal k after others ∧
      (entries (2 ^ (m + 2)) slots).Perm (entries (2 ^ (k + 2)) others) ∧
      after.emptyval = h.emptyval ∧
      delkeyOf after = none := by
  rcases squash_deleted_eq sound lawful with ⟨middle, k, others, squashed, resized, clean⟩
  have rekeyed := sound_rekey resized.sound clean false middle.delkey (fun used => by cases used)
    (fun entry member other used => by cases used)
  refine ⟨_, k, others, ?_, rekeyed, resized.perm, resized.keys.emptyval, rfl⟩
  rw [clearDeletedKey, squashed]
  rfl

/-! ## Insertions -/

/-- The value at `pos` has the key that was looked for; `made` is the value that is there if none
had the key. -/
structure Placing (hash : Key → BitVec 64) (equal : Key → Key → Bool) (h : DenseHashtable Key T)
    (pairs : List (Key × T)) (made : Key × T) (after : DenseHashtable Key T) (pos k : Nat)
    (others : Nat → Slot (Key × T)) (fresh : Bool) (entry : Key × T) : Prop where
  keys : SameKeys h after
  sound : Sound hash equal k after others
  inside : pos < 2 ^ (k + 2)
  slot : others pos = .live entry
  same : SameKey equal entry.1 made.1
  old : fresh = false → pairs.Perm (entries (2 ^ (k + 2)) others)
  new : fresh = true → entry = made ∧ (∀ other ∈ pairs, ¬ SameKey equal other.1 made.1) ∧
    (entries (2 ^ (k + 2)) others).Perm (made :: pairs)

theorem inserted_placing (lawful : Lawful hash equal) {made : Key × T} {pos : Nat}
    (vacant : Vacant hash m slots made.1 pos)
    (absent : ∀ entry ∈ entries (2 ^ (m + 2)) slots, ¬ SameKey equal entry.1 made.1)
    (inserted : Inserted hash equal m h after slots made pos) :
    Placing hash equal h (entries (2 ^ (m + 2)) slots) made after pos m
      (Function.update slots pos (.live made))
      true made where
  keys := keeps_same_keys inserted.keeps
  sound := inserted.sound
  inside := vacant_lt vacant
  slot := Function.update_self _ _ _
  same := lawful.equivalence.refl made.1
  old impossible := by cases impossible
  new _ := ⟨rfl, absent, inserted.perm⟩

theorem placing_trans {pairs others : List (Key × T)} {made entry : Key × T}
    {middle : DenseHashtable Key T} {pos k : Nat} {last : Nat → Slot (Key × T)} {fresh : Bool}
    (keys : SameKeys h middle) (perm : pairs.Perm others)
    (placing : Placing hash equal middle others made after pos k last fresh entry) :
    Placing hash equal h pairs made after pos k last fresh entry where
  keys := same_keys_trans keys placing.keys
  sound := placing.sound
  inside := placing.inside
  slot := placing.slot
  same := placing.same
  old was := perm.trans (placing.old was)
  new was := by
    rcases placing.new was with ⟨here, absent, all⟩
    exact ⟨here, fun other member => absent other (perm.mem_iff.mp member),
      all.trans (List.Perm.cons made perm.symm)⟩

theorem insert_noresize_eq (sound : Sound hash equal m h slots) (lawful : Lawful hash equal)
    {obj : Key × T} (usable : Usable equal h obj.1) (room : h.numElements + 1 ≤ 2 ^ (m + 1))
    (few : h.size < maxSize) :
    ∃ after pos fresh others entry, h.insertNoresize equal hash obj = some (after, pos, fresh) ∧
      Placing hash equal h (entries (2 ^ (m + 2)) slots) obj after pos m others fresh entry ∧
      (fresh = false → after = h) := by
  rw [insertNoresize, usable_key_eq lawful usable]
  rcases find_position_eq sound lawful obj.1 with ⟨pos, found, vacant, absent⟩ | ⟨pos, entry, found,
    inside, slot, same⟩
  · rcases insert_at_eq sound lawful usable vacant absent room few with ⟨after, stored, inserted⟩
    refine ⟨after, pos, true, _, obj, ?_, inserted_placing lawful vacant absent inserted,
      fun impossible => by cases impossible⟩
    simp only [Option.bind_eq_bind, Option.bind_some, found, stored, Option.map_some]
  · refine ⟨h, pos, false, slots, entry, ?_, ⟨⟨rfl, rfl⟩, sound, inside, slot, same,
      fun _ => List.Perm.refl _,
      fun impossible => by cases impossible⟩, fun _ => rfl⟩
    simp only [Option.bind_eq_bind, Option.bind_some, found]

theorem sound_few (sound : Sound hash equal m h slots) (small : m ≤ 58) :
    h.numElements + 1 < 2 ^ 62 ∧ (entries (2 ^ (m + 2)) slots).length < maxSize := by
  have power : 2 ^ (m + 1) ≤ 2 ^ 59 := Nat.pow_le_pow_right (by omega) (by omega)
  have below := sound.below
  have counted := sound.deleted
  unfold maxSize
  omega

theorem insert_eq (sound : Sound hash equal m h slots) (lawful : Lawful hash equal) (small : m ≤ 58)
    {obj : Key × T} (usable : Usable equal h obj.1) :
    ∃ after pos fresh k others entry, h.insert equal hash obj = some (after, pos, fresh) ∧
      Placing hash equal h (entries (2 ^ (m + 2)) slots) obj after pos k others fresh entry := by
  rcases sound_few sound small with ⟨fits, few⟩
  rcases resize_delta_eq sound lawful (by omega) fits with ⟨middle, did, k, mid, resized,
    again, -, room, -⟩
  have fewer : middle.size < maxSize := by
    rw [size_eq again.sound, ← again.perm.length_eq]
    exact few
  rcases insert_noresize_eq again.sound lawful ((same_keys_usable again.keys _).mpr usable)
      room fewer with
    ⟨after, pos, fresh, others, entry, inserted, placing, -⟩
  refine ⟨after, pos, fresh, k, others, entry, ?_, placing_trans again.keys again.perm placing⟩
  rw [DenseHashtable.insert, resized]
  exact inserted

/-- `find_or_insert` puts the key where it was looked for unless the table was rebuilt. -/
theorem find_or_insert_eq (sound : Sound hash equal m h slots) (lawful : Lawful hash equal)
    (small : m ≤ 58) (blank : T) (usable : Usable equal h key) :
    ∃ after pos fresh k others entry, h.findOrInsert equal hash blank key = some (after, pos) ∧
      Placing hash equal h (entries (2 ^ (m + 2)) slots) (key,
        blank) after pos k others fresh entry ∧
      (fresh = false → after = h) := by
  rcases sound_few sound small with ⟨fits, few⟩
  rw [findOrInsert, usable_key_eq lawful usable]
  rcases find_position_eq sound lawful key with ⟨pos, found, vacant, absent⟩ | ⟨pos, entry, found,
    inside, slot, same⟩
  · rcases resize_delta_eq sound lawful (by omega) fits with ⟨middle, did, k, mid, resized, again,
      -, room, kept⟩
    have fewer : middle.size < maxSize := by
      rw [size_eq again.sound, ← again.perm.length_eq]
      exact few
    have usableThere : Usable equal middle (key, blank).1 :=
      (same_keys_usable again.keys _).mpr usable
    simp only [Option.bind_eq_bind, Option.bind_some, found, resized]
    cases did with
    | true =>
        rcases insert_noresize_eq again.sound lawful usableThere room fewer with
          ⟨after, pos, fresh, others, entry, inserted, placing, -⟩
        have placed := placing_trans again.keys again.perm placing
        refine ⟨after, pos, fresh, k, others, entry, ?_, placed, fun old => ?_⟩
        · simp only [if_true, inserted, Option.map_some]
        · have found := (placed.old old).mem_iff.mpr (mem_entries.mpr ⟨pos, placed.inside,
            placed.slot⟩)
          exact absurd placed.same (absent entry found)
    | false =>
        rcases kept rfl with ⟨keeps, rfl, rfl, -⟩
        rcases insert_at_eq again.sound lawful usableThere vacant absent room fewer with
          ⟨after, stored, inserted⟩
        refine ⟨after, pos, true, _, _, (key, blank), ?_,
          placing_trans again.keys again.perm (inserted_placing lawful vacant absent inserted),
          fun impossible => by cases impossible⟩
        simp only [Bool.false_eq_true, if_false, stored, Option.map_some]
  · refine ⟨h, pos, false, m, slots, entry, ?_, ⟨⟨rfl, rfl⟩, sound, inside, slot, same,
      fun _ => List.Perm.refl _,
      fun impossible => by cases impossible⟩, fun _ => rfl⟩
    simp only [Option.bind_eq_bind, Option.bind_some, found]

/-! ## Deletions -/

theorem erase_eq (sound : Sound hash equal m h slots) (lawful : Lawful hash equal) (blank : T)
    (usable : Usable equal h key) (used : h.settings.useDeleted = true) :
    (h.erase equal hash blank key = some (h, 0) ∧
      ∀ entry ∈ entries (2 ^ (m + 2)) slots, ¬ SameKey equal entry.1 key) ∨
    ∃ after pos entry, h.erase equal hash blank key = some (after, 1) ∧ Keeps h after ∧
      Sound hash equal m after (Function.update slots pos .deleted) ∧ SameKey equal entry.1 key ∧
      (entries (2 ^ (m + 2)) slots).Perm (entry :: entries (2 ^ (m + 2))
        (Function.update slots pos .deleted)) := by
  rw [erase, usable_key_eq lawful usable]
  rcases find_eq sound lawful key with ⟨found, absent⟩ | ⟨pos, entry, found, inside, slot, same⟩
  · left
    simp only [Option.bind_eq_bind, Option.bind_some, found, if_true]
    exact ⟨trivial, absent⟩
  · right
    rcases erase_at_eq sound lawful blank inside slot used with ⟨after, erased, keeps,
      soundness, perm⟩
    have filled : slots pos ≠ .empty := by rw [slot]; simp
    have notEnd : pos ≠ h.numBuckets := by rw [sound.buckets]; omega
    refine ⟨after, pos, entry, ?_, keeps, soundness, same, perm⟩
    simp only [Option.bind_eq_bind, Option.bind_some, found, if_neg notEnd,
      sound_test_deleted sound inside filled,
      slot, isDeletedSlot, Bool.false_eq_true, if_false, erased, Option.map_some]

theorem clear_eq (sound : Sound hash equal m h slots) (lawful : Lawful hash equal) :
    ∃ after k others, h.clear = some after ∧ Sound hash equal k after others ∧ SameKeys h after ∧
      entries (2 ^ (k + 2)) others = [] := by
  have found : minBuckets 0 0 = some (2 ^ (0 + 2)) := by decide
  rw [clear, found, Option.map_some]
  split_ifs with same
  · refine ⟨h, m, slots, rfl, sound, ⟨rfl, rfl⟩, ?_⟩
    have counted := sound.deleted
    exact List.length_eq_zero_iff.mp (by omega)
  · rcases clear_to_size_eq (m := 0) lawful (by omega) (sound_reserving sound) with ⟨cleared,
      renewed⟩
    exact ⟨_, 0, _, rfl, cleared, renewed_same_keys renewed, entries_nil fun _ _ => rfl⟩

theorem clear_no_resize_eq (sound : Sound hash equal m h slots) (lawful : Lawful hash equal) :
    ∃ after others, h.clearNoResize = some after ∧ Sound hash equal m after others ∧
      SameKeys h after ∧
      entries (2 ^ (m + 2)) others = [] := by
  rcases sound.shows_.length with ⟨cells, array, length⟩
  rw [clearNoResize, if_neg (by rw [array]; simp)]
  have thresholds := sound_thresholds sound
  refine ⟨_, if 0 < h.numElements then fun _ => Slot.empty else slots, rfl, ?_, ⟨rfl, ?_⟩, ?_⟩
  · simp only [resetThresholds, thresholds]
    split_ifs with some_
    · exact sound_empty sound.small sound.buckets ⟨sound.useEmpty, sound.reserved⟩
        (by rw [sound.buckets]; exact shows_empty lawful rfl rfl) rfl rfl sound.enlarge sound.shrink
    · have counted := sound.deleted
      have none_ : h.numElements = 0 := by omega
      have nothing : h.numDeleted = 0 := by omega
      have same := sound_considering sound false
      have here : considering h false = { h with
          settings := { h.settings with considerShrink := false }, numElements :=
            0, numDeleted := 0 } := by
        simp [considering, none_, nothing]
      rw [here] at same
      exact same
  · simp only [resetThresholds, thresholds, delkeyOf]
  · split_ifs with some_
    · exact entries_nil fun _ _ => rfl
    · have counted := sound.deleted
      exact List.length_eq_zero_iff.mp (by omega)

end TWlib.DenseTableCalls
