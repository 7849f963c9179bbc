import TWlib.DenseTableSearch

/-!
# Changing a bucket of the dense table

Each write of a bucket is the write of one slot, and the counters stay in step:
a value comes into an empty or a deleted bucket, goes out of its bucket and
leaves a deleted one, or is given other data.
-/

namespace TWlib.DenseTableUpdate

open TWlib.Lib.OpenAddressing TWlib.Lib.FiniteMap TWlib.DenseTable TWlib.DenseTable.DenseHashtable
  TWlib.DenseTableSearch

set_option autoImplicit false

variable {Key T : Type} {hash : Key → BitVec 64} {equal : Key → Key → Bool} {m : Nat}
  {h after : DenseHashtable Key T} {slots : Nat → Slot (Key × T)} {i : Nat}

/-- What the changes of a bucket leave as it is. -/
structure Keeps (before after : DenseHashtable Key T) : Prop where
  numBuckets : after.numBuckets = before.numBuckets
  emptyval : after.emptyval = before.emptyval
  delkey : after.delkey = before.delkey
  useEmpty : after.settings.useEmpty = before.settings.useEmpty
  useDeleted : after.settings.useDeleted = before.settings.useDeleted
  enlarge : after.settings.enlargeThreshold = before.settings.enlargeThreshold
  shrink : after.settings.shrinkThreshold = before.settings.shrinkThreshold

theorem keeps_trans {last : DenseHashtable Key T} (early : Keeps h after)
    (late : Keeps after last) :
    Keeps h last where
  numBuckets := late.numBuckets.trans early.numBuckets
  emptyval := late.emptyval.trans early.emptyval
  delkey := late.delkey.trans early.delkey
  useEmpty := late.useEmpty.trans early.useEmpty
  useDeleted := late.useDeleted.trans early.useDeleted
  enlarge := late.enlarge.trans early.enlarge
  shrink := late.shrink.trans early.shrink

theorem keeps_delkey_of (keeps : Keeps h after) : delkeyOf after = delkeyOf h := by
  rw [delkeyOf, delkeyOf, keeps.useDeleted, keeps.delkey]

theorem keeps_usable (keeps : Keeps h after) (key : Key) :
    Usable equal after key ↔ Usable equal h key := by
  rw [Usable, Usable, keeps_delkey_of keeps, keeps.emptyval]

theorem keeps_marks (keeps : Keeps h after) {value : Key × T} {slot : Slot (Key × T)}
    (marks : Marks equal h value slot) : Marks equal after value slot := by
  cases slot with
  | empty =>
      simp only [Marks, keeps.emptyval]
      exact marks
  | deleted =>
      simp only [Marks, keeps.emptyval, keeps_delkey_of keeps]
      exact marks
  | live entry => exact ⟨marks.1, (keeps_usable keeps _).mpr marks.2⟩

theorem sound_of_keeps (sound : Sound hash equal m h slots) (keeps : Keeps h after)
    {others : Nat → Slot (Key × T)} (shows_ : ShowsSlots equal after (2 ^ (m + 2)) others)
    (placed : Placed (probing hash m) Prod.fst (SameKey equal) others)
    (elements : after.numElements = occupied (2 ^ (m + 2)) others)
    (deleted : (entries (2 ^ (m + 2)) others).length + after.numDeleted = after.numElements)
    (below : after.numElements ≤ 2 ^ (m + 1)) : Sound hash equal m after others where
  small := sound.small
  buckets := keeps.numBuckets.trans sound.buckets
  useEmpty := keeps.useEmpty.trans sound.useEmpty
  shows_ := shows_
  placed := placed
  elements := elements
  deleted := deleted
  reserved := by
    rw [keeps.useDeleted, keeps.delkey, keeps.emptyval]
    exact sound.reserved
  enlarge := keeps.enlarge.trans sound.enlarge
  shrink := keeps.shrink.trans sound.shrink
  below := below

/-- Whether the next insertion is to look for a smaller size is nothing that the values depend
on. -/
def considering (h : DenseHashtable Key T) (flag : Bool) : DenseHashtable Key T :=
  { h with settings := { h.settings with considerShrink := flag } }

theorem keeps_considering (h : DenseHashtable Key T) (flag : Bool) : Keeps h (considering h flag) :=
  ⟨rfl, rfl, rfl, rfl, rfl, rfl, rfl⟩

theorem sound_considering (sound : Sound hash equal m h slots) (flag : Bool) :
    Sound hash equal m (considering h flag) slots := by
  apply sound_of_keeps sound (keeps_considering h flag) _ sound.placed sound.elements
    sound.deleted sound.below
  constructor
  · exact sound.shows_.length
  · intro i bound
    rcases sound.shows_.marks i bound with ⟨value, held, marks⟩
    exact ⟨value, held, keeps_marks (keeps_considering h flag) marks⟩

theorem set_value_eq {n : Nat} (shows_ : ShowsSlots equal h n slots) (bound : i < n)
    (src : Key × T) :
    ∃ cells : List (Key × T), cells.length = n ∧
      (∀ j, cells[j]? = if j = i then some src else h.cell j) ∧
      ∀ other : DenseHashtable Key T, other.table = h.table →
        other.setValue i src = some { other with table := some cells } := by
  rcases shows_.length with ⟨cells, array, length⟩
  refine ⟨cells.set i src, ?_, ?_, fun other same => ?_⟩
  · rw [List.length_set, length]
  · intro j
    split_ifs with here
    · subst here
      exact List.getElem?_set_self (by omega)
    · rw [List.getElem?_set_ne (Ne.symm here), cell, array]
      rfl
  · rw [setValue, same, array, Option.bind_some, if_pos (by omega)]

theorem shows_write {n : Nat} (shows_ : ShowsSlots equal h n slots) (keeps : Keeps h after)
    {src : Key × T} {slot : Slot (Key × T)} (marks : Marks equal h src slot)
    {cells : List (Key × T)} (array : after.table = some cells) (length : cells.length = n)
    (written : ∀ j, cells[j]? = if j = i then some src else h.cell j) :
    ShowsSlots equal after n (Function.update slots i slot) where
  length := ⟨cells, array, length⟩
  marks j bound := by
    have held : after.cell j = if j = i then some src else h.cell j := by
      rw [cell, array]
      exact written j
    rw [held]
    by_cases here : j = i
    · subst here
      rw [if_pos rfl, Function.update_self]
      exact ⟨src, rfl, keeps_marks keeps marks⟩
    · rw [if_neg here, Function.update_of_ne here]
      rcases shows_.marks j bound with ⟨value, found, shown⟩
      exact ⟨value, found, keeps_marks keeps shown⟩

/-! ## A new value -/

/-- What comes of a new value in bucket `pos`. -/
structure Inserted (hash : Key → BitVec 64) (equal : Key → Key → Bool) (m : Nat)
    (h after : DenseHashtable Key T) (slots : Nat → Slot (Key × T)) (obj : Key × T)
    (pos : Nat) : Prop where
  keeps : Keeps h after
  considers : after.settings.considerShrink = h.settings.considerShrink
  sound : Sound hash equal m after (Function.update slots pos (.live obj))
  perm : (entries (2 ^ (m + 2)) (Function.update slots pos (.live obj))).Perm
    (obj :: entries (2 ^ (m + 2)) slots)

theorem vacant_lt {key : Key} {pos : Nat} (vacant : Vacant hash m slots key pos) :
    pos < 2 ^ (m + 2) := by
  rcases vacant.onPath with ⟨t, bound, here, -⟩
  rw [← here]
  exact (probing hash m).path_lt key t

theorem vacant_placed (sound : Sound hash equal m h slots) (lawful : Lawful hash equal)
    {obj : Key × T} {pos : Nat} (vacant : Vacant hash m slots obj.1 pos)
    (absent : ∀ entry ∈ entries (2 ^ (m + 2)) slots, ¬ SameKey equal entry.1 obj.1) :
    Placed (probing hash m) Prod.fst (SameKey equal) (Function.update slots pos (.live obj)) ∧
      (entries (2 ^ (m + 2)) (Function.update slots pos (.live obj))).Perm
        (obj :: entries (2 ^ (m + 2)) slots) := by
  rcases vacant with ⟨free, t, bound, rfl, filled⟩
  exact placed_insert sound.placed (fun _ _ => lawful.equivalence.symm) obj bound filled free absent

theorem insert_counted (sound : Sound hash equal m h slots) (lawful : Lawful hash equal)
    {obj : Key × T} {pos : Nat} (usable : Usable equal h obj.1)
    (vacant : Vacant hash m slots obj.1 pos) (absent : ∀ entry ∈ entries (2 ^ (m + 2)) slots,
      ¬ SameKey equal entry.1 obj.1) {numElements numDeleted : Nat}
    (elements : numElements + (if (slots pos).occupied then 1 else 0) = h.numElements + 1)
    (deleted : h.numElements + 1 + numDeleted = h.numDeleted + numElements)
    (room : numElements ≤ 2 ^ (m + 1)) :
    ∃ after, setValue { h with numElements, numDeleted } pos obj = some after ∧
      Inserted hash equal m h after slots obj pos := by
  have inside := vacant_lt vacant
  rcases vacant_placed sound lawful vacant absent with ⟨placed, perm⟩
  rcases set_value_eq sound.shows_ inside obj with ⟨cells, length, written, stored⟩
  rcases occupied_split inside slots with ⟨rest, counted, update⟩
  have keeps : Keeps h { h with numElements, numDeleted, table := some cells } :=
    ⟨rfl, rfl, rfl, rfl, rfl, rfl, rfl⟩
  refine ⟨_, stored _ rfl, keeps, rfl, ?_, perm⟩
  have live : Marks equal h obj (.live obj) := ⟨rfl, usable⟩
  have before := sound.elements
  apply sound_of_keeps sound keeps (shows_write sound.shows_ keeps live rfl length written) placed
  · show numElements = _
    rw [update]
    simp only [Slot.occupied, if_true]
    omega
  · show _ + numDeleted = numElements
    rw [perm.length_eq, List.length_cons]
    have counts := sound.deleted
    omega
  · exact room

theorem insert_empty (sound : Sound hash equal m h slots) (lawful : Lawful hash equal)
    {obj : Key × T} {pos : Nat} (usable : Usable equal h obj.1)
    (vacant : Vacant hash m slots obj.1 pos)
    (absent : ∀ entry ∈ entries (2 ^ (m + 2)) slots, ¬ SameKey equal entry.1 obj.1)
    (isEmpty : slots pos = .empty) (room : h.numElements + 1 ≤ 2 ^ (m + 1)) :
    ∃ after, setValue { h with numElements := h.numElements + 1 } pos obj = some after ∧
      Inserted hash equal m h after slots obj pos := by
  have counted : h.numElements + 1 + (if (slots pos).occupied then 1 else 0) =
      h.numElements + 1 := by
    simp [isEmpty, Slot.occupied]
  exact insert_counted sound lawful usable vacant absent counted (by omega) room

/-- An insertion in a deleted bucket takes it off the deleted ones. -/
theorem insert_deleted (sound : Sound hash equal m h slots) (lawful : Lawful hash equal)
    {obj : Key × T} {pos : Nat} (usable : Usable equal h obj.1)
    (vacant : Vacant hash m slots obj.1 pos)
    (absent : ∀ entry ∈ entries (2 ^ (m + 2)) slots, ¬ SameKey equal entry.1 obj.1)
    (isDeleted : slots pos = .deleted) :
    ∃ after, setValue { h with numDeleted := h.numDeleted - 1 } pos obj = some after ∧
      Inserted hash equal m h after slots obj pos := by
  have counted : h.numElements + (if (slots pos).occupied then 1 else 0) = h.numElements + 1 := by
    simp [isDeleted, Slot.occupied]
  have positive := sound_counts sound (vacant_lt vacant) isDeleted
  exact insert_counted sound lawful usable vacant absent counted (by omega) sound.below

theorem insert_at_eq (sound : Sound hash equal m h slots) (lawful : Lawful hash equal)
    {obj : Key × T} {pos : Nat} (usable : Usable equal h obj.1)
    (vacant : Vacant hash m slots obj.1 pos)
    (absent : ∀ entry ∈ entries (2 ^ (m + 2)) slots, ¬ SameKey equal entry.1 obj.1)
    (room : h.numElements + 1 ≤ 2 ^ (m + 1)) (few : h.size < maxSize) :
    ∃ after, h.insertAt equal obj pos = some after ∧
    Inserted hash equal m h after slots obj pos := by
  have inside := vacant_lt vacant
  rw [insertAt, if_neg (by omega)]
  rcases slot : slots pos with - | - | entry
  · have tested : h.testDeleted equal pos = some false := by
      rcases sound_value sound inside with ⟨value, held, marks⟩
      rw [slot] at marks
      rw [testDeleted, held, Option.bind_some, testDeletedKey]
      cases used : h.settings.useDeleted with
      | false => simp [sound_unused sound used]
      | true =>
          rcases sound.reserved used with ⟨delkey, found, apart⟩
          have differs : equal delkey value.1 = false := by
            apply Bool.eq_false_iff.mpr
            exact fun same => apart (lawful.equivalence.trans marks (lawful.equivalence.symm same))
          simp [found, differs]
    rw [tested]
    exact insert_empty sound lawful usable vacant absent slot room
  · have filled : slots pos ≠ .empty := by rw [slot]; simp
    have used : h.settings.useDeleted = true := by
      rcases sound_value sound inside with ⟨value, held, marks⟩
      rw [slot] at marks
      rcases marks with ⟨-, delkey, member, -⟩
      exact (mem_delkey_of.mp member).1
    rw [sound_test_deleted sound inside filled, slot]
    have counted := sound_counts sound inside slot
    simp only [isDeletedSlot, Option.bind_eq_bind, Option.bind_some, if_true, used,
      counted, and_self]
    exact insert_deleted sound lawful usable vacant absent slot
  · have free := vacant.free
    rw [slot] at free
    cases free

/-! ## A value goes out -/

theorem erase_at_eq (sound : Sound hash equal m h slots) (lawful : Lawful hash equal)
    (blank : T) {pos : Nat} {entry : Key × T} (inside : pos < 2 ^ (m + 2))
    (slot : slots pos = .live entry) (used : h.settings.useDeleted = true) :
    ∃ after, h.eraseAt equal blank pos = some after ∧ Keeps h after ∧
      Sound hash equal m after (Function.update slots pos .deleted) ∧
      (entries (2 ^ (m + 2)) slots).Perm (entry :: entries (2 ^ (m + 2))
        (Function.update slots pos .deleted)) := by
  rcases sound.reserved used with ⟨delkey, found, apart⟩
  rcases placed_delete sound.placed (fun _ _ => lawful.equivalence.symm) inside slot with ⟨placed,
    perm⟩
  rcases set_value_eq sound.shows_ inside (delkey, blank) with ⟨cells, length, written, stored⟩
  rcases occupied_split inside slots with ⟨rest, counted, update⟩
  rw [slot] at counted
  simp only [Slot.occupied, if_true] at counted
  have filled : slots pos ≠ .empty := by rw [slot]; simp
  have notEnd : pos ≠ h.numBuckets := by rw [sound.buckets]; omega
  have tested : h.testDeleted equal pos = some false := by
    rw [sound_test_deleted sound inside filled, slot]
    rfl
  have marks : Marks equal h (delkey, blank) .deleted :=
    ⟨apart, delkey, mem_delkey_of.mpr ⟨used, found⟩, lawful.equivalence.refl delkey⟩
  let after : DenseHashtable Key T := { h with
    table := some cells, numDeleted := h.numDeleted + 1, settings :=
      { h.settings with considerShrink := true } }
  have erased : h.eraseAt equal blank pos = some after := by
    rw [eraseAt, if_neg notEnd, if_pos used, tested, found]
    simp only [Option.bind_eq_bind, Option.bind_some, stored h rfl, Bool.false_eq_true, if_false]
    rfl
  have keeps : Keeps h after := ⟨rfl, rfl, rfl, rfl, rfl, rfl, rfl⟩
  refine ⟨after, erased, keeps, ?_, perm⟩
  apply sound_of_keeps sound keeps (shows_write sound.shows_ keeps marks rfl length written) placed
  · show h.numElements = _
    rw [update, sound.elements, counted]
    rfl
  · show _ + (h.numDeleted + 1) = h.numElements
    have counts := sound.deleted
    rw [perm.length_eq, List.length_cons] at counts
    omega
  · exact sound.below

/-! ## Other data -/

/-- `it->second = data;` -/
theorem set_second_eq (sound : Sound hash equal m h slots) (lawful : Lawful hash equal) {pos : Nat}
    {entry : Key × T} (inside : pos < 2 ^ (m + 2)) (slot : slots pos = .live entry) (data : T) :
    ∃ after, h.setValue pos (entry.1, data) = some after ∧ Keeps h after ∧
      after.settings = h.settings ∧
      Sound hash equal m after (Function.update slots pos (.live (entry.1, data))) ∧
      ∃ rest, (entries (2 ^ (m + 2)) slots).Perm (entry :: rest) ∧
        (entries (2 ^ (m + 2)) (Function.update slots pos (.live (entry.1, data)))).Perm
          ((entry.1, data) :: rest) := by
  have sameKey : Prod.fst (entry.1, data) = entry.1 := rfl
  rcases placed_replace sound.placed (fun _ _ => lawful.equivalence.symm) inside slot sameKey with
    ⟨placed, rest, before, behind⟩
  rcases set_value_eq sound.shows_ inside (entry.1, data) with ⟨cells, length, written, stored⟩
  rcases occupied_split inside slots with ⟨others, counted, update⟩
  rw [slot] at counted
  simp only [Slot.occupied, if_true] at counted
  have keeps : Keeps h { h with table := some cells } := ⟨rfl, rfl, rfl, rfl, rfl, rfl, rfl⟩
  have live : Marks equal h (entry.1, data) (.live (entry.1, data)) :=
    ⟨rfl, (sound_live sound inside slot).2⟩
  refine ⟨_, stored h rfl, keeps, rfl, ?_, rest, before, behind⟩
  apply sound_of_keeps sound keeps (shows_write sound.shows_ keeps live rfl length written) placed
  · show h.numElements = _
    rw [update, sound.elements, counted]
    rfl
  · show _ + h.numDeleted = h.numElements
    rw [behind.length_eq, ← sound.deleted, before.length_eq, List.length_cons, List.length_cons]
  · exact sound.below

end TWlib.DenseTableUpdate
