import TWlib.DenseTableRuns
import TWlib.DenseHashReferences

/-!
# `TWDenseHash` over the table it is compiled with

The table behind `dense_hash_map` does what is relied on of the library, while it
has at most `2 ^ 60` buckets when a pair is put into it. Hash and equality are
those of what a `KEY *` points to, so that a pointer in the table stands with its
key; a table is valid for the objects there are when each pointer leads to the key
that it was put in with.
-/

namespace TWlib.DenseHashTable

open TWlib.Lib.OpenAddressing TWlib.Lib.FiniteMap TWlib.Lib.CellStore TWlib.DenseTable
  TWlib.DenseTable.DenseHashtable
  TWlib.DenseTableSearch TWlib.DenseTableUpdate TWlib.DenseTableCopy TWlib.DenseTableResize
  TWlib.DenseTableCalls TWlib.DenseTableWalk
  TWlib.GoogleHash TWlib.GoogleHashRefinement

set_option autoImplicit false

variable {Key : Type}

/-! ## The functions that are called -/

/-- The pairs of a `KEY *`, with the key it points to, and a `DATA *`. -/
abbrev Values (Key : Type) := DenseHashtable (Nat × Key) Nat

def pairOf (value : (Nat × Key) × Nat) : Nat × Nat := (value.1.1, value.2)

section Functions

variable (hash : Key → BitVec 64) (equal : Key → Key → Bool)

def hashPointer (pointer : Nat × Key) : BitVec 64 := hash pointer.2

def equalPointers (left right : Nat × Key) : Bool := equal left.2 right.2

/-- The pair that an iterator leads to. -/
def pairAt (h : Values Key) (pos : Nat) : Option (Nat × Nat) :=
  if pos = h.numBuckets then none else (h.cell pos).map pairOf

/-- Where the iterator to the pair with the pointer stands. -/
def position (h : Values Key) (first : Nat) : Option Nat :=
  (List.range h.numBuckets).find? fun i =>
    h.testEmpty (equalPointers equal) i = some false &&
      h.testDeleted (equalPointers equal) i = some false && (h.cell i).any (·.1.1 = first)

/-- `values[k] = v;` for a pointer to `key`. -/
def assignAt (h : Values Key) (k : Nat) (key : Key) (v : Nat) : Option (Values Key) := do
  let (h, pos) ← h.findOrInsert (equalPointers equal) (hashPointer hash) 0 (k, key)
  let value ← h.cell pos
  h.setValue pos (value.1, v)

/-- The table before anything is called. -/
def constructed (null : Key) : Values Key where
  settings := Settings.resetThresholds ⟨0, 0, false, false, false⟩ htDefaultStartingBuckets
  delkey := none
  numDeleted := 0
  numElements := 0
  numBuckets := htDefaultStartingBuckets
  emptyval := ((0, null), 0)
  table := none

/-- The two reserved keys are what the pointers given to `set_empty_key` and `set_deleted_key`
point to. A call that has no result leaves the table. -/
def denseMap (deletekey emptykey : Key) : GoogleMap Key (Values Key) where
  start := constructed emptykey
  setEmptyKey h k := (h.setEmptyKey (equalPointers equal) ((k, emptykey), 0)).getD h
  setDeletedKey h k :=
    (h.setDeletedKey (equalPointers equal) (hashPointer hash) (k, deletekey)).getD h
  find _ h key :=
    (h.find (equalPointers equal) (hashPointer hash) (0, key)).bind (pairAt h)
  begin h := (h.begin (equalPointers equal)).bind (pairAt h)
  setSecond h first v := (do
    let pos ← position equal h first
    let value ← h.cell pos
    h.setValue pos (value.1, v)).getD h
  index read h k v := ((read k).bind fun key => assignAt hash equal h k key v).getD h
  erase h first := ((position equal h first).bind (h.eraseAt (equalPointers equal) 0)).getD h
  eraseKey _ h key :=
    ((h.erase (equalPointers equal) (hashPointer hash) 0 (0, key)).map Prod.fst).getD h
  eraseAll h := (eraseAll (equalPointers equal) 0 h).getD h
  resize _ h count := (h.resize (equalPointers equal) (hashPointer hash) count).getD h
  size h := h.size

/-- What a loop over the table meets. -/
def pairs (h : Values Key) : List (Nat × Nat) :=
  ((walk (equalPointers equal) h).getD []).map pairOf

end Functions

theorem construct_default (null : Key) :
    construct ((0, null), 0) 0 = some (constructed null) := rfl

theorem lawful_pointers {hash : Key → BitVec 64} {equal : Key → Key → Bool}
    (lawful : Lawful hash equal) : Lawful (hashPointer hash) (equalPointers equal) where
  equivalence := {
    refl := fun pointer => lawful.equivalence.refl pointer.2
    symm := fun same => lawful.equivalence.symm same
    trans := fun left right => lawful.equivalence.trans left right }
  same_hash left right same := lawful.same_hash left.2 right.2 same

/-! ## Valid tables -/

/-- A sound table with the two reserved keys, in which every pointer leads to its key. -/
structure ValidAs (hash : Key → BitVec 64) (equal : Key → Key → Bool) (deletekey emptykey : Key)
    (read : Nat → Option Key) (h : Values Key) (m : Nat)
    (slots : Nat → Slot ((Nat × Key) × Nat)) : Prop where
  sound : Sound (hashPointer hash) (equalPointers equal) m h slots
  emptykey : h.emptyval.1.2 = emptykey
  delkey : ∃ k, delkeyOf h = some (k, deletekey)
  leads : ∀ value ∈ entries (2 ^ (m + 2)) slots, read value.1.1 = some value.1.2

def Valid (hash : Key → BitVec 64) (equal : Key → Key → Bool) (deletekey emptykey : Key)
    (read : Nat → Option Key) (h : Values Key) : Prop :=
  ∃ m slots, ValidAs hash equal deletekey emptykey read h m slots

def Fitting (h : Values Key) : Prop := h.numBuckets ≤ 2 ^ 60

section Valid

variable {hash : Key → BitVec 64} {equal : Key → Key → Bool} {deletekey emptykey key : Key}
  {read : Nat → Option Key} {h after : Values Key} {m k : Nat}
  {slots others : Nat → Slot ((Nat × Key) × Nat)} {expected rest : List (Nat × Nat)}
  {first second v : Nat}

theorem pairs_eq (sound : Sound (hashPointer hash) (equalPointers equal) m h slots) :
    pairs equal h = (entries (2 ^ (m + 2)) slots).map pairOf := by
  rw [pairs, walk_eq sound, Option.getD_some]

/-- With the reserved keys as they were, the values say what the pairs are. -/
theorem has_pairs (valid : ValidAs hash equal deletekey emptykey read h m slots)
    (keys : SameKeys h after)
    (sound : Sound (hashPointer hash) (equalPointers equal) k after others)
    (leads : ∀ value ∈ entries (2 ^ (k + 2)) others, read value.1.1 = some value.1.2)
    (perm : ((entries (2 ^ (k + 2)) others).map pairOf).Perm expected) :
    HasPairs (Valid hash equal deletekey emptykey) (pairs equal) read after expected := by
  refine ⟨⟨k, others, sound, ?_, ?_, leads⟩, ?_⟩
  · rw [keys.emptyval]
    exact valid.emptykey
  · rw [keys.delkey]
    exact valid.delkey
  · rw [pairs_eq sound]
    exact perm

theorem has_pairs_moved (valid : ValidAs hash equal deletekey emptykey read h m slots)
    (keys : SameKeys h after)
    (sound : Sound (hashPointer hash) (equalPointers equal) k after others)
    (perm : (entries (2 ^ (m + 2)) slots).Perm (entries (2 ^ (k + 2)) others)) :
    HasPairs (Valid hash equal deletekey emptykey) (pairs equal) read after (pairs equal h) := by
  refine has_pairs valid keys sound ?_ ?_
  · intro value member
    exact valid.leads value (perm.mem_iff.mpr member)
  · rw [pairs_eq valid.sound]
    exact perm.symm.map pairOf

theorem valid_used (valid : ValidAs hash equal deletekey emptykey read h m slots) :
    h.settings.useDeleted = true := by
  rcases valid.delkey with ⟨k, found⟩
  exact (mem_delkey_of.mp found).1

theorem valid_usable (equivalence : Equivalence (SameKey equal))
    (valid : ValidAs hash equal deletekey emptykey read h m slots)
    (allowed : ¬ DenseReserved equal deletekey emptykey key) (k : Nat) :
    Usable (equalPointers equal) h (k, key) := by
  constructor
  · intro same
    have isEmpty : SameKey equal h.emptyval.1.2 key := same
    rw [valid.emptykey] at isEmpty
    exact allowed (Or.inr (equivalence.symm isEmpty))
  · intro delkey member same
    rcases valid.delkey with ⟨n, found⟩
    rw [found] at member
    cases member
    exact allowed (Or.inl (equivalence.symm same))

/-! ## What the functions do -/

theorem pair_at_live (sound : Sound (hashPointer hash) (equalPointers equal) m h slots) {pos : Nat}
    {value : (Nat × Key) × Nat} (inside : pos < 2 ^ (m + 2)) (slot : slots pos = .live value) :
    pairAt h pos = some (pairOf value) := by
  rw [pairAt, if_neg (by rw [sound.buckets]; omega), (sound_live sound inside slot).1]
  rfl

theorem find_cases (lawful : Lawful hash equal) (deletekey emptykey : Key)
    (read : Nat → Option Key)
    (sound : Sound (hashPointer hash) (equalPointers equal) m h slots) (key : Key) :
    ((denseMap hash equal deletekey emptykey).find read h key = none ∧
      ∀ value ∈ entries (2 ^ (m + 2)) slots, ¬ SameKey equal value.1.2 key) ∨
    ∃ value ∈ entries (2 ^ (m + 2)) slots,
      (denseMap hash equal deletekey emptykey).find read h key = some (pairOf value) ∧
      SameKey equal value.1.2 key := by
  rcases find_eq sound (lawful_pointers lawful) (0, key) with
    ⟨found, absent⟩ | ⟨pos, value, found, inside, slot, same⟩
  · left
    refine ⟨?_, absent⟩
    show (h.find (equalPointers equal) (hashPointer hash) (0, key)).bind (pairAt h) = none
    rw [found, Option.bind_some, pairAt, if_pos rfl]
  · right
    refine ⟨value, mem_entries.mpr ⟨pos, inside, slot⟩, ?_, same⟩
    show (h.find (equalPointers equal) (hashPointer hash) (0, key)).bind (pairAt h) = _
    rw [found, Option.bind_some, pair_at_live sound inside slot]

theorem begin_cases (sound : Sound (hashPointer hash) (equalPointers equal) m h slots)
    (deletekey emptykey : Key) :
    ((denseMap hash equal deletekey emptykey).begin h = none ∧ pairs equal h = []) ∨
    ∃ it ∈ pairs equal h, (denseMap hash equal deletekey emptykey).begin h = some it := by
  rw [pairs_eq sound]
  rcases begin_eq sound with ⟨stop, began, stands, all⟩
  have begins : (denseMap hash equal deletekey emptykey).begin h = pairAt h stop := by
    show (h.begin (equalPointers equal)).bind (pairAt h) = _
    rw [began, Option.bind_some]
  rcases stands with last | ⟨inside, value, slot⟩
  · left
    refine ⟨by rw [begins, pairAt, if_pos (last.trans sound.buckets.symm)], ?_⟩
    rw [all, last, entries_from_end, List.map_nil]
  · right
    refine ⟨pairOf value, List.mem_map_of_mem (mem_entries.mpr ⟨stop, inside, slot⟩), ?_⟩
    rw [begins, pair_at_live sound inside slot]

/-- The place of a pair that the table has is that of the only value with its pointer. -/
theorem position_eq (sound : Sound (hashPointer hash) (equalPointers equal) m h slots)
    (perm : (pairs equal h).Perm ((first, second) :: rest))
    (apart : ∀ pair ∈ rest, pair.1 ≠ first) :
    ∃ pos value, position equal h first = some pos ∧ pos < 2 ^ (m + 2) ∧
      slots pos = .live value ∧ pairOf value = (first, second) := by
  rw [pairs_eq sound] at perm
  have stands : ∀ {i : Nat} {value : (Nat × Key) × Nat}, i < 2 ^ (m + 2) →
      slots i = .live value → value.1.1 = first → pairOf value = (first, second) := by
    intro i value inside slot named
    have member := List.mem_map_of_mem (f := pairOf) (mem_entries.mpr ⟨i, inside, slot⟩)
    rcases List.mem_cons.mp (perm.mem_iff.mp member) with here | later
    · exact here
    · exact absurd named (apart _ later)
  rcases List.mem_map.mp (perm.mem_iff.mpr List.mem_cons_self) with ⟨value, member, here⟩
  rcases mem_entries.mp member with ⟨i, inside, slot⟩
  have named : value.1.1 = first := congrArg Prod.fst here
  have found : (position equal h first).isSome := by
    rw [position, List.find?_isSome]
    refine ⟨i, List.mem_range.mpr (by rw [sound.buckets]; exact inside), ?_⟩
    rw [sound_test_empty sound inside,
      sound_test_deleted sound inside (by rw [slot]; simp), (sound_live sound inside slot).1, slot]
    simp [Slot.occupied, isDeletedSlot, named]
  rcases Option.isSome_iff_exists.mp found with ⟨pos, place⟩
  have bound : pos < 2 ^ (m + 2) := by
    rw [← sound.buckets]
    exact List.mem_range.mp (List.mem_of_find?_eq_some place)
  have passed := List.find?_some place
  rw [sound_test_empty sound bound] at passed
  cases there : slots pos with
  | empty =>
      rw [there] at passed
      simp [Slot.occupied] at passed
  | deleted =>
      rw [sound_test_deleted sound bound (by rw [there]; simp), there] at passed
      simp [isDeletedSlot] at passed
  | live other =>
      rw [(sound_live sound bound there).1] at passed
      simp only [Option.any_some, Bool.and_eq_true, decide_eq_true_eq] at passed
      exact ⟨pos, other, place, bound, there, stands bound there passed.2⟩

theorem set_value_eq (lawful : Lawful hash equal)
    (valid : ValidAs hash equal deletekey emptykey read h m slots) {pos : Nat}
    {value : (Nat × Key) × Nat} (inside : pos < 2 ^ (m + 2)) (slot : slots pos = .live value)
    (v : Nat) :
    ∃ after others, h.setValue pos (value.1, v) = some after ∧
      (pairs equal h).Perm (pairOf value :: others) ∧
      HasPairs (Valid hash equal deletekey emptykey) (pairs equal) read after
        ((value.1.1, v) :: others) := by
  rcases set_second_eq valid.sound (lawful_pointers lawful) inside slot v with
    ⟨after, stored, keeps, -, sound, others, before, behind⟩
  refine ⟨after, others.map pairOf, stored, ?_, ?_⟩
  · rw [pairs_eq valid.sound]
    exact before.map pairOf
  · refine has_pairs valid (keeps_same_keys keeps) sound ?_ (behind.map pairOf)
    intro other member
    rcases List.mem_cons.mp (behind.mem_iff.mp member) with rfl | later
    · exact valid.leads value (mem_entries.mpr ⟨pos, inside, slot⟩)
    · exact valid.leads other (before.mem_iff.mpr (List.mem_cons_of_mem _ later))

theorem set_second_has_pairs (lawful : Lawful hash equal)
    (valid : ValidAs hash equal deletekey emptykey read h m slots)
    (perm : (pairs equal h).Perm ((first, second) :: rest))
    (apart : ∀ pair ∈ rest, pair.1 ≠ first) :
    HasPairs (Valid hash equal deletekey emptykey) (pairs equal) read
      ((denseMap hash equal deletekey emptykey).setSecond h first v) ((first, v) :: rest) := by
  rcases position_eq valid.sound perm apart with ⟨pos, value, place, inside, slot, here⟩
  rcases set_value_eq lawful valid inside slot v with ⟨after, others, stored, before, has⟩
  have changed : (denseMap hash equal deletekey emptykey).setSecond h first v = after := by
    simp only [denseMap, place, (sound_live valid.sound inside slot).1, stored,
      Option.bind_eq_bind, Option.bind_some, Option.getD_some]
  rw [here] at before
  have same : others.Perm rest := (before.symm.trans perm).cons_inv
  have named : value.1.1 = first := congrArg Prod.fst here
  rw [named] at has
  rw [changed]
  exact ⟨has.1, has.2.trans (same.cons _)⟩

/-- A key that no value has gets a pair of its own. -/
theorem index_has_pairs (lawful : Lawful hash equal)
    (valid : ValidAs hash equal deletekey emptykey read h m slots) (fits : Fitting h)
    (leads : read k = some key) (allowed : ¬ DenseReserved equal deletekey emptykey key)
    (absent : ∀ value ∈ entries (2 ^ (m + 2)) slots, ¬ SameKey equal value.1.2 key) :
    HasPairs (Valid hash equal deletekey emptykey) (pairs equal) read
      ((denseMap hash equal deletekey emptykey).index read h k v) ((k, v) :: pairs equal h) := by
  have small : m ≤ 58 := by
    rw [Fitting, valid.sound.buckets] at fits
    exact DenseTableRuns.few_buckets fits
  rcases find_or_insert_eq valid.sound (lawful_pointers lawful) small 0
      (valid_usable lawful.equivalence valid allowed k) with
    ⟨middle, pos, fresh, j, others, value, inserted, placing, -⟩
  obtain rfl : fresh = true := by
    cases fresh with
    | true => rfl
    | false =>
        have member := (placing.old rfl).mem_iff.mpr
          (mem_entries.mpr ⟨pos, placing.inside, placing.slot⟩)
        exact absurd placing.same (absent value member)
  rcases placing.new rfl with ⟨rfl, -, perm⟩
  have grown : ValidAs hash equal deletekey emptykey read middle j others := by
    refine ⟨placing.sound, ?_, ?_, fun other member => ?_⟩
    · rw [placing.keys.emptyval]
      exact valid.emptykey
    · rw [placing.keys.delkey]
      exact valid.delkey
    · rcases List.mem_cons.mp (perm.mem_iff.mp member) with rfl | older
      · exact leads
      · exact valid.leads other older
  rcases set_value_eq lawful grown placing.inside placing.slot v with
    ⟨after, left, stored, before, has⟩
  have assigned : (denseMap hash equal deletekey emptykey).index read h k v = after := by
    simp only [denseMap, leads, assignAt, inserted,
      (sound_live placing.sound placing.inside placing.slot).1, stored, Option.bind_eq_bind,
      Option.bind_some, Option.getD_some]
  rw [pairs_eq placing.sound] at before
  have same : left.Perm (pairs equal h) := by
    rw [pairs_eq valid.sound]
    exact (before.symm.trans (perm.map pairOf)).cons_inv
  rw [assigned]
  exact ⟨has.1, has.2.trans (same.cons _)⟩

theorem erased_has_pairs (valid : ValidAs hash equal deletekey emptykey read h m slots)
    (keeps : Keeps h after)
    (sound : Sound (hashPointer hash) (equalPointers equal) m after others)
    {value : (Nat × Key) × Nat} (here : pairOf value = (first, second))
    (left : (entries (2 ^ (m + 2)) slots).Perm (value :: entries (2 ^ (m + 2)) others))
    (perm : (pairs equal h).Perm ((first, second) :: rest)) :
    HasPairs (Valid hash equal deletekey emptykey) (pairs equal) read after rest := by
  refine has_pairs valid (keeps_same_keys keeps) sound ?_ ?_
  · intro other member
    exact valid.leads other (left.mem_iff.mpr (List.mem_cons_of_mem _ member))
  · rw [pairs_eq valid.sound] at perm
    have before := left.map pairOf
    rw [List.map_cons, here] at before
    exact (before.symm.trans perm).cons_inv

theorem erase_has_pairs (lawful : Lawful hash equal)
    (valid : ValidAs hash equal deletekey emptykey read h m slots)
    (perm : (pairs equal h).Perm ((first, second) :: rest))
    (apart : ∀ pair ∈ rest, pair.1 ≠ first) :
    HasPairs (Valid hash equal deletekey emptykey) (pairs equal) read
      ((denseMap hash equal deletekey emptykey).erase h first) rest := by
  rcases position_eq valid.sound perm apart with ⟨pos, value, place, inside, slot, here⟩
  rcases erase_at_eq valid.sound (lawful_pointers lawful) 0 inside slot (valid_used valid) with
    ⟨after, erased, keeps, sound, left⟩
  have gone : (denseMap hash equal deletekey emptykey).erase h first = after := by
    simp only [denseMap, place, erased, Option.bind_some, Option.getD_some]
  rw [gone]
  exact erased_has_pairs valid keeps sound here left perm

/-- The value that is found is that of the pair with an equal key: no two values have one. -/
theorem erase_key_has_pairs (lawful : Lawful hash equal)
    (valid : ValidAs hash equal deletekey emptykey read h m slots)
    (allowed : ¬ DenseReserved equal deletekey emptykey key)
    (perm : (pairs equal h).Perm ((first, second) :: rest)) {stored : Key}
    (leads : read first = some stored) (same : SameKey equal stored key) :
    HasPairs (Valid hash equal deletekey emptykey) (pairs equal) read
      ((denseMap hash equal deletekey emptykey).eraseKey read h key) rest := by
  have listed := perm
  rw [pairs_eq valid.sound] at listed
  rcases List.mem_map.mp (listed.mem_iff.mpr List.mem_cons_self) with ⟨value, member, here⟩
  have named : value.1.1 = first := congrArg Prod.fst here
  have found := valid.leads value member
  rw [named, leads] at found
  have sameKey : SameKey equal value.1.2 key := by
    rw [← Option.some.inj found]
    exact same
  rcases erase_eq valid.sound (lawful_pointers lawful) 0
      (valid_usable lawful.equivalence valid allowed 0) (valid_used valid) with
    ⟨-, absent⟩ | ⟨after, pos, other, erased, keeps, sound, otherSame, left⟩
  · exact absurd sameKey (absent value member)
  · have gone : (denseMap hash equal deletekey emptykey).eraseKey read h key = after := by
      simp only [denseMap, erased, Option.map_some, Option.getD_some]
    have distinct := left.pairwise valid.sound.placed.distinct fun {one two} differ again =>
      differ (lawful.equivalence.symm again)
    have itself : value = other := by
      rcases List.mem_cons.mp (left.mem_iff.mp member) with here | later
      · exact here
      · have clash := lawful.equivalence.trans otherSame (lawful.equivalence.symm sameKey)
        exact absurd clash ((List.pairwise_cons.mp distinct).1 value later)
    subst itself
    rw [gone]
    exact erased_has_pairs valid keeps sound here left perm

theorem erase_all_has_pairs (lawful : Lawful hash equal)
    (valid : ValidAs hash equal deletekey emptykey read h m slots) :
    HasPairs (Valid hash equal deletekey emptykey) (pairs equal) read
      ((denseMap hash equal deletekey emptykey).eraseAll h) [] := by
  rcases erase_all_eq valid.sound (lawful_pointers lawful) 0 (valid_used valid) with
    ⟨after, others, erased, keeps, sound, nothing, -⟩
  have cleared : (denseMap hash equal deletekey emptykey).eraseAll h = after := by
    simp only [denseMap, erased, Option.getD_some]
  rw [cleared]
  refine has_pairs valid (keeps_same_keys keeps) sound ?_ (by rw [nothing]; rfl)
  rw [nothing]
  intro value member
  cases member

theorem compact_has_pairs (lawful : Lawful hash equal)
    (valid : ValidAs hash equal deletekey emptykey read h m slots) :
    HasPairs (Valid hash equal deletekey emptykey) (pairs equal) read
      ((denseMap hash equal deletekey emptykey).resize read h 0) (pairs equal h) := by
  rcases resize_zero_eq valid.sound (lawful_pointers lawful) with
    ⟨after, k, others, resized, done⟩
  have compacted : (denseMap hash equal deletekey emptykey).resize read h 0 = after := by
    simp only [denseMap, resized, Option.getD_some]
  rw [compacted]
  exact has_pairs_moved valid done.keys done.sound done.perm

theorem set_deleted_key_has_pairs (lawful : Lawful hash equal)
    (valid : ValidAs hash equal deletekey emptykey read h m slots)
    (differ : ¬ SameKey equal deletekey emptykey)
    (keyed : Keyed equal (DenseReserved equal deletekey emptykey) read (pairs equal h)) (k : Nat) :
    HasPairs (Valid hash equal deletekey emptykey) (pairs equal) read
      ((denseMap hash equal deletekey emptykey).setDeletedKey h k) (pairs equal h) := by
  have apart : ¬ SameKey (equalPointers equal) h.emptyval.1 (k, deletekey) := by
    intro same
    have isEmpty : SameKey equal h.emptyval.1.2 deletekey := same
    rw [valid.emptykey] at isEmpty
    exact differ (lawful.equivalence.symm isEmpty)
  have absent : ∀ value ∈ entries (2 ^ (m + 2)) slots,
      ¬ SameKey (equalPointers equal) value.1 (k, deletekey) := by
    intro value member same
    rw [pairs_eq valid.sound] at keyed
    rcases keyed.named (pairOf value) (List.mem_map_of_mem member) with ⟨key, leads, allowed⟩
    rw [show read (pairOf value).1 = some value.1.2 from valid.leads value member] at leads
    cases leads
    exact allowed (Or.inl same)
  rcases set_deleted_key_eq valid.sound (lawful_pointers lawful) apart absent with
    ⟨after, j, others, marked, sound, perm, emptyval, delkey⟩
  have set : (denseMap hash equal deletekey emptykey).setDeletedKey h k = after := by
    simp only [denseMap, marked, Option.getD_some]
  rw [set]
  refine ⟨⟨j, others, sound, ?_, ⟨k, delkey⟩, ?_⟩, ?_⟩
  · rw [emptyval]
    exact valid.emptykey
  · intro value member
    exact valid.leads value (perm.mem_iff.mpr member)
  · rw [pairs_eq valid.sound, pairs_eq sound]
    exact perm.symm.map pairOf

/-- What is relied on of the library is what its table does. -/
theorem dense_map_finite (lawful : Lawful hash equal)
    (differ : ¬ SameKey equal deletekey emptykey) :
    IsFiniteMapOn equal (DenseReserved equal deletekey emptykey)
      (denseMap hash equal deletekey emptykey) (Valid hash equal deletekey emptykey) Fitting
      (pairs equal) where
  other_read := by
    intro read other h holds same
    rcases holds with ⟨m, slots, valid⟩
    rw [pairs_eq valid.sound] at same
    refine ⟨m, slots, valid.sound, valid.emptykey, valid.delkey, fun value member => ?_⟩
    exact (same (pairOf value) (List.mem_map_of_mem member)).trans (valid.leads value member)
  set_deleted_key := by
    intro read h k holds keyed
    rcases holds with ⟨m, slots, valid⟩
    exact set_deleted_key_has_pairs lawful valid differ keyed k
  find_some := by
    intro read h key it holds _ _ found
    rcases holds with ⟨m, slots, valid⟩
    rcases find_cases lawful deletekey emptykey read valid.sound key with
      ⟨missed, -⟩ | ⟨value, member, met, same⟩
    · rw [missed] at found
      cases found
    · rw [met] at found
      cases found
      rw [pairs_eq valid.sound]
      exact ⟨List.mem_map_of_mem member, value.1.2, valid.leads value member, same⟩
  find_none := by
    intro read h key holds _ _ missed pair member stored leads
    rcases holds with ⟨m, slots, valid⟩
    rcases find_cases lawful deletekey emptykey read valid.sound key with
      ⟨-, absent⟩ | ⟨value, -, met, -⟩
    · rw [pairs_eq valid.sound] at member
      rcases List.mem_map.mp member with ⟨value, here, rfl⟩
      rw [show read (pairOf value).1 = some value.1.2 from valid.leads value here] at leads
      cases leads
      exact absent value here
    · rw [met] at missed
      cases missed
  begin_none := by
    intro read h holds none_
    rcases holds with ⟨m, slots, valid⟩
    rcases begin_cases valid.sound deletekey emptykey with ⟨-, nothing⟩ | ⟨it, -, began⟩
    · exact nothing
    · rw [began] at none_
      cases none_
  begin_some := by
    intro read h it holds some_
    rcases holds with ⟨m, slots, valid⟩
    rcases begin_cases valid.sound deletekey emptykey with ⟨ends, -⟩ | ⟨first, member, began⟩
    · rw [ends] at some_
      cases some_
    · rw [began] at some_
      cases some_
      exact member
  set_second := by
    intro read h first second v rest holds perm apart
    rcases holds with ⟨m, slots, valid⟩
    exact set_second_has_pairs lawful valid perm apart
  index := by
    intro read h k v key holds fits _ leads allowed absent
    rcases holds with ⟨m, slots, valid⟩
    refine index_has_pairs lawful valid fits leads allowed fun value member => ?_
    rw [pairs_eq valid.sound] at absent
    exact absent (pairOf value) (List.mem_map_of_mem member) _ (valid.leads value member)
  erase := by
    intro read h first second rest holds perm apart
    rcases holds with ⟨m, slots, valid⟩
    exact erase_has_pairs lawful valid perm apart
  erase_key := by
    intro read h key first second rest stored holds _ allowed perm leads same
    rcases holds with ⟨m, slots, valid⟩
    exact erase_key_has_pairs lawful valid allowed perm leads same
  erase_all := by
    intro read h holds
    rcases holds with ⟨m, slots, valid⟩
    exact erase_all_has_pairs lawful valid
  compact := by
    intro read h holds _
    rcases holds with ⟨m, slots, valid⟩
    exact compact_has_pairs lawful valid
  size := by
    intro read h holds
    rcases holds with ⟨m, slots, valid⟩
    rw [pairs_eq valid.sound, List.length_map]
    exact size_eq valid.sound

end Valid

/-! ## The map over the table -/

section Map

open TWlib.DenseHashReferences TWlib.KHashReferences TWlib.KHashMap

variable {Data : Type} {hash : Key → BitVec 64} {equal : Key → Key → Bool}
  {deletekey emptykey : Key}

/-- `resize(items)` comes before the empty key is set, and makes no array. -/
theorem start_sized (hash : Key → BitVec 64) (equal : Key → Key → Bool) (deletekey emptykey : Key)
    {items : Nat} (modest : items < 2 ^ 62) :
    ∃ m, Unset m (if items ≠ 0 then (denseMap hash equal deletekey emptykey).resize (fun _ => none)
        (denseMap hash equal deletekey emptykey).start items
      else (denseMap hash equal deletekey emptykey).start) := by
  rcases construct_eq ((0, emptykey), 0) (show 0 < 2 ^ 62 by omega) with ⟨h, made, m, fresh⟩
  rw [construct_default] at made
  cases made
  split_ifs with asked
  · rcases unset_resize_eq (hashPointer hash) (equalPointers equal) fresh asked
      modest with ⟨after, k, resized, unset⟩
    have sized : (denseMap hash equal deletekey emptykey).resize (fun _ => none)
        (denseMap hash equal deletekey emptykey).start items = after := by
      simp only [denseMap, resized, Option.getD_some]
    rw [sized]
    exact ⟨k, unset⟩
  · exact ⟨m, fresh⟩

theorem dense_map_init_holds (lawful : Lawful hash equal)
    (differ : ¬ SameKey equal deletekey emptykey) {items : Nat} (modest : items < 2 ^ 62) :
    WrapperHolds equal (DenseReserved equal deletekey emptykey)
      (Valid hash equal deletekey emptykey) (pairs equal)
      (TWDenseHash.init (denseMap hash equal deletekey emptykey) deletekey emptykey items :
        Wrapper Key Data (Values Key)) (fun _ => none) [] := by
  rcases start_sized hash equal deletekey emptykey modest with ⟨m, unset⟩
  rcases set_empty_key_eq (lawful_pointers lawful) unset ((0, emptykey), 0) with
    ⟨first, set, sound, emptyval, -⟩
  have nothing : entries (2 ^ (m + 2)) (fun _ => (Slot.empty : Slot ((Nat × Key) × Nat))) = [] :=
    entries_nil fun _ _ => rfl
  have apart : ¬ SameKey (equalPointers equal) first.emptyval.1 (1, deletekey) := by
    rw [emptyval]
    exact fun same => differ (lawful.equivalence.symm same)
  rcases set_deleted_key_eq sound (lawful_pointers lawful) apart
      (by rw [nothing]; exact fun value member => absurd member List.not_mem_nil) with
    ⟨after, k, others, marked, afterSound, perm, afterEmpty, delkey⟩
  rw [nothing] at perm
  have left : entries (2 ^ (k + 2)) others = [] := perm.symm.eq_nil
  let made : Wrapper Key Data (Values Key) :=
    TWDenseHash.init (denseMap hash equal deletekey emptykey) deletekey emptykey items
  have values : made.values = after := by
    show ((Option.getD (DenseHashtable.setEmptyKey _ _ _) _).setDeletedKey _ _ _).getD _ = after
    rw [set, Option.getD_some, marked, Option.getD_some]
  have valid : Valid hash equal deletekey emptykey made.keys.read made.values := by
    rw [values]
    refine ⟨k, others, afterSound, by rw [afterEmpty, emptyval], ⟨1, delkey⟩, ?_⟩
    rw [left]
    exact fun value member => absurd member List.not_mem_nil
  refine holds_nothing ?_ valid
  show pairs equal made.values = []
  rw [values, pairs_eq afterSound, left, List.map_nil]

/-- The rules for `TWDenseHash`, and at most `2 ^ 60` buckets when the call is made. -/
def TableHeeds (hash : Key → BitVec 64) (equal : Key → Key → Bool) (deletekey emptykey : Key)
    (blank : Data) (scope : Scope (Wrapper Key Data (Values Key)) Data) (spec : Spec Key Data)
    (next : DenseCall Key) : Prop :=
  DenseHashReferences.Heeds (denseMap hash equal deletekey emptykey) equal
      (DenseReserved equal deletekey emptykey) blank scope spec next ∧
    Fitting scope.map.values

/-- `TWDenseHash` goes as the finite map over the table of the library. -/
theorem dense_hash_over_table_refines (lawful : Lawful hash equal)
    (differ : ¬ SameKey equal deletekey emptykey) (blank : Data) {items : Nat}
    (modest : items < 2 ^ 62) (locals : Nat → Data) (calls : List (DenseCall Key)) :
    (DenseHashReferences.interface (denseMap hash equal deletekey emptykey) equal
      blank).BehavesAs (TableHeeds hash equal deletekey emptykey blank)
      (DenseHashReferences.Agrees equal (pairs equal))
      ⟨TWDenseHash.init (denseMap hash equal deletekey emptykey) deletekey emptykey items, locals⟩
      ⟨fun _ => none, locals⟩ calls := by
  have finite := dense_map_finite lawful differ
  have closed := dense_reserved_closed lawful.equivalence deletekey emptykey
  have held : ScopeHolds equal (DenseReserved equal deletekey emptykey)
      (Valid hash equal deletekey emptykey) (pairs equal)
      ⟨TWDenseHash.init (denseMap hash equal deletekey emptykey) deletekey emptykey items, locals⟩
      ⟨fun _ => none, locals⟩ [] := ⟨dense_map_init_holds lawful differ modest, rfl⟩
  refine Interface.run_behaves ?_ ?_ held calls
  · intro scope spec items held
    exact ⟨GoogleHashRefinement.holds_agrees held.1, held.2⟩
  · intro scope spec items next held heeds
    exact DenseHashReferences.call_goes finite lawful.equivalence closed held heeds.1 heeds.2

end Map

end TWlib.DenseHashTable
