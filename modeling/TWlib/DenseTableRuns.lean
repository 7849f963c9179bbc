import TWlib.DenseTableWalk

/-!
# `dense_hash_map` is a finite map

`Spec` is what a caller may know of a map: its content and the deleted key. Every
run of calls that heeds the rules for the reserved keys answers as the finite map
does, with every assertion kept, and never fills more than half of the buckets.
-/

namespace TWlib.DenseTableRuns

open TWlib.Lib.OpenAddressing TWlib.Lib.FiniteMap TWlib.DenseTable TWlib.DenseTable.DenseHashtable
  TWlib.DenseTableSearch TWlib.DenseTableUpdate TWlib.DenseTableCopy TWlib.DenseTableResize
  TWlib.DenseTableCalls
  TWlib.DenseTableWalk

set_option autoImplicit false

variable {Key T : Type}

/-! ## Calls -/

/-- `assign` is `map[key] = data`, `index` reads `map[key]` and `eraseFound` is
`erase(find(key))`. -/
inductive Call (Key T : Type) where
  | find (key : Key)
  | count (key : Key)
  | insert (obj : Key × T)
  | index (key : Key)
  | assign (key : Key) (data : T)
  | erase (key : Key)
  | eraseFound (key : Key)
  | eraseIf (drop : T → Bool)
  | eraseAll
  | items
  | size
  | clear
  | clearNoResize
  | resize (hint : Nat)
  | setDeletedKey (key : Key)
  | clearDeletedKey

/-- A call that may take values out, and moves none. -/
def Call.erases : Call Key T → Bool
  | .find _ | .count _ | .items | .size | .erase _ | .eraseFound _ | .eraseIf _ | .eraseAll => true
  | _ => false

inductive Reply (Key T : Type) where
  | data (second : Option T)
  | count (count : Nat)
  | inserted (fresh : Bool) (second : T)
  | visited (values : List (Key × T))
  | done
deriving DecidableEq

section Perform

variable (equal : Key → Key → Bool) (hash : Key → BitVec 64) (blank : T)

def perform (h : DenseHashtable Key T) : Call Key T → Option (DenseHashtable Key T × Reply Key T)
  | .find key => do
      let pos ← h.find equal hash key
      if pos = h.numBuckets then some (h, .data none)
      else (h.cell pos).map fun value => (h, .data (some value.2))
  | .count key => (h.count equal hash key).map fun count => (h, .count count)
  | .insert obj => do
      let (h, pos, fresh) ← h.insert equal hash obj
      (h.cell pos).map fun value => (h, .inserted fresh value.2)
  | .index key => do
      let (h, pos) ← h.findOrInsert equal hash blank key
      (h.cell pos).map fun value => (h, .data (some value.2))
  | .assign key data => do
      let (h, pos) ← h.findOrInsert equal hash blank key
      let value ← h.cell pos
      (h.setValue pos (value.1, data)).map fun h => (h, .done)
  | .erase key => (h.erase equal hash blank key).map fun (h, count) => (h, .count count)
  | .eraseFound key => do
      let pos ← h.find equal hash key
      (h.eraseAt equal blank pos).map fun h => (h, .done)
  | .eraseIf drop => (eraseIf equal blank h drop).map fun (h, values) => (h, .visited values)
  | .eraseAll => (eraseAll equal blank h).map fun h => (h, .done)
  | .items => (walk equal h).map fun values => (h, .visited values)
  | .size => some (h, .count h.size)
  | .clear => h.clear.map fun h => (h, .done)
  | .clearNoResize => h.clearNoResize.map fun h => (h, .done)
  | .resize hint => (h.resize equal hash hint).map fun h => (h, .done)
  | .setDeletedKey key => (h.setDeletedKey equal hash key).map fun h => (h, .done)
  | .clearDeletedKey => (h.clearDeletedKey equal hash).map fun h => (h, .done)

/-- The constructor and the call of `set_empty_key` that has to follow. -/
def start (null emptyval : Key × T) (items : Nat) : Option (DenseHashtable Key T) :=
  (construct null items).bind fun h => h.setEmptyKey equal emptyval

end Perform

/-! ## The finite map -/

structure Spec (Key T : Type) where
  content : Content Key T
  delkey : Option Key

section Meaning

variable (equal : Key → Key → Bool) (blank : T)

def storeNew (content : Content Key T) (key : Key) (data : T) : Content Key T :=
  if (content key).isSome then content else assign equal content key data

def meaning (spec : Spec Key T) : Call Key T → Spec Key T
  | .insert obj => { spec with content := storeNew equal spec.content obj.1 obj.2 }
  | .index key => { spec with content := storeNew equal spec.content key blank }
  | .assign key data => { spec with content := assign equal spec.content key data }
  | .erase key | .eraseFound key => { spec with content := forget equal spec.content key }
  | .eraseIf drop =>
      { spec with content := fun key => (spec.content key).filter fun data => !drop data }
  | .eraseAll | .clear | .clearNoResize => { spec with content := fun _ => none }
  | .setDeletedKey key => { spec with delkey := some key }
  | .clearDeletedKey => { spec with delkey := none }
  | .find _ | .count _ | .items | .size | .resize _ => spec

def Correct (spec : Spec Key T) (reply : Reply Key T) : Call Key T → Prop
  | .find key => reply = .data (spec.content key)
  | .count key | .erase key => reply = .count (if (spec.content key).isSome then 1 else 0)
  | .insert obj => reply = .inserted (spec.content obj.1).isNone ((spec.content obj.1).getD obj.2)
  | .index key => reply = .data (some ((spec.content key).getD blank))
  | .eraseIf _ | .items => ∃ items, Lists equal spec.content items ∧ reply = .visited items
  | .size => ∃ items, Lists equal spec.content items ∧ reply = .count items.length
  | _ => reply = .done

def Storable (emptykey : Key) (spec : Spec Key T) (key : Key) : Prop :=
  ¬ SameKey equal emptykey key ∧ ∀ delkey ∈ spec.delkey, ¬ SameKey equal delkey key

/-- The rules for callers: reserved keys are not stored, and there is a deleted key before anything
is erased. -/
def Allowed (emptykey : Key) (spec : Spec Key T) : Call Key T → Prop
  | .insert obj => Storable equal emptykey spec obj.1
  | .index key | .assign key _ => Storable equal emptykey spec key
  | .erase key => Storable equal emptykey spec key ∧ spec.delkey.isSome
  | .eraseFound _ | .eraseIf _ | .eraseAll => spec.delkey.isSome
  | .setDeletedKey key => ¬ SameKey equal emptykey key ∧ spec.content key = none
  | .resize hint => hint < 2 ^ 62
  | _ => True

/-- The rules, and at most `2 ^ 60` buckets when the call is made. -/
def Heeds (emptykey : Key) (h : DenseHashtable Key T) (spec : Spec Key T)
    (call : Call Key T) : Prop :=
  Allowed equal emptykey spec call ∧ h.numBuckets ≤ 2 ^ 60

/-- A walk visits each key of the content once, with its data. -/
def Agrees (h : DenseHashtable Key T) (spec : Spec Key T) : Prop :=
  ∃ items, walk equal h = some items ∧ Lists equal spec.content items ∧ h.size = items.length

def interface (hash : Key → BitVec 64) :
    Interface (DenseHashtable Key T) (Spec Key T) (Call Key T) (Reply Key T) where
  perform := perform equal hash blank
  meaning := meaning equal blank
  Correct spec _ _ reply call := Correct equal blank spec reply call

end Meaning

/-! ## One call -/

/-- A sound table with the content and the reserved keys of the map. -/
structure Holds (hash : Key → BitVec 64) (equal : Key → Key → Bool) (emptykey : Key)
    (h : DenseHashtable Key T) (spec : Spec Key T) (m : Nat) (slots : Nat → Slot (Key × T)) :
    Prop where
  sound : Sound hash equal m h slots
  emptykey : h.emptyval.1 = emptykey
  delkey : delkeyOf h = spec.delkey
  lists : Lists equal spec.content (entries (2 ^ (m + 2)) slots)

section Steps

variable {hash : Key → BitVec 64} {equal : Key → Key → Bool} {emptykey : Key}
  {h after : DenseHashtable Key T} {spec : Spec Key T} {m k : Nat}
  {slots others : Nat → Slot (Key × T)} {key : Key} {blank : T}

theorem holds_storable (held : Holds hash equal emptykey h spec m slots) :
    Usable equal h key ↔ Storable equal emptykey spec key := by
  rw [Usable, Storable, held.emptykey, held.delkey]

theorem holds_used (held : Holds hash equal emptykey h spec m slots) (some_ : spec.delkey.isSome) :
    h.settings.useDeleted = true := by
  rw [← held.delkey] at some_
  rcases Option.isSome_iff_exists.mp some_ with ⟨delkey, found⟩
  exact (mem_delkey_of.mp found).1

theorem holds_same (held : Holds hash equal emptykey h spec m slots) (keys : SameKeys h after)
    (sound : Sound hash equal k after others) {content : Content Key T}
    (lists : Lists equal content (entries (2 ^ (k + 2)) others)) :
    Holds hash equal emptykey after { spec with content := content } k others where
  sound := sound
  emptykey := by rw [keys.emptyval, held.emptykey]
  delkey := keys.delkey.trans held.delkey
  lists := lists

theorem holds_missing (held : Holds hash equal emptykey h spec m slots)
    (absent : ∀ entry ∈ entries (2 ^ (m + 2)) slots, ¬ SameKey equal entry.1 key) :
    spec.content key = none :=
  (none_iff held.lists).mpr absent

theorem holds_present (held : Holds hash equal emptykey h spec m slots) {pos : Nat}
    {entry : Key × T} (inside : pos < 2 ^ (m + 2)) (slot : slots pos = .live entry)
    (same : SameKey equal entry.1 key) :
    spec.content key = some entry.2 :=
  (held.lists.known key entry.2).mpr ⟨entry, mem_entries.mpr ⟨pos, inside, slot⟩, same, rfl⟩

theorem placing_holds (lawful : Lawful hash equal) (held : Holds hash equal emptykey h spec m slots)
    {made : Key × T} {pos : Nat} {fresh : Bool} {entry : Key × T}
    (placing : Placing hash equal h (entries (2 ^ (m + 2)) slots) made after pos k others
      fresh entry) :
    fresh = (spec.content made.1).isNone ∧ entry.2 = (spec.content made.1).getD made.2 ∧
      Holds hash equal emptykey after
      { spec with content := storeNew equal spec.content made.1 made.2 } k others := by
  cases fresh with
  | true =>
      rcases placing.new rfl with ⟨rfl, absent, perm⟩
      have missing := holds_missing held absent
      refine ⟨by rw [missing]; rfl, by rw [missing]; rfl, ?_⟩
      apply holds_same held placing.keys placing.sound
      rw [storeNew, missing]
      exact lists_perm lawful.equivalence (lists_assign_new lawful.equivalence held.lists missing
        entry.2) perm.symm
  | false =>
      have perm := placing.old rfl
      have member : entry ∈ entries (2 ^ (m + 2)) slots :=
        perm.mem_iff.mpr (mem_entries.mpr ⟨pos, placing.inside, placing.slot⟩)
      have present : spec.content made.1 = some entry.2 :=
        (held.lists.known made.1 entry.2).mpr ⟨entry, member, placing.same, rfl⟩
      refine ⟨by rw [present]; rfl, by rw [present]; rfl, ?_⟩
      apply holds_same held placing.keys placing.sound
      rw [storeNew, present]
      exact lists_perm lawful.equivalence held.lists perm

theorem erased_holds (lawful : Lawful hash equal) (held : Holds hash equal emptykey h spec m slots)
    (keeps : Keeps h after) (sound : Sound hash equal m after others) {entry : Key × T}
    (same : SameKey equal entry.1 key)
    (perm : (entries (2 ^ (m + 2)) slots).Perm (entry :: entries (2 ^ (m + 2)) others)) :
    Holds hash equal emptykey after { spec with content := forget equal spec.content key } m
    others := by
  apply holds_same held (keeps_same_keys keeps) sound
  exact lists_forget lawful.equivalence (lists_perm lawful.equivalence held.lists perm) same

theorem assign_store_new (content : Content Key T) (blank data : T) :
    assign equal (storeNew equal content key blank) key data = assign equal content key data := by
  funext other
  by_cases same : SameKey equal key other
  · rw [assign_same same, assign_same same]
  · rw [assign_other same, assign_other same, storeNew]
    split_ifs
    · rfl
    · exact assign_other same

/-- How a table holds the map: the exponent of its number of buckets, and what is in them. -/
abbrev Shape (Key T : Type) := Nat × (Nat → Slot (Key × T))

def TableHolds (hash : Key → BitVec 64) (equal : Key → Key → Bool) (emptykey : Key)
    (h : DenseHashtable Key T) (spec : Spec Key T) (shape : Shape Key T) : Prop :=
  Holds hash equal emptykey h spec shape.1 shape.2

def Goes (hash : Key → BitVec 64) (equal : Key → Key → Bool) (blank : T) (emptykey : Key)
    (h : DenseHashtable Key T) (spec : Spec Key T) (call : Call Key T) : Prop :=
  (interface equal blank hash).Goes (TableHolds hash equal emptykey) h spec call

theorem goes_iff {call : Call Key T} : Goes hash equal blank emptykey h spec call ↔
    ∃ after reply k others, perform equal hash blank h call = some (after, reply) ∧
      Correct equal blank spec reply call ∧
      Holds hash equal emptykey after (meaning equal blank spec call) k others := by
  constructor
  · rintro ⟨after, reply, ⟨k, others⟩, performed, correct, holds⟩
    exact ⟨after, reply, k, others, performed, correct, holds⟩
  · rintro ⟨after, reply, k, others, performed, correct, holds⟩
    exact ⟨after, reply, ⟨k, others⟩, performed, correct, holds⟩

/-- It does so without a value moved. -/
def Stays (hash : Key → BitVec 64) (equal : Key → Key → Bool) (blank : T) (emptykey : Key)
    (h : DenseHashtable Key T) (spec : Spec Key T) (m : Nat) (slots : Nat → Slot (Key × T))
    (call : Call Key T) : Prop :=
  ∃ after reply others, perform equal hash blank h call = some (after, reply) ∧
    Correct equal blank spec reply call ∧
    Holds hash equal emptykey after (meaning equal blank spec call) m others ∧ Deletes slots others

theorem goes_of_stays {call : Call Key T}
    (stays : Stays hash equal blank emptykey h spec m slots call) :
    Goes hash equal blank emptykey h spec call := by
  rcases stays with ⟨after, reply, others, performed, correct, holds, -⟩
  exact goes_iff.mpr ⟨after, reply, m, others, performed, correct, holds⟩

variable (lawful : Lawful hash equal) (held : Holds hash equal emptykey h spec m slots) (blank)

include lawful held

theorem find_stays (key : Key) : Stays hash equal blank emptykey h spec m slots (.find key) := by
  rcases find_eq held.sound lawful key with ⟨found, absent⟩ | ⟨pos, entry, found,
    inside, slot, same⟩
  · refine ⟨h, .data none, slots, ?_, ?_, held, deletes_refl slots⟩
    · simp only [perform, found, Option.bind_eq_bind, Option.bind_some, if_true]
    · rw [Correct, holds_missing held absent]
  · have notEnd : pos ≠ h.numBuckets := by rw [held.sound.buckets]; omega
    refine ⟨h, .data (some entry.2), slots, ?_, ?_, held, deletes_refl slots⟩
    · simp only [perform, found, Option.bind_eq_bind, Option.bind_some, if_neg notEnd,
        (sound_live held.sound inside slot).1, Option.map_some]
    · rw [Correct, holds_present held inside slot same]

theorem count_stays (key : Key) : Stays hash equal blank emptykey h spec m slots (.count key) := by
  rcases find_position_eq held.sound lawful key with ⟨pos, found, -, absent⟩ | ⟨pos, entry, found,
    inside, slot, same⟩
  · refine ⟨h, .count 0, slots, ?_, ?_, held, deletes_refl slots⟩
    · rw [perform, DenseHashtable.count, found]
      rfl
    · rw [Correct, holds_missing held absent]
      rfl
  · refine ⟨h, .count 1, slots, ?_, ?_, held, deletes_refl slots⟩
    · rw [perform, DenseHashtable.count, found]
      rfl
    · rw [Correct, holds_present held inside slot same]
      rfl

theorem insert_goes (obj : Key × T) (small : m ≤ 58) (usable : Usable equal h obj.1) :
    Goes hash equal blank emptykey h spec (.insert obj) := by
  rcases insert_eq held.sound lawful small usable with ⟨after, pos, fresh, k, others, entry,
    inserted, placing⟩
  rcases placing_holds lawful held placing with ⟨isFresh, data, holds⟩
  refine goes_iff.mpr ⟨after, .inserted fresh entry.2, k, others, ?_, ?_, holds⟩
  · simp only [perform, inserted, Option.bind_eq_bind, Option.bind_some,
      (sound_live placing.sound placing.inside placing.slot).1, Option.map_some]
  · rw [Correct, isFresh, data]

theorem index_goes (key : Key) (small : m ≤ 58) (usable : Usable equal h key) :
    Goes hash equal blank emptykey h spec (.index key) := by
  rcases find_or_insert_eq held.sound lawful small blank usable with
    ⟨after, pos, fresh, k, others, entry, inserted, placing, -⟩
  rcases placing_holds lawful held placing with ⟨-, data, holds⟩
  refine goes_iff.mpr ⟨after, .data (some entry.2), k, others, ?_, ?_, holds⟩
  · simp only [perform, inserted, Option.bind_eq_bind, Option.bind_some,
      (sound_live placing.sound placing.inside placing.slot).1, Option.map_some]
  · rw [Correct, data]

theorem assign_goes (key : Key) (data : T) (small : m ≤ 58) (usable : Usable equal h key) :
    Goes hash equal blank emptykey h spec (.assign key data) := by
  rcases find_or_insert_eq held.sound lawful small blank usable with
    ⟨middle, pos, fresh, k, others, entry, inserted, placing, -⟩
  rcases placing_holds lawful held placing with ⟨-, -, holds⟩
  rcases set_second_eq placing.sound lawful placing.inside placing.slot data with
    ⟨after, stored, keeps, -, soundness, rest, before, behind⟩
  refine goes_iff.mpr ⟨after, .done, k, Function.update others pos (.live (entry.1, data)),
    ?_, rfl, ?_⟩
  · simp only [perform, inserted, Option.bind_eq_bind, Option.bind_some,
      (sound_live placing.sound placing.inside placing.slot).1, stored, Option.map_some]
  · have listed := lists_assign_known lawful.equivalence
      (lists_perm lawful.equivalence holds.lists before) placing.same data
    rw [assign_store_new spec.content blank data] at listed
    exact holds_same held (same_keys_trans placing.keys (keeps_same_keys keeps)) soundness
      (lists_perm lawful.equivalence listed behind.symm)

theorem erase_stays (key : Key) (usable : Usable equal h key)
    (used : h.settings.useDeleted = true) :
    Stays hash equal blank emptykey h spec m slots (.erase key) := by
  rcases erase_eq held.sound lawful blank usable used with
    ⟨erased, absent⟩ | ⟨after, pos, entry, erased, keeps, soundness, same, perm⟩
  · have missing := holds_missing held absent
    refine ⟨h, .count 0, slots, by rw [perform, erased]; rfl, by rw [Correct, missing]; rfl, ?_,
      deletes_refl slots⟩
    rw [meaning, forget_missing lawful.equivalence held.lists missing]
    exact held
  · have present := (held.lists.known key entry.2).mpr ⟨entry,
      perm.mem_iff.mpr List.mem_cons_self, same, rfl⟩
    exact ⟨after, .count 1, _, by rw [perform, erased]; rfl, by rw [Correct, present]; rfl,
      erased_holds lawful held keeps soundness same perm, deletes_update slots pos⟩

theorem erase_found_stays (key : Key) (used : h.settings.useDeleted = true) :
    Stays hash equal blank emptykey h spec m slots (.eraseFound key) := by
  rcases find_eq held.sound lawful key with ⟨found, absent⟩ | ⟨pos, entry, found,
    inside, slot, same⟩
  · refine ⟨h, .done, slots, ?_, rfl, ?_, deletes_refl slots⟩
    · rw [perform, found]
      simp only [Option.bind_eq_bind, Option.bind_some, eraseAt, if_true, Option.map_some]
    · rw [meaning, forget_missing lawful.equivalence held.lists (holds_missing held absent)]
      exact held
  · rcases erase_at_eq held.sound lawful blank inside slot used with ⟨after, erased, keeps,
      soundness, perm⟩
    have performed : perform equal hash blank h (.eraseFound key) = some (after, .done) := by
      rw [perform, found]
      simp only [Option.bind_eq_bind, Option.bind_some, erased, Option.map_some]
    exact ⟨after, .done, _, performed, rfl, erased_holds lawful held keeps soundness same perm,
      deletes_update slots pos⟩

theorem erase_if_stays (drop : T → Bool) (used : h.settings.useDeleted = true) :
    Stays hash equal blank emptykey h spec m slots (.eraseIf drop) := by
  rcases erase_if_eq held.sound lawful blank drop used with
    ⟨after, others, erased, keeps, soundness, perm, deletes⟩
  refine ⟨after, .visited (entries (2 ^ (m + 2)) slots), others, by rw [perform, erased]; rfl,
    ⟨_, held.lists, rfl⟩, ?_, deletes⟩
  exact holds_same held (keeps_same_keys keeps) soundness
    (lists_perm lawful.equivalence (lists_filter held.lists fun data => !drop data) perm.symm)

theorem erase_all_stays (used : h.settings.useDeleted = true) :
    Stays hash equal blank emptykey h spec m slots .eraseAll := by
  rcases erase_all_eq held.sound lawful blank used with
    ⟨after, others, erased, keeps, soundness, nothing, deletes⟩
  refine ⟨after, .done, others, by rw [perform, erased]; rfl, rfl, ?_, deletes⟩
  apply holds_same held (keeps_same_keys keeps) soundness
  rw [nothing]
  exact lists_empty

theorem clear_goes : Goes hash equal blank emptykey h spec .clear := by
  rcases clear_eq held.sound lawful with ⟨after, k, others, cleared, soundness, keys, nothing⟩
  refine goes_iff.mpr ⟨after, .done, k, others, by rw [perform, cleared]; rfl, rfl, ?_⟩
  apply holds_same held keys soundness
  rw [nothing]
  exact lists_empty

theorem clear_no_resize_goes : Goes hash equal blank emptykey h spec .clearNoResize := by
  rcases clear_no_resize_eq held.sound lawful with ⟨after, others, cleared, soundness,
    keys, nothing⟩
  refine goes_iff.mpr ⟨after, .done, m, others, by rw [perform, cleared]; rfl, rfl, ?_⟩
  apply holds_same held keys soundness
  rw [nothing]
  exact lists_empty

theorem resize_goes (hint : Nat) (small : m ≤ 60) (modest : hint < 2 ^ 62) :
    Goes hash equal blank emptykey h spec (.resize hint) := by
  rcases resize_eq held.sound lawful small modest with ⟨after, k, others, resized, done, -⟩
  exact goes_iff.mpr ⟨after, .done, k, others, by rw [perform, resized]; rfl, rfl,
    holds_same held done.keys done.sound (lists_perm lawful.equivalence held.lists done.perm)⟩

theorem set_deleted_key_goes (key : Key) (apart : ¬ SameKey equal emptykey key)
    (missing : spec.content key = none) :
    Goes hash equal blank emptykey h spec (.setDeletedKey key) := by
  have absent := (none_iff held.lists).mp missing
  rw [← held.emptykey] at apart
  rcases set_deleted_key_eq held.sound lawful apart absent with
    ⟨after, k, others, set, soundness, perm, emptyval, delkey⟩
  exact goes_iff.mpr ⟨after, .done, k, others, by rw [perform, set]; rfl, rfl,
    soundness, by rw [emptyval, held.emptykey], delkey,
    lists_perm lawful.equivalence held.lists perm⟩

theorem clear_deleted_key_goes :
    Goes hash equal blank emptykey h spec .clearDeletedKey := by
  rcases clear_deleted_key_eq held.sound lawful with ⟨after, k, others, set, soundness, perm,
    emptyval, delkey⟩
  exact goes_iff.mpr ⟨after, .done, k, others, by rw [perform, set]; rfl, rfl,
    soundness, by rw [emptyval, held.emptykey], delkey,
    lists_perm lawful.equivalence held.lists perm⟩

theorem perform_stays {call : Call Key T} (allowed : Allowed equal emptykey spec call)
    (erases : call.erases = true) :
    Stays hash equal blank emptykey h spec m slots call := by
  cases call with
  | find key => exact find_stays blank lawful held key
  | count key => exact count_stays blank lawful held key
  | erase key =>
      exact erase_stays blank lawful held key ((holds_storable held).mpr allowed.1)
        (holds_used held allowed.2)
  | eraseFound key => exact erase_found_stays blank lawful held key (holds_used held allowed)
  | eraseIf drop => exact erase_if_stays blank lawful held drop (holds_used held allowed)
  | eraseAll => exact erase_all_stays blank lawful held (holds_used held allowed)
  | items =>
      exact ⟨h, _, slots, by rw [perform, walk_eq held.sound]; rfl, ⟨_, held.lists, rfl⟩, held,
        deletes_refl slots⟩
  | size =>
      exact ⟨h, _, slots, rfl, ⟨_, held.lists, by rw [size_eq held.sound]⟩, held,
        deletes_refl slots⟩
  | insert | index | assign | clear | clearNoResize | resize | setDeletedKey | clearDeletedKey =>
      cases erases

theorem perform_goes (call : Call Key T) (allowed : Allowed equal emptykey spec call)
    (small : m ≤ 58) :
    Goes hash equal blank emptykey h spec call := by
  by_cases erases : call.erases = true
  · exact goes_of_stays (perform_stays blank lawful held allowed erases)
  cases call with
  | insert obj => exact insert_goes blank lawful held obj small ((holds_storable held).mpr allowed)
  | index key => exact index_goes blank lawful held key small ((holds_storable held).mpr allowed)
  | assign key data =>
      exact assign_goes blank lawful held key data small ((holds_storable held).mpr allowed)
  | find | count | erase | eraseFound | eraseIf | eraseAll | items | size => exact absurd rfl erases
  | clear => exact clear_goes blank lawful held
  | clearNoResize => exact clear_no_resize_goes blank lawful held
  | resize hint => exact resize_goes blank lawful held hint (by omega) allowed
  | setDeletedKey key =>
      exact set_deleted_key_goes blank lawful held key allowed.1 allowed.2
  | clearDeletedKey => exact clear_deleted_key_goes blank lawful held

end Steps

/-! ## Every run -/

section Runs

variable {hash : Key → BitVec 64} {equal : Key → Key → Bool} {emptykey : Key}
  {h : DenseHashtable Key T} {spec : Spec Key T} {m : Nat} {slots : Nat → Slot (Key × T)}

theorem few_buckets {m : Nat} (few : 2 ^ (m + 2) ≤ 2 ^ 60) : m ≤ 58 := by
  have exponents : m + 2 ≤ 60 := (Nat.pow_le_pow_iff_right (by omega)).mp few
  omega

theorem holds_agrees (held : Holds hash equal emptykey h spec m slots) : Agrees equal h spec :=
  ⟨_, walk_eq held.sound, held.lists, size_eq held.sound⟩

theorem calls_behave (lawful : Lawful hash equal) (blank : T)
    (held : Holds hash equal emptykey h spec m slots) (calls : List (Call Key T)) :
    (interface equal blank hash).BehavesAs (Heeds equal emptykey) (Agrees equal) h spec calls := by
  have start : TableHolds hash equal emptykey h spec (m, slots) := held
  refine Interface.run_behaves ?_ ?_ start calls
  · intro h spec shape held
    exact holds_agrees held
  · intro h spec shape call held heeds
    have few := heeds.2
    rw [held.sound.buckets] at few
    exact perform_goes blank lawful held call heeds.1 (few_buckets few)

theorem start_holds (lawful : Lawful hash equal) (null emptyval : Key × T) {items : Nat}
    (modest : items < 2 ^ 62) :
    ∃ first m slots, start equal null emptyval items = some first ∧
      Holds hash equal emptyval.1 first (⟨fun _ => none, none⟩ : Spec Key T) m slots := by
  rcases construct_eq null modest with ⟨h, made, m, unset⟩
  rcases set_empty_key_eq lawful unset emptyval with ⟨first, set, sound, empty, delkey⟩
  refine ⟨first, m, _, ?_, sound, by rw [empty], delkey, ?_⟩
  · rw [start, made]
    exact set
  · rw [entries_nil fun _ _ => rfl]
    exact lists_empty

/-- Every run of calls on a new map goes as on a finite map. -/
theorem dense_run_refines (lawful : Lawful hash equal) (blank : T) (null emptyval : Key × T)
    {items : Nat} (modest : items < 2 ^ 62) (calls : List (Call Key T)) :
    ∃ first, start equal null emptyval items = some first ∧
      (interface equal blank hash).BehavesAs (Heeds equal emptyval.1) (Agrees equal) first
        ⟨fun _ => none, none⟩
        calls := by
  rcases start_holds lawful null emptyval modest with ⟨first, m, slots, made, held⟩
  exact ⟨first, made, calls_behave lawful blank held calls⟩

/-- A small run with keys that collide, one of them erased while the loop stands at it. -/
theorem dense_run_refines_colliding :
    ∃ first, start (fun left right : Nat => left == right) (0, 0) (1000, 0) 0 = some first ∧
      (interface (fun left right => left == right) 0 fun key => BitVec.ofNat 64 (key % 3)).BehavesAs
        (Heeds (fun left right => left == right) 1000) (Agrees fun left right =>
          left == right) first
        ⟨fun _ => none, none⟩ [.setDeletedKey 1001, .assign 4 40, .index 7, .insert (4, 50),
          .eraseIf (· = 40),
          .find 4, .resize 100, .erase 7, .resize 0, .size] :=
  dense_run_refines (lawful_eq _) 0 (0, 0) (1000, 0) (by decide) _

example : (start (fun left right : Nat => left == right) (0, 0) (1000, 0) 0).bind (fun h =>
    (perform (fun left right => left == right) (fun key => BitVec.ofNat 64 (key % 3)) 0 h
      (.assign 4 40)).bind
      fun (h, _) => (perform (fun left right => left == right)
        (fun key => BitVec.ofNat 64 (key % 3)) 0 h
        (.insert (4, 50))).map Prod.snd) = some (.inserted false 40) := by decide +kernel

/-- The tables that calls come to, with what the caller knows of them. -/
inductive Reached (hash : Key → BitVec 64) (equal : Key → Key → Bool) (blank : T)
    (null emptyval : Key × T) :
    DenseHashtable Key T → Spec Key T → Prop where
  | start {first : DenseHashtable Key T} {items : Nat} (modest : items < 2 ^ 62)
      (made : start equal null emptyval items = some first) :
      Reached hash equal blank null emptyval first ⟨fun _ => none, none⟩
  | call {h after : DenseHashtable Key T} {spec : Spec Key T} {call : Call Key T}
      {reply : Reply Key T}
      (before : Reached hash equal blank null emptyval h spec)
      (allowed : Allowed equal emptyval.1 spec call)
      (few : h.numBuckets ≤ 2 ^ 60) (performed : perform equal hash blank h call =
        some (after, reply)) :
      Reached hash equal blank null emptyval after (meaning equal blank spec call)

variable {blank : T} {null emptyval : Key × T}

theorem reached_holds (lawful : Lawful hash equal)
    (reached : Reached hash equal blank null emptyval h spec) :
    ∃ m slots, Holds hash equal emptyval.1 h spec m slots := by
  induction reached with
  | @start first items modest made =>
      rcases start_holds lawful null emptyval modest with ⟨same, m, slots, again, held⟩
      rw [made] at again
      cases again
      exact ⟨m, slots, held⟩
  | @call h after spec call reply before allowed few performed ih =>
      rcases ih with ⟨m, slots, held⟩
      rw [held.sound.buckets] at few
      rcases goes_iff.mp (perform_goes blank lawful held call allowed (few_buckets few)) with
        ⟨same, answer, k, others, again, -, holds⟩
      rw [performed] at again
      cases again
      exact ⟨k, others, holds⟩

/-- The buckets of a table: their number is a power of two, at most half of them are not empty, and
a probe from any key comes to a bucket. A call of `resize(0)` leaves no more than six buckets for
each value, or 32. -/
structure Shaped (hash : Key → BitVec 64) (equal : Key → Key → Bool) (h : DenseHashtable Key T) :
    Prop where
  power : ∃ k, h.numBuckets = 2 ^ (k + 2)
  half : 2 * h.numElements ≤ h.numBuckets
  counts : h.numDeleted ≤ h.numElements
  probes : ∀ key, ∃ pos, h.bucket equal hash key = some pos ∧ pos < h.numBuckets
  shrinks : h.numBuckets ≤ 2 ^ 62 → ∃ after, h.resize equal hash 0 = some after ∧
    after.size = h.size ∧
    Dense after.numBuckets after.size

theorem sound_shaped (lawful : Lawful hash equal) (sound : Sound hash equal m h slots) :
    Shaped hash equal h where
  power := ⟨m, sound.buckets⟩
  half := by
    have below := sound.below
    rw [sound.buckets, Nat.pow_succ]
    omega
  counts := by
    have counted := sound.deleted
    omega
  probes key := by
    rw [DenseHashtable.bucket, sound.buckets]
    rcases find_position_eq sound lawful key with ⟨pos, found, vacant, -⟩ | ⟨pos, entry,
      found, inside, -⟩
    · exact ⟨pos, by rw [found]; rfl, vacant_lt vacant⟩
    · exact ⟨pos, by rw [found]; rfl, inside⟩
  shrinks few := by
    have small : m ≤ 60 := by
      rw [sound.buckets] at few
      have exponents : m + 2 ≤ 62 := (Nat.pow_le_pow_iff_right (by omega)).mp few
      omega
    rcases resize_eq sound lawful small (show 0 < 2 ^ 62 by omega) with ⟨after, k, others, resized,
      done, -, dense⟩
    have size : after.size = (entries (2 ^ (m + 2)) slots).length := by
      rw [size_eq done.sound, done.perm.length_eq]
    refine ⟨after, resized, size.trans (size_eq sound).symm, ?_⟩
    rw [done.sound.buckets, size]
    exact dense rfl

/-- The number of elements is the number of buckets that are not empty. -/
theorem reached_num_elements (lawful : Lawful hash equal)
    (reached : Reached hash equal blank null emptyval h spec) :
    h.numElements = (List.range h.numBuckets).countP fun pos =>
    h.testEmpty equal pos == some false := by
  rcases reached_holds lawful reached with ⟨m, slots, sound, -⟩
  rw [sound.elements, sound.buckets, occupied]
  apply List.countP_congr
  intro pos member
  rw [sound_test_empty sound (List.mem_range.mp member)]
  cases slots pos <;> simp [Slot.occupied]

/-- Whatever was called, the table is at most half full and its loops end. -/
theorem dense_reached_shaped (lawful : Lawful hash equal)
    (reached : Reached hash equal blank null emptyval h spec) : Shaped hash equal h := by
  rcases reached_holds lawful reached with ⟨m, slots, held⟩
  exact sound_shaped lawful held.sound

/-- The keys 4 and 7 have one hash. -/
theorem dense_reached_shaped_collisions :
    ∃ first one two : DenseHashtable Nat Nat,
      start (fun left right => left == right) (0, 0) (1000, 0) 0 = some first ∧
      perform (fun left right => left == right) (fun key => BitVec.ofNat 64 (key % 3)) 0 first
        (.assign 4 40) =
        some (one, .done) ∧
      perform (fun left right => left == right) (fun key => BitVec.ofNat 64 (key % 3)) 0 one
        (.assign 7 70) =
        some (two, .done) ∧
      Shaped (fun key => BitVec.ofNat 64 (key % 3)) (fun left right => left == right) two := by
  have lawful : Lawful (fun key : Nat => BitVec.ofNat 64 (key % 3)) (fun left right =>
    left == right) := lawful_eq _
  have buckets : ∀ first ∈ start (fun left right : Nat => left == right) (0, 0) (1000, 0) 0,
      first.numBuckets ≤ 2 ^ 60 ∧
      ∀ one ∈ perform (fun left right => left == right) (fun key => BitVec.ofNat 64 (key % 3)) 0
        first (.assign 4 40),
        one.1.numBuckets ≤ 2 ^ 60 := by decide +kernel
  have storable : ∀ (spec : Spec Nat Nat) (key data : Nat), spec.delkey = none → key ≠ 1000 →
      Allowed (fun left right => left == right) 1000 spec (.assign key data) := by
    intro spec key data unset apart
    refine ⟨fun same => apart (beq_iff_eq.mp same).symm, fun delkey set => ?_⟩
    rw [unset] at set
    cases set
  rcases start_holds lawful (0, 0) (1000, 0) (show 0 < 2 ^ 62 by decide) with ⟨first, m,
    slots, made, held⟩
  rcases buckets first made with ⟨few, buckets⟩
  rcases calls_behave lawful 0 held [.assign 4 40, .assign 7 70] with ⟨-, run⟩
  rcases run ⟨storable _ 4 40 rfl (by decide), few⟩ with ⟨one, _, stored, rfl, -, run⟩
  have fewAgain := buckets _ stored
  rcases run ⟨storable _ 7 70 rfl (by decide), fewAgain⟩ with ⟨two, _, again, rfl, -⟩
  have reached : Reached (fun key => BitVec.ofNat 64 (key % 3)) (fun left right => left == right) 0
      (0, 0) (1000, 0)
      first ⟨fun _ => none, none⟩ := .start (show 0 < 2 ^ 62 by decide) made
  have reachedOne := Reached.call reached (storable _ 4 40 rfl (by decide)) few stored
  exact ⟨first, one, two, made, stored, again,
    dense_reached_shaped lawful (.call reachedOne (storable _ 7 70 rfl (by decide)) fewAgain again)⟩

end Runs

end TWlib.DenseTableRuns
