import TWlib.KHashWalk

/-!
# `TW_KHash_32` is a finite map

`meaning` says what the operations do to the content of a finite map and
`Correct` what they answer. An operation whose arguments are values goes as the
finite map does, as long as it is called with less than `2 ^ 31` buckets.
-/

namespace TWlib.KHashRefinement

open TWlib.Lib.CellStore TWlib.Lib.FiniteMap TWlib.KHashTable TWlib.KHashSearch TWlib.KHashPairs
  TWlib.KHashMap TWlib.KHashWalk

set_option autoImplicit false

variable {Key Data : Type}

inductive Op (Key Data : Type) where
  | addReplace (key : Key) (dat : Data)
  | addReplaceOld (key : Key) (dat : Data)
  | addReplaceNew (key : Key)
  | addNoreplace (key : Key) (dat : Data)
  | addNoreplaceNew (key : Key)
  | findOrNew (key : Key)
  | findFill (key : Key)
  | find (key : Key)
  | remove (key : Key)
  | removeFill (key : Key)
  | removeAll
  | size

/-- The key for which an adding operation calls `kh_put_A` if the map does not have it. -/
def adds : Op Key Data → Option Key
  | .addReplace key _ | .addReplaceOld key _ | .addReplaceNew key | .addNoreplace key _
      | .addNoreplaceNew key
  | .findOrNew key => some key
  | _ => none

def perform (hash : Key → BitVec 32) (equal : Key → Key → Bool) (blank : Data)
    (map : KHash32 Key Data) :
    Op Key Data → Option (KHash32 Key Data × Answer Data)
  | .addReplace key dat => addReplaceByValue equal hash map key dat
  | .addReplaceOld key dat => addReplaceOldByValue equal hash map key dat
  | .addReplaceNew key => addReplaceNew equal hash blank map key
  | .addNoreplace key dat => addNoreplaceByValue equal hash map key dat
  | .addNoreplaceNew key => addNoreplaceNew equal hash blank map key
  | .findOrNew key => findOrNew equal hash blank map key
  | .findFill key => findFillByValue equal hash blank map key
  | .find key => find equal hash map key
  | .remove key => remove equal hash map key
  | .removeFill key => removeFillByValue equal hash blank map key
  | .removeAll => removeAll map
  | .size => some (size map)

/-! ## The meaning -/

def assignNew (equal : Key → Key → Bool) (content : Content Key Data) (key : Key) (dat : Data) :
    Content Key Data :=
  if (content key).isSome then content else assign equal content key dat

def meaning (equal : Key → Key → Bool) (blank : Data) (content : Content Key Data) :
    Op Key Data → Content Key Data
  | .addReplace key dat | .addReplaceOld key dat => assign equal content key dat
  | .addReplaceNew key => assign equal content key blank
  | .addNoreplace key dat => assignNew equal content key dat
  | .addNoreplaceNew key | .findOrNew key => assignNew equal content key blank
  | .remove key | .removeFill key => forget equal content key
  | .removeAll => fun _ => none
  | .findFill _ | .find _ | .size => content

/-- `cell` is the value that the map has for the key. -/
def PointsTo (hash : Key → BitVec 32) (equal : Key → Key → Bool)
    (map : KHash32 Key Data) (key : Key) (cell : Nat) (value : Data) : Prop :=
  find equal hash map key = some (map, .pointer (some cell)) ∧ map.heap.read cell = some value

/-- What an operation answers, with `content` the content before it. -/
def Correct (hash : Key → BitVec 32) (equal : Key → Key → Bool) (blank : Data)
    (content : Content Key Data) (before after : KHash32 Key Data) (answer : Answer Data) :
    Op Key Data → Prop
  | .addReplace _ _ => answer = .done true none
  | .addReplaceOld key _ => answer = .done true (content key)
  | .addReplaceNew key =>
      ∃ cell, answer = .pointer (some cell) ∧ PointsTo hash equal after key cell blank
  | .addNoreplace key _ =>
      answer = .done (content key).isNone none ∧ ((content key).isSome → after = before)
  | .addNoreplaceNew key =>
      match content key with
      | none => ∃ cell, answer = .pointer (some cell) ∧ PointsTo hash equal after key cell blank
      | some _ => answer = .pointer none ∧ after = before
  | .findOrNew key =>
      ∃ cell, answer = .pointer (some cell) ∧ PointsTo hash equal after key cell
        ((content key).getD blank)
  | .findFill key => answer = .done (content key).isSome (content key) ∧ after = before
  | .find key =>
      match content key with
      | none => answer = .pointer none ∧ after = before
      | some value =>
          ∃ cell, answer = .pointer (some cell) ∧ PointsTo hash equal after key cell value ∧
            after = before
  | .remove key => answer = .done (content key).isSome none
  | .removeFill key => answer = .done (content key).isSome (content key)
  | .removeAll => answer = .done true none
  | .size => (∃ items, Lists equal content items ∧ answer = .count items.length) ∧ after = before

/-- A walk with an iterator visits each key of the content once, with its value. -/
def Agrees (equal : Key → Key → Bool) (map : KHash32 Key Data) (content : Content Key Data) :
    Prop :=
  ∃ visited items, walk map = some visited ∧
    visited.map (fun pair => (pair.1, map.heap.read pair.2)) =
    items.map (fun item => (item.1, some item.2)) ∧
    Lists equal content items ∧ map.khashmap.size = items.length

def interface (hash : Key → BitVec 32) (equal : Key → Key → Bool) (blank : Data) :
    Interface (KHash32 Key Data) (Content Key Data) (Op Key Data) (Answer Data) where
  perform := perform hash equal blank
  meaning := meaning equal blank
  Correct := Correct hash equal blank

/-! ## The items of a map -/

structure Item (Key Data : Type) where
  key : Key
  cell : Nat
  value : Data

def Item.pair (item : Item Key Data) : Key × Nat := (item.key, item.cell)

def Item.entry (item : Item Key Data) : Key × Data := (item.key, item.value)

/-- The table and the heap hold the items and nothing else. -/
structure Holds (hash : Key → BitVec 32) (equal : Key → Key → Bool) (map : KHash32 Key Data)
    (content : Content Key Data) (items : List (Item Key Data)) : Prop where
  table : Represents hash equal map.khashmap (items.map Item.pair)
  apart : (items.map Item.cell).Nodup
  stored : ∀ item ∈ items, map.heap.read item.cell = some item.value
  only : ∀ cell, (map.heap.read cell).isSome → cell ∈ items.map Item.cell
  lists : Lists equal content (items.map Item.entry)

variable {hash : Key → BitVec 32} {equal : Key → Key → Bool} {blank : Data} {map : KHash32 Key Data}
  {content : Content Key Data} {items rest : List (Item Key Data)}
  {item : Item Key Data} {key : Key}

theorem holds_perm (lawful : Lawful hash equal) (held : Holds hash equal map content items)
    {others : List (Item Key Data)} (perm : items.Perm others) :
    Holds hash equal map content others where
  table := represents_perm held.table (perm.map _)
  apart := (perm.map Item.cell).nodup_iff.mp held.apart
  stored := fun item member => held.stored item (perm.mem_iff.mpr member)
  only := fun cell present => (perm.map Item.cell).mem_iff.mp (held.only cell present)
  lists := lists_perm lawful.equivalence held.lists (perm.map _)

theorem search_cases (lawful : Lawful hash equal) (held : Holds hash equal map content items)
    (key : Key) :
    (khGet equal hash map.khashmap key = some map.khashmap.nBuckets ∧ content key = none) ∨
    ∃ x item rest, khGet equal hash map.khashmap key = some x ∧ items.Perm (item :: rest) ∧
      SameKey equal item.key key ∧ Bucket hash equal map.khashmap x item.pair (rest.map Item.pair) ∧
      content key = some item.value := by
  rcases kh_get_cases held.table lawful key with ⟨missed, absent⟩ | ⟨x, pair, others, found, equals,
    perm, bucket⟩
  · left
    refine ⟨missed, (none_iff held.lists).mpr fun entry member => ?_⟩
    rcases List.mem_map.mp member with ⟨item, here, same⟩
    exact same ▸ absent item.pair (List.mem_map_of_mem here)
  · right
    have member : pair ∈ items.map Item.pair := perm.mem_iff.mpr List.mem_cons_self
    rcases List.mem_map.mp member with ⟨item, here, same⟩
    rcases List.append_of_mem here with ⟨left, right, split⟩
    have turned : items.Perm (item :: (left ++ right)) := by
      rw [split]
      exact List.perm_middle
    have sameRest : others.Perm ((left ++ right).map Item.pair) := by
      have both := perm.symm.trans (turned.map Item.pair)
      rw [List.map_cons, same] at both
      exact both.cons_inv
    refine ⟨x, item, left ++ right, found, turned, ?_, ?_, ?_⟩
    · rw [← same] at equals
      exact equals
    · rw [same]
      exact {
        inside := bucket.inside
        value := bucket.value
        delete := by
          rcases bucket.delete with ⟨after, deleted, remains⟩
          exact ⟨after, deleted, represents_perm remains sameRest⟩
        overwrite := by
          intro val
          rcases bucket.overwrite val with ⟨vals, valSet, remains⟩
          exact ⟨vals, valSet, represents_perm remains (sameRest.cons _)⟩ }
    · have lists := lists_perm lawful.equivalence held.lists (turned.map Item.entry)
      rw [← same] at equals
      exact lists_head lists equals

theorem cell_unread (held : Holds hash equal map content (item :: rest)) :
    ∀ other ∈ rest, other.cell ≠ item.cell := by
  intro other member same
  have apart := (List.nodup_cons.mp held.apart).1
  exact apart (same ▸ List.mem_map_of_mem member)

theorem delete_value_eq (held : Holds hash equal map content (item :: rest)) :
    deleteValue map.heap item.cell = some (map.heap.giveUp item.cell) := by
  rw [deleteValue, held.stored item List.mem_cons_self, Option.map_some]

theorem replace_value_eq (lawful : Lawful hash equal)
    (held : Holds hash equal map content (item :: rest)) {x : Nat}
    (bucket : Bucket hash equal map.khashmap x item.pair (rest.map Item.pair))
    (equals : SameKey equal item.key key) (dat : Data) :
    ∃ after, replaceValue map x dat = some after ∧
      Holds hash equal after (assign equal content key dat) (⟨item.key, map.heap.fresh,
        dat⟩ :: rest) ∧
      cellAt after.khashmap.vals x = some map.heap.fresh := by
  rcases bucket.overwrite map.heap.fresh with ⟨vals, valSet, table⟩
  have fresh : (map.heap.giveUp item.cell).fresh = map.heap.fresh := fresh_give_up _ _
  have below : ∀ other ∈ item :: rest, other.cell ≠ map.heap.fresh := by
    intro other member
    have bound := read_bound (held.stored other member)
    omega
  refine ⟨⟨{ map.khashmap with vals }, (map.heap.giveUp item.cell).push dat⟩, ?_, ?_, ?_⟩
  · have value : cellAt map.khashmap.vals x = some item.cell := bucket.value
    simp only [replaceValue, value, delete_value_eq held, newValue, fresh, valSet,
      Option.bind_eq_bind,
      Option.bind_some]
  · exact {
      table := table
      apart := by
        refine List.nodup_cons.mpr ⟨fun member => ?_, (List.nodup_cons.mp held.apart).2⟩
        rcases List.mem_map.mp member with ⟨other, here, same⟩
        exact below other (List.mem_cons_of_mem _ here) same
      stored := by
        intro other member
        rcases List.mem_cons.mp member with first | later
        · rw [first, read_push, if_pos fresh.symm]
        · have new := below other (List.mem_cons_of_mem _ later)
          rw [read_push, fresh, if_neg new, read_give_up, if_neg (cell_unread held other later)]
          exact held.stored other (List.mem_cons_of_mem _ later)
      only := by
        intro cell present
        rw [read_push, fresh, read_give_up] at present
        by_cases new : cell = map.heap.fresh
        · rw [new]
          exact List.mem_cons_self
        · rw [if_neg new] at present
          by_cases old : cell = item.cell
          · rw [if_pos old] at present
            cases present
          · rw [if_neg old] at present
            rcases List.mem_cons.mp (held.only cell present) with first | later
            · exact absurd first old
            · exact List.mem_cons_of_mem _ later
      lists := lists_assign_known lawful.equivalence held.lists equals dat }
  · rw [(cell_at_set valSet).2, if_pos rfl]

theorem put_value_eq (lawful : Lawful hash equal) (held : Holds hash equal map content items)
    (bounded : CanGrow map.khashmap) (missing : content key = none) (dat : Data) :
    ∃ after x, putValue equal hash map key dat = some (after, x) ∧
      Holds hash equal after (assign equal content key dat) (⟨key, map.heap.fresh, dat⟩ :: items) ∧
      cellAt after.khashmap.vals x = some map.heap.fresh := by
  have absent : ∀ pair ∈ items.map Item.pair, ¬ SameKey equal pair.1 key := by
    intro pair member
    rcases List.mem_map.mp member with ⟨item, here, same⟩
    exact same ▸ (none_iff held.lists).mp missing item.entry (List.mem_map_of_mem here)
  rcases kh_put_eq held.table lawful bounded absent with ⟨khashmap, x, ret, put, set⟩
  rcases set map.heap.fresh with ⟨vals, valSet, table⟩
  refine ⟨⟨{ khashmap with vals }, map.heap.push dat⟩, x, ?_, ?_, ?_⟩
  · simp only [putValue, put, newValue, valSet, Option.bind_eq_bind, Option.bind_some]
  · exact {
      table := table
      apart := by
        refine List.nodup_cons.mpr ⟨fun member => ?_, held.apart⟩
        rcases List.mem_map.mp member with ⟨other, here, same⟩
        have bound := read_bound (held.stored other here)
        have clash : other.cell = map.heap.fresh := same
        omega
      stored := by
        intro other member
        rcases List.mem_cons.mp member with first | later
        · rw [first, read_push, if_pos rfl]
        · exact read_push_of_present (held.stored other later) dat
      only := by
        intro cell present
        rw [read_push] at present
        by_cases new : cell = map.heap.fresh
        · rw [new]
          exact List.mem_cons_self
        · rw [if_neg new] at present
          exact List.mem_cons_of_mem _ (held.only cell present)
      lists := lists_assign_new lawful.equivalence held.lists missing dat }
  · rw [(cell_at_set valSet).2, if_pos rfl]

theorem delete_item_eq (lawful : Lawful hash equal)
    (held : Holds hash equal map content (item :: rest)) {x : Nat}
    (bucket : Bucket hash equal map.khashmap x item.pair (rest.map Item.pair))
    (equals : SameKey equal item.key key) :
    ∃ khashmap, khDel map.khashmap x = some khashmap ∧
      Holds hash equal ⟨khashmap, map.heap.giveUp item.cell⟩ (forget equal content key) rest := by
  rcases bucket.delete with ⟨khashmap, deleted, table⟩
  refine ⟨khashmap, deleted, ?_⟩
  exact {
    table := table
    apart := (List.nodup_cons.mp held.apart).2
    stored := by
      intro other member
      rw [read_give_up, if_neg (cell_unread held other member)]
      exact held.stored other (List.mem_cons_of_mem _ member)
    only := by
      intro cell present
      rw [read_give_up] at present
      by_cases old : cell = item.cell
      · rw [if_pos old] at present
        cases present
      · rw [if_neg old] at present
        rcases List.mem_cons.mp (held.only cell present) with first | later
        · exact absurd first old
        · exact later
    lists := lists_forget lawful.equivalence held.lists equals }

theorem points_to_item (lawful : Lawful hash equal)
    (held : Holds hash equal map content (item :: rest)) (equals : SameKey equal item.key key) :
    PointsTo hash equal map key item.cell item.value := by
  refine ⟨?_, held.stored item List.mem_cons_self⟩
  have present : content key = some item.value := lists_head held.lists equals
  rcases search_cases lawful held key with ⟨_, missing⟩ | ⟨x, other, others, found, perm,
    same, bucket, _⟩
  · rw [present] at missing
    cases missing
  · have sameItem : other = item := by
      rcases List.mem_cons.mp (perm.mem_iff.mpr List.mem_cons_self) with first | later
      · exact first
      · have apart := rest_apart lawful.equivalence held.lists equals other.entry
          (List.mem_map_of_mem later)
        exact absurd same apart
    have value : cellAt map.khashmap.vals x = some item.cell := sameItem ▸ bucket.value
    simp only [find, found, value, bucket.inside, ne_eq, not_false_eq_true, if_true,
      Option.bind_eq_bind,
      Option.bind_some]

/-! ## One operation -/

theorem assign_new_missing (missing : content key = none) (dat : Data) :
    assignNew equal content key dat = assign equal content key dat := by
  rw [assignNew, missing]
  rfl

theorem assign_new_present {value : Data} (present : content key = some value) (dat : Data) :
    assignNew equal content key dat = content := by
  rw [assignNew, present]
  rfl

/-- The operation has a result, answers correctly and leaves a map with the content it should
have. -/
def Goes (hash : Key → BitVec 32) (equal : Key → Key → Bool) (blank : Data) (map : KHash32 Key Data)
    (content : Content Key Data) (op : Op Key Data) : Prop :=
  (interface hash equal blank).Goes (Holds hash equal) map content op

section Steps

variable (lawful : Lawful hash equal) (held : Holds hash equal map content items) (blank : Data)

include lawful held

theorem find_fill_goes (key : Key) : Goes hash equal blank map content (.findFill key) := by
  rcases search_cases lawful held key with
    ⟨missed, missing⟩ | ⟨x, item, rest, found, perm, equals, bucket, present⟩
  · refine ⟨map, .done false none, items, ?_, ?_, held⟩
    · simp only [interface, perform, find_fill_by_value_eq, missed, ne_eq, not_true_eq_false,
        if_false, Option.bind_some]
    · simp [interface, Correct, missing]
  · have turned := holds_perm lawful held perm
    have value : cellAt map.khashmap.vals x = some item.cell := bucket.value
    refine ⟨map, .done true (some item.value), items, ?_, ?_, held⟩
    · simp only [interface, perform, find_fill_by_value_eq, found, bucket.inside, value,
        turned.stored item List.mem_cons_self,
        ne_eq, not_false_eq_true, if_true, Option.bind_some]
    · simp [interface, Correct, present]

theorem find_goes (key : Key) : Goes hash equal blank map content (.find key) := by
  rcases search_cases lawful held key with
    ⟨missed, missing⟩ | ⟨x, item, rest, found, perm, equals, bucket, present⟩
  · refine ⟨map, .pointer none, items, ?_, ?_, held⟩
    · simp only [interface, perform, find, missed, ne_eq, not_true_eq_false, if_false,
        Option.bind_eq_bind,
        Option.bind_some]
    · simp [interface, Correct, missing]
  · have points := points_to_item lawful (holds_perm lawful held perm) equals
    refine ⟨map, .pointer (some item.cell), items, points.1, ?_, held⟩
    simp only [interface, Correct, present]
    exact ⟨_, rfl, points, trivial⟩

theorem remove_goes (key : Key) : Goes hash equal blank map content (.remove key) := by
  rcases search_cases lawful held key with
    ⟨missed, missing⟩ | ⟨x, item, rest, found, perm, equals, bucket, present⟩
  · refine ⟨map, .done false none, items, ?_, ?_, ?_⟩
    · simp only [interface, perform, remove, missed, ne_eq, not_true_eq_false, if_false,
        Option.bind_eq_bind,
        Option.bind_some]
    · simp [interface, Correct, missing]
    · change Holds hash equal map (forget equal content key) items
      rw [forget_missing lawful.equivalence held.lists missing]
      exact held
  · have turned := holds_perm lawful held perm
    have value : cellAt map.khashmap.vals x = some item.cell := bucket.value
    rcases delete_item_eq lawful turned bucket equals with ⟨khashmap, deleted, holds⟩
    refine ⟨_, .done true none, rest, ?_, ?_, holds⟩
    · simp only [interface, perform, remove, found, bucket.inside, value, delete_value_eq turned,
        deleted, ne_eq,
        not_false_eq_true, if_true, Option.bind_eq_bind, Option.bind_some]
    · simp [interface, Correct, present]

theorem remove_fill_goes (key : Key) : Goes hash equal blank map content (.removeFill key) := by
  rcases search_cases lawful held key with
    ⟨missed, missing⟩ | ⟨x, item, rest, found, perm, equals, bucket, present⟩
  · refine ⟨map, .done false none, items, ?_, ?_, ?_⟩
    · simp only [interface, perform, remove_fill_by_value_eq, missed, ne_eq, not_true_eq_false,
        if_false, Option.bind_some]
    · simp [interface, Correct, missing]
    · change Holds hash equal map (forget equal content key) items
      rw [forget_missing lawful.equivalence held.lists missing]
      exact held
  · have turned := holds_perm lawful held perm
    have value : cellAt map.khashmap.vals x = some item.cell := bucket.value
    rcases delete_item_eq lawful turned bucket equals with ⟨khashmap, deleted, holds⟩
    refine ⟨_, .done true (some item.value), rest, ?_, ?_, holds⟩
    · simp only [interface, perform, remove_fill_by_value_eq, found, bucket.inside, value,
        turned.stored item List.mem_cons_self,
        delete_value_eq turned, deleted, ne_eq, not_false_eq_true, if_true, Option.bind_some]
    · simp [interface, Correct, present]

omit lawful in
theorem remove_all_goes : Goes hash equal blank map content .removeAll := by
  have present : ∀ pair ∈ items.map Item.pair, (map.heap.read pair.2).isSome := by
    intro pair member
    rcases List.mem_map.mp member with ⟨item, here, same⟩
    rw [← same]
    exact Option.isSome_iff_exists.mpr ⟨item.value, held.stored item here⟩
  have cells : (items.map Item.pair).map Prod.snd = items.map Item.cell := by
    rw [List.map_map]
    rfl
  rcases remove_all_eq held.table (cells ▸ held.apart) present with ⟨after, removed, table, reads⟩
  refine ⟨after, _, [], removed, rfl, ?_⟩
  exact {
    table := table
    apart := List.nodup_nil
    stored := fun item member => by cases member
    only := by
      intro cell left
      rw [reads cell, cells] at left
      by_cases member : cell ∈ items.map Item.cell
      · rw [if_pos member] at left
        cases left
      · rw [if_neg member] at left
        exact absurd (held.only cell left) member
    lists := lists_empty }

omit lawful in
theorem size_goes : Goes hash equal blank map content .size := by
  refine ⟨map, _, items, rfl, ⟨⟨_, held.lists, ?_⟩, rfl⟩, held⟩
  rw [represents_size held.table, List.length_map, List.length_map]

theorem add_replace_goes (key : Key) (dat : Data)
    (bounded : content key = none → CanGrow map.khashmap) :
    Goes hash equal blank map content (.addReplace key dat) := by
  rcases search_cases lawful held key with
    ⟨missed, missing⟩ | ⟨x, item, rest, found, perm, equals, bucket, present⟩
  · rcases put_value_eq lawful held (bounded missing) missing dat with ⟨after, x, put, holds, value⟩
    refine ⟨after, _, _, ?_, rfl, holds⟩
    simp only [interface, perform, add_replace_by_value_eq, missed, put, ne_eq, not_true_eq_false,
      if_false, Option.bind_some]
  · rcases replace_value_eq lawful (holds_perm lawful held perm) bucket equals dat with
      ⟨after, replaced, holds, value⟩
    refine ⟨after, _, _, ?_, rfl, holds⟩
    simp only [interface, perform, add_replace_by_value_eq, found, bucket.inside, replaced, ne_eq,
      not_false_eq_true, if_true,
      Option.bind_some]

theorem add_replace_old_goes (key : Key) (dat : Data)
    (bounded : content key = none → CanGrow map.khashmap) :
    Goes hash equal blank map content (.addReplaceOld key dat) := by
  rcases search_cases lawful held key with
    ⟨missed, missing⟩ | ⟨x, item, rest, found, perm, equals, bucket, present⟩
  · rcases put_value_eq lawful held (bounded missing) missing dat with ⟨after, x, put, holds, value⟩
    refine ⟨after, .done true none, _, ?_, ?_, holds⟩
    · simp only [interface, perform, add_replace_old_by_value_eq, missed, put, ne_eq,
        not_true_eq_false, if_false,
        Option.bind_some]
    · simp only [interface, Correct, missing]
  · have turned := holds_perm lawful held perm
    rcases replace_value_eq lawful turned bucket equals dat with ⟨after, replaced, holds, value⟩
    refine ⟨after, .done true (some item.value), _, ?_, ?_, holds⟩
    · have old : cellAt map.khashmap.vals x = some item.cell := bucket.value
      simp only [interface, perform, add_replace_old_by_value_eq, found, bucket.inside, old,
        turned.stored item List.mem_cons_self,
        replaced, ne_eq, not_false_eq_true, if_true, Option.bind_some]
    · simp only [interface, Correct, present]

theorem add_replace_new_goes (key : Key) (bounded : content key = none → CanGrow map.khashmap) :
    Goes hash equal blank map content (.addReplaceNew key) := by
  rcases search_cases lawful held key with
    ⟨missed, missing⟩ | ⟨x, item, rest, found, perm, equals, bucket, present⟩
  · rcases put_value_eq lawful held (bounded missing) missing blank with ⟨after, x, put,
      holds, value⟩
    refine ⟨after, _, _, ?_, ⟨_, rfl, points_to_item lawful holds (lawful.equivalence.refl key)⟩,
      holds⟩
    simp only [interface, perform, addReplaceNew, missed, put, value, ne_eq,
      not_true_eq_false, if_false,
      Option.bind_eq_bind, Option.bind_some]
  · rcases replace_value_eq lawful (holds_perm lawful held perm) bucket equals blank with
      ⟨after, replaced, holds, value⟩
    refine ⟨after, _, _, ?_, ⟨_, rfl, points_to_item lawful holds equals⟩, holds⟩
    simp only [interface, perform, addReplaceNew, found, bucket.inside, replaced, value, ne_eq,
      not_false_eq_true,
      if_true, Option.bind_eq_bind, Option.bind_some]

theorem add_noreplace_goes (key : Key) (dat : Data)
    (bounded : content key = none → CanGrow map.khashmap) :
    Goes hash equal blank map content (.addNoreplace key dat) := by
  rcases search_cases lawful held key with
    ⟨missed, missing⟩ | ⟨x, item, rest, found, perm, equals, bucket, present⟩
  · rcases put_value_eq lawful held (bounded missing) missing dat with ⟨after, x, put, holds, value⟩
    rw [← assign_new_missing missing] at holds
    refine ⟨after, .done true none, _, ?_, ?_, holds⟩
    · simp only [interface, perform, add_noreplace_by_value_eq, missed, put, if_true,
        Option.bind_some]
    · simp [interface, Correct, missing]
  · refine ⟨map, .done false none, items, ?_, ?_, ?_⟩
    · simp only [interface, perform, add_noreplace_by_value_eq, found, bucket.inside, if_false,
        Option.bind_some]
    · simp [interface, Correct, present]
    · change Holds hash equal map (assignNew equal content key dat) items
      rw [assign_new_present present]
      exact held

theorem add_noreplace_new_goes (key : Key) (bounded : content key = none → CanGrow map.khashmap) :
    Goes hash equal blank map content (.addNoreplaceNew key) := by
  rcases search_cases lawful held key with
    ⟨missed, missing⟩ | ⟨x, item, rest, found, perm, equals, bucket, present⟩
  · rcases put_value_eq lawful held (bounded missing) missing blank with ⟨after, x, put,
      holds, value⟩
    rw [← assign_new_missing missing] at holds
    refine ⟨after, .pointer (some map.heap.fresh), _, ?_, ?_, holds⟩
    · simp only [interface, perform, addNoreplaceNew, missed, put, value, if_true,
        Option.bind_eq_bind,
        Option.bind_some]
    · simp only [interface, Correct, missing]
      exact ⟨_, rfl, points_to_item lawful holds (lawful.equivalence.refl key)⟩
  · refine ⟨map, .pointer none, items, ?_, ?_, ?_⟩
    · simp only [interface, perform, addNoreplaceNew, found, bucket.inside, if_false,
        Option.bind_eq_bind,
        Option.bind_some]
    · simp [interface, Correct, present]
    · change Holds hash equal map (assignNew equal content key blank) items
      rw [assign_new_present present]
      exact held

theorem find_or_new_goes (key : Key) (bounded : content key = none → CanGrow map.khashmap) :
    Goes hash equal blank map content (.findOrNew key) := by
  rcases search_cases lawful held key with
    ⟨missed, missing⟩ | ⟨x, item, rest, found, perm, equals, bucket, present⟩
  · rcases put_value_eq lawful held (bounded missing) missing blank with ⟨after, x, put,
      holds, value⟩
    rw [← assign_new_missing missing] at holds
    refine ⟨after, .pointer (some map.heap.fresh), _, ?_, ?_, holds⟩
    · simp only [interface, perform, findOrNew, missed, put, value, ne_eq,
        not_true_eq_false, if_false,
        Option.bind_eq_bind, Option.bind_some]
    · simp only [interface, Correct, missing, Option.getD_none]
      exact ⟨_, rfl, points_to_item lawful holds (lawful.equivalence.refl key)⟩
  · have turned := holds_perm lawful held perm
    refine ⟨map, .pointer (some item.cell), item :: rest, ?_, ?_, ?_⟩
    · have value : cellAt map.khashmap.vals x = some item.cell := bucket.value
      simp only [interface, perform, findOrNew, found, bucket.inside, value, ne_eq,
        not_false_eq_true, if_true,
        Option.bind_eq_bind, Option.bind_some]
    · simp only [interface, Correct, present, Option.getD_some]
      exact ⟨_, rfl, points_to_item lawful turned equals⟩
    · change Holds hash equal map (assignNew equal content key blank) (item :: rest)
      rw [assign_new_present present]
      exact turned

theorem perform_goes (op : Op Key Data)
    (bounded : ∀ key, adds op = some key → content key = none → CanGrow map.khashmap) :
    Goes hash equal blank map content op := by
  cases op with
  | addReplace key dat => exact add_replace_goes lawful held blank key dat (bounded key rfl)
  | addReplaceOld key dat => exact add_replace_old_goes lawful held blank key dat (bounded key rfl)
  | addReplaceNew key => exact add_replace_new_goes lawful held blank key (bounded key rfl)
  | addNoreplace key dat => exact add_noreplace_goes lawful held blank key dat (bounded key rfl)
  | addNoreplaceNew key => exact add_noreplace_new_goes lawful held blank key (bounded key rfl)
  | findOrNew key => exact find_or_new_goes lawful held blank key (bounded key rfl)
  | findFill key => exact find_fill_goes lawful held blank key
  | find key => exact find_goes lawful held blank key
  | remove key => exact remove_goes lawful held blank key
  | removeFill key => exact remove_fill_goes lawful held blank key
  | removeAll => exact remove_all_goes held blank
  | size => exact size_goes held blank

end Steps

/-- What an adding operation does when it has looked for its key. -/
inductive Adds (hash : Key → BitVec 32) (equal : Key → Key → Bool)
    (map : KHash32 Key Data) (key : Key) (after : KHash32 Key Data) : Prop where
  | leaves {k : Nat} (found : khGet equal hash map.khashmap key = some k)
      (inside : k ≠ map.khashmap.nBuckets)
      (same : after = map)
  | replaces {k : Nat} {dat : Data} (found : khGet equal hash map.khashmap key = some k)
      (inside : k ≠ map.khashmap.nBuckets) (replaced : replaceValue map k dat = some after)
  | puts {dat : Data} {x : Nat} (missed : khGet equal hash map.khashmap key =
      some map.khashmap.nBuckets)
      (put : putValue equal hash map key dat = some (after, x))

theorem perform_adds {after : KHash32 Key Data} {op : Op Key Data} {key : Key}
    {answer : Answer Data} (adding : adds op = some key)
    (performed : perform hash equal blank map op = some (after, answer)) :
    Adds hash equal map key after := by
  cases op with
  | addReplace key dat =>
      cases adding
      rw [perform, add_replace_by_value_eq] at performed
      rcases Option.bind_eq_some_iff.mp performed with ⟨k, found, rest⟩
      split_ifs at rest with inside
      · rcases Option.bind_eq_some_iff.mp rest with ⟨middle, replaced, done⟩
        cases done
        exact .replaces found inside replaced
      · rcases Option.bind_eq_some_iff.mp rest with ⟨⟨middle, x⟩, put, done⟩
        cases done
        exact .puts (not_not.mp inside ▸ found) put
  | addReplaceOld key dat =>
      cases adding
      rw [perform, add_replace_old_by_value_eq] at performed
      rcases Option.bind_eq_some_iff.mp performed with ⟨k, found, rest⟩
      split_ifs at rest with inside
      · rcases Option.bind_eq_some_iff.mp rest with ⟨old, -, rest⟩
        rcases Option.bind_eq_some_iff.mp rest with ⟨oldref, -, rest⟩
        rcases Option.bind_eq_some_iff.mp rest with ⟨middle, replaced, done⟩
        cases done
        exact .replaces found inside replaced
      · rcases Option.bind_eq_some_iff.mp rest with ⟨⟨middle, x⟩, put, done⟩
        cases done
        exact .puts (not_not.mp inside ▸ found) put
  | addReplaceNew key =>
      cases adding
      rcases Option.bind_eq_some_iff.mp performed with ⟨k, found, rest⟩
      split_ifs at rest with inside
      · rcases Option.bind_eq_some_iff.mp rest with ⟨middle, replaced, rest⟩
        rcases Option.bind_eq_some_iff.mp rest with ⟨ret, -, done⟩
        cases done
        exact .replaces found inside replaced
      · rcases Option.bind_eq_some_iff.mp rest with ⟨⟨middle, x⟩, put, rest⟩
        rcases Option.bind_eq_some_iff.mp rest with ⟨ret, -, done⟩
        cases done
        exact .puts (not_not.mp inside ▸ found) put
  | addNoreplace key dat =>
      cases adding
      rw [perform, add_noreplace_by_value_eq] at performed
      rcases Option.bind_eq_some_iff.mp performed with ⟨k, found, rest⟩
      split_ifs at rest with missing
      · rcases Option.bind_eq_some_iff.mp rest with ⟨⟨middle, x⟩, put, done⟩
        cases done
        exact .puts (missing ▸ found) put
      · cases rest
        exact .leaves found missing rfl
  | addNoreplaceNew key =>
      cases adding
      rcases Option.bind_eq_some_iff.mp performed with ⟨k, found, rest⟩
      split_ifs at rest with missing
      · rcases Option.bind_eq_some_iff.mp rest with ⟨⟨middle, x⟩, put, rest⟩
        rcases Option.bind_eq_some_iff.mp rest with ⟨ret, -, done⟩
        cases done
        exact .puts (missing ▸ found) put
      · cases rest
        exact .leaves found missing rfl
  | findOrNew key =>
      cases adding
      rcases Option.bind_eq_some_iff.mp performed with ⟨k, found, rest⟩
      split_ifs at rest with inside
      · rcases Option.bind_eq_some_iff.mp rest with ⟨ret, -, done⟩
        cases done
        exact .leaves found inside rfl
      · rcases Option.bind_eq_some_iff.mp rest with ⟨⟨middle, x⟩, put, rest⟩
        rcases Option.bind_eq_some_iff.mp rest with ⟨ret, -, done⟩
        cases done
        exact .puts (not_not.mp inside ▸ found) put
  | _ => cases adding

/-! ## Every run -/

theorem holds_agrees (lawful : Lawful hash equal) (held : Holds hash equal map content items) :
    Agrees equal map content := by
  rcases walk_eq held.table with ⟨visited, walked, perm⟩
  obtain ⟨others, turned, same⟩ :
      ∃ others : List (Item Key Data), visited = others.map Item.pair ∧ others.Perm items := by
    have composed := congrFun (congrFun (List.eq_map_comp_perm Item.pair) visited) items
    exact composed.mpr perm
  refine ⟨visited, others.map Item.entry, walked, ?_, ?_, ?_⟩
  · rw [turned, List.map_map, List.map_map]
    apply List.map_congr_left
    intro item member
    have read : map.heap.read item.pair.2 = some item.value :=
      held.stored item (same.mem_iff.mp member)
    show (item.key, map.heap.read item.pair.2) = (item.key, some item.value)
    rw [read]
  · exact lists_perm lawful.equivalence held.lists (same.symm.map _)
  · rw [represents_size held.table, List.length_map, List.length_map, same.length_eq]

theorem init_holds (lawful : Lawful hash equal) {items : Int} (fits : items < 2 ^ 31) :
    ∃ first, init hash items = some first ∧
      Holds hash equal first (fun _ => none : Content Key Data) [] := by
  have nothing : ∀ khashmap : KhA Key, Represents hash equal khashmap [] →
      Holds hash equal (⟨khashmap, Store.empty⟩ : KHash32 Key Data) (fun _ => none) [] := by
    intro khashmap table
    exact {
      table := table
      apart := List.nodup_nil
      stored := fun item member => by cases member
      only := fun cell present => by simp at present
      lists := lists_empty }
  unfold init
  split_ifs with positive
  · rcases resize_init lawful (show 1 ≤ items.toNat by omega) (by omega) with
      ⟨after, m, table, resized, sound, perm, room⟩
    refine ⟨⟨after, Store.empty⟩, ?_, nothing after (Or.inr ⟨m, table, sound, perm⟩)⟩
    rw [resized, Option.map_some]
  · exact ⟨_, rfl, nothing khInit (Or.inl ⟨rfl, rfl⟩)⟩

end TWlib.KHashRefinement
