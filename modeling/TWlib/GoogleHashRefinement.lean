import TWlib.GoogleHash

/-!
# The wrappers are finite maps

`IsFiniteMapOn` says what is relied on of the library: its tables are finite maps
over keys that are not reserved, as long as they are valid and another pair fits
in. Under `IsFiniteMap` all tables are that, and every run of calls goes as on a finite
map, as long as the allocator has memory and the two slips are not met: what
`addNoreplace` of `TWDenseHash` stores for a new key, and the key that
`addReplace` with `olddat` of `TWSparseHash` makes for one.
-/

namespace TWlib.GoogleHashRefinement

open TWlib.Lib.CellStore TWlib.Lib.FiniteMap TWlib.KHashTable TWlib.KHashSearch TWlib.KHashMap
  TWlib.KHashRefinement
  TWlib.GoogleHash

set_option autoImplicit false

variable {Key Data Table : Type}

/-! ## What the library does -/

/-- The pairs of a table, when what their keys point to can be read by `read`. -/
structure Keyed (equal : Key → Key → Bool) (reserved : Key → Prop) (read : Nat → Option Key)
    (pairs : List (Nat × Nat)) : Prop where
  named : ∀ pair ∈ pairs, ∃ key, read pair.1 = some key ∧ ¬ reserved key
  distinct : pairs.Pairwise fun left right => ∀ first second, read left.1 = some first →
    read right.1 = some second → ¬ SameKey equal first second

/-- The table is valid and its pairs are these. -/
def HasPairs (valid : (Nat → Option Key) → Table → Prop) (pairs : Table → List (Nat × Nat))
    (read : Nat → Option Key) (table : Table) (expected : List (Nat × Nat)) : Prop :=
  valid read table ∧ (pairs table).Perm expected

/-- The tables that are valid are finite maps over keys that are not reserved; `pairs` lists a
table, and another pair is only put into a table that it fits into. -/
structure IsFiniteMapOn (equal : Key → Key → Bool) (reserved : Key → Prop)
    (google : GoogleMap Key Table) (valid : (Nat → Option Key) → Table → Prop)
    (fitting : Table → Prop) (pairs : Table → List (Nat × Nat)) : Prop where
  other_read : ∀ read other table, valid read table →
    (∀ pair ∈ pairs table, other pair.1 = read pair.1) → valid other table
  set_deleted_key : ∀ read table k, valid read table → Keyed equal reserved read (pairs table) →
    HasPairs valid pairs read (google.setDeletedKey table k) (pairs table)
  find_some : ∀ read table key it, valid read table → Keyed equal reserved read (pairs table) →
    ¬ reserved key → google.find read table key = some it →
      it ∈ pairs table ∧ ∃ stored, read it.1 = some stored ∧ SameKey equal stored key
  find_none : ∀ read table key, valid read table → Keyed equal reserved read (pairs table) →
    ¬ reserved key → google.find read table key = none →
      ∀ pair ∈ pairs table, ∀ stored, read pair.1 = some stored → ¬ SameKey equal stored key
  begin_none : ∀ read table, valid read table → google.begin table = none → pairs table = []
  begin_some : ∀ read table it, valid read table → google.begin table = some it →
    it ∈ pairs table
  set_second : ∀ read table first second v rest, valid read table →
    (pairs table).Perm ((first, second) :: rest) → (∀ pair ∈ rest, pair.1 ≠ first) →
      HasPairs valid pairs read (google.setSecond table first v) ((first, v) :: rest)
  index : ∀ read table k v key, valid read table → fitting table →
    Keyed equal reserved read (pairs table) → read k = some key → ¬ reserved key →
    (∀ pair ∈ pairs table, ∀ stored, read pair.1 = some stored → ¬ SameKey equal stored key) →
      HasPairs valid pairs read (google.index read table k v) ((k, v) :: pairs table)
  erase : ∀ read table first second rest, valid read table →
    (pairs table).Perm ((first, second) :: rest) → (∀ pair ∈ rest, pair.1 ≠ first) →
      HasPairs valid pairs read (google.erase table first) rest
  erase_key : ∀ read table key first second rest stored, valid read table →
    Keyed equal reserved read (pairs table) → ¬ reserved key →
    (pairs table).Perm ((first, second) :: rest) → read first = some stored →
      SameKey equal stored key → HasPairs valid pairs read (google.eraseKey read table key) rest
  erase_all : ∀ read table, valid read table → HasPairs valid pairs read (google.eraseAll table) []
  compact : ∀ read table, valid read table → Keyed equal reserved read (pairs table) →
    HasPairs valid pairs read (google.resize read table 0) (pairs table)
  size : ∀ read table, valid read table → google.size table = (pairs table).length

/-- All tables are finite maps, and those that are constructed are empty. -/
structure IsFiniteMap (equal : Key → Key → Bool) (reserved : Key → Prop)
    (google : GoogleMap Key Table) (pairs : Table → List (Nat × Nat)) : Prop extends
    IsFiniteMapOn equal reserved google (fun _ _ => True) (fun _ => True) pairs where
  start : pairs google.start = []
  set_empty_key : ∀ table k, (pairs (google.setEmptyKey table k)).Perm (pairs table)
  resize : ∀ count, (pairs (google.resize (fun _ => none) google.start count)).Perm
    (pairs google.start)

/-- The plainest table: a list of its pairs. -/
def listMap (equal : Key → Key → Bool) : GoogleMap Key (List (Nat × Nat)) where
  start := []
  setEmptyKey table _ := table
  setDeletedKey table _ := table
  find read table key := table.find? fun pair => (read pair.1).any (equal · key)
  begin table := table.head?
  setSecond table first v := table.map fun pair => if pair.1 = first then (first, v) else pair
  index read table k v :=
    match table.find? fun pair => (read pair.1).any fun stored => (read k).any (equal stored ·) with
    | some it => table.map fun pair => if pair.1 = it.1 then (it.1, v) else pair
    | none => (k, v) :: table
  erase table first := table.filter (·.1 ≠ first)
  eraseKey read table key := table.filter fun pair => !(read pair.1).any (equal · key)
  eraseAll _ := []
  resize _ table _ := table
  size table := table.length

theorem filter_perm_rest {Pair : Type*} {kept : Pair → Bool} {table rest : List Pair} {pair : Pair}
    (perm : table.Perm (pair :: rest)) (drops : kept pair = false)
    (keeps : ∀ other ∈ rest, kept other = true) :
    (table.filter kept).Perm rest := by
  have filtered := perm.filter kept
  rw [List.filter_cons_of_neg (by rw [drops]; exact Bool.false_ne_true),
    List.filter_eq_self.mpr keeps] at filtered
  exact filtered

/-- What is relied on of the library can be had. -/
theorem list_map_finite {equal : Key → Key → Bool} (equivalence : Equivalence (SameKey equal))
    (reserved : Key → Prop) : IsFiniteMap equal reserved (listMap equal) (fun table => table) where
  start := rfl
  set_empty_key _ _ := List.Perm.refl _
  other_read _ _ _ _ _ := trivial
  set_deleted_key _ _ _ _ _ := ⟨trivial, List.Perm.refl _⟩
  find_some read table key it _ _ _ found := by
    have here := List.find?_some found
    cases named : read it.1 with
    | none =>
        rw [named] at here
        cases here
    | some stored =>
        rw [named] at here
        exact ⟨List.mem_of_find?_eq_some found, stored, rfl, here⟩
  find_none read table key _ _ _ missed pair member stored held same := by
    have differ := List.find?_eq_none.mp missed pair member
    rw [held] at differ
    exact differ same
  begin_none _ table _ nothing := List.head?_eq_none_iff.mp nothing
  begin_some _ table it _ first := List.mem_of_head? first
  set_second _ table first second v rest _ perm apart := by
    have changed := perm.map fun pair => if pair.1 = first then (first, v) else pair
    rw [List.map_cons, if_pos rfl] at changed
    have others : (rest.map fun pair => if pair.1 = first then (first, v) else pair) = rest := by
      have same : rest.map (fun pair => if pair.1 = first then (first, v) else pair) =
          rest.map id := by
        apply List.map_congr_left
        intro pair member
        exact if_neg (apart pair member)
      rw [same, List.map_id]
    rw [others] at changed
    exact ⟨trivial, changed⟩
  index read table k v key _ _ _ held _ absent := by
    have missed : table.find? (fun pair => (read pair.1).any fun stored =>
        (read k).any (equal stored ·)) = none := by
      apply List.find?_eq_none.mpr
      intro pair member
      cases named : read pair.1 with
      | none => simp
      | some stored =>
          have differ := absent pair member stored named
          simpa [held, SameKey] using differ
    simp only [HasPairs, listMap, missed]
    exact ⟨trivial, List.Perm.refl _⟩
  erase _ table first second rest _ perm apart := by
    refine ⟨trivial, filter_perm_rest perm ?_ ?_⟩
    · simp
    · intro pair member
      simpa using apart pair member
  erase_key read table key first second rest stored _ keyed _ perm held same := by
    refine ⟨trivial, filter_perm_rest perm ?_ ?_⟩
    · simpa [held, SameKey] using same
    · intro pair member
      have distinct :=
        (perm.pairwise keyed.distinct fun {left right} apart second first held read equals =>
        apart first second read held (equivalence.symm equals))
      cases named : read pair.1 with
      | none => simp
      | some other =>
          have differ := (List.pairwise_cons.mp distinct).1 pair member stored other held named
          have clash : ¬ SameKey equal other key :=
            fun equals => differ (equivalence.trans same (equivalence.symm equals))
          simpa [SameKey] using clash
  erase_all _ _ _ := ⟨trivial, List.Perm.refl _⟩
  compact _ _ _ _ := ⟨trivial, List.Perm.refl _⟩
  resize _ := List.Perm.refl _
  size _ _ _ := rfl

/-! ## The items of a wrapper -/

structure Item (Key Data : Type) where
  key : Key
  pointer : Nat
  cell : Nat
  value : Data

def Item.pair (item : Item Key Data) : Nat × Nat := (item.pointer, item.cell)

def Item.entry (item : Item Key Data) : Key × Data := (item.key, item.value)

/-- The table holds the items; objects that no pair points to may have leaked. -/
structure Holds (equal : Key → Key → Bool) (reserved : Key → Prop)
    (pairs : Table → List (Nat × Nat)) (values : Table) (keys : Store Key) (datas : Store Data)
    (content : Content Key Data) (items : List (Item Key Data)) : Prop where
  all : (pairs values).Perm (items.map Item.pair)
  pointers : (items.map Item.pointer).Nodup
  cells : (items.map Item.cell).Nodup
  named : ∀ item ∈ items, keys.read item.pointer = some item.key ∧ ¬ reserved item.key
  stored : ∀ item ∈ items, datas.read item.cell = some item.value
  lists : Lists equal content (items.map Item.entry)

/-- It does so in a valid table. -/
structure HoldsOn (equal : Key → Key → Bool) (reserved : Key → Prop)
    (valid : (Nat → Option Key) → Table → Prop) (pairs : Table → List (Nat × Nat)) (values : Table)
    (keys : Store Key) (datas : Store Data) (content : Content Key Data)
    (items : List (Item Key Data)) : Prop extends
    Holds equal reserved pairs values keys datas content items where
  sound : valid keys.read values

section Items

variable {equal : Key → Key → Bool} {reserved : Key → Prop} {google : GoogleMap Key Table}
  {valid : (Nat → Option Key) → Table → Prop} {fitting : Table → Prop}
  {pairs : Table → List (Nat × Nat)} {values : Table} {keys : Store Key} {datas : Store Data}
  {content : Content Key Data} {items rest : List (Item Key Data)}
  {item : Item Key Data} {key : Key}

theorem holds_perm (equivalence : Equivalence (SameKey equal))
    (held : HoldsOn equal reserved valid pairs values keys datas content items)
    {others : List (Item Key Data)} (perm : items.Perm others) :
    HoldsOn equal reserved valid pairs values keys datas content others where
  all := held.all.trans (perm.map _)
  pointers := (perm.map Item.pointer).nodup_iff.mp held.pointers
  cells := (perm.map Item.cell).nodup_iff.mp held.cells
  named := fun item member => held.named item (perm.mem_iff.mpr member)
  stored := fun item member => held.stored item (perm.mem_iff.mpr member)
  lists := lists_perm equivalence held.lists (perm.map _)
  sound := held.sound

theorem holds_keyed (equivalence : Equivalence (SameKey equal))
    (held : HoldsOn equal reserved valid pairs values keys datas content items) :
    Keyed equal reserved keys.read (pairs values) where
  named := by
    intro pair member
    rcases List.mem_map.mp (held.all.mem_iff.mp member) with ⟨item, here, rfl⟩
    exact ⟨item.key, held.named item here⟩
  distinct := by
    have apart : (items.map Item.pair).Pairwise fun left right =>
        ∀ first second, keys.read left.1 = some first →
        keys.read right.1 = some second → ¬ SameKey equal first second := by
      rw [List.pairwise_map]
      apply (List.pairwise_map.mp held.lists.distinct).imp_of_mem
      intro left right leftMember rightMember differ first second leftRead rightRead
      have leftKey := (held.named left leftMember).1
      have rightKey := (held.named right rightMember).1
      rw [show keys.read left.pair.1 = keys.read left.pointer from rfl, leftKey] at leftRead
      rw [show keys.read right.pair.1 = keys.read right.pointer from rfl, rightKey] at rightRead
      cases leftRead
      cases rightRead
      exact differ
    apply held.all.symm.pairwise apart
    intro left right differ first second leftRead rightRead equals
    exact differ second first rightRead leftRead (equivalence.symm equals)

theorem search_cases (finite : IsFiniteMapOn equal reserved google valid fitting pairs)
    (equivalence : Equivalence (SameKey equal))
    (held : HoldsOn equal reserved valid pairs values keys datas content items)
    (allowed : ¬ reserved key) :
    (google.find keys.read values key = none ∧ content key = none) ∨
    ∃ item rest, google.find keys.read values key = some item.pair ∧ items.Perm (item :: rest) ∧
      SameKey equal item.key key ∧ content key = some item.value := by
  have keyed := holds_keyed equivalence held
  cases found : google.find keys.read values key with
  | none =>
      left
      refine ⟨rfl, (none_iff held.lists).mpr fun entry member => ?_⟩
      rcases List.mem_map.mp member with ⟨item, here, rfl⟩
      exact finite.find_none _ _ _ held.sound keyed allowed found item.pair
        (held.all.mem_iff.mpr (List.mem_map_of_mem here)) item.key (held.named item here).1
  | some it =>
      right
      rcases finite.find_some _ _ _ it held.sound keyed allowed found with ⟨member, stored,
        read, equals⟩
      rcases List.mem_map.mp (held.all.mem_iff.mp member) with ⟨item, here, rfl⟩
      rcases List.append_of_mem here with ⟨left, right, split⟩
      have turned : items.Perm (item :: (left ++ right)) := by
        rw [split]
        exact List.perm_middle
      have sameKey : item.key = stored := by
        have named := (held.named item here).1
        rw [show keys.read item.pointer = keys.read item.pair.1 from rfl, read] at named
        exact (Option.some.inj named).symm
      rw [← sameKey] at equals
      refine ⟨item, left ++ right, rfl, turned, equals, ?_⟩
      exact lists_head (lists_perm equivalence held.lists (turned.map Item.entry)) equals

theorem pointers_apart (held : HoldsOn equal reserved valid pairs values keys datas content
    (item :: rest)) :
    ∀ other ∈ rest, other.pointer ≠ item.pointer := by
  intro other member same
  exact (List.nodup_cons.mp held.pointers).1 (same ▸ List.mem_map_of_mem member)

theorem cells_apart (held : HoldsOn equal reserved valid pairs values keys datas content
    (item :: rest)) :
    ∀ other ∈ rest, other.cell ≠ item.cell := by
  intro other member same
  exact (List.nodup_cons.mp held.cells).1 (same ▸ List.mem_map_of_mem member)

theorem pairs_apart (held : HoldsOn equal reserved valid pairs values keys datas content
    (item :: rest)) :
    ∀ pair ∈ rest.map Item.pair, pair.1 ≠ item.pointer := by
  intro pair member
  rcases List.mem_map.mp member with ⟨other, here, rfl⟩
  exact pointers_apart held other here

theorem holds_new_data (held : HoldsOn equal reserved valid pairs values keys datas content items)
    (dat : Data) :
    HoldsOn equal reserved valid pairs values keys (datas.push dat) content items :=
  { held with stored := fun item member => read_push_of_present (held.stored item member) dat }

theorem holds_new_key (finite : IsFiniteMapOn equal reserved google valid fitting pairs)
    (held : HoldsOn equal reserved valid pairs values keys datas content items) (made : Key) :
    HoldsOn equal reserved valid pairs values (keys.push made) datas content items :=
  { held with
    named := fun item member =>
      ⟨read_push_of_present (held.named item member).1 made, (held.named item member).2⟩
    sound := by
      refine finite.other_read _ _ _ held.sound fun pair member => ?_
      rcases List.mem_map.mp (held.all.mem_iff.mp member) with ⟨item, here, rfl⟩
      have named := (held.named item here).1
      exact (read_push_of_present named made).trans named.symm }

theorem assign_same_key (equivalence : Equivalence (SameKey equal)) {made : Key}
    (equals : SameKey equal made key) (dat : Data) :
    assign equal content made dat = assign equal content key dat := by
  funext other
  by_cases here : SameKey equal key other
  · rw [assign_same here, assign_same (equivalence.trans equals here)]
  · have differ : ¬ SameKey equal made other :=
      fun same => here (equivalence.trans (equivalence.symm equals) same)
    rw [assign_other here, assign_other differ]

theorem holds_index (finite : IsFiniteMapOn equal reserved google valid fitting pairs)
    (equivalence : Equivalence (SameKey equal)) (closed : ∀ left right, SameKey equal left right →
      reserved left → reserved right)
    (held : HoldsOn equal reserved valid pairs values keys datas content items)
    (fits : fitting values) (allowed : ¬ reserved key)
    (missing : content key = none) {made : Key} (equals : SameKey equal made key) (dat : Data) :
    HoldsOn equal reserved valid pairs (google.index (keys.push made).read values keys.fresh
      datas.fresh)
      (keys.push made) (datas.push dat) (assign equal content key dat)
      (⟨made, keys.fresh, datas.fresh, dat⟩ :: items) := by
  have ready := holds_new_key finite (holds_new_data held dat) made
  have read : (keys.push made).read keys.fresh = some made := by rw [read_push, if_pos rfl]
  have allowedMade : ¬ reserved made := fun bad => allowed (closed made key equals bad)
  have absent : ∀ pair ∈ pairs values, ∀ stored, (keys.push made).read pair.1 = some stored →
      ¬ SameKey equal stored made := by
    intro pair member stored found same
    rcases List.mem_map.mp (ready.all.mem_iff.mp member) with ⟨item, here, rfl⟩
    have named := (ready.named item here).1
    rw [show (keys.push made).read item.pointer = (keys.push made).read item.pair.1 from rfl,
      found] at named
    cases named
    exact (none_iff held.lists).mp missing item.entry (List.mem_map_of_mem here)
      (equivalence.trans same equals)
  have indexed := finite.index _ _ keys.fresh datas.fresh made ready.sound fits
    (holds_keyed equivalence ready) read allowedMade absent
  exact {
    all := indexed.2.trans (ready.all.cons _)
    sound := indexed.1
    pointers := by
      refine List.nodup_cons.mpr ⟨fun member => ?_, held.pointers⟩
      rcases List.mem_map.mp member with ⟨other, here, same⟩
      have bound := read_bound (held.named other here).1
      have clash : other.pointer = keys.fresh := same
      omega
    cells := by
      refine List.nodup_cons.mpr ⟨fun member => ?_, held.cells⟩
      rcases List.mem_map.mp member with ⟨other, here, same⟩
      have bound := read_bound (held.stored other here)
      have clash : other.cell = datas.fresh := same
      omega
    named := by
      intro other member
      rcases List.mem_cons.mp member with rfl | later
      · exact ⟨read, allowedMade⟩
      · exact ready.named other later
    stored := by
      intro other member
      rcases List.mem_cons.mp member with rfl | later
      · show (datas.push dat).read datas.fresh = some dat
        rw [read_push, if_pos rfl]
      · exact ready.stored other later
    lists := by
      rw [← assign_same_key equivalence equals]
      have missingMade : content made = none := by
        apply (none_iff held.lists).mpr
        intro entry member same
        exact (none_iff held.lists).mp missing entry member (equivalence.trans same equals)
      exact lists_assign_new equivalence held.lists missingMade dat }

theorem holds_set_second (finite : IsFiniteMapOn equal reserved google valid fitting pairs)
    (equivalence : Equivalence (SameKey equal))
    (held : HoldsOn equal reserved valid pairs values keys datas content (item :: rest))
    (equals : SameKey equal item.key key) (dat : Data) :
    HoldsOn equal reserved valid pairs (google.setSecond values item.pointer datas.fresh) keys
      ((datas.push dat).giveUp item.cell) (assign equal content key dat)
      (⟨item.key, item.pointer, datas.fresh, dat⟩ :: rest) := by
  have old := read_bound (held.stored item List.mem_cons_self)
  have changed := finite.set_second _ _ _ item.cell datas.fresh _ held.sound held.all
    (pairs_apart held)
  exact {
    all := changed.2
    sound := changed.1
    pointers := held.pointers
    cells := by
      refine List.nodup_cons.mpr ⟨fun member => ?_, (List.nodup_cons.mp held.cells).2⟩
      rcases List.mem_map.mp member with ⟨other, here, same⟩
      have bound := read_bound (held.stored other (List.mem_cons_of_mem _ here))
      have clash : other.cell = datas.fresh := same
      omega
    named := by
      intro other member
      rcases List.mem_cons.mp member with rfl | later
      · exact held.named item List.mem_cons_self
      · exact held.named other (List.mem_cons_of_mem _ later)
    stored := by
      intro other member
      rw [read_give_up]
      rcases List.mem_cons.mp member with rfl | later
      · have differ : ¬ datas.fresh = item.cell := by omega
        show (if datas.fresh = item.cell then none else (datas.push dat).read datas.fresh) =
          some dat
        rw [if_neg differ, read_push, if_pos rfl]
      · rw [if_neg (cells_apart held other later)]
        exact read_push_of_present (held.stored other (List.mem_cons_of_mem _ later)) dat
    lists := lists_assign_known equivalence held.lists equals dat }

theorem holds_erased (equivalence : Equivalence (SameKey equal))
    (held : HoldsOn equal reserved valid pairs values keys datas content (item :: rest))
    (equals : SameKey equal item.key key) {after : Table}
    (erased : HasPairs valid pairs keys.read after (rest.map Item.pair)) :
    HoldsOn equal reserved valid pairs after keys datas (forget equal content key) rest where
  all := erased.2
  pointers := (List.nodup_cons.mp held.pointers).2
  cells := (List.nodup_cons.mp held.cells).2
  named := fun other member => held.named other (List.mem_cons_of_mem _ member)
  stored := fun other member => held.stored other (List.mem_cons_of_mem _ member)
  lists := lists_forget equivalence held.lists equals
  sound := erased.1

theorem holds_removed (finite : IsFiniteMapOn equal reserved google valid fitting pairs)
    (equivalence : Equivalence (SameKey equal))
    (held : HoldsOn equal reserved valid pairs values keys datas content (item :: rest))
    (equals : SameKey equal item.key key) {after : Table}
    (erased : HasPairs valid pairs keys.read after (rest.map Item.pair)) :
    HoldsOn equal reserved valid pairs after (keys.giveUp item.pointer) (datas.giveUp item.cell)
      (forget equal content key) rest :=
  { holds_erased equivalence held equals erased with
    named := fun other member => by
      rw [read_give_up, if_neg (pointers_apart held other member)]
      exact held.named other (List.mem_cons_of_mem _ member)
    stored := fun other member => by
      rw [read_give_up, if_neg (cells_apart held other member)]
      exact held.stored other (List.mem_cons_of_mem _ member)
    sound := by
      refine finite.other_read _ _ _ erased.1 fun pair member => ?_
      rw [read_give_up, if_neg (pairs_apart held pair (erased.2.mem_iff.mp member))] }

end Items

/-! ## What the calls answer -/

/-- The table has the cell for the key. -/
def PointsTo (google : GoogleMap Key Table) (w : Wrapper Key Data Table) (key : Key) (cell : Nat)
    (value : Data) :
    Prop :=
  (∃ first, w.found google key = some (first, cell)) ∧ w.datas.read cell = some value

/-- What an operation answers, with `content` the content before it. -/
def Correct (google : GoogleMap Key Table) (equal : Key → Key → Bool) (blank : Data)
    (content : Content Key Data) (after : Wrapper Key Data Table) (answer : Answer Data) :
    Op Key Data → Prop
  | .addReplace _ _ => answer = .done true none
  | .addReplaceOld key _ => answer = .done true (content key)
  | .addReplaceNew key =>
      ∃ cell, answer = .pointer (some cell) ∧ PointsTo google after key cell blank
  | .addNoreplace key _ => answer = .done (content key).isNone none
  | .addNoreplaceNew key =>
      match content key with
      | none => ∃ cell, answer = .pointer (some cell) ∧ PointsTo google after key cell blank
      | some _ => answer = .pointer none
  | .findOrNew key =>
      ∃ cell, answer = .pointer (some cell) ∧
        PointsTo google after key cell ((content key).getD blank)
  | .findFill key => answer = .done (content key).isSome (content key)
  | .find key =>
      match content key with
      | none => answer = .pointer none
      | some value => ∃ cell, answer = .pointer (some cell) ∧ PointsTo google after key cell value
  | .remove key => answer = .done (content key).isSome none
  | .removeFill key => answer = .done (content key).isSome (content key)
  | .removeAll => answer = .done true none
  | .size => ∃ items, Lists equal content items ∧ answer = .count items.length

def keyOf : Op Key Data → Option Key
  | .addReplace key _ | .addReplaceOld key _ | .addReplaceNew key | .addNoreplace key _
      | .addNoreplaceNew key
  | .findOrNew key | .findFill key | .find key | .remove key | .removeFill key => some key
  | .removeAll | .size => none

def present (google : GoogleMap Key Table) (w : Wrapper Key Data Table) (op : Op Key Data) : Bool :=
  ((keyOf op).bind (w.found google)).isSome

def granted (present : Bool) (memory : Memory) : Op Key Data → Bool
  | .addReplace _ _ | .addReplaceOld _ _ | .addReplaceNew _ =>
      memory.data && (present || memory.key)
  | .addNoreplace _ _ | .addNoreplaceNew _ | .findOrNew _ => present || (memory.data && memory.key)
  | _ => true

/-- What is made for a new key is the key and the data that were given. -/
def MakesGiven (equal : Key → Key → Bool) (variant : Variant Key Data) : Op Key Data → Prop
  | .addReplaceOld key dat => SameKey equal (variant.oldKey key dat) key
  | .addNoreplace _ dat => variant.stored dat = dat
  | _ => True

/-- The wrapper with a pair of a new key and of DATA made from `made`. -/
def withPair (google : GoogleMap Key Table) (w : Wrapper Key Data Table) (key : Key) (made : Data) :
    Wrapper Key Data Table :=
  (((w.acquire.touch.newData made).2.newKey key).2.index google w.keys.fresh w.datas.fresh).release

def interface (google : GoogleMap Key Table) (equal : Key → Key → Bool) (blank : Data)
    (variant : Variant Key Data) (memory : Memory) : Interface (Wrapper Key Data Table)
    (Content Key Data) (Op Key Data) (Answer Data) where
  perform := performBody google blank variant memory
  meaning := meaning equal blank
  Correct content _ after answer op := Correct google equal blank content after answer op

def WrapperHolds (equal : Key → Key → Bool) (reserved : Key → Prop)
    (valid : (Nat → Option Key) → Table → Prop) (pairs : Table → List (Nat × Nat))
    (w : Wrapper Key Data Table) (content : Content Key Data) (items : List (Item Key Data)) :
    Prop :=
  HoldsOn equal reserved valid pairs w.values w.keys w.datas content items

/-- The operation has a result, answers correctly and leaves a map with the content it should
have. -/
def Goes (equal : Key → Key → Bool) (reserved : Key → Prop)
    (valid : (Nat → Option Key) → Table → Prop) (google : GoogleMap Key Table)
    (pairs : Table → List (Nat × Nat)) (blank : Data) (variant : Variant Key Data) (memory : Memory)
    (w : Wrapper Key Data Table) (content : Content Key Data) (op : Op Key Data) : Prop :=
  (interface google equal blank variant memory).Goes (WrapperHolds equal reserved valid pairs)
    w content op

section Steps

variable {equal : Key → Key → Bool} {reserved : Key → Prop} {google : GoogleMap Key Table}
  {valid : (Nat → Option Key) → Table → Prop} {fitting : Table → Prop}
  {pairs : Table → List (Nat × Nat)} {w : Wrapper Key Data Table} {content : Content Key Data}
  {items rest : List (Item Key Data)} {item : Item Key Data} {key : Key}
  (finite : IsFiniteMapOn equal reserved google valid fitting pairs)
  (equivalence : Equivalence (SameKey equal))
  (held : HoldsOn equal reserved valid pairs w.values w.keys w.datas content items)
  (closed : ∀ left right, SameKey equal left right → reserved left → reserved right)

theorem goes_iff {blank : Data} {variant : Variant Key Data} {memory : Memory} {op : Op Key Data} :
    Goes equal reserved valid google pairs blank variant memory w content op ↔
      ∃ after answer items, performBody google blank variant memory w op = some (after, answer) ∧
        Correct google equal blank content after answer op ∧
        HoldsOn equal reserved valid pairs after.values after.keys after.datas
        (meaning equal blank content op) items :=
  Iff.rfl

theorem points_to_item (finite : IsFiniteMapOn equal reserved google valid fitting pairs)
    (equivalence : Equivalence (SameKey equal)) {w : Wrapper Key Data Table}
    (held : HoldsOn equal reserved valid pairs w.values w.keys w.datas content (item :: rest))
    (allowed : ¬ reserved key) (equals : SameKey equal item.key key) :
    PointsTo google w key item.cell item.value := by
  have present : content key = some item.value := lists_head held.lists equals
  refine ⟨?_, held.stored item List.mem_cons_self⟩
  rcases search_cases finite equivalence held allowed with ⟨_, missing⟩ | ⟨other, others, found,
    perm, same, _⟩
  · rw [present] at missing
    cases missing
  · rcases List.mem_cons.mp (perm.mem_iff.mpr List.mem_cons_self) with rfl | later
    · exact ⟨_, found⟩
    · have apart := rest_apart equivalence held.lists equals other.entry (List.mem_map_of_mem later)
      exact absurd same apart

include finite equivalence held

theorem find_fill_goes (blank : Data) (variant : Variant Key Data) (memory : Memory)
    (allowed : ¬ reserved key) :
    Goes equal reserved valid google pairs blank variant memory w content (.findFill key) := by
  rcases search_cases finite equivalence held allowed with
    ⟨missed, missing⟩ | ⟨item, rest, found, perm, equals, present⟩
  · refine goes_iff.mpr ⟨w.touch.release, .done false none, items, ?_, ?_, held⟩
    · simp only [performBody, findFillBody, Wrapper.find, Wrapper.found, missed]
    · simp only [Correct, missing]
      rfl
  · have stored : w.datas.read item.cell = some item.value :=
      held.stored item (perm.mem_iff.mpr List.mem_cons_self)
    refine goes_iff.mpr ⟨w.touch.touch.release, .done true (some item.value), items, ?_, ?_, held⟩
    · simp only [performBody, findFillBody, Wrapper.find, Wrapper.found, found, Item.pair,
        Wrapper.touch,
        Wrapper.release, Wrapper.note, stored, Option.bind_eq_bind, Option.bind_some]
    · simp only [Correct, present]
      rfl

theorem find_goes (blank : Data) (variant : Variant Key Data) (memory : Memory)
    (allowed : ¬ reserved key) :
    Goes equal reserved valid google pairs blank variant memory w content (.find key) := by
  rcases search_cases finite equivalence held allowed with
    ⟨missed, missing⟩ | ⟨item, rest, found, perm, equals, present⟩
  · refine goes_iff.mpr ⟨w.touch.release, .pointer none, items, ?_, ?_, held⟩
    · simp only [performBody, findBody, Wrapper.find, Wrapper.found, missed]
    · simp only [Correct, missing]
  · have points := points_to_item finite equivalence (holds_perm equivalence held perm)
      allowed equals
    refine goes_iff.mpr ⟨w.touch.touch.release, .pointer (some item.cell), items, ?_, ?_, held⟩
    · simp only [performBody, findBody, Wrapper.find, Wrapper.found, found, Item.pair]
    · simp only [Correct, present]
      exact ⟨_, rfl, points⟩

theorem remove_goes (blank : Data) (variant : Variant Key Data) (memory : Memory)
    (allowed : ¬ reserved key) :
    Goes equal reserved valid google pairs blank variant memory w content (.remove key) := by
  rcases search_cases finite equivalence held allowed with
    ⟨missed, missing⟩ | ⟨item, rest, found, perm, equals, present⟩
  · refine goes_iff.mpr ⟨w.acquire.touch.release, .done false none, items, ?_, ?_, ?_⟩
    · simp only [performBody, removeBody, Wrapper.find, Wrapper.found, Wrapper.acquire,
        Wrapper.note, missed]
    · simp only [Correct, missing]
      rfl
    · rw [meaning, forget_missing equivalence held.lists missing]
      exact held
  · have turned := holds_perm equivalence held perm
    have erased := finite.erase_key _ _ key _ _ _ _ turned.sound (holds_keyed equivalence turned)
      allowed turned.all
      (turned.named item List.mem_cons_self).1 equals
    have named := (turned.named item List.mem_cons_self).1
    have stored := turned.stored item List.mem_cons_self
    refine goes_iff.mpr ⟨{ (w.acquire.touch.touch.eraseKey google key).release with
      keys := w.keys.giveUp item.pointer, datas := w.datas.giveUp item.cell }, .done true none,
        rest, ?_, ?_,
      holds_removed finite equivalence turned equals erased⟩
    · simp only [performBody, removeBody, Wrapper.find, Wrapper.found, found, Item.pair,
        Wrapper.acquire,
        Wrapper.touch, Wrapper.release, Wrapper.note, Wrapper.eraseKey, Wrapper.deleteKey,
        Wrapper.deleteData,
        named, stored, Option.map_some, Option.bind_eq_bind, Option.bind_some]
    · simp only [Correct, present]
      rfl

theorem remove_fill_goes (blank : Data) (variant : Variant Key Data) (memory : Memory)
    (allowed : ¬ reserved key) :
    Goes equal reserved valid google pairs blank variant memory w content (.removeFill key) := by
  rcases search_cases finite equivalence held allowed with
    ⟨missed, missing⟩ | ⟨item, rest, found, perm, equals, present⟩
  · refine goes_iff.mpr ⟨w.acquire.touch.release, .done false none, items, ?_, ?_, ?_⟩
    · simp only [performBody, removeFillBody, Wrapper.find, Wrapper.found, Wrapper.acquire,
        Wrapper.note, missed]
    · simp only [Correct, missing]
      rfl
    · rw [meaning, forget_missing equivalence held.lists missing]
      exact held
  · have turned := holds_perm equivalence held perm
    have erased := finite.erase _ _ item.pointer item.cell _ turned.sound turned.all
      (pairs_apart turned)
    have keyed := holds_keyed equivalence (holds_erased equivalence turned equals erased)
    have compacted := finite.compact _ _ erased.1 keyed
    have resized := And.intro compacted.1 (compacted.2.trans erased.2)
    have named := (turned.named item List.mem_cons_self).1
    have stored := turned.stored item List.mem_cons_self
    by_cases free : w.iteratorsOut = 0
    · refine goes_iff.mpr
          ⟨{ ((w.acquire.touch.touch.erase google item.pointer).compact google).release with
        keys := w.keys.giveUp item.pointer, datas :=
          w.datas.giveUp item.cell }, .done true (some item.value), rest,
        ?_, ?_, holds_removed finite equivalence turned equals resized⟩
      · simp only [performBody, removeFillBody, Wrapper.find, Wrapper.found, found, Item.pair,
          Wrapper.acquire,
          Wrapper.touch, Wrapper.release, Wrapper.note, Wrapper.erase, Wrapper.compactIfFree,
          Wrapper.compact,
          Wrapper.deleteKey, Wrapper.deleteData, free, if_true, named, stored, Option.map_some,
          Option.bind_eq_bind,
          Option.bind_some]
      · simp only [Correct, present]
        rfl
    · refine goes_iff.mpr ⟨{ (w.acquire.touch.touch.erase google item.pointer).release with
        keys := w.keys.giveUp item.pointer, datas :=
          w.datas.giveUp item.cell }, .done true (some item.value), rest,
        ?_, ?_, holds_removed finite equivalence turned equals erased⟩
      · simp only [performBody, removeFillBody, Wrapper.find, Wrapper.found, found, Item.pair,
          Wrapper.acquire,
          Wrapper.touch, Wrapper.release, Wrapper.note, Wrapper.erase, Wrapper.compactIfFree,
          Wrapper.deleteKey,
          Wrapper.deleteData, free, if_false, named, stored, Option.map_some, Option.bind_eq_bind,
          Option.bind_some]
      · simp only [Correct, present]
        rfl

omit equivalence in
theorem size_goes (blank : Data) (variant : Variant Key Data) (memory : Memory) :
    Goes equal reserved valid google pairs blank variant memory w content .size := by
  refine goes_iff.mpr ⟨w.touch, _, items, rfl, ⟨_, held.lists, ?_⟩, held⟩
  rw [finite.size _ _ held.sound, held.all.length_eq, List.length_map, List.length_map]

theorem remove_all_from_eq {fuel : Nat} (enough : items.length = fuel) :
    ∃ after, removeAllPairs google fuel w = some after ∧
      HoldsOn equal reserved valid pairs after.values after.keys after.datas
      (fun _ => none) [] := by
  induction fuel generalizing w content items with
  | zero =>
      have none_ := List.eq_nil_of_length_eq_zero enough
      subst none_
      have empty : google.begin w.values = none := by
        cases first : google.begin w.values with
        | none => rfl
        | some it =>
            have member := held.all.mem_iff.mp (finite.begin_some _ _ it held.sound first)
            cases member
      refine ⟨w.touch, ?_, { held with lists := lists_empty }⟩
      rw [removeAllPairs, empty]
  | succ fuel ih =>
      cases first : google.begin w.values with
      | none =>
          have empty := held.all.length_eq
          rw [finite.begin_none _ _ held.sound first, List.length_map, enough] at empty
          cases empty
      | some it =>
          rcases List.mem_map.mp (held.all.mem_iff.mp
            (finite.begin_some _ _ it held.sound first)) with ⟨item,
            here, rfl⟩
          rcases List.append_of_mem here with ⟨left, right, split⟩
          have perm : items.Perm (item :: (left ++ right)) := by
            rw [split]
            exact List.perm_middle
          have turned := holds_perm equivalence held perm
          have erased := finite.erase _ _ item.pointer item.cell _ turned.sound turned.all
            (pairs_apart turned)
          have removed := holds_removed finite equivalence turned (equivalence.refl item.key) erased
          have named := (turned.named item List.mem_cons_self).1
          have stored := turned.stored item List.mem_cons_self
          have shorter : (left ++ right).length = fuel := by
            rw [perm.length_eq, List.length_cons] at enough
            omega
          rcases ih (w := { (w.touch.erase google item.pointer) with
              keys := w.keys.giveUp item.pointer, datas :=
                w.datas.giveUp item.cell }) removed shorter with
            ⟨after, ran, empty⟩
          refine ⟨after, ?_, empty⟩
          rw [removeAllPairs, first]
          simp only [Item.pair, Wrapper.touch, Wrapper.note, Wrapper.erase, Wrapper.deleteKey,
            Wrapper.deleteData,
            named, stored, Option.map_some, Option.bind_eq_bind, Option.bind_some]
          exact ran

theorem remove_all_goes (blank : Data) (variant : Variant Key Data) (memory : Memory) :
    Goes equal reserved valid google pairs blank variant memory w content .removeAll := by
  have set := finite.set_deleted_key _ _ w.deletedkey held.sound (holds_keyed equivalence held)
  have ready : HoldsOn equal reserved valid pairs (google.setDeletedKey w.values w.deletedkey)
      w.keys w.datas content items := { held with all := set.2.trans held.all, sound := set.1 }
  have enough : items.length = google.size (google.setDeletedKey w.values w.deletedkey) := by
    rw [finite.size _ _ set.1, ready.all.length_eq, List.length_map]
  rcases remove_all_from_eq
    (w := { w.acquire.touch with values := google.setDeletedKey w.values w.deletedkey })
    finite equivalence ready enough with ⟨after, ran, empty⟩
  refine goes_iff.mpr
    ⟨({ (after.compact google).touch with
      values := google.eraseAll (after.compact google).values }).release,
    .done true none, [], ?_, rfl, ?_⟩
  · simp only [performBody, removeAllBody, Option.bind_eq_bind]
    exact congrArg (Option.bind · _) ran
  · have compacted := finite.compact _ _ empty.sound (holds_keyed equivalence empty)
    have cleared := finite.erase_all _ _ compacted.1
    exact { empty with all := cleared.2, sound := cleared.1 }

section Adding

variable (blank : Data) (variant : Variant Key Data) (memory : Memory) (dat : Data)
  (fits : fitting w.values)

include closed fits

theorem add_replace_body_goes (old : Bool) (made : Key) (allowed : ¬ reserved key)
    (room : memory.data && ((w.found google key).isSome || memory.key))
    (given : content key = none → SameKey equal made key) :
    ∃ after items, addReplaceBody google memory w key old made dat =
        some (after, .done true (if old then content key else none)) ∧
      HoldsOn equal reserved valid pairs after.values after.keys after.datas
      (assign equal content key dat) items := by
  rcases search_cases finite equivalence held allowed with
    ⟨missed, missing⟩ | ⟨item, rest, found, perm, equals, present⟩
  · have hasData : memory.data = true := by
      rw [Bool.and_eq_true] at room
      exact room.1
    have hasKey : memory.key = true := by
      rw [Wrapper.found, missed] at room
      simpa [hasData] using room
    refine ⟨((w.acquire.touch.newData dat).2.newKey made).2.index google w.keys.fresh w.datas.fresh
      |>.release, _,
      ?_, holds_index finite equivalence closed held fits allowed missing (given missing) dat⟩
    simp only [addReplaceBody, Wrapper.find, Wrapper.found, Wrapper.acquire, Wrapper.touch,
      Wrapper.note,
      Wrapper.newData, Wrapper.newKey, missed, missing, hasData, hasKey, if_true, ite_self]
  · have hasData : memory.data = true := by
      rw [Bool.and_eq_true] at room
      exact room.1
    have turned := holds_perm equivalence held perm
    have stored : (w.datas.push dat).read item.cell = some item.value :=
      read_push_of_present (turned.stored item List.mem_cons_self) dat
    refine ⟨{ (w.acquire.touch.touch.setSecond google item.pointer w.datas.fresh).release with
      datas := (w.datas.push dat).giveUp item.cell }, _, ?_,
        holds_set_second finite equivalence turned equals dat⟩
    cases old with
    | true =>
        simp only [addReplaceBody, Wrapper.find, Wrapper.found, Wrapper.acquire, Wrapper.touch,
          Wrapper.note,
          Wrapper.newData, Wrapper.deleteData, Wrapper.setSecond, Wrapper.release, found, Item.pair,
          stored, present,
          hasData, if_true, Option.map_some, Option.bind_eq_bind, Option.bind_some]
    | false =>
        simp only [addReplaceBody, Wrapper.find, Wrapper.found, Wrapper.acquire, Wrapper.touch,
          Wrapper.note,
          Wrapper.newData, Wrapper.deleteData, Wrapper.setSecond, Wrapper.release, found,
          Item.pair, stored,
          hasData, if_true, Bool.false_eq_true, if_false, Option.map_some, Option.bind_eq_bind,
          Option.bind_some]

theorem add_replace_new_goes (allowed : ¬ reserved key)
    (room : granted (present google w (.addReplaceNew key : Op Key Data)) memory
      (.addReplaceNew key : Op Key Data)) :
    Goes equal reserved valid google pairs blank variant memory w content (.addReplaceNew key) := by
  have hasData : memory.data = true := by
    rw [granted, Bool.and_eq_true] at room
    exact room.1
  rcases search_cases finite equivalence held allowed with
    ⟨missed, missing⟩ | ⟨item, rest, found, perm, equals, present⟩
  · have hasKey : memory.key = true := by
      simpa [granted, present, keyOf, Wrapper.found, missed, hasData] using room
    have holds := holds_index finite equivalence closed held fits allowed missing
      (equivalence.refl key) blank
    let after := (((w.acquire.newData blank).2.touch.newKey key).2.index google w.keys.fresh
      w.datas.fresh).release
    refine goes_iff.mpr ⟨after, .pointer (some w.datas.fresh), _, ?_, ⟨_, rfl, ?_⟩, holds⟩
    · simp only [performBody, addReplaceNewBody, Wrapper.find, Wrapper.found, Wrapper.acquire,
        Wrapper.touch,
        Wrapper.note, Wrapper.newData, Wrapper.newKey, missed, hasData, hasKey, if_true, after]
    · exact points_to_item (w := after) finite equivalence holds allowed (equivalence.refl key)
  · have turned := holds_perm equivalence held perm
    have stored : (w.datas.push blank).read item.cell = some item.value :=
      read_push_of_present (turned.stored item List.mem_cons_self) blank
    have holds := holds_set_second finite equivalence turned equals blank
    let after := { (w.acquire.touch.touch.setSecond google item.pointer w.datas.fresh).release with
      datas := (w.datas.push blank).giveUp item.cell }
    refine goes_iff.mpr ⟨after, .pointer (some w.datas.fresh), _, ?_, ⟨_, rfl, ?_⟩, holds⟩
    · simp only [performBody, addReplaceNewBody, Wrapper.find, Wrapper.found, Wrapper.acquire,
        Wrapper.touch,
        Wrapper.note, Wrapper.newData, Wrapper.deleteData, Wrapper.setSecond, Wrapper.release,
        found, Item.pair,
        stored, hasData, if_true, Option.map_some, Option.bind_eq_bind, Option.bind_some, after]
    · exact points_to_item (w := after) finite equivalence holds allowed equals

theorem holds_new_pair (allowed : ¬ reserved key) (missing : content key = none) (made : Data) :
    ∃ items, HoldsOn equal reserved valid pairs (withPair google w key made).values
        (withPair google w key made).keys
        (withPair google w key made).datas (assignNew equal content key made) items ∧
      PointsTo google (withPair google w key made) key w.datas.fresh made := by
  have holds := holds_index finite equivalence closed held fits allowed missing
    (equivalence.refl key) made
  have points := points_to_item (w := withPair google w key made) finite equivalence holds allowed
    (equivalence.refl key)
  rw [assign_new_missing missing]
  exact ⟨_, holds, points⟩

theorem add_noreplace_goes (allowed : ¬ reserved key)
    (room : granted (present google w (.addNoreplace key dat)) memory (.addNoreplace key dat))
    (given : content key = none → variant.stored dat = dat) :
    Goes equal reserved valid google pairs blank variant memory w content
    (.addNoreplace key dat) := by
  rcases search_cases finite equivalence held allowed with
    ⟨missed, missing⟩ | ⟨item, rest, found, perm, equals, present⟩
  · have space : memory.data = true ∧ memory.key = true := by
      simpa [granted, present, keyOf, Wrapper.found, missed] using room
    rcases holds_new_pair finite equivalence held closed fits allowed missing
        (variant.stored dat) with
      ⟨others, holds, points⟩
    rw [given missing] at holds
    refine goes_iff.mpr ⟨withPair google w key (variant.stored dat), .done true none,
      others, ?_, ?_, ?_⟩
    · simp only [performBody, addNoreplaceBody, Wrapper.find, Wrapper.found, Wrapper.acquire,
        Wrapper.touch,
        Wrapper.note, Wrapper.newData, Wrapper.newKey, missed, space.1, space.2, newPair, if_true,
        Option.map_some,
        Option.isSome_some, withPair]
    · simp only [Correct, missing]
      rfl
    · rw [given missing]
      exact holds
  · refine goes_iff.mpr ⟨w.acquire.touch.release, .done false none, items, ?_, ?_, ?_⟩
    · simp only [performBody, addNoreplaceBody, Wrapper.find, Wrapper.found, Wrapper.acquire,
        Wrapper.note, found]
    · simp only [Correct, present]
      rfl
    · rw [meaning, assign_new_present present]
      exact held

theorem add_noreplace_new_goes (allowed : ¬ reserved key)
    (room : granted (present google w (.addNoreplaceNew key : Op Key Data)) memory
      (.addNoreplaceNew key : Op Key Data)) :
    Goes equal reserved valid google pairs blank variant memory w content
    (.addNoreplaceNew key) := by
  rcases search_cases finite equivalence held allowed with
    ⟨missed, missing⟩ | ⟨item, rest, found, perm, equals, present⟩
  · have space : memory.data = true ∧ memory.key = true := by
      simpa [granted, present, keyOf, Wrapper.found, missed] using room
    rcases holds_new_pair finite equivalence held closed fits allowed missing blank with ⟨others,
      holds, points⟩
    refine goes_iff.mpr ⟨withPair google w key blank, .pointer (some w.datas.fresh), others,
      ?_, ?_, holds⟩
    · simp only [performBody, addNoreplaceNewBody, Wrapper.find, Wrapper.found, Wrapper.acquire,
        Wrapper.touch,
        Wrapper.note, Wrapper.newData, Wrapper.newKey, missed, space.1, space.2, newPair, if_true,
        Option.map_some,
        Option.isSome_some, withPair]
    · simp only [Correct, missing]
      exact ⟨_, rfl, points⟩
  · refine goes_iff.mpr ⟨w.acquire.touch.release, .pointer none, items, ?_, ?_, ?_⟩
    · simp only [performBody, addNoreplaceNewBody, Wrapper.find, Wrapper.found, Wrapper.acquire,
        Wrapper.note, found]
    · simp only [Correct, present]
    · rw [meaning, assign_new_present present]
      exact held

theorem find_or_new_goes (allowed : ¬ reserved key)
    (room : granted (present google w (.findOrNew key : Op Key Data)) memory
      (.findOrNew key : Op Key Data)) :
    Goes equal reserved valid google pairs blank variant memory w content (.findOrNew key) := by
  rcases search_cases finite equivalence held allowed with
    ⟨missed, missing⟩ | ⟨item, rest, found, perm, equals, present⟩
  · have space : memory.data = true ∧ memory.key = true := by
      simpa [granted, present, keyOf, Wrapper.found, missed] using room
    rcases holds_new_pair finite equivalence held closed fits allowed missing blank with ⟨others,
      holds, points⟩
    refine goes_iff.mpr ⟨withPair google w key blank, .pointer (some w.datas.fresh), others,
      ?_, ?_, holds⟩
    · simp only [performBody, findOrNewBody, Wrapper.find, Wrapper.found, Wrapper.acquire,
        Wrapper.touch,
        Wrapper.note, Wrapper.newData, Wrapper.newKey, missed, space.1, space.2, newPair, if_true,
        Option.map_some,
        Option.isSome_some, withPair]
    · simp only [Correct, missing]
      exact ⟨_, rfl, points⟩
  · have turned := holds_perm equivalence held perm
    refine goes_iff.mpr ⟨w.acquire.touch.touch.release, .pointer (some item.cell),
      item :: rest, ?_, ?_, ?_⟩
    · simp only [performBody, findOrNewBody, Wrapper.find, Wrapper.found, Wrapper.acquire,
        Wrapper.note, found,
        Item.pair]
    · simp only [Correct, present, Option.getD_some]
      exact ⟨_, rfl, points_to_item (w := w.acquire.touch.touch.release) finite equivalence turned
        allowed equals⟩
    · rw [meaning, assign_new_present present]
      exact turned

theorem perform_goes (op : Op Key Data) (allowed : ∀ key, keyOf op = some key → ¬ reserved key)
    (room : granted (present google w op) memory op)
    (given : present google w op = false → MakesGiven equal variant op) :
    Goes equal reserved valid google pairs blank variant memory w content op := by
  have unfound : ∀ key, keyOf op = some key → content key = none → present google w op = false := by
    intro key about missing
    rcases search_cases finite equivalence held (allowed key about) with ⟨missed, _⟩ | ⟨item, rest,
      _, _, _, here⟩
    · simp [present, about, Wrapper.found, missed]
    · rw [missing] at here
      cases here
  cases op with
  | addReplace key dat =>
      rcases add_replace_body_goes finite equivalence held closed memory dat fits false key
        (allowed key rfl) room
        (fun _ => equivalence.refl key) with ⟨after, others, performed, holds⟩
      exact goes_iff.mpr ⟨after, _, others, performed, rfl, holds⟩
  | addReplaceOld key dat =>
      rcases add_replace_body_goes finite equivalence held closed memory dat fits true
        (variant.oldKey key dat)
        (allowed key rfl) room (fun missing => given (unfound key rfl missing)) with
        ⟨after, others, performed, holds⟩
      exact goes_iff.mpr ⟨after, _, others, performed, rfl, holds⟩
  | addReplaceNew key =>
      exact add_replace_new_goes finite equivalence held closed blank variant memory fits
        (allowed key rfl) room
  | addNoreplace key dat =>
      exact add_noreplace_goes finite equivalence held closed blank variant memory dat fits
        (allowed key rfl) room
        (fun missing => given (unfound key rfl missing))
  | addNoreplaceNew key =>
      exact add_noreplace_new_goes finite equivalence held closed blank variant memory fits
        (allowed key rfl) room
  | findOrNew key =>
      exact find_or_new_goes finite equivalence held closed blank variant memory fits
        (allowed key rfl) room
  | findFill key =>
      exact find_fill_goes finite equivalence held blank variant memory (allowed key rfl)
  | find key => exact find_goes finite equivalence held blank variant memory (allowed key rfl)
  | remove key => exact remove_goes finite equivalence held blank variant memory (allowed key rfl)
  | removeFill key =>
      exact remove_fill_goes finite equivalence held blank variant memory (allowed key rfl)
  | removeAll => exact remove_all_goes finite equivalence held blank variant memory
  | size => exact size_goes finite held blank variant memory

end Adding

end Steps

/-! ## Every run -/

def Allowed (reserved : Key → Prop) : Call Key Data → Prop
  | .on op _ => ∀ key, keyOf op = some key → ¬ reserved key
  | .gotoStart | .releaseIter => True

/-- The allocator has memory, and what is made for a new key is what was given. -/
def Follows (google : GoogleMap Key Table) (equal : Key → Key → Bool) (variant : Variant Key Data)
    (w : Wrapper Key Data Table) : Call Key Data → Prop
  | .on op memory => granted (present google w op) memory op ∧
      (present google w op = false → MakesGiven equal variant op)
  | .gotoStart | .releaseIter => True

def callMeaning (equal : Key → Key → Bool) (blank : Data) (content : Content Key Data) :
    Call Key Data → Content Key Data
  | .on op _ => meaning equal blank content op
  | .gotoStart | .releaseIter => content

def CallCorrect (google : GoogleMap Key Table) (equal : Key → Key → Bool) (blank : Data)
    (content : Content Key Data) (after : Wrapper Key Data Table) (answer : Option (Answer Data)) :
    Call Key Data → Prop
  | .on op _ => ∃ given, answer = some given ∧ Correct google equal blank content after given op
  | .gotoStart | .releaseIter => answer = none

/-- The objects that the pairs of the table point to are the keys of the content with their
values. -/
def Agrees (equal : Key → Key → Bool) (pairs : Table → List (Nat × Nat))
    (w : Wrapper Key Data Table) (content : Content Key Data) : Prop :=
  ∃ items, ((pairs w.values).map fun pair => (w.keys.read pair.1, w.datas.read pair.2)).Perm
      (items.map fun item => (some item.1, some item.2)) ∧ Lists equal content items

def callInterface (google : GoogleMap Key Table) (equal : Key → Key → Bool) (blank : Data)
    (call : Wrapper Key Data Table → Call Key Data →
      Option (Wrapper Key Data Table × Option (Answer Data))) :
    Interface (Wrapper Key Data Table) (Content Key Data) (Call Key Data)
    (Option (Answer Data)) where
  perform := call
  meaning := callMeaning equal blank
  Correct content _ after answer next := CallCorrect google equal blank content after answer next

/-- No reserved key, memory for what is made, and what is made is what was given. -/
def Heeds (google : GoogleMap Key Table) (equal : Key → Key → Bool) (reserved : Key → Prop)
    (variant : Variant Key Data) (w : Wrapper Key Data Table) (_ : Content Key Data)
    (next : Call Key Data) : Prop :=
  Allowed reserved next ∧ Follows google equal variant w next

section Runs

variable {google : GoogleMap Key Table} {equal : Key → Key → Bool}
  {valid : (Nat → Option Key) → Table → Prop} {fitting : Table → Prop}
  {pairs : Table → List (Nat × Nat)} {reserved : Key → Prop} {blank : Data}
  {variant : Variant Key Data} {w : Wrapper Key Data Table} {content : Content Key Data}
  {items : List (Item Key Data)}

theorem holds_agrees (held : WrapperHolds equal reserved valid pairs w content items) :
    Agrees equal pairs w content := by
  refine ⟨items.map Item.entry, ?_, held.lists⟩
  apply (held.all.map _).trans
  rw [List.map_map, List.map_map]
  apply List.Perm.of_eq
  apply List.map_congr_left
  intro item member
  show (w.keys.read item.pointer, w.datas.read item.cell) = (some item.key, some item.value)
  rw [(held.named item member).1, held.stored item member]

theorem call_goes (finite : IsFiniteMapOn equal reserved google valid fitting pairs)
    (equivalence : Equivalence (SameKey equal)) (closed : ∀ left right, SameKey equal left right →
      reserved left → reserved right)
    (held : WrapperHolds equal reserved valid pairs w content items) {next : Call Key Data}
    (heeds : Heeds google equal reserved variant w content next) (fits : fitting w.values) :
    (callInterface google equal blank (callWith (performBody google blank variant))).Goes
      (WrapperHolds equal reserved valid pairs) w content next := by
  cases next with
  | on op memory =>
      rcases goes_iff.mp (perform_goes (w := { w with log := [] }) finite equivalence held closed
        blank variant memory
        fits op heeds.1 heeds.2.1 heeds.2.2) with ⟨after, answer, others, performed, correct, holds⟩
      refine ⟨after, some answer, others, ?_, ⟨answer, rfl, correct⟩, holds⟩
      change callWith (performBody google blank variant) w (.on op memory) = some (after,
        some answer)
      rw [callWith, performed, Option.map_some]
  | gotoStart => exact ⟨_, _, items, rfl, rfl, held⟩
  | releaseIter => exact ⟨_, _, items, rfl, rfl, held⟩

theorem calls_behave (finite : IsFiniteMapOn equal reserved google valid fitting pairs)
    (equivalence : Equivalence (SameKey equal)) (closed : ∀ left right, SameKey equal left right →
      reserved left → reserved right) (fits : ∀ table, fitting table)
    (held : WrapperHolds equal reserved valid pairs w content items)
    (calls : List (Call Key Data)) :
    (callInterface google equal blank (callWith (performBody google blank variant))).BehavesAs
      (Heeds google equal reserved variant) (Agrees equal pairs) w content calls := by
  refine Interface.run_behaves ?_ ?_ held calls
  · intro w content items held
    exact holds_agrees held
  · intro w content items next held heeds
    exact call_goes finite equivalence closed held heeds (fits w.values)

end Runs

/-! ## The two classes -/

section Classes

variable {google : GoogleMap Key Table} {hash : Key → BitVec 32} {equal : Key → Key → Bool}
  {pairs : Table → List (Nat × Nat)} {deletekey emptykey : Key}

/-- The two keys that a `TWDenseHash` is constructed with. -/
def DenseReserved (equal : Key → Key → Bool) (deletekey emptykey key : Key) : Prop :=
  SameKey equal key deletekey ∨ SameKey equal key emptykey

def SparseReserved (equal : Key → Key → Bool) (emptykey key : Key) : Prop :=
  SameKey equal key emptykey

theorem start_resized {reserved : Key → Prop} (finite : IsFiniteMap equal reserved google pairs)
    (items : Nat) :
    pairs (if items ≠ 0 then google.resize (fun _ => none) google.start items
      else google.start) = [] := by
  split_ifs with asked
  · have same := finite.resize items
    rw [finite.start] at same
    exact same.eq_nil
  · exact finite.start

theorem set_deleted_empty {reserved : Key → Prop} (finite : IsFiniteMap equal reserved google pairs)
    {table : Table} (empty : pairs table = []) (k : Nat) :
    pairs (google.setDeletedKey table k) = [] := by
  have keyed : Keyed equal reserved (fun _ => none) (pairs table) := by
    rw [empty]
    exact ⟨fun pair member => (by cases member), List.Pairwise.nil⟩
  have same := (finite.set_deleted_key _ table k trivial keyed).2
  rw [empty] at same
  exact same.eq_nil

theorem holds_nothing {reserved : Key → Prop} {valid : (Nat → Option Key) → Table → Prop}
    {values : Table} (empty : pairs values = []) {keys : Store Key}
    (sound : valid keys.read values) :
    HoldsOn equal reserved valid pairs values keys (Store.empty : Store Data)
      (fun _ => none) [] where
  all := by rw [empty]; rfl
  pointers := List.nodup_nil
  cells := List.nodup_nil
  named := fun item member => by cases member
  stored := fun item member => by cases member
  lists := lists_empty
  sound := sound

theorem dense_init_holds (finite : IsFiniteMap equal (DenseReserved equal deletekey emptykey)
    google pairs) (items : Nat) :
    WrapperHolds equal (DenseReserved equal deletekey emptykey) (fun _ _ => True) pairs
      (TWDenseHash.init google deletekey emptykey items : Wrapper Key Data Table)
      (fun _ => none) [] := by
  refine holds_nothing (set_deleted_empty finite ?_ 1) trivial
  have same := finite.set_empty_key (if items ≠ 0 then
    google.resize (fun _ => none) google.start items else google.start) 0
  rw [start_resized finite items] at same
  exact same.eq_nil

theorem sparse_init_holds (finite : IsFiniteMap equal (SparseReserved equal emptykey) google pairs)
    (items : Nat) :
    WrapperHolds equal (SparseReserved equal emptykey) (fun _ _ => True) pairs
      (TWSparseHash.init google emptykey items : Wrapper Key Data Table) (fun _ => none) [] :=
  holds_nothing (set_deleted_empty finite (start_resized finite items) 0) trivial

theorem dense_call_eq (google : GoogleMap Key Table) (blank : Data) :
    callWith (TWDenseHash.perform google blank) = callWith
    (performBody google blank (dense blank)) := by
  have same : TWDenseHash.perform google blank = performBody google blank (dense blank) := by
    funext memory w op
    exact dense_perform_eq google blank memory w op
  rw [same]

theorem sparse_call_eq (google : GoogleMap Key Table) (blank : Data) (asKey : Data → Key) :
    callWith (TWSparseHash.perform google blank asKey) =
    callWith (performBody google blank (sparse asKey)) := by
  have same : TWSparseHash.perform google blank asKey = performBody google blank
      (sparse asKey) := by
    funext memory w op
    exact sparse_perform_eq google blank asKey memory w op
  rw [same]

end Classes

end TWlib.GoogleHashRefinement
