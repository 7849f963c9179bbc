import TWlib.KHashRefinement

/-!
# The reference arguments of `TW_KHash_32`

A caller passes variables of its own for `dat`, `oldref` and `fill`, or the values that
`find` points to. `addReplace` of a key that the map has writes `oldref` and deletes the
old value before it copies `dat`, so that what is stored is not what was passed when
`dat` is `oldref`, and `dat` is read after its end when it is the old value. As long as
no reference gets in the way of another, the map is a finite map.
-/

namespace TWlib.KHashReferences

open TWlib.Lib.CellStore TWlib.Lib.FiniteMap TWlib.KHashTable TWlib.KHashSearch TWlib.KHashPairs
  TWlib.KHashMap
  TWlib.KHashRefinement

set_option autoImplicit false

variable {Key Data : Type}

/-! ## Calls -/

/-- A variable of the caller, or `*find(key)`. -/
inductive Argument (Key : Type) where
  | own (n : Nat)
  | found (key : Key)
deriving DecidableEq

inductive Call (Key : Type) where
  | addReplace (key : Key) (dat : Argument Key)
  | addReplaceOld (key : Key) (dat oldref : Argument Key)
  | addReplaceNew (key : Key)
  | addNoreplace (key : Key) (dat : Argument Key)
  | addNoreplaceNew (key : Key)
  | findOrNew (key : Key)
  | findFill (key : Key) (fill : Argument Key)
  | find (key : Key)
  | remove (key : Key)
  | removeFill (key : Key) (fill : Argument Key)
  | removeAll
  | size

/-- What the map did between two states of its caller. -/
def onMap (scope : Scope (KHash32 Key Data) Data) (done : Option (KHash32 Key Data × Answer Data)) :
    Option (Scope (KHash32 Key Data) Data × Answer Data) :=
  done.map fun (map, answer) => ({ scope with map }, answer)

section Perform

variable (hash : Key → BitVec 32) (equal : Key → Key → Bool) (blank : Data)

/-- There is no result when a null pointer is followed. -/
def pointed (map : KHash32 Key Data) : Argument Key → Option Ref
  | .own n => some (.own n)
  | .found key => do
      let (_, answer) ← find equal hash map key
      match answer with
      | .pointer (some cell) => some (.stored cell)
      | _ => none

def perform (scope : Scope (KHash32 Key Data) Data) :
    Call Key → Option (Scope (KHash32 Key Data) Data × Answer Data)
  | .addReplace key dat => do
      let dat ← pointed hash equal scope.map dat
      addReplace equal hash scope key dat
  | .addReplaceOld key dat oldref => do
      let dat ← pointed hash equal scope.map dat
      let oldref ← pointed hash equal scope.map oldref
      addReplaceOld equal hash scope key dat oldref
  | .addReplaceNew key => onMap scope (addReplaceNew equal hash blank scope.map key)
  | .addNoreplace key dat => do
      let dat ← pointed hash equal scope.map dat
      addNoreplace equal hash scope key dat
  | .addNoreplaceNew key => onMap scope (addNoreplaceNew equal hash blank scope.map key)
  | .findOrNew key => onMap scope (findOrNew equal hash blank scope.map key)
  | .findFill key fill => do
      let fill ← pointed hash equal scope.map fill
      findFill equal hash scope key fill
  | .find key => onMap scope (find equal hash scope.map key)
  | .remove key => onMap scope (remove equal hash scope.map key)
  | .removeFill key fill => do
      let fill ← pointed hash equal scope.map fill
      removeFill equal hash scope key fill
  | .removeAll => onMap scope (removeAll scope.map)
  | .size => onMap scope (some (size scope.map))

end Perform

/-! ## The meaning -/

/-- The content of a map and the values of its caller's variables. -/
structure Spec (Key Data : Type) where
  content : Content Key Data
  locals : Nat → Data

def Spec.value (spec : Spec Key Data) : Argument Key → Option Data
  | .own n => some (spec.locals n)
  | .found key => spec.content key

/-- The operation with the values that are passed. -/
def plain (spec : Spec Key Data) : Call Key → Option (Op Key Data)
  | .addReplace key dat => (spec.value dat).map (.addReplace key)
  | .addReplaceOld key dat _ => (spec.value dat).map (.addReplaceOld key)
  | .addReplaceNew key => some (.addReplaceNew key)
  | .addNoreplace key dat => (spec.value dat).map (.addNoreplace key)
  | .addNoreplaceNew key => some (.addNoreplaceNew key)
  | .findOrNew key => some (.findOrNew key)
  | .findFill key _ => some (.findFill key)
  | .find key => some (.find key)
  | .remove key => some (.remove key)
  | .removeFill key _ => some (.removeFill key)
  | .removeAll => some .removeAll
  | .size => some .size

/-- The argument to which the value of the key is assigned. -/
def written : Call Key → Option (Key × Argument Key)
  | .addReplaceOld key _ fill | .findFill key fill | .removeFill key fill => some (key, fill)
  | _ => none

/-- A variable gets the value of the key, if there is one. -/
def receive (locals : Nat → Data) (n : Nat) : Option Data → Nat → Data
  | some value => Function.update locals n value
  | none => locals

def localsAfter (spec : Spec Key Data) (call : Call Key) : Nat → Data :=
  match written call with
  | some (key, .own n) => receive spec.locals n (spec.content key)
  | _ => spec.locals

def meaning (equal : Key → Key → Bool) (blank : Data) (spec : Spec Key Data) (call : Call Key) :
    Spec Key Data :=
  match plain spec call with
  | some op => ⟨KHashRefinement.meaning equal blank spec.content op, localsAfter spec call⟩
  | none => spec

/-- The map with the variables of its caller, and the meaning of its calls. -/
def interface (hash : Key → BitVec 32) (equal : Key → Key → Bool) (blank : Data) :
    Interface (Scope (KHash32 Key Data) Data) (Spec Key Data) (Call Key) (Answer Data) where
  perform := perform hash equal blank
  meaning := meaning equal blank
  Correct spec before after answer call := ∃ op, plain spec call = some op ∧
    KHashRefinement.Correct hash equal blank spec.content before.map after.map answer op

def Agrees (equal : Key → Key → Bool) (scope : Scope (KHash32 Key Data) Data)
    (spec : Spec Key Data) :
    Prop :=
  KHashRefinement.Agrees equal scope.map spec.content ∧ scope.locals = spec.locals

/-! ## The conditions -/

def arguments : Call Key → List (Argument Key)
  | .addReplace _ dat | .addNoreplace _ dat => [dat]
  | .addReplaceOld _ dat oldref => [dat, oldref]
  | .findFill _ fill | .removeFill _ fill => [fill]
  | _ => []

/-- The table can grow, and `*find(key)` is passed of keys that the map has. -/
def Callable (scope : Scope (KHash32 Key Data) Data) (spec : Spec Key Data)
    (call : Call Key) : Prop :=
  scope.map.khashmap.nBuckets < 2 ^ 31 ∧ ∀ argument ∈ arguments call, (spec.value argument).isSome

/-- What is read of a key that the map has is delivered to a variable, or is there already. -/
def Delivers (equal : Key → Key → Bool) (content : Content Key Data) : Call Key → Prop
  | .addReplaceOld key _ oldref => (content key).isSome → ∃ n, oldref = .own n
  | .removeFill key fill => (content key).isSome → ∃ n, fill = .own n
  | .findFill key fill =>
      (content key).isSome → ∀ other, fill = .found other → SameKey equal key other
  | _ => True

/-- When a value is replaced, the new one is neither it nor in the variable that gets it. -/
def Copies (equal : Key → Key → Bool) (content : Content Key Data) : Call Key → Prop
  | .addReplace key dat =>
      (content key).isSome → ∀ other, dat = .found other → ¬ SameKey equal key other
  | .addReplaceOld key dat oldref =>
      (content key).isSome → dat ≠ oldref ∧ ∀ other, dat = .found other → ¬ SameKey equal key other
  | _ => True

def Heeds (equal : Key → Key → Bool) (scope : Scope (KHash32 Key Data) Data) (spec : Spec Key Data)
    (call : Call Key) : Prop :=
  Callable scope spec call ∧ Delivers equal spec.content call ∧ Copies equal spec.content call

/-! ## What the references lead to -/

variable {hash : Key → BitVec 32} {equal : Key → Key → Bool} {blank : Data}
  {scope : Scope (KHash32 Key Data) Data} {content : Content Key Data} {spec : Spec Key Data}
  {items rest : List (Item Key Data)} {item : Item Key Data} {key : Key} {value : Data}
  {dat fill : Ref}

/-- The reference that is passed for an argument. -/
inductive LeadsTo (equal : Key → Key → Bool) (items : List (Item Key Data)) :
    Argument Key → Ref → Prop where
  | own (n : Nat) : LeadsTo equal items (.own n) (.own n)
  | found {key : Key} {item : Item Key Data} (member : item ∈ items)
      (same : SameKey equal item.key key) :
      LeadsTo equal items (.found key) (.stored item.cell)

theorem pointed_eq (lawful : Lawful hash equal)
    (held : Holds hash equal scope.map spec.content items) (locals : scope.locals = spec.locals)
    {argument : Argument Key} (bound : spec.value argument = some value) :
    ∃ ref, pointed hash equal scope.map argument = some ref ∧ LeadsTo equal items argument ref ∧
      scope.read ref = some value := by
  cases argument with
  | own n =>
      refine ⟨.own n, rfl, .own n, ?_⟩
      rw [Scope.read, locals]
      exact bound
  | found other =>
      have present : spec.content other = some value := bound
      rcases search_cases lawful held other with ⟨_, missing⟩ | ⟨x, item, rest, _, perm,
        equals, _, here⟩
      · rw [present] at missing
        cases missing
      · have points := points_to_item lawful (holds_perm lawful held perm) equals
        refine ⟨.stored item.cell, ?_, .found (perm.mem_iff.mpr List.mem_cons_self) equals, ?_⟩
        · rw [pointed, points.1]
          rfl
        · rw [Scope.read, points.2, ← here, present]

theorem leads_perm {argument : Argument Key} (leads : LeadsTo equal items argument dat)
    {others : List (Item Key Data)} (perm : items.Perm others) :
    LeadsTo equal others argument dat := by
  cases leads with
  | own n => exact .own n
  | found member same => exact .found (perm.mem_iff.mp member) same

theorem leads_elsewhere (lawful : Lawful hash equal)
    (held : Holds hash equal scope.map content (item :: rest)) (equals : SameKey equal item.key key)
    {argument : Argument Key} (leads : LeadsTo equal (item :: rest) argument dat)
    (differ : ∀ other, argument = .found other → ¬ SameKey equal key other) :
    dat ≠ .stored item.cell := by
  cases leads with
  | own n => rintro ⟨⟩
  | @found other found member same =>
      intro clash
      have sameCell : found.cell = item.cell := Ref.stored.inj clash
      rcases List.mem_cons.mp member with rfl | later
      · exact differ other rfl (lawful.equivalence.trans (lawful.equivalence.symm equals) same)
      · exact cell_unread held found later sameCell

/-! ## By reference and by value -/

theorem scope_replace_eq {k cell : Nat} (old : cellAt scope.map.khashmap.vals k = some cell)
    (apart : dat ≠ .stored cell) (read : scope.read dat = some value) :
    scope.replaceValue k dat = (replaceValue scope.map k value).map fun map =>
    { scope with map } := by
  have still : ∀ heap, deleteValue scope.map.heap cell = some heap →
      ({ scope with map := { scope.map with heap } } : Scope (KHash32 Key Data) Data).read dat =
      some value := by
    intro heap deleted
    rcases Option.map_eq_some_iff.mp deleted with ⟨gone, _, same⟩
    cases same
    cases dat with
    | own n => exact read
    | stored other =>
        have differ : other ≠ cell := fun same => apart (congrArg Ref.stored same)
        change (scope.map.heap.giveUp cell).read other = some value
        rw [read_give_up, if_neg differ]
        exact read
  simp only [Scope.replaceValue, replaceValue, old, Option.bind_eq_bind, Option.bind_some]
  cases deleted : deleteValue scope.map.heap cell with
  | none => rfl
  | some heap =>
      simp only [Option.bind_some, still heap deleted]
      cases newValue { scope.map with heap } k value <;> rfl

section Missed

variable (missed : khGet equal hash scope.map.khashmap key = some scope.map.khashmap.nBuckets)

include missed

theorem add_replace_missed (read : scope.read dat = some value) :
    addReplace equal hash scope key dat = onMap scope
    (addReplaceByValue equal hash scope.map key value) := by
  simp only [addReplace, add_replace_by_value_eq, onMap, missed, read, ne_eq,
    not_true_eq_false, if_false,
    Option.bind_eq_bind, Option.bind_some, Option.map_bind]
  rfl

theorem add_replace_old_missed (read : scope.read dat = some value) (fill : Ref) :
    addReplaceOld equal hash scope key dat fill =
      onMap scope (addReplaceOldByValue equal hash scope.map key value) := by
  simp only [addReplaceOld, add_replace_old_by_value_eq, onMap, missed, read, ne_eq,
    not_true_eq_false, if_false,
    Option.bind_eq_bind, Option.bind_some, Option.map_bind]
  rfl

theorem remove_fill_missed (fill : Ref) :
    removeFill equal hash scope key fill = onMap scope
    (removeFillByValue equal hash blank scope.map key) := by
  simp only [removeFill, remove_fill_by_value_eq, onMap, missed, ne_eq, not_true_eq_false, if_false,
    Option.bind_eq_bind, Option.bind_some, Option.map_some]

theorem find_fill_missed (fill : Ref) :
    findFill equal hash scope key fill = onMap scope
    (findFillByValue equal hash blank scope.map key) := by
  simp only [findFill, find_fill_by_value_eq, onMap, missed, ne_eq, not_true_eq_false, if_false,
    Option.bind_eq_bind, Option.bind_some, Option.map_some]

end Missed

theorem add_noreplace_eq (read : scope.read dat = some value) :
    addNoreplace equal hash scope key dat = onMap scope
    (addNoreplaceByValue equal hash scope.map key value) := by
  simp only [addNoreplace, add_noreplace_by_value_eq, onMap, read, Option.bind_eq_bind,
    Option.bind_some,
    Option.map_bind, Function.comp_def, apply_ite (Option.map _), Option.map_some]

section Found

variable {k cell : Nat} {old : Data} (got : khGet equal hash scope.map.khashmap key = some k)
  (inside : k ≠ scope.map.khashmap.nBuckets) (holds : cellAt scope.map.khashmap.vals k = some cell)
  (stored : scope.map.heap.read cell = some old)

include got inside holds

theorem add_replace_found (apart : dat ≠ .stored cell) (read : scope.read dat = some value) :
    addReplace equal hash scope key dat = onMap scope
    (addReplaceByValue equal hash scope.map key value) := by
  simp only [addReplace, add_replace_by_value_eq, onMap, got, inside,
    scope_replace_eq holds apart read, ne_eq,
    not_false_eq_true, if_true, Option.bind_eq_bind, Option.bind_some, Option.map_bind,
    Option.bind_map]
  rfl

include stored

/-- The old value goes to a variable that `dat` is not. -/
theorem add_replace_old_found {n : Nat} (differ : dat ≠ .own n) (apart : dat ≠ .stored cell)
    (read : scope.read dat = some value) :
    addReplaceOld equal hash scope key dat (.own n) =
      onMap ⟨scope.map, Function.update scope.locals n old⟩
        (addReplaceOldByValue equal hash scope.map key value) := by
  have still : Scope.read ⟨scope.map, Function.update scope.locals n old⟩ dat = some value := by
    cases dat with
    | own m =>
        have other : m ≠ n := fun same => differ (congrArg Ref.own same)
        change some (Function.update scope.locals n old m) = some value
        rw [Function.update_of_ne other]
        exact read
    | stored other => exact read
  have replaced : Scope.replaceValue ⟨scope.map, Function.update scope.locals n old⟩ k dat =
      (replaceValue scope.map k value).map fun map => ⟨map, Function.update scope.locals n old⟩ :=
    @scope_replace_eq _ _ ⟨_, Function.update scope.locals n old⟩ value dat k cell holds apart still
  simp only [addReplaceOld, add_replace_old_by_value_eq, onMap, got, inside, holds, stored,
    Scope.assign, replaced,
    ne_eq, not_false_eq_true, if_true, Option.bind_eq_bind, Option.bind_some, Option.map_bind,
    Option.bind_map]
  rfl

theorem remove_fill_found (n : Nat) :
    removeFill equal hash scope key (.own n) =
      onMap ⟨scope.map, Function.update scope.locals n old⟩
        (removeFillByValue equal hash blank scope.map key) := by
  simp only [removeFill, remove_fill_by_value_eq, onMap, got, inside, holds, stored,
    Scope.assign, ne_eq,
    not_false_eq_true, if_true, Option.bind_eq_bind, Option.bind_some, Option.map_bind,
    Function.comp_def,
    Option.map_some]

theorem find_fill_found (n : Nat) :
    findFill equal hash scope key (.own n) =
      onMap ⟨scope.map, Function.update scope.locals n old⟩
      (findFillByValue equal hash blank scope.map key) := by
  simp only [findFill, find_fill_by_value_eq, onMap, got, inside, holds, stored,
    Scope.assign, ne_eq,
    not_false_eq_true, if_true, Option.bind_eq_bind, Option.bind_some, Option.map_some]

theorem find_fill_itself :
    findFill equal hash scope key (.stored cell) =
      onMap scope (findFillByValue equal hash blank scope.map key) := by
  have same : scope.map.heap.write cell old = scope.map.heap := write_same stored
  simp only [findFill, find_fill_by_value_eq, onMap, got, inside, holds, stored, Scope.assign,
    same, ne_eq,
    not_false_eq_true, if_true, Option.bind_eq_bind, Option.bind_some, Option.map_some]

end Found

/-! ## One call -/

/-- The map holds the items, and the caller's variables have the values that are known. -/
def ScopeHolds (hash : Key → BitVec 32) (equal : Key → Key → Bool)
    (scope : Scope (KHash32 Key Data) Data) (spec : Spec Key Data) (items : List (Item Key Data)) :
    Prop :=
  Holds hash equal scope.map spec.content items ∧ scope.locals = spec.locals

theorem goes_of_plain (lawful : Lawful hash equal)
    (held : Holds hash equal scope.map spec.content items)
    (bounded : scope.map.khashmap.nBuckets < 2 ^ 31) {call : Call Key} {op : Op Key Data}
    (means : plain spec call = some op) {locals : Nat → Data}
      (after : locals = localsAfter spec call) (performs : perform hash equal blank scope call =
      onMap ⟨scope.map, locals⟩ (KHashRefinement.perform hash equal blank scope.map op)) :
    (interface hash equal blank).Goes (ScopeHolds hash equal) scope spec call := by
  rcases perform_goes lawful held blank op (fun _ _ _ => Or.inl bounded) with
    ⟨map, answer, others, performed, correct, holds⟩
  have done : KHashRefinement.perform hash equal blank scope.map op = some (map, answer) :=
    performed
  refine ⟨⟨map, locals⟩, answer, others, ?_, ⟨op, means, correct⟩, ?_⟩
  · change perform hash equal blank scope call = _
    rw [performs, done]
    rfl
  · change ScopeHolds hash equal _ (meaning equal blank spec call) others
    rw [meaning, means]
    exact ⟨holds, after⟩

theorem locals_missing {call : Call Key} {argument : Argument Key}
    (writes : written call = some (key, argument)) (missing : spec.content key = none) :
    localsAfter spec call = spec.locals := by
  rw [localsAfter, writes]
  cases argument with
  | own n => simp only [missing, receive]
  | found other => rfl

theorem locals_received {call : Call Key} {n : Nat} (writes : written call = some (key, .own n))
    (present : spec.content key = some value) {before : Nat → Data}
    (locals : before = spec.locals) :
    Function.update before n value = localsAfter spec call := by
  rw [localsAfter, writes, locals]
  simp only [present, receive]

section Steps

variable (lawful : Lawful hash equal) (held : Holds hash equal scope.map spec.content items)
  (locals : scope.locals = spec.locals) (bounded : scope.map.khashmap.nBuckets < 2 ^ 31)

include lawful held locals bounded

theorem add_replace_goes {argument : Argument Key} (bound : (spec.value argument).isSome)
    (copies : Copies equal spec.content (.addReplace key argument)) :
    (interface hash equal blank).Goes (ScopeHolds hash equal) scope spec
    (.addReplace key argument) := by
  rcases Option.isSome_iff_exists.mp bound with ⟨value, given⟩
  rcases pointed_eq lawful held locals given with ⟨dat, pointed, leads, read⟩
  have means : plain spec (.addReplace key argument) =
    some (.addReplace key value) := by rw [plain, given]; rfl
  apply goes_of_plain lawful held bounded means locals
  rw [perform, pointed]
  rcases search_cases lawful held key with ⟨missed, _⟩ | ⟨k, item, rest, got, perm, equals,
    bucket, present⟩
  · exact add_replace_missed missed read
  · have known : (spec.content key).isSome := by rw [present]; rfl
    have apart := leads_elsewhere lawful (holds_perm lawful held perm) equals
      (leads_perm leads perm) (copies known)
    exact add_replace_found got bucket.inside bucket.value apart read

theorem add_replace_old_goes {argument out : Argument Key} (bound : (spec.value argument).isSome)
    (outBound : (spec.value out).isSome)
    (delivers : Delivers equal spec.content (.addReplaceOld key argument out))
    (copies : Copies equal spec.content (.addReplaceOld key argument out)) :
    (interface hash equal blank).Goes (ScopeHolds hash equal) scope spec
    (.addReplaceOld key argument out) := by
  rcases Option.isSome_iff_exists.mp bound with ⟨value, given⟩
  rcases Option.isSome_iff_exists.mp outBound with ⟨before, outGiven⟩
  rcases pointed_eq lawful held locals given with ⟨dat, isPointed, leads, read⟩
  rcases pointed_eq lawful held locals outGiven with ⟨fill, outPointed, outLeads, _⟩
  have means : plain spec (.addReplaceOld key argument out) = some (.addReplaceOld key value) := by
    rw [plain, given]
    rfl
  have performs : perform hash equal blank scope (.addReplaceOld key argument out) =
      addReplaceOld equal hash scope key dat fill := by
    rw [perform, isPointed, outPointed]
    rfl
  rcases search_cases lawful held key with ⟨missed, missing⟩ | ⟨k, item, rest, got, perm, equals,
    bucket, present⟩
  · apply goes_of_plain lawful held bounded means (locals.trans (locals_missing rfl missing).symm)
    rw [performs, add_replace_old_missed missed read]
    rfl
  · have known : (spec.content key).isSome := by rw [present]; rfl
    have turned := holds_perm lawful held perm
    rcases delivers known with ⟨n, rfl⟩
    rcases copies known with ⟨differ, elsewhere⟩
    cases outLeads
    have notOut : dat ≠ .own n := by
      intro same
      subst same
      cases leads
      exact differ rfl
    have stored := turned.stored item List.mem_cons_self
    apply goes_of_plain lawful held bounded means (locals_received rfl present locals)
    rw [performs, add_replace_old_found got bucket.inside bucket.value stored notOut
      (leads_elsewhere lawful turned equals (leads_perm leads perm) elsewhere) read]
    rfl

theorem add_noreplace_goes {argument : Argument Key} (bound : (spec.value argument).isSome) :
    (interface hash equal blank).Goes (ScopeHolds hash equal) scope spec
    (.addNoreplace key argument) := by
  rcases Option.isSome_iff_exists.mp bound with ⟨value, given⟩
  rcases pointed_eq lawful held locals given with ⟨dat, isPointed, leads, read⟩
  have means : plain spec (.addNoreplace key argument) =
    some (.addNoreplace key value) := by rw [plain, given]; rfl
  apply goes_of_plain lawful held bounded means locals
  rw [perform, isPointed]
  exact add_noreplace_eq read

theorem remove_fill_goes {out : Argument Key} (outBound : (spec.value out).isSome)
    (delivers : Delivers equal spec.content (.removeFill key out)) :
    (interface hash equal blank).Goes (ScopeHolds hash equal) scope spec (.removeFill key out) := by
  rcases Option.isSome_iff_exists.mp outBound with ⟨before, outGiven⟩
  rcases pointed_eq lawful held locals outGiven with ⟨fill, outPointed, outLeads, _⟩
  have performs : perform hash equal blank scope (.removeFill key out) =
      removeFill equal hash scope key fill := by
    rw [perform, outPointed]
    rfl
  rcases search_cases lawful held key with ⟨missed, missing⟩ | ⟨k, item, rest, got, perm, equals,
    bucket, present⟩
  · apply goes_of_plain lawful held bounded rfl (locals.trans (locals_missing rfl missing).symm)
    rw [performs]
    exact remove_fill_missed missed fill
  · have known : (spec.content key).isSome := by rw [present]; rfl
    have stored := (holds_perm lawful held perm).stored item List.mem_cons_self
    rcases delivers known with ⟨n, rfl⟩
    cases outLeads
    apply goes_of_plain lawful held bounded rfl (locals_received rfl present locals)
    rw [performs]
    exact remove_fill_found got bucket.inside bucket.value stored n

theorem find_fill_goes {out : Argument Key} (outBound : (spec.value out).isSome)
    (delivers : Delivers equal spec.content (.findFill key out)) :
    (interface hash equal blank).Goes (ScopeHolds hash equal) scope spec (.findFill key out) := by
  rcases Option.isSome_iff_exists.mp outBound with ⟨before, outGiven⟩
  rcases pointed_eq lawful held locals outGiven with ⟨fill, outPointed, outLeads, _⟩
  have performs : perform hash equal blank scope (.findFill key out) =
      findFill equal hash scope key fill := by
    rw [perform, outPointed]
    rfl
  rcases search_cases lawful held key with ⟨missed, missing⟩ | ⟨k, item, rest, got, perm, equals,
    bucket, present⟩
  · apply goes_of_plain lawful held bounded rfl (locals.trans (locals_missing rfl missing).symm)
    rw [performs]
    exact find_fill_missed missed fill
  · have known : (spec.content key).isSome := by rw [present]; rfl
    have turned := holds_perm lawful held perm
    have stored := turned.stored item List.mem_cons_self
    cases leads_perm outLeads perm with
    | own n =>
        apply goes_of_plain lawful held bounded rfl (locals_received rfl present locals)
        rw [performs]
        exact find_fill_found got bucket.inside bucket.value stored n
    | @found other item' member same =>
        have itself : item' = item := by
          rcases List.mem_cons.mp member with here | later
          · exact here
          · have equalsToo :=
              lawful.equivalence.trans same (lawful.equivalence.symm (delivers known other rfl))
            exact absurd equalsToo
              (rest_apart lawful.equivalence turned.lists equals item'.entry
                (List.mem_map_of_mem later))
        subst itself
        apply goes_of_plain lawful held bounded rfl locals
        rw [performs]
        exact find_fill_itself got bucket.inside bucket.value stored

theorem call_goes (call : Call Key)
    (bound : ∀ argument ∈ arguments call, (spec.value argument).isSome)
    (delivers : Delivers equal spec.content call) (copies : Copies equal spec.content call) :
    (interface hash equal blank).Goes (ScopeHolds hash equal) scope spec call := by
  cases call with
  | addReplace key dat =>
      exact add_replace_goes lawful held locals bounded (bound dat List.mem_cons_self) copies
  | addReplaceOld key dat oldref =>
      exact add_replace_old_goes lawful held locals bounded (bound dat List.mem_cons_self)
        (bound oldref (List.mem_cons_of_mem _ List.mem_cons_self)) delivers copies
  | addNoreplace key dat =>
      exact add_noreplace_goes lawful held locals bounded (bound dat List.mem_cons_self)
  | removeFill key fill =>
      exact remove_fill_goes lawful held locals bounded (bound fill List.mem_cons_self) delivers
  | findFill key fill =>
      exact find_fill_goes lawful held locals bounded (bound fill List.mem_cons_self) delivers
  | addReplaceNew | addNoreplaceNew | findOrNew | find | remove | removeAll | size =>
      exact goes_of_plain lawful held bounded rfl locals rfl

end Steps

/-! ## Every run -/

/-- Keys with the same remainder have the same hash. -/
abbrev remainders : Interface (Scope (KHash32 Nat Nat) Nat) (Spec Nat Nat) (Call Nat)
    (Answer Nat) :=
  interface (fun key => BitVec.ofNat 32 (key % 4)) (fun left right => left == right) 0

end TWlib.KHashReferences
