import TWlib.GoogleHashRefinement
import TWlib.KHashReferences

/-!
# `TWDenseHash` in the place of `TW_KHash_32`

The same calls, with the same references, on both maps. `TWDenseHash` copies `dat`
before it changes anything, and assigns `olddat` and `fill` before it deletes what they
may refer to, so that the operation by value says what it does with its references. It
goes as the finite map, and as `TW_KHash_32` as long as no reference gets in the way of
that one.
-/

namespace TWlib.DenseHashReferences

open TWlib.Lib.CellStore TWlib.Lib.FiniteMap TWlib.KHashMap TWlib.KHashRefinement
  TWlib.KHashReferences
  TWlib.GoogleHash TWlib.GoogleHashRefinement

set_option autoImplicit false

variable {Key Data Table : Type}

/-! ## Calls -/

/-- A call of an operation, or of what an iterator calls. -/
inductive DenseCall (Key : Type) where
  | on (call : KHashReferences.Call Key) (memory : Memory)
  | gotoStart
  | releaseIter

section Perform

variable (google : GoogleMap Key Table) (blank : Data) (scope : Scope (Wrapper Key Data Table) Data)

/-- There is no result when a null pointer is followed. -/
def pointed : Argument Key → Option Ref
  | .own n => some (.own n)
  | .found key => do
      let (_, answer) ← TWDenseHash.find google scope.map key
      match answer with
      | .pointer (some cell) => some (.stored cell)
      | _ => none

def read : Ref → Option Data
  | .own n => some (scope.locals n)
  | .stored cell => scope.map.datas.read cell

def passed (argument : Argument Key) : Option Data :=
  (pointed google scope argument).bind (read scope)

/-- The operation with the values that are passed. -/
def passedOp : KHashReferences.Call Key → Option (Op Key Data)
  | .addReplace key dat => (passed google scope dat).map (.addReplace key)
  | .addReplaceOld key dat _ => (passed google scope dat).map (.addReplaceOld key)
  | .addReplaceNew key => some (.addReplaceNew key)
  | .addNoreplace key dat => (passed google scope dat).map (.addNoreplace key)
  | .addNoreplaceNew key => some (.addNoreplaceNew key)
  | .findOrNew key => some (.findOrNew key)
  | .findFill key _ => some (.findFill key)
  | .find key => some (.find key)
  | .remove key => some (.remove key)
  | .removeFill key _ => some (.removeFill key)
  | .removeAll => some .removeAll
  | .size => some .size

/-- `olddat = ..`, `fill = ..`; what is assigned to an object that is deleted then is gone with
it. -/
def assign (dat : Data) : Ref → Scope (Wrapper Key Data Table) Data
  | .own n => { scope with locals := Function.update scope.locals n dat }
  | .stored cell =>
      match scope.map.datas.read cell with
      | some _ => { scope with map := { scope.map with datas := scope.map.datas.write cell dat } }
      | none => scope

/-- The argument that is written gets what the operation has read. -/
def deliver (map : Wrapper Key Data Table) (answer : Answer Data) :
    Option (Key × Argument Key) → Option (Scope (Wrapper Key Data Table) Data × Answer Data)
  | none => some ({ scope with map }, answer)
  | some (_, argument) => do
      let fill ← pointed google scope argument
      match answer with
      | .done _ (some value) => some (assign { scope with map } value fill, answer)
      | _ => some ({ scope with map }, answer)

def performOn (memory : Memory) (call : KHashReferences.Call Key) :
    Option (Scope (Wrapper Key Data Table) Data × Answer Data) := do
  let op ← passedOp google scope call
  let (map, answer) ← TWDenseHash.perform google blank memory { scope.map with log := [] } op
  deliver google scope map answer (written call)

def perform : DenseCall Key → Option (Scope (Wrapper Key Data Table) Data × Option (Answer Data))
  | .on call memory =>
      (performOn google blank scope memory call).map fun (scope, answer) => (scope, some answer)
  | .gotoStart => some ({ scope with map := gotoStart { scope.map with log := [] } }, none)
  | .releaseIter => some ({ scope with map := releaseIter { scope.map with log := [] } }, none)

end Perform

/-! ## The meaning -/

def meaning (equal : Key → Key → Bool) (blank : Data) (spec : Spec Key Data) :
    DenseCall Key → Spec Key Data
  | .on call _ => KHashReferences.meaning equal blank spec call
  | .gotoStart | .releaseIter => spec

def interface (google : GoogleMap Key Table) (equal : Key → Key → Bool) (blank : Data) :
    Interface (Scope (Wrapper Key Data Table) Data) (Spec Key Data) (DenseCall Key)
    (Option (Answer Data)) where
  perform := perform google blank
  meaning := meaning equal blank
  Correct spec _ after answer
    | .on call _ => ∃ op given, plain spec call = some op ∧ answer = some given ∧
        GoogleHashRefinement.Correct google equal blank spec.content after.map given op
    | .gotoStart | .releaseIter => answer = none

/-- The same calls on `TW_KHash_32`, which has no calls for iterators. -/
def khash (hash : Key → BitVec 32) (equal : Key → Key → Bool) (blank : Data) :
    Interface (Scope (KHash32 Key Data) Data) (Spec Key Data) (DenseCall Key)
    (Option (Answer Data)) where
  perform scope
    | .on call _ =>
        (KHashReferences.perform hash equal blank scope call).map fun (scope, answer) =>
          (scope, some answer)
    | .gotoStart | .releaseIter => some (scope, none)
  meaning := meaning equal blank
  Correct spec before after answer
    | .on call _ => ∃ given, answer = some given ∧
        (KHashReferences.interface hash equal blank).Correct spec before after given call
    | .gotoStart | .releaseIter => answer = none

def Agrees (equal : Key → Key → Bool) (pairs : Table → List (Nat × Nat))
    (scope : Scope (Wrapper Key Data Table) Data) (spec : Spec Key Data) : Prop :=
  GoogleHashRefinement.Agrees equal pairs scope.map spec.content ∧ scope.locals = spec.locals

/-- `*find(key)` is passed of keys that the map has, what is read is delivered to a variable, and
the operation has a key that is not reserved, the memory it needs and makes what was given. -/
def Heeds (google : GoogleMap Key Table) (equal : Key → Key → Bool) (reserved : Key → Prop)
    (blank : Data) (scope : Scope (Wrapper Key Data Table) Data) (spec : Spec Key Data) :
    DenseCall Key → Prop
  | .on call memory => (∀ argument ∈ arguments call, (spec.value argument).isSome) ∧
      Delivers equal spec.content call ∧
      ∀ op, plain spec call = some op →
        GoogleHashRefinement.Heeds google equal reserved (dense blank) scope.map spec.content
        (.on op memory)
  | .gotoStart | .releaseIter => True

def BothHeed (google : GoogleMap Key Table) (equal : Key → Key → Bool) (reserved : Key → Prop)
    (blank : Data) (scope : Scope (Wrapper Key Data Table) Data)
    (twin : Scope (KHash32 Key Data) Data) (spec : Spec Key Data) (next : DenseCall Key) : Prop :=
  Heeds google equal reserved blank scope spec next ∧
    ∀ call memory, next = .on call memory → KHashReferences.Heeds equal twin spec call

/-- The same flags and values; pointers are both null or point to the same data. -/
def SameAnswer (datas others : Store Data) : Answer Data → Answer Data → Prop
  | .pointer ret, .pointer other =>
      ret.isSome = other.isSome ∧ ret.bind datas.read = other.bind others.read
  | answer, other => answer = other

def Alike (scope : Scope (Wrapper Key Data Table) Data) (twin : Scope (KHash32 Key Data) Data) :
    Option (Answer Data) → Option (Answer Data) → Prop
  | some answer, some other =>
      SameAnswer scope.map.datas twin.map.heap answer other ∧ scope.locals = twin.locals
  | answer, other => answer = other ∧ scope.locals = twin.locals

/-! ## One call -/

/-- The map holds the items, and the caller's variables have the values that are known. -/
def ScopeHolds (equal : Key → Key → Bool) (reserved : Key → Prop)
    (valid : (Nat → Option Key) → Table → Prop) (pairs : Table → List (Nat × Nat))
    (scope : Scope (Wrapper Key Data Table) Data) (spec : Spec Key Data)
    (items : List (GoogleHashRefinement.Item Key Data)) :
    Prop :=
  WrapperHolds equal reserved valid pairs scope.map spec.content items ∧ scope.locals = spec.locals

section Steps

variable {google : GoogleMap Key Table} {equal : Key → Key → Bool}
  {valid : (Nat → Option Key) → Table → Prop} {fitting : Table → Prop}
  {pairs : Table → List (Nat × Nat)} {reserved : Key → Prop} {blank : Data}
  {scope : Scope (Wrapper Key Data Table) Data} {spec : Spec Key Data}
  {items : List (GoogleHashRefinement.Item Key Data)} {call : KHashReferences.Call Key}
  {op : Op Key Data} {after : Wrapper Key Data Table} {answer : Answer Data} {key : Key}
  {value : Data}

theorem known_allowed (closed : ∀ left right, SameKey equal left right → reserved left →
    reserved right)
    (equivalence : Equivalence (SameKey equal))
    (held : ScopeHolds equal reserved valid pairs scope spec items)
    (present : spec.content key = some value) : ¬ reserved key := by
  rcases (held.1.lists.known key value).mp present with ⟨entry, member, equals, _⟩
  rcases List.mem_map.mp member with ⟨item, here, rfl⟩
  intro isReserved
  exact (held.1.named item here).2 (closed _ _ (equivalence.symm equals) isReserved)

theorem pointed_eq (finite : IsFiniteMapOn equal reserved google valid fitting pairs)
    (equivalence : Equivalence (SameKey equal)) (closed : ∀ left right, SameKey equal left right →
      reserved left → reserved right)
    (held : ScopeHolds equal reserved valid pairs scope spec items) {argument : Argument Key}
    (bound : spec.value argument = some value) :
    ∃ ref, pointed google scope argument = some ref ∧ read scope ref = some value := by
  cases argument with
  | own n =>
      refine ⟨.own n, rfl, ?_⟩
      rw [read, held.2]
      exact bound
  | found key =>
      have present : spec.content key = some value := bound
      have allowed := known_allowed closed equivalence held present
      rcases search_cases finite equivalence held.1 allowed with
        ⟨_, missing⟩ | ⟨item, rest, found, perm, _, here⟩
      · rw [present] at missing
        cases missing
      · have stored := held.1.stored item (perm.mem_iff.mpr List.mem_cons_self)
        refine ⟨.stored item.cell, ?_, ?_⟩
        · simp only [pointed, TWDenseHash.find, findBody, Wrapper.find, Wrapper.found, found,
            GoogleHashRefinement.Item.pair, Option.bind_eq_bind, Option.bind_some]
        · rw [read, stored, ← here, present]

theorem pointed_found {ref : Ref} (points : pointed google scope (.found key) = some ref) :
    ∃ cell, ref = .stored cell := by
  rcases Option.bind_eq_some_iff.mp points with ⟨⟨_, answer⟩, _, points⟩
  cases answer with
  | done ret fill => cases points
  | count ret => cases points
  | pointer ret =>
      cases ret with
      | none => cases points
      | some cell =>
          cases points
          exact ⟨cell, rfl⟩

theorem passed_op_eq (finite : IsFiniteMapOn equal reserved google valid fitting pairs)
    (equivalence : Equivalence (SameKey equal)) (closed : ∀ left right, SameKey equal left right →
      reserved left → reserved right)
    (held : ScopeHolds equal reserved valid pairs scope spec items)
    (bound : ∀ argument ∈ arguments call, (spec.value argument).isSome) :
    passedOp google scope call = plain spec call := by
  have passes : ∀ argument ∈ arguments call, passed google scope argument =
      spec.value argument := by
    intro argument member
    rcases Option.isSome_iff_exists.mp (bound argument member) with ⟨value, given⟩
    rcases pointed_eq finite equivalence closed held given with ⟨ref, points, reads⟩
    rw [passed, points, Option.bind_some, reads, given]
  cases call with
  | addReplace key dat | addReplaceOld key dat oldref | addNoreplace key dat =>
      rw [passedOp, plain, passes dat List.mem_cons_self]
  | addReplaceNew | addNoreplaceNew | findOrNew | findFill | find | remove | removeFill | removeAll
      | size => rfl

theorem plain_some (bound : ∀ argument ∈ arguments call, (spec.value argument).isSome) :
    ∃ op, plain spec call = some op := by
  cases call with
  | addReplace key dat | addReplaceOld key dat oldref | addNoreplace key dat =>
      rcases Option.isSome_iff_exists.mp (bound dat List.mem_cons_self) with ⟨value, given⟩
      rw [plain, given]
      exact ⟨_, rfl⟩
  | addReplaceNew | addNoreplaceNew | findOrNew | findFill | find | remove | removeFill
      | removeAll | size =>
      exact ⟨_, rfl⟩

theorem find_fill_datas {w : Wrapper Key Data Table}
    (performed : findFillBody google w key = some (after, answer)) :
    after.datas = w.datas := by
  rw [findFillBody, Wrapper.find] at performed
  cases found : w.found google key with
  | none =>
      rw [found] at performed
      cases performed
      rfl
  | some it =>
      rw [found] at performed
      rcases Option.bind_eq_some_iff.mp performed with ⟨value, _, same⟩
      cases same
      rfl

theorem deliver_missing {argument : Argument Key} {ref : Ref}
    (points : pointed google scope argument = some ref) (ret : Bool) :
      deliver google scope after (.done ret none) (some (key, argument)) =
      some (⟨after, scope.locals⟩, .done ret none) := by
  simp only [deliver, points, Option.bind_eq_bind, Option.bind_some]

theorem deliver_itself {argument : Argument Key} {cell : Nat}
    (points : pointed google scope argument = some (.stored cell)) (ret : Bool)
    (stored : after.datas.read cell = some value) :
    deliver google scope after (.done ret (some value)) (some (key, argument)) =
      some (⟨after, scope.locals⟩, .done ret (some value)) := by
  simp only [deliver, points, assign, stored, write_same stored, Option.bind_eq_bind,
    Option.bind_some]

theorem deliver_eq (finite : IsFiniteMapOn equal reserved google valid fitting pairs)
    (equivalence : Equivalence (SameKey equal)) (closed : ∀ left right, SameKey equal left right →
      reserved left → reserved right)
    (held : ScopeHolds equal reserved valid pairs scope spec items) {memory : Memory}
    (bound : ∀ argument ∈ arguments call, (spec.value argument).isSome)
    (delivers : Delivers equal spec.content call) (means : plain spec call = some op)
    (performed : TWDenseHash.perform google blank memory { scope.map with log := [] } op =
      some (after, answer))
    (correct : GoogleHashRefinement.Correct google equal blank spec.content after answer op) :
    deliver google scope after answer (written call) = some (⟨after, localsAfter spec call⟩,
      answer) := by
  have points : ∀ argument ∈ arguments call, ∃ ref, pointed google scope argument = some ref := by
    intro argument member
    rcases Option.isSome_iff_exists.mp (bound argument member) with ⟨value, given⟩
    rcases pointed_eq finite equivalence closed held given with ⟨ref, points, _⟩
    exact ⟨ref, points⟩
  cases call with
  | addReplaceOld key dat oldref =>
      rcases Option.map_eq_some_iff.mp means with ⟨value, _, rfl⟩
      rw [show answer = _ from correct]
      rcases points oldref (List.mem_cons_of_mem _ List.mem_cons_self) with ⟨ref, outPoints⟩
      cases known : spec.content key with
      | none =>
          rw [locals_missing rfl known, ← held.2]
          exact deliver_missing outPoints true
      | some old =>
          rcases delivers (by rw [known]; rfl) with ⟨n, rfl⟩
          rw [← locals_received rfl known held.2]
          rfl
  | removeFill key fill =>
      cases means
      rw [show answer = _ from correct]
      rcases points fill List.mem_cons_self with ⟨ref, outPoints⟩
      cases known : spec.content key with
      | none =>
          rw [locals_missing rfl known, ← held.2]
          exact deliver_missing outPoints false
      | some old =>
          rcases delivers (by rw [known]; rfl) with ⟨n, rfl⟩
          rw [← locals_received rfl known held.2]
          rfl
  | findFill key fill =>
      cases means
      rw [show answer = _ from correct]
      rcases points fill List.mem_cons_self with ⟨ref, outPoints⟩
      cases known : spec.content key with
      | none =>
          rw [locals_missing rfl known, ← held.2]
          exact deliver_missing outPoints false
      | some old =>
          cases fill with
          | own n =>
              rw [← locals_received rfl known held.2]
              rfl
          | found other =>
              have elsewhere : spec.value (.found other) = some old :=
                known_same equivalence held.1.lists (delivers (by rw [known]; rfl) other rfl) known
              rcases pointed_eq finite equivalence closed held elsewhere with ⟨ref,
                foundPoints, reads⟩
              rcases pointed_found foundPoints with ⟨cell, rfl⟩
              have stored : after.datas.read cell = some old := by
                rw [find_fill_datas performed]
                exact reads
              have locals : localsAfter spec (.findFill key (.found other)) = spec.locals := rfl
              rw [locals, ← held.2]
              exact deliver_itself foundPoints true stored
  | addReplace | addReplaceNew | addNoreplace | addNoreplaceNew | findOrNew | find | remove
      | removeAll | size =>
      change some ({ scope with map := after }, answer) = some (⟨after, spec.locals⟩, answer)
      rw [← held.2]

theorem call_goes (finite : IsFiniteMapOn equal reserved google valid fitting pairs)
    (equivalence : Equivalence (SameKey equal)) (closed : ∀ left right, SameKey equal left right →
      reserved left → reserved right)
    (held : ScopeHolds equal reserved valid pairs scope spec items) {next : DenseCall Key}
    (heeds : Heeds google equal reserved blank scope spec next) (fits : fitting scope.map.values) :
    (interface google equal blank).Goes (ScopeHolds equal reserved valid pairs) scope
    spec next := by
  cases next with
  | on call memory =>
      rcases heeds with ⟨bound, delivers, heeds⟩
      rcases plain_some bound with ⟨op, means⟩
      rcases heeds op means with ⟨allowed, room, given⟩
      rcases goes_iff.mp (perform_goes (w := { scope.map with log := [] }) finite equivalence held.1
        closed blank
        (dense blank) memory fits op allowed room given) with ⟨after, answer, others, performed,
          correct, holds⟩
      rw [← dense_perform_eq] at performed
      have delivered := deliver_eq finite equivalence closed held bound delivers means
        performed correct
      refine ⟨⟨after, localsAfter spec call⟩, some answer, others, ?_,
        ⟨op, answer, means, rfl, correct⟩, ?_⟩
      · change (performOn google blank scope memory call).map _ = _
        simp only [performOn, passed_op_eq finite equivalence closed held bound, means,
          performed, delivered,
          Option.bind_eq_bind, Option.bind_some, Option.map_some]
      · change ScopeHolds equal reserved valid pairs _
          (KHashReferences.meaning equal blank spec call) others
        rw [KHashReferences.meaning, means]
        exact ⟨holds, rfl⟩
  | gotoStart => exact ⟨_, _, items, rfl, rfl, held⟩
  | releaseIter => exact ⟨_, _, items, rfl, rfl, held⟩

end Steps

/-! ## Every run -/

section Runs

variable {google : GoogleMap Key Table} {hash : Key → BitVec 32} {equal : Key → Key → Bool}
  {valid : (Nat → Option Key) → Table → Prop} {fitting : Table → Prop}
  {pairs : Table → List (Nat × Nat)} {reserved : Key → Prop} {blank : Data}
  {deletekey emptykey : Key}

theorem same_answer (equivalence : Equivalence (SameKey equal)) {op : Op Key Data}
    {content : Content Key Data} {after : Wrapper Key Data Table}
    {before twinAfter : KHash32 Key Data} {answer twinAnswer : Answer Data}
    (correct : GoogleHashRefinement.Correct google equal blank content after answer op)
    (twinCorrect : KHashRefinement.Correct hash equal blank content before twinAfter
      twinAnswer op) :
    SameAnswer after.datas twinAfter.heap answer twinAnswer := by
  have pointing : ∀ key cell other value, PointsTo google after key cell value →
      KHashRefinement.PointsTo hash equal twinAfter key other value →
      SameAnswer after.datas twinAfter.heap (.pointer (some cell)) (.pointer (some other)) := by
    intro key cell other value points twinPoints
    refine ⟨rfl, ?_⟩
    change after.datas.read cell = twinAfter.heap.read other
    rw [points.2, twinPoints.2]
  cases op with
  | addReplace key dat =>
      rw [show answer = _ from correct, show twinAnswer = _ from twinCorrect]
      rfl
  | addReplaceOld key dat =>
      rw [show answer = _ from correct, show twinAnswer = _ from twinCorrect]
      rfl
  | addReplaceNew key =>
      rcases correct with ⟨cell, rfl, points⟩
      rcases twinCorrect with ⟨other, rfl, twinPoints⟩
      exact pointing key cell other _ points twinPoints
  | addNoreplace key dat =>
      rw [show answer = _ from correct, twinCorrect.1]
      rfl
  | addNoreplaceNew key =>
      simp only [GoogleHashRefinement.Correct] at correct
      simp only [KHashRefinement.Correct] at twinCorrect
      cases found : content key with
      | none =>
          rw [found] at correct twinCorrect
          rcases correct with ⟨cell, rfl, points⟩
          rcases twinCorrect with ⟨other, rfl, twinPoints⟩
          exact pointing key cell other _ points twinPoints
      | some value =>
          rw [found] at correct twinCorrect
          rw [show answer = _ from correct, twinCorrect.1]
          exact ⟨rfl, rfl⟩
  | findOrNew key =>
      rcases correct with ⟨cell, rfl, points⟩
      rcases twinCorrect with ⟨other, rfl, twinPoints⟩
      exact pointing key cell other _ points twinPoints
  | findFill key =>
      rw [show answer = _ from correct, twinCorrect.1]
      rfl
  | find key =>
      simp only [GoogleHashRefinement.Correct] at correct
      simp only [KHashRefinement.Correct] at twinCorrect
      cases found : content key with
      | none =>
          rw [found] at correct twinCorrect
          rw [show answer = _ from correct, twinCorrect.1]
          exact ⟨rfl, rfl⟩
      | some value =>
          rw [found] at correct twinCorrect
          rcases correct with ⟨cell, rfl, points⟩
          rcases twinCorrect with ⟨other, rfl, twinPoints, _⟩
          exact pointing key cell other _ points twinPoints
  | remove key =>
      rw [show answer = _ from correct, show twinAnswer = _ from twinCorrect]
      rfl
  | removeFill key =>
      rw [show answer = _ from correct, show twinAnswer = _ from twinCorrect]
      rfl
  | removeAll =>
      rw [show answer = _ from correct, show twinAnswer = _ from twinCorrect]
      rfl
  | size =>
      rcases correct with ⟨listed, lists, rfl⟩
      rcases twinCorrect with ⟨⟨others, otherLists, rfl⟩, _⟩
      rw [lists_length_eq equivalence lists otherLists]
      rfl

theorem khash_goes (lawful : Lawful hash equal) {twin : Scope (KHash32 Key Data) Data}
    {spec : Spec Key Data} {items : List (KHashRefinement.Item Key Data)}
    (held : KHashReferences.ScopeHolds hash equal twin spec items) {next : DenseCall Key}
    (heeds : ∀ call memory, next = .on call memory → KHashReferences.Heeds equal twin spec call) :
    (khash hash equal blank).Goes (KHashReferences.ScopeHolds hash equal) twin spec next := by
  cases next with
  | on call memory =>
      rcases heeds call memory rfl with ⟨⟨bounded, bound⟩, delivers, copies⟩
      have goes : (KHashReferences.interface hash equal blank).Goes
          (KHashReferences.ScopeHolds hash equal) twin spec
          call := KHashReferences.call_goes lawful held.1 held.2 bounded call bound delivers copies
      rcases goes with ⟨after, answer, others, performed, correct, holds⟩
      refine ⟨after, some answer, others, ?_, ⟨answer, rfl, correct⟩, holds⟩
      have done : KHashReferences.perform hash equal blank twin call = some (after, answer) :=
        performed
      change (KHashReferences.perform hash equal blank twin call).map _ = _
      rw [done]
      rfl
  | gotoStart => exact ⟨_, _, items, rfl, rfl, held⟩
  | releaseIter => exact ⟨_, _, items, rfl, rfl, held⟩

theorem calls_in_step (lawful : Lawful hash equal)
    (finite : IsFiniteMapOn equal reserved google valid fitting pairs)
    (closed : ∀ left right, SameKey equal left right → reserved left → reserved right)
    (fits : ∀ table, fitting table)
    {scope : Scope (Wrapper Key Data Table) Data} {twin : Scope (KHash32 Key Data) Data}
    {spec : Spec Key Data} {items : List (GoogleHashRefinement.Item Key Data)}
    {twinItems : List (KHashRefinement.Item Key Data)}
    (held : ScopeHolds equal reserved valid pairs scope spec items)
    (twinHeld : KHashReferences.ScopeHolds hash equal twin spec twinItems)
    (calls : List (DenseCall Key)) :
    (interface google equal blank).InStep (khash hash equal blank)
      (BothHeed google equal reserved blank) Alike scope
      twin spec calls := by
  refine Interface.run_in_step (ScopeHolds equal reserved valid pairs)
    (KHashReferences.ScopeHolds hash equal) rfl ?_ ?_
    held twinHeld calls
  · intro scope twin spec items twinItems next held twinHeld heeds
    exact ⟨call_goes finite lawful.equivalence closed held heeds.1 (fits scope.map.values),
      khash_goes lawful twinHeld heeds.2⟩
  · intro scope twin before spec items twinItems next after twinAfter answer twinAnswer holds
      twinHolds correct twinCorrect
    have locals : after.locals = twinAfter.locals := holds.2.trans twinHolds.2.symm
    cases next with
    | on call memory =>
        rcases correct with ⟨op, given, means, rfl, correct⟩
        rcases twinCorrect with ⟨other, rfl, twinOp, twinMeans, twinCorrect⟩
        cases means.symm.trans twinMeans
        exact ⟨same_answer lawful.equivalence correct twinCorrect, locals⟩
    | gotoStart | releaseIter =>
        rw [show answer = none from correct, show twinAnswer = none from twinCorrect]
        exact ⟨rfl, locals⟩

theorem dense_reserved_closed (equivalence : Equivalence (SameKey equal))
    (deletekey emptykey : Key) :
    ∀ left right, SameKey equal left right → DenseReserved equal deletekey emptykey left →
      DenseReserved equal deletekey emptykey right := by
  rintro left right same (isDelete | isEmpty)
  · exact Or.inl (equivalence.trans (equivalence.symm same) isDelete)
  · exact Or.inr (equivalence.trans (equivalence.symm same) isEmpty)

end Runs

end TWlib.DenseHashReferences
