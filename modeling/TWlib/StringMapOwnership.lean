import TWlib.StringMapRefinement

/-!
# Whose strings they are

Every string that is there belongs to the caller or to one holder in the table, and
what a call fills is the caller's. `char **find` marks the holder as weak: a later
`find(key, fill)` gives out the string of the map itself, and a destructor leaves it.
The keys are strings of the map too, and go with the KEY objects.
-/

namespace TWlib.StringMapOwnership

open TWlib.Lib.CellStore TWlib.Lib.FiniteMap TWlib.KHashTable TWlib.KHashSearch TWlib.KHashMap
  TWlib.KHashRefinement
  TWlib.KHashLifetime TWlib.StringMap TWlib.StringMapStrings TWlib.StringMapCalls
  TWlib.StringMapRefinement

set_option autoImplicit false

section Statement

variable (hash : CString → BitVec 32)

/-- The strings of the map are intact; each string that is there has one owner. -/
structure Owns (world : World) (content : Content CString (Option CString)) : Prop where
  intact : AgreesStr hash world.m content
  apart : ∀ cell ∈ world.owned, (world.m.strings.read cell).isSome ∧ ¬ Refers world.m.map cell
  nodup : world.owned.Nodup
  single : ∀ p q c d cell, world.m.map.heap.read p = some c → world.m.map.heap.read q = some d →
    c.s = some cell → d.s = some cell → p = q
  kept : ∀ cell, (world.m.strings.read cell).isSome → cell ∈ world.owned ∨ Refers world.m.map cell

/-- In every state of the run each string has one owner. Freeing a string twice has no result. -/
def NeverShares : World → Content CString (Option CString) → List Event → Prop
  | world, content, [] => Owns hash world content
  | world, content, event :: events => Owns hash world content ∧
      (Allowed world event → Within hash world event → FreesAll hash world event →
        ∃ after answer, happen hash world event = some (after, answer) ∧
          NeverShares after (contentAfter world content event) events)

def keysHappen (world : World) (keys : KeyObjects) : Event → Option KeyObjects
  | .call op => do
      let base ← baseOp world.m.strings .blank op
      keysAfter hash eqstr ⟨world.m.map, keys⟩ base
  | _ => some keys

/-- No key that is there is removed, and no rehash meets one. -/
def KeepsKeys (world : World) : Event → Prop
  | .call op =>
      ∀ base, baseOp world.m.strings .blank op = some base → Keeps hash eqstr world.m.map base
  | _ => True

/-- The destructors of the keys leave each of them destroyed once. -/
def CleansKeys (world : World) (keys : KeyObjects) : Prop :=
  ∃ after, destructKeys world.m.map.khashmap (List.range world.m.map.khashmap.nBuckets) keys =
    some after ∧
    after.EachOnce

def KeysOnce : World → KeyObjects → List Event → Prop
  | world, keys, [] => CleansKeys world keys
  | world, keys, event :: events => CleansKeys world keys ∧
      (Allowed world event → Within hash world event → KeepsKeys hash world event →
        ∃ after answer next, happen hash world event = some (after, answer) ∧
          keysHappen hash world keys event = some next ∧ KeysOnce after next events)

end Statement

variable {hash : CString → BitVec 32} {world : World} {content : Content CString (Option CString)}
  {conts : Content CString CStrCont} {items : List (Item CString CStrCont)} {keys : KeyObjects}

/-! ## The strings -/

theorem sane_owns (sane : Sane hash world content conts items) (covered : Covered world conts) :
    Owns hash world content where
  intact := sane_agrees sane
  apart := by
    intro cell owned
    refine ⟨sane.alive cell owned, fun refers => ?_⟩
    rcases (refers_iff sane).mp refers with ⟨text, here⟩
    exact sane.apart text cell here owned
  nodup := sane.nodup
  single := by
    intro p q c d cell readP readQ stringP stringQ
    rcases holder_key sane readP with ⟨left, atLeft, pointsLeft⟩
    rcases holder_key sane readQ with ⟨right, atRight, pointsRight⟩
    have same : left = right := by
      apply sane.single left right cell
      · rw [atLeft]
        exact stringP
      · rw [atRight]
        exact stringQ
    rw [← same] at pointsRight
    have found := pointsLeft.1.symm.trans pointsRight.1
    cases found
    rfl
  kept := by
    intro cell present
    rcases covered cell present with owned | here
    · exact Or.inl owned
    · exact Or.inr ((refers_iff sane).mpr here)

theorem run_never_shares (sane : Sane hash world content conts items)
    (covered : Covered world conts) (events : List Event) :
    NeverShares hash world content events := by
  induction events generalizing world content conts items with
  | nil => exact sane_owns sane covered
  | cons event events ih =>
      refine ⟨sane_owns sane covered, fun allowed within_ frees => ?_⟩
      rcases happen_sane sane allowed within_ with ⟨after, answer, _, _, happened, _,
        next, covers, _⟩
      exact ⟨after, answer, happened, ih next (covers covered frees)⟩

/-! ## The keys -/

theorem base_op_value {strings : Store CString} {d : CStrCont} {op : StrOp}
    {base : Op CString CStrCont} (goes : baseOp strings d op = some base)
    (map : KHash32 CString CStrCont) (keys : KeyObjects) :
    ∃ blank, baseOp strings .blank op = some blank ∧
      keysAfter hash eqstr ⟨map, keys⟩ blank = keysAfter hash eqstr ⟨map, keys⟩ base ∧
      (Keeps hash eqstr map blank → Keeps hash eqstr map base) := by
  cases op with
  | addReplace key dat =>
      rcases Option.map_eq_some_iff.mp goes with ⟨text, read, rfl⟩
      exact ⟨_, congrArg (Option.map _) read, rfl, id⟩
  | addReplaceOld key dat =>
      rcases Option.map_eq_some_iff.mp goes with ⟨text, read, rfl⟩
      exact ⟨_, congrArg (Option.map _) read, rfl, id⟩
  | _ => exact ⟨base, goes, rfl, id⟩

theorem cleans_keys (sane : Sane hash world content conts items)
    (tracks : Tracks keys (places world.m.map.khashmap)) : CleansKeys world keys := by
  have follows : Follows hash eqstr ⟨world.m.map, keys⟩ conts items := ⟨sane.held, tracks⟩
  rcases remove_all_destroys (lawful_str hash) follows .blank with ⟨_, after, _,
    destructed, _, once, _⟩
  exact ⟨after, destructed, once⟩

theorem happen_tracks (sane : Sane hash world content conts items)
    (tracks : Tracks keys (places world.m.map.khashmap)) {event : Event} {after : StrMap}
    (goes : TableGoes hash world after event) (keeps : KeepsKeys hash world event) :
    ∃ next, keysHappen hash world keys event = some next ∧
    Tracks next (places after.map.khashmap) := by
  cases event with
  | call op =>
      rcases goes with ⟨d, base, reply, map, speaks, performed, same⟩
      rcases base_op_value speaks world.m.map keys with ⟨blank, speaksBlank, sameKeys, sameKeeps⟩
      have follows : Follows hash eqstr ⟨world.m.map, keys⟩ conts items := ⟨sane.held, tracks⟩
      have keepsBase := sameKeeps (keeps blank speaksBlank)
      obtain ⟨tracked, answer, _, ran, next⟩ : ∃ after answer others,
          performKeys hash eqstr CStrCont.blank ⟨world.m.map, keys⟩ base = some (after, answer) ∧
            Follows hash eqstr after (meaning eqstr .blank conts base) others :=
        perform_follows (lawful_str hash) follows keepsBase
      simp only [performKeys, performed, Option.bind_eq_bind, Option.bind_some] at ran
      rcases Option.bind_eq_some_iff.mp ran with ⟨nextKeys, keysRan, result⟩
      cases result
      refine ⟨nextKeys, ?_, ?_⟩
      · rw [keysHappen, speaksBlank]
        exact sameKeys.trans keysRan
      · rw [same]
        exact next.tracks
  | make text =>
      refine ⟨keys, rfl, ?_⟩
      rw [show after.map.khashmap = world.m.map.khashmap from goes]
      exact tracks
  | overwrite cell text =>
      refine ⟨keys, rfl, ?_⟩
      rw [show after.map.khashmap = world.m.map.khashmap from goes]
      exact tracks
  | free cell =>
      refine ⟨keys, rfl, ?_⟩
      rw [show after.map.khashmap = world.m.map.khashmap from goes]
      exact tracks

theorem run_keys_once (sane : Sane hash world content conts items)
    (tracks : Tracks keys (places world.m.map.khashmap)) (events : List Event) :
    KeysOnce hash world keys events := by
  induction events generalizing world content conts items keys with
  | nil => exact cleans_keys sane tracks
  | cons event events ih =>
      refine ⟨cleans_keys sane tracks, fun allowed within_ keeps => ?_⟩
      rcases happen_sane sane allowed within_ with ⟨after, answer, _, _, happened, _,
        nextSane, _, goes⟩
      rcases happen_tracks sane tracks goes keeps with ⟨next, ran, nextTracks⟩
      exact ⟨after, answer, next, happened, ran, ih nextSane nextTracks⟩

/-! ## Every run -/

theorem init_tracks {size : Int} (fits : size < 2 ^ 31) :
    ∃ first keys, StringMap.init hash size = some first ∧
      initKeys hash size = some ⟨first.m.map, keys⟩ ∧
      Sane hash first (fun _ => none) (fun _ => none) [] ∧ Covered first (fun _ => none) ∧
      Tracks keys (places first.m.map.khashmap) := by
  rcases init_sane fits with ⟨first, made, sane, covered⟩
  obtain ⟨⟨map, keys⟩, madeKeys, follows⟩ : ∃ start : Tracked CString CStrCont, initKeys hash size =
      some start ∧
      Follows hash eqstr start (fun _ => none) [] := init_follows (lawful_str hash) fits
  have same : first.m.map = map := by
    have table : (initKeys hash size : Option (Tracked CString CStrCont)).map Tracked.map =
        KHashMap.init hash size :=
      init_keys_map hash size
    rw [madeKeys, Option.map_some] at table
    rw [StringMap.init, ← table, Option.map_some] at made
    cases made
    rfl
  subst same
  exact ⟨first, keys, made, madeKeys, sane, covered, follows.tracks⟩

end TWlib.StringMapOwnership
