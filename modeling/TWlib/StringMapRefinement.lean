import TWlib.StringMapCalls

/-!
# `TW_StringStringMap` is a finite map from strings to strings

From a new map on, every run goes as the finite map does, whatever the caller
does to its own strings in between. Two lookups go wrong: `char **find` of a key
that is not there, and `find(key, fill)` of a key whose string was looked up by
`char **find` since it was stored, which fills the string of the map itself. So
does `addReplace` with the string of the key itself as the value, which is freed
before it is copied.
-/

namespace TWlib.StringMapRefinement

open TWlib.Lib.CellStore TWlib.Lib.FiniteMap TWlib.KHashTable TWlib.KHashSearch TWlib.KHashMap
  TWlib.KHashRefinement
  TWlib.StringMap TWlib.StringMapStrings TWlib.StringMapCalls

set_option autoImplicit false

section Statement

variable (hash : CString → BitVec 32)

/-- Every key is found with its value, and no other is. -/
def AgreesStr (m : StrMap) (content : Content CString (Option CString)) : Prop := ∀ text,
  match content text with
  | none => KHashMap.find eqstr hash m.map text = some (m.map, .pointer none)
  | some value => ∃ ret, ShowsAt hash m text ret value

/-- The strings passed to a call are there, and the caller changes none but its own. -/
def Allowed (world : World) : Event → Prop
  | .call op => ∀ cell ∈ passed op, (world.m.strings.read cell).isSome
  | .make _ => True
  | .overwrite cell _ | .free cell => cell ∈ world.owned

/-- The base class is a finite map while it has less than `2 ^ 31` buckets; the call is none of
those that go wrong. -/
def Within (world : World) : Event → Prop
  | .call op =>
      world.m.map.khashmap.nBuckets < 2 ^ 31 ∧ Looks hash world.m op ∧ Lasts hash world.m op
  | _ => True

def said (world : World) : Event → Option (Op CString (Option CString))
  | .call op => spoken world.m.strings op
  | _ => none

def contentAfter (world : World) (content : Content CString (Option CString)) (event : Event) :
    Content CString (Option CString) :=
  match said world event with
  | some op => meaning eqstr none content op
  | none => content

/-- Every call of the run goes as in the finite map. -/
def BehavesAsStr : World → Content CString (Option CString) → List Event → Prop
  | world, content, [] => AgreesStr hash world.m content
  | world, content, event :: events =>
      AgreesStr hash world.m content ∧ (Allowed world event → Within hash world event →
      ∃ after answer, happen hash world event = some (after, answer) ∧
        (∀ op, said world event = some op →
          ∃ reply, answer = some reply ∧ CorrectStr hash content world.m after.m reply op) ∧
        BehavesAsStr after (contentAfter world content event) events)

end Statement

variable {hash : CString → BitVec 32} {world : World} {content : Content CString (Option CString)}
  {conts : Content CString CStrCont} {items : List (Item CString CStrCont)} {cell : Nat}

theorem sane_agrees (sane : Sane hash world content conts items) :
    AgreesStr hash world.m content := by
  intro text
  cases present : conts text with
  | none =>
      rw [(sane_content_none sane).mpr present]
      rcases find_goes (lawful_str hash) sane.held .blank text with ⟨after, answer, _,
        performed, correct, _⟩
      simp only [interface, Correct, present] at correct
      rw [correct.1, correct.2] at performed
      exact performed
  | some c =>
      rcases sane_shows sane present with ⟨value, known, shown⟩
      rcases points_to sane present with ⟨ret, points⟩
      rw [known]
      exact ⟨ret, c, points, shown⟩

theorem caller_sane (sane : Sane hash world content conts items) {strings : Store CString}
    {owned : List Nat} (spares : Spares world.m.strings strings fun cell => cell ∈ world.owned)
    (among : ∀ cell ∈ owned, cell ∈ world.owned ∨ world.m.strings.fresh ≤ cell)
    (alive : ∀ cell ∈ owned, (strings.read cell).isSome) (nodup : owned.Nodup) :
    Sane hash ⟨{ world.m with strings }, owned⟩ content conts items where
  held := sane.held
  shows_ := by
    intro text
    cases present : conts text with
    | none =>
        rw [(sane_content_none sane).mpr present]
        rfl
    | some c =>
        rcases sane_shows sane present with ⟨value, known, shown⟩
        rw [known]
        apply congrArg some
        apply shows_congr shown
        intro cell string
        have here : stringOf (conts text) = some cell := by
          rw [present]
          exact string
        exact spares.kept cell (sane_alive sane here) (sane.apart text cell here)
  single := sane.single
  apart := by
    intro text cell here member
    rcases among cell member with owned | new
    · exact sane.apart text cell here owned
    · have bound := alive_bound (sane_alive sane here)
      omega
  alive := alive
  nodup := nodup

theorem make_sane (sane : Sane hash world content conts items) (text : CString) :
    Sane hash ⟨{ world.m with strings := world.m.strings.push text },
      world.owned ++ [world.m.strings.fresh]⟩ content
      conts items := by
  apply caller_sane sane
  · exact spares_mono (spares_push _ _) fun _ impossible => impossible.elim
  · intro cell member
    rcases List.mem_append.mp member with owned | new
    · exact Or.inl owned
    · exact Or.inr (Nat.le_of_eq (List.mem_singleton.mp new).symm)
  · intro cell member
    rw [read_push]
    rcases List.mem_append.mp member with owned | new
    · have bound := alive_bound (sane.alive cell owned)
      rw [if_neg (by omega)]
      exact sane.alive cell owned
    · rw [if_pos (List.mem_singleton.mp new)]
      rfl
  · refine List.nodup_append.mpr ⟨sane.nodup, List.nodup_singleton _,
      fun left leftMember right rightMember same => ?_⟩
    have bound := alive_bound (sane.alive left leftMember)
    have new := List.mem_singleton.mp rightMember
    omega

theorem overwrite_sane (sane : Sane hash world content conts items) (owned : cell ∈ world.owned)
    {old : CString} (read : world.m.strings.read cell = some old) (text : CString) :
    Sane hash ⟨{ world.m with strings := world.m.strings.write cell text },
      world.owned⟩ content conts items := by
  apply caller_sane sane
  · apply spares_mono (spares_write read text)
    intro other same
    rw [same]
    exact owned
  · exact fun other member => Or.inl member
  · intro other member
    rw [read_write read]
    split_ifs
    · rfl
    · exact sane.alive other member
  · exact sane.nodup

theorem free_sane (sane : Sane hash world content conts items) (owned : cell ∈ world.owned) :
    Sane hash ⟨{ world.m with strings := world.m.strings.giveUp cell },
      world.owned.filter (· ≠ cell)⟩ content conts
      items := by
  apply caller_sane sane
  · apply spares_mono (spares_give_up _ _)
    intro other same
    rw [same]
    exact owned
  · exact fun other member => Or.inl (List.mem_filter.mp member).1
  · intro other member
    rcases List.mem_filter.mp member with ⟨inside, differ⟩
    rw [read_give_up, if_neg (of_decide_eq_true differ)]
    exact sane.alive other inside
  · exact sane.nodup.filter _

theorem make_covered (covered : Covered world conts) (text : CString) :
    Covered ⟨{ world.m with strings := world.m.strings.push text },
      world.owned ++ [world.m.strings.fresh]⟩ conts := by
  intro cell present
  have read : ((world.m.strings.push text).read cell).isSome := present
  rw [read_push] at read
  by_cases new : cell = world.m.strings.fresh
  · exact Or.inl (List.mem_append_right _ (List.mem_singleton.mpr new))
  · rw [if_neg new] at read
    exact (covered cell read).imp_left (List.mem_append_left _)

theorem overwrite_covered (covered : Covered world conts) {old : CString}
    (read : world.m.strings.read cell = some old) (text : CString) :
    Covered ⟨{ world.m with strings := world.m.strings.write cell text }, world.owned⟩ conts := by
  intro other present
  have stays : ((world.m.strings.write cell text).read other).isSome := present
  rw [read_write read] at stays
  by_cases same : other = cell
  · exact covered other (by rw [same, read]; rfl)
  · rw [if_neg same] at stays
    exact covered other stays

theorem free_covered (covered : Covered world conts) (cell : Nat) :
    Covered ⟨{ world.m with strings := world.m.strings.giveUp cell },
      world.owned.filter (· ≠ cell)⟩ conts := by
  intro other present
  have stays : ((world.m.strings.giveUp cell).read other).isSome := present
  rw [read_give_up] at stays
  by_cases same : other = cell
  · rw [if_pos same] at stays
    cases stays
  · rw [if_neg same] at stays
    exact (covered other stays).imp_left fun owned =>
      List.mem_filter.mpr ⟨owned, decide_eq_true same⟩

/-- A call destroys no holder with a string that `char **find` has marked. -/
def FreesAll (hash : CString → BitVec 32) (world : World) : Event → Prop
  | .call op => Frees hash world.m op
  | _ => True

/-- The table goes as that of the base class, and stays where nothing is called. -/
def TableGoes (hash : CString → BitVec 32) (world : World) (after : StrMap) : Event → Prop
  | .call op => ∃ d base reply map, baseOp world.m.strings d op = some base ∧
      KHashRefinement.perform hash eqstr .blank world.m.map base = some (map, reply) ∧
      after.map.khashmap = map.khashmap
  | _ => after.map.khashmap = world.m.map.khashmap

theorem happen_sane (sane : Sane hash world content conts items) {event : Event}
    (allowed : Allowed world event) (within_ : Within hash world event) :
    ∃ after answer newConts newItems, happen hash world event = some (after, answer) ∧
      (∀ op, said world event = some op →
        ∃ reply, answer = some reply ∧ CorrectStr hash content world.m after.m reply op) ∧
      Sane hash after (contentAfter world content event) newConts newItems ∧
      (Covered world conts → FreesAll hash world event → Covered after newConts) ∧
      TableGoes hash world after.m event := by
  have silent : ∀ op, (none : Option (Op CString (Option CString))) ≠ some op := by
    intro op impossible
    cases impossible
  cases event with
  | call op =>
      rcases call_lands sane within_.1 allowed within_.2.1 within_.2.2 with ⟨asks, speaks, lands⟩
      rcases lands with ⟨after, reply, newConts, newItems, performed, correct, next, covers, goes⟩
      refine ⟨⟨after, world.owned ++ handed reply⟩, some reply, newConts, newItems, ?_,
        fun other same => ?_, ?_,
        covers, goes⟩
      · rw [happen, performed, Option.map_some]
      · have equals : asks = other := Option.some.inj (speaks.symm.trans same)
        exact ⟨reply, rfl, equals ▸ correct⟩
      · have meant : contentAfter world content (.call op) = meaning eqstr none content asks := by
          simp only [contentAfter, said, speaks]
        rw [meant]
        exact next
  | make text =>
      exact ⟨_, none, conts, items, rfl, fun op same => absurd same (silent op),
        make_sane sane text,
        fun covered _ => make_covered covered text, rfl⟩
  | overwrite cell text =>
      rcases Option.isSome_iff_exists.mp (sane.alive cell allowed) with ⟨old, read⟩
      refine ⟨_, none, conts, items, ?_, fun op same => absurd same (silent op),
        overwrite_sane sane allowed read text,
        fun covered _ => overwrite_covered covered read text, rfl⟩
      rw [happen, read, Option.map_some]
  | free cell =>
      rcases Option.isSome_iff_exists.mp (sane.alive cell allowed) with ⟨old, read⟩
      refine ⟨_, none, conts, items, ?_, fun op same => absurd same (silent op),
        free_sane sane allowed,
        fun covered _ => free_covered covered cell, rfl⟩
      rw [happen, read, Option.map_some]

theorem run_behaves_str (sane : Sane hash world content conts items) (events : List Event) :
    BehavesAsStr hash world content events := by
  induction events generalizing world content conts items with
  | nil => exact sane_agrees sane
  | cons event events ih =>
      refine ⟨sane_agrees sane, fun allowed within_ => ?_⟩
      rcases happen_sane sane allowed within_ with ⟨after, answer, _, _, happened, correct, next, _⟩
      exact ⟨after, answer, happened, correct, ih next⟩

theorem init_sane {size : Int} (fits : size < 2 ^ 31) :
    ∃ first, StringMap.init hash size = some first ∧
      Sane hash first (fun _ => none) (fun _ => none) [] ∧
      Covered first fun _ => none := by
  rcases init_holds (lawful_str hash) fits with ⟨map, made, held⟩
  refine ⟨⟨⟨map, Store.empty⟩, []⟩, ?_, ?_, fun cell present => ?_⟩
  · rw [StringMap.init, made, Option.map_some]
  · exact {
      held := held
      shows_ := fun _ => rfl
      single := fun _ _ cell here => by cases here
      apart := fun _ cell here => by cases here
      alive := fun cell member => by cases member
      nodup := List.nodup_nil }
  · rw [show (Store.empty : Store CString).read cell = none from read_empty cell] at present
    cases present

end TWlib.StringMapRefinement
