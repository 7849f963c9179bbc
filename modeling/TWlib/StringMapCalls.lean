import TWlib.StringMapStrings

/-!
# The calls of `TW_StringStringMap`

A value is the text of a string, or none where the pointer is null. `CorrectStr`
says what the calls answer, over the texts in the buffers that the caller passes;
what a call fills must not be a string of the map. Each call lands in a state that
keeps the invariant, and the table goes as that of the base class does.
-/

namespace TWlib.StringMapCalls

open TWlib.Lib.CellStore TWlib.Lib.FiniteMap TWlib.KHashTable TWlib.KHashSearch TWlib.KHashMap
  TWlib.KHashRefinement
  TWlib.StringMap TWlib.StringMapStrings

set_option autoImplicit false

section Statement

variable (hash : CString → BitVec 32)

/-- What a call asks of a map of texts. -/
def spoken (strings : Store CString) : StrOp → Option (Op CString (Option CString))
  | .addReplace key dat => do
      let l ← strings.read key
      let d ← strings.read dat
      some (.addReplace l (some d))
  | .addReplaceOld key dat => do
      let l ← strings.read key
      let d ← strings.read dat
      some (.addReplaceOld l (some d))
  | .addReplaceNew key => (strings.read key).map .addReplaceNew
  | .addNoreplaceNew key => (strings.read key).map .addNoreplaceNew
  | .findOrNew key => (strings.read key).map .findOrNew
  | .findFill key => (strings.read key).map .findFill
  | .find key => (strings.read key).map .find
  | .remove key => (strings.read key).map .remove
  | .removeFill key => (strings.read key).map .removeFill
  | .removeAll => some .removeAll

/-- A holder in the table has the string. -/
def Refers (map : KHash32 CString CStrCont) (cell : Nat) : Prop :=
  ∃ p c, map.heap.read p = some c ∧ c.s = some cell

/-- The pointer is into the holder of the key, and `*ret` is its value. -/
def ShowsAt (m : StrMap) (text : CString) (ret : Nat) (value : Option CString) : Prop :=
  ∃ c, PointsTo hash eqstr m.map text ret c ∧ Shows m.strings c.s value

/-- A string of its own with the text of the value. -/
def CopyOf (m : StrMap) (fill : Option Nat) (value : Option CString) : Prop :=
  Shows m.strings fill value ∧ ∀ cell, fill = some cell → ¬ Refers m.map cell

/-- What a call answers; the last two are none of its operations. -/
def CorrectStr (content : Content CString (Option CString)) (before after : StrMap)
    (answer : StringAnswer) :
    Op CString (Option CString) → Prop
  | .addReplace _ _ => answer = .done true none
  | .addReplaceOld text _ =>
      ∃ olddat, answer = .done true (some olddat) ∧ CopyOf after olddat (content text).join
  | .addReplaceNew text => ∃ ret, answer = .pointer (some ret) ∧ ShowsAt hash after text ret none
  | .addNoreplaceNew text =>
      match content text with
      | none => ∃ ret, answer = .pointer (some ret) ∧ ShowsAt hash after text ret none
      | some _ => answer = .pointer none ∧ after = before
  | .findOrNew text =>
      ∃ ret, answer = .pointer (some ret) ∧ ShowsAt hash after text ret (content text).join
  | .findFill text =>
      match content text with
      | none => answer = .done false none ∧ after = before
      | some value => ∃ fill, answer = .done true (some fill) ∧ CopyOf after fill value
  | .find text =>
      match content text with
      | none => answer = .pointer none ∧ after = before
      | some value => ∃ ret, answer = .pointer (some ret) ∧ ShowsAt hash after text ret value
  | .remove text => answer = .done (content text).isSome none
  | .removeFill text =>
      match content text with
      | none => answer = .done false none
      | some value => ∃ fill, answer = .done true (some fill) ∧ CopyOf after fill value
  | .removeAll => answer = .done true none
  | .addNoreplace _ _ | .size => False

def asked (m : StrMap) (key : Nat) : Option (Option CStrCont) :=
  (m.strings.read key).bind (stored hash m)

/-- The call destroys no holder with a string that is lent. -/
def Frees (m : StrMap) : StrOp → Prop
  | .addReplace key _ | .addReplaceNew key | .remove key =>
      ∀ c, asked hash m key = some c → lent c = false
  | .removeAll => ∀ p c, m.map.heap.read p = some c → lent (some c) = false
  | _ => True

/-- The operation of the base class that a call makes with the value `d`. -/
def baseOp (strings : Store CString) (d : CStrCont) : StrOp → Option (Op CString CStrCont)
  | .addReplace key _ => (strings.read key).map (Op.addReplace · d)
  | .addReplaceOld key _ => (strings.read key).map (Op.addReplaceOld · d)
  | .addReplaceNew key => (strings.read key).map .addReplaceNew
  | .addNoreplaceNew key => (strings.read key).map .addNoreplaceNew
  | .findOrNew key => (strings.read key).map .findOrNew
  | .findFill key => (strings.read key).map .findFill
  | .find key => (strings.read key).map .find
  | .remove key => (strings.read key).map .remove
  | .removeFill key => (strings.read key).map .removeFill
  | .removeAll => some .removeAll

end Statement

/-! ## What the table holds -/

variable {hash : CString → BitVec 32} {world : World} {content : Content CString (Option CString)}
  {conts : Content CString CStrCont} {items : List (Item CString CStrCont)} {text : CString}
  {key dat : Nat}

theorem base_goes (sane : Sane hash world content conts items)
    (bounded : world.m.map.khashmap.nBuckets < 2 ^ 31) (op : Op CString CStrCont) :
    Goes hash eqstr .blank world.m.map conts op :=
  perform_goes (lawful_str hash) sane.held .blank op fun _ _ _ => Or.inl bounded

theorem stored_eq (sane : Sane hash world content conts items) (text : CString) :
    stored hash world.m text = some (conts text) := by
  rcases find_fill_goes (lawful_str hash) sane.held .blank text with ⟨after, answer, _,
    performed, correct, _⟩
  have found : findFillByValue eqstr hash .blank world.m.map text = some (after, answer) :=
    performed
  rw [correct.1] at found
  unfold stored
  rw [found]
  rfl

theorem asked_eq (sane : Sane hash world content conts items)
    (read : world.m.strings.read key = some text) :
    asked hash world.m key = some (conts text) := by
  unfold asked
  rw [read, Option.bind_some, stored_eq sane]

theorem points_to (sane : Sane hash world content conts items) {c : CStrCont}
    (present : conts text = some c) :
    ∃ ret, PointsTo hash eqstr world.m.map text ret c := by
  rcases find_goes (lawful_str hash) sane.held .blank text with ⟨after, answer, _, _, correct, _⟩
  simp only [interface, Correct, present] at correct
  rcases correct with ⟨ret, _, points, same⟩
  exact ⟨ret, same ▸ points⟩

theorem front_of_mem {item : Item CString CStrCont} (member : item ∈ items) :
    ∃ rest, items.Perm (item :: rest) := by
  rcases List.append_of_mem member with ⟨left, right, split⟩
  exact ⟨left ++ right, split ▸ List.perm_middle⟩

theorem holder_key (sane : Sane hash world content conts items) {p : Nat} {c : CStrCont}
    (read : world.m.map.heap.read p = some c) :
    ∃ text, conts text = some c ∧ PointsTo hash eqstr world.m.map text p c := by
  rcases List.mem_map.mp (sane.held.only p (by rw [read]; rfl)) with ⟨item, member, same⟩
  have stored := sane.held.stored item member
  rw [same, read] at stored
  have value : c = item.value := Option.some.inj stored
  rcases front_of_mem member with ⟨rest, perm⟩
  have points := points_to_item (lawful_str hash) (holds_perm (lawful_str hash) sane.held perm)
    (same_str.mpr rfl : SameKey eqstr item.key item.key)
  rw [same, ← value] at points
  refine ⟨item.key, ?_, points⟩
  rw [value]
  exact (sane.held.lists.known item.key item.value).mpr
    ⟨item.entry, List.mem_map_of_mem member, same_str.mpr rfl, rfl⟩

theorem refers_iff (sane : Sane hash world content conts items) {cell : Nat} :
    Refers world.m.map cell ↔ ∃ text, stringOf (conts text) = some cell := by
  constructor
  · rintro ⟨p, c, read, string⟩
    rcases holder_key sane read with ⟨text, present, _⟩
    refine ⟨text, ?_⟩
    rw [present]
    exact string
  · rintro ⟨text, here⟩
    rcases Option.bind_eq_some_iff.mp here with ⟨c, present, string⟩
    rcases points_to sane present with ⟨ret, _, read⟩
    exact ⟨ret, c, read, string⟩

theorem copy_of {after : StrMap} {given : List Nat} {fill : Option Nat} {value : Option CString}
    (sane : Sane hash ⟨after, world.owned ++ given⟩ content conts items)
    (shows_ : Shows after.strings fill value) (member : ∀ cell, fill = some cell → cell ∈ given) :
    CopyOf after fill value := by
  refine ⟨shows_, fun cell here refers => ?_⟩
  rcases (refers_iff sane).mp refers with ⟨text, there⟩
  exact sane.apart text cell there (List.mem_append_right _ (member cell here))

theorem find_table {map : KHash32 CString CStrCont} {ret : Nat} {heap : Store CStrCont}
    (found : KHashMap.find eqstr hash map text = some (map, .pointer (some ret))) :
    KHashMap.find eqstr hash { map with heap } text = some ({ map with heap },
      .pointer (some ret)) := by
  simp only [KHashMap.find, Option.bind_eq_bind, Option.bind_eq_some_iff] at found ⊢
  rcases found with ⟨k, get, rest⟩
  refine ⟨k, get, ?_⟩
  split_ifs at rest ⊢ with inside
  · rcases Option.bind_eq_some_iff.mp rest with ⟨value, at_, same⟩
    cases same
    exact Option.bind_eq_some_iff.mpr ⟨ret, at_, rfl⟩
  · cases rest

theorem write_holds (sane : Sane hash world content conts items) {c : CStrCont}
    (present : conts text = some c) {ret : Nat}
    (points : PointsTo hash eqstr world.m.map text ret c) (value : CStrCont) :
    ∃ newItems, Holds hash eqstr { world.m.map with heap := world.m.map.heap.write ret value }
      (assign eqstr conts text value) newItems := by
  rcases (sane.held.lists.known text c).mp present with ⟨entry, member, equals, _⟩
  rcases List.mem_map.mp member with ⟨item, here, same⟩
  rcases front_of_mem here with ⟨rest, perm⟩
  have turned := holds_perm (lawful_str hash) sane.held perm
  have itsKey : SameKey eqstr item.key text := by
    rw [← same] at equals
    exact equals
  have itsCell : item.cell = ret := by
    have found := (points_to_item (lawful_str hash) turned itsKey).1
    rw [points.1] at found
    cases found
    rfl
  have stored := points.2
  refine ⟨⟨item.key, ret, value⟩ :: rest, ?_⟩
  rw [← itsCell] at stored ⊢
  exact {
    table := turned.table
    apart := turned.apart
    stored := by
      intro other inside
      rcases List.mem_cons.mp inside with first | later
      · rw [first, read_write stored, if_pos rfl]
      · rw [read_write stored, if_neg (cell_unread turned other later)]
        exact turned.stored other (List.mem_cons_of_mem _ later)
    only := by
      intro cell exists_
      rw [read_write stored] at exists_
      by_cases isHere : cell = item.cell
      · rw [isHere]
        exact List.mem_cons_self
      · rw [if_neg isHere] at exists_
        exact turned.only cell exists_
    lists := lists_assign_known (lawful_str hash).equivalence turned.lists itsKey value }

/-! ## One call -/

/-- The call has a result and answers correctly; what it leaves keeps the invariant, and loses no
string that it has to free. The table goes as that of the base class. -/
def Lands (hash : CString → BitVec 32) (world : World) (content : Content CString (Option CString))
    (conts : Content CString CStrCont) (op : StrOp) (said : Op CString (Option CString)) : Prop :=
  ∃ after answer newConts newItems, StringMap.perform hash world.m op = some (after, answer) ∧
    CorrectStr hash content world.m after answer said ∧
    Sane hash ⟨after, world.owned ++ handed answer⟩ (meaning eqstr none content said)
    newConts newItems ∧
    (Covered world conts → Frees hash world.m op →
      Covered ⟨after, world.owned ++ handed answer⟩ newConts) ∧
    ∃ d base reply map, baseOp world.m.strings d op = some base ∧
      KHashRefinement.perform hash eqstr .blank world.m.map base = some (map, reply) ∧
      after.map.khashmap = map.khashmap

theorem copy_updates {middle after : Store CString} {map : KHash32 CString CStrCont}
    {s : Option Nat} {value : Option CString} {given : List Nat}
    {newItems : List (Item CString CStrCont)}
    (first : Spares world.m.strings middle fun cell => stringOf (conts text) = some cell)
    (second : Spares middle after fun _ => False) (shows_ : Shows after s value)
    (new : ∀ cell, s = some cell → middle.fresh ≤ cell)
    (holds : Holds hash eqstr map (assign eqstr conts text ⟨s, false⟩) newItems)
      (single : given.length ≤ 1) (gives : ∀ cell ∈ given, (middle.read cell).isSome ∧
      (world.m.strings.fresh ≤ cell ∨ stringOf (conts text) = some cell)) :
    Updates hash world content conts text ⟨map, after⟩ given (assign eqstr content text value)
      (assign eqstr conts text ⟨s, false⟩) newItems where
  held := holds
  elsewhere := fun other differ => ⟨assign_else differ, assign_else differ⟩
  shows_ := by
    rw [assign_here, assign_here]
    exact congrArg some shows_
  spares := spares_trans first (spares_mono second fun _ impossible => impossible.elim)
  mine := by
    intro cell here
    rw [assign_here] at here
    exact Or.inl (Nat.le_trans first.grows (new cell here))
  single := single
  gives := by
    intro cell member
    rcases gives cell member with ⟨present, mine⟩
    refine ⟨?_, fun here => ?_, mine⟩
    · rw [second.kept cell present fun impossible => impossible]
      exact present
    · rw [assign_here] at here
      have beyond := new cell here
      have bound := alive_bound present
      omega

/-- The entry of the key is cleared or gone, and its string is as the first change left it. -/
theorem drop_updates {after : Store CString} {map : KHash32 CString CStrCont} {given : List Nat}
    {newContent : Content CString (Option CString)} {newConts : Content CString CStrCont}
    {newItems : List (Item CString CStrCont)}
    (spares : Spares world.m.strings after fun cell => stringOf (conts text) = some cell)
    (holds : Holds hash eqstr map newConts newItems)
    (elsewhere : ∀ other, other ≠ text → newContent other = content other ∧
      newConts other = conts other)
    (here : newConts text = some .blank ∧ newContent text = some none ∨ newConts text = none ∧
      newContent text = none)
    (single : given.length ≤ 1)
    (gives : ∀ cell ∈ given, (after.read cell).isSome ∧
      (world.m.strings.fresh ≤ cell ∨ stringOf (conts text) = some cell)) :
    Updates hash world content conts text ⟨map, after⟩ given newContent newConts newItems := by
  have empty : stringOf (newConts text) = none := by
    rcases here with ⟨cleared, _⟩ | ⟨gone, _⟩
    · rw [cleared]
      rfl
    · rw [gone]
      rfl
  exact {
    held := holds
    elsewhere := elsewhere
    shows_ := by
      rcases here with ⟨cleared, value⟩ | ⟨gone, value⟩
      · rw [cleared, value]
        rfl
      · rw [gone, value]
        rfl
    spares := spares
    mine := by
      intro cell there
      rw [empty] at there
      cases there
    single := single
    gives := by
      intro cell member
      refine ⟨(gives cell member).1, fun there => ?_, (gives cell member).2⟩
      rw [empty] at there
      cases there }

theorem new_updates (sane : Sane hash world content conts items) {map : KHash32 CString CStrCont}
    {newItems : List (Item CString CStrCont)}
    (holds : Holds hash eqstr map (assignNew eqstr conts text .blank) newItems) :
    Updates hash world content conts text ⟨map, world.m.strings⟩ []
      (assignNew eqstr content text none)
      (assignNew eqstr conts text .blank) newItems := by
  cases present : conts text with
  | none =>
      have missing := (sane_content_none sane).mpr present
      rw [assign_new_missing present] at holds ⊢
      rw [assign_new_missing missing]
      exact drop_updates (spares_refl _ _) holds (fun other differ => ⟨assign_else differ,
        assign_else differ⟩)
        (Or.inl ⟨assign_here, assign_here⟩) (Nat.zero_le _) fun cell member => by cases member
  | some c =>
      rcases sane_shows sane present with ⟨value, known, _⟩
      rw [assign_new_present present] at holds ⊢
      rw [assign_new_present known]
      exact {
        held := holds
        elsewhere := fun _ _ => ⟨rfl, rfl⟩
        shows_ := sane.shows_ text
        spares := spares_refl _ _
        mine := fun cell here => Or.inr here
        single := Nat.zero_le _
        gives := fun cell member => by cases member }

theorem drop_covered {after : StrMap} {newContent : Content CString (Option CString)}
    {newConts : Content CString CStrCont} {newItems : List (Item CString CStrCont)}
    {given : List Nat} (updates : Updates hash world content conts text after given newContent
      newConts newItems)
    (sameFresh : after.strings.fresh = world.m.strings.fresh)
    (cleared : ∀ cell, stringOf (conts text) = some cell → after.strings.read cell = none)
    (covered : Covered world conts) : Covered ⟨after, world.owned ++ given⟩ newConts := by
  refine covered_updates covered updates fun cell present mine => ?_
  rcases mine with beyond | here
  · exact absurd (sameFresh ▸ beyond) (Nat.not_le_of_lt (alive_bound present))
  · rw [cleared cell here] at present
    cases present

theorem new_covered {map : KHash32 CString CStrCont} {newItems : List (Item CString CStrCont)}
    (updates : Updates hash world content conts text ⟨map, world.m.strings⟩ []
      (assignNew eqstr content text none)
      (assignNew eqstr conts text .blank) newItems) (covered : Covered world conts) :
    Covered ⟨⟨map, world.m.strings⟩, world.owned ++ []⟩ (assignNew eqstr conts text .blank) := by
  refine covered_updates covered updates fun cell present mine => Or.inr ?_
  rcases mine with beyond | here
  · exact absurd beyond (Nat.not_le_of_lt (alive_bound present))
  · rcases Option.bind_eq_some_iff.mp here with ⟨c, known, _⟩
    rw [assign_new_present known]
    exact here

theorem mem_handed {ret : Bool} {fill : Option Nat} {cell : Nat} :
    cell ∈ handed (.done ret (some fill)) ↔ fill = some cell := by
  cases fill with
  | none => simp [handed]
  | some mine => simp [handed, eq_comm]

theorem handed_length (answer : StringAnswer) : (handed answer).length ≤ 1 := by
  unfold handed
  split <;> simp

section Calls

variable (sane : Sane hash world content conts items)
  (bounded : world.m.map.khashmap.nBuckets < 2 ^ 31) (read : world.m.strings.read key = some text)

include sane

theorem frees_old (text : CString) :
    ∃ after, destroyOld world.m.strings (conts text) = some after ∧
      Spares world.m.strings after (fun cell => stringOf (conts text) = some cell) ∧
      after.fresh = world.m.strings.fresh ∧
      (lent (conts text) = false → ∀ cell, stringOf (conts text) = some cell →
        after.read cell = none) := by
  apply destroy_old_eq
  intro cell here
  exact sane_alive sane here

theorem hands_over (text : CString) :
    ∃ f after, handOver world.m.strings (conts text) = some (f, after) ∧
      Spares world.m.strings after (fun cell => stringOf (conts text) = some cell) ∧
      Shows after f.s (content text).join ∧
      (∀ cell, f.s = some cell → world.m.strings.fresh ≤ cell ∨ stringOf (conts text) = some cell) ∧
      ∀ cell, (after.read cell).isSome →
        world.m.strings.fresh ≤ cell ∨ stringOf (conts text) = some cell → f.s = some cell := by
  apply hand_over_eq
  · intro c present
    rcases sane_shows sane present with ⟨value, known, shown⟩
    rw [known]
    exact shown
  · intro missing
    rw [(sane_content_none sane).mpr missing]
    rfl

include bounded read

theorem add_replace_lands {value : CString} (lasts : lent (conts text) = false →
    stringOf (conts text) ≠ some dat)
    (readDat : world.m.strings.read dat = some value) :
    Lands hash world content conts (.addReplace key dat) (.addReplace text (some value)) := by
  rcases frees_old sane text with ⟨freed, destroyed, spares, sameFresh, cleared⟩
  have stays : freed.read dat = world.m.strings.read dat := by
    cases isLent : lent (conts text) with
    | true => rw [Option.some.inj (destroyed.symm.trans (destroy_old_lent isLent))]
    | false => exact spares.kept dat (by rw [readDat]; rfl) (lasts isLent)
  have shown : Shows freed (CStrCont.wrap dat).s (some value) := congrArg some (stays.trans readDat)
  rcases copyfrom_eq shown with ⟨s, after, copied, copySpares, shows_copy, new, only⟩
  rcases base_goes sane bounded (.addReplace text ⟨s, false⟩) with ⟨map, reply, newItems,
    performed, _, holds⟩
  have base : KHashMap.addReplaceByValue eqstr hash world.m.map text ⟨s, false⟩ = some (map,
    reply) := performed
  have updates : Updates hash world content conts text ⟨map, after⟩ [] _ _ newItems :=
    copy_updates spares copySpares shows_copy new holds (Nat.zero_le _)
      fun cell member => by cases member
  refine ⟨⟨map, after⟩, .done true none, _, _, ?_, rfl, sane_updates sane updates,
    fun covered frees => ?_,
    ⟨s, false⟩, _, reply, map, congrArg (Option.map _) read, performed, rfl⟩
  · simp only [StringMap.perform, StringMap.addReplace, read, stored_eq sane, destroyed,
      copied, base,
      Option.bind_eq_bind, Option.bind_some]
  · have strong : lent (conts text) = false := frees _ (asked_eq sane read)
    refine covered_updates covered updates fun cell present mine => Or.inr ?_
    rw [assign_here]
    rcases mine with beyond | old
    · exact only cell (sameFresh ▸ beyond) present
    · rcases copySpares.only cell present with beyond | stays
      · exact only cell beyond present
      · rw [cleared strong cell old] at stays
        cases stays

theorem add_replace_old_lands {value : CString}
    (lasts : lent (conts text) = false → stringOf (conts text) ≠ some dat)
    (readDat : world.m.strings.read dat = some value) :
    Lands hash world content conts (.addReplaceOld key dat) (.addReplaceOld text (some value)) := by
  rcases hands_over sane text with ⟨f, middle, handedOver, spares, shows_old, mineOld, left⟩
  have stays : middle.read dat = world.m.strings.read dat := by
    cases isLent : lent (conts text) with
    | true =>
        obtain ⟨given, same⟩ : ∃ f, handOver world.m.strings (conts text) = some (f,
            world.m.strings) :=
          hand_over_lent isLent
        cases Option.some.inj (handedOver.symm.trans same)
        rfl
    | false => exact spares.kept dat (by rw [readDat]; rfl) (lasts isLent)
  have shown : Shows middle (CStrCont.wrap dat).s (some value) :=
    congrArg some (stays.trans readDat)
  rcases copyfrom_eq shown with ⟨s, after, copied, copySpares, shows_copy, new, only⟩
  rcases base_goes sane bounded (.addReplaceOld text ⟨s, false⟩) with ⟨map, reply, newItems,
    performed, _, holds⟩
  have base : KHashMap.addReplaceOldByValue eqstr hash world.m.map text ⟨s, false⟩ = some (map,
    reply) := performed
  have updates : Updates hash world content conts text ⟨map, after⟩ (handed (.done true (some f.s)))
      (assign eqstr content text (some value)) (assign eqstr conts text ⟨s, false⟩) newItems := by
    apply copy_updates spares copySpares shows_copy new holds (handed_length _)
    intro cell member
    have here := mem_handed.mp member
    exact ⟨shows_alive shows_old here, mineOld cell here⟩
  have kept := sane_updates sane updates
  have shows_after : Shows after f.s (content text).join := by
    apply shows_congr shows_old
    intro cell here
    exact copySpares.kept cell (shows_alive shows_old here) fun impossible => impossible
  refine ⟨⟨map, after⟩, .done true (some f.s), _, _, ?_, ?_, kept, fun covered _ => ?_, ⟨s, false⟩,
    _, reply, map,
    congrArg (Option.map _) read, performed, rfl⟩
  · simp only [StringMap.perform, StringMap.addReplaceOld, read, stored_eq sane, handedOver,
      copied, base,
      Option.bind_eq_bind, Option.bind_some]
  · exact ⟨f.s, rfl, copy_of kept shows_after fun cell => mem_handed.mpr⟩
  · refine covered_updates covered updates fun cell present mine => ?_
    rw [assign_here]
    rcases copySpares.only cell present with beyond | stays
    · exact Or.inr (only cell beyond present)
    · exact Or.inl (mem_handed.mpr (left cell stays mine))

theorem add_replace_new_lands :
    Lands hash world content conts (.addReplaceNew key) (.addReplaceNew text) := by
  rcases frees_old sane text with ⟨freed, destroyed, spares, sameFresh, cleared⟩
  rcases base_goes sane bounded (.addReplaceNew text) with ⟨map, reply, newItems, performed,
    correct, holds⟩
  rcases correct with ⟨ret, rfl, points⟩
  have base : KHashMap.addReplaceNew eqstr hash .blank world.m.map text = some (map,
    .pointer (some ret)) := performed
  have updates : Updates hash world content conts text ⟨map, freed⟩ (handed (.pointer (some ret)))
      (assign eqstr content text none) (assign eqstr conts text .blank) newItems := by
    apply drop_updates spares holds
    · exact fun other differ => ⟨assign_else differ, assign_else differ⟩
    · exact Or.inl ⟨assign_here, assign_here⟩
    · exact handed_length _
    · exact fun cell member => by cases member
  refine ⟨⟨map, freed⟩, .pointer (some ret), _, _, ?_, ⟨ret, rfl, .blank, points, rfl⟩,
    sane_updates sane updates,
    fun covered frees => ?_, .blank, _, .pointer (some ret), map, congrArg (Option.map _) read,
    performed, rfl⟩
  · simp only [StringMap.perform, StringMap.addReplaceNew, read, stored_eq sane, destroyed,
      base, pointerOf,
      Option.bind_eq_bind, Option.bind_some]
  · exact drop_covered updates sameFresh (cleared (frees _ (asked_eq sane read))) covered

theorem remove_lands : Lands hash world content conts (.remove key) (.remove text) := by
  rcases frees_old sane text with ⟨freed, destroyed, spares, sameFresh, cleared⟩
  rcases base_goes sane bounded (.remove text) with ⟨map, reply, newItems, performed, _, holds⟩
  have base : KHashMap.remove eqstr hash world.m.map text = some (map, reply) := performed
  have updates : Updates hash world content conts text ⟨map, freed⟩ [] (forget eqstr content text)
      (forget eqstr conts text) newItems := by
    apply drop_updates spares holds
    · exact fun other differ => ⟨forget_else differ, forget_else differ⟩
    · exact Or.inr ⟨forget_here, forget_here⟩
    · exact Nat.zero_le _
    · exact fun cell member => by cases member
  have same : (conts text).isSome = (content text).isSome := by
    rw [Bool.eq_iff_iff, Option.isSome_iff_ne_none, Option.isSome_iff_ne_none, not_iff_not]
    exact (sane_content_none sane).symm
  refine ⟨⟨map, freed⟩, .done (conts text).isSome none, _, _, ?_, ?_, sane_updates sane updates,
    fun covered frees => ?_, .blank, _, reply, map, congrArg (Option.map _) read, performed, rfl⟩
  · simp only [StringMap.perform, StringMap.remove, read, stored_eq sane, destroyed, base,
      Option.bind_eq_bind,
      Option.bind_some]
  · exact congrArg (fun ret => StringAnswer.done ret none) same
  · exact drop_covered updates sameFresh (cleared (frees _ (asked_eq sane read))) covered

theorem remove_fill_lands : Lands hash world content conts (.removeFill key)
    (.removeFill text) := by
  rcases hands_over sane text with ⟨f, after, handedOver, spares, shows_old, mineOld, left⟩
  rcases base_goes sane bounded (.removeFill text) with ⟨map, reply, newItems, performed, _, holds⟩
  have base : KHashMap.removeFillByValue eqstr hash .blank world.m.map text = some (map, reply) :=
    performed
  have result : StringMap.perform hash world.m (.removeFill key) =
      some (⟨map, after⟩, .done (conts text).isSome ((conts text).map fun _ => f.s)) := by
    simp only [StringMap.perform, StringMap.removeFill, read, stored_eq sane, handedOver, base,
      Option.bind_eq_bind,
      Option.bind_some]
  have given : ∀ cell, f.s = some cell →
      cell ∈ handed (.done (conts text).isSome ((conts text).map fun _ => f.s)) := by
    intro cell here
    cases present : conts text with
    | none =>
        have missing := (sane_content_none sane).mpr present
        rw [missing] at shows_old
        rw [here] at shows_old
        cases shows_old
    | some c => exact mem_handed.mpr here
  have updates : Updates hash world content conts text ⟨map, after⟩
      (handed (.done (conts text).isSome ((conts text).map fun _ => f.s)))
      (forget eqstr content text)
      (forget eqstr conts text) newItems := by
    apply drop_updates spares holds
    · exact fun other differ => ⟨forget_else differ, forget_else differ⟩
    · exact Or.inr ⟨forget_here, forget_here⟩
    · exact handed_length _
    · intro cell member
      have here : f.s = some cell := by
        cases present : conts text with
        | none =>
            rw [present] at member
            cases member
        | some c =>
            rw [present] at member
            exact mem_handed.mp member
      exact ⟨shows_alive shows_old here, mineOld cell here⟩
  have kept := sane_updates sane updates
  refine ⟨⟨map, after⟩, _, _, _, result, ?_, kept, fun covered _ => ?_, .blank, _, reply, map,
    congrArg (Option.map _) read, performed, rfl⟩
  · cases present : conts text with
    | none =>
        simp only [CorrectStr, (sane_content_none sane).mpr present]
        rfl
    | some c =>
        rcases sane_shows sane present with ⟨value, known, _⟩
        simp only [CorrectStr, known]
        rw [known] at shows_old
        exact ⟨f.s, rfl, copy_of kept shows_old given⟩
  · exact covered_updates covered updates fun cell present mine =>
      Or.inl (given cell (left cell present mine))

theorem add_noreplace_new_lands :
    Lands hash world content conts (.addNoreplaceNew key) (.addNoreplaceNew text) := by
  rcases base_goes sane bounded (.addNoreplaceNew text) with ⟨map, reply, newItems, performed,
    correct, holds⟩
  have base : KHashMap.addNoreplaceNew eqstr hash .blank world.m.map text = some (map, reply) :=
    performed
  have updates := new_updates sane holds
  have kept := sane_updates sane updates
  have goes : ∀ ret, reply = .pointer ret →
      CorrectStr hash content world.m ⟨map, world.m.strings⟩ (.pointer ret)
      (.addNoreplaceNew text) →
      Lands hash world content conts (.addNoreplaceNew key) (.addNoreplaceNew text) := by
    intro ret same right
    subst same
    refine ⟨⟨map, world.m.strings⟩, .pointer ret, _, _, ?_, right, kept, fun covered _ => ?_,
      .blank, _, _, map,
      congrArg (Option.map _) read, performed, rfl⟩
    · simp only [StringMap.perform, StringMap.addNoreplaceNew, read, base, pointerOf,
        Option.bind_eq_bind,
        Option.bind_some]
    · exact new_covered updates covered
  cases present : conts text with
  | none =>
      simp only [interface, Correct, present] at correct
      rcases correct with ⟨ret, answered, points⟩
      apply goes (some ret) answered
      simp only [CorrectStr, (sane_content_none sane).mpr present]
      exact ⟨ret, rfl, .blank, points, rfl⟩
  | some c =>
      simp only [interface, Correct, present] at correct
      rcases sane_shows sane present with ⟨value, known, _⟩
      apply goes none correct.1
      simp only [CorrectStr, known, correct.2]
      trivial

theorem find_or_new_lands : Lands hash world content conts (.findOrNew key) (.findOrNew text) := by
  rcases base_goes sane bounded (.findOrNew text) with ⟨map, reply, newItems, performed,
    correct, holds⟩
  rcases correct with ⟨ret, rfl, points⟩
  have base : KHashMap.findOrNew eqstr hash .blank world.m.map text = some (map,
    .pointer (some ret)) := performed
  have updates := new_updates sane holds
  refine ⟨⟨map, world.m.strings⟩, .pointer (some ret), _, _, ?_, ⟨ret, rfl, _, points, ?_⟩,
    sane_updates sane updates,
    fun covered _ => new_covered updates covered, .blank, _, _, map, congrArg (Option.map _) read,
    performed, rfl⟩
  · simp only [StringMap.perform, StringMap.findOrNew, read, base, pointerOf, Option.bind_eq_bind,
      Option.bind_some]
  · cases present : conts text with
    | none =>
        rw [(sane_content_none sane).mpr present]
        rfl
    | some c =>
        rcases sane_shows sane present with ⟨value, known, shown⟩
        rw [known]
        exact shown

omit bounded in
theorem find_fill_lands (strong : lent (conts text) = false) :
    Lands hash world content conts (.findFill key) (.findFill text) := by
  rcases find_fill_goes (lawful_str hash) sane.held .blank text with ⟨map, reply, _,
    performed, correct, _⟩
  have same : world.m.map.khashmap = map.khashmap := by rw [correct.2]
  cases present : conts text with
  | none =>
      have missing := (sane_content_none sane).mpr present
      refine ⟨world.m, .done false none, conts, items, ?_, ?_, ?_, fun covered _ => ?_, .blank,
        _, reply, map,
        congrArg (Option.map _) read, performed, same⟩
      · simp only [StringMap.perform, StringMap.findFill, read, stored_eq sane, present,
          Option.bind_eq_bind,
          Option.bind_some]
      · simp only [CorrectStr, missing]
        trivial
      · show Sane hash ⟨world.m, world.owned ++ []⟩ content conts items
        rw [List.append_nil]
        exact sane
      · show Covered ⟨world.m, world.owned ++ []⟩ conts
        rw [List.append_nil]
        exact covered
  | some c =>
      rcases sane_shows sane present with ⟨value, known, shown⟩
      rw [present] at strong
      rcases assign_eq strong shown with ⟨f, after, assigned, spares, shows_copy, new, only⟩
      have updates : Updates hash world content conts text ⟨world.m.map,
          after⟩ (handed (.done true (some f.s)))
          content conts items := {
        held := sane.held
        elsewhere := fun _ _ => ⟨rfl, rfl⟩
        shows_ := by
          rw [present, known]
          apply congrArg some
          apply shows_congr shown
          intro cell here
          exact spares.kept cell (shows_alive shown here) fun impossible => impossible
        spares := spares_mono spares fun _ impossible => impossible.elim
        mine := fun cell here => Or.inr here
        single := handed_length _
        gives := by
          intro cell member
          have here := mem_handed.mp member
          refine ⟨shows_alive shows_copy here, fun there => ?_, Or.inl (new cell here)⟩
          have bound := alive_bound (sane_alive sane there)
          have beyond := new cell here
          omega }
      have kept := sane_updates sane updates
      refine ⟨⟨world.m.map, after⟩, .done true (some f.s), conts, items, ?_, ?_, kept,
        fun covered _ => ?_, .blank, _,
        reply, map, congrArg (Option.map _) read, performed, same⟩
      · simp only [StringMap.perform, StringMap.findFill, read, stored_eq sane, present, assigned,
          Option.bind_eq_bind,
          Option.bind_some]
      · simp only [CorrectStr, known]
        exact ⟨f.s, rfl, copy_of kept shows_copy fun cell => mem_handed.mpr⟩
      · refine covered_updates covered updates fun cell stays mine => ?_
        rcases mine with beyond | here
        · exact Or.inl (mem_handed.mpr (only cell beyond stays))
        · exact Or.inr here

omit bounded in
theorem find_lands (present : (conts text).isSome) :
    Lands hash world content conts (.find key) (.find text) := by
  rcases Option.isSome_iff_exists.mp present with ⟨c, known⟩
  rcases sane_shows sane known with ⟨value, valued, shown⟩
  rcases points_to sane known with ⟨ret, found, stored⟩
  rcases write_holds sane known ⟨found, stored⟩ c.makeWeak with ⟨newItems, holds⟩
  have string : stringOf (assign eqstr conts text c.makeWeak text) = stringOf (conts text) := by
    rw [assign_here, known]
    rfl
  have updates : Updates hash world content conts text
      ⟨{ world.m.map with heap := world.m.map.heap.write ret c.makeWeak }, world.m.strings⟩
      (handed (.pointer (some ret))) content (assign eqstr conts text c.makeWeak) newItems := {
    held := holds
    elsewhere := fun other differ => ⟨rfl, assign_else differ⟩
    shows_ := by
      rw [assign_here, valued]
      exact congrArg some shown
    spares := spares_refl _ _
    mine := by
      intro cell here
      rw [string] at here
      exact Or.inr here
    single := handed_length _
    gives := fun cell member => by cases member }
  have kept := sane_updates sane updates
  refine ⟨_, .pointer (some ret), _, _, ?_, ?_, kept, fun covered _ => ?_, .blank, _,
    .pointer (some ret), world.m.map,
    congrArg (Option.map _) read, found, rfl⟩
  · simp only [StringMap.perform, StringMap.find, read, found, stored, Option.bind_eq_bind,
      Option.bind_some]
  · simp only [CorrectStr, valued]
    refine ⟨ret, rfl, c.makeWeak, ⟨?_, ?_⟩, shown⟩
    · exact find_table found
    · rw [read_write stored, if_pos rfl]
  · refine covered_updates covered updates fun cell stays mine => Or.inr ?_
    rw [string]
    rcases mine with beyond | here
    · exact absurd beyond (Nat.not_le_of_lt (alive_bound stays))
    · exact here

end Calls

theorem walk_holders (sane : Sane hash world content conts items) :
    ∃ visited, ∃ cs : List CStrCont, walk world.m.map = some visited ∧
      (visited.map Prod.snd).map world.m.map.heap.read = cs.map some ∧
      (cs.filterMap CStrCont.s).Nodup ∧
      ∀ cell, cell ∈ cs.filterMap CStrCont.s ↔ ∃ text, stringOf (conts text) = some cell := by
  rcases holds_agrees (lawful_str hash) sane.held with ⟨visited, entries, walked, same, lists, _⟩
  have inside : ∀ entry ∈ entries, conts entry.1 = some entry.2 := by
    intro entry member
    exact (lists.known entry.1 entry.2).mpr ⟨entry, member, same_str.mpr rfl, rfl⟩
  refine ⟨visited, entries.map Prod.snd, walked, ?_, ?_, fun cell => ?_⟩
  · have reads := congrArg (List.map Prod.snd) same
    rw [List.map_map, List.map_map] at reads
    rw [List.map_map, List.map_map]
    exact reads
  · rw [List.filterMap_map]
    unfold List.Nodup
    rw [List.pairwise_filterMap]
    apply lists.distinct.imp_of_mem
    intro left right leftMember rightMember differ first firstString second secondString equals
    subst equals
    apply differ
    apply same_str.mpr
    apply sane.single left.1 right.1 first
    · rw [inside left leftMember]
      exact firstString
    · rw [inside right rightMember]
      exact secondString
  · rw [List.filterMap_map, List.mem_filterMap]
    constructor
    · rintro ⟨entry, member, string⟩
      refine ⟨entry.1, ?_⟩
      rw [inside entry member]
      exact string
    · rintro ⟨text, here⟩
      rcases Option.bind_eq_some_iff.mp here with ⟨c, present, string⟩
      rcases (lists.known text c).mp present with ⟨entry, member, _, equals⟩
      refine ⟨entry, member, ?_⟩
      show entry.2.s = some cell
      rw [equals]
      exact string

theorem remove_all_lands (sane : Sane hash world content conts items) :
    Lands hash world content conts .removeAll .removeAll := by
  rcases walk_holders sane with ⟨visited, cs, walked, stored, apart, strings⟩
  have alive : ∀ cell ∈ cs.filterMap CStrCont.s, (world.m.strings.read cell).isSome := by
    intro cell member
    rcases (strings cell).mp member with ⟨other, here⟩
    exact sane_alive sane here
  rcases destroy_all_eq world.m.map.heap (visited.map Prod.snd) stored apart alive with
    ⟨after, destroyed, spares, sameFresh, cleared⟩
  rcases remove_all_goes sane.held .blank with ⟨map, reply, newItems, performed, correct, holds⟩
  have base : KHashMap.removeAll world.m.map = some (map, reply) := performed
  have stays : ∀ cell ∈ world.owned, after.read cell = world.m.strings.read cell := by
    intro cell owned
    apply spares.kept cell (sane.alive cell owned)
    intro member
    rcases (strings cell).mp member with ⟨other, here⟩
    exact sane.apart other cell here owned
  refine ⟨⟨map, after⟩, .done true none, fun _ => none, newItems, ?_, rfl, ?_,
    fun covered frees => ?_, .blank, _, reply,
    map, rfl, performed, rfl⟩
  · simp only [StringMap.perform, StringMap.removeAll, walked, destroyed, base, Option.bind_eq_bind,
      Option.bind_some]
  · show Sane hash ⟨⟨map, after⟩, world.owned ++ []⟩ (fun _ => none) (fun _ => none) newItems
    rw [List.append_nil]
    exact {
      held := holds
      shows_ := fun _ => rfl
      single := fun _ _ cell here => by cases here
      apart := fun _ cell here => by cases here
      alive := by
        intro cell owned
        show (after.read cell).isSome
        rw [stays cell owned]
        exact sane.alive cell owned
      nodup := sane.nodup }
  · show Covered ⟨⟨map, after⟩, world.owned ++ []⟩ fun _ => none
    rw [List.append_nil]
    have strong : ∀ c ∈ cs, lent (some c) = false := by
      intro c member
      have image : some c ∈ (visited.map Prod.snd).map world.m.map.heap.read := by
        rw [stored]
        exact List.mem_map_of_mem member
      rcases List.mem_map.mp image with ⟨d, _, read⟩
      exact frees d c read
    intro cell present
    rcases spares.only cell present with beyond | old
    · exact absurd (sameFresh ▸ beyond) (Nat.not_le_of_lt (alive_bound present))
    · rcases covered cell old with owned | here
      · exact Or.inl owned
      · rw [show after.read cell = none from cleared strong cell
          ((strings cell).mpr here)] at present
        cases present

/-! ## Every call -/

def passed : StrOp → List Nat
  | .addReplace key dat | .addReplaceOld key dat => [key, dat]
  | .addReplaceNew key | .addNoreplaceNew key | .findOrNew key | .findFill key | .find key
      | .remove key
  | .removeFill key => [key]
  | .removeAll => []

/-- `char **find` is called with a key that is there, `find(key, fill)` with one whose string is not
lent. -/
def Looks (hash : CString → BitVec 32) (m : StrMap) : StrOp → Prop
  | .find key => ∀ c, asked hash m key = some c → c.isSome
  | .findFill key => ∀ c, asked hash m key = some c → lent c = false
  | _ => True

/-- The value is not the string that the call frees before it copies it. -/
def Lasts (hash : CString → BitVec 32) (m : StrMap) : StrOp → Prop
  | .addReplace key dat | .addReplaceOld key dat =>
      ∀ c, asked hash m key = some c → lent c = false →
      stringOf c ≠ some dat
  | _ => True

theorem call_lands (sane : Sane hash world content conts items)
    (bounded : world.m.map.khashmap.nBuckets < 2 ^ 31) {op : StrOp}
    (exist : ∀ cell ∈ passed op, (world.m.strings.read cell).isSome) (looks : Looks hash world.m op)
    (lasts : Lasts hash world.m op) :
    ∃ said, spoken world.m.strings op = some said ∧ Lands hash world content conts op said := by
  have reads : ∀ cell ∈ passed op, ∃ text, world.m.strings.read cell = some text :=
    fun cell member =>
    Option.isSome_iff_exists.mp (exist cell member)
  cases op with
  | addReplace key dat =>
      rcases reads key List.mem_cons_self with ⟨text, read⟩
      have kept := lasts _ (asked_eq sane read)
      rcases reads dat (List.mem_cons_of_mem _ List.mem_cons_self) with ⟨value, readDat⟩
      refine ⟨.addReplace text (some value), ?_, add_replace_lands sane bounded read kept readDat⟩
      simp only [spoken, read, readDat, Option.bind_eq_bind, Option.bind_some]
  | addReplaceOld key dat =>
      rcases reads key List.mem_cons_self with ⟨text, read⟩
      have kept := lasts _ (asked_eq sane read)
      rcases reads dat (List.mem_cons_of_mem _ List.mem_cons_self) with ⟨value, readDat⟩
      refine ⟨.addReplaceOld text (some value), ?_,
        add_replace_old_lands sane bounded read kept readDat⟩
      simp only [spoken, read, readDat, Option.bind_eq_bind, Option.bind_some]
  | addReplaceNew key =>
      rcases reads key List.mem_cons_self with ⟨text, read⟩
      exact ⟨.addReplaceNew text, congrArg (Option.map _) read,
        add_replace_new_lands sane bounded read⟩
  | addNoreplaceNew key =>
      rcases reads key List.mem_cons_self with ⟨text, read⟩
      exact ⟨.addNoreplaceNew text, congrArg (Option.map _) read,
        add_noreplace_new_lands sane bounded read⟩
  | findOrNew key =>
      rcases reads key List.mem_cons_self with ⟨text, read⟩
      exact ⟨.findOrNew text, congrArg (Option.map _) read, find_or_new_lands sane bounded read⟩
  | findFill key =>
      rcases reads key List.mem_cons_self with ⟨text, read⟩
      exact ⟨.findFill text, congrArg (Option.map _) read,
        find_fill_lands sane read (looks _ (asked_eq sane read))⟩
  | find key =>
      rcases reads key List.mem_cons_self with ⟨text, read⟩
      exact ⟨.find text, congrArg (Option.map _) read,
        find_lands sane read (looks _ (asked_eq sane read))⟩
  | remove key =>
      rcases reads key List.mem_cons_self with ⟨text, read⟩
      exact ⟨.remove text, congrArg (Option.map _) read, remove_lands sane bounded read⟩
  | removeFill key =>
      rcases reads key List.mem_cons_self with ⟨text, read⟩
      exact ⟨.removeFill text, congrArg (Option.map _) read, remove_fill_lands sane bounded read⟩
  | removeAll => exact ⟨.removeAll, rfl, remove_all_lands sane⟩

end TWlib.StringMapCalls
