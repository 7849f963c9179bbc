import TWlib.StringMap

/-!
# The strings behind the holders

The holders in the table are a finite map from keys to holders, `conts`; their
strings show the content of the string map. What a call does to the strings is
followed for one key: the strings of the other keys and of the caller stay.
-/

namespace TWlib.StringMapStrings

open TWlib.Lib.CellStore TWlib.Lib.FiniteMap TWlib.KHashTable TWlib.KHashSearch TWlib.KHashMap
  TWlib.KHashRefinement
  TWlib.StringMap

set_option autoImplicit false

variable {hash : CString → BitVec 32}

theorem lawful_str (hash : CString → BitVec 32) : Lawful hash eqstr := by
  have same : eqstr = fun kt1 kt2 => decide (kt1 = kt2) := by
    funext kt1 kt2
    exact beq_eq_decide kt1 kt2
  rw [same]
  exact lawful_eq hash

theorem same_str {left right : CString} : SameKey eqstr left right ↔ left = right := beq_iff_eq

section Update

variable {Value : Type} {content : Content CString Value} {key other : CString} {value : Value}

@[simp] theorem assign_here : assign eqstr content key value key = some value :=
  assign_same (same_str.mpr rfl)

theorem assign_else (differ : other ≠ key) : assign eqstr content key value other = content other :=
  assign_other fun same => differ (same_str.mp same).symm

@[simp] theorem forget_here : forget eqstr content key key = none := forget_same (same_str.mpr rfl)

theorem forget_else (differ : other ≠ key) : forget eqstr content key other = content other :=
  forget_other fun same => differ (same_str.mp same).symm

end Update

/-- The pointer is null as the value is, or the string it points to is there and has the text. -/
def Shows (strings : Store CString) (s : Option Nat) (value : Option CString) : Prop :=
  s.map strings.read = value.map some

theorem shows_alive {strings : Store CString} {s : Option Nat} {value : Option CString}
    (shows_ : Shows strings s value) {cell : Nat} (here : s = some cell) :
    (strings.read cell).isSome := by
  subst here
  cases value with
  | none => cases shows_
  | some text =>
      have read : strings.read cell = some text := Option.some.inj shows_
      rw [read]
      rfl

theorem shows_congr {before after : Store CString} {s : Option Nat} {value : Option CString}
    (shows_ : Shows before s value) (same : ∀ cell, s = some cell →
      after.read cell = before.read cell) :
    Shows after s value := by
  cases s with
  | none => exact shows_
  | some cell =>
      unfold Shows at shows_ ⊢
      rw [← shows_, Option.map_some, Option.map_some, same cell rfl]

def stringOf (c : Option CStrCont) : Option Nat := c.bind CStrCont.s

/-- The holder has a string that its destructor would not free. -/
def lent : Option CStrCont → Bool
  | some ⟨some _, true⟩ => true
  | _ => false

/-! ## One holder -/

section Holder

variable {strings : Store CString} {c : CStrCont} {value : Option CString}

theorem destroy_eq (alive : ∀ cell, c.s = some cell → (strings.read cell).isSome) :
    ∃ after, c.destroy strings = some after ∧ Spares strings after (fun cell => c.s = some cell) ∧
      after.fresh = strings.fresh ∧
      (lent (some c) = false → ∀ cell, c.s = some cell → after.read cell = none) := by
  rcases c with ⟨s, weak⟩
  cases s with
  | none =>
      refine ⟨strings, rfl, spares_refl _ _, rfl, fun _ cell here => ?_⟩
      cases here
  | some mine =>
      cases weak with
      | true =>
          refine ⟨strings, rfl, spares_refl _ _, rfl, fun strong => ?_⟩
          cases strong
      | false =>
          rcases Option.isSome_iff_exists.mp (alive mine rfl) with ⟨text, read⟩
          refine ⟨strings.giveUp mine, ?_, ?_, fresh_give_up _ _, fun _ cell here => ?_⟩
          · simp [CStrCont.destroy, read]
          · apply spares_mono (spares_give_up strings mine)
            intro cell same
            rw [same]
          · cases here
            rw [read_give_up, if_pos rfl]

theorem copyfrom_eq (shows_ : Shows strings c.s value) :
    ∃ s after, CStrCont.copyfrom strings c = some (⟨s, false⟩, after) ∧
      Spares strings after (fun _ => False) ∧
      Shows after s value ∧ (∀ cell, s = some cell → strings.fresh ≤ cell) ∧
      ∀ cell, strings.fresh ≤ cell → (after.read cell).isSome → s = some cell := by
  rcases c with ⟨s, weak⟩
  cases s with
  | none =>
      refine ⟨none, strings, rfl, spares_refl _ _, shows_, fun cell here => ?_,
        fun cell new present => ?_⟩
      · cases here
      · exact absurd new (Nat.not_le_of_lt (alive_bound present))
  | some mine =>
      cases value with
      | none => cases shows_
      | some text =>
          have read : strings.read mine = some text := Option.some.inj shows_
          refine ⟨some strings.fresh, strings.push text, ?_, spares_push _ _, ?_,
            fun cell here => ?_,
            fun cell new present => ?_⟩
          · simp [CStrCont.copyfrom, read]
          · show some ((strings.push text).read strings.fresh) = some (some text)
            rw [read_push, if_pos rfl]
          · cases here
            exact Nat.le_refl _
          · rw [read_push] at present
            by_cases same : cell = strings.fresh
            · rw [same]
            · rw [if_neg same, read_beyond new] at present
              cases present

/-- The assignment to a blank holder copies a string that is not lent. -/
theorem assign_eq (strong : lent (some c) = false) (shows_ : Shows strings c.s value) :
    ∃ f after, CStrCont.blank.assign strings c = some (f, after) ∧
      Spares strings after (fun _ => False) ∧
      Shows after f.s value ∧ (∀ cell, f.s = some cell → strings.fresh ≤ cell) ∧
      ∀ cell, strings.fresh ≤ cell → (after.read cell).isSome → f.s = some cell := by
  rcases c with ⟨s, weak⟩
  cases weak with
  | false =>
      rcases copyfrom_eq shows_ with ⟨copy, after, copied, spares, shows_copy, new, only⟩
      exact ⟨⟨copy, false⟩, after, copied, spares, shows_copy, new, only⟩
  | true =>
      cases s with
      | some mine => cases strong
      | none =>
          refine ⟨⟨none, true⟩, strings, rfl, spares_refl _ _, shows_, fun cell here => ?_,
            fun cell new present => ?_⟩
          · cases here
          · exact absurd new (Nat.not_le_of_lt (alive_bound present))

variable {old : Option CStrCont}

theorem destroy_old_eq (alive : ∀ cell, stringOf old = some cell → (strings.read cell).isSome) :
    ∃ after, destroyOld strings old = some after ∧
      Spares strings after (fun cell => stringOf old = some cell) ∧
      after.fresh = strings.fresh ∧
      (lent old = false → ∀ cell, stringOf old = some cell → after.read cell = none) := by
  cases old with
  | none =>
      refine ⟨strings, rfl, spares_refl _ _, rfl, fun _ cell here => ?_⟩
      cases here
  | some c => exact destroy_eq alive

theorem destroy_old_lent (isLent : lent old = true) : destroyOld strings old = some strings := by
  rcases old with _ | ⟨s, weak⟩
  · rfl
  · cases s with
    | none => rfl
    | some mine =>
        cases weak with
        | true => rfl
        | false => cases isLent

theorem hand_over_lent (isLent : lent old = true) :
    ∃ f, handOver strings old = some (f, strings) := by
  rcases old with _ | ⟨s, weak⟩
  · cases isLent
  · cases weak with
    | true => cases s <;> exact ⟨_, rfl⟩
    | false => cases s <;> cases isLent

/-- The string of the old holder itself if it is lent, else a copy of it, and then the string is
freed. -/
theorem hand_over_eq (shows_ : ∀ c, old = some c → Shows strings c.s value)
    (blank : old = none → value = none) :
    ∃ f after, handOver strings old = some (f, after) ∧
      Spares strings after (fun cell => stringOf old = some cell) ∧ Shows after f.s value ∧
      (∀ cell, f.s = some cell → strings.fresh ≤ cell ∨ stringOf old = some cell) ∧
      ∀ cell, (after.read cell).isSome → strings.fresh ≤ cell ∨ stringOf old = some cell →
      f.s = some cell := by
  cases old with
  | none =>
      rw [blank rfl]
      refine ⟨.blank, strings, rfl, spares_refl _ _, rfl, fun cell here => ?_,
        fun cell present where_ => ?_⟩
      · cases here
      · rcases where_ with new | here
        · exact absurd new (Nat.not_le_of_lt (alive_bound present))
        · cases here
  | some c =>
      have shown := shows_ c rfl
      rcases c with ⟨s, weak⟩
      cases weak with
      | true =>
          refine ⟨⟨s, true⟩, strings, ?_, spares_refl _ _, shown, fun cell here => Or.inr here,
            fun cell present where_ => ?_⟩
          · cases s with
            | none => rfl
            | some mine => rfl
          · rcases where_ with new | here
            · exact absurd new (Nat.not_le_of_lt (alive_bound present))
            · exact here
      | false =>
          rcases copyfrom_eq shown with ⟨copy, copied, made, spares, shows_copy, new, only⟩
          have alive : ∀ cell, s = some cell → (strings.read cell).isSome :=
            fun _ => shows_alive shown
          have alive_copied : ∀ cell, s = some cell → (copied.read cell).isSome := by
            intro cell here
            rw [spares.kept cell (alive cell here) (fun gone => gone)]
            exact alive cell here
          rcases destroy_eq (c := ⟨s, false⟩) alive_copied with ⟨after, destroyed, freed,
            sameFresh, cleared⟩
          have differ : ∀ cell, copy = some cell → s ≠ some cell := by
            intro cell isNew isOld
            have bound := alive_bound (alive cell isOld)
            have beyond := new cell isNew
            omega
          refine ⟨⟨copy, false⟩, after, ?_, ?_, ?_, fun cell here => Or.inl (new cell here),
            fun cell present where_ => ?_⟩
          · have first : CStrCont.blank.assign strings ⟨s, false⟩ = some (⟨copy, false⟩, copied) :=
              made
            simp only [handOver, first, destroyed, Option.bind_eq_bind, Option.bind_some]
          · exact spares_trans (spares_mono spares fun _ impossible => impossible.elim) freed
          · apply shows_congr shows_copy
            intro cell here
            exact freed.kept cell (shows_alive shows_copy here) (differ cell here)
          · have strong : lent (some ⟨s, false⟩) = false := by
              cases s with
              | none => rfl
              | some mine => rfl
            have before : (copied.read cell).isSome := by
              by_contra missing
              rw [spares_gone freed sameFresh (Option.not_isSome_iff_eq_none.mp missing)] at present
              cases present
            rcases where_ with beyond | here
            · exact only cell beyond before
            · rw [cleared strong cell here] at present
              cases present

theorem destroy_all_eq (heap : Store CStrCont) (ds : List Nat) {cs : List CStrCont}
    (stored : ds.map heap.read = cs.map some) (apart : (cs.filterMap CStrCont.s).Nodup)
    (alive : ∀ cell ∈ cs.filterMap CStrCont.s, (strings.read cell).isSome) :
    ∃ after, destroyAll heap strings ds = some after ∧
      Spares strings after (fun cell => cell ∈ cs.filterMap CStrCont.s) ∧
      after.fresh = strings.fresh ∧
      ((∀ c ∈ cs, lent (some c) = false) → ∀ cell ∈ cs.filterMap CStrCont.s,
        after.read cell = none) := by
  induction ds generalizing strings cs with
  | nil =>
      have none_ : cs = [] := List.map_eq_nil_iff.mp stored.symm
      subst none_
      exact ⟨strings, rfl, spares_refl _ _, rfl, fun _ cell member => by cases member⟩
  | cons d ds ih =>
      cases cs with
      | nil => cases stored
      | cons c cs =>
          have first : heap.read d = some c := (List.cons.inj stored).1
          have mine : ∀ cell, c.s = some cell →
              cell ∈ (c :: cs).filterMap CStrCont.s ∧ cell ∉ cs.filterMap CStrCont.s := by
            intro cell here
            rw [List.filterMap_cons_some here] at apart ⊢
            exact ⟨List.mem_cons_self, (List.nodup_cons.mp apart).1⟩
          have later : ∀ cell ∈ cs.filterMap CStrCont.s, cell ∈ (c :: cs).filterMap CStrCont.s := by
            intro cell member
            rcases List.mem_filterMap.mp member with ⟨other, here, string⟩
            exact List.mem_filterMap.mpr ⟨other, List.mem_cons_of_mem _ here, string⟩
          rcases destroy_eq fun cell here => alive cell (mine cell here).1 with
            ⟨middle, destroyed, spares, sameFresh, cleared⟩
          have stays : ∀ cell ∈ cs.filterMap CStrCont.s, (middle.read cell).isSome := by
            intro cell member
            rw [spares.kept cell (alive cell (later cell member)) fun here =>
              (mine cell here).2 member]
            exact alive cell (later cell member)
          have restApart : (cs.filterMap CStrCont.s).Nodup :=
            apart.sublist ((List.sublist_cons_self c cs).filterMap CStrCont.s)
          rcases ih (List.cons.inj stored).2 restApart stays with ⟨after, ran, restSpares,
            restFresh, restCleared⟩
          refine ⟨after, ?_, ?_, restFresh.trans sameFresh, fun strong cell member => ?_⟩
          · simp only [destroyAll, first, destroyed, ran, Option.bind_eq_bind, Option.bind_some]
          · exact spares_trans (spares_mono spares fun cell here => (mine cell here).1)
              (spares_mono restSpares later)
          · by_cases inRest : cell ∈ cs.filterMap CStrCont.s
            · exact restCleared (fun other there => strong other
                (List.mem_cons_of_mem _ there)) cell inRest
            · rcases List.mem_filterMap.mp member with ⟨other, here, string⟩
              rcases List.mem_cons.mp here with isFirst | there
              · subst isFirst
                exact spares_gone restSpares restFresh (cleared (strong other List.mem_cons_self)
                  cell string)
              · exact absurd (List.mem_filterMap.mpr ⟨other, there, string⟩) inRest

end Holder

/-! ## The invariant -/

/-- The strings of the holders show the content and belong to one key each; none of them is the
caller's. -/
structure Sane (hash : CString → BitVec 32) (world : World)
    (content : Content CString (Option CString)) (conts : Content CString CStrCont)
    (items : List (Item CString CStrCont)) : Prop where
  held : Holds hash eqstr world.m.map conts items
  shows_ : ∀ key, (conts key).map (fun c => c.s.map world.m.strings.read) = (content key).map
    (·.map some)
  single : ∀ key other cell, stringOf (conts key) = some cell →
    stringOf (conts other) = some cell → key = other
  apart : ∀ key cell, stringOf (conts key) = some cell → cell ∉ world.owned
  alive : ∀ cell ∈ world.owned, (world.m.strings.read cell).isSome
  nodup : world.owned.Nodup

/-- No string is lost: each is the caller's or that of a key. -/
def Covered (world : World) (conts : Content CString CStrCont) : Prop :=
  ∀ cell, (world.m.strings.read cell).isSome → cell ∈ world.owned ∨
    ∃ key, stringOf (conts key) = some cell

section Invariant

variable {world : World} {content : Content CString (Option CString)}
  {conts : Content CString CStrCont} {items : List (Item CString CStrCont)} {key : CString}
  {cell : Nat}

theorem sane_content_none (sane : Sane hash world content conts items) :
    content key = none ↔ conts key = none := by
  have shown := sane.shows_ key
  constructor
  · intro missing
    rw [missing] at shown
    exact Option.map_eq_none_iff.mp shown
  · intro missing
    rw [missing] at shown
    exact Option.map_eq_none_iff.mp shown.symm

theorem sane_shows (sane : Sane hash world content conts items) {c : CStrCont}
    (here : conts key = some c) :
    ∃ value, content key = some value ∧ Shows world.m.strings c.s value := by
  have shown := sane.shows_ key
  rw [here] at shown
  rcases Option.map_eq_some_iff.mp shown.symm with ⟨value, present, same⟩
  exact ⟨value, present, same.symm⟩

theorem sane_alive (sane : Sane hash world content conts items)
    (here : stringOf (conts key) = some cell) :
    (world.m.strings.read cell).isSome := by
  rcases Option.bind_eq_some_iff.mp here with ⟨c, present, same⟩
  rcases sane_shows sane present with ⟨value, _, shown⟩
  exact shows_alive shown same

/-- What a call changes: the entry of one key and its string. -/
structure Updates (hash : CString → BitVec 32) (world : World)
    (content : Content CString (Option CString)) (conts : Content CString CStrCont) (key : CString)
    (after : StrMap) (given : List Nat) (newContent : Content CString (Option CString))
    (newConts : Content CString CStrCont) (newItems : List (Item CString CStrCont)) : Prop where
  held : Holds hash eqstr after.map newConts newItems
  elsewhere : ∀ other, other ≠ key → newContent other = content other ∧ newConts other = conts other
  shows_ : (newConts key).map (fun c => c.s.map after.strings.read) = (newContent key).map
    (·.map some)
  spares : Spares world.m.strings after.strings fun cell => stringOf (conts key) = some cell
  mine : ∀ cell, stringOf (newConts key) = some cell →
    world.m.strings.fresh ≤ cell ∨ stringOf (conts key) = some cell
  single : given.length ≤ 1
  gives : ∀ cell ∈ given, (after.strings.read cell).isSome ∧ stringOf (newConts key) ≠ some cell ∧
    (world.m.strings.fresh ≤ cell ∨ stringOf (conts key) = some cell)

variable {after : StrMap} {given : List Nat} {newContent : Content CString (Option CString)}
  {newConts : Content CString CStrCont} {newItems : List (Item CString CStrCont)}

theorem mine_apart (sane : Sane hash world content conts items)
    (mine : world.m.strings.fresh ≤ cell ∨ stringOf (conts key) = some cell) :
    cell ∉ world.owned ∧ ∀ other, other ≠ key → stringOf (conts other) ≠ some cell := by
  rcases mine with new | here
  · constructor
    · intro owned
      have bound := alive_bound (sane.alive cell owned)
      omega
    · intro other _ there
      have bound := alive_bound (sane_alive sane there)
      omega
  · constructor
    · exact sane.apart key cell here
    · intro other differ there
      exact differ (sane.single other key cell there here)

theorem updates_shows (sane : Sane hash world content conts items)
    (updates : Updates hash world content conts key after given newContent newConts newItems)
    (other : CString) :
    (newConts other).map (fun c => c.s.map after.strings.read) = (newContent other).map
    (·.map some) := by
  by_cases here : other = key
  · rw [here]
    exact updates.shows_
  · rcases updates.elsewhere other here with ⟨sameContent, sameConts⟩
    rw [sameContent, sameConts, ← sane.shows_ other]
    cases present : conts other with
    | none => rfl
    | some c =>
        have read : ∀ cell, c.s = some cell → after.strings.read cell =
            world.m.strings.read cell := by
          intro cell there
          have stored : stringOf (conts other) = some cell := by
            rw [present]
            exact there
          exact updates.spares.kept cell (sane_alive sane stored) fun gone =>
            here (sane.single other key cell stored gone)
        cases string : c.s with
        | none => simp only [Option.map_some, string, Option.map_none]
        | some cell => simp only [Option.map_some, string, read cell string]

theorem updates_nodup (sane : Sane hash world content conts items)
    (updates : Updates hash world content conts key after given newContent newConts newItems) :
    (world.owned ++ given).Nodup := by
  have once : given.Nodup := by
    have short := updates.single
    rcases given with _ | ⟨first, _ | ⟨second, rest⟩⟩
    · exact List.nodup_nil
    · exact List.nodup_singleton _
    · simp at short
  apply List.nodup_append.mpr ⟨sane.nodup, once, _⟩
  intro left leftMember right rightMember equals
  subst equals
  exact (mine_apart sane (updates.gives left rightMember).2.2).1 leftMember

theorem sane_updates (sane : Sane hash world content conts items)
    (updates : Updates hash world content conts key after given newContent newConts newItems) :
    Sane hash ⟨after, world.owned ++ given⟩ newContent newConts newItems := by
  have same : ∀ other, other ≠ key → ∀ cell, stringOf (newConts other) = some cell →
      stringOf (conts other) = some cell := by
    intro other differ cell there
    rw [(updates.elsewhere other differ).2] at there
    exact there
  exact {
    held := updates.held
    shows_ := updates_shows sane updates
    single := by
      intro first second cell left right
      by_cases atFirst : first = key
      · by_cases atSecond : second = key
        · rw [atFirst, atSecond]
        · rw [atFirst] at left
          exact absurd (same second atSecond cell right)
            ((mine_apart sane (updates.mine cell left)).2 second atSecond)
      · by_cases atSecond : second = key
        · rw [atSecond] at right
          exact absurd (same first atFirst cell left)
            ((mine_apart sane (updates.mine cell right)).2 first atFirst)
        · exact sane.single first second cell (same first atFirst cell left)
            (same second atSecond cell right)
    apart := by
      intro other cell there member
      rcases List.mem_append.mp member with owned | isGiven
      · by_cases here : other = key
        · rw [here] at there
          exact (mine_apart sane (updates.mine cell there)).1 owned
        · exact sane.apart other cell (same other here cell there) owned
      · rcases updates.gives cell isGiven with ⟨_, left, mine⟩
        by_cases here : other = key
        · rw [here] at there
          exact left there
        · exact (mine_apart sane mine).2 other here (same other here cell there)
    alive := by
      intro cell member
      rcases List.mem_append.mp member with owned | isGiven
      · show (after.strings.read cell).isSome
        rw [updates.spares.kept cell (sane.alive cell owned) fun gone =>
          sane.apart key cell gone owned]
        exact sane.alive cell owned
      · exact (updates.gives cell isGiven).1
    nodup := updates_nodup sane updates }

theorem covered_updates (covered : Covered world conts)
    (updates : Updates hash world content conts key after given newContent newConts newItems)
    (kept : ∀ cell, (after.strings.read cell).isSome →
      world.m.strings.fresh ≤ cell ∨ stringOf (conts key) = some cell →
        cell ∈ given ∨ stringOf (newConts key) = some cell) :
    Covered ⟨after, world.owned ++ given⟩ newConts := by
  intro cell present
  have found : world.m.strings.fresh ≤ cell ∨ stringOf (conts key) = some cell →
      cell ∈ world.owned ++ given ∨ ∃ key, stringOf (newConts key) = some cell := by
    intro mine
    rcases kept cell present mine with isGiven | here
    · exact Or.inl (List.mem_append_right _ isGiven)
    · exact Or.inr ⟨key, here⟩
  rcases updates.spares.only cell present with new | old
  · exact found (Or.inl new)
  · rcases covered cell old with owned | ⟨other, there⟩
    · exact Or.inl (List.mem_append_left _ owned)
    · by_cases here : other = key
      · rw [here] at there
        exact found (Or.inr there)
      · refine Or.inr ⟨other, ?_⟩
        rw [(updates.elsewhere other here).2]
        exact there

end Invariant

end TWlib.StringMapStrings
