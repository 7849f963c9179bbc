import TWlib.SafeFifoThreads

/-!
# The FIFO that moves its elements

`tw_safeFIFOmv` is `tw_safeFIFO` with moves for its assignments, except for two. `addToHead` copies
its argument to the link once more, after `init_link` has moved it there, and the `removeOrBlock`
with a limit copies the element to `fill`. `husk` is the state a value is moved from into, and
`copied` what a copy assignment makes of a value.
-/

namespace TWlib.SafeFifoMv

open TWlib.Lib.LinkedChain TWlib.Lib.Monitor TWlib.Lib.Deque TWlib.SafeFifo TWlib.SafeFifoRegions
  TWlib.SafeFifoThreads

set_option autoImplicit false

variable {Item : Type*}

/-! ## The model -/

/-- What is in the link after the two assignments of `addToHead`. -/
def heldAtHead (husk copied : Item → Item) (theD : Item) : Item := copied (husk theD)

def timedRemoval : Action Item → Bool
  | .enter (.removeOrBlock timed) | .resume (.removeOrBlock timed) => timed
  | _ => false

def fillBy (copied : Item → Item) : Outcome Item → Outcome Item
  | .returns ret fill => .returns ret (fill.map copied)
  | .goes place => .goes place

/-- What the caller finds in `fill`. The event has the element that was in the link, which the
removals without a limit hand on. -/
def told (copied : Item → Item) (event : Event Item) : Event Item :=
  if timedRemoval event.action then { event with outcome := fillBy copied event.outcome } else event

/-- The adding and removing operations on an enabled queue. -/
def moving : Action Item → Bool
  | .enter (.add _) | .enter (.addToHead _) | .enter .remove | .enter (.removeOrBlock _) => true
  | .resume _ | .expire _ => true
  | _ => false

/-- The runs of `count` threads on a new queue. -/
abbrev MvRun (husk copied : Item → Item) (count : Nat) : List (Event Item) → World Item → Prop :=
  Run (heldAtHead husk copied) (fun _ event => moving event.action = true) (World.new count)

/-- The values given to the adds are those delivered, in the order of a double-ended queue, and
those still in the queue, which `remaining()` counts. -/
def Moves (events : List (Event Item)) (world : World Item) : Prop :=
  ∃ cells items, Represents world.fifo world.links cells items ∧
    world.fifo.remaining = items.length ∧
    Replay .empty (events.flatMap (Event.ops id))
      ⟨items, (events.flatMap (Event.ops id)).flatMap Op.delivered, []⟩

/-- Neither of the two copies makes a difference. -/
structure Faithful (husk copied : Item → Item) (event : Event Item) : Prop where
  head : ∀ value, event.action = .enter (.addToHead value) → heldAtHead husk copied value = value
  timed : timedRemoval event.action = true → ∀ item, event.outcome = .returns true (some item) →
    copied item = item

variable {husk copied left : Item → Item} {fifo : Fifo} {links : Links Item}
  {items after : List Item} {action : Action Item} {region : Region Item} {world next : World Item}
  {event : Event Item} {events : List (Event Item)} {count : Nat}

/-! ## The queue stays enabled -/

theorem did_enabled (did : Did left fifo links items action region after)
    (listed : moving action = true) :
    region.fifo.enabled = fifo.enabled := by
  cases did with
  | put pushes accepts same puts longer => exact same.enabled
  | took removes split same => exact same.enabled
  | unblocked unblocks =>
      rcases unblock_eq fifo links with ⟨blockCnt, inner, -⟩
      rw [inner]
  | unblockedAll unblocks =>
      rename_i assigning
      rcases unblock_all_eq fifo links assigning with ⟨blockCnt, inner, -⟩
      rw [inner]
  | enabled => cases listed
  | disabled => cases listed
  | copied same => cases listed
  | _ => rfl

theorem moving_filled (listed : moving event.action = true) : event.action ≠ .copy [] := by
  intro same
  rw [same] at listed
  cases listed

theorem run_filled (run : MvRun husk copied count events world) :
    ∀ event ∈ events, event.action ≠ .copy [] :=
  fun event member => moving_filled (execution_permitted run event member)

theorem run_enabled (run : MvRun husk copied count events world) :
    world.fifo.enabled = true ∧ ∀ event ∈ events, event.enabled = true := by
  induction run with
  | start => exact ⟨rfl, fun event member => absurd member List.not_mem_nil⟩
  | step run allowed step ih =>
      rcases ih with ⟨enabled, all⟩
      rcases run_replays run (run_filled run) with ⟨cells, items, delivered, cleared, sound, replay⟩
      rcases step_cases sound (moving_filled allowed) step with
        ⟨thread, region, threads, now, after, stood, did, acts, rfl, label, sound'⟩
      refine ⟨(did_enabled did allowed).trans enabled, fun earlier member => ?_⟩
      rcases List.mem_append.mp member with old | last
      · exact all earlier old
      · rw [List.mem_singleton.mp last, label]
        exact enabled

/-! ## The values given and the values told -/

theorem told_cases (husk copied : Item → Item) (enabled : event.enabled = true) :
    ((told copied event).ops id = event.ops (heldAtHead husk copied) ∧ Faithful husk copied event) ∨
    (∃ value, (told copied event).ops id = [.pushFront value] ∧
      event.ops (heldAtHead husk copied) = [.pushFront (heldAtHead husk copied value)] ∧
      (Faithful husk copied event ↔ heldAtHead husk copied value = value)) ∨
    ∃ item, (told copied event).ops id = [.popFront (copied item)] ∧
      event.ops (heldAtHead husk copied) = [.popFront item] ∧
      (Faithful husk copied event ↔ copied item = item) := by
  rcases event with ⟨i, action, accepts, outcome⟩
  cases (show accepts = true from enabled)
  by_cases timed : timedRemoval action = true
  · have removal : action = .enter (.removeOrBlock true) ∨
        action = .resume (.removeOrBlock true) := by
      unfold timedRemoval at timed
      split at timed
      · exact .inl (by rw [timed])
      · exact .inr (by rw [timed])
      · cases timed
    by_cases found : ∃ item, outcome = .returns true (some item)
    · rcases found with ⟨item, rfl⟩
      refine .inr (.inr ⟨item, ?_, ?_, fun faithful => faithful.timed timed item rfl, fun same =>
        ⟨fun value heads => ?_, fun _ other found => ?_⟩⟩)
      · rcases removal with rfl | rfl <;> rfl
      · rcases removal with rfl | rfl <;> rfl
      · rcases removal with rfl | rfl <;> cases heads
      · cases found
        exact same
    · refine .inl ⟨?_, fun value heads => ?_, fun _ item given => absurd ⟨item, given⟩ found⟩
      · cases outcome with
        | goes place => rcases removal with rfl | rfl <;> rfl
        | returns ret fill =>
            cases ret with
            | false => rcases removal with rfl | rfl <;> rfl
            | true =>
                cases fill with
                | none => rcases removal with rfl | rfl <;> rfl
                | some item => exact absurd ⟨item, rfl⟩ found
      · rcases removal with rfl | rfl <;> cases heads
  · have plain : told copied ⟨i, action, true, outcome⟩ = ⟨i, action, true, outcome⟩ := if_neg timed
    rw [plain]
    by_cases heads : ∃ value, action = .enter (.addToHead value)
    · rcases heads with ⟨value, rfl⟩
      refine .inr (.inl ⟨value, rfl, rfl, fun faithful => faithful.head value rfl, fun same =>
        ⟨fun other given => ?_, fun limited => absurd limited timed⟩⟩)
      cases given
      exact same
    · refine .inl ⟨?_, fun value given => absurd ⟨value, given⟩ heads,
        fun limited => absurd limited timed⟩
      have pushes : action.pushes id = action.pushes (heldAtHead husk copied) := by
        cases action with
        | enter call =>
            cases call with
            | addToHead value => exact absurd ⟨value, rfl⟩ heads
            | _ => rfl
        | resume place => cases place <;> rfl
        | _ => rfl
      simp only [Event.ops, pushes]

theorem told_ops_of_faithful (enabled : event.enabled = true)
    (faithful : Faithful husk copied event) :
    (told copied event).ops id = event.ops (heldAtHead husk copied) := by
  rcases told_cases husk copied enabled with ⟨same, -⟩ | ⟨value, given, held, iff⟩ | ⟨item,
    given, held, iff⟩
  · exact same
  · rw [given, held, iff.mp faithful]
  · rw [given, held, iff.mp faithful]

/-- From one content to the same content, the values told can only be those that are in the
links. -/
theorem faithful_of_replay {ledger first second : Ledger Item} (enabled : event.enabled = true)
    (told : Replay ledger ((told copied event).ops id) first)
    (happened : Replay ledger (event.ops (heldAtHead husk copied)) second)
    (contents : first.content = second.content) : Faithful husk copied event := by
  rcases told_cases husk copied enabled with ⟨-, faithful⟩ | ⟨value, given, held, iff⟩ | ⟨item,
    given, held, iff⟩
  · exact faithful
  · rw [given] at told
    rw [held] at happened
    rcases told with _ | ⟨⟨⟩, _ | _⟩
    rcases happened with _ | ⟨⟨⟩, _ | _⟩
    exact iff.mpr (List.head_eq_of_cons_eq contents).symm
  · rw [given] at told
    rw [held] at happened
    rcases told with _ | ⟨applied, -⟩
    rcases happened with _ | ⟨again, -⟩
    generalize taken : copied item = other at applied
    cases applied
    cases again
    exact iff.mpr taken

theorem moving_keeps (held : Item → Item) (listed : moving event.action = true) :
    ∀ op ∈ event.ops held, ∀ items, op ≠ .replace items := by
  rcases event with ⟨i, action, accepts, outcome⟩
  have keeps : action.replaces = none := by
    cases action with
    | enter call => cases call <;> first | rfl | cases listed
    | copy given => cases listed
    | _ => rfl
  have pushed : ∀ op, action.pushes held = some op → ∀ items, op ≠ .replace items := by
    intro op pushes items
    cases action with
    | enter call =>
        cases call <;> cases pushes
        rintro ⟨⟩
    | resume place =>
        cases place <;> cases pushes
        rintro ⟨⟩
    | _ => cases pushes
  intro op member items
  simp only [Event.ops, keeps] at member
  split at member
  · rename_i given pushes
    split_ifs at member
    · rw [List.mem_singleton.mp member]
      exact pushed given pushes items
    · cases member
  · rename_i same
    cases same
  · split_ifs at member
    · rw [List.mem_singleton.mp member]
      rintro ⟨⟩
    · cases member
  · cases member

/-! ## When the values come out as they were given -/

theorem told_history (faithful : ∀ event ∈ events, Faithful husk copied event)
    (enabled : ∀ event ∈ events, event.enabled = true) :
    (events.map (told copied)).flatMap (Event.ops id) =
    events.flatMap (Event.ops (heldAtHead husk copied)) := by
  rw [List.flatMap_map]
  exact List.flatMap_congr fun event member =>
    told_ops_of_faithful (enabled event member) (faithful event member)

theorem moves_of_faithful (run : MvRun husk copied count events world)
    (faithful : ∀ event ∈ events, Faithful husk copied event) :
    Moves (events.map (told copied)) world := by
  have listed := execution_permitted run
  rcases run_replays run (run_filled run) with ⟨cells, items, delivered, cleared, sound, replay⟩
  have ledger := replay_delivered replay
  have keeps : ∀ op ∈ events.flatMap (Event.ops (heldAtHead husk copied)), ∀ items,
      op ≠ .replace items := by
    intro op member
    rcases List.mem_flatMap.mp member with ⟨event, here, among⟩
    exact moving_keeps _ (listed event here) op among
  have nothing := replay_cleared keeps replay
  simp only [Ledger.empty, List.nil_append] at ledger nothing
  subst ledger nothing
  refine ⟨cells, items, sound.represents, sound.represents.counted, ?_⟩
  rw [told_history faithful (run_enabled run).2]
  exact replay

def headThenRemove : List (Turn Nat) := [.enter 0 (.addToHead 5), .resume 0 none, .enter 0 .remove]

def headThenRemoveEvents : List (Event Nat) :=
  [⟨0, .enter (.addToHead 5), true, .goes .unblock⟩,
    ⟨0, .resume .unblock, true, .returns true none⟩,
    ⟨0, .enter .remove, true, .returns true (some 0)⟩]

def addThenTimed : List (Turn Nat) :=
  [.enter 0 (.add 5), .resume 0 none, .resume 0 none, .enter 0 (.removeOrBlock true)]

def addThenTimedEvents : List (Event Nat) :=
  [⟨0, .enter (.add 5), true, .goes (.add 0 5)⟩, ⟨0, .resume (.add 0 5), true, .goes .unblock⟩,
    ⟨0, .resume .unblock, true, .returns true none⟩, ⟨0, .enter (.removeOrBlock true), true,
      .returns true (some 5)⟩]

def emptied : World Nat := ⟨Fifo.new, ⟨[none]⟩, [none]⟩

theorem another_value {ops : List (Op Nat)} {ledger : Ledger Nat}
    (pushes : ops = [.pushFront 5, .popFront 0] ∨
    ops = [.pushBack 5, .popFront 0]) : ¬ Replay .empty ops ledger := by
  intro replay
  rcases pushes with rfl | rfl
  all_goals
    cases replay with
    | next pushed rest =>
        cases pushed
        cases rest with
        | next popped rest => cases popped

end TWlib.SafeFifoMv
