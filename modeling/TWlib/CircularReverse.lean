import TWlib.CircularWakeups

/-!
# Reversing a circular queue while others use it

`reverse` takes no lock. It looks at the count, writes `_reverse`, and then swaps the
indices, and what another thread does in between works on the new direction with the
old indices. The writing of `_reverse` is the moment at which the queue is reversed
when nobody's addition or removal falls between it and the last assignment.
-/

namespace TWlib.CircularReverse

open TWlib.Lib.Monitor TWlib.Lib.RingSlots TWlib.CircularBuffer TWlib.CircularThreads
    TWlib.CircularWakeups

set_option autoImplicit false

variable {Item : Type*}

/-! ## The steps of `reverse` -/

/-- Where the thread that reverses is, with what it has read so far. -/
inductive Phase where
  | outside
  /-- `remain() < 1` was false. -/
  | tested
  | read (reverse : Bool)
  | flipped
  /-- `int t = nextOut;` -/
  | kept (t : Int)
  | fetched (t nextIn : Int)
  | moved (t : Int)

inductive Move (Item : Type*) where
  | region (event : Event Item)
  | test
  | read
  | flip
  | keep
  | fetch
  | moveOut
  | moveIn

structure State (Item : Type*) where
  world : World Item
  phase : Phase

/-- One access to a member of the class each. -/
inductive Passes (husk : Item → Item) : State Item → Move Item → State Item → Prop where
  | region {world next : World Item} {event : Event Item} (phase : Phase)
      (step : Step husk world event next) :
      Passes husk ⟨world, phase⟩ (.region event) ⟨next, phase⟩
  | leave {world : World Item} (few : world.queue.remain < 1) :
      Passes husk ⟨world, .outside⟩ .test ⟨world, .outside⟩
  | test {world : World Item} (some_ : ¬ world.queue.remain < 1) :
      Passes husk ⟨world, .outside⟩ .test ⟨world, .tested⟩
  | read (world : World Item) : Passes husk ⟨world, .tested⟩ .read ⟨world,
      .read world.queue.reverse⟩
  | flip (world : World Item) (reverse : Bool) :
      Passes husk ⟨world, .read reverse⟩ .flip
        ⟨{ world with queue := { world.queue with reverse := !reverse } }, .flipped⟩
  | keep (world : World Item) : Passes husk ⟨world, .flipped⟩ .keep ⟨world,
      .kept world.queue.nextOut⟩
  | fetch (world : World Item) (t : Int) :
      Passes husk ⟨world, .kept t⟩ .fetch ⟨world, .fetched t world.queue.nextIn⟩
  | moveOut (world : World Item) (t nextIn : Int) :
      Passes husk ⟨world, .fetched t nextIn⟩ .moveOut
        ⟨{ world with queue := { world.queue with nextOut := nextIn } }, .moved t⟩
  | moveIn (world : World Item) (t : Int) :
      Passes husk ⟨world, .moved t⟩ .moveIn
        ⟨{ world with queue := { world.queue with nextIn := t } }, .outside⟩

abbrev Run (husk : Item → Item) (permitted : State Item → Move Item → Prop) :
    State Item → List (Move Item) → State Item → Prop :=
  Execution (Passes husk) permitted

/-- What any threads make of a new queue with regions, `set`, `clear` and whole reversals. -/
inductive Reachable (husk : Item → Item) (blank : Item) : World Item → Prop where
  | new {size : Int} (positive : 1 ≤ size) (isObjects : Bool) {data : List Item}
      (whole : (data.length : Int) = size)
      (count : Nat) : Reachable husk blank (World.new (Circular.new size isObjects data) count)
  | region {world next : World Item} {event : Event Item} (reachable : Reachable husk blank world)
      (step : Step husk world event next) : Reachable husk blank next
  | set {world : World Item} {queue : Circular Item} {n : Int} {value : Item} {ret : Bool}
      (reachable : Reachable husk blank world) (set : world.queue.set n value = some (queue, ret)) :
      Reachable husk blank { world with queue }
  | clear {world : World Item} (reachable : Reachable husk blank world) :
      Reachable husk blank { world with queue := world.queue.clear blank }
  | reverse {world : World Item} (reachable : Reachable husk blank world) :
      Reachable husk blank { world with queue := world.queue.reverseOrder }

theorem reverse_alone (husk : Item → Item) (world : World Item) (some_ : ¬ world.queue.remain < 1) :
    Run husk (fun _ _ => True) ⟨world, .outside⟩ [.test, .read, .flip, .keep, .fetch,
      .moveOut, .moveIn]
      ⟨{ world with queue := world.queue.reverseOrder }, .outside⟩ := by
  rw [Circular.reverseOrder, if_neg some_]
  have tested : Run husk (fun _ _ => True) ⟨world, .outside⟩ [.test] ⟨world, .tested⟩ :=
    .step .start trivial (.test some_)
  have flipped := Execution.step (Execution.step tested trivial (.read world)) trivial
    (.flip world _)
  have fetched := Execution.step (Execution.step flipped trivial (.keep _)) trivial (.fetch _ _)
  exact .step (.step fetched trivial (.moveOut _ _ _)) trivial (.moveIn _ _)

/-! ## What is stated -/

def stock (size : Int) (items : List Item) : Cond → Int
  | .gtZeroCond => size - items.length
  | .decrementCond => items.length

inductive Meant (size : Int) (items : List Item) (call : Call Item) :
    Outcome Item → List Item → Prop where
  | put {value : Item} {arg : Option Item} (adds : call.adding = some value)
      (room : items.length < size) :
      Meant size items call (.returns true arg) (items ++ [value])
  | took {item : Item} {rest : List Item} (adds : call.adding = none)
      (removes : call.removing = true)
      (split : items = item :: rest) : Meant size items call (.returns true (some item)) rest
  | refused {cond : Cond} (takes : call.cond = some cond) (short : stock size items cond = 0) :
      Meant size items call (.returns false none) items
  | waits {job : Job Item} (blocking : call = .blocking job)
      (short : stock size items job.cond = 0) :
      Meant size items call (.waits job.cond) items
  | expired {job : Job Item} (blocking : call = .blocking job) (expires : job.expires = true) :
      Meant size items call (.returns false none) items
  | unblocked (unblocks : call = .unblockAllRemovers) :
      Meant size items call (.returns true none) items

/-- The regions make of a sequence what they are meant to, and the writing of `_reverse` reverses
it. -/
inductive Replays (size : Int) (first : List Item) : List (Move Item) → List Item → Prop where
  | start : Replays size first [] first
  | region {moves : List (Move Item)} {items after : List Item} {event : Event Item}
      (replays : Replays size first moves items)
      (meant : Meant size items event.call event.outcome after) :
      Replays size first (moves ++ [.region event]) after
  | flip {moves : List (Move Item)} {items : List Item} (replays : Replays size first moves items) :
      Replays size first (moves ++ [.flip]) items.reverse
  | silent {moves : List (Move Item)} {items : List Item} {move : Move Item}
      (replays : Replays size first moves items)
      (region : ∀ event, move ≠ .region event) (flip : move ≠ .flip) :
      Replays size first (moves ++ [move]) items

def Move.added : Move Item → List Item
  | .region event => event.added
  | _ => []

def Move.delivered : Move Item → List Item
  | .region event => event.delivered
  | _ => []

def Quiet (event : Event Item) : Prop := event.added = [] ∧ event.delivered = []

/-- A removal that does not set the indices back: it leaves an element, or follows a wait. -/
def LeavesIndices (world : World Item) (event : Event Item) : Prop :=
  event.call.adding = none ∧
    (world.queue.remain ≠ 1 ∨ ∃ waiter, world.threads[event.thread]? = some (some waiter))

/-- When `_reverse` is written it is as it was read and the indices have not been set back to the
start; from then on nothing is added or removed, except by a removal between the last two
assignments that does not set the indices back. -/
def Permitted (state : State Item) : Move Item → Prop
  | .flip => state.world.queue.nextIn ≠ -1 ∧
      ∀ reverse, state.phase = .read reverse → state.world.queue.reverse = reverse
  | .region event =>
      match state.phase with
      | .flipped | .kept _ | .fetched _ _ => Quiet event
      | .moved _ => Quiet event ∨ LeavesIndices state.world event
      | _ => True
  | _ => True

/-! ## What the call would make of the queue -/

/-- The queue when the rest of the call is executed at once. -/
def complete : Phase → Circular Item → Circular Item
  | .flipped, queue => { queue with nextOut := queue.nextIn, nextIn := queue.nextOut }
  | .kept t, queue => { queue with nextOut := queue.nextIn, nextIn := t }
  | .fetched t nextIn, queue => { queue with nextOut := nextIn, nextIn := t }
  | .moved t, queue => { queue with nextIn := t }
  | _, queue => queue

variable {husk : Item → Item} {queue : Circular Item} {items first : List Item} {call : Call Item}
  {job : Job Item} {region : Region Item} {world next : World Item} {event : Event Item}
  {phase : Phase} {size : Int} {state after : State Item} {move : Move Item}
  {moves : List (Move Item)}

/-- Also an empty queue can be reversed, as long as its indices are not those of the start. -/
theorem represents_turned (held : Represents queue items) (used : queue.nextIn ≠ -1) :
    Represents (complete .flipped { queue with reverse := !queue.reverse }) items.reverse := by
  cases items with
  | nil =>
      have out := held.outRange
      have input := held.inRange
      have behind := held.behind
      have positive := held.positive
      let turned : Circular Item := complete .flipped { queue with reverse := !queue.reverse }
      have opposite : turned.step = -queue.step := by
        simp only [turned, complete, Circular.step]
        by_cases reversed : queue.reverse = true
        · simp [reversed]
        · simp [reversed]
      exact
        { positive := positive
          whole := held.whole
          semaSize := held.semaSize
          count := held.count
          laid := laid_nil _ _ _
          outRange := ⟨by simp only [complete]; omega, input.2⟩
          inRange := ⟨by simp only [complete]; omega, out.2⟩
          started := fun start => by
            simp only [complete] at start
            omega
          behind := by
            change (queue.nextOut + turned.step) % queue.size =
              slot queue.size queue.nextIn turned.step 0
            rw [List.length_nil, slot_zero] at behind
            rw [opposite, slot_zero, ← sub_eq_add_neg]
            have back := Int.ModEq.sub_right queue.step (behind : queue.nextIn +
              queue.step ≡ queue.nextOut [ZMOD _])
            rw [add_sub_cancel_right] at back
            exact back.symm }
  | cons item rest =>
      have count := remain_eq held
      rw [List.length_cons] at count
      have turned := represents_reverse held
      rw [Circular.reverseOrder, if_neg (by omega)] at turned
      exact turned

/-! ## Regions -/

theorem meant_of_did (did : Did queue items call region first) :
    Meant queue.size items call region.outcome first := by
  cases did with
  | put room adds represents kept => exact .put adds room
  | took adds removes split represents kept => exact .took adds removes split
  | refused takes short =>
      rename_i cond
      cases cond <;> exact .refused takes short
  | waits blocking short =>
      rename_i job
      have none : stock queue.size items job.cond = 0 := by
        cases cond : job.cond <;> rw [cond] at short <;> exact short
      exact .waits blocking none
  | unblocked unblocks => exact .unblocked unblocks

theorem meant_of_step (held : Represents world.queue items) (step : Step husk world event next) :
    ∃ left, Represents next.queue left ∧ next.queue.size = world.queue.size ∧
      Meant world.queue.size items event.call event.outcome left := by
  cases step with
  | start ran acts =>
      rename_i i call region threads
      rcases enter_did husk call held with ⟨known, left, found, did⟩
      cases Option.some.inj (ran.symm.trans found)
      rcases did_moves held did i with ⟨represents, -, kept, -⟩
      exact ⟨left, represents, kept.size, meant_of_did did⟩
  | resume ran acts =>
      rename_i i job signalled region threads
      rcases resume_did husk job held with ⟨known, left, found, did⟩
      cases Option.some.inj (ran.symm.trans found)
      rcases did_moves held did i with ⟨represents, -, kept, -⟩
      exact ⟨left, represents, kept.size, meant_of_did did⟩
  | expire expires acts => exact ⟨items, held, rfl, .expired rfl expires⟩

theorem call_without_cond (none : call.cond = none) : call = .unblockAllRemovers := by
  cases call with
  | blocking job => cases job <;> cases none
  | unblockAllRemovers => rfl
  | _ => cases none

theorem adding_of_cond (takes : call.cond = some .gtZeroCond) :
    ∃ value, call.adding = some value := by
  unfold Call.cond at takes
  split_ifs at takes with adds removes
  · exact Option.isSome_iff_exists.mp adds
  · cases takes

theorem removing_of_cond (takes : call.cond = some .decrementCond) : call.removing = true := by
  unfold Call.cond at takes
  split_ifs at takes with adds removes
  · cases takes
  · exact removes

theorem stock_of_available (permits : Permits queue.sema queue.size)
    (count : queue.sema.cnt = queue.size - items.length) {cond : Cond}
    (short : available queue cond ≤ 0) : stock queue.size items cond = 0 := by
  have bounds := permits.count
  cases cond with
  | gtZeroCond =>
      simp only [available, SemaTwoWay.countNoBlock] at short
      simp only [stock]
      omega
  | decrementCond =>
      simp only [available, Circular.remain, SemaTwoWay.countNoBlock] at short
      simp only [stock]
      omega

theorem quiet_region (permits : Permits queue.sema queue.size)
    (count : queue.sema.cnt = queue.size - items.length) (counts : Counts queue call region)
    (i : Nat) (quiet : Quiet ⟨i, call, region.outcome⟩) :
    region.queue = queue ∧ Meant queue.size items call region.outcome items := by
  cases counts with
  | put takes room shifts =>
      rcases adding_of_cond takes with ⟨value, adding⟩
      have added := quiet.1
      simp [Event.added, adding] at added
  | took takes filled shifts =>
      have delivered := quiet.2
      simp [Event.delivered, removing_of_cond takes] at delivered
  | refused takes short => exact ⟨rfl, .refused takes (stock_of_available permits count short)⟩
  | waits blocking short => exact ⟨rfl, .waits blocking (stock_of_available permits count short)⟩
  | unblocked takes => exact ⟨rfl, .unblocked (call_without_cond takes)⟩

theorem quiet_step (permits : Permits world.queue.sema world.queue.size)
    (count : world.queue.sema.cnt = world.queue.size - items.length) (quiet : Quiet event)
    (step : Step husk world event next) :
    next.queue = world.queue ∧ Meant world.queue.size items event.call event.outcome items := by
  cases step with
  | start ran acts => exact quiet_region permits count (enter_counts permits ran) _ quiet
  | resume ran acts => exact quiet_region permits count (resume_counts permits ran) _ quiet
  | expire expires acts => exact ⟨rfl, .expired rfl expires⟩

/-! ## A removal between the last two assignments -/

variable {left : Item → Item} {t : Int}

def withIn (t : Int) (region : Region Item) : Region Item :=
  { region with queue := { region.queue with nextIn := t } }

theorem take_out_with_in (left : Item → Item) (queue : Circular Item) (t : Int) :
    ({ queue with nextIn := t } : Circular Item).takeOut left =
      (queue.takeOut left).map fun (after, value) => ({ after with nextIn := t }, value) := by
  simp only [Circular.takeOut]
  cases cellAt queue.data queue.nextOut with
  | none => rfl
  | some value =>
      simp only [Option.bind_eq_bind, Option.bind_some]
      cases setCell queue.data queue.nextOut (left value) <;> rfl

theorem remove_now_with_in (more : queue.remain ≠ 1) :
    ({ queue with nextIn := t } : Circular Item).removeNow left = (queue.removeNow left).map
    (withIn t) := by
  have moreThere : ({ queue with nextIn := t } : Circular Item).remain ≠ 1 := more
  have took := take_out_with_in left { queue with sema := queue.sema.releaseWithoutLock.1 } t
  simp only [Circular.removeNow, if_neg more, if_neg moreThere]
  rw [took]
  cases ({ queue with sema := queue.sema.releaseWithoutLock.1 } : Circular Item).takeOut left with
  | none => rfl
  | some pair => rfl

theorem remove_by_with_in (more : queue.remain ≠ 1) :
    ({ queue with nextIn := t } : Circular Item).removeBy left = (queue.removeBy left).map
    (withIn t) := by
  unfold Circular.removeBy
  by_cases filled : queue.remain > 0
  · have filledThere : ({ queue with nextIn := t } : Circular Item).remain > 0 := filled
    rw [if_pos filled, if_pos filledThere, remove_now_with_in more]
  · have emptyThere : ¬ ({ queue with nextIn := t } : Circular Item).remain > 0 := filled
    rw [if_neg filled, if_neg emptyThere]
    rfl

/-- A removal after a wait never finds the queue empty, so it sets nothing back. -/
theorem remove_awaited_with_in (filled : queue.remain > 0) :
    ({ queue with nextIn := t } : Circular Item).removeAwaited left = (queue.removeAwaited left).map
    (withIn t) := by
  have took := take_out_with_in left queue t
  simp only [Circular.removeAwaited]
  rw [took]
  cases taken : queue.takeOut left with
  | none => rfl
  | some pair =>
      rcases take_out_kept taken with ⟨sema, size⟩
      have some_ : pair.1.remain ≠ 0 := by
        have same : pair.1.remain = queue.remain := by
          unfold Circular.remain
          rw [sema, size]
        omega
      have someThere : ({ pair.1 with nextIn := t } : Circular Item).remain ≠ 0 := some_
      simp only [Option.map_some, Option.bind_eq_bind, Option.bind_some, if_neg some_,
        if_neg someThere]
      rfl

theorem remove_or_block_by_with_in (permits : Permits queue.sema queue.size)
    (more : queue.remain ≠ 1) :
    ({ queue with nextIn := t } : Circular Item).removeOrBlockBy left =
      (queue.removeOrBlockBy left).map (withIn t) := by
  unfold Circular.removeOrBlockBy
  by_cases filled : queue.remain > 0
  · have filledThere : ({ queue with nextIn := t } : Circular Item).remain > 0 := filled
    rw [if_pos filled, if_pos filledThere, remove_now_with_in more]
  · have emptyThere : ¬ ({ queue with nextIn := t } : Circular Item).remain > 0 := filled
    have semaSize := permits.semaSize
    have all : queue.sema.cnt ≥ queue.sema.size := by
      unfold Circular.remain SemaTwoWay.countNoBlock at filled
      omega
    rw [if_neg filled, if_neg emptyThere, if_pos all, if_pos all]
    rfl

theorem remove_woken_by_with_in (permits : Permits queue.sema queue.size) :
    ({ queue with nextIn := t } : Circular Item).removeWokenBy left = (queue.removeWokenBy left).map
    (withIn t) := by
  unfold Circular.removeWokenBy
  by_cases all : queue.sema.cnt ≥ queue.sema.size
  · rw [if_pos all, if_pos all]
    rfl
  · have semaSize := permits.semaSize
    have filled : queue.remain > 0 := by
      unfold Circular.remain SemaTwoWay.countNoBlock
      omega
    rw [if_neg all, if_neg all, remove_awaited_with_in filled]

theorem enter_with_in (husk : Item → Item) (permits : Permits queue.sema queue.size)
    (adds : call.adding = none) (more : queue.remain ≠ 1) :
    enter husk ({ queue with nextIn := t } : Circular Item) call = (enter husk queue call).map
    (withIn t) := by
  cases call with
  | blocking job =>
      cases job with
      | add value timed => cases adds
      | addMv value timed => cases adds
      | removeOrBlock timed => exact remove_or_block_by_with_in permits more
      | removeMvOrBlock timed => exact remove_or_block_by_with_in permits more
  | addIfRoom value => cases adds
  | addMvIfRoom value => cases adds
  | remove => exact remove_by_with_in more
  | removeMv => exact remove_by_with_in more
  | unblockAllRemovers => rfl

theorem resume_with_in (husk : Item → Item) (permits : Permits queue.sema queue.size)
    (adds : (Call.blocking job).adding = none) :
    resume husk ({ queue with nextIn := t } : Circular Item) job = (resume husk queue job).map
    (withIn t) := by
  cases job with
  | add value timed => cases adds
  | addMv value timed => cases adds
  | removeOrBlock timed => exact remove_woken_by_with_in permits
  | removeMvOrBlock timed => exact remove_woken_by_with_in permits

/-- A removal that leaves the indices works as if `nextIn` had been assigned already. -/
theorem step_with_in (held : Represents (complete (.moved t) world.queue) items)
    (leaves : LeavesIndices world event) (step : Step husk world event next) :
    ∃ rest, Represents (complete (.moved t) next.queue) rest ∧ next.queue.size = world.queue.size ∧
      Meant world.queue.size items event.call event.outcome rest := by
  have permits := permits_of_represents held
  change Permits world.queue.sema world.queue.size at permits
  rcases leaves with ⟨adds, keeps⟩
  cases step with
  | start ran acts =>
      rename_i i call region threads
      have more : world.queue.remain ≠ 1 := by
        rcases keeps with more | ⟨waiter, waits⟩
        · exact more
        · cases waits.symm.trans (acts_stands acts)
      have there : enter husk (complete (.moved t) world.queue) call = _ :=
        enter_with_in husk permits adds more
      rw [ran] at there
      rcases enter_did husk call held with ⟨known, rest, found, did⟩
      cases Option.some.inj (there.symm.trans found)
      rcases did_moves held did i with ⟨represents, -, kept, -⟩
      have meant := meant_of_did did
      exact ⟨rest, represents, kept.size, meant⟩
  | resume ran acts =>
      rename_i i job signalled region threads
      have there : resume husk (complete (.moved t) world.queue) job = _ :=
        resume_with_in husk permits adds
      rw [ran] at there
      rcases resume_did husk job held with ⟨known, rest, found, did⟩
      cases Option.some.inj (there.symm.trans found)
      rcases did_moves held did i with ⟨represents, -, kept, -⟩
      have meant := meant_of_did did
      exact ⟨rest, represents, kept.size, meant⟩
  | expire expires acts => exact ⟨items, held, rfl, .expired rfl expires⟩

/-! ## Runs -/

/-- If the call were completed at once, the queue would hold `items`. -/
def Holds (size : Int) (state : State Item) (items : List Item) : Prop :=
  state.world.queue.size = size ∧ Represents (complete state.phase state.world.queue) items

theorem complete_sema (phase : Phase) (queue : Circular Item) :
    (complete phase queue).sema = queue.sema ∧ (complete phase queue).size = queue.size := by
  cases phase <;> exact ⟨rfl, rfl⟩

theorem quiet_holds (holds : Holds size ⟨world, phase⟩ items) (quiet : Quiet event)
    (step : Step husk world event next) :
    Holds size ⟨next, phase⟩ items ∧ Meant size items event.call event.outcome items := by
  rcases holds with ⟨sameSize, held⟩
  rcases complete_sema phase world.queue with ⟨sema, ringSize⟩
  have permits := permits_of_represents held
  have count := held.count
  simp only [sema, ringSize] at permits count sameSize
  rcases quiet_step permits count quiet step with ⟨still, meant⟩
  subst sameSize
  refine ⟨⟨congrArg Circular.size still, ?_⟩, meant⟩
  simp only [still]
  exact held

theorem region_holds (holds : Holds size ⟨world, phase⟩ items)
    (allowed : Permitted ⟨world, phase⟩ (.region event)) (step : Step husk world event next) :
    ∃ rest, Holds size ⟨next, phase⟩ rest ∧ Meant size items event.call event.outcome rest := by
  cases phase with
  | flipped => exact ⟨items, quiet_holds holds allowed step⟩
  | kept t => exact ⟨items, quiet_holds holds allowed step⟩
  | fetched t nextIn => exact ⟨items, quiet_holds holds allowed step⟩
  | moved t =>
      rcases allowed with quiet | leaves
      · exact ⟨items, quiet_holds holds quiet step⟩
      · rcases holds with ⟨rfl, held⟩
        rcases step_with_in held leaves step with ⟨rest, represents, sameSize, meant⟩
        exact ⟨rest, ⟨sameSize, represents⟩, meant⟩
  | _ =>
      rcases holds with ⟨rfl, held⟩
      rcases meant_of_step held step with ⟨rest, represents, sameSize, meant⟩
      exact ⟨rest, ⟨sameSize, represents⟩, meant⟩

/-- One move, on the sequence that the completed call would leave. -/
theorem passes_holds {items₀ : List Item} (replays : Replays size items₀ moves items)
    (holds : Holds size state items) (allowed : Permitted state move)
    (passes : Passes husk state move after) :
    ∃ rest, Replays size items₀ (moves ++ [move]) rest ∧ Holds size after rest := by
  cases passes with
  | region phase step =>
      rcases region_holds holds allowed step with ⟨rest, holdsAfter, meant⟩
      exact ⟨rest, .region replays meant, holdsAfter⟩
  | flip world reverse =>
      rcases holds with ⟨sameSize, held⟩
      have same := allowed.2 reverse rfl
      simp only at same
      subst same
      exact ⟨items.reverse, .flip replays, sameSize, represents_turned held allowed.1⟩
  | leave few =>
      exact ⟨items, .silent replays (fun _ same => nomatch same) (fun same => nomatch same), holds⟩
  | test some_ =>
      exact ⟨items, .silent replays (fun _ same => nomatch same) (fun same => nomatch same), holds⟩
  | read world =>
      exact ⟨items, .silent replays (fun _ same => nomatch same) (fun same => nomatch same), holds⟩
  | keep world =>
      exact ⟨items, .silent replays (fun _ same => nomatch same) (fun same => nomatch same), holds⟩
  | fetch world t =>
      exact ⟨items, .silent replays (fun _ same => nomatch same) (fun same => nomatch same), holds⟩
  | moveOut world t nextIn =>
      exact ⟨items, .silent replays (fun _ same => nomatch same) (fun same => nomatch same), holds⟩
  | moveIn world t =>
      exact ⟨items, .silent replays (fun _ same => nomatch same) (fun same => nomatch same), holds⟩

theorem run_holds {first : State Item} {items₀ : List Item} (holds : Holds size first items₀)
    (run : Run husk Permitted first moves state) : ∃ rest, Replays size items₀ moves rest ∧
    Holds size state rest := by
  induction run with
  | start => exact ⟨items₀, .start, holds⟩
  | step run allowed passes ih =>
      rcases ih with ⟨rest, replays, held⟩
      exact passes_holds replays held allowed passes

theorem reachable_represents {blank : Item} (reachable : Reachable husk blank world) :
    ∃ items, Represents world.queue items := by
  induction reachable with
  | new positive isObjects whole count => exact ⟨[], represents_new positive isObjects _ whole⟩
  | region reachable step ih =>
      rcases ih with ⟨items, held⟩
      rcases step_moves held step with ⟨after, represents, -⟩
      exact ⟨after, represents⟩
  | set reachable set ih =>
      rcases ih with ⟨items, held⟩
      rcases set_represents held set with ⟨after, represents, -⟩
      exact ⟨after, represents⟩
  | clear reachable ih =>
      rcases ih with ⟨items, held⟩
      exact ⟨[], represents_clear _ held⟩
  | reverse reachable ih =>
      rcases ih with ⟨items, held⟩
      exact ⟨items.reverse, represents_reverse held⟩

theorem meant_moves {left : List Item} (meant : Meant size items event.call event.outcome left) :
    items ++ event.added = event.delivered ++ left := by
  rcases event with ⟨i, call, outcome⟩
  cases meant with
  | put adds room =>
      have notRemoving : call.removing = false := by
        cases call with
        | blocking job => cases job <;> first | rfl | cases adds
        | _ => first | rfl | cases adds
      simp [Event.added, Event.delivered, adds, notRemoving]
  | took adds removes split => simp [Event.added, Event.delivered, adds, removes, split]
  | unblocked unblocks =>
      subst unblocks
      simp [Event.added, Event.delivered, Call.adding, Call.removing]
  | _ => simp [Event.added, Event.delivered]

theorem replays_perm {items₀ : List Item} (replays : Replays size items₀ moves items) :
    (items₀ ++ moves.flatMap Move.added).Perm (moves.flatMap Move.delivered ++ items) := by
  induction replays with
  | start => simp
  | region replays meant ih =>
      rename_i moves items left event
      rw [List.flatMap_append, List.flatMap_append, List.flatMap_singleton, List.flatMap_singleton,
        ← List.append_assoc]
      have moved := meant_moves meant
      have before := ih.append_right event.added
      rw [List.append_assoc (moves.flatMap Move.delivered), moved, ← List.append_assoc] at before
      exact before
  | flip replays ih =>
      rename_i moves items
      simp only [List.flatMap_append, List.flatMap_singleton, Move.added, Move.delivered,
        List.append_nil]
      exact ih.trans ((List.reverse_perm items).symm.append_left _)
  | silent replays region flip ih =>
      rename_i moves items move
      have nothing : move.added = [] ∧ move.delivered = [] := by
        cases move with
        | region event => exact absurd rfl (region event)
        | _ => exact ⟨rfl, rfl⟩
      simp only [List.flatMap_append, List.flatMap_singleton, nothing.1, nothing.2, List.append_nil]
      exact ih

/-- In every permitted run from a reachable state the regions do what they would do if each call of
`reverse` were executed at once when it writes `_reverse`, and every element is delivered once or
stored; a completed call leaves the queue so. -/
theorem reversed_at_the_flip {blank : Item} {first : World Item}
    (reachable : Reachable husk blank first)
    (run : Run husk Permitted ⟨first, .outside⟩ moves state) :
    ∃ items₀ stored, Represents first.queue items₀ ∧ Replays first.queue.size items₀ moves stored ∧
      (items₀ ++ moves.flatMap Move.added).Perm (moves.flatMap Move.delivered ++ stored) ∧
      Represents (complete state.phase state.world.queue) stored := by
  rcases reachable_represents reachable with ⟨items₀, held⟩
  have holds : Holds first.queue.size ⟨first, .outside⟩ items₀ := ⟨rfl, held⟩
  rcases run_holds holds run with ⟨stored, replays, -, represents⟩
  exact ⟨items₀, stored, held, replays, replays_perm replays, represents⟩

private theorem lone {queue after : Circular Nat} {call : Call Nat} {cond : Cond} {arg : Option Nat}
    (ran : enter id queue call = some ⟨after, .signal cond, .returns true arg⟩) :
    Step id ⟨queue, [none]⟩ ⟨0, call, .returns true arg⟩ ⟨after, [none]⟩ := by
  have alone : Signal Job.cond cond [(none : Option (Waiter (Job Nat)))] [none] :=
    .nobody (by cases cond <;> rfl)
  let region : Region Nat := ⟨after, .signal cond, .returns true arg⟩
  have acts : Acts Job.cond [none] 0 none region.wake (placeAfter call region.outcome) [none] := by
    rw [place_after_returns]
    exact .region rfl (.signal alone)
  have step : Step id ⟨queue, [none]⟩ ⟨0, call, region.outcome⟩ ⟨region.queue, [none]⟩ :=
    .start ran acts
  exact step

private def adds (value : Nat) : Event Nat := ⟨0, .addIfRoom value, .returns true (some value)⟩
private def removes (value : Nat) : Event Nat := ⟨0, .remove, .returns true (some value)⟩
private def at_ (reverse : Bool) (cnt nextIn nextOut : Int) (data : List Nat) : World Nat :=
  ⟨⟨true, reverse, ⟨cnt, 3⟩, nextIn, nextOut, 3, data⟩, [none]⟩

private theorem two_added : Reachable id 0 (at_ false 1 1 0 [1, 2, 0]) := by
  have first : Step id (at_ false 3 (-1) 0 [0, 0, 0]) (adds 1) (at_ false 2 0 0 [1, 0, 0]) :=
    lone rfl
  have second : Step id (at_ false 2 0 0 [1, 0, 0]) (adds 2) (at_ false 1 1 0 [1, 2, 0]) := lone rfl
  have new : Reachable id 0 (at_ false 3 (-1) 0 [0, 0, 0]) :=
    @Reachable.new Nat id 0 3 (by decide) true [0, 0, 0] rfl 1
  exact .region (.region new first) second

/-- An addition before the writing of `_reverse`, and a removal between the last two assignments. -/
private def between : List (Move Nat) :=
  [.test, .region (adds 3), .read, .flip, .keep, .fetch, .moveOut, .region (removes 3), .moveIn]

private theorem between_runs :
    Run id Permitted ⟨at_ false 1 1 0 [1, 2, 0], .outside⟩ between ⟨at_ true 1 0 1 [1, 2, 3],
      .outside⟩ := by
  let first : State Nat := ⟨at_ false 1 1 0 [1, 2, 0], .outside⟩
  have third : Step id (at_ false 1 1 0 [1, 2, 0]) (adds 3) (at_ false 0 2 0 [1, 2, 3]) := lone rfl
  have taken : Step id (at_ true 0 2 2 [1, 2, 3]) (removes 3) (at_ true 1 2 1 [1, 2, 3]) := lone rfl
  have tested : Run id Permitted first [.test] ⟨at_ false 1 1 0 [1, 2, 0], .tested⟩ :=
    .step .start trivial (.test (by decide))
  have added : Run id Permitted first [.test, .region (adds 3)]
      ⟨at_ false 0 2 0 [1, 2, 3], .tested⟩ :=
    .step tested trivial (.region _ third)
  have read : Run id Permitted first [.test, .region (adds 3), .read] ⟨at_ false 0 2 0 [1, 2, 3],
      .read false⟩ :=
    .step added trivial (.read _)
  have asRead : ∀ reverse, Phase.read false = .read reverse → false = reverse :=
    fun _ same => Phase.read.inj same
  have flipped : Run id Permitted first [.test, .region (adds 3), .read, .flip]
      ⟨at_ true 0 2 0 [1, 2, 3], .flipped⟩ := .step read ⟨by decide, asRead⟩ (.flip _ _)
  have kept : Run id Permitted first [.test, .region (adds 3), .read, .flip, .keep]
      ⟨at_ true 0 2 0 [1, 2, 3], .kept 0⟩ := .step flipped trivial (.keep _)
  have fetched : Run id Permitted first [.test, .region (adds 3), .read, .flip, .keep, .fetch]
      ⟨at_ true 0 2 0 [1, 2, 3], .fetched 0 2⟩ := .step kept trivial (.fetch _ _)
  have moved : Run id Permitted first [.test, .region (adds 3), .read, .flip, .keep,
      .fetch, .moveOut]
      ⟨at_ true 0 2 2 [1, 2, 3], .moved 0⟩ := .step fetched trivial (.moveOut _ _ _)
  have leaves : LeavesIndices (at_ true 0 2 2 [1, 2, 3]) (removes 3) := ⟨rfl, .inl (by decide)⟩
  have allowed : Permitted ⟨at_ true 0 2 2 [1, 2, 3], .moved 0⟩ (.region (removes 3)) :=
    Or.inr leaves
  exact .step (.step moved allowed (.region _ taken)) trivial (.moveIn _ _)

theorem reversed_at_the_flip_between : ∃ items₀ stored,
    Represents (at_ false 1 1 0 [1, 2, 0]).queue items₀ ∧ Replays 3 items₀ between stored ∧
      (items₀ ++ between.flatMap Move.added).Perm (between.flatMap Move.delivered ++ stored) ∧
      Represents (at_ true 1 0 1 [1, 2, 3]).queue stored :=
  reversed_at_the_flip two_added between_runs

/-- An addition after the writing of `_reverse` goes into the cell of the first element. -/
theorem addition_in_a_reversal_loses_an_element : ¬ ∀ (first : World Nat) (moves : List (Move Nat))
    (state : State Nat),
    Reachable id 0 first → Run id (fun _ _ => True) ⟨first, .outside⟩ moves state →
      ∃ items₀ stored, Represents first.queue items₀ ∧
        (items₀ ++ moves.flatMap Move.added).Perm (moves.flatMap Move.delivered ++ stored) := by
  intro claimed
  let first : State Nat := ⟨at_ false 1 1 0 [1, 2, 0], .outside⟩
  let any : State Nat → Move Nat → Prop := fun _ _ => True
  have third : Step id (at_ true 1 1 0 [1, 2, 0]) (adds 3) (at_ true 0 0 0 [3, 2, 0]) := lone rfl
  have takes : Step id (at_ true 0 0 0 [3, 2, 0]) (removes 3) (at_ true 1 0 2 [3, 2, 0]) := lone rfl
  have finds : Step id (at_ true 1 0 2 [3, 2, 0]) (removes 0) (at_ true 2 0 1 [3, 2, 0]) := lone rfl
  have tested : Run id any first [.test] ⟨at_ false 1 1 0 [1, 2, 0], .tested⟩ :=
    .step .start trivial (.test (by decide))
  have flipped : Run id any first [.test, .read, .flip] ⟨at_ true 1 1 0 [1, 2, 0], .flipped⟩ :=
    .step (.step tested trivial (.read _)) trivial (.flip _ _)
  have added : Run id any first [.test, .read, .flip, .region (adds 3)] ⟨at_ true 0 0 0 [3, 2, 0],
      .flipped⟩ :=
    .step flipped trivial (.region _ third)
  have fetched : Run id any first [.test, .read, .flip, .region (adds 3), .keep, .fetch]
      ⟨at_ true 0 0 0 [3, 2, 0], .fetched 0 0⟩ :=
      .step (.step added trivial (.keep _)) trivial (.fetch _ _)
  have reversed : Run id any first [.test, .read, .flip, .region (adds 3), .keep, .fetch,
      .moveOut, .moveIn]
      ⟨at_ true 0 0 0 [3, 2, 0], .outside⟩ :=
      .step (.step fetched trivial (.moveOut _ _ _)) trivial (.moveIn _ _)
  have ran := Execution.step (Execution.step reversed trivial (.region _ takes)) trivial
    (.region _ finds)
  rcases claimed _ _ _ two_added ran with ⟨items₀, stored, held, perm⟩
  have count : (1 : Int) = 3 - items₀.length := held.count
  rcases List.length_eq_two.mp (by omega : items₀.length = 2) with ⟨x, y, rfl⟩
  have one : some 1 = some x := held.laid.held 0 Nat.zero_lt_two
  have two : some 2 = some y := held.laid.held 1 Nat.one_lt_two
  cases one
  cases two
  have zero : 0 ∈ [1, 2, 3] := perm.mem_iff.mpr (List.mem_append_left stored (by decide))
  exact absurd zero (by decide)

end TWlib.CircularReverse
