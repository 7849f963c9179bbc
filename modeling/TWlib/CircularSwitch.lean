import TWlib.CircularThreads

/-!
# The switch of a circular queue

`disable` clears the flag `enabled`, `enable` and `clear` set it, and nothing reads
it: a call that adds goes by the count of free slots alone. So it is refused in a
disabled queue where it would be refused in an enabled one, when the queue is full.
-/

namespace TWlib.CircularSwitch

open TWlib.Lib.Monitor TWlib.CircularBuffer TWlib.CircularThreads

set_option autoImplicit false

variable {Item : Type*}

/-! ## The model -/

structure Switch (Item : Type*) where
  world : World Item
  enabled : Bool

/-- A region of a call: its first one, one after a wait, or the end of the time a call waits. -/
inductive Part where
  | start
  | resume
  | expire
deriving DecidableEq

inductive Act (Item : Type*) where
  | region (part : Part) (event : Event Item)
  | disable
  | enable
  | clear
  | reverse
  | set (n : Int) (value : Item)

/-- The thread that switches, clears, reverses or sets is none of those in the queue. -/
inductive Moves (husk : Item → Item) (blank : Item) (before : Switch Item) :
    Act Item → Switch Item → Prop where
  | start {i : Nat} {call : Call Item} {region : Region Item} {threads : Threads (Job Item)}
      (ran : enter husk before.world.queue call = some region)
      (acts : Acts Job.cond before.world.threads i none region.wake
        (placeAfter call region.outcome) threads) :
      Moves husk blank before (.region .start ⟨i, call, region.outcome⟩) ⟨⟨region.queue, threads⟩,
        before.enabled⟩
  | resume {i : Nat} {job : Job Item} {signalled : Bool} {region : Region Item}
      {threads : Threads (Job Item)}
      (ran : resume husk before.world.queue job = some region)
      (acts : Acts Job.cond before.world.threads i (some ⟨job, signalled⟩) region.wake
        (placeAfter (.blocking job) region.outcome) threads) :
      Moves husk blank before (.region .resume ⟨i, .blocking job, region.outcome⟩)
        ⟨⟨region.queue, threads⟩, before.enabled⟩
  | expire {i : Nat} {job : Job Item} {signalled : Bool} {threads : Threads (Job Item)}
      (expires : job.expires = true)
      (acts : Acts Job.cond before.world.threads i (some ⟨job, signalled⟩)
        before.world.queue.timedOut.wake none
        threads) :
      Moves husk blank before (.region .expire ⟨i, .blocking job,
        before.world.queue.timedOut.outcome⟩)
        ⟨⟨before.world.queue.timedOut.queue, threads⟩, before.enabled⟩
  | disable : Moves husk blank before .disable ⟨before.world, false⟩
  | enable : Moves husk blank before .enable ⟨before.world, true⟩
  | clear : Moves husk blank before .clear
      ⟨{ before.world with queue := before.world.queue.clear blank }, true⟩
  | reverse : Moves husk blank before .reverse
      ⟨{ before.world with queue := before.world.queue.reverseOrder }, before.enabled⟩
  | set {n : Int} {value : Item} {queue : Circular Item} {ret : Bool}
      (ran : before.world.queue.set n value = some (queue, ret)) :
      Moves husk blank before (.set n value) ⟨{ before.world with queue }, before.enabled⟩

structure Move (Item : Type*) where
  before : Switch Item
  act : Act Item
  after : Switch Item

inductive Runs (husk : Item → Item) (blank : Item) (first : Switch Item) :
    List (Move Item) → Switch Item → Prop where
  | start : Runs husk blank first [] first
  | move {moves : List (Move Item)} {before after : Switch Item} {act : Act Item}
      (runs : Runs husk blank first moves before) (moved : Moves husk blank before act after) :
      Runs husk blank first (moves ++ [⟨before, act, after⟩]) after

/-! ## What the comment on `disable` says -/

/-- A call adds nothing, and what it takes out was at the front. -/
def AddsNothing (move : Move Item) : Prop :=
  match move.act with
  | .region _ event => event.added = [] ∧ ∀ stored left, Represents move.before.world.queue stored →
      Represents move.after.world.queue left → stored = event.delivered ++ left
  | _ => True

/-- Every call that removes can take the first of the stored elements. -/
def CanRemove (husk : Item → Item) (switch : Switch Item) : Prop :=
  ∀ item rest call, Represents switch.world.queue (item :: rest) → call.removing = true →
    ∃ region, enter husk switch.world.queue call = some region ∧
      region.outcome = .returns true (some item) ∧
      Represents region.queue rest

/-- A call that adds finds the queue full when it has the mutex. -/
def FindsFull (move : Move Item) : Prop :=
  match move.act with
  | .region .expire _ => True
  | .region _ event => event.call.adding.isSome → move.before.world.queue.full = true
  | _ => True

variable {husk : Item → Item} {blank : Item} {before after first last : Switch Item}
  {act : Act Item} {stored : List Item} {queue : Circular Item} {items rest : List Item}
  {call : Call Item}

theorem represents_unique (left : Represents queue items) (right : Represents queue rest) :
    items = rest := by
  have sameLength : items.length = rest.length := by
    have leftCount := left.count
    have rightCount := right.count
    omega
  apply List.ext_getElem? 
  intro i
  by_cases within : i < items.length
  · rw [← left.laid.held i within, ← right.laid.held i (by omega)]
  · rw [List.getElem?_eq_none (by omega), List.getElem?_eq_none (by omega)]

theorem full_iff (held : Represents queue items) :
    queue.full = true ↔ (items.length : Int) = queue.size := by
  have count := held.count
  unfold Circular.full SemaTwoWay.countNoBlock
  rw [decide_eq_true_iff]
  omega

theorem adding_waits {job : Job Item} (adds : (Call.blocking job).adding.isSome) :
    job.cond = .gtZeroCond := by
  cases job with
  | add | addMv => rfl
  | removeOrBlock | removeMvOrBlock => cases adds

theorem adding_takes {cond : Cond} (takes : call.cond = some cond) (adds : call.adding.isSome) :
    cond = .gtZeroCond := by
  simp only [Call.cond, adds, if_true, Option.some.injEq] at takes
  exact takes.symm

theorem did_adds_iff {region : Region Item} {left : List Item} (held : Represents queue items)
    (did : Did queue items call region left) (i : Nat) :
    (Event.mk i call region.outcome).added = [] ↔ (call.adding.isSome → queue.full = true) := by
  rw [full_iff held]
  cases did with
  | put room adds represents kept =>
      constructor
      · intro impossible
        simp [Event.added, adds] at impossible
      · intro full
        have length := full (by rw [adds]; rfl)
        omega
  | took adds removes split represents kept => simp [Event.added, adds]
  | refused takes short =>
      simp only [Event.added, true_iff]
      intro adds
      rw [adding_takes takes adds] at short
      simp only [supply] at short
      omega
  | waits blocking short =>
      subst blocking
      simp only [Event.added, true_iff]
      intro adds
      rw [adding_waits adds] at short
      simp only [supply] at short
      omega
  | unblocked unblocks =>
      subst unblocks
      simp [Event.added, Call.adding]

theorem moves_represents (held : Represents before.world.queue stored)
    (moved : Moves husk blank before act after) :
    ∃ left, Represents after.world.queue left := by
  cases moved with
  | start ran acts =>
      rcases enter_did husk _ held with ⟨known, left, found, did⟩
      cases Option.some.inj (ran.symm.trans found)
      exact ⟨left, (did_moves held did 0).1⟩
  | resume ran acts =>
      rcases resume_did husk _ held with ⟨known, left, found, did⟩
      cases Option.some.inj (ran.symm.trans found)
      exact ⟨left, (did_moves held did 0).1⟩
  | expire expires acts => exact ⟨stored, held⟩
  | disable => exact ⟨stored, held⟩
  | enable => exact ⟨stored, held⟩
  | clear => exact ⟨[], represents_clear blank held⟩
  | reverse => exact ⟨stored.reverse, represents_reverse held⟩
  | set ran =>
      rcases set_represents held ran with ⟨left, represents, _⟩
      exact ⟨left, represents⟩

theorem region_adds_nothing {region : Region Item} {left : List Item}
    {after : Circular Item} {i : Nat} (held : Represents queue items)
    (did : Did queue items call region left) (same : region.queue = after) :
    ((Event.mk i call region.outcome).added = [] ∧ ∀ stored left, Represents queue stored →
      Represents after left →
      stored = (Event.mk i call region.outcome).delivered ++ left) ↔
      (call.adding.isSome → queue.full = true) := by
  rw [← did_adds_iff held did i]
  constructor
  · exact fun both => both.1
  · intro nothing
    refine ⟨nothing, fun stored rest represents representsRest => ?_⟩
    rcases did_moves held did i with ⟨afterHeld, moved, _⟩
    rw [nothing, List.append_nil] at moved
    subst same
    rw [represents_unique represents held, represents_unique representsRest afterHeld]
    exact moved

theorem move_adds_iff (held : Represents before.world.queue stored)
    (moved : Moves husk blank before act after) :
    AddsNothing ⟨before, act, after⟩ ↔ FindsFull ⟨before, act, after⟩ := by
  cases moved with
  | start ran acts =>
      rcases enter_did husk _ held with ⟨known, left, found, did⟩
      cases Option.some.inj (ran.symm.trans found)
      exact region_adds_nothing held did rfl
  | resume ran acts =>
      rcases resume_did husk _ held with ⟨known, left, found, did⟩
      cases Option.some.inj (ran.symm.trans found)
      exact region_adds_nothing held did rfl
  | expire expires acts =>
      simp only [AddsNothing, FindsFull, iff_true]
      exact ⟨rfl, fun _ _ represents representsLeft => represents_unique represents representsLeft⟩
  | disable => exact Iff.rfl
  | enable => exact Iff.rfl
  | clear => exact Iff.rfl
  | reverse => exact Iff.rfl
  | set ran => exact Iff.rfl

theorem represents_can_remove (husk : Item → Item) (switch : Switch Item) :
    CanRemove husk switch := by
  intro item rest call held removes
  have notAdding : call.adding = none := by
    cases call with
    | blocking job => cases job <;> first | rfl | cases removes
    | _ => first | rfl | cases removes
  rcases enter_did husk call held with ⟨region, left, entered, did⟩
  refine ⟨region, entered, ?_⟩
  cases did with
  | put room adds represents kept =>
      rw [notAdding] at adds
      cases adds
  | took adds removes split represents kept =>
      cases split
      exact ⟨rfl, represents⟩
  | refused takes short =>
      rw [removing_cond notAdding removes, Option.some.injEq] at takes
      rw [← takes] at short
      simp only [supply, List.length_cons] at short
      omega
  | waits blocking short =>
      rename_i job
      have isRemoval : job.cond = .decrementCond := by
        subst blocking
        cases job with
        | add | addMv => cases removes
        | removeOrBlock | removeMvOrBlock => rfl
      rw [isRemoval] at short
      simp only [supply, List.length_cons] at short
      omega
  | unblocked unblocks =>
      subst unblocks
      cases removes

theorem runs_represents (held : Represents first.world.queue stored) {moves : List (Move Item)}
    (runs : Runs husk blank first moves last) : (∃ left, Represents last.world.queue left) ∧
      ∀ move ∈ moves, (∃ found, Represents move.before.world.queue found) ∧
        Moves husk blank move.before move.act move.after := by
  induction runs with
  | start => exact ⟨⟨stored, held⟩, fun move member => by cases member⟩
  | move runs moved ih =>
      rcases ih with ⟨⟨found, represents⟩, earlier⟩
      refine ⟨moves_represents represents moved, fun move member => ?_⟩
      rcases List.mem_append.mp member with inside | isLast
      · exact earlier move inside
      · rw [List.mem_singleton.mp isLast]
        exact ⟨⟨found, represents⟩, moved⟩

/-- In every run a disabled queue takes no element, and gives out those it has in order, exactly if
every call that adds finds it full. -/
theorem circular_disable_iff (held : Represents first.world.queue stored) {moves : List (Move Item)}
    (runs : Runs husk blank first moves last) :
    (∀ move ∈ moves, move.before.enabled = false → AddsNothing move ∧ CanRemove husk move.before) ↔
      ∀ move ∈ moves, move.before.enabled = false → FindsFull move := by
  rcases runs_represents held runs with ⟨_, states⟩
  constructor
  · intro works move member off
    rcases states move member with ⟨⟨found, represents⟩, moved⟩
    exact (move_adds_iff represents moved).mp (works move member off).1
  · intro full move member off
    rcases states move member with ⟨⟨found, represents⟩, moved⟩
    exact ⟨(move_adds_iff represents moved).mpr (full move member off),
      represents_can_remove husk _⟩

/-- A queue of one slot that is disabled when it is full. -/
theorem circular_disable_iff_full_queue :
    let queue : Circular Nat := Circular.new 1 true [0]
    let full : Circular Nat := ⟨true, false, ⟨0, 1⟩, 0, 0, 1, [7]⟩
    let moves : List (Move Nat) :=
      [⟨⟨⟨queue, [none]⟩, true⟩, .region .start ⟨0, .addIfRoom 7, .returns true (some 7)⟩,
        ⟨⟨full, [none]⟩, true⟩⟩,
        ⟨⟨⟨full, [none]⟩, true⟩, .disable, ⟨⟨full, [none]⟩, false⟩⟩,
        ⟨⟨⟨full, [none]⟩, false⟩, .region .start ⟨0, .addIfRoom 8, .returns false none⟩,
          ⟨⟨full, [none]⟩, false⟩⟩]
    (∀ move ∈ moves, move.before.enabled = false → AddsNothing move ∧ CanRemove id move.before) ↔
      ∀ move ∈ moves, move.before.enabled = false → FindsFull move := by
  intro queue full moves
  let idle : Threads (Job Nat) := [none]
  have alone : Signal Job.cond .decrementCond idle idle := .nobody (by decide)
  let adding : Region Nat := ⟨full, .signal .decrementCond, .returns true (some 7)⟩
  let refusing : Region Nat := ⟨full, .nobody, .returns false none⟩
  have leaves : Acts Job.cond idle 0 none adding.wake none idle := .region rfl (.signal alone)
  have goes : Acts Job.cond idle 0 none refusing.wake none idle := .region rfl .nobody
  have added : Moves id 0 ⟨⟨queue, [none]⟩, true⟩ (.region .start ⟨0, .addIfRoom 7, adding.outcome⟩)
      ⟨⟨full, [none]⟩, true⟩ := .start rfl leaves
  have refused : Moves id 0 ⟨⟨full, [none]⟩, false⟩ (.region .start ⟨0, .addIfRoom 8,
      refusing.outcome⟩)
      ⟨⟨full, [none]⟩, false⟩ := .start rfl goes
  have runs : Runs id 0 ⟨⟨queue, [none]⟩, true⟩ moves ⟨⟨full, [none]⟩, false⟩ :=
    .move (.move (.move .start added) .disable) refused
  have empty : Represents queue [] := represents_new (by decide) true [0] (by decide)
  exact circular_disable_iff empty runs

/-- A disabled queue with a free slot takes an element. -/
theorem circular_disabled_queue_adds :
    ∃ moves last, Runs id 0 (⟨⟨Circular.new 1 true [0], [none]⟩, true⟩ : Switch Nat) moves last ∧
      ∃ move ∈ moves, move.before.enabled = false ∧ ¬ AddsNothing move := by
  let idle : Threads (Job Nat) := [none]
  have alone : Signal Job.cond .decrementCond idle idle := .nobody (by decide)
  let adding : Region Nat := ⟨⟨true, false, ⟨0, 1⟩, 0, 0, 1, [7]⟩, .signal .decrementCond,
    .returns true (some 7)⟩
  have leaves : Acts Job.cond idle 0 none adding.wake none idle := .region rfl (.signal alone)
  have added : Moves id 0 (⟨⟨Circular.new 1 true [0], [none]⟩, false⟩ : Switch Nat)
      (.region .start ⟨0, .addIfRoom 7, adding.outcome⟩) ⟨⟨adding.queue, [none]⟩, false⟩ :=
      .start rfl leaves
  refine ⟨_, _, .move (.move .start .disable) added, ?_⟩
  refine ⟨_, List.mem_append_right _ (List.mem_singleton.mpr rfl), rfl, fun nothing => ?_⟩
  have adds := nothing.1
  cases adds

end TWlib.CircularSwitch
