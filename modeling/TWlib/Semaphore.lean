import TWlib.Lib.MachineInt
import TWlib.Lib.MonitorRuns

/-!
# The semaphore and the threads that use it

`TW_Sema::acquire()` waits under the mutex until the count is positive, unlocks, and decrements
the count after that. Each function of `Sema` is one region under the mutex, or the one statement
outside of it. `ret` is what the wait before a region returned: 0, `ETIMEDOUT` or another error.
The count is an `int`.
-/

namespace TWlib.Semaphore

open TWlib.Lib.MachineInt TWlib.Lib.Monitor

set_option autoImplicit false

/-! ## The model -/

structure Sema where
  cnt : Int
deriving DecidableEq

/-- Where a call goes on: in the loop of `acquire()`, after the wait of a timed `acquire`, or at the
`cnt--` behind the unlock, with the value to return. -/
inductive Place where
  | acquire
  | acquireTimed
  | decrement (ret : Int)
deriving DecidableEq

inductive Outcome where
  | goes (place : Place)
  | returns (ret : Int)
deriving DecidableEq

inductive Stop where
  | gtZeroCond
  | decrement
deriving DecidableEq

structure Region where
  sema : Sema
  wake : Wake Stop
  outcome : Outcome
deriving DecidableEq

def stop : Place → Stop
  | .acquire | .acquireTimed => .gtZeroCond
  | .decrement _ => .decrement

def placeAfter : Outcome → Option Place
  | .goes place => some place
  | .returns _ => none

namespace Sema

/-- The test of the loop in `acquire()`, up to the wait or the unlock. -/
def acquire (sema : Sema) (ret : Int) : Region :=
  if sema.cnt < 1 then ⟨sema, .nobody, .goes .acquire⟩ else ⟨sema, .nobody, .goes (.decrement ret)⟩

/-- `cnt--;` after the unlock. -/
def decrement (sema : Sema) (ret : Int) : Region := ⟨⟨asInt (sema.cnt - 1)⟩, .nobody, .returns ret⟩

/-- `acquire(abstime)` up to the wait. -/
def acquireTimed (sema : Sema) : Region :=
  if sema.cnt < 1 then ⟨sema, .nobody, .goes .acquireTimed⟩ else ⟨sema, .nobody, .returns 0⟩

/-- `acquire(abstime)` after the wait. -/
def acquireWoken (sema : Sema) (ret : Int) : Region :=
  if ret = 0 then ⟨⟨asInt (sema.cnt - 1)⟩, .nobody, .returns ret⟩ else ⟨sema, .nobody, .returns ret⟩

def release (sema : Sema) : Region :=
  let cnt := asInt (sema.cnt + 1)
  ⟨⟨cnt⟩, if cnt > 0 then .signal .gtZeroCond else .nobody, .returns 0⟩

def releaseAll (sema : Sema) : Region :=
  let cnt := asInt (sema.cnt + 1)
  ⟨⟨cnt⟩, if cnt > 0 then .broadcast .gtZeroCond else .nobody, .returns 0⟩

def count (sema : Sema) : Int := sema.cnt

end Sema

/-- `acquireUsec` turns its argument into the time limit of an `acquireTimed`. -/
inductive Call where
  | acquire
  | acquireTimed
  | acquireUsec
  | release
deriving DecidableEq

def enter (sema : Sema) : Call → Region
  | .acquire => sema.acquire 0
  | .acquireTimed | .acquireUsec => sema.acquireTimed
  | .release => sema.release

def resume (sema : Sema) (ret : Int) : Place → Region
  | .acquire => sema.acquire ret
  | .acquireTimed => sema.acquireWoken ret
  | .decrement ret => sema.decrement ret

structure World where
  sema : Sema
  threads : Threads Place

inductive Action where
  | enter (call : Call)
  | resume (place : Place) (ret : Int)
deriving DecidableEq

structure Event where
  thread : Nat
  action : Action
  outcome : Outcome
deriving DecidableEq

inductive Step (world : World) : Event → World → Prop where
  | enter {i : Nat} {call : Call} {threads : Threads Place}
      (acts : Acts stop world.threads i none (enter world.sema call).wake
        (placeAfter (enter world.sema call).outcome) threads) :
      Step world ⟨i, .enter call, (enter world.sema call).outcome⟩
      ⟨(enter world.sema call).sema, threads⟩
  | resume {i : Nat} {place : Place} {signalled : Bool} {ret : Int} {threads : Threads Place}
      (acts : Acts stop world.threads i (some ⟨place, signalled⟩) (resume world.sema ret place).wake
        (placeAfter (resume world.sema ret place).outcome) threads) :
      Step world ⟨i, .resume place ret, (resume world.sema ret place).outcome⟩
        ⟨(resume world.sema ret place).sema, threads⟩

def World.new (initial : Int) (count : Nat) : World := ⟨⟨initial⟩, List.replicate count none⟩

abbrev Run (permitted : World → Event → Prop) (first : World) : List Event → World → Prop :=
  Execution Step permitted first

inductive Turn where
  | enter (i : Nat) (call : Call) (chosen : Option Nat)
  | resume (i : Nat) (ret : Int) (chosen : Option Nat)

def play (world : World) : Turn → Option (Event × World)
  | .enter i call chosen =>
      match world.threads[i]? with
      | some none =>
          let region := enter world.sema call
          (actBy stop world.threads i chosen region.wake (placeAfter region.outcome)).map
              fun threads =>
            (⟨i, .enter call, region.outcome⟩, ⟨region.sema, threads⟩)
      | _ => none
  | .resume i ret chosen =>
      match world.threads[i]? with
      | some (some ⟨place, _⟩) =>
          let region := resume world.sema ret place
          (actBy stop world.threads i chosen region.wake (placeAfter region.outcome)).map
              fun threads =>
            (⟨i, .resume place ret, region.outcome⟩, ⟨region.sema, threads⟩)
      | _ => none

theorem play_step (world : World) (turn : Turn) (event : Event) (next : World)
    (played : play world turn = some (event, next)) : Step world event next := by
  cases turn with
  | enter i call chosen =>
      simp only [play] at played
      split at played
      · rename_i outside
        rcases Option.map_eq_some_iff.mp played with ⟨threads, acted, same⟩
        cases same
        exact .enter (act_by_acts outside acted)
      · cases played
  | resume i ret chosen =>
      simp only [play] at played
      split at played
      · rename_i stands
        rcases Option.map_eq_some_iff.mp played with ⟨threads, acted, same⟩
        cases same
        exact .resume (act_by_acts stands acted)
      · cases played

def World.idle (world : World) : Prop := ∀ thread ∈ world.threads, thread = none

def Action.acquires : Action → Bool
  | .enter .release => false
  | _ => true

def Event.completes (event : Event) : Bool :=
  event.action.acquires && match event.outcome with
    | .returns _ => true
    | .goes _ => false

/-- An acquire of any kind returned 0. -/
def Event.succeeds (event : Event) : Bool := event.action.acquires && event.outcome = .returns 0

def Event.fails (event : Event) : Bool := event.completes && !event.succeeds

def Action.releases : Action → Bool
  | .enter .release => true
  | _ => false

def Action.takes : Action → Bool
  | .resume (.decrement _) _ => true
  | .resume .acquireTimed ret => ret = 0
  | _ => false

def Event.releases (event : Event) : Bool := event.action.releases

def Event.takes (event : Event) : Bool := event.action.takes

/-! ## The two conditions -/

/-- There is a permit more than the threads on their way to a `cnt--` will take. -/
def World.free (world : World) : Prop :=
  (standing stop .decrement world.threads : Int) < world.sema.cnt

/-- An acquire goes on with a permit only if one is free: when the loop of `acquire()` ends, and
when the wait of a timed acquire returns 0. A release finds room for one more. -/
def Passes (world : World) (event : Event) : Prop :=
  match event.action with
  | .enter .acquire | .resume .acquire _ => 0 < world.sema.cnt → world.free
  | .resume .acquireTimed ret => ret = 0 → world.free
  | .enter .release => world.sema.cnt < intMax
  | _ => True

/-- No timed acquire finds a permit at once, and no loop of `acquire()` ends after a wait that
returned an error. -/
def Proper (world : World) (event : Event) : Prop :=
  match event.action with
  | .enter .acquireTimed | .enter .acquireUsec => world.sema.cnt < 1
  | .resume .acquire ret => 0 < world.sema.cnt → ret = 0
  | _ => True

def Event.untimed (event : Event) : Prop :=
  event.action ≠ .enter .acquireTimed ∧ event.action ≠ .enter .acquireUsec ∧
    ∀ ret, event.action ≠ .resume .acquireTimed ret

/-! ## What a step does -/

inductive Did (sema : Sema) : Action → Region → Prop where
  | waits {action : Action} {place : Place} (acquires : action.acquires = true)
      (short : sema.cnt < 1)
      (elsewhere : stop place = .gtZeroCond)
      (entered : ∀ ret other, action ≠ .resume (.decrement ret) other)
      (unlimited : ∀ ret, action ≠ .resume .acquireTimed ret) :
      Did sema action ⟨sema, .nobody, .goes place⟩
  | passes {action : Action} {ret : Int} (loops : action = .enter .acquire ∧ ret = 0 ∨
      action = .resume .acquire ret)
      (positive : 0 < sema.cnt) : Did sema action ⟨sema, .nobody, .goes (.decrement ret)⟩
  | decrements {ret other : Int} :
      Did sema (.resume (.decrement ret) other) ⟨⟨asInt (sema.cnt - 1)⟩, .nobody, .returns ret⟩
  | atOnce {action : Action} (timed : action = .enter .acquireTimed ∨ action = .enter .acquireUsec)
      (positive : 0 < sema.cnt) : Did sema action ⟨sema, .nobody, .returns 0⟩
  | woken : Did sema (.resume .acquireTimed 0) ⟨⟨asInt (sema.cnt - 1)⟩, .nobody, .returns 0⟩
  | gaveUp {ret : Int} (error : ret ≠ 0) : Did sema (.resume .acquireTimed ret) ⟨sema, .nobody,
      .returns ret⟩
  | released : Did sema (.enter .release) sema.release

theorem enter_did (sema : Sema) (call : Call) : Did sema (.enter call) (enter sema call) := by
  have timed : ∀ call, call = Call.acquireTimed ∨ call = Call.acquireUsec →
      Did sema (.enter call) sema.acquireTimed := by
    intro call which
    unfold Sema.acquireTimed
    split_ifs with short
    · refine .waits ?_ short rfl (fun _ _ same => by cases same) (fun _ same => by cases same)
      rcases which with rfl | rfl <;> rfl
    · refine .atOnce ?_ (by omega)
      rcases which with rfl | rfl
      · exact .inl rfl
      · exact .inr rfl
  cases call with
  | acquire =>
      simp only [enter, Sema.acquire]
      split_ifs with short
      · exact .waits rfl short rfl (fun _ _ same => by cases same) (fun _ same => by cases same)
      · exact .passes (.inl ⟨rfl, rfl⟩) (by omega)
  | acquireTimed => exact timed _ (.inl rfl)
  | acquireUsec => exact timed _ (.inr rfl)
  | release => exact .released

theorem resume_did (sema : Sema) (ret : Int) (place : Place) :
    Did sema (.resume place ret) (resume sema ret place) := by
  cases place with
  | acquire =>
      simp only [resume, Sema.acquire]
      split_ifs with short
      · exact .waits rfl short rfl (fun _ _ same => by cases same) (fun _ same => by cases same)
      · exact .passes (.inr rfl) (by omega)
  | acquireTimed =>
      simp only [resume, Sema.acquireWoken]
      split_ifs with success
      · subst success
        exact .woken
      · exact .gaveUp success
  | decrement value => exact .decrements

/-- What a thread that acts stands before. -/
def Stands : Action → Option (Waiter Place) → Prop
  | .enter _, thread => thread = none
  | .resume place _, thread => ∃ signalled, thread = some ⟨place, signalled⟩

variable {world next : World} {event : Event} {events : List Event} {initial : Int} {count : Nat}

theorem step_cases (step : Step world event next) :
    ∃ thread region threads, Stands event.action thread ∧ Did world.sema event.action region ∧
      Acts stop world.threads event.thread thread region.wake (placeAfter region.outcome) threads ∧
      next = ⟨region.sema, threads⟩ ∧ event.outcome = region.outcome := by
  cases step with
  | enter acts => exact ⟨none, _, _, rfl, enter_did world.sema _, acts, rfl, rfl⟩
  | resume acts =>
      rename_i i place signalled ret threads
      exact ⟨_, _, _, ⟨signalled, rfl⟩, resume_did world.sema ret place, acts, rfl, rfl⟩

theorem waits_takes {action : Action} (acquires : action.acquires = true)
    (entered : ∀ ret other, action ≠ .resume (.decrement ret) other)
    (unlimited : ∀ ret, action ≠ .resume .acquireTimed ret) :
    action.takes = false ∧ action.releases = false := by
  cases action with
  | enter call =>
      cases call with
      | release => cases acquires
      | _ => exact ⟨rfl, rfl⟩
  | resume place ret =>
      cases place with
      | acquire => exact ⟨rfl, rfl⟩
      | acquireTimed => exact absurd rfl (unlimited ret)
      | decrement value => exact absurd rfl (entered value ret)

/-- The count is an `int`, a step that takes a permit finds one, and one that gives one back finds
room. -/
structure Ready (world : World) (action : Action) : Prop where
  fits : world.sema.cnt ≤ intMax
  takes : action.takes = true → 1 ≤ world.sema.cnt
  releases : action.releases = true → 0 ≤ world.sema.cnt ∧ world.sema.cnt < intMax

theorem did_counts {action : Action} {region : Region} (ready : Ready world action)
    (did : Did world.sema action region) :
    region.sema.cnt + (if action.takes then 1 else 0) = world.sema.cnt + (if action.releases then 1
      else 0) := by
  have fits := ready.fits
  have taken : action.takes = true → asInt (world.sema.cnt - 1) = world.sema.cnt - 1 := by
    intro takes
    have := ready.takes takes
    exact as_int_of_bounds (by omega) (by omega)
  cases did with
  | waits acquires short elsewhere entered unlimited =>
      have left := waits_takes acquires entered unlimited
      rw [left.1, left.2]
  | passes loops positive => rcases loops with ⟨rfl, rfl⟩ | rfl <;> rfl
  | decrements => simp [Action.takes, Action.releases, taken rfl]
  | atOnce timed positive => rcases timed with rfl | rfl <;> rfl
  | woken => simp [Action.takes, Action.releases, taken rfl]
  | gaveUp error => simp [Action.takes, Action.releases, error]
  | released =>
      obtain ⟨low, high⟩ := ready.releases rfl
      have given : asInt (world.sema.cnt + 1) = world.sema.cnt + 1 :=
        as_int_of_bounds (by omega) (by omega)
      simp [Action.takes, Action.releases, Sema.release, given]

theorem did_fits {sema : Sema} {action : Action} {region : Region} (fits : sema.cnt ≤ intMax)
    (did : Did sema action region) : region.sema.cnt ≤ intMax := by
  cases did with
  | waits | passes | atOnce | gaveUp => exact fits
  | decrements | woken => exact (as_int_is_int _).2
  | released => exact (as_int_is_int _).2

theorem step_ready (fits : world.sema.cnt ≤ intMax)
    (enough : (standing stop .decrement world.threads : Int) ≤ world.sema.cnt)
    (passes : Passes world event) (step : Step world event next) : Ready world event.action := by
  rcases step_cases step with ⟨thread, region, threads, stood, did, acts, rfl, -⟩
  unfold Passes World.free at passes
  refine ⟨fits, fun takes => ?_, fun releases => ?_⟩
  · unfold Action.takes at takes
    split at takes
    · rename_i ret other acted
      rw [acted] at stood
      rcases stood with ⟨signalled, rfl⟩
      have someone : 0 < standing stop .decrement world.threads :=
        List.countP_pos_iff.mpr ⟨_, List.mem_of_getElem? (acts_stands acts), by simp [stop]⟩
      omega
    · rename_i ret acted
      rw [acted] at passes
      have free := passes (by simpa using takes)
      omega
    · cases takes
  · unfold Action.releases at releases
    split at releases
    · rename_i acted
      rw [acted] at passes
      exact ⟨by omega, passes⟩
    · cases releases

theorem step_counts (ready : Ready world event.action) (step : Step world event next) :
    next.sema.cnt + (if event.takes then 1 else 0) =
      world.sema.cnt + (if event.releases then 1 else 0) := by
  rcases step_cases step with ⟨thread, region, threads, stood, did, acts, rfl, -⟩
  exact did_counts ready did

/-- As long as acquires go on with free permits only, the threads on their way to a `cnt--` find
one. -/
theorem step_enough (fits : world.sema.cnt ≤ intMax)
    (enough : (standing stop .decrement world.threads : Int) ≤ world.sema.cnt)
    (passes : Passes world event) (step : Step world event next) :
    (standing stop .decrement next.threads : Int) ≤ next.sema.cnt := by
  have counts := step_counts (step_ready fits enough passes step) step
  rcases step_cases step with ⟨thread, region, threads, stood, did, acts, rfl, -⟩
  have stay := acts_standing acts .decrement
  rcases event with ⟨i, action, answer⟩
  simp only [Passes, World.free] at passes
  simp only [Event.takes, Event.releases] at counts did stood
  cases did with
  | waits acquires short elsewhere entered unlimited =>
      simp only [placeAfter, Option.any_some, elsewhere, decide_false, reduceCtorEq,
        Bool.false_eq_true,
        if_false, Nat.add_zero] at stay ⊢
      omega
  | passes loops positive =>
      have free : (standing stop .decrement world.threads : Int) < world.sema.cnt := by
        rcases loops with ⟨rfl, rfl⟩ | rfl <;> exact passes positive
      simp only [placeAfter, Option.any_some, stop, decide_true, if_true] at stay ⊢
      omega
  | decrements =>
      rcases stood with ⟨signalled, rfl⟩
      simp only [placeAfter, Option.any_some, Option.any_none, stop, decide_true, if_true,
        Bool.false_eq_true,
        if_false, Nat.add_zero, Action.takes, Action.releases] at stay counts ⊢
      omega
  | atOnce timed positive =>
      simp only [placeAfter, Option.any_none, Bool.false_eq_true, if_false, Nat.add_zero] at stay ⊢
      omega
  | woken =>
      have free := passes rfl
      simp only [placeAfter, Option.any_none, Bool.false_eq_true, if_false, Nat.add_zero,
        Action.takes,
        Action.releases, decide_true, if_true] at stay counts ⊢
      omega
  | gaveUp error =>
      simp only [placeAfter, Option.any_none, Bool.false_eq_true, if_false, Nat.add_zero] at stay ⊢
      omega
  | released =>
      simp only [placeAfter, Sema.release, Option.any_none, Bool.false_eq_true, if_false,
        Nat.add_zero, Action.takes,
        Action.releases, if_true] at stay counts ⊢
      omega

/-! ## Runs -/

/-- The permits of a run, and those that threads are about to take. -/
structure Accounted (initial : Int) (events : List Event) (world : World) : Prop where
  counted : world.sema.cnt = initial + events.countP Event.releases - events.countP Event.takes
  enough : (standing stop .decrement world.threads : Int) ≤ world.sema.cnt
  fits : world.sema.cnt ≤ intMax

theorem run_accounted {permitted : World → Event → Prop} (nonneg : 0 ≤ initial)
    (fits : initial ≤ intMax) (passes : ∀ world event, permitted world event → Passes world event)
    (run : Run permitted (World.new initial count) events world) :
    Accounted initial events world := by
  induction run with
  | start =>
      refine ⟨by simp [World.new], ?_, fits⟩
      have nobody : standing stop .decrement (World.new initial count).threads = 0 := by
        simp [World.new, standing]
      rw [nobody]
      exact nonneg
  | step run allowed step ih =>
      have counts := step_counts (step_ready ih.fits ih.enough (passes _ _ allowed) step) step
      refine ⟨?_, step_enough ih.fits ih.enough (passes _ _ allowed) step, ?_⟩
      · have before := ih.counted
        simp only [List.countP_append, List.countP_singleton]
        split_ifs at counts ⊢ <;> omega
      · rcases step_cases step with ⟨thread, region, threads, stood, did, acts, rfl, -⟩
        exact did_fits ih.fits did

/-! ## The untimed operations -/

theorem untimed_completes (untimed : event.untimed) (step : Step world event next) :
    event.completes = event.takes := by
  rcases step_cases step with ⟨thread, region, threads, stood, did, acts, rfl, outcome⟩
  rcases untimed with ⟨notTimed, notUsec, notWoken⟩
  simp only [Event.completes, Event.takes, outcome]
  generalize event.action = action at did notTimed notUsec notWoken
  cases did with
  | waits acquires short elsewhere entered unlimited =>
      rw [(waits_takes acquires entered unlimited).1, Bool.and_false]
  | passes loops positive => rcases loops with ⟨rfl, rfl⟩ | rfl <;> rfl
  | decrements => rfl
  | atOnce timed positive =>
      rcases timed with rfl | rfl
      · exact absurd rfl notTimed
      · exact absurd rfl notUsec
  | woken => exact absurd rfl (notWoken 0)
  | gaveUp error => exact absurd rfl (notWoken _)
  | released => rfl

/-- With `acquire()` and `release()` only, every `acquire()` that leaves its loop finding a free
permit and every `release()` a count below `INT_MAX`, `TW_Sema` is a counting semaphore in every run
of any number of threads. -/
theorem sema_counts_permits {initial : Int} (nonneg : 0 ≤ initial) (fits : initial ≤ intMax)
    (count : Nat) {events : List Event} {world : World}
      (run : Run (fun world event => event.untimed ∧ Passes world event) (World.new initial count)
      events world) :
    (events.countP Event.completes : Int) ≤ initial + events.countP Event.releases ∧
      (world.idle → world.sema.cnt =
          initial + events.countP Event.releases - events.countP Event.completes ∧
          0 ≤ world.sema.cnt) := by
  have accounted := run_accounted nonneg fits (fun _ _ allowed => allowed.2) run
  have same : events.countP Event.completes = events.countP Event.takes :=
    execution_count_eq run fun _ allowed step => untimed_completes allowed.1 step
  have counted := accounted.counted
  have enough := accounted.enough
  rw [same]
  refine ⟨by omega, fun _ => ⟨counted, by omega⟩⟩

instance (world : World) : (event : Event) → Decidable (Passes world event)
  | ⟨_, .enter .acquire, _⟩ | ⟨_, .resume .acquire _, _⟩ =>
      inferInstanceAs (Decidable (0 < world.sema.cnt → _ < world.sema.cnt))
  | ⟨_, .resume .acquireTimed ret, _⟩ => inferInstanceAs (Decidable (ret = 0 → _ < world.sema.cnt))
  | ⟨_, .enter .release, _⟩ => inferInstanceAs (Decidable (world.sema.cnt < intMax))
  | ⟨_, .enter .acquireTimed, _⟩ | ⟨_, .enter .acquireUsec, _⟩ | ⟨_, .resume (.decrement _) _, _⟩ =>
      .isTrue trivial

/-- A thread takes the only permit and gives it to a second one, which waits for it. -/
def handOn : List Turn :=
  [.enter 0 .acquire none, .resume 0 0 none, .enter 1 .acquire none, .enter 0 .release (some 1),
    .resume 1 0 none, .resume 1 0 none]

def handOnEvents : List Event :=
  [⟨0, .enter .acquire, .goes (.decrement 0)⟩, ⟨0, .resume (.decrement 0) 0, .returns 0⟩,
    ⟨1, .enter .acquire, .goes .acquire⟩, ⟨0, .enter .release, .returns 0⟩,
    ⟨1, .resume .acquire 0, .goes (.decrement 0)⟩, ⟨1, .resume (.decrement 0) 0, .returns 0⟩]

theorem sema_counts_permits_handed_on :
    (handOnEvents.countP Event.completes : Int) ≤ 1 + handOnEvents.countP Event.releases ∧
      (World.idle ⟨⟨0⟩, [none, none]⟩ → (0 : Int) =
          1 + handOnEvents.countP Event.releases - handOnEvents.countP Event.completes ∧
          (0 : Int) ≤ 0) := by
  have played : playAll play (World.new 1 2) handOn = some (handOnEvents, ⟨⟨0⟩, [none, none]⟩) :=
    rfl
  have untimed : ∀ act ∈ trail play (World.new 1 2) handOn, act.2.untimed := by
    intro act member
    have listed : act.2 ∈ handOnEvents := play_all_trail played ▸ List.mem_map_of_mem member
    revert listed
    simp only [handOnEvents, List.mem_cons, List.not_mem_nil, or_false]
    rintro (same | same | same | same | same | same) <;> rw [same] <;> simp [Event.untimed]
  have passes : ∀ act ∈ trail play (World.new 1 2) handOn, Passes act.1 act.2 := by decide
  have run : Run (fun world event => event.untimed ∧ Passes world event)
      (World.new 1 2) handOnEvents
      ⟨⟨0⟩, [none, none]⟩ :=
    play_all_executes play_step .start played fun act member =>
      ⟨untimed act member, passes act member⟩
  exact sema_counts_permits (by decide) (by decide) 2 run

/-- Two threads leave their loops before one of them has decremented the count. -/
def bothLeave : List Event :=
  [⟨0, .enter .acquire, .goes (.decrement 0)⟩, ⟨1, .enter .acquire, .goes (.decrement 0)⟩,
    ⟨0, .resume (.decrement 0) 0, .returns 0⟩, ⟨1, .resume (.decrement 0) 0, .returns 0⟩]

/-- The only permit is acquired twice. -/
theorem sema_may_overdraw :
    Run (fun _ event => event.untimed) (World.new 1 2) bothLeave ⟨⟨-1⟩, [none, none]⟩ ∧
      World.idle ⟨⟨-1⟩, [none, none]⟩ ∧
      ¬ ((bothLeave.countP Event.completes : Int) ≤ 1 + bothLeave.countP Event.releases) := by
  have played : playAll play (World.new 1 2)
      [.enter 0 .acquire none, .enter 1 .acquire none, .resume 0 0 none, .resume 1 0 none] =
        some (bothLeave, ⟨⟨-1⟩, [none, none]⟩) := rfl
  have untimed : ∀ event ∈ bothLeave, event.untimed := by simp [bothLeave, Event.untimed]
  exact ⟨play_all_run play_step played untimed, by simp [World.idle], by decide⟩


/-! ## The timed operations -/

/-- No thread is about to report an error after it has taken a permit. -/
def NoErrors (world : World) : Prop :=
  ∀ i ret, jobAt world.threads i = some (.decrement ret) → ret = 0

theorem step_no_errors (clean : NoErrors world) (proper : Proper world event)
    (step : Step world event next) :
    NoErrors next := by
  rcases step_cases step with ⟨thread, region, threads, stood, did, acts, rfl, -⟩
  intro i ret has
  rw [acts_job acts] at has
  by_cases own : i = event.thread
  · rw [if_pos own] at has
    unfold Proper at proper
    generalize event.action = action at did proper
    cases did with
    | waits acquires short elsewhere entered unlimited =>
        cases has
        cases elsewhere
    | passes loops positive =>
        cases has
        rcases loops with ⟨rfl, rfl⟩ | rfl
        · rfl
        · exact proper positive
    | _ => cases has
  · rw [if_neg own] at has
    exact clean i ret has

theorem run_no_errors {permitted : World → Event → Prop}
    (proper : ∀ world event, permitted world event → Proper world event)
    (run : Run permitted (World.new initial count) events world) : NoErrors world := by
  have start : NoErrors (World.new initial count) := by
    intro i ret has
    rw [World.new, job_at_nobody] at has
    cases has
  exact execution_keeps start (fun _ _ _ clean allowed step =>
    step_no_errors clean (proper _ _ allowed) step) run

theorem step_reports (clean : NoErrors world) (proper : Proper world event)
    (step : Step world event next) :
    event.succeeds = event.takes ∧ (event.fails = true → next.sema = world.sema) := by
  rcases step_cases step with ⟨thread, region, threads, stood, did, acts, rfl, outcome⟩
  simp only [Event.fails, Event.completes, Event.succeeds, Event.takes, outcome]
  unfold Proper at proper
  generalize event.action = action at did stood proper
  cases did with
  | waits acquires short elsewhere entered unlimited =>
      simp [(waits_takes acquires entered unlimited).1]
  | passes loops positive => rcases loops with ⟨rfl, rfl⟩ | rfl <;> simp [Action.takes]
  | decrements =>
      rename_i ret other
      rcases stood with ⟨signalled, rfl⟩
      have zero : ret = 0 := clean _ ret (job_at_of_present (acts_stands acts))
      subst zero
      simp [Action.takes, Action.acquires]
  | atOnce timed positive =>
      have short : world.sema.cnt < 1 := by rcases timed with rfl | rfl <;> exact proper
      omega
  | woken => simp [Action.takes, Action.acquires]
  | gaveUp error => simp [Action.takes, Action.acquires, error]
  | released => simp [Action.takes, Action.acquires]

/-- Under both conditions every acquire that succeeds took one permit that was there, and one that
fails took none, in every run of any number of threads. -/
theorem sema_timed_exact {initial : Int} (nonneg : 0 ≤ initial) (fits : initial ≤ intMax)
    (count : Nat) {events : List Event} {world : World}
    (run : Run (fun world event => Passes world event ∧ Proper world event)
      (World.new initial count)
      events world) :
    world.sema.cnt = initial + events.countP Event.releases - events.countP Event.succeeds ∧
      0 ≤ world.sema.cnt ∧
      ∀ event next, Passes world event → Proper world event → Step world event next →
        (event.fails = true → next.sema = world.sema) ∧
        (event.succeeds = true → 1 ≤ world.sema.cnt) := by
  have accounted := run_accounted nonneg fits (fun _ _ allowed => allowed.1) run
  have counted := accounted.counted
  have enough := accounted.enough
  have same : events.countP Event.succeeds = events.countP Event.takes :=
    execution_count_eq run fun run allowed step =>
      (step_reports (run_no_errors (fun _ _ both => both.2) run) allowed.2 step).1
  rw [same]
  refine ⟨counted, by omega, fun event next passes proper step => ?_⟩
  have reports := step_reports (run_no_errors (fun _ _ allowed => allowed.2) run) proper step
  refine ⟨reports.2, fun succeeds => ?_⟩
  have takes : event.takes = true := reports.1.symm.trans succeeds
  exact (step_ready accounted.fits enough passes step).takes takes

instance (world : World) : (event : Event) → Decidable (Proper world event)
  | ⟨_, .enter .acquireTimed, _⟩ | ⟨_, .enter .acquireUsec, _⟩ =>
      inferInstanceAs (Decidable (world.sema.cnt < 1))
  | ⟨_, .resume .acquire ret, _⟩ => inferInstanceAs (Decidable (0 < world.sema.cnt → ret = 0))
  | ⟨_, .enter .acquire, _⟩ | ⟨_, .enter .release, _⟩ | ⟨_, .resume .acquireTimed _, _⟩
  | ⟨_, .resume (.decrement _) _, _⟩ => .isTrue trivial

/-- A thread waits twice: a release comes in time the first time, and not the second time. -/
def waitTwice : List Turn :=
  [.enter 0 .acquireTimed none, .enter 1 .release (some 0), .resume 0 0 none,
    .enter 0 .acquireUsec none,
    .resume 0 110 none]

def waitTwiceEvents : List Event :=
  [⟨0, .enter .acquireTimed, .goes .acquireTimed⟩, ⟨1, .enter .release, .returns 0⟩,
    ⟨0, .resume .acquireTimed 0, .returns 0⟩, ⟨0, .enter .acquireUsec, .goes .acquireTimed⟩,
    ⟨0, .resume .acquireTimed 110, .returns 110⟩]

theorem sema_timed_exact_wait_twice :
    (0 : Int) = 0 + waitTwiceEvents.countP Event.releases - waitTwiceEvents.countP Event.succeeds ∧
      (0 : Int) ≤ 0 ∧
      ∀ event next, Passes ⟨⟨0⟩, [none, none]⟩ event → Proper ⟨⟨0⟩, [none, none]⟩ event →
        Step ⟨⟨0⟩, [none, none]⟩ event next →
        (event.fails = true → next.sema = ⟨0⟩) ∧ (event.succeeds = true → (1 : Int) ≤ 0) := by
  have played : playAll play (World.new 0 2) waitTwice = some (waitTwiceEvents,
    ⟨⟨0⟩, [none, none]⟩) := rfl
  have allowed : ∀ act ∈ trail play (World.new 0 2) waitTwice, Passes act.1 act.2 ∧
      Proper act.1 act.2 := by
    decide
  have run : Run (fun world event => Passes world event ∧ Proper world event)
      (World.new 0 2) waitTwiceEvents
      ⟨⟨0⟩, [none, none]⟩ := play_all_executes play_step .start played allowed
  exact sema_timed_exact (by decide) (by decide) 2 run

/-- A permit that is there at once is reported, and left. A wait that ends without an error takes
one whether it is there or not. -/
theorem sema_timed_not_exact :
    (Run (fun _ _ => True) (World.new 1 1) [⟨0, .enter .acquireTimed, .returns 0⟩] ⟨⟨1⟩, [none]⟩ ∧
      ¬ (1 : Int) = 1 + ([⟨0, .enter .acquireTimed, .returns 0⟩] : List Event).countP
        Event.releases -
        ([⟨0, .enter .acquireTimed, .returns 0⟩] : List Event).countP Event.succeeds) ∧
    Run (fun _ _ => True) (World.new 0 1)
      [⟨0, .enter .acquireTimed, .goes .acquireTimed⟩, ⟨0, .resume .acquireTimed 0, .returns 0⟩]
      ⟨⟨-1⟩, [none]⟩ := by
  have atOnce : playAll play (World.new 1 1) [.enter 0 .acquireTimed none] =
      some ([⟨0, .enter .acquireTimed, .returns 0⟩], ⟨⟨1⟩, [none]⟩) := rfl
  have woken : playAll play (World.new 0 1) [.enter 0 .acquireTimed none, .resume 0 0 none] =
      some ([⟨0, .enter .acquireTimed, .goes .acquireTimed⟩,
        ⟨0, .resume .acquireTimed 0, .returns 0⟩],
        ⟨⟨-1⟩, [none]⟩) := rfl
  exact ⟨⟨play_all_run play_step atOnce fun _ _ => trivial, by decide⟩,
    play_all_run play_step woken fun _ _ => trivial⟩

end TWlib.Semaphore
