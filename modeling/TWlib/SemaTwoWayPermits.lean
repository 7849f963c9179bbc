import TWlib.CircularBuffer
import TWlib.Lib.MachineInt
import TWlib.Lib.MonitorRuns

/-!
# The permits of the two-way semaphore

Some operations of `TW_SemaTwoWay` return with the mutex held, and some are called with it: `owner`
is the thread that holds it between two regions. `ret` is what the wait before a region returned,
0, `ETIMEDOUT` or another error; a wait may return 0 without a signal. The count is an `int`.
-/

namespace TWlib.SemaTwoWayPermits

open TWlib.Lib.MachineInt TWlib.Lib.Monitor TWlib.CircularBuffer

set_option autoImplicit false

/-! ## The model -/

/-- The call a waiting thread goes on with; `keep` is whether it returns with the mutex. -/
inductive Place where
  | acquire (keep : Bool)
  | waitForAcquirers (keep : Bool)
  | waitForDecrement
deriving DecidableEq

/-- An error code, 0 for success, or the result of `acquireAndKeepLockNoBlock`. -/
inductive Answer where
  | code (ret : Int)
  | flag (ret : Bool)
deriving DecidableEq

inductive Outcome where
  | waits (place : Place)
  | returns (answer : Answer) (keep : Bool)
deriving DecidableEq

structure Region where
  sema : SemaTwoWay
  wake : TWlib.Lib.Monitor.Wake Cond
  outcome : Outcome
deriving DecidableEq

/-- The condition variable waited on. -/
def Place.cond : Place → Cond
  | .acquire _ => .gtZeroCond
  | .waitForAcquirers _ | .waitForDecrement => .decrementCond

def placeAfter : Outcome → Option Place
  | .waits place => some place
  | .returns _ _ => none

/-- `cnt--; pthread_cond_signal( &decrementCond );` -/
def take (sema : SemaTwoWay) (answer : Answer) (keep : Bool) : Region :=
  ⟨{ sema with cnt := sema.cnt - 1 }, .signal .decrementCond, .returns answer keep⟩

/-- The loop of every blocking acquire, from where `ret` was set, and what follows it. -/
def acquireFrom (keep : Bool) (sema : SemaTwoWay) (ret : Int) : Region :=
  if ret ≠ 0 then ⟨sema, .nobody, .returns (.code ret) keep⟩
  else if sema.cnt < 1 then ⟨sema, .nobody, .waits (.acquire keep)⟩
  else take sema (.code 0) keep

def acquire (sema : SemaTwoWay) : Region := acquireFrom false sema 0

def acquireAndKeepLock (sema : SemaTwoWay) : Region := acquireFrom true sema 0

def acquireAndKeepLockNoBlock (sema : SemaTwoWay) : Region :=
  if sema.cnt ≥ 1 then take sema (.flag true) true else ⟨sema, .nobody, .returns (.flag false) true⟩

/-- Both `waitForAcquirers` families up to the wait. -/
def waitFor (keep : Bool) (sema : SemaTwoWay) : Region :=
  if sema.cnt ≥ sema.size then ⟨sema, .nobody, .waits (.waitForAcquirers keep)⟩
  else ⟨sema, .nobody, .returns (.code 0) keep⟩

def waitForAcquirers (sema : SemaTwoWay) : Region := waitFor false sema

def waitForAcquirersKeepLock (sema : SemaTwoWay) : Region := waitFor true sema

/-- Both families after the wait. -/
def waitedFor (keep : Bool) (sema : SemaTwoWay) (ret : Int) : Region :=
  ⟨sema, .nobody, .returns (.code (if sema.cnt ≥ sema.size then -1 else ret)) keep⟩

def waitForDecrementKeepLock (sema : SemaTwoWay) : Region :=
  ⟨sema, .nobody, .waits .waitForDecrement⟩

/-- `cnt++` and the signal, as in every release. -/
def give (keep : Bool) (sema : SemaTwoWay) : Region :=
  let cnt := asInt (sema.cnt + 1)
  ⟨{ sema with cnt }, if cnt > 0 then .signal .gtZeroCond else .nobody, .returns (.code 0) keep⟩

def release (sema : SemaTwoWay) : Region := give false sema

def releaseWithoutLock (sema : SemaTwoWay) : Region := give true sema

def releaseAndKeepLock (sema : SemaTwoWay) : Region := give true sema

def releaseAllAcquireLocks (sema : SemaTwoWay) : Region :=
  ⟨sema, .broadcast .decrementCond, .returns (.code 0) false⟩

def lockSemaOnly (sema : SemaTwoWay) : Region := ⟨sema, .nobody, .returns (.code 0) true⟩

def releaseSemaLock (sema : SemaTwoWay) : Region := ⟨sema, .nobody, .returns (.code 0) false⟩

/-- The operations; `timed` is whether a limit is given, `lock` whether the mutex is to be
locked. -/
inductive Call where
  | acquire (timed : Bool)
  | acquireAndKeepLock (timed : Bool)
  | acquireAndKeepLockNoBlock
  | waitForAcquirers (timed lock : Bool)
  | waitForAcquirersKeepLock (timed lock : Bool)
  | waitForDecrementKeepLock (lock : Bool)
  | release
  | releaseWithoutLock
  | releaseAndKeepLock
  | releaseAllAcquireLocks
  | lockSemaOnly
  | releaseSemaLock
deriving DecidableEq

/-- Whether the call locks the mutex itself; otherwise the caller holds it. -/
def Call.locks : Call → Bool
  | .waitForAcquirers _ lock | .waitForAcquirersKeepLock _ lock | .waitForDecrementKeepLock lock =>
      lock
  | .releaseWithoutLock | .releaseSemaLock => false
  | _ => true

def enter (sema : SemaTwoWay) : Call → Region
  | .acquire _ => acquire sema
  | .acquireAndKeepLock _ => acquireAndKeepLock sema
  | .acquireAndKeepLockNoBlock => acquireAndKeepLockNoBlock sema
  | .waitForAcquirers _ _ => waitForAcquirers sema
  | .waitForAcquirersKeepLock _ _ => waitForAcquirersKeepLock sema
  | .waitForDecrementKeepLock _ => waitForDecrementKeepLock sema
  | .release => release sema
  | .releaseWithoutLock => releaseWithoutLock sema
  | .releaseAndKeepLock => releaseAndKeepLock sema
  | .releaseAllAcquireLocks => releaseAllAcquireLocks sema
  | .lockSemaOnly => lockSemaOnly sema
  | .releaseSemaLock => releaseSemaLock sema

def resume (sema : SemaTwoWay) (ret : Int) : Place → Region
  | .acquire keep => acquireFrom keep sema ret
  | .waitForAcquirers keep => waitedFor keep sema ret
  | .waitForDecrement => ⟨sema, .nobody, .returns (.code ret) true⟩

structure World where
  sema : SemaTwoWay
  owner : Option Nat
  threads : Threads Place

/-- The thread that holds the mutex after a region of thread `i`. -/
def ownerAfter (i : Nat) : Outcome → Option Nat
  | .waits _ => none
  | .returns _ keep => if keep then some i else none

inductive Action where
  | enter (call : Call)
  | resume (place : Place) (ret : Int)
deriving DecidableEq

structure Event where
  thread : Nat
  action : Action
  outcome : Outcome
deriving DecidableEq

inductive Step (world : World) : Event → World → Prop where
  | enter {i : Nat} {call : Call} {threads : Threads Place}
      (mutex : world.owner = if call.locks then none else some i)
      (acts : Acts Place.cond world.threads i none (enter world.sema call).wake
        (placeAfter (enter world.sema call).outcome) threads) :
      Step world ⟨i, .enter call, (enter world.sema call).outcome⟩
        ⟨(enter world.sema call).sema, ownerAfter i (enter world.sema call).outcome, threads⟩
  | resume {i : Nat} {place : Place} {signalled : Bool} {ret : Int} {threads : Threads Place}
      (mutex : world.owner = none)
      (acts : Acts Place.cond world.threads i (some ⟨place, signalled⟩)
        (resume world.sema ret place).wake
        (placeAfter (resume world.sema ret place).outcome) threads) :
      Step world ⟨i, .resume place ret, (resume world.sema ret place).outcome⟩
        ⟨(resume world.sema ret place).sema, ownerAfter i (resume world.sema ret place).outcome,
          threads⟩

def World.new (initial : Int) (count : Nat) : World :=
  ⟨⟨initial, initial⟩, none, List.replicate count none⟩

abbrev Run (permitted : World → Event → Prop) (first : World) : List Event → World → Prop :=
  Execution Step permitted first

def Action.acquires : Action → Bool
  | .enter (.acquire _) | .enter (.acquireAndKeepLock _) | .enter .acquireAndKeepLockNoBlock => true
  | .resume (.acquire _) _ => true
  | _ => false

def Action.releases : Action → Bool
  | .enter .release | .enter .releaseWithoutLock | .enter .releaseAndKeepLock => true
  | _ => false

def Answer.success (answer : Answer) : Bool := answer = .code 0 || answer = .flag true

def Event.acquired (event : Event) : Bool :=
  event.action.acquires && match event.outcome with
    | .returns answer _ => answer.success
    | .waits _ => false

/-- An acquire returned a timeout or another error, or that there is no permit. -/
def Event.failed (event : Event) : Bool :=
  event.action.acquires && match event.outcome with
    | .returns answer _ => !answer.success
    | .waits _ => false

/-- A release returned. -/
def Event.released (event : Event) : Bool := event.action.releases

/-- A release finds room for one more. -/
def Fits (world : World) (event : Event) : Prop := event.released = true → world.sema.cnt < intMax

/-! ## What a step does -/

/-- A region takes a permit that is there, gives one, or leaves the count alone. -/
inductive Did (sema : SemaTwoWay) (event : Event) (after : SemaTwoWay) : Prop where
  | took (positive : 1 ≤ sema.cnt) (less : after.cnt = sema.cnt - 1) (size : after.size = sema.size)
      (acquired : event.acquired = true) (released : event.released = false)
      (failed : event.failed = false)
  | gave (more : after.cnt = asInt (sema.cnt + 1)) (size : after.size = sema.size)
      (acquired : event.acquired = false)
      (released : event.released = true) (failed : event.failed = false)
  | nothing (same : after = sema) (acquired : event.acquired = false)
      (released : event.released = false)

variable {world next : World} {event : Event} {events : List Event} {initial : Int} {count : Nat}

/-- The exit of the loop takes a permit only when the wait, if there was one, returned 0. -/
theorem acquire_from_did (keep : Bool) (sema : SemaTwoWay) (ret : Int) (i : Nat) {action : Action}
    (acquires : action.acquires = true) (gives : action.releases = false) :
    Did sema ⟨i, action, (acquireFrom keep sema ret).outcome⟩ (acquireFrom keep sema ret).sema := by
  unfold acquireFrom
  split_ifs with success short
  · exact .nothing rfl (by simp [Event.acquired, Answer.success, success]) gives
  · exact .nothing rfl (by simp [Event.acquired]) gives
  · refine .took (by omega) rfl rfl ?_ gives ?_
    · simp [Event.acquired, acquires, take, Answer.success]
    · simp [Event.failed, take, Answer.success]

theorem enter_did (sema : SemaTwoWay) (call : Call) (i : Nat) :
    Did sema ⟨i, .enter call, (enter sema call).outcome⟩ (enter sema call).sema := by
  cases call with
  | acquire timed => exact acquire_from_did false sema 0 i rfl rfl
  | acquireAndKeepLock timed => exact acquire_from_did true sema 0 i rfl rfl
  | acquireAndKeepLockNoBlock =>
      simp only [enter, acquireAndKeepLockNoBlock]
      split_ifs with positive
      · exact .took positive rfl rfl rfl rfl rfl
      · exact .nothing rfl rfl rfl
  | waitForAcquirers timed lock =>
      simp only [enter, waitForAcquirers, waitFor]
      split_ifs <;> exact .nothing rfl rfl rfl
  | waitForAcquirersKeepLock timed lock =>
      simp only [enter, waitForAcquirersKeepLock, waitFor]
      split_ifs <;> exact .nothing rfl rfl rfl
  | waitForDecrementKeepLock lock => exact .nothing rfl rfl rfl
  | release => exact .gave rfl rfl rfl rfl rfl
  | releaseWithoutLock => exact .gave rfl rfl rfl rfl rfl
  | releaseAndKeepLock => exact .gave rfl rfl rfl rfl rfl
  | releaseAllAcquireLocks => exact .nothing rfl rfl rfl
  | lockSemaOnly => exact .nothing rfl rfl rfl
  | releaseSemaLock => exact .nothing rfl rfl rfl

theorem step_did (step : Step world event next) : Did world.sema event next.sema := by
  cases step with
  | enter mutex acts =>
      rename_i i call threads
      exact enter_did world.sema call i
  | resume mutex acts =>
      rename_i i place signalled ret threads
      cases place with
      | acquire keep => exact acquire_from_did keep world.sema ret i rfl rfl
      | waitForAcquirers keep => exact .nothing rfl rfl rfl
      | waitForDecrement => exact .nothing rfl rfl rfl

/-- The semaphore as the circular queue uses it is this one. -/
theorem circular_acquire_agrees (sema : SemaTwoWay) :
    sema.acquire.map Prod.fst =
      if (acquireAndKeepLockNoBlock sema).outcome = .returns (.flag true) true then
        some (acquireAndKeepLockNoBlock sema).sema else none := by
  unfold SemaTwoWay.acquire acquireAndKeepLockNoBlock
  split_ifs <;> simp_all [take]

theorem circular_release_agrees (sema : SemaTwoWay) (fits : IsInt (sema.cnt + 1)) :
    sema.releaseWithoutLock.1 = (releaseWithoutLock sema).sema := by
  simp only [SemaTwoWay.releaseWithoutLock, releaseWithoutLock, give, as_int_of_is_int fits]

/-! ## Permits -/

/-- What is so of the count before every step. -/
def InRange (world : World) : Prop := 0 ≤ world.sema.cnt ∧ world.sema.cnt ≤ intMax

theorem step_counts (range : InRange world) (fits : Fits world event)
    (step : Step world event next) :
    next.sema.cnt + (if event.acquired then 1 else 0) = world.sema.cnt +
      (if event.released then 1 else 0) ∧
      InRange next := by
  unfold InRange at range ⊢
  cases step_did step with
  | took positive less size acquired released failed =>
      simp only [acquired, released, if_true, Bool.false_eq_true, if_false]
      omega
  | gave more size acquired released failed =>
      have room := fits released
      have wraps : asInt (world.sema.cnt + 1) = world.sema.cnt + 1 :=
        as_int_of_bounds (by omega) (by omega)
      simp only [acquired, released, if_true, Bool.false_eq_true, if_false]
      omega
  | nothing same acquired released =>
      rw [same]
      simp [acquired, released, range]

theorem step_failed (step : Step world event next) (failed : event.failed = true) :
    next.sema = world.sema := by
  cases step_did step with
  | took positive less size acquired released unfailed => rw [unfailed] at failed; cases failed
  | gave more size acquired released unfailed => rw [unfailed] at failed; cases failed
  | nothing same acquired released => exact same

theorem run_in_range (nonneg : 0 ≤ initial) (small : initial ≤ intMax)
    (run : Run Fits (World.new initial count) events world) : InRange world :=
  execution_keeps ⟨nonneg, small⟩ (fun _ _ _ range fits step => (step_counts range fits step).2) run

/-- In every run of any number of threads that releases no permit at `INT_MAX` the count is the
initial one, and one more for each release and one less for each successful acquire, and not
negative; and an acquire that fails leaves the semaphore as it was. -/
theorem sema_two_way_exact {initial : Int} (nonneg : 0 ≤ initial) (small : initial ≤ intMax)
    (count : Nat) {events : List Event} {world : World}
    (run : Run Fits (World.new initial count) events world) :
    world.sema.cnt = initial + events.countP Event.released - events.countP Event.acquired ∧
      0 ≤ world.sema.cnt ∧
      ∀ event next, Step world event next → event.failed = true → next.sema = world.sema := by
  refine ⟨?_, (run_in_range nonneg small run).1, fun event next step failed =>
    step_failed step failed⟩
  induction run with
  | start => simp [World.new]
  | step run fits step ih =>
      have counts := (step_counts (run_in_range nonneg small run) fits step).1
      simp only [List.countP_append, List.countP_singleton]
      split_ifs at counts ⊢ <;> omega

theorem fits_other (other : event.released = false) : Fits world event := fun released => by
  rw [other] at released
  cases released

/-- One thread takes the only permit and keeps the mutex for that, another one waits for it in vain,
and the first one gives it back. -/
def takeAndGive : List Event :=
  [⟨0, .enter (.acquireAndKeepLock false), .returns (.code 0) true⟩,
    ⟨0, .enter .releaseSemaLock, .returns (.code 0) false⟩,
    ⟨1, .enter (.acquire true), .waits (.acquire false)⟩,
    ⟨1, .resume (.acquire false) 110, .returns (.code 110) false⟩,
    ⟨0, .enter .release, .returns (.code 0) false⟩]

def given : World := ⟨⟨1, 1⟩, none, [none, none]⟩

theorem take_and_give_run : Run Fits (World.new 1 2) takeAndGive given := by
  let taken : World := ⟨⟨0, 1⟩, some 0, [none, none]⟩
  let unlocked : World := ⟨⟨0, 1⟩, none, [none, none]⟩
  let blocked : World := ⟨⟨0, 1⟩, none, [none, some ⟨.acquire false, false⟩]⟩
  have takes : Step (World.new 1 2) ⟨0, .enter (.acquireAndKeepLock false),
      (enter ⟨1, 1⟩ (.acquireAndKeepLock false)).outcome⟩ taken :=
    .enter rfl (.region rfl (.signal (.nobody (by decide))))
  have unlocks : Step taken ⟨0, .enter .releaseSemaLock,
      (enter ⟨0, 1⟩ .releaseSemaLock).outcome⟩ unlocked :=
    .enter rfl (.region rfl .nobody)
  have blocks : Step unlocked ⟨1, .enter (.acquire true),
      (enter ⟨0, 1⟩ (.acquire true)).outcome⟩ blocked :=
    .enter rfl (.region rfl .nobody)
  have waits : blocked.threads[1]? = some (some ⟨.acquire false, false⟩) := rfl
  have givesUp : Step blocked ⟨1, .resume (.acquire false) 110,
      (resume ⟨0, 1⟩ 110 (.acquire false)).outcome⟩
      unlocked := .resume rfl (.region waits .nobody)
  have gives : Step unlocked ⟨0, .enter .release, (enter ⟨0, 1⟩ .release).outcome⟩ given :=
    .enter rfl (.region rfl (.signal (.nobody (by decide))))
  have small : Fits unlocked ⟨0, .enter .release, (enter ⟨0, 1⟩ .release).outcome⟩ := fun _ =>
    show (0 : Int) < intMax by decide
  have before : Run Fits (World.new 1 2) _ unlocked :=
    .step (.step (.step (.step .start (fits_other rfl) takes) (fits_other rfl) unlocks)
      (fits_other rfl) blocks)
      (fits_other rfl) givesUp
  exact .step before small gives

theorem sema_two_way_exact_take_and_give :
    (1 : Int) = 1 + takeAndGive.countP Event.released - takeAndGive.countP Event.acquired ∧
      (0 : Int) ≤ 1 ∧
      ∀ event next, Step given event next → event.failed = true → next.sema = given.sema :=
  sema_two_way_exact (by decide) (by decide) 2 take_and_give_run

/-- A release at `INT_MAX` makes the count negative. -/
theorem sema_two_way_not_always_exact :
    ∃ world, Run (fun _ _ => True) (World.new intMax 1)
      [⟨0, .enter .release, .returns (.code 0) false⟩] world ∧
      ¬ 0 ≤ world.sema.cnt ∧ world.sema.cnt ≠ intMax + 1 := by
  have gives : Step (World.new intMax 1) ⟨0, .enter .release,
      (enter ⟨intMax, intMax⟩ .release).outcome⟩
      ⟨⟨-2147483648, intMax⟩, none, [none]⟩ := .enter rfl (.region rfl .nobody)
  exact ⟨_, .step .start trivial gives, by decide, by decide⟩

end TWlib.SemaTwoWayPermits
