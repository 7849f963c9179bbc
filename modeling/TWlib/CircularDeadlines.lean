import TWlib.CircularPlaces

/-!
# Deadlines on a circular queue

The systems of `CircularStranded` with clocks: the time of a waiting call can pass, and a
wait that has a limit may end from then on. `waitForAcquirersKeepLock(abstime)` waits
with `pthread_cond_wait`, so a timed removal stays in its wait past its deadline until
somebody signals it, while a timed add, which waits in `acquireAndKeepLock(abstime)`,
can always leave.
-/

namespace TWlib.CircularDeadlines

open TWlib.Lib.CellStore TWlib.Lib.Monitor TWlib.CircularBuffer TWlib.CircularObjects
  TWlib.CircularTransfer
  TWlib.CircularThreads TWlib.CircularWakeups TWlib.CircularStranded TWlib.CircularPlaces

set_option autoImplicit false

variable {Item : Type*}

/-! ## The model -/

/-- One queue; `late` is whether the time of the call that a thread is in has passed. -/
structure Clocked (Item : Type*) where
  world : World Item
  late : Nat → Bool

/-- Why a thread moves. A wait ends by a signal, by its limit, or for no reason at all. -/
inductive Cause where
  | entered
  | signalled
  | spurious
  | timeout
deriving DecidableEq

def wokenBy : Bool → Cause
  | true => .signalled
  | false => .spurious

/-- The steps of `CircularThreads`, where the limit of a wait is its deadline. -/
inductive Acts (husk : Item → Item) (clocked : Clocked Item) :
    Event Item → Cause → Clocked Item → Prop where
  | start {k : Nat} {call : Call Item} {region : Region Item} {threads : Threads (Job Item)}
      (ran : enter husk clocked.world.queue call = some region)
      (acts : Lib.Monitor.Acts Job.cond clocked.world.threads k none region.wake
        (placeAfter call region.outcome) threads) :
      Acts husk clocked ⟨k, call, region.outcome⟩ .entered
        ⟨⟨region.queue, threads⟩, Function.update clocked.late k false⟩
  | resume {k : Nat} {job : Job Item} {signalled : Bool} {region : Region Item}
      {threads : Threads (Job Item)}
      (ran : resume husk clocked.world.queue job = some region)
      (acts : Lib.Monitor.Acts Job.cond clocked.world.threads k (some ⟨job, signalled⟩) region.wake
        (placeAfter (.blocking job) region.outcome) threads) :
      Acts husk clocked ⟨k, .blocking job, region.outcome⟩ (wokenBy signalled)
        ⟨⟨region.queue, threads⟩, clocked.late⟩
  | expire {k : Nat} {job : Job Item} {signalled : Bool} {threads : Threads (Job Item)}
      (expires : job.expires = true) (late : clocked.late k = true)
      (acts : Lib.Monitor.Acts Job.cond clocked.world.threads k (some ⟨job, signalled⟩)
        clocked.world.queue.timedOut.wake none threads) :
      Acts husk clocked ⟨k, .blocking job, clocked.world.queue.timedOut.outcome⟩ .timeout
        ⟨⟨clocked.world.queue.timedOut.queue, threads⟩, clocked.late⟩

/-- Any number of queues; `late i k` is about thread `k` of queue `i`. -/
structure Timed (Item : Type*) where
  system : System Item
  late : Nat → Nat → Bool

inductive Tick (Item : Type*) where
  | acts (i : Nat) (event : Event Item) (cause : Cause)
  | other (move : Move Item)
  | deadline (i k : Nat)

inductive Ticks (husk : Item → Item) (blank : Item) (timed : Timed Item) :
    Tick Item → Timed Item → Prop where
  | acts {i : Nat} {event : Event Item} {cause : Cause} {object : SafeCircular}
      {queue : Circular Item}
      {next : Clocked Item} (found : timed.system.objects i = some object)
      (seen : view timed.system.heap object = some queue)
      (acts : Acts husk ⟨⟨queue, timed.system.threads i⟩, timed.late i⟩ event cause next) :
      Ticks husk blank timed (.acts i event cause)
        ⟨⟨timed.system.heap.write object.data next.world.queue.data,
            Function.update timed.system.objects i
            (some (object.become next.world.queue object.enabled)),
            Function.update timed.system.threads i next.world.threads⟩,
          Function.update timed.late i next.late⟩
  | other {move : Move Item} {after : System Item} (apart : ∀ i event, move ≠ .region i event)
      (passes : Passes husk blank timed.system move after) :
      Ticks husk blank timed (.other move) ⟨after, timed.late⟩
  | deadline {i k : Nat} {job : Job Item} {signalled : Bool}
      (waits : (timed.system.threads i)[k]? = some (some ⟨job, signalled⟩))
      (limited : job.timed = true) :
      Ticks husk blank timed (.deadline i k)
        ⟨timed.system, Function.update timed.late i (Function.update (timed.late i) k true)⟩

inductive Reached (husk : Item → Item) (blank : Item) (permitted : Tick Item → Prop)
    (first : Timed Item) :
    Timed Item → Prop where
  | start : Reached husk blank permitted first first
  | tick {tick : Tick Item} {timed next : Timed Item}
      (reached : Reached husk blank permitted first timed)
      (allowed : permitted tick) (ticks : Ticks husk blank timed tick next) :
      Reached husk blank permitted first next

def Timed.empty : Timed Item := ⟨⟨Store.empty, fun _ => none, fun _ => []⟩, fun _ _ => false⟩

def queueAt (system : System Item) (i : Nat) : Option (Circular Item) :=
  (system.objects i).bind (view system.heap)

/-! ## What is stated -/

/-- Thread `k` of queue `i` can go on, and not only if its wait happens to end for no reason. -/
def HasOwnStep (husk : Item → Item) (blank : Item) (timed : Timed Item) (i k : Nat) : Prop :=
  ∃ event cause next, Ticks husk blank timed (.acts i event cause) next ∧ event.thread = k ∧
    cause ≠ .spurious

/-- It is in the wait of a timed removal, and the time of the removal has passed. -/
structure LateRemoval (timed : Timed Item) (i k : Nat) (job : Job Item)
    (signalled : Bool) : Prop where
  waits : (timed.system.threads i)[k]? = some (some ⟨job, signalled⟩)
  removes : (Call.blocking job).removing = true
  limited : job.timed = true
  late : timed.late i k = true

/-- On queue `i` no add takes effect in the tick and no `unblockAllRemovers`, and no wait ends for
no reason. -/
def QuietOn (i : Nat) : Tick Item → Prop
  | .acts j event cause =>
      j = i → event.added = [] ∧ event.call ≠ .unblockAllRemovers ∧ cause ≠ .spurious
  | _ => True

/-! ## Ticks are moves -/

variable {husk : Item → Item} {blank : Item} {permitted : Tick Item → Prop}
  {first timed next : Timed Item} {clocked clockedAfter : Clocked Item} {event : Event Item}
  {cause : Cause} {tick : Tick Item} {job : Job Item} {signalled : Bool} {i k : Nat}
  {queue : Circular Item} {region : Region Item}

theorem acts_step (acts : Acts husk clocked event cause clockedAfter) :
    Step husk clocked.world event clockedAfter.world := by
  cases acts with
  | start ran acts => exact .start ran acts
  | resume ran acts => exact .resume ran acts
  | expire expires late acts => exact .expire expires acts

theorem reached_run (begun : CircularStranded.Run husk blank (fun _ _ => True) first.system)
    (reached : Reached husk blank permitted first timed) :
    CircularStranded.Run husk blank (fun _ _ => True) timed.system := by
  induction reached with
  | start => exact begun
  | tick reached allowed ticks ih =>
      cases ticks with
      | acts found seen acts => exact .step ih trivial (.region found seen (acts_step acts))
      | other apart passes => exact .step ih trivial passes
      | deadline waits limited => exact ih

theorem waited_queue {system : System Item} (sound : Sound system)
    (waits : (system.threads i)[k]? = some (some ⟨job, signalled⟩)) :
    ∃ object queue, system.objects i = some object ∧ view system.heap object = some queue ∧
      Sized queue ∧
      QueuePlaced queue := by
  cases found : system.objects i with
  | none =>
      rw [sound.made i found] at waits
      cases waits
  | some object =>
      obtain ⟨queue, seen, sized⟩ := sound.owned.sized i object found
      exact ⟨object, queue, rfl, seen, sized,
        (placed_of_view seen).mp (sound.placed i object found)⟩

/-! ## The end of a wait -/

theorem removal_never_expires (removes : (Call.blocking job).removing = true) :
    job.expires = false := by
  cases job with
  | add value timed | addMv value timed => cases removes
  | removeOrBlock timed | removeMvOrBlock timed => rfl

theorem removal_returns (removes : (Call.blocking job).removing = true)
    (ran : resume husk queue job = some region) :
    region.outcome = .returns false none ∧ region.queue = queue ∨
      ∃ item, region.outcome = .returns true (some item) := by
  have woken : ∀ left : Item → Item, queue.removeWokenBy left = some region →
      region.outcome = .returns false none ∧ region.queue = queue ∨
        ∃ item, region.outcome = .returns true (some item) := by
    intro left removed
    unfold Circular.removeWokenBy at removed
    split_ifs at removed
    · cases removed
      exact .inl ⟨rfl, rfl⟩
    · obtain ⟨⟨after, item⟩, -, done⟩ := Option.bind_eq_some_iff.mp removed
      cases done
      exact .inr ⟨item, rfl⟩
  cases job with
  | add value timed | addMv value timed => cases removes
  | removeOrBlock timed => exact woken id ran
  | removeMvOrBlock timed => exact woken husk ran

theorem removal_acts (waits : clocked.world.threads[k]? = some (some ⟨job, signalled⟩))
    (removes : (Call.blocking job).removing = true)
    (acts : Acts husk clocked event cause clockedAfter) (own : event.thread = k) :
    ∃ region threads, resume husk clocked.world.queue job = some region ∧
      Lib.Monitor.Acts Job.cond clocked.world.threads k (some ⟨job, signalled⟩) region.wake
        (placeAfter (.blocking job) region.outcome) threads ∧
      event.outcome = region.outcome ∧ cause = wokenBy signalled ∧
      clockedAfter.world = ⟨region.queue, threads⟩ := by
  subst own
  cases acts with
  | start ran acts => cases waits.symm.trans (acts_stands acts)
  | resume ran acts =>
      cases waits.symm.trans (acts_stands acts)
      exact ⟨_, _, ran, acts, rfl, rfl, rfl⟩
  | expire expires late acts =>
      cases waits.symm.trans (acts_stands acts)
      rw [removal_never_expires removes] at expires
      cases expires

theorem signalled_has_own_step (blank : Item) (sound : Sound timed.system)
    (waits : (timed.system.threads i)[k]? = some (some ⟨job, true⟩)) :
    HasOwnStep husk blank timed i k := by
  obtain ⟨object, queue, found, seen, sized, placed⟩ := waited_queue sound waits
  obtain ⟨region, ran⟩ := resume_defined husk sized placed job
  obtain ⟨threads, acts⟩ :=
    acts_total Job.cond waits region.wake (placeAfter (.blocking job) region.outcome)
  exact ⟨_, _, _, .acts found seen (.resume ran acts), rfl, by decide⟩

theorem late_wait_has_own_step (husk : Item → Item) (blank : Item) (sound : Sound timed.system)
    (waits : (timed.system.threads i)[k]? = some (some ⟨job, signalled⟩))
    (expires : job.expires = true) (late : timed.late i k = true) :
    HasOwnStep husk blank timed i k := by
  obtain ⟨object, queue, found, seen, -⟩ := waited_queue sound waits
  exact ⟨_, _, _, .acts found seen (.expire expires late (.region waits .nobody)), rfl, by decide⟩

theorem own_step_signalled (waits : (timed.system.threads i)[k]? = some (some ⟨job, signalled⟩))
    (removes : (Call.blocking job).removing = true) (own : HasOwnStep husk blank timed i k) :
    signalled = true := by
  obtain ⟨event, cause, next, ticks, thread, awaited⟩ := own
  cases ticks with
  | acts found seen acts =>
      obtain ⟨region, threads, -, -, -, caused, -⟩ := removal_acts waits removes acts thread
      cases signalled with
      | true => rfl
      | false => exact absurd caused awaited

/-! ## A removal that nobody signals -/

theorem removal_cond (removes : (Call.blocking job).removing = true) :
    job.cond = .decrementCond := by
  cases job with
  | add value timed | addMv value timed => cases removes
  | removeOrBlock timed | removeMvOrBlock timed => rfl

variable {call : Call Item} {threads after : Threads (Job Item)} {j : Nat} {waiter : Job Item}
  {thread : Option (Waiter (Job Item))}

theorem unblocks_of_cond (takes : call.cond = none) : call = .unblockAllRemovers := by
  cases call with
  | blocking job =>
      rw [blocking_cond] at takes
      cases takes
  | unblockAllRemovers => rfl
  | _ => cases takes

theorem counts_keeps_waiter (counts : Counts queue call region)
    (nothing : (Event.mk j call region.outcome).added = []) (blocks : call ≠ .unblockAllRemovers)
    (acts : Lib.Monitor.Acts Job.cond threads j thread region.wake
      (placeAfter call region.outcome) after)
    (different : j ≠ k) (removes : (Call.blocking waiter).removing = true)
    (waits : threads[k]? = some (some ⟨waiter, signalled⟩)) :
    after[k]? = some (some ⟨waiter, signalled⟩) := by
  rcases acts with ⟨stands, wakes⟩
  apply settle_elsewhere different
  have still : (threads.set j none)[k]? = some (some ⟨waiter, signalled⟩) := by
    rw [List.getElem?_set_ne different, waits]
  cases counts with
  | put takes room shifts =>
      have adds : call.adding = none := by simpa [Event.added] using nothing
      simp only [Call.cond, adds, Option.isSome_none, Bool.false_eq_true, if_false] at takes
      split_ifs at takes
      cases takes
  | took takes filled shifts =>
      cases wakes with
      | signal signal =>
          apply signal_elsewhere signal still
          rw [removal_cond removes]
          decide
  | refused takes short =>
      cases wakes
      exact still
  | waits blocking short =>
      cases wakes
      exact still
  | unblocked takes => exact absurd (unblocks_of_cond takes) blocks

theorem quiet_acts_keeps (permits : Permits clocked.world.queue.sema clocked.world.queue.size)
    (waits : clocked.world.threads[k]? = some (some ⟨job, false⟩))
    (removes : (Call.blocking job).removing = true)
    (quiet : event.added = [] ∧ event.call ≠ .unblockAllRemovers ∧ cause ≠ .spurious)
    (acts : Acts husk clocked event cause clockedAfter) :
    clockedAfter.world.threads[k]? = some (some ⟨job, false⟩) := by
  obtain ⟨nothing, blocks, awaited⟩ := quiet
  cases acts with
  | start ran acts =>
      rename_i j call region threads
      have different : j ≠ k := by
        rintro rfl
        cases waits.symm.trans (acts_stands acts)
      exact counts_keeps_waiter (enter_counts permits ran) nothing blocks acts different
        removes waits
  | resume ran acts =>
      rename_i j other marked region threads
      have different : j ≠ k := by
        rintro rfl
        cases waits.symm.trans (acts_stands acts)
        exact awaited rfl
      exact counts_keeps_waiter (resume_counts permits ran) nothing blocks acts different
        removes waits
  | expire expires late acts =>
      rename_i j other marked threads
      have different : j ≠ k := by
        rintro rfl
        cases waits.symm.trans (acts_stands acts)
        rw [removal_never_expires removes] at expires
        cases expires
      rcases acts with ⟨stands, wakes⟩
      cases nobody_wakes wakes
      have still : (clocked.world.threads.set j none)[k]? = some (some ⟨job, false⟩) := by
        rw [List.getElem?_set_ne different, waits]
      exact still

theorem other_keeps_threads {system after : System Item} {move : Move Item} (sound : Sound system)
    (apart : ∀ i event, move ≠ .region i event) (passes : Passes husk blank system move after)
    (waits : (system.threads i)[k]? = some (some ⟨job, signalled⟩)) :
    after.threads i = system.threads i := by
  cases passes with
  | new unused positive isObjects whole count =>
      rename_i made size data
      have different : i ≠ made := by
        rintro rfl
        rw [sound.made i unused] at waits
        cases waits
      exact Function.update_of_ne different ..
  | region found seen step => exact absurd rfl (apart _ _)
  | quiet quiet found used => rfl
  | switch enabled found => rfl
  | clear found used => rfl
  | clone differ first second whole made => rfl
  | transfer differ first second whole made => rfl

theorem quiet_tick_keeps (sound : Sound timed.system) (permits : AllPermits timed.system)
    (waits : (timed.system.threads i)[k]? = some (some ⟨job, false⟩))
    (removes : (Call.blocking job).removing = true) (quiet : QuietOn i tick)
    (ticks : Ticks husk blank timed tick next) :
    (next.system.threads i)[k]? = some (some ⟨job, false⟩) := by
  cases ticks with
  | acts found seen acts =>
      rename_i j event cause object queue clockedAfter
      by_cases own : j = i
      · subst own
        obtain ⟨-, -, -, sema, -, -, size⟩ := view_some seen
        have here : Permits queue.sema queue.size := by
          rw [sema, size]
          exact permits j object found
        simp only [Function.update_self]
        exact quiet_acts_keeps here waits removes (quiet rfl) acts
      · simp only [Function.update_of_ne (Ne.symm own)]
        exact waits
  | other apart passes =>
      simp only [other_keeps_threads sound apart passes waits]
      exact waits
  | deadline waiting limited => exact waits

/-- A removal that waits and that nobody signals hangs, however many deadlines pass. -/
theorem unsignalled_removal_hangs (begun : CircularStranded.Run husk blank
    (fun _ _ => True) first.system)
    (waits : (first.system.threads i)[k]? = some (some ⟨job, false⟩))
    (removes : (Call.blocking job).removing = true)
    (reached : Reached husk blank (QuietOn i) first timed) :
    (timed.system.threads i)[k]? = some (some ⟨job, false⟩) ∧
    ¬ HasOwnStep husk blank timed i k := by
  have still : (timed.system.threads i)[k]? = some (some ⟨job, false⟩) := by
    induction reached with
    | start => exact waits
    | tick reached allowed ticks ih =>
        have run := reached_run begun reached
        exact quiet_tick_keeps (run_sound run) (run_permits run) ih removes allowed ticks
  refine ⟨still, fun own => ?_⟩
  cases own_step_signalled still removes own

/-! ## Whether a late removal can leave -/

/-- In every run, a timed removal whose deadline has passed in its wait can go on if and only if it
has been signalled. When it goes on it returns, and where it returns false nothing has changed. -/
theorem late_removal_has_own_step_iff (husk : Item → Item) (blank : Item) {timed : Timed Item}
    (reached : Reached husk blank (fun _ => True) Timed.empty timed) {i k : Nat} {job : Job Item}
    {signalled : Bool} (due : LateRemoval timed i k job signalled) :
    (HasOwnStep husk blank timed i k ↔ signalled = true) ∧
      ∀ event cause next, Ticks husk blank timed (.acts i event cause) next → event.thread = k →
        (next.system.threads i)[k]? = some none ∧ ∃ ret arg, event.outcome = .returns ret arg ∧
          (ret = false → queueAt next.system i = queueAt timed.system i) := by
  have run := reached_run .start reached
  refine ⟨⟨own_step_signalled due.waits due.removes, ?_⟩, ?_⟩
  · rintro rfl
    exact signalled_has_own_step blank (run_sound run) due.waits
  · intro event cause next ticks own
    cases ticks with
    | acts found seen acts =>
        obtain ⟨region, threads, ran, leaves, outcome, -, left⟩ :=
          removal_acts due.waits due.removes acts own
        simp only [queueAt, found, Function.update_self, Option.bind_some, outcome, left]
        rw [view_become seen, seen]
        rcases leaves with ⟨stands, wakes⟩
        have returned := wakes_outside wakes (left_outside stands)
        obtain ⟨refused, same⟩ | ⟨item, removed⟩ := removal_returns due.removes ran
        · rw [refused, same]
          exact ⟨returned, false, none, rfl, fun _ => rfl⟩
        · rw [removed]
          exact ⟨returned, true, some item, rfl, fun impossible => nomatch impossible⟩

/-- One consumer waits with a limit on an empty queue of one slot, and its time has passed. -/
private theorem overdue : ∃ timed : Timed Nat, Reached id 0 (fun _ => True) Timed.empty timed ∧
    LateRemoval timed 0 0 (.removeOrBlock true) false := by
  let consumer : Job Nat := .removeOrBlock true
  let empty : Circular Nat := Circular.new 1 true [0]
  let waiting : Region Nat := ⟨empty, .nobody, .waits .decrementCond⟩
  let idle : Threads (Job Nat) := [none]
  have stays : Lib.Monitor.Acts Job.cond idle 0 none waiting.wake (some consumer)
      [some ⟨consumer, false⟩] :=
    .region rfl .nobody
  have created := @Ticks.other Nat id 0 Timed.empty _ _ (by rintro _ _ ⟨⟩)
    (@Passes.new Nat id 0 ⟨Store.empty, fun _ => none, fun _ => []⟩ 0 1 [0] rfl
      (by decide) true rfl 1)
  have waits : Acts id ⟨⟨empty, idle⟩, fun _ => false⟩ ⟨0, .blocking consumer,
      waiting.outcome⟩ .entered
      ⟨⟨waiting.queue, [some ⟨consumer, false⟩]⟩, Function.update (fun _ => false) 0 false⟩ :=
    .start rfl stays
  have made : Reached id 0 (fun _ => True) Timed.empty _ := .tick .start trivial created
  have blocked := Reached.tick made trivial (@Ticks.acts Nat id 0 _ 0 _ _ _ empty _ rfl rfl waits)
  have passed := Reached.tick blocked trivial
    (@Ticks.deadline Nat id 0 _ 0 0 consumer false rfl rfl)
  exact ⟨_, passed, rfl, rfl, rfl, rfl⟩

theorem late_removal_has_own_step_iff_overdue : ∃ timed :
    Timed Nat, Reached id 0 (fun _ => True) Timed.empty timed ∧
    LateRemoval timed 0 0 (.removeOrBlock true) false ∧ (HasOwnStep id 0 timed 0 0 ↔ false = true) ∧
      ∀ event cause next, Ticks id 0 timed (.acts 0 event cause) next → event.thread = 0 →
        (next.system.threads 0)[0]? = some none ∧ ∃ ret arg, event.outcome = .returns ret arg ∧
          (ret = false → queueAt next.system 0 = queueAt timed.system 0) := by
  obtain ⟨timed, reached, due⟩ := overdue
  exact ⟨timed, reached, due, late_removal_has_own_step_iff id 0 reached due⟩

/-- The queue stays empty, and nothing but a signal ends the wait. -/
theorem late_removal_may_hang : ¬ ∀ (timed : Timed Nat) (i k : Nat) (job : Job Nat)
    (signalled : Bool),
    Reached id 0 (fun _ => True) Timed.empty timed → LateRemoval timed i k job signalled →
      HasOwnStep id 0 timed i k := by
  intro always
  obtain ⟨timed, reached, due⟩ := overdue
  cases own_step_signalled due.waits due.removes (always timed 0 0 _ false reached due)

end TWlib.CircularDeadlines
