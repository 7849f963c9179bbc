import TWlib.TaskStart

/-!
# The status of a task

One thread starts the task; it and others wait for it and ask for its status. A thread
of the task that has executed the last region of `do_work` has still to return from it,
and can be joined when it has.
-/

namespace TWlib.TaskStatus

open TWlib.Tasks TWlib.Tasks.World TWlib.TaskStart

set_option autoImplicit false

variable {Param Value : Type*}

/-! ## The whole life of a task -/

/-- `returned` is what a thread of the task that has ended returned, and `retval` is
`_thrd_retval`. -/
structure Life (Param Value : Type*) where
  world : World Unit Param
  returned : Nat → Option Value
  joined : List Nat
  retval : Option Value

/-- A query is taken with the answer it gives. -/
inductive Event (Param Value : Type*) where
  | task (action : TaskAction Unit Param)
  /-- `do_work` returns. -/
  | ends (t : Nat) (ret : Value)
  | waitForTask
  | waitForTaskTimed (inTime : Bool)
  | isRunning (ret : Bool)
  | isCompleted (ret : Bool)
  | getLWP (ret : Int)

namespace Life

def new : Life Param Value := ⟨.new, fun _ => none, [], none⟩

def ends (l : Life Param Value) (t : Nat) (ret : Value) : Option (Life Param Value) :=
  l.world.threads[t]?.elim none fun thread =>
    match thread.progress with
    | .ended =>
        if (l.returned t).isSome then none
          else some { l with returned := Function.update l.returned t ret }
    | _ => none

/-- `pthread_join` of the stored handle. There is no joining without a handle, or a second time. -/
def waitForTask (l : Life Param Value) : Option (Life Param Value) :=
  l.world.task.pthreadDat.elim none fun t =>
    if t ∈ l.joined then none
    else (l.returned t).elim none fun ret =>
      some { l with joined := t :: l.joined, retval := some ret }

def waitForTaskTimed (l : Life Param Value) : Bool → Option (Life Param Value)
  | true => l.waitForTask
  | false => l.world.task.pthreadDat.elim none fun t => if t ∈ l.joined then none else some l

def step (l : Life Param Value) : Event Param Value → Option (Life Param Value)
  | .task action => (l.world.step action).elim none fun world => some { l with world }
  | .ends t ret => l.ends t ret
  | .waitForTask => l.waitForTask
  | .waitForTaskTimed inTime => l.waitForTaskTimed inTime
  | .isRunning ret => if ret = l.world.task.isRunning then some l else none
  | .isCompleted ret => if ret = l.world.task.isCompleted then some l else none
  | .getLWP ret => if ret = l.world.task.getLWP then some l else none

def run : Life Param Value → List (Event Param Value) → Option (Life Param Value)
  | l, [] => some l
  | l, event :: events => (l.step event).elim none fun l => run l events

end Life

/-! ## What is stated -/

def NoCall (l : Life Param Value) : Prop := ∃ ret, l.world.callers () = .outside ret

def Started (l : Life Param Value) : Prop := l.world.threads ≠ []

/-- The last region of `do_work` has been executed. -/
def Completes (w : World Unit Param) : Prop := ∃ thread ∈ w.threads, thread.progress = .ended

def Ended (l : Life Param Value) : Prop := ∃ t, (l.returned t).isSome = true

structure Truthful (l : Life Param Value) : Prop where
  running : l.world.task.isRunning = true ↔ Started l ∧ ¬ Ended l
  completed : l.world.task.isCompleted = true ↔ Completes l.world
  apart : Ended l → ¬ (l.world.task.isRunning = true ∧ l.world.task.isCompleted = true)

variable {w next : World Unit Param} {l after : Life Param Value}

/-! ## One starter -/

theorem alone_of_stepped {action : TaskAction Unit Param} (stepped : w.step action = some next) :
    Alone w action := by
  cases action with
  | doWork t stage => exact trivial
  | startTask i stage =>
      cases stage with
      | call val =>
          intro _ j
          have place : ∃ ret, w.callers i = .outside ret := by
            cases start_task_did stepped with
            | turnedAway place => exact ⟨_, place⟩
            | passed place => exact ⟨_, place⟩
          rcases place with ⟨ret, place⟩
          rw [Subsingleton.elim j i, place]
          rfl
      | _ => exact trivial

/-! ## The two flags -/

/-- `_running` is set for a thread that is there, and `_completed` by one that is through. -/
structure Told (w : World Unit Param) : Prop where
  running : w.task.running = true → w.threads ≠ []
  completed : w.task.completed = true ↔ Completes w

theorem told_new : Told (World.new : World Unit Param) where
  running := nofun
  completed := by simp [World.new, BaseTask.new, Completes]

theorem do_work_completes {t : Nat} {stage : Work}
    (stepped : w.step (.doWork t stage) = some next) :
    ∃ (thread : Thread Param) (progress : Progress Param) (task : BaseTask Param),
      w.threads[t]? = some thread ∧ next = w.advance t thread progress task ∧
      thread.progress ≠ .ended ∧
      task.running = w.task.running ∧
      (progress = .ended ∧ task.completed = true ∨ progress ≠ .ended ∧
        task.completed = w.task.completed) := by
  cases present : w.threads[t]? with
  | none =>
      simp only [World.step, present, Option.elim] at stepped
      cases stepped
  | some thread =>
      simp only [World.step, present, Option.elim] at stepped
      cases place : thread.progress <;> cases stage <;> simp only [doWork, place,
        reduceCtorEq] at stepped
      case born.assignLwp lwp =>
        split_ifs at stepped
        cases stepped
        exact ⟨thread, _, _, rfl, rfl, by simp [place], rfl, Or.inr ⟨by simp, rfl⟩⟩
      case numbered.work =>
        split_ifs at stepped
        cases param : w.task.param with
        | none =>
            rw [param] at stepped
            cases stepped
        | some val =>
            rw [param] at stepped
            cases stepped
            exact ⟨thread, _, _, rfl, rfl, by simp [place], rfl, Or.inr ⟨by simp, rfl⟩⟩
      case working.finish val =>
        cases stepped
        exact ⟨thread, _, _, rfl, rfl, by simp [place], rfl, Or.inr ⟨by simp, rfl⟩⟩
      case worked.complete =>
        split_ifs at stepped
        cases stepped
        exact ⟨thread, _, _, rfl, rfl, by simp [place], rfl, Or.inl ⟨rfl, rfl⟩⟩

theorem completes_advance {t : Nat} {thread : Thread Param} {progress : Progress Param}
    {task : BaseTask Param} (present : w.threads[t]? = some thread)
    (going : thread.progress ≠ .ended) :
    Completes (w.advance t thread progress task) ↔ progress = .ended ∨ Completes w := by
  have bound := (List.getElem?_eq_some_iff.mp present).1
  constructor
  · rintro ⟨other, member, through⟩
    rcases List.mem_or_eq_of_mem_set member with old | same
    · exact Or.inr ⟨other, old, through⟩
    · rw [same] at through
      exact Or.inl through
  · intro either
    rcases either with through | ⟨other, member, through⟩
    · exact ⟨{ thread with progress }, List.mem_set bound _, through⟩
    · rcases List.mem_iff_getElem?.mp member with ⟨u, there⟩
      have differ : t ≠ u := by
        intro same
        rw [same, there] at present
        cases present
        exact going through
      have still : (w.threads.set t { thread with progress })[u]? = some other := by
        rw [List.getElem?_set_ne differ]
        exact there
      exact ⟨other, List.mem_of_getElem? still, through⟩

theorem told_step {action : TaskAction Unit Param} (told : Told w) (shape : Shape w)
    (stepped : w.step action = some next) : Told next := by
  cases action with
  | doWork t stage =>
      rcases do_work_completes stepped with ⟨thread, progress, task, present, rfl, going,
        running, completed⟩
      constructor
      · intro set
        have there := told.running (running ▸ set)
        simpa [advance] using there
      · rw [completes_advance present going]
        rcases completed with ⟨through, set⟩ | ⟨short, same⟩
        · simp [advance, through, set]
        · simp [advance, short, same, told.completed]
  | startTask i stage =>
      cases start_task_did stepped with
      | turnedAway => exact ⟨told.running, told.completed⟩
      | passed => exact ⟨told.running, told.completed⟩
      | paramSet => exact ⟨told.running, told.completed⟩
      | taskSet => exact ⟨told.running, told.completed⟩
      | failed => exact ⟨told.running, told.completed⟩
      | created =>
          constructor
          · intro _
            simp
          · have same := told.completed
            simpa [Completes, move, or_and_right, exists_or] using same
      | runningSet place =>
          constructor
          · intro _ none
            have starts : starting (w.callers i) = true := by rw [place]; rfl
            cases shape with
            | before quiet => simp [quiet i] at starts
            | creating creates only =>
                cases only_eq only starts
                rcases creates with other | ⟨other | other, _⟩ <;> simp [place] at other
            | started here =>
                change w.threads = [] at none
                simp [here] at none
          · exact told.completed

/-! ## Whole runs -/

/-- What holds of every life. -/
structure Lived (l : Life Param Value) : Prop where
  shape : Shape l.world
  told : Told l.world
  through : Ended l → Completes l.world

theorem lived_new : Lived (Life.new : Life Param Value) where
  shape := shape_new
  told := told_new
  through := by
    intro ended
    rcases ended with ⟨t, returned⟩
    cases returned

theorem completes_step {action : TaskAction Unit Param} (completes : Completes w)
    (stepped : w.step action = some next) : Completes next := by
  cases action with
  | doWork t stage =>
      rcases do_work_completes stepped with ⟨thread, progress, task, present, rfl, going, _⟩
      exact (completes_advance present going).mpr (Or.inr completes)
  | startTask i stage =>
      cases start_task_did stepped with
      | created =>
          rcases completes with ⟨thread, member, through⟩
          exact ⟨thread, List.mem_append_left _ member, through⟩
      | _ => exact completes

/-- Only the waiting for the task and a thread that ends change anything but the task itself. -/
inductive Passes (l : Life Param Value) : Event Param Value → Life Param Value → Prop where
  | task {action : TaskAction Unit Param} {world : World Unit Param}
      (stepped : l.world.step action = some world) :
      Passes l (.task action) { l with world }
  | ends {t : Nat} {ret : Value} {thread : Thread Param} (present : l.world.threads[t]? =
      some thread)
      (through : thread.progress = .ended) : Passes l (.ends t ret)
        { l with returned := Function.update l.returned t ret }
  | same {event : Event Param Value} {joined : List Nat} {retval : Option Value}
      (alive : ∀ t ret, event ≠ .ends t ret) : Passes l event { l with joined, retval }

theorem wait_for_task_passes {event : Event Param Value} (alive : ∀ t ret, event ≠ .ends t ret)
    (waited : l.waitForTask = some after) : Passes l event after := by
  unfold Life.waitForTask at waited
  cases handle : l.world.task.pthreadDat with
  | none =>
      rw [handle] at waited
      cases waited
  | some t =>
      cases returned : l.returned t with
      | none => simp [handle, returned] at waited
      | some ret =>
          simp only [handle, returned, Option.elim] at waited
          split_ifs at waited
          cases waited
          exact .same alive

theorem step_passes {event : Event Param Value} (stepped : l.step event = some after) :
    Passes l event after := by
  cases event with
  | task action =>
      cases moved : l.world.step action with
      | none => simp [Life.step, moved] at stepped
      | some world =>
          simp only [Life.step, moved, Option.elim, Option.some.injEq] at stepped
          subst stepped
          exact .task moved
  | ends t ret =>
      cases present : l.world.threads[t]? with
      | none => simp [Life.step, Life.ends, present] at stepped
      | some thread =>
          cases through : thread.progress <;> simp [Life.step, Life.ends, present,
            through] at stepped
          rcases stepped with ⟨_, rfl⟩
          exact .ends present through
  | waitForTask => exact wait_for_task_passes (by simp) stepped
  | waitForTaskTimed inTime =>
      cases inTime with
      | true => exact wait_for_task_passes (by simp) stepped
      | false =>
          cases handle : l.world.task.pthreadDat with
          | none => simp [Life.step, Life.waitForTaskTimed, handle] at stepped
          | some t =>
              simp only [Life.step, Life.waitForTaskTimed, handle, Option.elim] at stepped
              split_ifs at stepped
              cases stepped
              exact .same (by simp)
  | isRunning ret =>
      simp only [Life.step] at stepped
      split_ifs at stepped
      cases stepped
      exact .same (by simp)
  | isCompleted ret =>
      simp only [Life.step] at stepped
      split_ifs at stepped
      cases stepped
      exact .same (by simp)
  | getLWP ret =>
      simp only [Life.step] at stepped
      split_ifs at stepped
      cases stepped
      exact .same (by simp)

theorem lived_passes {event : Event Param Value} (lived : Lived l) (passes : Passes l event after) :
    Lived after := by
  cases passes with
  | task stepped =>
      exact
        { shape := shape_step lived.shape (alone_of_stepped stepped) (step_did stepped)
          told := told_step lived.told lived.shape stepped
          through := fun ended => completes_step (lived.through ended) stepped }
  | ends present through =>
      exact
        { shape := lived.shape
          told := lived.told
          through := fun _ => ⟨_, List.mem_of_getElem? present, through⟩ }
  | same => exact ⟨lived.shape, lived.told, lived.through⟩

theorem ended_passes {event : Event Param Value} (passes : Passes l event after) :
    Ended after ↔ (∃ t ret, event = .ends t ret) ∨ Ended l := by
  cases passes with
  | task => simp [Ended]
  | @ends t ret thread present through =>
      constructor
      · intro _
        exact Or.inl ⟨t, ret, rfl⟩
      · intro _
        exact ⟨t, by simp⟩
  | same alive => simp [Ended, alive]

theorem lived_run {events : List (Event Param Value)} (lived : Lived l)
    (ran : l.run events = some after) :
    Lived after ∧ (Ended after ↔ (∃ t ret, Event.ends t ret ∈ events) ∨ Ended l) := by
  induction events generalizing l with
  | nil =>
      cases ran
      exact ⟨lived, by simp⟩
  | cons event events ih =>
      cases stepped : l.step event with
      | none => simp [Life.run, stepped] at ran
      | some middle =>
          simp only [Life.run, stepped, Option.elim] at ran
          have passes := step_passes stepped
          have later := ih (lived_passes lived passes) ran
          refine ⟨later.1, ?_⟩
          rw [later.2, ended_passes passes]
          simp only [List.mem_cons, exists_or, eq_comm]
          rw [or_assoc, or_left_comm]

/-! ## The status in a life -/

theorem running_of_quiet (lived : Lived l) (quiet : NoCall l) : l.world.task.running = true ↔
    Started l := by
  constructor
  · exact lived.told.running
  · intro started
    rcases quiet with ⟨ret, place⟩
    have rest : ∀ j, starting (l.world.callers j) = false := by
      intro j
      rw [Subsingleton.elim j (), place]
      rfl
    cases lived.shape with
    | before _ none => exact absurd none started
    | creating creates =>
        have busy := starting_of_creates creates
        simp [rest] at busy
    | started here since =>
        rcases since with ⟨running, _⟩ | ⟨i, created, _⟩
        · exact running
        · have busy := rest i
          simp [created, starting] at busy

/-- The status is what it says it is until the thread of the task has ended, and no longer. -/
theorem truthful_iff (events : List (Event Param Value)) {l : Life Param Value}
    (ran : Life.new.run events = some l) (quiet : NoCall l) :
    Truthful l ↔ ∀ t ret, Event.ends t ret ∉ events := by
  rcases lived_run lived_new ran with ⟨lived, ended⟩
  have running := running_of_quiet lived quiet
  have alive : ¬ Ended l ↔ ∀ t ret, Event.ends t ret ∉ events := by
    rw [ended]
    simp [Ended, Life.new]
  rw [← alive]
  constructor
  · intro truthful ending
    rcases lived.through ending with ⟨thread, member, _⟩
    have started : Started l := List.ne_nil_of_mem member
    exact (truthful.running.mp (running.mpr started)).2 ending
  · intro going
    exact
      { running := running.trans (by simp [going])
        completed := lived.told.completed
        apart := fun ending => absurd ending going }

/-- The task is started, its thread works and ends, it is joined, and `isRunning` is asked. -/
def startedAndJoined : List (Event Nat Nat) :=
  [.task (.startTask () (.call 5)), .task (.startTask () .setParam), .task (.startTask () .setTask),
    .task (.startTask () .create), .task (.startTask () .setRunning),
    .task (.doWork 0 (.assignLwp 100)),
    .task (.doWork 0 .work), .task (.doWork 0 .finish), .task (.doWork 0 .complete), .ends 0 7,
    .waitForTask,
    .isRunning true]

theorem running_after_the_end : ¬ ∀ (events : List (Event Nat Nat)) (l : Life Nat Nat),
    Life.new.run events = some l → NoCall l → Truthful l := by
  intro claimed
  have truthful := claimed startedAndJoined _ rfl ⟨_, rfl⟩
  exact (truthful.running.mp rfl).2 ⟨0, rfl⟩

theorem truthful_iff_working :
    ∃ l : Life Nat Nat, Life.new.run (startedAndJoined.take 7) = some l ∧ Truthful l := by
  have alive : ∀ t ret, Event.ends t ret ∉ startedAndJoined.take 7 := by
    simp [startedAndJoined]
  exact ⟨_, rfl, (truthful_iff (startedAndJoined.take 7) rfl ⟨_, rfl⟩).mpr alive⟩

end TWlib.TaskStatus
