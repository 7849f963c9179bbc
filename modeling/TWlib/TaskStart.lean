import Mathlib.Data.Finset.Card
import TWlib.Tasks

/-!
# One thread for a task

`startTask` looks at `_running` in one region and sets it in a later one, when the
thread has been created. A call that passes the check while another is between the
two creates a thread of its own. If that never happens, `Shape` holds: nobody has
started the task, one call is about to create its thread, or the thread is there.
-/

namespace TWlib.TaskStart

open TWlib.Tasks TWlib.Tasks.World

set_option autoImplicit false

variable {Id Param : Type*}

/-! ## What is stated -/

/-- The caller has passed the check and neither set `_running` nor failed. -/
def starting : Caller Param → Bool
  | .outside _ => false
  | _ => true

/-- A call passes the check only while no other has yet to set `_running`. -/
def Alone (w : World Id Param) : TaskAction Id Param → Prop
  | .startTask _ (.call _) => w.task.running = false → ∀ j, starting (w.callers j) = false
  | _ => True

/-- Each of the actions is taken so. -/
def Apart [DecidableEq Id] : World Id Param → List (TaskAction Id Param) → Prop
  | _, [] => True
  | w, action :: actions => Alone w action ∧ ∀ next, w.step action = some next → Apart next actions

def Executes (w : World Id Param) (t : Nat) : Prop :=
  ∃ thread param, w.threads[t]? = some thread ∧ thread.progress = .working param

/-- The handle and the parameter that are stored are those of the thread, and it works with that
parameter. -/
def Stored (w : World Id Param) (t : Nat) : Prop :=
  ∃ thread, w.threads[t]? = some thread ∧ w.task.pthreadDat = some t ∧
    w.task.param = some thread.given ∧
    ∀ param, thread.progress = .working param → param = thread.given

structure OneThread (w : World Id Param) : Prop where
  created : w.threads.length ≤ 1
  alone : ∀ t u, Executes w t → Executes w u → t = u
  stored : ∀ t, Executes w t → Stored w t

variable {w next : World Id Param} {i j : Id}

/-! ## Whose turn it is -/

def Only (w : World Id Param) (i : Id) : Prop := ∀ j, j ≠ i → starting (w.callers j) = false

/-- The call is about to create the thread, with this parameter. -/
def Creates (w : World Id Param) (i : Id) (val : Param) : Prop :=
  w.callers i = .start val ∨ (w.callers i = .paramSet val ∨ w.callers i = .taskSet val) ∧
    w.task.param = some val

inductive Shape (w : World Id Param) : Prop where
  | before (quiet : ∀ j, starting (w.callers j) = false) (none : w.threads = [])
  | creating {i : Id} {val : Param} (creates : Creates w i val) (only : Only w i)
      (none : w.threads = [])
  | started {thread : Thread Param} (here : w.threads = [thread])
      (since : w.task.running = true ∧ (∀ j, starting (w.callers j) = false) ∨
        ∃ i, w.callers i = .created ∧ Only w i)
      (handle : w.task.pthreadDat = some 0) (param : w.task.param = some thread.given)
      (works : ∀ param, thread.progress = .working param → param = thread.given)

theorem only_eq (only : Only w i) (starts : starting (w.callers j) = true) : j = i := by
  by_contra differ
  rw [only j differ] at starts
  cases starts

theorem starting_of_place {caller : Caller Param} (place : w.callers i = caller)
    (starts : starting caller = true) :
    starting (w.callers i) = true := place ▸ starts

theorem starting_of_creates {val : Param} (creates : Creates w i val) :
    starting (w.callers i) = true := by
  rcases creates with place | ⟨place | place, _⟩ <;> rw [place] <;> rfl

/-- A call that has passed the check and has no thread yet is alone, and there is no thread. -/
theorem shape_creates (shape : Shape w) (starts : starting (w.callers i) = true)
    (early : w.callers i ≠ .created) :
    ∃ val, Creates w i val ∧ Only w i ∧ w.threads = [] := by
  cases shape with
  | before quiet none =>
      rw [quiet i] at starts
      cases starts
  | creating creates only none =>
      cases only_eq only starts
      exact ⟨_, creates, only, none⟩
  | started here since handle param works =>
      rcases since with ⟨_, quiet⟩ | ⟨k, created, only⟩
      · rw [quiet i] at starts
        cases starts
      · cases only_eq only starts
        exact absurd created early

theorem shape_worked {t : Nat} {thread : Thread Param} {progress : Progress Param}
    {task : BaseTask Param} (shape : Shape w) (present : w.threads[t]? = some thread)
    (running : task.running = w.task.running) (param : task.param = w.task.param)
    (handle : task.pthreadDat = w.task.pthreadDat) (reads : ∀ param, progress = .working param →
      w.task.param = some param) :
    Shape (w.advance t thread progress task) := by
  cases shape with
  | before _ none =>
      rw [none] at present
      cases present
  | creating _ _ none =>
      rw [none] at present
      cases present
  | started here since stored given _ =>
      rw [here] at present
      have zero : t = 0 := by
        by_contra later
        rw [List.getElem?_eq_none (by simp; omega)] at present
        cases present
      subst zero
      cases present
      have now : w.threads.set 0 { thread with progress } = [{ thread with progress }] := by
        rw [here]
        rfl
      rw [← running] at since
      refine .started now since (handle.trans stored) (param.trans given) ?_
      intro val works
      have read := reads val works
      rw [given] at read
      exact (Option.some.inj read).symm

theorem shape_new : Shape (World.new : World Id Param) := .before (fun _ => rfl) rfl

theorem executes_present {t : Nat} (executes : Executes w t) : t < w.threads.length := by
  rcases executes with ⟨thread, _, present, _⟩
  exact (List.getElem?_eq_some_iff.mp present).1

theorem one_thread_of_shape (shape : Shape w) : OneThread w := by
  have absent : w.threads = [] → OneThread w := by
    intro none
    have nobody : ∀ t, ¬ Executes w t := by
      intro t executes
      have bound := executes_present executes
      rw [none] at bound
      cases bound
    exact
      { created := by rw [none]; exact Nat.zero_le 1
        alone := fun t u first => absurd first (nobody t)
        stored := fun t executes => absurd executes (nobody t) }
  cases shape with
  | before _ none => exact absent none
  | creating _ _ none => exact absent none
  | @started thread here _ handle param works =>
      have zero : ∀ t, Executes w t → t = 0 := by
        intro t executes
        have bound := executes_present executes
        rw [here] at bound
        exact Nat.lt_one_iff.mp bound
      exact
        { created := by rw [here]; exact Nat.le_refl 1
          alone := fun t u first second => (zero t first).trans (zero u second).symm
          stored := by
            intro t executes
            rw [zero t executes]
            exact ⟨thread, by rw [here]; rfl, handle, param, works⟩ }

/-! ## What a step does -/

variable [DecidableEq Id]

inductive Did (w : World Id Param) : TaskAction Id Param → World Id Param → Prop where
  | turnedAway {i : Id} {val : Param} {ret : Option Int} (place : w.callers i = .outside ret) :
      Did w (.startTask i (.call val)) (w.move i (.outside (some (-1))) w.task)
  | passed {i : Id} {val : Param} {ret : Option Int} (place : w.callers i = .outside ret)
      (idle : w.task.running = false) : Did w (.startTask i (.call val))
      (w.move i (.start val) w.task)
  | paramSet {i : Id} {val : Param} (place : w.callers i = .start val) :
      Did w (.startTask i .setParam) (w.move i (.paramSet val) { w.task with param := some val })
  | taskSet {i : Id} {val : Param} (place : w.callers i = .paramSet val) :
      Did w (.startTask i .setTask) (w.move i (.taskSet val) { w.task with task := true })
  | created {i : Id} {val : Param} (place : w.callers i = .taskSet val) :
      Did w (.startTask i .create)
      { w.move i .created { w.task with pthreadDat := some w.threads.length } with
        threads := w.threads ++ [⟨val, .born⟩] }
  | failed {i : Id} {val : Param} {ret : Int} {left : Option Nat}
      (place : w.callers i = .taskSet val) :
      Did w (.startTask i (.createFails ret left))
        (w.move i (.outside (some ret)) { w.task with pthreadDat := left })
  | runningSet {i : Id} (place : w.callers i = .created) :
      Did w (.startTask i .setRunning) (w.move i (.outside (some 0))
        { w.task with running := true })
  | worked {t : Nat} {stage : Work} {thread : Thread Param} {progress : Progress Param}
      {task : BaseTask Param}
      (present : w.threads[t]? = some thread) (running : task.running = w.task.running)
      (param : task.param = w.task.param) (handle : task.pthreadDat = w.task.pthreadDat)
      (reads : ∀ param, progress = .working param → w.task.param = some param) :
      Did w (.doWork t stage) (w.advance t thread progress task)

theorem start_task_did {stage : Start Param} (stepped : w.step (.startTask i stage) = some next) :
    Did w (.startTask i stage) next := by
  cases place : w.callers i <;> cases stage <;> simp only [step, startTask, place,
    reduceCtorEq] at stepped
  case outside.call ret val =>
    cases idle : w.task.running with
    | false =>
        rw [idle] at stepped
        cases stepped
        exact .passed place idle
    | true =>
        rw [idle] at stepped
        cases stepped
        exact .turnedAway place
  case start.setParam val =>
    cases stepped
    exact .paramSet place
  case paramSet.setTask val =>
    cases stepped
    exact .taskSet place
  case taskSet.create val =>
    cases stepped
    exact .created place
  case taskSet.createFails val ret left =>
    split_ifs at stepped
    cases stepped
    exact .failed place
  case created.setRunning =>
    cases stepped
    exact .runningSet place

theorem do_work_did {t : Nat} {stage : Work} (stepped : w.step (.doWork t stage) = some next) :
    Did w (.doWork t stage) next := by
  cases present : w.threads[t]? with
  | none =>
      simp only [step, present, Option.elim] at stepped
      cases stepped
  | some thread =>
      simp only [step, present, Option.elim] at stepped
      cases place : thread.progress <;> cases stage <;> simp only [doWork, place,
        reduceCtorEq] at stepped
      case born.assignLwp lwp =>
        split_ifs at stepped
        cases stepped
        exact .worked present rfl rfl rfl (by simp)
      case numbered.work =>
        split_ifs at stepped
        cases param : w.task.param with
        | none =>
            rw [param] at stepped
            cases stepped
        | some val =>
            rw [param] at stepped
            cases stepped
            exact .worked present rfl rfl rfl (by simp [param])
      case working.finish val =>
        cases stepped
        exact .worked present rfl rfl rfl (by simp)
      case worked.complete =>
        split_ifs at stepped
        cases stepped
        exact .worked present rfl rfl rfl (by simp)

theorem step_did {action : TaskAction Id Param} (stepped : w.step action = some next) :
    Did w action next := by
  cases action with
  | startTask i stage => exact start_task_did stepped
  | doWork t stage => exact do_work_did stepped

/-! ## What a step keeps -/

theorem callers_move_self (w : World Id Param) (i : Id) (caller : Caller Param)
    (task : BaseTask Param) :
    (w.move i caller task).callers i = caller := Function.update_self ..

theorem callers_move_of_ne (differ : j ≠ i) (caller : Caller Param) (task : BaseTask Param) :
    (w.move i caller task).callers j = w.callers j := Function.update_of_ne differ ..

theorem only_of_quiet (quiet : ∀ j, starting (w.callers j) = false) (caller : Caller Param)
    (task : BaseTask Param) :
    Only (w.move i caller task) i := by
  intro j differ
  rw [callers_move_of_ne differ]
  exact quiet j

theorem only_move (only : Only w i) (caller : Caller Param) (task : BaseTask Param) :
    Only (w.move i caller task) i := by
  intro j differ
  rw [callers_move_of_ne differ]
  exact only j differ

theorem starting_move_outside (w : World Id Param) (i j : Id) (ret : Option Int)
    (task : BaseTask Param) (quiet : j ≠ i → starting (w.callers j) = false) :
    starting ((w.move i (.outside ret) task).callers j) = false := by
  by_cases same : j = i
  · subst same
    rw [callers_move_self]
    rfl
  · rw [callers_move_of_ne same]
    exact quiet same

theorem shape_turned_away {ret answer : Option Int} (shape : Shape w)
    (place : w.callers i = .outside ret) :
    Shape (w.move i (.outside answer) w.task) := by
  have differs : ∀ k, starting (w.callers k) = true → k ≠ i := by
    intro k starts same
    rw [same, place] at starts
    cases starts
  cases shape with
  | before quiet none =>
      exact .before (fun j => starting_move_outside w i j _ _ fun _ => quiet j) none
  | @creating k val creates only none =>
      have other := differs k (starting_of_creates creates)
      have stays : Creates (w.move i (.outside answer) w.task) k val := by
        rw [Creates, callers_move_of_ne other]
        exact creates
      exact .creating stays (fun j differ => starting_move_outside w i j _ _ fun _ =>
        only j differ) none
  | started here since handle param works =>
      refine .started here ?_ handle param works
      rcases since with ⟨running, quiet⟩ | ⟨k, created, only⟩
      · exact Or.inl ⟨running, fun j => starting_move_outside w i j _ _ fun _ => quiet j⟩
      · have other : k ≠ i := differs k (by rw [created]; rfl)
        refine Or.inr ⟨k, ?_, fun j differ => starting_move_outside w i j _ _ fun _ =>
          only j differ⟩
        rw [callers_move_of_ne other]
        exact created

theorem shape_passed {val : Param} (shape : Shape w) (idle : w.task.running = false)
    (quiet : ∀ j, starting (w.callers j) = false) : Shape (w.move i (.start val) w.task) := by
  have creates : Creates (w.move i (.start val) w.task) i val := Or.inl (callers_move_self ..)
  cases shape with
  | before _ none => exact .creating creates (only_of_quiet quiet _ _) none
  | creating _ _ none => exact .creating creates (only_of_quiet quiet _ _) none
  | started here since handle param works =>
      rcases since with ⟨running, _⟩ | ⟨k, created, _⟩
      · rw [idle] at running
        cases running
      · have free := quiet k
        rw [created] at free
        cases free

theorem shape_created {val : Param} (shape : Shape w) (place : w.callers i = .taskSet val) :
    Shape { w.move i .created { w.task with pthreadDat := some w.threads.length } with
      threads := w.threads ++ [⟨val, .born⟩] } := by
  rcases shape_creates shape (starting_of_place place rfl) (by simp [place]) with ⟨known,
    creates, only, none⟩
  have param : w.task.param = some val := by
    rcases creates with other | ⟨other | other, param⟩
    · rw [place] at other
      cases other
    · rw [place] at other
      cases other
    · rw [place] at other
      cases other
      exact param
  have here : w.threads ++ [⟨val, .born⟩] = [⟨val, .born⟩] := by rw [none, List.nil_append]
  have first : some w.threads.length = some 0 := by rw [none, List.length_nil]
  refine .started here (Or.inr ⟨i, ?_, ?_⟩) first param (fun _ works => by cases works)
  · exact callers_move_self w i .created w.task
  · exact only_move only .created w.task

theorem shape_running_set (shape : Shape w) (place : w.callers i = .created) :
    Shape (w.move i (.outside (some 0)) { w.task with running := true }) := by
  have starts : starting (w.callers i) = true := by rw [place]; rfl
  cases shape with
  | before quiet none =>
      rw [quiet i] at starts
      cases starts
  | creating creates only none =>
      cases only_eq only starts
      rcases creates with other | ⟨other | other, _⟩ <;> rw [place] at other <;> cases other
  | started here since handle param works =>
      rcases since with ⟨_, quiet⟩ | ⟨k, created, only⟩
      · rw [quiet i] at starts
        cases starts
      · cases only_eq only starts
        exact .started here (Or.inl ⟨rfl, fun j => starting_move_outside w i j _ _ (only j)⟩)
          handle param works

theorem shape_step {action : TaskAction Id Param} (shape : Shape w) (alone : Alone w action)
    (did : Did w action next) :
    Shape next := by
  cases did with
  | turnedAway place => exact shape_turned_away shape place
  | passed place idle => exact shape_passed shape idle (alone idle)
  | paramSet place =>
      rcases shape_creates shape (starting_of_place place rfl) (by simp [place]) with ⟨_,
        _, only, none⟩
      exact .creating (Or.inr ⟨Or.inl (callers_move_self ..), rfl⟩) (only_move only _ _) none
  | taskSet place =>
      rcases shape_creates shape (starting_of_place place rfl) (by simp [place]) with ⟨_,
        creates, only, none⟩
      rcases creates with other | ⟨other | other, param⟩ <;> rw [place] at other <;> cases other
      exact .creating (Or.inr ⟨Or.inr (callers_move_self ..), param⟩) (only_move only _ _) none
  | created place => exact shape_created shape place
  | failed place =>
      rcases shape_creates shape (starting_of_place place rfl) (by simp [place]) with ⟨_,
        _, only, none⟩
      exact .before (fun j => starting_move_outside w _ j _ _ (only j)) none
  | runningSet place => exact shape_running_set shape place
  | worked present running param handle reads =>
      exact shape_worked shape present running param handle reads

/-! ## Whole runs -/

theorem shape_run {actions : List (TaskAction Id Param)} (shape : Shape w) (apart : Apart w actions)
    (ran : w.run actions = some next) : Shape next := by
  induction actions generalizing w with
  | nil =>
      cases ran
      exact shape
  | cons action actions ih =>
      rcases Option.bind_eq_some_iff.mp ran with ⟨middle, stepped, later⟩
      exact ih (shape_step shape apart.1 (step_did stepped)) (apart.2 middle stepped) later

/-- In a run whose calls pass the check apart from each other. -/
theorem one_thread (actions : List (TaskAction Id Param)) {w : World Id Param}
    (ran : World.new.run actions = some w) (apart : Apart World.new actions) : OneThread w :=
  one_thread_of_shape (shape_run shape_new apart ran)

/-- Caller 0 starts the task, caller 1 is turned away, and the thread works. -/
def oneAfterTheOther : List (TaskAction Nat Nat) :=
  [.startTask 0 (.call 5), .startTask 0 .setParam, .startTask 0 .setTask, .startTask 0 .create,
    .doWork 0 (.assignLwp 100), .startTask 0 .setRunning, .startTask 1 (.call 6), .doWork 0 .work]

theorem one_thread_one_after_the_other : ∃ w, World.new.run oneAfterTheOther = some w ∧
    Apart World.new oneAfterTheOther ∧ OneThread w := by
  have apart : Apart World.new oneAfterTheOther := by
    simp [oneAfterTheOther, Apart, Alone, step, startTask, doWork, World.new, BaseTask.new, move,
      advance, starting]
  exact ⟨_, rfl, apart, one_thread oneAfterTheOther rfl apart⟩

/-- Both callers pass the check before either sets `_running`. -/
def bothPass : List (TaskAction Nat Nat) :=
  [.startTask 0 (.call 5), .startTask 1 (.call 6), .startTask 0 .setParam, .startTask 0 .setTask,
    .startTask 0 .create, .doWork 0 (.assignLwp 100), .doWork 0 .work, .startTask 1 .setParam,
    .startTask 1 .setTask,
    .startTask 1 .create, .doWork 1 (.assignLwp 101), .doWork 1 .work]

theorem both_pass_two_threads :
    ¬ ∀ (actions : List (TaskAction Nat Nat)) (w : World Nat Nat), World.new.run actions = some w →
    OneThread w := by
  intro claimed
  have two := claimed bothPass _ rfl
  have same : 0 = 1 := two.alone 0 1 ⟨_, 5, rfl, rfl⟩ ⟨_, 6, rfl, rfl⟩
  cases same

/-! ## Where calls are not apart -/

/-- For the callers that have created a thread and not set `_running` yet there are as many
threads. -/
def Counted (w : World Id Param) : Prop :=
  ∀ callers : Finset Id, (∀ i ∈ callers, w.callers i = .created) → callers.card ≤ w.threads.length

theorem counted_move (counted : Counted w) {caller : Caller Param} (other : caller ≠ .created)
    (task : BaseTask Param) :
    Counted (w.move i caller task) := by
  intro callers all
  apply counted callers
  intro j member
  have here := all j member
  by_cases same : j = i
  · subst same
    rw [callers_move_self] at here
    exact absurd here other
  · rw [callers_move_of_ne same] at here
    exact here

theorem counted_step {action : TaskAction Id Param} (counted : Counted w)
    (did : Did w action next) : Counted next := by
  cases did with
  | turnedAway => exact counted_move counted (by simp) _
  | passed => exact counted_move counted (by simp) _
  | paramSet => exact counted_move counted (by simp) _
  | taskSet => exact counted_move counted (by simp) _
  | failed => exact counted_move counted (by simp) _
  | runningSet => exact counted_move counted (by simp) _
  | @created i val place =>
      intro callers all
      have fewer : (callers.erase i).card ≤ w.threads.length := by
        apply counted
        intro j member
        have here := all j (Finset.mem_of_mem_erase member)
        have differ := Finset.ne_of_mem_erase member
        exact (callers_move_of_ne differ .created w.task).symm.trans here
      have one : callers.card - 1 ≤ (callers.erase i).card := Finset.pred_card_le_card_erase
      simp only [List.length_append, List.length_singleton]
      omega
  | worked =>
      intro callers all
      rw [advance, List.length_set]
      exact counted callers all

theorem counted_run {actions : List (TaskAction Id Param)} (counted : Counted w)
    (ran : w.run actions = some next) :
    Counted next := by
  induction actions generalizing w with
  | nil =>
      cases ran
      exact counted
  | cons action actions ih =>
      rcases Option.bind_eq_some_iff.mp ran with ⟨middle, stepped, later⟩
      exact ih (counted_step counted (step_did stepped)) later

omit [DecidableEq Id] in
theorem counted_new : Counted (World.new : World Id Param) := by
  intro callers all
  have empty : callers = ∅ := by
    apply Finset.eq_empty_of_forall_notMem
    intro i member
    cases all i member
  rw [empty]
  exact Nat.le_refl 0

/-- From `w` the caller can get to where it has created its thread, while nobody else moves. -/
def Gets (w : World Id Param) (i : Id) : Prop :=
  ∃ actions next, w.run actions = some next ∧ next.callers i = .created ∧ ∀ j, j ≠ i →
    next.callers j = w.callers j

theorem gets_step {stage : Start Param} {middle : World Id Param}
    (stepped : w.step (.startTask i stage) = some middle)
    (others : ∀ j, j ≠ i → middle.callers j = w.callers j) (gets : Gets middle i) : Gets w i := by
  rcases gets with ⟨actions, next, ran, created, kept⟩
  refine ⟨.startTask i stage :: actions, next, ?_, created, fun j differ => ?_⟩
  · rw [run, stepped]
    exact ran
  · rw [kept j differ]
    exact others j differ

theorem gets_of_task_set {val : Param} (place : w.callers i = .taskSet val) : Gets w i := by
  have stepped : w.step (.startTask i .create) =
      some { w.move i .created { w.task with pthreadDat := some w.threads.length } with
        threads := w.threads ++ [⟨val, .born⟩] } := by
    simp only [step, startTask, place]
  apply gets_step stepped (fun j differ => callers_move_of_ne differ .created w.task)
  exact ⟨[], _, rfl, callers_move_self w i .created w.task, fun _ _ => rfl⟩

theorem gets_of_param_set {val : Param} (place : w.callers i = .paramSet val) : Gets w i := by
  have stepped : w.step (.startTask i .setTask) =
      some (w.move i (.taskSet val) { w.task with task := true }) := by
    simp only [step, startTask, place]
  apply gets_step stepped (fun j differ => callers_move_of_ne differ _ _)
  exact gets_of_task_set (callers_move_self ..)

theorem gets_of_start {val : Param} (place : w.callers i = .start val) : Gets w i := by
  have stepped : w.step (.startTask i .setParam) =
      some (w.move i (.paramSet val) { w.task with param := some val }) := by
    simp only [step, startTask, place]
  apply gets_step stepped (fun j differ => callers_move_of_ne differ _ _)
  exact gets_of_param_set (callers_move_self ..)

theorem gets_of_starting (starts : starting (w.callers i) = true) : Gets w i := by
  cases place : w.callers i with
  | outside ret =>
      rw [place] at starts
      cases starts
  | start val => exact gets_of_start place
  | paramSet val => exact gets_of_param_set place
  | taskSet val => exact gets_of_task_set place
  | created => exact ⟨[], w, rfl, place, fun j _ => rfl⟩

theorem run_append (w : World Id Param) (front back : List (TaskAction Id Param)) :
    w.run (front ++ back) = (w.run front).bind fun next => next.run back := by
  induction front generalizing w with
  | nil => rfl
  | cons action front ih =>
      simp only [List.cons_append, run, Option.bind_eq_bind, Option.bind_assoc]
      exact congrArg _ (funext ih)

/-- Once two calls have passed the check, both can create a thread. -/
theorem two_threads_of_two_starting {actions : List (TaskAction Id Param)}
    (ran : World.new.run actions = some w) (differ : i ≠ j) (first : starting (w.callers i) = true)
    (second : starting (w.callers j) = true) :
    ∃ more next, World.new.run (actions ++ more) = some next ∧ 2 ≤ next.threads.length := by
  rcases gets_of_starting first with ⟨one, middle, ranOne, createdOne, othersOne⟩
  have still : starting (middle.callers j) = true := by
    rw [othersOne j differ.symm]
    exact second
  rcases gets_of_starting still with ⟨two, next, ranTwo, createdTwo, othersTwo⟩
  have both : World.new.run (actions ++ (one ++ two)) = some next := by
    rw [run_append, ran, Option.bind_some, run_append, ranOne, Option.bind_some, ranTwo]
  have counted := counted_run counted_new both
  refine ⟨one ++ two, next, both, ?_⟩
  rw [← Finset.card_pair differ]
  apply counted
  intro k member
  rcases Finset.mem_insert.mp member with here | here
  · rw [here, othersTwo i differ]
    exact createdOne
  · rw [Finset.mem_singleton.mp here]
    exact createdTwo

end TWlib.TaskStart
