import Mathlib.Logic.Function.Basic

/-!
# `BaseTask`

A step is a statement of a call of `startTask`, or of the `do_work` of a thread that a
call created; what is done under `_thread_mutex` is one step. What a `pthread_create`
that fails leaves in `_pthread_dat` is not specified, so its step names it.
-/

namespace TWlib.Tasks

set_option autoImplicit false

variable {Id Param : Type*}

/-- `task` is whether `_workdat._task` was set to the task; a thread is known by its number. -/
structure BaseTask (Param : Type*) where
  running : Bool
  completed : Bool
  lwpNum : Int
  task : Bool
  param : Option Param
  pthreadDat : Option Nat

def BaseTask.new : BaseTask Param := ⟨false, false, 0, false, none, none⟩

def BaseTask.isRunning (task : BaseTask Param) : Bool := task.running

def BaseTask.isCompleted (task : BaseTask Param) : Bool := task.completed

def BaseTask.getLWP (task : BaseTask Param) : Int := task.lwpNum

/-- Where a thread that calls `startTask` is. -/
inductive Caller (Param : Type*) where
  /-- In no call, with what the last one returned. -/
  | outside (ret : Option Int)
  /-- `start` is true. -/
  | start (val : Param)
  | paramSet (val : Param)
  | taskSet (val : Param)
  /-- `ret` is 0. -/
  | created
deriving DecidableEq

/-- Where a created thread is in `do_work`. -/
inductive Progress (Param : Type*) where
  | born
  | numbered
  | working (param : Param)
  | worked
  | ended
deriving DecidableEq

/-- `given` is the `val` of the call that created the thread. -/
structure Thread (Param : Type*) where
  given : Param
  progress : Progress Param
deriving DecidableEq

structure World (Id Param : Type*) where
  task : BaseTask Param
  callers : Id → Caller Param
  threads : List (Thread Param)

/-- The steps of a call of `startTask`. -/
inductive Start (Param : Type*) where
  /-- The call, to the end of its first region. -/
  | call (val : Param)
  | setParam
  | setTask
  | create
  /-- `pthread_create` returns `ret`. -/
  | createFails (ret : Int) (left : Option Nat)
  | setRunning

/-- The steps of `do_work`; `work` is where `work` is called, `finish` where it returns. -/
inductive Work where
  | assignLwp (lwp : Int)
  | work
  | finish
  | complete

inductive TaskAction (Id Param : Type*) where
  | startTask (i : Id) (stage : Start Param)
  | doWork (t : Nat) (stage : Work)

namespace World

def new : World Id Param := ⟨.new, fun _ => .outside none, []⟩

def move [DecidableEq Id] (w : World Id Param) (i : Id) (caller : Caller Param)
    (task : BaseTask Param) :
    World Id Param :=
  { w with task, callers := Function.update w.callers i caller }

def advance (w : World Id Param) (t : Nat) (thread : Thread Param) (progress : Progress Param)
    (task : BaseTask Param) : World Id Param :=
  { w with task, threads := w.threads.set t { thread with progress } }

def startTask [DecidableEq Id] (w : World Id Param) (i : Id) : Start Param → Caller Param →
    Option (World Id Param)
  | .call val, .outside _ =>
      some (w.move i (if w.task.running then .outside (some (-1)) else .start val) w.task)
  | .setParam, .start val => some (w.move i (.paramSet val) { w.task with param := some val })
  | .setTask, .paramSet val => some (w.move i (.taskSet val) { w.task with task := true })
  | .create, .taskSet val =>
      some { w.move i .created { w.task with pthreadDat := some w.threads.length } with
        threads := w.threads ++ [⟨val, .born⟩] }
  | .createFails ret left, .taskSet _ =>
      if ret = 0 then none else some (w.move i (.outside (some ret))
        { w.task with pthreadDat := left })
  | .setRunning, .created => some (w.move i (.outside (some 0)) { w.task with running := true })
  | _, _ => none

/-- Nothing can be done through a `_task`, or with a `_param`, that was not set. -/
def doWork (w : World Id Param) (t : Nat) (thread : Thread Param) :
    Work → Progress Param → Option (World Id Param)
  | .assignLwp lwp, .born =>
      if w.task.task then some (w.advance t thread .numbered { w.task with lwpNum := lwp })
        else none
  | .work, .numbered =>
      if w.task.task then w.task.param.elim none fun param =>
        some (w.advance t thread (.working param) w.task)
      else none
  | .finish, .working _ => some (w.advance t thread .worked w.task)
  | .complete, .worked =>
      if w.task.task then some (w.advance t thread .ended { w.task with completed := true })
        else none
  | _, _ => none

def step [DecidableEq Id] (w : World Id Param) : TaskAction Id Param → Option (World Id Param)
  | .startTask i stage => w.startTask i stage (w.callers i)
  | .doWork t stage => w.threads[t]?.elim none fun thread => w.doWork t thread stage thread.progress

def run [DecidableEq Id] : World Id Param → List (TaskAction Id Param) → Option (World Id Param)
  | w, [] => some w
  | w, action :: actions => do
      let w ← w.step action
      run w actions

end World

end TWlib.Tasks
