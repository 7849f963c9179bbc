import TWlib.FifoCopy
import TWlib.SafeFifoIterator

/-!
# The tasks of a manager

`TaskManager` keeps its tasks in a `tw_safeFIFO` and goes through them with its iterator. A loop is
given with the tasks it calls, in order; `none` is one that has not ended, or a call through a
pointer that was never set.
-/

namespace TWlib.TaskManager

open TWlib.Lib.CellStore TWlib.Lib.ValueChain TWlib.SafeFifo TWlib.SafeFifoRegions
  TWlib.SafeFifoIterator
  TWlib.PlainFifo TWlib.FifoCopy

set_option autoImplicit false

variable {Task : Type*}

/-! ## The model -/

/-- `_list`, which is `fifo` with its links. -/
structure Manager (Task : Type*) where
  fifo : Fifo
  links : SafeFifo.Links Task

/-- `while(_iter.getNext(task)) { task->waitForTask(); }` -/
def joinLoop : Nat → Iter → SafeFifo.Links Task → Option (List Task)
  | 0, _, _ => none
  | fuel + 1, iter, links => do
      let (iter, fill) ← iter.getNext links
      match fill with
      | none => some []
      | some task => do
          let joined ← joinLoop fuel iter links
          some (task :: joined)

/-- `while(!_iter.getNext(task)) { task->shutdown(); }`, with the value of the variable `task`. -/
def shutdownLoop : Nat → Iter → Option Task → SafeFifo.Links Task → Option (List Task)
  | 0, _, _, _ => none
  | fuel + 1, iter, task, links => do
      let (iter, fill) ← iter.getNext links
      match fill with
      | some _ => some []
      | none => do
          let called ← task
          let others ← shutdownLoop fuel iter task links
          some (called :: others)

namespace Manager

def new : Manager Task := ⟨Fifo.new, Store.empty⟩

def addTask (manager : Manager Task) (t : Task) : Option (Manager Task) :=
  (safeCall id manager.fifo manager.links (.add t)).map fun (fifo, links, _) => ⟨fifo, links⟩

/-- `joinAll()`, and `joinAll(TimeVal &v)` with the other `waitForTask`. -/
def joinAll (manager : Manager Task) (fuel : Nat) : Option (List Task) :=
  joinLoop fuel (startIter manager.fifo) manager.links

/-- `shutdownAll()`; nothing is assigned to `task` at first. -/
def shutdownAll (manager : Manager Task) (task : Option Task) (fuel : Nat) : Option (List Task) :=
  shutdownLoop fuel (startIter manager.fifo) task manager.links

end Manager

/-! ## What it is for -/

/-- These tasks were registered, in this order. -/
def Registered (manager : Manager Task) (tasks : List Task) : Prop :=
  manager.fifo.enabled = true ∧ ∃ cells, Represents manager.fifo manager.links cells tasks

/-- The loop ends, and has called each task once, in order. -/
def ReachesAll (loop : Nat → Option (List Task)) (tasks : List Task) : Prop :=
  ∃ fuel, loop fuel = some tasks

variable {manager : Manager Task} {tasks : List Task} {iter : Iter} {links : SafeFifo.Links Task}
    {cells : List Nat}

theorem registered_new : Registered (Manager.new : Manager Task) [] := ⟨rfl, [], represents_new⟩

theorem add_task_registers (registered : Registered manager tasks) (t : Task) :
    ∃ next, manager.addTask t = some next ∧ Registered next (tasks ++ [t]) := by
  rcases registered with ⟨enabled, cells, represents⟩
  have holds : Holds manager.fifo manager.links cells ⟨true, tasks⟩ := ⟨represents, enabled⟩
  rcases safe_add_holds id holds t with ⟨fifo, links, now, added, still⟩
  refine ⟨⟨fifo, links⟩, by rw [Manager.addTask, added, Option.map_some], still.enabled, now, ?_⟩
  exact still.represents

/-! ## The two loops -/

theorem join_loop_eq (carries : Carries (nextOf links) (valueOf links) iter.look cells tasks) :
    joinLoop (tasks.length + 1) iter links = some tasks := by
  induction tasks generalizing iter cells with
  | nil =>
      have noCells : cells = [] := carries_no_cells carries
      have ended : iter.look = none := by rw [carries_head carries, noCells, List.head?_nil]
      simp [joinLoop, Iter.getNext, ended]
  | cons task rest ih =>
      cases looks : iter.look with
      | none => exact absurd (carries_none (looks ▸ carries)).2 (by simp)
      | some look =>
          rw [looks] at carries
          rcases carries_first carries with ⟨others, item, later, onward, rfl, same, step,
            holds, tail⟩
          cases same
          rcases Option.map_eq_some_iff.mp step with ⟨content, present, rfl⟩
          have value : content.d = task := by simpa [valueOf, present] using holds
          have next : iter.getNext links = some (⟨content.next⟩, some task) := by
            simp [Iter.getNext, looks, present, value]
          have behind : joinLoop (rest.length + 1) ⟨content.next⟩ links = some rest := ih tail
          rw [List.length_cons, joinLoop]
          simp only [next, Option.bind_eq_bind, Option.bind_some, behind]

theorem join_all_reaches (registered : Registered manager tasks) :
    ReachesAll manager.joinAll tasks := by
  rcases registered with ⟨-, cells, represents⟩
  have carries : Carries (nextOf manager.links) (valueOf manager.links)
      (startIter manager.fifo).look cells tasks :=
    represents.carried
  exact ⟨tasks.length + 1, join_loop_eq carries⟩

/-- With no task left the condition stays true, by induction on the number of turns. -/
theorem shutdown_loop_endless (ended : iter.look = none) (task : Option Task) (fuel : Nat) :
    shutdownLoop fuel iter task links = none := by
  induction fuel with
  | zero => rfl
  | succ fuel ih =>
      have next : iter.getNext links = some (iter, none) := by simp only [Iter.getNext, ended]
      simp only [shutdownLoop, next, Option.bind_eq_bind, Option.bind_some, ih, Option.bind_none,
        Option.bind_fun_none]

/-- With a task, the loop ends before its first turn. -/
theorem shutdown_loop_stops {look : Nat} {content : Link Task} (looks : iter.look = some look)
    (present : links.read look = some content) (task : Option Task) (fuel : Nat) :
    shutdownLoop (fuel + 1) iter task links = some [] := by
  have next : iter.getNext links = some (⟨content.next⟩, some content.d) := by
    simp [Iter.getNext, looks, present]
  simp only [shutdownLoop, next, Option.bind_eq_bind, Option.bind_some]

/-- `shutdownAll` reaches the registered tasks in no case: without a task it does not end, and with
some it shuts none of them down. -/
theorem shutdown_all_never_reaches (registered : Registered manager tasks) (task : Option Task) :
    ¬ ReachesAll (manager.shutdownAll task) tasks := by
  rcases registered with ⟨-, cells, represents⟩
  rintro ⟨fuel, called⟩
  have out := represents_out represents
  have length := carries_length represents.carried
  cases cells with
  | nil =>
      have ended : (startIter manager.fifo).look = none := out
      rw [Manager.shutdownAll, shutdown_loop_endless ended] at called
      cases called
  | cons cell rest =>
      have looks : (startIter manager.fifo).look = some cell := out
      rcases represents_exists represents (List.mem_cons_self ..) with ⟨content, present⟩
      cases fuel with
      | zero => cases called
      | succ fuel =>
          rw [Manager.shutdownAll, shutdown_loop_stops looks present] at called
          cases called
          simp at length

/-! ## Some tasks, and none -/

def twoTasks : Manager Nat := ⟨⟨true, some 0, some 1, 2, 0⟩, ⟨[some ⟨7, some 1⟩, some ⟨8, none⟩]⟩⟩

theorem two_tasks_registered : Registered twoTasks [7, 8] :=
  ⟨rfl, [0, 1], ⟨⟨rfl, some 1, rfl, rfl, none, rfl, rfl⟩, rfl⟩, rfl, rfl⟩

/-- Whatever `task` is at first, with two tasks and with none. -/
theorem shutdown_all_never_reaches_two_tasks :
    (∀ task, ¬ ReachesAll (twoTasks.shutdownAll task) [7, 8]) ∧
      ∀ task, ¬ ReachesAll ((Manager.new : Manager Nat).shutdownAll task) [] :=
  ⟨shutdown_all_never_reaches two_tasks_registered, shutdown_all_never_reaches registered_new⟩

def oneTask : Manager Nat := ⟨⟨true, some 0, some 0, 1, 0⟩, ⟨[some ⟨7, none⟩]⟩⟩

theorem one_task_registered : Registered oneTask [7] :=
  ⟨rfl, [0], ⟨⟨rfl, none, rfl, rfl⟩, rfl⟩, rfl, rfl⟩

/-- The one task is not shut down; with no task, and whatever `task` is, `shutdownAll` does not
return. -/
theorem shutdown_all_not_always_reaches :
    oneTask.shutdownAll none 1 = some [] ∧ oneTask.joinAll 2 = some [7] ∧
      (∀ fuel, Manager.new.shutdownAll (some 5) fuel = none) ∧
      ¬ ∀ (manager : Manager Nat) (tasks : List Nat), Registered manager tasks →
        ReachesAll (manager.shutdownAll none) tasks := by
  refine ⟨rfl, rfl, fun fuel => shutdown_loop_endless rfl _ fuel, fun all => ?_⟩
  rcases all oneTask [7] one_task_registered with ⟨fuel, called⟩
  cases fuel with
  | zero => cases called
  | succ fuel =>
      have stops : oneTask.shutdownAll none (fuel + 1) = some [] :=
        shutdown_loop_stops rfl rfl none fuel
      cases stops.symm.trans called

end TWlib.TaskManager
