import TWlib.BufBlkHeap

/-!
# The mutex in a MemBlk

Each function of a MemBlk is written as the accesses it makes, in their order:
to the mutex, to the count, to the buffer and to the object itself. The life cycle
is a property of the whole record of accesses, from the constructor on.
-/

namespace TWlib.MemBlkMutex

open TWlib.Lib.CellStore TWlib.BufBlkHeap

set_option autoImplicit false

/-! ## The code -/

inductive Access where
  | mutexInit
  | mutexLock
  | mutexUnlock
  | mutexDestroy
  | countRead
  | countWrite (count : Int)
  | bufferFree
  | deleteThis
deriving DecidableEq

/-- A MemBlk with the record of the accesses made to it so far. -/
structure Tracked where
  refCount : Int
  manage : Bool
  log : List Access
deriving DecidableEq

namespace Tracked

def touch (mem : Tracked) (access : Access) : Tracked := { mem with log := mem.log ++ [access] }

def setCount (mem : Tracked) (count : Int) : Tracked :=
  { mem with refCount := count, log := mem.log ++ [.countWrite count] }

def construct (manage : Bool) : Tracked :=
  ((⟨0, manage, []⟩ : Tracked).setCount 1).touch .mutexInit

def getRefCount (mem : Tracked) : Tracked × Int :=
  let mem := (mem.touch .mutexLock).touch .countRead
  let ret := mem.refCount
  (mem.touch .mutexUnlock, ret)

def checkout (mem : Tracked) : Tracked :=
  let mem := (mem.touch .mutexLock).touch .countRead
  let mem := mem.setCount (mem.refCount + 1)
  mem.touch .mutexUnlock

/-- `if(remove) { if(_manage) ALLOC::free( _base ); delete this; }`. -/
def removeThis (mem : Tracked) : Tracked :=
  let mem := if mem.manage then mem.touch .bufferFree else mem
  mem.touch .deleteThis

def release (mem : Tracked) : Tracked :=
  let mem := (mem.touch .mutexLock).touch .countRead
  let mem := (mem.setCount (mem.refCount - 1)).touch .countRead
  let remove := decide (mem.refCount < 1)
  let mem := mem.touch .mutexUnlock
  let mem := if remove then mem.removeThis else mem
  mem.touch .mutexDestroy

end Tracked

inductive Op where
  | checkout
  | release
  | getRefCount
deriving DecidableEq

def perform (mem : Tracked) : Op → Tracked
  | .checkout => mem.checkout
  | .release => mem.release
  | .getRefCount => mem.getRefCount.1

/-- A sequence of operations, each of them begun while the count is positive. -/
def performAll : Tracked → List Op → Option Tracked
  | mem, [] => some mem
  | mem, op :: ops => if 0 < mem.refCount then performAll (perform mem op) ops else none

/-! ## The life cycle -/

def Finished (log : List Access) : Prop := ∃ count ≤ 0, .countWrite count ∈ log

/-- The mutex is initialised when it is locked or unlocked, it is destroyed when the count has
come to zero and then once, and nothing is accessed after the object was deleted. -/
structure LifeCycle (log : List Access) : Prop where
  initialised : ∀ before access after, log = before ++ access :: after →
    access = .mutexLock ∨ access = .mutexUnlock → .mutexInit ∈ before ∧ .mutexDestroy ∉ before
  destroyedLate : ∀ before after, log = before ++ .mutexDestroy :: after → Finished before
  destroyedOnce : Finished log → log.count .mutexDestroy = 1
  nothingLater : ∀ before after, log = before ++ .deleteThis :: after → after = []

variable {mem last : Tracked} {op : Op} {ops : List Op}

/-! ## What the functions access -/

theorem checkout_log (mem : Tracked) : mem.checkout.log =
    mem.log ++ [Access.mutexLock, Access.countRead, Access.countWrite (mem.refCount + 1),
      Access.mutexUnlock] := by
  simp [Tracked.checkout, Tracked.touch, Tracked.setCount]

theorem get_ref_count_log (mem : Tracked) :
    mem.getRefCount.1.log = mem.log ++ [Access.mutexLock, Access.countRead,
      Access.mutexUnlock] := by
  simp [Tracked.getRefCount, Tracked.touch]

/-- A release that leaves other users destroys their mutex. -/
theorem release_shared_log (others : ¬mem.refCount - 1 < 1) : mem.release.log =
    mem.log ++ [Access.mutexLock, Access.countRead, Access.countWrite (mem.refCount - 1),
      Access.countRead,
      Access.mutexUnlock, Access.mutexDestroy] := by
  simp [Tracked.release, Tracked.touch, Tracked.setCount, others]

/-- The last release destroys the mutex of an object that is gone. -/
theorem release_last_log (last : mem.refCount - 1 < 1) : ∃ before,
    mem.release.log = mem.log ++ before ++ [Access.deleteThis, Access.mutexDestroy] := by
  by_cases managed : mem.manage
  · refine ⟨[.mutexLock, .countRead, .countWrite (mem.refCount - 1), .countRead, .mutexUnlock,
      .bufferFree], ?_⟩
    simp [Tracked.release, Tracked.removeThis, Tracked.touch, Tracked.setCount, last, managed]
  · refine ⟨[.mutexLock, .countRead, .countWrite (mem.refCount - 1), .countRead, .mutexUnlock], ?_⟩
    simp [Tracked.release, Tracked.removeThis, Tracked.touch, Tracked.setCount, last, managed]

theorem perform_log (mem : Tracked) (op : Op) : ∃ more, (perform mem op).log = mem.log ++ more := by
  cases op with
  | checkout => exact ⟨_, checkout_log mem⟩
  | getRefCount => exact ⟨_, get_ref_count_log mem⟩
  | release =>
      by_cases lastOne : mem.refCount - 1 < 1
      · rcases release_last_log lastOne with ⟨before, log⟩
        exact ⟨before ++ [Access.deleteThis, Access.mutexDestroy], by rw [perform, log,
          List.append_assoc]⟩
      · exact ⟨_, release_shared_log lastOne⟩

theorem perform_all_log (ran : performAll mem ops = some last) :
    ∃ more, last.log = mem.log ++ more := by
  induction ops generalizing mem with
  | nil =>
      cases ran
      exact ⟨[], by simp⟩
  | cons op ops ih =>
      simp only [performAll] at ran
      split_ifs at ran with positive
      rcases ih ran with ⟨more, log⟩
      rcases perform_log mem op with ⟨here, step⟩
      exact ⟨here ++ more, by rw [log, step, List.append_assoc]⟩

/-! ## Runs without a release -/

/-- What a MemBlk shows as long as nobody has released it. -/
structure Unreleased (mem : Tracked) : Prop where
  users : 0 < mem.refCount
  log : ∃ more, mem.log = [Access.countWrite 1, Access.mutexInit] ++ more ∧ .mutexDestroy ∉ more ∧
    .deleteThis ∉ more ∧ ∀ count, .countWrite count ∈ more → 0 < count

theorem construct_unreleased (manage : Bool) : Unreleased (.construct manage) :=
  ⟨Int.one_pos, [], rfl, by simp, by simp, by simp⟩

theorem unreleased_append {next : Tracked} {added : List Access} (unreleased : Unreleased mem)
    (users : 0 < next.refCount) (log : next.log = mem.log ++ added)
    (noDestroy : .mutexDestroy ∉ added) (noDelete : .deleteThis ∉ added)
    (counts : ∀ count, .countWrite count ∈ added → 0 < count) :
    Unreleased next := by
  rcases unreleased.log with ⟨more, logged, destroy, delete, positive⟩
  refine ⟨users, more ++ added, ?_, ?_, ?_, ?_⟩
  · rw [log, logged, List.append_assoc]
  · rw [List.mem_append, not_or]
    exact ⟨destroy, noDestroy⟩
  · rw [List.mem_append, not_or]
    exact ⟨delete, noDelete⟩
  · intro count member
    rcases List.mem_append.mp member with old | new
    · exact positive count old
    · exact counts count new

theorem perform_unreleased (unreleased : Unreleased mem) (kept : op ≠ .release) :
    Unreleased (perform mem op) := by
  have users := unreleased.users
  cases op with
  | release => exact absurd rfl kept
  | checkout =>
      apply unreleased_append unreleased _ (checkout_log mem)
      · simp
      · simp
      · intro count member
        have same : count = mem.refCount + 1 := by simpa using member
        omega
      · change 0 < mem.refCount + 1
        omega
  | getRefCount =>
      have still : 0 < (perform mem .getRefCount).refCount := users
      apply unreleased_append unreleased still (get_ref_count_log mem)
      · simp
      · simp
      · simp

theorem perform_all_unreleased (unreleased : Unreleased mem) (kept : .release ∉ ops)
    (ran : performAll mem ops = some last) : Unreleased last := by
  induction ops generalizing mem with
  | nil =>
      cases ran
      exact unreleased
  | cons op ops ih =>
      rw [List.mem_cons, not_or] at kept
      simp only [performAll] at ran
      split_ifs at ran with positive
      exact ih (perform_unreleased unreleased (Ne.symm kept.1)) kept.2 ran

theorem unreleased_life_cycle (unreleased : Unreleased mem) : LifeCycle mem.log := by
  rcases unreleased.log with ⟨more, log, noDestroy, noDelete, positive⟩
  have destroy : .mutexDestroy ∉ mem.log := by simpa [log] using noDestroy
  have delete : .deleteThis ∉ mem.log := by simpa [log] using noDelete
  refine ⟨fun before access after split kind => ?_, fun before after split => ?_,
    fun finished => ?_,
    fun before after split => ?_⟩
  · refine ⟨?_, fun member => destroy (by simp [split, member])⟩
    rw [log] at split
    -- the first two accesses are neither a lock nor an unlock
    match before, split with
    | [], split =>
        rcases kind with rfl | rfl <;> simp at split
    | [_], split =>
        rcases kind with rfl | rfl <;> simp at split
    | _ :: second :: _, split =>
        have same : .mutexInit = second := by
          simp only [List.cons_append, List.nil_append, List.cons.injEq] at split
          exact split.2.1
        simp [same]
  · exact absurd (by simp [split]) destroy
  · rcases finished with ⟨count, low, member⟩
    have high : 0 < count := by
      rw [log] at member
      rcases List.mem_append.mp member with start | later
      · have one : count = 1 := by simpa using start
        omega
      · exact positive count later
    omega
  · exact absurd (by simp [split]) delete

/-! ## The first release -/

theorem perform_all_append {front back : List Op}
    (ran : performAll mem (front ++ back) = some last) :
    ∃ middle, performAll mem front = some middle ∧ performAll middle back = some last := by
  induction front generalizing mem with
  | nil => exact ⟨mem, rfl, ran⟩
  | cons op front ih =>
      simp only [List.cons_append, performAll] at ran ⊢
      split_ifs at ran with positive
      rw [if_pos positive]
      exact ih ran

/-- Whoever else still holds the MemBlk, the first release breaks the life cycle for good. -/
theorem first_release_breaks {more : List Access} (unreleased : Unreleased mem) :
    ¬LifeCycle (mem.release.log ++ more) := by
  intro cycle
  by_cases lastOne : mem.refCount - 1 < 1
  · rcases release_last_log lastOne with ⟨before, log⟩
    have none_later := cycle.nothingLater (mem.log ++ before) (.mutexDestroy :: more) (by
      rw [log]
      simp)
    cases none_later
  · have finished := cycle.destroyedLate (mem.log ++ [Access.mutexLock, Access.countRead,
      Access.countWrite (mem.refCount - 1), Access.countRead, Access.mutexUnlock]) more (by
        rw [release_shared_log lastOne]
        simp)
    rcases finished with ⟨count, low, member⟩
    rcases unreleased.log with ⟨old, log, -, -, positive⟩
    rw [log] at member
    simp only [List.mem_append, List.mem_cons, List.not_mem_nil, or_false, reduceCtorEq, false_or,
      Access.countWrite.injEq] at member
    rcases member with (first | earlier) | now
    · omega
    · exact absurd (positive count earlier) (by omega)
    · omega

/-! ## The result -/

theorem mutex_life_cycle_iff {manage : Bool}
    (ran : performAll (.construct manage) ops = some last) :
    LifeCycle last.log ↔ .release ∉ ops := by
  constructor
  · intro cycle released
    rcases List.eq_append_cons_of_mem released with ⟨front, back, split, first⟩
    subst split
    rcases perform_all_append ran with ⟨middle, before, after⟩
    have unreleased := perform_all_unreleased (construct_unreleased manage) first before
    rw [performAll, if_pos unreleased.users] at after
    rcases perform_all_log after with ⟨more, log⟩
    rw [log] at cycle
    exact first_release_breaks unreleased cycle
  · intro kept
    exact unreleased_life_cycle (perform_all_unreleased (construct_unreleased manage) kept ran)

theorem mutex_life_cycle_iff_two_holders :
    LifeCycle ((Tracked.construct true).checkout.getRefCount.1).log ↔
      .release ∉ [Op.checkout, Op.getRefCount] :=
  mutex_life_cycle_iff (by decide :
    performAll (.construct true) [.checkout, .getRefCount] =
    some (Tracked.construct true).checkout.getRefCount.1)

/-- One of two holders releases, and the other one asks for the count. -/
theorem mutex_life_cycle_not_always :
    ¬∀ (manage : Bool) (ops : List Op) (last : Tracked),
      performAll (.construct manage) ops = some last → LifeCycle last.log := by
  intro always
  have cycle := always true [.checkout, .release, .getRefCount] _ rfl
  have locked := cycle.initialised
    [.countWrite 1, .mutexInit, .mutexLock, .countRead, .countWrite 2, .mutexUnlock,
      .mutexLock, .countRead, .countWrite 1, .countRead, .mutexUnlock, .mutexDestroy]
    .mutexLock [.countRead, .mutexUnlock] (by decide) (.inl rfl)
  exact locked.2 (by decide)

/-! ## The functions on the heap -/

/-- On the heap, a release is the one here without its mutex. -/
theorem release_mem_tracked {heap : Heap} {m : MemId} {mem : MemBlk} {tracked : Tracked}
    (present : heap.mems.read m = some mem) (sameCount : tracked.refCount = mem.refCount)
    (sameManage : tracked.manage = mem.manage) :
    ∃ added after, tracked.release.log = tracked.log ++ added ∧ heap.releaseMem m = some after ∧
      after.mems.read m =
        (if .deleteThis ∈ added then none
          else some { mem with refCount := tracked.release.refCount }) ∧
      after.freed = heap.freed ++ (if .bufferFree ∈ added then [mem.base] else []) := by
  have opened : heap.releaseMem m = if mem.refCount - 1 < 1 then
        some { heap with
          mems := heap.mems.giveUp m
          freed := if mem.manage then heap.freed ++ [mem.base] else heap.freed }
      else some (heap.putMem m { mem with refCount := mem.refCount - 1 }) := by
    unfold Heap.releaseMem
    rw [present]
    rfl
  by_cases lastOne : mem.refCount - 1 < 1
  · have decided : decide (mem.refCount - 1 < 1) = true := decide_eq_true lastOne
    rw [if_pos lastOne] at opened
    cases managed : mem.manage
    · refine ⟨[.mutexLock, .countRead, .countWrite (mem.refCount - 1), .countRead, .mutexUnlock,
        .deleteThis, .mutexDestroy], _, ?_, opened, ?_, ?_⟩
      · simp only [Tracked.release, Tracked.removeThis, Tracked.touch, Tracked.setCount, sameCount,
          sameManage, managed, decided, if_true]
        simp
      · simp [read_give_up]
      · simp [managed]
    · refine ⟨[.mutexLock, .countRead, .countWrite (mem.refCount - 1), .countRead, .mutexUnlock,
        .bufferFree, .deleteThis, .mutexDestroy], _, ?_, opened, ?_, ?_⟩
      · simp only [Tracked.release, Tracked.removeThis, Tracked.touch, Tracked.setCount, sameCount,
          sameManage, managed, decided, if_true]
        simp
      · simp [read_give_up]
      · simp [managed]
  · have decided : decide (mem.refCount - 1 < 1) = false := decide_eq_false lastOne
    rw [if_neg lastOne] at opened
    refine ⟨[.mutexLock, .countRead, .countWrite (mem.refCount - 1), .countRead, .mutexUnlock,
      .mutexDestroy], _, ?_, opened, ?_, ?_⟩
    · simp only [Tracked.release, Tracked.touch, Tracked.setCount, sameCount, decided,
        Bool.false_eq_true, if_false]
      simp
    · simp only [Heap.putMem, read_write present, Tracked.release, Tracked.touch, Tracked.setCount,
        sameCount, decided, Bool.false_eq_true, if_false]
      simp
    · simp [Heap.putMem]

end TWlib.MemBlkMutex
