import TWlib.CircularTransfer
import TWlib.CircularWakeups

/-!
# Blocked threads and calls that set the number of permits

`clear`, `transferFrom` and `cloneFrom` set `cnt` of a semaphore as a whole and signal
nobody: who waits for what there is now is not told. Any number of queues is used by
any number of threads here, and permits are counted wherever the indices are, since a
source that was reversed has its indices wrong afterwards.
-/

namespace TWlib.CircularStranded

open TWlib.Lib.CellStore TWlib.Lib.Monitor TWlib.CircularBuffer TWlib.CircularSequential
  TWlib.CircularObjects
  TWlib.CircularTransfer TWlib.CircularThreads TWlib.CircularWakeups

set_option autoImplicit false

variable {Item : Type*}

/-! ## Queues and their threads -/

structure System (Item : Type*) where
  heap : Store (List Item)
  objects : Nat → Option SafeCircular
  threads : Nat → Threads (Job Item)

/-- The calls that change neither the number of permits nor who waits. -/
def Quiet : Use Item → Prop
  | .call .reverse | .call .remaining | .get _ | .set _ _ | .setMv _ _ | .iterate => True
  | _ => False

inductive Move (Item : Type*) where
  | new (i : Nat)
  | region (i : Nat) (event : Event Item)
  | quiet (i : Nat) (one : Use Item)
  | switch (i : Nat) (enabled : Bool)
  | clear (i : Nat)
  | clone (i j : Nat)
  | transfer (i j : Nat)

/-- Every move is made under the mutexes of the semaphores it concerns, or does not concern them. -/
inductive Passes (husk : Item → Item) (blank : Item) (system : System Item) :
    Move Item → System Item → Prop where
  | new {i : Nat} {size : Int} {data : List Item} (unused : system.objects i = none)
      (positive : 1 ≤ size)
      (isObjects : Bool) (whole : (data.length : Int) = size) (count : Nat) :
      Passes husk blank system (.new i)
        ⟨system.heap.push data,
          Function.update system.objects i
            (some { isObjects, reverse := false, sema := ⟨size, size⟩, enabled := true,
                    nextIn := -1, nextOut := 0
                    size, data := system.heap.fresh }),
          Function.update system.threads i (List.replicate count none)⟩
  | region {i : Nat} {event : Event Item} {object : SafeCircular} {queue : Circular Item}
      {next : World Item}
      (found : system.objects i = some object) (seen : view system.heap object = some queue)
      (step : Step husk ⟨queue, system.threads i⟩ event next) :
      Passes husk blank system (.region i event)
        ⟨system.heap.write object.data next.queue.data,
          Function.update system.objects i (some (object.become next.queue object.enabled)),
          Function.update system.threads i next.threads⟩
  | quiet {i : Nat} {one : Use Item} {object objectAfter : SafeCircular} {result : Result Item}
      {heap : Store (List Item)} (quiet : Quiet one) (found : system.objects i = some object)
      (used : useObject husk blank system.heap object one = some (heap, objectAfter, result)) :
      Passes husk blank system (.quiet i one)
        ⟨heap, Function.update system.objects i (some objectAfter), system.threads⟩
  | switch {i : Nat} {object : SafeCircular} (enabled : Bool) (found : system.objects i =
      some object) :
      Passes husk blank system (.switch i enabled)
        ⟨system.heap, Function.update system.objects i (some { object with enabled }),
          system.threads⟩
  | clear {i : Nat} {object objectAfter : SafeCircular} {result : Result Item}
      {heap : Store (List Item)}
      (found : system.objects i = some object)
      (used : useObject husk blank system.heap object (.call .clear) = some (heap,
        objectAfter, result)) :
      Passes husk blank system (.clear i)
        ⟨heap, Function.update system.objects i (some objectAfter), system.threads⟩
  | clone {i j : Nat} {a b cloned : SafeCircular} {fresh : List Item} {heap : Store (List Item)}
      (differ : i ≠ j)
      (first : system.objects i = some a) (second : system.objects j = some b)
      (whole : (fresh.length : Int) = b.size)
      (made : cloneFrom fresh system.heap a b = some (heap, cloned)) :
      Passes husk blank system (.clone i j)
        ⟨heap, Function.update system.objects i (some cloned), system.threads⟩
  | transfer {i j : Nat} {a b filled emptied : SafeCircular} {fresh : List Item}
      {heap : Store (List Item)}
      (differ : i ≠ j) (first : system.objects i = some a) (second : system.objects j = some b)
      (whole : (fresh.length : Int) = b.size)
      (made : transferFrom husk fresh system.heap a b = some (heap, filled, emptied)) :
      Passes husk blank system (.transfer i j)
        ⟨heap, Function.update (Function.update system.objects i (some filled)) j (some emptied),
          system.threads⟩

/-- What is reached by moves that were permitted where they were made. -/
inductive Run (husk : Item → Item) (blank : Item) (permitted : System Item → Move Item → Prop) :
    System Item → Prop where
  | start : Run husk blank permitted ⟨Store.empty, fun _ => none, fun _ => []⟩
  | step {system after : System Item} {move : Move Item} (run : Run husk blank permitted system)
      (allowed : permitted system move) (passes : Passes husk blank system move after) :
      Run husk blank permitted after

/-! ## What is stated -/

/-- While a producer waits without a signal, there are no more free slots than producers with one,
and the same holds of consumers and elements. -/
structure Supplied (object : SafeCircular) (threads : Threads (Job Item)) : Prop where
  producers : 0 < waiting Job.cond false .gtZeroCond threads →
    object.sema.countNoBlock ≤ waiting Job.cond true .gtZeroCond threads
  consumers : 0 < waiting Job.cond false .decrementCond threads →
    object.size - object.sema.countNoBlock ≤ waiting Job.cond true .decrementCond threads

def SuppliedAt (system : System Item) (i : Nat) : Prop :=
  ∀ object, system.objects i = some object → Supplied object (system.threads i)

/-- Nobody waits without a signal for a free slot, or a signal is on its way for every slot of the
queue. -/
def RoomTold (object : SafeCircular) (threads : Threads (Job Item)) : Prop :=
  waiting Job.cond false .gtZeroCond threads = 0 ∨
    object.size ≤ waiting Job.cond true .gtZeroCond threads

/-- What a queue holds and has free was told to the threads of another one, on which it is to be. -/
def ContentTold (object : SafeCircular) (threads : Threads (Job Item)) : Prop :=
  (waiting Job.cond false .gtZeroCond threads = 0 ∨
    object.sema.countNoBlock ≤ waiting Job.cond true .gtZeroCond threads) ∧
  (waiting Job.cond false .decrementCond threads = 0 ∨
    object.size - object.sema.countNoBlock ≤ waiting Job.cond true .decrementCond threads)

/-- No waiting thread is in need of what a move sets free, and no thread with a signal gives up
while there is what it waits for. -/
def Harmless (system : System Item) : Move Item → Prop
  | .clear i => ∀ object, system.objects i = some object → RoomTold object (system.threads i)
  | .clone i j => ∀ b, system.objects j = some b → ContentTold b (system.threads i)
  | .transfer i j => ∀ b, system.objects j = some b →
      ContentTold b (system.threads i) ∧ RoomTold b (system.threads j)
  | .region i event =>
      ∀ object queue job, system.objects i = some object → view system.heap object = some queue →
      (system.threads i)[event.thread]? = some (some ⟨job, true⟩) →
        event.outcome = .returns false none →
      available queue job.cond ≤ 0
  | _ => True

/-! ## One move -/

variable {husk : Item → Item} {blank : Item} {queue : Circular Item} {job : Job Item}
  {threads : Threads (Job Item)} {world next : World Item} {event : Event Item} {i j : Nat}
  {heap heapAfter : Store (List Item)} {object objectAfter a b cloned filled emptied : SafeCircular}
  {fresh : List Item} {value : Item} {system after : System Item} {move : Move Item}

theorem step_permits (permits : Permits world.queue.sema world.queue.size)
    (step : Step husk world event next) :
    Permits next.queue.sema next.queue.size := by
  cases step with
  | start ran acts => exact counts_permits permits (enter_counts permits ran)
  | resume ran acts => exact counts_permits permits (resume_counts permits ran)
  | expire expires acts => exact permits

/-- A region keeps both supplies covered, unless a thread gives up with a signal. -/
theorem step_supplies (permits : Permits world.queue.sema world.queue.size)
    (covered : ∀ cond, Covered Job.cond cond (available world.queue cond) world.threads)
    (harmless : ∀ job, world.threads[event.thread]? = some (some ⟨job, true⟩) →
      event.outcome = .returns false none → available world.queue job.cond ≤ 0)
    (step : Step husk world event next) :
    ∀ cond, Covered Job.cond cond (available next.queue cond) next.threads := by
  cases step with
  | start ran acts =>
      rename_i k call region threads
      apply counts_covers (enter_counts permits ran) acts
      intro cond
      rw [set_outside (acts_stands acts)]
      apply covered_less (covered cond)
      unfold leftOf
      split_ifs <;> omega
  | resume ran acts =>
      rename_i k job signalled region threads
      apply counts_covers (resume_counts permits ran) acts
      intro cond
      have leaves := covered_leave (covered cond) (acts_stands acts)
      unfold leftOf
      rw [blocking_cond]
      simpa using leaves
  | expire expires acts =>
      rename_i k job signalled threads
      rcases acts with ⟨waits, wakes⟩
      cases nobody_wakes wakes
      intro cond
      cases signalled with
      | false => exact covered_give_up (covered cond) waits
      | true =>
          by_cases own : job.cond = cond
          · subst own
            exact covered_empty (harmless job waits rfl)
          · have leaves := covered_leave (covered cond) waits
            rwa [if_neg own] at leaves

theorem supplied_iff (sema : queue.sema = object.sema) (size : queue.size = object.size) :
    Supplied object threads ↔ ∀ cond, Covered Job.cond cond (available queue cond) threads := by
  have free : available queue .gtZeroCond = object.sema.countNoBlock :=
    congrArg SemaTwoWay.countNoBlock sema
  have stored : available queue .decrementCond = object.size - object.sema.countNoBlock := by
    rw [available, Circular.remain, sema, size]
  constructor
  · rintro ⟨producers, consumers⟩ cond
    cases cond with
    | gtZeroCond =>
        rw [free]
        exact producers
    | decrementCond =>
        rw [stored]
        exact consumers
  · intro covered
    have producers := covered .gtZeroCond
    have consumers := covered .decrementCond
    rw [free] at producers
    rw [stored] at consumers
    exact ⟨producers, consumers⟩

theorem set_kept {n : Int} {queueAfter : Circular Item} {ret : Bool}
    (set : queue.set n value = some (queueAfter, ret)) :
    queueAfter.sema = queue.sema ∧ queueAfter.size = queue.size := by
  unfold Circular.set at set
  split_ifs at set
  · rcases Option.map_eq_some_iff.mp set with ⟨data, _, same⟩
    cases same
    exact ⟨rfl, rfl⟩
  · cases set
    exact ⟨rfl, rfl⟩

theorem quiet_kept {one : Use Item} {result : Result Item} (quiet : Quiet one)
    (used : useObject husk blank heap object one = some (heapAfter, objectAfter, result)) :
    objectAfter.sema = object.sema ∧ objectAfter.size = object.size := by
  rcases Option.bind_eq_some_iff.mp used with ⟨queue, seen, later⟩
  rcases Option.bind_eq_some_iff.mp later with ⟨⟨queueAfter, given⟩, usedQueue, done⟩
  cases done
  rcases view_some seen with ⟨_, _, _, sema, _, _, size⟩
  have kept : queueAfter.sema = queue.sema ∧ queueAfter.size = queue.size := by
    cases one with
    | call op =>
        rcases Option.map_eq_some_iff.mp usedQueue with ⟨⟨performed, answer⟩, same, done⟩
        cases done
        cases op with
        | reverse =>
            cases same
            unfold Circular.reverseOrder
            split_ifs <;> exact ⟨rfl, rfl⟩
        | remaining =>
            cases same
            exact ⟨rfl, rfl⟩
        | _ => exact quiet.elim
    | timed op => exact quiet.elim
    | get n =>
        rcases Option.map_eq_some_iff.mp usedQueue with ⟨_, _, done⟩
        cases done
        exact ⟨rfl, rfl⟩
    | set n value =>
        rcases Option.map_eq_some_iff.mp usedQueue with ⟨⟨written, ret⟩, same, done⟩
        cases done
        exact set_kept same
    | setMv n value =>
        rcases Option.map_eq_some_iff.mp usedQueue with ⟨⟨written, ret, rest⟩, same, done⟩
        rcases Option.map_eq_some_iff.mp same with ⟨⟨inner, _⟩, set, here⟩
        cases here
        cases done
        exact set_kept set
    | iterate =>
        rcases Option.map_eq_some_iff.mp usedQueue with ⟨_, _, done⟩
        cases done
        exact ⟨rfl, rfl⟩
  exact ⟨kept.1.trans sema, kept.2.trans size⟩

theorem cleared_fields {result : Result Item}
    (used : useObject husk blank heap object (.call .clear) = some (heapAfter,
      objectAfter, result)) :
    objectAfter.sema = object.sema.resetNoLock ∧ objectAfter.size = object.size := by
  rcases Option.bind_eq_some_iff.mp used with ⟨queue, seen, later⟩
  rcases Option.bind_eq_some_iff.mp later with ⟨⟨queueAfter, given⟩, usedQueue, done⟩
  cases done
  cases usedQueue
  rcases view_some seen with ⟨_, _, _, sema, _, _, size⟩
  exact ⟨congrArg SemaTwoWay.resetNoLock sema, size⟩

theorem cloned_fields (made : cloneFrom fresh heap a b = some (heapAfter, cloned)) :
    cloned.sema = b.sema ∧ cloned.size = b.size := by
  rcases Option.bind_eq_some_iff.mp made with ⟨_, _, later⟩
  split_ifs at later
  · rcases Option.bind_eq_some_iff.mp later with ⟨source, _, copies⟩
    rcases Option.bind_eq_some_iff.mp copies with ⟨cells, _, done⟩
    cases done
    exact ⟨rfl, rfl⟩
  · cases later
    exact ⟨rfl, rfl⟩

theorem transferred_fields (made : transferFrom husk fresh heap a b = some (heapAfter,
    filled, emptied)) :
    (filled.sema = b.sema ∧ filled.size = b.size) ∧ emptied.sema = b.sema.resetNoLock ∧
    emptied.size = b.size := by
  rcases Option.bind_eq_some_iff.mp made with ⟨_, _, later⟩
  split_ifs at later
  · rcases Option.bind_eq_some_iff.mp later with ⟨source, _, copies⟩
    rcases Option.bind_eq_some_iff.mp copies with ⟨cells, _, done⟩
    cases done
    exact ⟨⟨rfl, rfl⟩, rfl, rfl⟩
  · cases later
    exact ⟨⟨rfl, rfl⟩, rfl, rfl⟩

theorem permits_new {size : Int} (positive : 1 ≤ size) : Permits ⟨size, size⟩ size :=
  ⟨rfl, Int.le_trans Int.one_nonneg positive, Int.le_refl size⟩

theorem permits_reset {sema : SemaTwoWay} {size : Int} (permits : Permits sema size) :
    Permits sema.resetNoLock size := by
  have semaSize := permits.semaSize
  have count := permits.count
  exact ⟨semaSize, by simp only [SemaTwoWay.resetNoLock]; omega, Int.le_of_eq semaSize⟩

def AllPermits (system : System Item) : Prop :=
  ∀ i object, system.objects i = some object → Permits object.sema object.size

theorem passes_permits (permits : AllPermits system)
    (passes : Passes husk blank system move after) :
    AllPermits after := by
  cases passes with
  | new unused positive isObjects whole count =>
      exact all_after_update permits (permits_new positive)
  | region found seen step =>
      rename_i i event object queue next
      rcases view_some seen with ⟨_, _, _, sema, _, _, size⟩
      have before : Permits queue.sema queue.size := by
        rw [sema, size]
        exact permits i object found
      exact all_after_update permits (step_permits before step)
  | quiet quiet found used =>
      rcases quiet_kept quiet used with ⟨sema, size⟩
      apply all_after_update permits
      rw [sema, size]
      exact permits _ _ found
  | switch enabled found =>
      have before := permits _ _ found
      exact all_after_update permits before
  | clear found used =>
      rcases cleared_fields used with ⟨sema, size⟩
      apply all_after_update permits
      rw [sema, size]
      exact permits_reset (permits _ _ found)
  | clone differ first second whole made =>
      rcases cloned_fields made with ⟨sema, size⟩
      apply all_after_update permits
      rw [sema, size]
      exact permits _ _ second
  | transfer differ first second whole made =>
      rcases transferred_fields made with ⟨⟨sema, size⟩, semaEmptied, sizeEmptied⟩
      have target : Permits _ _ := permits _ _ second
      apply all_after_update (all_after_update permits (sema ▸ size ▸ target))
      rw [semaEmptied, sizeEmptied]
      exact permits_reset target

theorem run_permits {permitted : System Item → Move Item → Prop}
    (run : Run husk blank permitted system) :
    AllPermits system := by
  induction run with
  | start => exact fun i object found => nomatch found
  | step run allowed passes ih => exact passes_permits ih passes

/-! ## What the calls leave -/

theorem room_told_iff (object : SafeCircular) (threads : Threads (Job Item)) {sema : SemaTwoWay}
    (semaSize : sema.size = object.size) {reset : SafeCircular}
    (same : reset.sema = sema.resetNoLock) (size : reset.size = object.size) :
    Supplied reset threads ↔ RoomTold object threads := by
  have free : reset.sema.countNoBlock = object.size := by
    rw [same]
    exact semaSize
  constructor
  · intro supplied
    rcases Nat.eq_zero_or_pos (waiting Job.cond false .gtZeroCond threads) with none | some_
    · exact .inl none
    · exact .inr (free ▸ supplied.producers some_)
  · intro told
    constructor
    · intro some_
      rw [free]
      exact told.resolve_left (Nat.ne_of_gt some_)
    · intro _
      rw [free, size, Int.sub_self]
      exact Int.natCast_nonneg _

theorem content_told_iff (b : SafeCircular) (threads : Threads (Job Item)) {copy : SafeCircular}
    (same : copy.sema = b.sema) (size : copy.size = b.size) :
    Supplied copy threads ↔ ContentTold b threads := by
  constructor
  · intro supplied
    constructor
    · rcases Nat.eq_zero_or_pos (waiting Job.cond false .gtZeroCond threads) with none | some_
      · exact .inl none
      · exact .inr (same ▸ supplied.producers some_)
    · rcases Nat.eq_zero_or_pos (waiting Job.cond false .decrementCond threads) with none | some_
      · exact .inl none
      · exact .inr (same ▸ size ▸ supplied.consumers some_)
  · intro told
    constructor
    · intro some_
      rw [same]
      exact told.1.resolve_left (Nat.ne_of_gt some_)
    · intro some_
      rw [same, size]
      exact told.2.resolve_left (Nat.ne_of_gt some_)

theorem clear_supplies_iff (permits : AllPermits system)
    (passes : Passes husk blank system (.clear i) after) :
    SuppliedAt after i ↔ Harmless system (.clear i) := by
  cases passes with
  | clear found used =>
      rename_i object objectAfter result heap
      rcases cleared_fields used with ⟨sema, size⟩
      have iff := room_told_iff object (system.threads i)
        (permits i object found).semaSize sema size
      constructor
      · intro supplied other there
        cases Option.some.inj (found.symm.trans there)
        exact iff.mp (supplied objectAfter (Function.update_self ..))
      · intro harmless other there
        cases Option.some.inj ((Function.update_self i (some objectAfter) system.objects).symm.trans
          there)
        exact iff.mpr (harmless object found)

theorem transfer_supplies_iff (permits : AllPermits system)
    (passes : Passes husk blank system (.transfer i j) after) :
    SuppliedAt after i ∧ SuppliedAt after j ↔ Harmless system (.transfer i j) := by
  cases passes with
  | transfer differ first second whole made =>
      rename_i a b filled emptied fresh heap
      rcases transferred_fields made with ⟨⟨sema, size⟩, semaEmptied, sizeEmptied⟩
      have target := content_told_iff b (system.threads i) sema size
      have source := room_told_iff b (system.threads j) (permits j b second).semaSize
        semaEmptied sizeEmptied
      have atSource : (Function.update (Function.update system.objects i (some filled)) j
          (some emptied)) j =
          some emptied := Function.update_self ..
      have atTarget : (Function.update (Function.update system.objects i (some filled)) j
          (some emptied)) i =
          some filled := by
        rw [Function.update_of_ne differ, Function.update_self]
      constructor
      · rintro ⟨suppliedTarget, suppliedSource⟩ other there
        cases Option.some.inj (second.symm.trans there)
        exact ⟨target.mp (suppliedTarget filled atTarget),
          source.mp (suppliedSource emptied atSource)⟩
      · intro harmless
        have told := harmless b second
        constructor
        · intro other there
          cases Option.some.inj (atTarget.symm.trans there)
          exact target.mpr told.1
        · intro other there
          cases Option.some.inj (atSource.symm.trans there)
          exact source.mpr told.2

theorem supplied_after_update (supplied : ∀ k, SuppliedAt system k)
    (heap : Store (List Item)) (i : Nat) (new : Supplied object threads) : ∀ k, SuppliedAt
      ⟨heap, Function.update system.objects i (some object),
        Function.update system.threads i threads⟩ k := by
  intro k found there
  by_cases same : k = i
  · subst same
    cases Option.some.inj ((Function.update_self k (some object) system.objects).symm.trans there)
    simp only [Function.update_self]
    exact new
  · simp only [Function.update_of_ne same] at there ⊢
    exact supplied k found there

theorem supplied_after_call (supplied : ∀ k, SuppliedAt system k)
    (heap : Store (List Item)) (i : Nat) (new : Supplied object (system.threads i)) :
    ∀ k, SuppliedAt ⟨heap, Function.update system.objects i (some object), system.threads⟩ k := by
  have updated := supplied_after_update supplied heap i new
  rwa [Function.update_eq_self] at updated

theorem supplied_idle (object : SafeCircular) (count : Nat) :
    Supplied object (List.replicate count none : Threads (Job Item)) := by
  constructor
  · intro some_
    exact absurd (waiting_nobody Job.cond count false .gtZeroCond) (Nat.ne_of_gt some_)
  · intro some_
    exact absurd (waiting_nobody Job.cond count false .decrementCond) (Nat.ne_of_gt some_)

theorem passes_supplies (permits : AllPermits system) (supplied : ∀ i, SuppliedAt system i)
    (harmless : Harmless system move) (passes : Passes husk blank system move after) :
    ∀ i, SuppliedAt after i := by
  cases passes with
  | new unused positive isObjects whole count =>
      exact supplied_after_update supplied _ _ (supplied_idle _ count)
  | region found seen step =>
      rename_i i event object queue next
      rcases view_some seen with ⟨_, _, _, sema, _, _, size⟩
      have before : Permits queue.sema queue.size := by
        rw [sema, size]
        exact permits i object found
      have covered := (supplied_iff sema size).mp (supplied i object found)
      have now := step_supplies before covered (fun job =>
        harmless object queue job found seen) step
      exact supplied_after_update supplied _ i ((supplied_iff rfl rfl).mpr now)
  | quiet quiet found used =>
      rename_i i one object objectAfter result heap
      rcases quiet_kept quiet used with ⟨sema, size⟩
      apply supplied_after_call supplied
      have before := supplied i object found
      constructor
      · rw [sema]
        exact before.producers
      · rw [sema, size]
        exact before.consumers
  | switch enabled found =>
      rename_i i object
      have before := supplied i object found
      exact supplied_after_call supplied _ i ⟨before.producers, before.consumers⟩
  | clear found used =>
      rename_i i object objectAfter result heap
      rcases cleared_fields used with ⟨sema, size⟩
      apply supplied_after_call supplied
      exact (room_told_iff object _ (permits i object found).semaSize sema size).mpr
        (harmless object found)
  | clone differ first second whole made =>
      rename_i i j a b cloned fresh heap
      rcases cloned_fields made with ⟨sema, size⟩
      apply supplied_after_call supplied
      exact (content_told_iff b _ sema size).mpr (harmless b second)
  | transfer differ first second whole made =>
      rename_i i j a b filled emptied fresh heap
      rcases transferred_fields made with ⟨⟨sema, size⟩, semaEmptied, sizeEmptied⟩
      have told := harmless b second
      have target := supplied_after_call supplied heap i
        ((content_told_iff b _ sema size).mpr told.1)
      apply supplied_after_call target
      exact (room_told_iff b _ (permits j b second).semaSize semaEmptied sizeEmptied).mpr told.2

theorem run_supplies (run : Run husk blank Harmless system) : ∀ i, SuppliedAt system i := by
  induction run with
  | start => exact fun i object found => nomatch found
  | step before allowed passes ih => exact passes_supplies (run_permits before) ih allowed passes

/-- A run leaves every thread told of what there is when each move was harmless; a `clear` or
`transferFrom` after any run leaves the threads of its queues so exactly when it is harmless. -/
theorem supplied_iff_harmless (run : Run husk blank (fun _ _ => True) system) :
    (Run husk blank Harmless system → ∀ i, SuppliedAt system i) ∧
    (∀ i after, Passes husk blank system (.clear i) after →
      (SuppliedAt after i ↔ Harmless system (.clear i))) ∧
    ∀ i j after, Passes husk blank system (.transfer i j) after →
      (SuppliedAt after i ∧ SuppliedAt after j ↔ Harmless system (.transfer i j)) := by
  have permits := run_permits run
  exact ⟨run_supplies, fun _ _ => clear_supplies_iff permits,
    fun _ _ _ => transfer_supplies_iff permits⟩

/-- A full queue of one slot, on which a second producer waits. -/
private def full : SafeCircular := ⟨true, false, ⟨0, 1⟩, true, 0, 0, 1, 0⟩
private def second : Threads (Job Nat) := [none, some ⟨.add 8 false, false⟩]

private theorem producer_waits : ∃ system : System Nat, Run id 0 (fun _ _ => True) system ∧
    system.heap = ⟨[some [7]]⟩ ∧ system.objects 0 = some full ∧ system.threads 0 = second := by
  let empty : Circular Nat := Circular.new 1 true [0]
  let filled : Circular Nat := ⟨true, false, ⟨0, 1⟩, 0, 0, 1, [7]⟩
  let adding : Region Nat := ⟨filled, .signal .decrementCond, .returns true (some 7)⟩
  let waits : Region Nat := ⟨filled, .nobody, .waits .gtZeroCond⟩
  let idle : Threads (Job Nat) := [none, none]
  have alone : Signal Job.cond .decrementCond idle idle := .nobody (by decide)
  have leaves : Acts Job.cond idle 0 none adding.wake none idle := .region rfl (.signal alone)
  have stays : Acts Job.cond idle 1 none waits.wake (some (.add 8 false)) second :=
    .region rfl .nobody
  have adds : Step id ⟨empty, idle⟩ ⟨0, .blocking (.add 7 false), adding.outcome⟩ ⟨filled, idle⟩ :=
    .start rfl leaves
  have blocks : Step id ⟨filled, idle⟩ ⟨1, .blocking (.add 8 false),
      waits.outcome⟩ ⟨filled, second⟩ :=
    .start rfl stays
  have made := @Run.step Nat id 0 (fun _ _ => True) _ _ _ .start trivial
    (@Passes.new Nat id 0 ⟨Store.empty, fun _ => none, fun _ => []⟩ 0 1 [0] rfl
      (by decide) true rfl 2)
  have putIn := Run.step made trivial (@Passes.region Nat id 0 _ 0 _ _ empty _ rfl rfl adds)
  have blocked := Run.step putIn trivial (@Passes.region Nat id 0 _ 0 _ _ filled _ rfl rfl blocks)
  exact ⟨_, blocked, rfl, rfl, rfl⟩

theorem supplied_iff_harmless_producer_waits : ∃ system :
    System Nat, Run id 0 (fun _ _ => True) system ∧
    system.threads 0 = second ∧
    (Run id 0 Harmless system → ∀ i, SuppliedAt system i) ∧
    (∀ i after, Passes id 0 system (.clear i) after →
      (SuppliedAt after i ↔ Harmless system (.clear i))) ∧
    ∀ i j after, Passes id 0 system (.transfer i j) after →
      (SuppliedAt after i ∧ SuppliedAt after j ↔ Harmless system (.transfer i j)) := by
  rcases producer_waits with ⟨system, run, heap, object, threads⟩
  exact ⟨system, run, threads, supplied_iff_harmless run⟩

/-- The second producer is not told that `clear` has made room. -/
theorem cleared_queue_keeps_its_producer_waiting : ¬ ∀ (system after : System Nat) (i : Nat),
    Run id 0 (fun _ _ => True) system → Passes id 0 system (.clear i) after →
    SuppliedAt after i := by
  intro claimed
  let cleared : SafeCircular := ⟨true, false, ⟨1, 1⟩, true, -1, 0, 1, 0⟩
  rcases producer_waits with ⟨system, run, heap, object, threads⟩
  have used : useObject id 0 system.heap full (.call .clear) =
      some (⟨[some [0]]⟩, cleared, .call .done) := by
    rw [heap]
    rfl
  have now : Function.update system.objects 0 (some cleared) 0 = some cleared :=
    Function.update_self ..
  have supplied := claimed system _ 0 run (.clear object used) _ now
  have producers := supplied.producers
  simp only [threads] at producers
  exact absurd (producers (by decide)) (by decide)

end TWlib.CircularStranded
