import TWlib.SafeFifoThreads

/-!
# The count of waiting threads of a thread-safe FIFO

A thread raises `_block_cnt` before it waits, and only those who signal lower it: a thread whose
wait ends by itself leaves it as it is. So the count can be too high, and as long as the `int` has
room for every thread that begins to wait, it is never too low.
-/

namespace TWlib.SafeFifoWaiters

open TWlib.Lib.CellStore TWlib.Lib.MachineInt TWlib.Lib.Monitor TWlib.SafeFifo TWlib.SafeFifoRegions
    TWlib.SafeFifoThreads

set_option autoImplicit false

variable {Item : Type*}

/-! ## Waits that end by themselves -/

/-- How many threads wait for new data and were neither signalled nor woken otherwise. -/
def waiters (threads : Threads (Place Item)) : Nat := waiting stop false .newdataCond threads

/-- A wait ends spuriously or because its time is over. The thread goes on once it has the mutex;
until then signals go to the others. -/
inductive Ends (world : World Item) : World Item → Prop where
  | ends {i : Nat} {place : Place Item} (stands : world.threads[i]? = some (some ⟨place, false⟩))
      (waits : stop place = .newdataCond) :
      Ends world { world with threads := world.threads.set i (some ⟨place, true⟩) }

/-- A run in which waits end by themselves at any point between the regions. -/
inductive WakingRun (left : Item → Item) (permitted : World Item → Event Item → Prop)
    (first : World Item) :
    World Item → Prop where
  | start : WakingRun left permitted first first
  | step {world next : World Item} {event : Event Item} (run : WakingRun left permitted first world)
      (allowed : permitted world event) (step : Step left world event next) :
      WakingRun left permitted first next
  | ends {world next : World Item} (run : WakingRun left permitted first world)
      (ends : Ends world next) :
      WakingRun left permitted first next

/-- A thread that begins to wait finds room for one more in the count. -/
def Fits (world : World Item) (event : Event Item) : Prop :=
  event.action.mayWait = true → world.fifo.out = none → world.fifo.blockCnt < intMax

instance (world : World Item) (event : Event Item) : Decidable (Fits world event) :=
  inferInstanceAs (Decidable (_ → _ → _ < _))

/-- What a step owes to the threads that wait: a region of `unblock()` wakes one of them, one of
`unblockAll()` all, and whoever added goes on to `unblock()`. -/
structure Serves (left : Item → Item) (world : World Item) (event : Event Item)
    (next : World Item) : Prop where
  one : event.action = .enter .unblock ∨ event.action = .resume .unblock →
    waiters next.threads = waiters world.threads - 1
  all : (event.action = .enter .unblockAll ∨ ∃ assigning, event.action =
    .resume (.unblockAll assigning)) →
    waiters next.threads = 0
  added : (event.action.pushes left).isSome → jobAt next.threads event.thread = some .unblock

variable {left : Item → Item} {fifo : Fifo} {links : TWlib.SafeFifo.Links Item}
  {items after : List Item} {threads woken : Threads (Place Item)}
  {thread : Option (Waiter (Place Item))} {i : Nat} {world next : World Item} {event : Event Item}
  {region : Region Item} {cells : List Nat} {permitted : World Item → Event Item → Prop}

/-! ## The threads -/

theorem waiters_leave (stands : threads[i]? = some thread) :
    waiters (threads.set i none) ≤ waiters threads := by
  have set := waiting_set stop stands none false .newdataCond
  simp only [Option.any_none, Bool.false_eq_true, if_false, Nat.add_zero] at set
  unfold waiters
  omega

theorem waiters_elsewhere (stands : threads[i]? = some thread)
    (elsewhere : ∀ waiter, thread = some waiter → stop waiter.job ≠ .newdataCond) :
    waiters (threads.set i none) = waiters threads := by
  have set := waiting_set stop stands none false .newdataCond
  cases thread with
  | none => simpa [waiters] using set
  | some waiter =>
      have apart := elsewhere waiter rfl
      simpa [waiters, apart] using set

theorem waiters_settle {place : Place Item} (outside : threads[i]? = some none)
    (stands : stop place ≠ .newdataCond) :
    waiters (settle threads i (some place)) = waiters threads := by
  have joined : waiting stop false Stop.newdataCond (threads.set i (some ⟨place, false⟩)) = _ :=
    waiting_join outside place false Stop.newdataCond
  rw [if_neg fun both => stands both.1] at joined
  exact joined

theorem waiters_join {place : Place Item} (outside : threads[i]? = some none)
    (waits : stop place = .newdataCond) :
    waiters (settle threads i (some place)) = waiters threads + 1 := by
  have joined : waiting stop false Stop.newdataCond (threads.set i (some ⟨place, false⟩)) = _ :=
    waiting_join outside place false Stop.newdataCond
  rw [if_pos ⟨waits, rfl⟩] at joined
  exact joined

/-! ## Signals -/

theorem unblock_serves (counted : (waiters threads : Int) ≤ fifo.blockCnt)
    (wakes : Wakes stop (fifo.unblock links).wake threads woken) :
    waiters woken = waiters threads - 1 ∧ (waiters woken : Int) ≤
    (fifo.unblock links).fifo.blockCnt := by
  by_cases someone : fifo.blockCnt > 0
  · have unblocked : fifo.unblock links =
        ⟨{ fifo with blockCnt := fifo.blockCnt - 1 }, links, .signal .newdataCond,
          .returns true none⟩ := if_pos someone
    rw [unblocked] at wakes ⊢
    cases wakes with
    | signal signalled =>
        have fewer : waiters woken = waiters threads - 1 := (signal_own signalled).1
        refine ⟨fewer, ?_⟩
        simp only
        omega
  · have unblocked : fifo.unblock links = ⟨fifo, links, .nobody, .returns true none⟩ :=
      if_neg someone
    rw [unblocked] at wakes ⊢
    cases nobody_wakes wakes
    have nobody : waiters threads = 0 := by omega
    exact ⟨by rw [nobody], counted⟩

theorem unblock_all_serves {assigning : Bool} (counted : (waiters threads : Int) ≤ fifo.blockCnt)
    (wakes : Wakes stop (fifo.unblockAll links assigning).wake threads woken) :
    waiters woken = 0 ∧ (0 : Int) ≤ (fifo.unblockAll links assigning).fifo.blockCnt := by
  by_cases someone : fifo.blockCnt > 0
  · have unblocked : fifo.unblockAll links assigning =
        ⟨{ fifo with blockCnt := 0 }, links, .broadcast .newdataCond,
          if assigning then .goes .copyLinks else .returns true none⟩ := if_pos someone
    rw [unblocked] at wakes ⊢
    cases wakes with
    | broadcast => exact ⟨broadcast_own, Int.le_refl 0⟩
  · have unblocked : fifo.unblockAll links assigning =
        ⟨fifo, links, .nobody, if assigning then .goes .copyLinks else .returns true none⟩ :=
        if_neg someone
    rw [unblocked] at wakes ⊢
    cases nobody_wakes wakes
    have nobody : waiters threads = 0 := by omega
    refine ⟨nobody, ?_⟩
    simp only
    omega

/-! ## One step -/

theorem did_counts (counted : (waiters world.threads : Int) ≤ world.fifo.blockCnt)
    (fits : Fits world event) (represents : Represents world.fifo world.links cells items)
    (did : Did left world.fifo world.links items event.action region after)
    (acts : Acts stop world.threads event.thread thread region.wake
      (placeAfter region.outcome) threads) :
    (waiters threads : Int) ≤ region.fifo.blockCnt := by
  rcases acts with ⟨stands, wakes⟩
  have outside : (world.threads.set event.thread none)[event.thread]? = some none :=
    left_outside stands
  have fewer : waiters (world.threads.set event.thread none) ≤ waiters world.threads :=
    waiters_leave stands
  have enough : (waiters (world.threads.set event.thread none) : Int) ≤
    world.fifo.blockCnt := by omega
  generalize acted : event.action = action at did
  cases did with
  | made =>
      cases nobody_wakes wakes
      rw [placeAfter, waiters_settle outside (by simp [stop])]
      exact enough
  | put pushes accepts same puts longer =>
      cases nobody_wakes wakes
      rw [placeAfter, waiters_settle outside (by simp [stop]), same.blockCnt]
      exact enough
  | refused pushes refuses =>
      cases nobody_wakes wakes
      rw [placeAfter, waiters_settle outside (by simp [stop])]
      exact enough
  | took removes split same =>
      cases nobody_wakes wakes
      rw [same.blockCnt]
      exact enough
  | waits mayWait blocks empty =>
      cases nobody_wakes wakes
      have room : world.fifo.blockCnt < intMax := by
        apply fits (acted ▸ mayWait)
        rw [empty] at represents
        exact Option.isNone_iff_eq_none.mp (out_is_none_iff represents)
      have counts : asInt (world.fifo.blockCnt + 1) = world.fifo.blockCnt + 1 :=
        as_int_of_bounds (by omega) (by omega)
      rw [placeAfter, waiters_join outside blocks]
      simp only [counts]
      omega
  | cleared replaces pushes =>
      cases nobody_wakes wakes
      rw [placeAfter, waiters_settle outside (by simp [stop])]
      exact enough
  | unblocked unblocks =>
      rw [unblock_outcome]
      exact (unblock_serves enough wakes).2
  | unblockedAll unblocks =>
      rcases unblock_all_serves enough wakes with ⟨nobody, positive⟩
      rw [unblock_all_outcome]
      split_ifs
      · rw [placeAfter, waiters_settle (wakes_outside wakes outside) (by simp [stop]), nobody]
        exact positive
      · rw [placeAfter, settle, nobody]
        exact positive
  | copied same =>
      cases nobody_wakes wakes
      rw [same]
      exact enough
  | _ =>
      cases nobody_wakes wakes
      exact enough

theorem did_pushes {action : Action Item} {op : TWlib.Lib.Deque.Op Item}
    (pushes : action.pushes left = some op) (did : Did left fifo links items action region after) :
    region.outcome = .goes .unblock := by
  cases did with
  | put _ accepts same puts longer => rfl
  | refused _ refuses => rfl
  | made => cases pushes
  | took removes split same =>
      rw [(removes_only removes).1] at pushes
      cases pushes
  | missed asks empty =>
      rcases asks with removes | peeks
      · rw [(removes_only removes).1] at pushes
        cases pushes
      · rw [(peeks_only peeks).1] at pushes
        cases pushes
  | waits mayWait blocks empty =>
      rw [(may_wait_only mayWait).1] at pushes
      cases pushes
  | peeked peeks split =>
      rw [(peeks_only peeks).1] at pushes
      cases pushes
  | cleared replaces none_pushed =>
      rw [none_pushed] at pushes
      cases pushes
  | unblocked unblocks => rcases unblocks with rfl | rfl <;> cases pushes
  | unblockedAll unblocks => rcases unblocks with rfl | rfl <;> cases pushes
  | _ => cases pushes

theorem step_one (counted : (waiters world.threads : Int) ≤ world.fifo.blockCnt)
    (step : Step left world event next) (unblocks : event.action = .enter .unblock ∨
      event.action = .resume .unblock) :
    waiters next.threads = waiters world.threads - 1 := by
  have region : ∀ {thread threads i}, (∀ waiter, thread = some waiter →
      stop waiter.job ≠ .newdataCond) →
      Acts stop world.threads i thread (world.fifo.unblock world.links).wake
        (placeAfter (world.fifo.unblock world.links).outcome) threads →
      waiters threads = waiters world.threads - 1 := by
    rintro thread threads i elsewhere ⟨stands, woken⟩
    have same := waiters_elsewhere stands elsewhere
    rw [unblock_outcome, ← same]
    rw [← same] at counted
    exact (unblock_serves counted woken).1
  cases step with
  | enter ran acts =>
      rcases unblocks with same | same
      · cases same
        cases ran
        exact region (fun _ same => by cases same) acts
      · cases same
  | resume ran acts =>
      rcases unblocks with same | same
      · cases same
      · cases same
        cases ran
        refine region (fun waiter found => ?_) acts
        cases found
        simp [stop]
  | copy whole ran acts => rcases unblocks with same | same <;> cases same
  | expire limited ran acts => rcases unblocks with same | same <;> cases same

theorem step_all (counted : (waiters world.threads : Int) ≤ world.fifo.blockCnt)
    (step : Step left world event next) (unblocks : event.action = .enter .unblockAll ∨
      ∃ assigning, event.action = .resume (.unblockAll assigning)) :
    waiters next.threads = 0 := by
  have region : ∀ {thread threads i} (assigning : Bool),
      Acts stop world.threads i thread (world.fifo.unblockAll world.links assigning).wake
        (placeAfter (world.fifo.unblockAll world.links assigning).outcome) threads →
        waiters threads = 0 := by
    rintro thread threads i assigning ⟨stands, woken⟩
    have fewer := waiters_leave stands
    have served := (unblock_all_serves (by omega) woken).1
    rw [unblock_all_outcome]
    split_ifs
    · rw [placeAfter, waiters_settle (wakes_outside woken (left_outside stands)) (by simp [stop])]
      exact served
    · exact served
  cases step with
  | enter ran acts =>
      rcases unblocks with same | ⟨assigning, same⟩
      · cases same
        cases ran
        exact region false acts
      · cases same
  | resume ran acts =>
      rcases unblocks with same | ⟨assigning, same⟩
      · cases same
      · cases same
        cases ran
        exact region assigning acts
  | copy whole ran acts => rcases unblocks with same | ⟨_, same⟩ <;> cases same
  | expire limited ran acts => rcases unblocks with same | ⟨_, same⟩ <;> cases same

/-! ## Runs -/

/-- The queue is sound, and nobody waits who is not counted. -/
structure Counted (world : World Item) : Prop where
  sound : ∃ cells items, Sound world cells items
  counted : (waiters world.threads : Int) ≤ world.fifo.blockCnt

theorem step_serves (holds : Counted world) (filled : event.action ≠ .copy [])
    (step : Step left world event next) :
    Serves left world event next := by
  rcases holds with ⟨⟨cells, items, sound⟩, counted⟩
  refine ⟨step_one counted step, step_all counted step, fun adds => ?_⟩
  rcases step_cases sound filled step with ⟨thread, region, threads, now, after, stood, did,
    acts, rfl, -, -⟩
  rcases Option.isSome_iff_exists.mp adds with ⟨op, pushes⟩
  rw [acts_job acts, if_pos rfl, did_pushes pushes did]
  rfl

theorem step_counts (holds : Counted world) (filled : event.action ≠ .copy [])
    (fits : Fits world event) (step : Step left world event next) : Counted next := by
  rcases holds with ⟨⟨cells, items, sound⟩, counted⟩
  rcases step_cases sound filled step with ⟨thread, region, threads, now, after, stood, did, acts,
    rfl, -, sound'⟩
  exact ⟨⟨now, after, sound'⟩, did_counts counted fits sound.represents did acts⟩

/-- A wait that ends by itself takes one thread out of the count and leaves the count. -/
theorem ends_counts (holds : Counted world) (ends : Ends world next) : Counted next := by
  rcases holds with ⟨⟨cells, items, sound⟩, counted⟩
  cases ends with
  | ends stands waits =>
      rename_i i place
      have jobs : ∀ j, jobAt (world.threads.set i (some ⟨place, true⟩)) j =
          jobAt world.threads j := by
        intro j
        rw [job_at_set stands]
        split_ifs with same
        · rw [same, job_at_of_present stands]
          rfl
        · rfl
      refine ⟨⟨cells, items, sound.represents, ?_, ?_⟩, ?_⟩
      · intro j newlink theD has
        exact sound.apart j newlink theD (by rwa [jobs] at has)
      · intro j k newlink theD other first second
        exact sound.distinct j k newlink theD other (by rwa [jobs] at first)
          (by rwa [jobs] at second)
      · have set := waiting_set stop stands (some ⟨place, true⟩) false .newdataCond
        have fewer : waiters (world.threads.set i (some ⟨place, true⟩)) ≤
            waiters world.threads := by
          simp [waits] at set
          unfold waiters
          omega
        simp only
        omega

/-- No assignment from an empty queue, which leaves no queue, and room in the count. -/
def Proper (world : World Item) (event : Event Item) : Prop :=
  event.action ≠ .copy [] ∧ Fits world event

theorem waking_run_counts {count : Nat} (run : WakingRun left Proper (World.new count) world) :
    Counted world := by
  induction run with
  | start =>
      refine ⟨⟨[], [], sound_new count⟩, ?_⟩
      simp [World.new, waiters, waiting, Fifo.new]
  | step run allowed step ih => exact step_counts ih allowed.1 allowed.2 step
  | ends run ends ih => exact ends_counts ih ends

/-- In every run of any number of threads, with waits that end by themselves at any point, and in
which no thread begins to wait at `INT_MAX`, the threads that wait and were not woken are at most
`_block_cnt`, and no step that has to wake one of them passes it by. -/
theorem safe_fifo_counts_waiters {count : Nat}
    (run : WakingRun left Proper (World.new count) world) :
    (waiters world.threads : Int) ≤ world.fifo.blockCnt ∧
      ∀ event next, event.action ≠ .copy [] → Step left world event next →
      Serves left world event next := by
  have holds := waking_run_counts run
  exact ⟨holds.counted, fun event next filled step => step_serves holds filled step⟩

theorem waking_of_run {first : World Item} {events : List (Event Item)}
    (run : Run left permitted first events world) : WakingRun left permitted first world := by
  induction run with
  | start => exact .start
  | step run allowed step ih => exact .step ih allowed step

/-- Two threads wait, and the wait of the first ends by itself before the signal of an `add`. -/
def twoWait : List (Turn Nat) :=
  [.enter 0 (.removeOrBlock true), .enter 1 (.peekOrBlock false), .enter 2 (.add 7), .resume 2 none]

def twoWaitEvents : List (Event Nat) :=
  [⟨0, .enter (.removeOrBlock true), true, .goes (.removeOrBlock true)⟩,
    ⟨1, .enter (.peekOrBlock false), true, .goes (.peekOrBlock false)⟩,
    ⟨2, .enter (.add 7), true, .goes (.add 0 7)⟩, ⟨2, .resume (.add 0 7), true, .goes .unblock⟩]

def twoWaiting : World Nat :=
  ⟨⟨true, some 0, some 0, 1, 2⟩, ⟨[some ⟨7, none⟩]⟩,
    [some ⟨.removeOrBlock true, false⟩, some ⟨.peekOrBlock false, false⟩, some ⟨.unblock, false⟩]⟩

def oneWoken : World Nat :=
  { twoWaiting with threads := twoWaiting.threads.set 0 (some ⟨.removeOrBlock true, true⟩) }

theorem one_woken_run : WakingRun id Proper (World.new 3) oneWoken := by
  have played : playAll (play id) (World.new 3) twoWait = some (twoWaitEvents, twoWaiting) := rfl
  have fits : ∀ act ∈ trail (play id) (World.new 3) twoWait, Fits act.1 act.2 := by decide
  have filled : ∀ event ∈ twoWaitEvents, event.action ≠ .copy [] := by simp [twoWaitEvents]
  have run : Run id Proper (World.new 3) twoWaitEvents twoWaiting :=
    play_all_executes play_step .start played fun act member =>
      ⟨filled _ (play_all_trail played ▸ List.mem_map_of_mem member), fits act member⟩
  exact .ends (waking_of_run run) (.ends rfl rfl)

theorem safe_fifo_counts_waiters_woken : waiters oneWoken.threads = 1 ∧ oneWoken.fifo.blockCnt = 2 ∧
    (waiters oneWoken.threads : Int) ≤ oneWoken.fifo.blockCnt ∧
      ∀ event next, event.action ≠ .copy [] → Step id oneWoken event next →
      Serves id oneWoken event next :=
  ⟨rfl, rfl, safe_fifo_counts_waiters one_woken_run⟩

/-! ## Waits that run into their limit -/

/-- An empty queue, the count of which timed-out waits have raised. -/
def drifted (blockCnt : Int) (threads : Threads (Place Nat)) : World Nat :=
  ⟨{ Fifo.new with blockCnt }, Store.empty, threads⟩

/-- A timed `removeOrBlock` or its time limit. -/
def onlyTimed (event : Event Nat) : Prop :=
  event.action = .enter (.removeOrBlock true) ∨ event.action = .expire (.removeOrBlock true)

theorem begins_to_wait (blockCnt : Int) :
    Step id (drifted blockCnt [none, none])
      ⟨0, .enter (.removeOrBlock true), true, .goes (.removeOrBlock true)⟩
      (drifted (asInt (blockCnt + 1)) [some ⟨.removeOrBlock true, false⟩, none]) :=
  play_step (drifted blockCnt [none, none]) (.enter 0 (.removeOrBlock true)) _ _ rfl

theorem gives_up (blockCnt : Int) :
    Step id (drifted blockCnt [some ⟨.removeOrBlock true, false⟩, none])
      ⟨0, .expire (.removeOrBlock true), true, .returns false none⟩
      (drifted blockCnt [none, none]) :=
  play_step (drifted blockCnt [some ⟨.removeOrBlock true, false⟩, none]) (.expire 0) _ _ rfl

/-- Each timed-out wait leaves the count higher by one. -/
theorem drifts (waits : Nat) (room : (waits : Int) ≤ intMax) :
    WakingRun id (fun _ event => onlyTimed event) (World.new 2) (drifted waits [none, none]) := by
  induction waits with
  | zero => exact .start
  | succ waits ih =>
      have before := ih (by omega)
      have counts : asInt ((waits : Int) + 1) = ((waits + 1 : Nat) : Int) :=
        (as_int_of_bounds (by omega) (by omega)).trans (by omega)
      have begun := WakingRun.step before (.inl rfl) (begins_to_wait waits)
      rw [counts] at begun
      exact .step begun (.inr rfl) (gives_up _)

/-- After `INT_MAX` timed-out waits the next thread that waits is not counted, and an `unblock()`
passes it by. -/
theorem safe_fifo_not_always_counts_waiters :
    WakingRun id (fun _ event => onlyTimed event) (World.new 2)
        (drifted (-intMax - 1) [some ⟨.removeOrBlock true, false⟩, none]) ∧
      ¬ (waiters (drifted (-intMax - 1) [some ⟨.removeOrBlock true, false⟩, none]).threads : Int) ≤
        (drifted (-intMax - 1) [some ⟨.removeOrBlock true, false⟩, none]).fifo.blockCnt ∧
      Step id (drifted (-intMax - 1) [some ⟨.removeOrBlock true, false⟩, none])
        ⟨1, .enter .unblock, true, .returns true none⟩
        (drifted (-intMax - 1) [some ⟨.removeOrBlock true, false⟩, none]) := by
  refine ⟨?_, by decide, ?_⟩
  · have before := drifts 2147483647 (by decide)
    have begun := WakingRun.step before (.inl rfl) (begins_to_wait intMax)
    rwa [as_int_max_succ] at begun
  · exact play_step (drifted (-intMax - 1) [some ⟨.removeOrBlock true, false⟩, none])
      (.enter 1 .unblock) _ _ rfl

end TWlib.SafeFifoWaiters
