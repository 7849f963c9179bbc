import TWlib.SafeFifoWaiters

/-!
# Wake-ups of a thread-safe FIFO

A thread that waits for new data without a signal is left waiting only if there are no more
elements than threads that were signalled or are about to signal. Removals, and additions with
the `unblock()` that follows them, keep it so. A thread that takes a signal with it and leaves
the element does not, and neither does an assignment, which brings elements and signals nobody.
-/

namespace TWlib.SafeFifoWakeups

open TWlib.Lib.CellStore TWlib.Lib.LinkedChain TWlib.Lib.MachineInt TWlib.Lib.ValueChain
  TWlib.Lib.Monitor TWlib.SafeFifo
  TWlib.SafeFifoRegions TWlib.SafeFifoThreads TWlib.SafeFifoWaiters

set_option autoImplicit false

variable {Item : Type*}

/-! ## Waiting in vain -/

/-- An element is there, a thread waits for one without a signal, and nobody will wake it: the
others are outside of the queue or wait as well. -/
structure Stranded (world : World Item) : Prop where
  enabled : world.fifo.enabled = true
  filled : world.fifo.out ≠ none
  waits : ∃ (i : Nat) (place : Place Item), world.threads[i]? = some (some ⟨place, false⟩) ∧
    stop place = .newdataCond
  quiet : ∀ waiter, some waiter ∈ world.threads → stop waiter.job = .newdataCond ∧
    waiter.signalled = false

/-- How many threads stand before the region of `unblock()`. -/
def pending (threads : Threads (Place Item)) : Nat := standing stop .unblock threads

/-- How many threads that wait were signalled, or will be. -/
def called (threads : Threads (Place Item)) : Nat :=
  waiting stop true .newdataCond threads + pending threads

/-- The condition under which a step loses no wake-up. It is about the steps that do not pass a
wake-up on: a signalled thread ends its wait and takes nothing (a `peekOrBlock` that goes on, or a
time limit), or elements are copied in. Then, if a thread waits without a signal, the others that
were or will be signalled must be enough for the elements. And a thread that begins to wait must
find room in the count. -/
def Heeds (world : World Item) (event : Event Item) : Prop :=
  match event.action with
  | .enter (.removeOrBlock _) | .enter (.peekOrBlock _) =>
      world.fifo.out = none → world.fifo.blockCnt < intMax
  | .resume (.peekOrBlock _) | .expire _ =>
      (∃ place, world.threads[event.thread]? = some (some ⟨place, true⟩)) →
        0 < waiting stop false .newdataCond world.threads → world.fifo.remain < called world.threads
  | .copy given =>
      given ≠ [] ∧ (0 < waiting stop false .newdataCond world.threads →
        given.length ≤ called world.threads)
  | _ => True

/-! ## The invariant -/

variable {left : Item → Item} {fifo : Fifo} {links : Links Item} {items after : List Item}
  {action : Action Item} {threads woken : Threads (Place Item)} {region : Region Item} {i : Nat}
  {thread : Option (Waiter (Place Item))} {flag : Bool}

/-- Whoever waits without a signal is in `_block_cnt`, and is covered. -/
structure Attended (fifo : Fifo) (items : List Item) (threads : Threads (Place Item)) : Prop where
  counted : (waiting stop false .newdataCond threads : Int) ≤ fifo.blockCnt
  covered : Covered stop .newdataCond ((items.length : Int) - pending threads) threads

theorem stranded_not_attended {world : World Item} {cells : List Nat}
    (represents : Represents world.fifo world.links cells items) (stranded : Stranded world) :
    ¬ Attended world.fifo items world.threads := by
  intro attended
  have none_called : waiting stop true .newdataCond world.threads = 0 := by
    rw [waiting, List.countP_eq_zero]
    intro thread member
    cases thread with
    | none => simp
    | some waiter => simp [(stranded.quiet waiter member).2]
  have none_pending : pending world.threads = 0 := by
    rw [pending, standing, List.countP_eq_zero]
    intro thread member
    cases thread with
    | none => simp
    | some waiter => simp [(stranded.quiet waiter member).1]
  rcases stranded.waits with ⟨i, place, present, waits⟩
  have someone : 0 < waiting stop false .newdataCond world.threads := by
    apply List.countP_pos_iff.mpr
    exact ⟨_, List.mem_of_getElem? present, by simp [waits]⟩
  have enough := attended.covered someone
  have empty : items.length = 0 := by
    rw [none_called, none_pending] at enough
    omega
  apply stranded.filled
  have noItems : items = [] := List.length_eq_zero_iff.mp empty
  have isNone := out_is_none_iff represents
  rw [noItems] at isNone
  simpa using isNone

/-! ## Counting the threads -/

theorem waiting_elsewhere (stands : threads[i]? = some thread)
    (elsewhere : ∀ waiter, thread = some waiter → stop waiter.job = .mutex) (flag : Bool)
    {cond : Stop} (counts : cond ≠ .mutex) :
    waiting stop flag cond (threads.set i none) = waiting stop flag cond threads := by
  have set := waiting_set stop stands none flag cond
  cases thread with
  | none => simpa using set
  | some waiter =>
      have different : ¬ stop waiter.job = cond :=
        fun same => counts (same.symm.trans (elsewhere waiter rfl))
      simpa [different] using set

theorem stands_apart {cond : Stop} (stands : ∀ waiter, thread = some waiter →
    stop waiter.job = cond)
    (different : cond ≠ .unblock) : ∀ waiter, thread = some waiter → stop waiter.job ≠ .unblock :=
  fun waiter same here => different ((stands waiter same).symm.trans here)

theorem pending_elsewhere (stands : threads[i]? = some thread)
    (elsewhere : ∀ waiter, thread = some waiter → stop waiter.job ≠ .unblock) :
    pending (threads.set i none) = pending threads := by
  have set := standing_set stop stands none .unblock
  cases thread with
  | none => simpa [pending] using set
  | some waiter =>
      have different := elsewhere waiter rfl
      simpa [pending, different] using set

theorem covered_settle {place : Place Item} (outside : threads[i]? = some none)
    (stands : stop place ≠ .newdataCond)
    (covered : Covered stop .newdataCond
      ((items.length : Int) - pending threads - if stop place = .unblock then 1 else 0) threads) :
    Covered stop .newdataCond ((items.length : Int) - pending (settle threads i (some place)))
      (settle threads i (some place)) := by
  have same : ∀ flag, waiting stop flag .newdataCond (threads.set i (some ⟨place, false⟩)) =
      waiting stop flag .newdataCond threads := by
    intro flag
    rw [waiting_join outside]
    simp [stands]
  have more : pending (threads.set i (some ⟨place, false⟩)) =
      pending threads + if stop place = .unblock then 1 else 0 := by
    have settled : standing stop .unblock (settle threads i (some place)) =
        standing stop Stop.unblock threads + if (some place).any fun job =>
        stop job = Stop.unblock then 1 else 0 :=
      standing_settle outside (some place) Stop.unblock
    simpa [pending, settle] using settled
  unfold Covered
  rw [settle, same, same, more]
  intro someone
  have before := covered someone
  split_ifs at before ⊢ <;> omega

/-! ## Leaving a place -/

theorem covered_outside (attended : Attended fifo items threads)
    (stands : threads[i]? = some thread) (alone : thread = none) :
    Covered stop .newdataCond ((items.length : Int) - pending (threads.set i none))
    (threads.set i none) := by
  rw [alone] at stands
  rw [set_outside stands]
  exact attended.covered

theorem covered_elsewhere (attended : Attended fifo items threads)
    (stands : threads[i]? = some thread) (elsewhere : ∀ waiter, thread = some waiter →
      stop waiter.job = .mutex) :
    Covered stop .newdataCond ((items.length : Int) - pending (threads.set i none))
    (threads.set i none) := by
  have apart := stands_apart elsewhere (by decide)
  unfold Covered
  rw [waiting_elsewhere stands elsewhere false (by decide),
    waiting_elsewhere stands elsewhere true (by decide),
    pending_elsewhere stands apart]
  exact attended.covered

theorem covered_take (attended : Attended fifo items threads) (stands : threads[i]? = some thread)
    (waits : ∀ waiter, thread = some waiter → stop waiter.job = .newdataCond) :
    Covered stop .newdataCond ((items.length : Int) - pending (threads.set i none) - 1)
    (threads.set i none) := by
  have apart := stands_apart waits (by decide)
  rw [pending_elsewhere stands apart]
  cases thread with
  | none =>
      rw [set_outside stands]
      exact covered_less attended.covered (by omega)
  | some waiter =>
      have left := covered_leave attended.covered stands
      rwa [if_pos (waits waiter rfl)] at left

theorem covered_spare (attended : Attended fifo items threads) (stands : threads[i]? = some thread)
    (waits : ∀ waiter, thread = some waiter → stop waiter.job = .newdataCond)
    (spare : (∃ place, thread = some ⟨place, true⟩) → 0 < waiting stop false .newdataCond threads →
      (items.length : Int) < called threads) :
    Covered stop .newdataCond ((items.length : Int) - pending (threads.set i none))
    (threads.set i none) := by
  have apart := stands_apart waits (by decide)
  rw [pending_elsewhere stands apart]
  cases thread with
  | none =>
      rw [set_outside stands]
      exact attended.covered
  | some waiter =>
      rcases waiter with ⟨place, flag⟩
      have here : stop place = .newdataCond := waits _ rfl
      have unmarked := waiting_leave stop stands false .newdataCond
      have marked := waiting_leave stop stands true .newdataCond
      intro someone
      cases flag with
      | false =>
          simp only [here, true_and, if_true, Bool.false_eq_true, if_false,
            Nat.add_zero] at unmarked marked
          have before := attended.covered (by omega)
          omega
      | true =>
          simp only [here, true_and, if_true, Bool.true_eq_false, if_false,
            Nat.add_zero] at unmarked marked
          have enough := spare ⟨place, rfl⟩ (by omega)
          simp only [called] at enough
          omega

theorem covered_unblock (attended : Attended fifo items threads)
    (stands : threads[i]? = some thread) (stood : ∀ waiter, thread = some waiter →
      stop waiter.job = .unblock) :
    Covered stop .newdataCond ((items.length : Int) - pending (threads.set i none) - 1)
    (threads.set i none) := by
  cases thread with
  | none =>
      rw [set_outside stands]
      exact covered_less attended.covered (by omega)
  | some waiter =>
      rcases waiter with ⟨place, flag⟩
      have here : stop place = .unblock := stood _ rfl
      have left := covered_leave attended.covered stands
      rw [if_neg (by simp [here])] at left
      apply covered_less left
      have set := standing_set stop stands none .unblock
      simp only [Option.any_some, here, decide_true, if_true, Option.any_none,
        Bool.false_eq_true, if_false,
        Nat.add_zero] at set
      simp only [pending]
      omega

/-! ## One step -/

theorem pushes_stands {op : TWlib.Lib.Deque.Op Item} (pushes : action.pushes left = some op)
    (stood : Stands action thread) : ∀ waiter, thread = some waiter → stop waiter.job = .mutex := by
  intro waiter same
  subst same
  cases action with
  | enter call => cases stood
  | resume place =>
      rcases stood with ⟨signalled, same⟩
      cases same
      cases place <;> first | rfl | cases pushes
  | copy given => cases pushes
  | expire place => cases pushes

theorem asks_stands (asks : action.removes = true ∨ action.peeks = true)
    (stood : Stands action thread) :
    ∀ waiter, thread = some waiter → stop waiter.job = .newdataCond := by
  intro waiter same
  subst same
  cases action with
  | enter call => cases stood
  | resume place =>
      rcases stood with ⟨signalled, same⟩
      cases same
      cases place <;> first | rfl | (rcases asks with asks | asks <;> cases asks)
  | copy given => rcases asks with asks | asks <;> cases asks
  | expire place => rcases asks with asks | asks <;> cases asks

theorem timed_stop {place : Place Item} (limited : timed place = true) :
    stop place = .newdataCond := by
  cases place <;> first | rfl | cases limited

theorem unblocks_stands (unblocks : action = .enter .unblock ∨ action = .resume .unblock)
    (stood : Stands action thread) : ∀ waiter, thread = some waiter →
    stop waiter.job = .unblock := by
  intro waiter same
  subst same
  rcases unblocks with rfl | rfl
  · cases stood
  · rcases stood with ⟨signalled, same⟩
    cases same
    rfl

/-- `unblock()`: a thread that stood before it need not be counted on any more. -/
theorem unblock_covers {links : Links Item}
    (counted : (waiting stop false .newdataCond threads : Int) ≤ fifo.blockCnt)
    (covered : Covered stop .newdataCond ((items.length : Int) - pending threads - 1) threads)
    (wakes : Wakes stop (fifo.unblock links).wake threads woken) :
    Covered stop .newdataCond ((items.length : Int) - pending woken) woken := by
  by_cases someone : fifo.blockCnt > 0
  · have unblocked : fifo.unblock links =
        ⟨{ fifo with blockCnt := fifo.blockCnt - 1 }, links, .signal .newdataCond,
          .returns true none⟩ := if_pos someone
    rw [unblocked] at wakes
    cases wakes with
    | signal signalled =>
        apply covered_less (covered_signal covered signalled)
        have same : pending woken = pending threads := standing_wakes (.signal signalled) .unblock
        rw [same]
        omega
  · have unblocked : fifo.unblock links = ⟨fifo, links, .nobody, .returns true none⟩ :=
      if_neg someone
    rw [unblocked] at wakes
    cases nobody_wakes wakes
    intro some_wait
    exfalso
    omega

/-- Nobody waits without a signal, as after `unblockAll()`. -/
theorem covered_nobody (supply : Int) (nobody : waiters threads = 0) :
    Covered stop .newdataCond supply threads := by
  intro someone
  exact absurd nobody (Nat.ne_of_gt someone)

/-- Where a step takes a signal and no element, one was to spare. -/
theorem heeds_spare {world : World Item} {event : Event Item} (heeds : Heeds world event)
    (acts : event.action.peeks = true ∨ ∃ place, event.action = .expire place)
    (stands : world.threads[event.thread]? = some thread) (stood : Stands event.action thread)
    (counted : world.fifo.remain = items.length) :
    (∃ place, thread = some ⟨place, true⟩) → 0 < waiting stop false .newdataCond world.threads →
      (items.length : Int) < called world.threads := by
  rintro ⟨place, rfl⟩ someone
  rw [← counted]
  unfold Heeds at heeds
  cases acted : event.action with
  | enter call =>
      rw [acted] at stood
      cases stood
  | resume other =>
      rw [acted] at heeds acts
      cases other with
      | peekOrBlock limited => exact heeds ⟨place, stands⟩ someone
      | _ => rcases acts with peeks | ⟨_, same⟩ <;> first | cases peeks | cases same
  | copy given =>
      rw [acted] at acts
      rcases acts with peeks | ⟨_, same⟩
      · cases peeks
      · cases same
  | expire other =>
      rw [acted] at heeds
      exact heeds ⟨place, stands⟩ someone

theorem heeds_fits {world : World Item} {event : Event Item} (heeds : Heeds world event) :
    Fits world event := by
  intro mayWait
  unfold Heeds at heeds
  unfold Action.mayWait at mayWait
  split at mayWait
  · rename_i acted
    rwa [acted] at heeds
  · rename_i acted
    rwa [acted] at heeds
  · cases mayWait

theorem covered_copy {given : List Item} (stands : threads[i]? = some thread)
    (elsewhere : ∀ waiter, thread = some waiter → stop waiter.job = .mutex)
    (enough : 0 < waiting stop false .newdataCond threads → given.length ≤ called threads) :
    Covered stop .newdataCond ((given.length : Int) - pending (threads.set i none))
    (threads.set i none) := by
  intro someone
  have unmarked := waiting_elsewhere stands elsewhere false (show Stop.newdataCond ≠
    .mutex by decide)
  have marked := waiting_elsewhere stands elsewhere true (show Stop.newdataCond ≠ .mutex by decide)
  have few := enough (unmarked ▸ someone)
  rw [marked, pending_elsewhere stands (stands_apart elsewhere (by decide))]
  simp only [called] at few
  omega

/-- Every step that heeds the waiting threads keeps them covered. -/
theorem did_covers {world : World Item} {event : Event Item}
    (attended : Attended world.fifo items world.threads)
    (counted : world.fifo.remain = items.length) (stood : Stands event.action thread)
    (did : Did left world.fifo world.links items event.action region after)
    (acts : Acts stop world.threads event.thread thread region.wake (placeAfter region.outcome)
      threads) (heeds : Heeds world event) :
    Covered stop .newdataCond ((after.length : Int) - pending threads) threads := by
  rcases acts with ⟨stands, wakes⟩
  have outside : (world.threads.set event.thread none)[event.thread]? = some none :=
    left_outside stands
  have fewer : waiters (world.threads.set event.thread none) ≤ waiters world.threads :=
    waiters_leave stands
  have enough : (waiters (world.threads.set event.thread none) : Int) ≤ world.fifo.blockCnt :=
    Int.le_trans (Int.ofNat_le.mpr fewer) attended.counted
  generalize acted : event.action = action at did
  rw [acted] at stood
  cases did with
  | made =>
      cases nobody_wakes wakes
      apply covered_settle outside (by simp [stop])
      exact covered_less (covered_outside attended stands stood) (by simp [stop])
  | put pushes accepts same puts longer =>
      cases nobody_wakes wakes
      apply covered_settle outside (by simp [stop])
      apply covered_less (covered_elsewhere attended stands (pushes_stands pushes stood))
      simp only [stop, if_true, longer]
      omega
  | refused pushes refuses =>
      cases nobody_wakes wakes
      apply covered_settle outside (by simp [stop])
      apply covered_less (covered_elsewhere attended stands (pushes_stands pushes stood))
      simp only [stop, if_true]
      omega
  | took removes split same =>
      cases nobody_wakes wakes
      apply covered_less (covered_take attended stands (asks_stands (.inl removes) stood))
      simp only [split, List.length_cons, placeAfter, settle]
      omega
  | missed asks empty =>
      cases nobody_wakes wakes
      apply covered_empty
      simp only [empty, List.length_nil]
      omega
  | waits mayWait blocks empty =>
      apply covered_empty
      simp only [empty, List.length_nil]
      omega
  | peeked peeks split =>
      cases nobody_wakes wakes
      apply covered_spare attended stands (asks_stands (.inr peeks) stood)
      exact heeds_spare heeds (.inl (acted ▸ peeks)) stands (acted ▸ stood) counted
  | cleared replaces pushes =>
      apply covered_empty
      simp only [List.length_nil]
      omega
  | enabled =>
      cases nobody_wakes wakes
      exact covered_outside attended stands stood
  | disabled =>
      cases nobody_wakes wakes
      exact covered_outside attended stands stood
  | unblocked unblocks =>
      rw [unblock_outcome]
      exact unblock_covers enough (covered_unblock attended stands
        (unblocks_stands unblocks stood)) wakes
  | unblockedAll unblocks =>
      have nobody := (unblock_all_serves enough wakes).1
      rw [unblock_all_outcome]
      split_ifs with assigning
      · apply covered_settle (wakes_outside wakes outside) (by simp [stop])
        exact covered_nobody _ nobody
      · exact covered_nobody _ nobody
  | copied same =>
      cases nobody_wakes wakes
      have elsewhere : ∀ waiter, thread = some waiter → stop waiter.job = .mutex := by
        rcases stood with ⟨signalled, rfl⟩
        intro waiter same
        cases same
        rfl
      unfold Heeds at heeds
      rw [acted] at heeds
      exact covered_copy stands elsewhere heeds.2
  | expired =>
      cases nobody_wakes wakes
      have waits : ∀ waiter, thread = some waiter → stop waiter.job = .newdataCond := by
        rcases stood with ⟨limited, signalled, rfl⟩
        intro waiter same
        cases same
        exact timed_stop limited
      exact covered_spare attended stands waits
        (heeds_spare heeds (.inr ⟨_, acted⟩) stands (acted ▸ stood) counted)

/-! ## Runs -/

variable {world next : World Item} {cells : List Nat} {event : Event Item}
    {events : List (Event Item)}

theorem step_attends (sound : Sound world cells items)
    (attended : Attended world.fifo items world.threads) (heeds : Heeds world event)
    (step : Step left world event next) :
    ∃ now after, Sound next now after ∧ Attended next.fifo after next.threads := by
  have filled : event.action ≠ .copy [] := by
    intro same
    unfold Heeds at heeds
    rw [same] at heeds
    exact heeds.1 rfl
  rcases step_cases sound filled step with
    ⟨thread, region, threads, now, after, stood, did, acts, rfl, label, sound'⟩
  exact ⟨now, after, sound',
    { counted := did_counts attended.counted (heeds_fits heeds) sound.represents did acts
      covered := did_covers attended sound.represents.counted stood did acts heeds }⟩

theorem run_attends {count : Nat} (run : Run left Heeds (World.new count) events world) :
    ∃ cells items, Sound world cells items ∧ Attended world.fifo items world.threads := by
  induction run with
  | start =>
      have nobody : waiting stop false .newdataCond (World.new count : World Item).threads = 0 := by
        simp [World.new, waiting]
      exact ⟨[], [], sound_new count, Int.le_of_eq (congrArg Int.ofNat nobody),
        covered_nobody _ nobody⟩
  | step run heeds step ih =>
      rcases ih with ⟨cells, items, sound, attended⟩
      exact step_attends sound attended heeds step

/-- In every run of any number of threads whose steps heed the waiting threads, no thread is ever
left to wait without a signal, with an element there and nobody in the queue to wake it. -/
theorem safe_fifo_loses_no_wakeup (count : Nat) {events : List (Event Item)} {world : World Item}
    (run : Run id Heeds (World.new count) events world) : ¬ Stranded world := by
  rcases run_attends run with ⟨cells, items, sound, attended⟩
  exact fun stranded => stranded_not_attended sound.represents stranded attended

theorem safe_fifo_loses_no_wakeup_hand_over : ¬ Stranded handedOver := by
  have played : playAll (play id) (World.new 2) handOver = some (handOverEvents, handedOver) := rfl
  have fits : ∀ act ∈ trail (play id) (World.new 2) handOver, Fits act.1 act.2 := by decide
  have heeds : ∀ act ∈ trail (play id) (World.new 2) handOver, Heeds act.1 act.2 := by
    intro act member
    have room := fits act member
    have listed : act.2 ∈ handOverEvents := play_all_trail played ▸ List.mem_map_of_mem member
    simp only [handOverEvents, List.mem_cons, List.not_mem_nil, or_false] at listed
    unfold Heeds
    unfold Fits at room
    rcases listed with same | same | same | same | same <;> rw [same] at room ⊢
    · exact room rfl
    all_goals trivial
  exact safe_fifo_loses_no_wakeup 2 (play_all_executes play_step .start played heeds)

/-! ## Lost wake-ups -/

/-- The operations that add, take, look and replace; an assignment, which is one of them, can be
told. -/
def listed : Action Item → Bool
  | .enter .peek | .enter .enable | .enter .disable | .enter .unblock | .enter .unblockAll => false
  | _ => true

/-- The signal of an `add` goes to a thread that peeks; one that removes waits on. -/
def peekTakesSignal : List (Turn Nat) :=
  [.enter 0 (.removeOrBlock false), .enter 1 (.peekOrBlock false), .enter 2 (.add 7),
    .resume 2 none,
    .resume 2 (some 1), .resume 1 none]

def peekTakesSignalEvents : List (Event Nat) :=
  [⟨0, .enter (.removeOrBlock false), true, .goes (.removeOrBlock false)⟩,
    ⟨1, .enter (.peekOrBlock false), true, .goes (.peekOrBlock false)⟩,
    ⟨2, .enter (.add 7), true, .goes (.add 0 7)⟩, ⟨2, .resume (.add 0 7), true, .goes .unblock⟩,
    ⟨2, .resume .unblock, true, .returns true none⟩,
    ⟨1, .resume (.peekOrBlock false), true, .returns true (some 7)⟩]

def oneLinkWaiting : World Nat :=
  ⟨⟨true, some 0, some 0, 1, 1⟩, ⟨[some ⟨7, none⟩]⟩,
    [some ⟨.removeOrBlock false, false⟩, none, none]⟩

/-- An assignment has cleared the queue and woken everybody when another thread begins to wait. -/
def waitDuringAssignment : List (Turn Nat) :=
  [.enter 0 .assign, .resume 0 none, .enter 1 (.removeOrBlock false)]

def waitDuringAssignmentEvents : List (Event Nat) :=
  [⟨0, .enter .assign, true, .goes (.unblockAll true)⟩,
    ⟨0, .resume (.unblockAll true), true, .goes .copyLinks⟩,
    ⟨1, .enter (.removeOrBlock false), true, .goes (.removeOrBlock false)⟩]

def beforeCopying : World Nat :=
  ⟨⟨true, none, none, 0, 1⟩, ⟨[]⟩, [some ⟨.copyLinks, false⟩, some ⟨.removeOrBlock false, false⟩]⟩

def oneLink : Source Nat := ⟨⟨true, some 0, some 0, 1, 0⟩, ⟨[some ⟨7, none⟩]⟩, none⟩

def copiedRegion : Region Nat :=
  ⟨⟨true, some 0, some 0, 1, 1⟩, ⟨[some ⟨7, none⟩]⟩, .nobody, .returns true none⟩

theorem one_link_represents : Represents oneLink.fifo oneLink.links [0] [7] :=
  ⟨⟨⟨rfl, none, rfl, rfl⟩, rfl⟩, rfl, rfl⟩

/-- Both ways to lose a wake-up, the one without an assignment and the other without a peek. -/
theorem safe_fifo_may_lose_wakeup :
    (∃ events world, Run id (fun _ event => listed event.action = true ∧
      event.action.assigns = false)
      (World.new 3 : World Nat) events world ∧ Stranded world) ∧
    ∃ events world, Run id (fun _ event => listed event.action = true ∧ event.action.peeks = false)
      (World.new 2 : World Nat) events world ∧ Stranded world := by
  constructor
  · have played : playAll (play id) (World.new 3) peekTakesSignal = some (peekTakesSignalEvents,
      oneLinkWaiting) := rfl
    refine ⟨_, oneLinkWaiting, play_all_run play_step played ?_, rfl, by decide,
      ⟨0, _, rfl, rfl⟩, ?_⟩
    · simp [peekTakesSignalEvents, listed, Action.assigns]
    · simp [oneLinkWaiting, stop]
  · have played : playAll (play id) (World.new 2) waitDuringAssignment =
        some (waitDuringAssignmentEvents, beforeCopying) := rfl
    have before : Run id (fun _ event => listed event.action = true ∧ event.action.peeks = false)
        (World.new 2 : World Nat) waitDuringAssignmentEvents beforeCopying :=
      play_all_run play_step played (by simp [waitDuringAssignmentEvents, listed, Action.peeks])
    have stands : beforeCopying.threads[0]? = some (some ⟨.copyLinks, false⟩) := rfl
    have assigned : beforeCopying.fifo.assign id beforeCopying.links oneLink =
        some (copiedRegion, oneLink.links) := rfl
    refine ⟨_, _, .step before ⟨rfl, rfl⟩ (.copy one_link_represents assigned
      (.region stands .nobody)), rfl, by decide,
      ⟨1, _, rfl, rfl⟩, ?_⟩
    simp [beforeCopying, copiedRegion, placeAfter, settle, stop]

end TWlib.SafeFifoWakeups
