import TWlib.CircularThreads

/-!
# No wake-up of the circular queue is lost

The elements are covered by the signals on their way to consumers, and the free
slots by those on their way to producers. A region takes one of what its call waits
for or finds that there is none, and signals one more of the other kind. Waits have
no time limit here: a thread that gives up would take its signal with it.
-/

namespace TWlib.CircularWakeups

open TWlib.Lib.Monitor TWlib.CircularBuffer TWlib.CircularThreads

set_option autoImplicit false

variable {Item : Type*} {husk : Item → Item} {queue : Circular Item} {items after : List Item}
  {call : Call Item} {job : Job Item} {threads woken : Threads (Job Item)}
  {region : Region Item} {i : Nat} {thread : Option (Waiter (Job Item))}

def Call.untimed : Call Item → Prop
  | .blocking job => job.timed = false
  | _ => True

/-- What is left of the supply for others, when `call` takes one of what it needs. -/
def leftFor (call : Call Item) (queue : Circular Item) (items : List Item) (cond : Cond) : Int :=
  if call.cond = some cond then supply queue items cond - 1 else supply queue items cond

theorem blocking_cond (job : Job Item) : (Call.blocking job).cond = some job.cond := by
  cases job <;> rfl

/-! ## What a region does to the permits -/

/-- What there is of the thing waited for on `cond`, as the semaphore counts it. -/
def available (queue : Circular Item) : Cond → Int
  | .gtZeroCond => queue.sema.countNoBlock
  | .decrementCond => queue.remain

theorem available_eq (held : Represents queue items) (cond : Cond) :
    available queue cond = supply queue items cond := by
  have count := held.count
  cases cond with
  | gtZeroCond => exact count
  | decrementCond => exact remain_eq held

/-- A region has changed the number of permits, and no size. -/
structure Shifts (change : Int) (queue after : Circular Item) : Prop where
  cnt : after.sema.cnt = queue.sema.cnt + change
  semaSize : after.sema.size = queue.sema.size
  size : after.size = queue.size

/-- What a region does to the permits, wherever the indices are. -/
inductive Counts (queue : Circular Item) (call : Call Item) : Region Item → Prop where
  | put {after : Circular Item} {arg : Option Item} (takes : call.cond = some .gtZeroCond)
      (room : 1 ≤ queue.sema.cnt) (shifts : Shifts (-1) queue after) :
      Counts queue call ⟨after, .signal .decrementCond, .returns true arg⟩
  | took {after : Circular Item} {item : Item} (takes : call.cond = some .decrementCond)
      (filled : queue.sema.cnt < queue.size) (shifts : Shifts 1 queue after) :
      Counts queue call ⟨after, .signal .gtZeroCond, .returns true (some item)⟩
  | refused {cond : Cond} (takes : call.cond = some cond) (short : available queue cond ≤ 0) :
      Counts queue call ⟨queue, .nobody, .returns false none⟩
  | waits {job : Job Item} (blocking : call = .blocking job)
      (short : available queue job.cond ≤ 0) :
      Counts queue call ⟨queue, .nobody, .waits job.cond⟩
  | unblocked (takes : call.cond = none) : Counts queue call ⟨queue, .broadcast .decrementCond,
      .returns true none⟩

variable {left : Item → Item} {value : Item}

structure Permits (sema : SemaTwoWay) (size : Int) : Prop where
  semaSize : sema.size = size
  count : 0 ≤ sema.cnt ∧ sema.cnt ≤ size

theorem put_shifts {sema : SemaTwoWay} {wake : Wake} {after : Circular Item}
    (acquired : queue.sema.acquire = some (sema, wake))
    (put : ({ queue with sema } : Circular Item).putNext value = some after) :
    1 ≤ queue.sema.cnt ∧ wake = .signal .decrementCond ∧ Shifts (-1) queue after := by
  unfold SemaTwoWay.acquire at acquired
  split_ifs at acquired with room
  cases acquired
  rcases Option.bind_eq_some_iff.mp put with ⟨data, _, done⟩
  cases done
  exact ⟨room, rfl, rfl, rfl, rfl⟩

theorem no_permit {sema : SemaTwoWay} (none : sema.acquire = none) : sema.cnt ≤ 0 := by
  unfold SemaTwoWay.acquire at none
  split_ifs at none with room
  omega

theorem add_by_counts (blocking : call = .blocking job) (takes : call.cond = some .gtZeroCond)
    (cond : job.cond = .gtZeroCond) (added : queue.addBy left value = some region) :
    Counts queue call region := by
  unfold Circular.addBy at added
  cases acquired : queue.sema.acquire with
  | none =>
      rw [acquired] at added
      cases added
      rw [← cond]
      apply Counts.waits blocking
      rw [cond]
      exact no_permit acquired
  | some pair =>
      rw [acquired] at added
      rcases Option.bind_eq_some_iff.mp added with ⟨after, put, done⟩
      cases done
      rcases put_shifts acquired put with ⟨room, wake, shifts⟩
      rw [wake]
      exact .put takes room shifts

theorem add_if_room_by_counts (takes : call.cond = some .gtZeroCond)
    (added : queue.addIfRoomBy left value = some region) : Counts queue call region := by
  unfold Circular.addIfRoomBy at added
  cases acquired : queue.sema.acquire with
  | none =>
      rw [acquired] at added
      cases added
      exact .refused takes (no_permit acquired)
  | some pair =>
      rw [acquired] at added
      rcases Option.bind_eq_some_iff.mp added with ⟨after, put, done⟩
      cases done
      rcases put_shifts acquired put with ⟨room, wake, shifts⟩
      rw [wake]
      exact .put takes room shifts

theorem take_out_kept {after : Circular Item} {taken : Item}
    (took : queue.takeOut left = some (after, taken)) :
    after.sema = queue.sema ∧ after.size = queue.size := by
  rcases Option.bind_eq_some_iff.mp took with ⟨found, _, later⟩
  rcases Option.bind_eq_some_iff.mp later with ⟨data, _, done⟩
  cases done
  exact ⟨rfl, rfl⟩

theorem remove_now_counts (permits : Permits queue.sema queue.size)
    (takes : call.cond = some .decrementCond) (filled : queue.remain > 0)
    (removed : queue.removeNow left = some region) : Counts queue call region := by
  have less : queue.sema.cnt < queue.size := Int.sub_pos.mp filled
  rcases Option.bind_eq_some_iff.mp removed with ⟨⟨after, taken⟩, took, done⟩
  rcases take_out_kept took with ⟨sema, size⟩
  have positive : queue.sema.cnt + 1 > 0 := Int.lt_add_one_of_le permits.count.1
  cases done
  dsimp only at sema size ⊢
  rw [if_pos positive]
  have cnt : after.sema.cnt = queue.sema.cnt + 1 := by rw [sema]
  have semaSize : after.sema.size = queue.sema.size := by rw [sema]
  apply Counts.took takes less
  split_ifs
  · exact ⟨cnt, semaSize, size⟩
  · exact ⟨cnt, semaSize, size⟩

theorem remove_awaited_counts (permits : Permits queue.sema queue.size)
    (takes : call.cond = some .decrementCond) (behind : ¬ queue.sema.cnt ≥ queue.sema.size)
    (removed : queue.removeAwaited left = some region) :
    Counts queue call region := by
  have semaSize := permits.semaSize
  have less : queue.sema.cnt < queue.size := by omega
  rcases Option.bind_eq_some_iff.mp removed with ⟨⟨after, taken⟩, took, done⟩
  rcases take_out_kept took with ⟨sema, size⟩
  have kept : (if after.remain = 0 then after.restart else after).sema = queue.sema ∧
      (if after.remain = 0 then after.restart else after).size = queue.size := by
    split_ifs
    · exact ⟨sema, size⟩
    · exact ⟨sema, size⟩
  have positive : (if after.remain = 0 then after.restart else after).sema.cnt + 1 > 0 := by
    rw [kept.1]
    exact Int.lt_add_one_of_le permits.count.1
  cases done
  dsimp only
  rw [if_pos positive]
  have cnt := congrArg SemaTwoWay.cnt kept.1
  have sizeKept := congrArg SemaTwoWay.size kept.1
  exact .took takes less ⟨congrArg (· + 1) cnt, sizeKept, kept.2⟩

theorem remove_by_counts (permits : Permits queue.sema queue.size)
    (takes : call.cond = some .decrementCond) (removed : queue.removeBy left = some region) :
    Counts queue call region := by
  unfold Circular.removeBy at removed
  split_ifs at removed with filled
  · exact remove_now_counts permits takes filled removed
  · cases removed
    exact .refused takes (Int.not_lt.mp filled)

theorem no_element (permits : Permits queue.sema queue.size)
    (all : queue.sema.cnt ≥ queue.sema.size) :
    queue.remain ≤ 0 := by
  have semaSize := permits.semaSize
  unfold Circular.remain SemaTwoWay.countNoBlock
  omega

theorem remove_or_block_by_counts (permits : Permits queue.sema queue.size)
    (blocking : call = .blocking job) (takes : call.cond = some .decrementCond)
    (cond : job.cond = .decrementCond) (removed : queue.removeOrBlockBy left = some region) :
    Counts queue call region := by
  unfold Circular.removeOrBlockBy at removed
  split_ifs at removed with filled all
  · exact remove_now_counts permits takes filled removed
  · cases removed
    rw [← cond]
    apply Counts.waits blocking
    rw [cond]
    exact no_element permits all
  · exact remove_awaited_counts permits takes all removed

theorem remove_woken_by_counts (permits : Permits queue.sema queue.size)
    (takes : call.cond = some .decrementCond) (removed : queue.removeWokenBy left = some region) :
    Counts queue call region := by
  unfold Circular.removeWokenBy at removed
  split_ifs at removed with all
  · cases removed
    exact .refused takes (no_element permits all)
  · exact remove_awaited_counts permits takes all removed

theorem enter_counts (permits : Permits queue.sema queue.size)
    (ran : enter husk queue call = some region) :
    Counts queue call region := by
  cases call with
  | blocking job =>
      cases job with
      | add value timed => exact add_by_counts rfl rfl rfl ran
      | addMv value timed => exact add_by_counts rfl rfl rfl ran
      | removeOrBlock timed => exact remove_or_block_by_counts permits rfl rfl rfl ran
      | removeMvOrBlock timed => exact remove_or_block_by_counts permits rfl rfl rfl ran
  | addIfRoom value => exact add_if_room_by_counts rfl ran
  | addMvIfRoom value => exact add_if_room_by_counts rfl ran
  | remove => exact remove_by_counts permits rfl ran
  | removeMv => exact remove_by_counts permits rfl ran
  | unblockAllRemovers =>
      cases ran
      exact .unblocked rfl

theorem resume_counts (permits : Permits queue.sema queue.size)
    (ran : resume husk queue job = some region) :
    Counts queue (.blocking job) region := by
  cases job with
  | add value timed => exact add_by_counts rfl rfl rfl ran
  | addMv value timed => exact add_by_counts rfl rfl rfl ran
  | removeOrBlock timed => exact remove_woken_by_counts permits rfl ran
  | removeMvOrBlock timed => exact remove_woken_by_counts permits rfl ran

theorem counts_permits (permits : Permits queue.sema queue.size)
    (counts : Counts queue call region) :
    Permits region.queue.sema region.queue.size := by
  have semaSize := permits.semaSize
  have count := permits.count
  cases counts with
  | put takes room shifts =>
      have cnt := shifts.cnt
      have sizes := shifts.semaSize
      have size := shifts.size
      exact ⟨by dsimp only; omega, by dsimp only; omega⟩
  | took takes filled shifts =>
      have cnt := shifts.cnt
      have sizes := shifts.semaSize
      have size := shifts.size
      exact ⟨by dsimp only; omega, by dsimp only; omega⟩
  | refused takes short => exact permits
  | waits blocking short => exact permits
  | unblocked takes => exact permits

/-! ## Coverage -/

/-- What is left for others, when `call` takes one of what it needs. -/
def leftOf (call : Call Item) (supply : Cond → Int) (cond : Cond) : Int :=
  if call.cond = some cond then supply cond - 1 else supply cond

/-- A region keeps both supplies covered, once the thread that executes it has left. -/
theorem counts_covers (counts : Counts queue call region)
    (acts : Acts Job.cond threads i thread region.wake (placeAfter call region.outcome) woken)
    (covered : ∀ cond, Covered Job.cond cond (leftOf call (available queue) cond)
      (threads.set i none)) :
    ∀ cond, Covered Job.cond cond (available region.queue cond) woken := by
  rcases acts with ⟨stands, wakes⟩
  have outside := left_outside stands
  cases counts with
  | put takes room shifts =>
      have cnt := shifts.cnt
      have size := shifts.size
      cases wakes with
      | signal signalled =>
          rw [place_after_returns]
          intro cond
          cases cond with
          | gtZeroCond =>
              apply covered_less (covered_signal_other (covered .gtZeroCond) (by decide) signalled)
              simp only [leftOf, takes, available, SemaTwoWay.countNoBlock, if_true]
              omega
          | decrementCond =>
              apply covered_less (covered_signal (covered .decrementCond) signalled)
              simp only [leftOf, takes, available, Circular.remain, SemaTwoWay.countNoBlock,
                Option.some.injEq,
                reduceCtorEq, if_false]
              omega
  | took takes filled shifts =>
      have cnt := shifts.cnt
      have size := shifts.size
      cases wakes with
      | signal signalled =>
          rw [place_after_returns]
          intro cond
          cases cond with
          | gtZeroCond =>
              apply covered_less (covered_signal (covered .gtZeroCond) signalled)
              simp only [leftOf, takes, available, SemaTwoWay.countNoBlock, reduceCtorEq, if_false,
                Option.some.injEq]
              omega
          | decrementCond =>
              apply covered_less (covered_signal_other (covered .decrementCond)
                (by decide) signalled)
              simp only [leftOf, takes, available, Circular.remain,
                SemaTwoWay.countNoBlock, if_true]
              omega
  | refused takes short =>
      rename_i needed
      cases wakes with
      | nobody =>
          rw [place_after_returns]
          intro cond
          by_cases own : cond = needed
          · subst own
            exact covered_empty short
          · apply covered_less (covered cond)
            rw [leftOf, takes, if_neg (by simpa using Ne.symm own)]
  | waits blocking short =>
      rename_i job
      subst blocking
      cases wakes with
      | nobody =>
          intro cond
          by_cases own : cond = job.cond
          · subst own
            exact covered_empty short
          · have joined : Covered Job.cond cond (leftOf (.blocking job) (available queue) cond)
                ((threads.set i none).set i (some ⟨job, false⟩)) :=
                covered_join (covered cond) outside (Ne.symm own)
            apply covered_less joined
            rw [leftOf, blocking_cond, if_neg (by simpa using Ne.symm own)]
  | unblocked takes =>
      cases wakes with
      | broadcast =>
          rw [place_after_returns]
          intro cond
          have all : leftOf call (available queue) cond =
            available queue cond := by simp [leftOf, takes]
          have kept := covered_broadcast (covered cond) .decrementCond
          rwa [all] at kept

theorem permits_of_represents (held : Represents queue items) : Permits queue.sema queue.size := by
  have count := held.count
  have fits := held.laid.fits
  have whole := held.whole
  exact ⟨held.semaSize, by omega, by omega⟩

theorem represented_covers (held : Represents queue items) (counts : Counts queue call region)
    (represents : Represents region.queue after)
    (acts : Acts Job.cond threads i thread region.wake (placeAfter call region.outcome) woken)
    (covered : ∀ cond, Covered Job.cond cond (leftFor call queue items cond) (threads.set i none)) :
    ∀ cond, Covered Job.cond cond (supply region.queue after cond) woken := by
  have same : leftFor call queue items = leftOf call (available queue) := by
    funext cond
    rw [leftFor, leftOf, available_eq held]
  intro cond
  rw [← available_eq represents]
  exact counts_covers counts acts (same ▸ covered) cond

/-- The invariant against lost wake-ups. -/
def AllCovered (world : World Item) (items : List Item) : Prop :=
  ∀ cond, Covered Job.cond cond (supply world.queue items cond) world.threads

variable {world next : World Item} {event : Event Item} {events : List (Event Item)}

theorem start_left (covered : AllCovered world items) (outside : world.threads[i]? = some none)
    (cond : Cond) :
    Covered Job.cond cond (leftFor call world.queue items cond) (world.threads.set i none) := by
  rw [set_outside outside]
  apply covered_less (covered cond)
  unfold leftFor
  split_ifs <;> omega

theorem resume_left (covered : AllCovered world items) {signalled : Bool}
    (waits : world.threads[i]? = some (some ⟨job, signalled⟩)) (cond : Cond) :
    Covered Job.cond cond (leftFor (.blocking job) world.queue items cond)
    (world.threads.set i none) := by
  have left := covered_leave (covered cond) waits
  unfold leftFor
  rw [blocking_cond]
  simpa using left

theorem step_covers (held : Represents world.queue items) (covered : AllCovered world items)
    (untimed : Call.untimed event.call) (step : Step husk world event next) :
    ∃ after, Represents next.queue after ∧ AllCovered next after := by
  cases step with
  | start ran acts =>
      rename_i i call region threads
      rcases enter_did husk call held with ⟨known, after, found, did⟩
      cases Option.some.inj (ran.symm.trans found)
      have counts := enter_counts (permits_of_represents held) ran
      have represents := (did_moves held did i).1
      exact ⟨after, represents, represented_covers held counts represents acts
        (start_left covered (acts_stands acts))⟩
  | resume ran acts =>
      rename_i i job signalled region threads
      rcases resume_did husk job held with ⟨known, after, found, did⟩
      cases Option.some.inj (ran.symm.trans found)
      have counts := resume_counts (permits_of_represents held) ran
      have represents := (did_moves held did i).1
      exact ⟨after, represents, represented_covers held counts represents acts
        (resume_left covered (acts_stands acts))⟩
  | expire expires acts =>
      rename_i i job signalled threads
      have limited : job.timed = false := untimed
      rw [timed_of_expires expires] at limited
      cases limited

theorem run_covers {first : World Item} (empty : Represents first.queue [])
    (idle : AllCovered first []) (run : Run husk Call.untimed first events world) :
    ∃ stored, Represents world.queue stored ∧ AllCovered world stored := by
  induction run with
  | start => exact ⟨[], empty, idle⟩
  | step run allowed step ih =>
      rcases ih with ⟨stored, held, covered⟩
      exact step_covers held covered allowed step

/-- Whether a waiting call would succeed if its thread ran now. -/
def CanProceed (husk : Item → Item) (queue : Circular Item) (job : Job Item) : Prop :=
  ∃ region arg, resume husk queue job = some region ∧ region.outcome = .returns true arg

theorem supply_of_proceed (held : Represents queue items) (proceeds : CanProceed husk queue job) :
    0 < supply queue items job.cond := by
  rcases proceeds with ⟨region, arg, ran, returned⟩
  rcases resume_did husk job held with ⟨known, after, found, did⟩
  cases Option.some.inj (ran.symm.trans found)
  cases did with
  | put room adds represents kept =>
      have own : job.cond = .gtZeroCond := by
        cases job <;> first | rfl | cases adds
      simp only [own, supply]
      omega
  | took adds removes split represents kept =>
      have own : job.cond = .decrementCond := by
        cases job <;> first | rfl | cases removes
      simp only [own, supply, split, List.length_cons]
      omega
  | refused takes short => simp at returned
  | waits blocking short => simp at returned
  | unblocked unblocks => cases unblocks

theorem unsignalled_pos (waits : some ⟨job, false⟩ ∈ threads) :
    0 < waiting Job.cond false job.cond threads :=
  List.countP_pos_iff.mpr ⟨some ⟨job, false⟩, waits, by simp⟩

theorem none_signalled (silent : ∀ waiter, some waiter ∈ threads → waiter.signalled = false)
    (cond : Cond) :
    waiting Job.cond true cond threads = 0 := by
  refine List.countP_eq_zero.mpr fun thread member => ?_
  cases thread with
  | none => simp
  | some waiter => simp [silent waiter member]

/-- In every run without time limits, while a thread waits unsignalled, there are no more elements
than consumers with a signal on its way to them, and no more free slots than such producers. So the
threads in the queue are never all waiting unsignalled while one of them could proceed. -/
theorem no_wake_up_lost {size : Int} (positive : 1 ≤ size) (isObjects : Bool) (data : List Item)
    (whole : (data.length : Int) = size) (husk : Item → Item) (count : Nat)
    {events : List (Event Item)} {world : World Item}
    (run : Run husk Call.untimed (World.new (Circular.new size isObjects data) count)
      events world) :
    ∃ stored, Represents world.queue stored ∧
      (0 < waiting Job.cond false .decrementCond world.threads →
        stored.length ≤ waiting Job.cond true .decrementCond world.threads) ∧
      (0 < waiting Job.cond false .gtZeroCond world.threads →
        size - stored.length ≤ waiting Job.cond true .gtZeroCond world.threads) ∧
      ((∀ waiter, some waiter ∈ world.threads → waiter.signalled = false) →
        ∀ waiter, some waiter ∈ world.threads → ¬ CanProceed husk world.queue waiter.job) := by
  have empty : Represents (World.new (Circular.new size isObjects data) count).queue [] :=
    represents_new positive isObjects data whole
  have idle : AllCovered (World.new (Circular.new size isObjects data) count) [] := by
    intro cond some_wait
    exact absurd (waiting_nobody Job.cond count false cond) (Nat.ne_of_gt some_wait)
  rcases run_moves empty run with ⟨-, -, sameSize, -⟩
  change world.queue.size = size at sameSize
  rcases run_covers empty idle run with ⟨stored, held, covered⟩
  refine ⟨stored, held, fun some_wait => ?_, fun some_wait => ?_,
    fun silent waiter waits proceeds => ?_⟩
  · have enough := covered .decrementCond some_wait
    simp only [supply] at enough
    omega
  · have enough := covered .gtZeroCond some_wait
    simpa only [supply, sameSize] using enough
  · have unsignalled : waiter = ⟨waiter.job, false⟩ := by rw [← silent waiter waits]
    rw [unsignalled] at waits
    have enough := covered waiter.job.cond (unsignalled_pos waits)
    rw [unsignalled] at waits
    have some_supply := supply_of_proceed held proceeds
    have nobody := none_signalled silent waiter.job.cond
    rw [nobody] at enough
    omega

theorem no_wake_up_lost_hand_over :
    ∃ stored, Represents handedOver.queue stored ∧
      (0 < waiting Job.cond false .decrementCond handedOver.threads →
        stored.length ≤ waiting Job.cond true .decrementCond handedOver.threads) ∧
      (0 < waiting Job.cond false .gtZeroCond handedOver.threads →
        (1 : Int) - stored.length ≤ waiting Job.cond true .gtZeroCond handedOver.threads) ∧
      ((∀ waiter, some waiter ∈ handedOver.threads → waiter.signalled = false) →
        ∀ waiter, some waiter ∈ handedOver.threads → ¬ CanProceed id handedOver.queue waiter.job) :=
  no_wake_up_lost (by decide) true [0] (by decide) id 2 (hand_over_run rfl rfl)

end TWlib.CircularWakeups
