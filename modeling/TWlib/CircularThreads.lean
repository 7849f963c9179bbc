import TWlib.CircularBuffer
import TWlib.Lib.MonitorRuns

/-!
# Threads on a circular queue

A step is one region of one thread under the mutex of the semaphore: the beginning
of a call, what follows a wait (which may end without a signal), or the end of the
time a timed call waits, where that ends the wait. `Did` says once what a region can do to the
queue, and every invariant is derived from it.
-/

namespace TWlib.CircularThreads

open TWlib.Lib.RingSlots TWlib.Lib.Monitor TWlib.CircularBuffer

set_option autoImplicit false

variable {Item : Type*}

/-! ## The model -/

/-- The calls that can wait; `timed` is whether a limit is given. -/
inductive Job (Item : Type*) where
  | add (value : Item) (timed : Bool)
  | addMv (value : Item) (timed : Bool)
  | removeOrBlock (timed : Bool)
  | removeMvOrBlock (timed : Bool)

inductive Call (Item : Type*) where
  | blocking (job : Job Item)
  | addIfRoom (value : Item)
  | addMvIfRoom (value : Item)
  | remove
  | removeMv
  | unblockAllRemovers

def Job.timed : Job Item → Bool
  | .add _ timed | .addMv _ timed | .removeOrBlock timed | .removeMvOrBlock timed => timed

def Job.cond : Job Item → Cond
  | .add _ _ | .addMv _ _ => .gtZeroCond
  | .removeOrBlock _ | .removeMvOrBlock _ => .decrementCond

/-- Whether the end of the time ends the wait. `acquireAndKeepLock(abstime)` waits with
`pthread_cond_timedwait`, but `waitForAcquirersKeepLock(abstime)` with `pthread_cond_wait`. -/
def Job.expires : Job Item → Bool
  | .add _ timed | .addMv _ timed => timed
  | .removeOrBlock _ | .removeMvOrBlock _ => false

theorem timed_of_expires {job : Job Item} (expires : job.expires = true) : job.timed = true := by
  cases job with
  | add value timed | addMv value timed => exact expires
  | removeOrBlock timed | removeMvOrBlock timed => cases expires

def enter (husk : Item → Item) (queue : Circular Item) : Call Item → Option (Region Item)
  | .blocking (.add value _) => queue.add value
  | .blocking (.addMv value _) => queue.addMv husk value
  | .blocking (.removeOrBlock _) => queue.removeOrBlock
  | .blocking (.removeMvOrBlock _) => queue.removeMvOrBlock husk
  | .addIfRoom value => queue.addIfRoom value
  | .addMvIfRoom value => queue.addMvIfRoom husk value
  | .remove => queue.remove
  | .removeMv => queue.removeMv husk
  | .unblockAllRemovers => some queue.unblockAllRemovers

def resume (husk : Item → Item) (queue : Circular Item) : Job Item → Option (Region Item)
  | .add value _ => queue.add value
  | .addMv value _ => queue.addMv husk value
  | .removeOrBlock _ => queue.removeWokenBy id
  | .removeMvOrBlock _ => queue.removeWokenBy husk

structure World (Item : Type*) where
  queue : Circular Item
  threads : Threads (Job Item)

/-- Where the thread that executed a region is then: it waits, or is not in the queue any more. -/
def placeAfter : Call Item → Outcome Item → Option (Job Item)
  | .blocking job, .waits _ => some job
  | _, _ => none

@[simp]
theorem place_after_returns (call : Call Item) (ret : Bool) (arg : Option Item) :
    placeAfter call (.returns ret arg) = none := by
  cases call <;> rfl

structure Event (Item : Type*) where
  thread : Nat
  call : Call Item
  outcome : Outcome Item

inductive Step (husk : Item → Item) (world : World Item) : Event Item → World Item → Prop where
  | start {i : Nat} {call : Call Item} {region : Region Item} {threads : Threads (Job Item)}
      (ran : enter husk world.queue call = some region)
      (acts : Acts Job.cond world.threads i none region.wake
        (placeAfter call region.outcome) threads) :
      Step husk world ⟨i, call, region.outcome⟩ ⟨region.queue, threads⟩
  | resume {i : Nat} {job : Job Item} {signalled : Bool} {region : Region Item}
      {threads : Threads (Job Item)}
      (ran : resume husk world.queue job = some region)
      (acts : Acts Job.cond world.threads i (some ⟨job, signalled⟩) region.wake
        (placeAfter (.blocking job) region.outcome) threads) :
      Step husk world ⟨i, .blocking job, region.outcome⟩ ⟨region.queue, threads⟩
  | expire {i : Nat} {job : Job Item} {signalled : Bool} {threads : Threads (Job Item)}
      (expires : job.expires = true)
      (acts : Acts Job.cond world.threads i (some ⟨job, signalled⟩) world.queue.timedOut.wake
        none threads) :
      Step husk world ⟨i, .blocking job, world.queue.timedOut.outcome⟩
      ⟨world.queue.timedOut.queue, threads⟩

def World.new (queue : Circular Item) (count : Nat) : World Item :=
  ⟨queue, List.replicate count none⟩

abbrev Run (husk : Item → Item) (permitted : Call Item → Prop) :
    World Item → List (Event Item) → World Item → Prop :=
  Execution (Step husk) fun _ event => permitted event.call

def Call.adding : Call Item → Option Item
  | .blocking (.add value _) | .blocking (.addMv value _) | .addIfRoom value | .addMvIfRoom value =>
      some value
  | _ => none

def Call.removing : Call Item → Bool
  | .blocking (.removeOrBlock _) | .blocking (.removeMvOrBlock _) | .remove | .removeMv => true
  | _ => false

/-- The element whose add took effect in the event. -/
def Event.added (event : Event Item) : List Item :=
  match event.outcome with
  | .returns true _ => event.call.adding.toList
  | _ => []

/-- The element that a successful removal delivered in the event. -/
def Event.delivered (event : Event Item) : List Item :=
  match event.outcome with
  | .returns true arg => if event.call.removing then arg.toList else []
  | _ => []

/-! ## What a region does -/

/-- What there is of the thing waited for on `cond`: elements, or free slots. -/
def supply (queue : Circular Item) (items : List Item) : Cond → Int
  | .gtZeroCond => queue.size - items.length
  | .decrementCond => items.length

def Call.cond (call : Call Item) : Option Cond :=
  if call.adding.isSome then some .gtZeroCond else if call.removing then some .decrementCond
    else none

inductive Did (queue : Circular Item) (items : List Item) (call : Call Item) :
    Region Item → List Item → Prop where
  | put {value : Item} {arg : Option Item} {after : Circular Item}
      (room : items.length < queue.size)
      (adds : call.adding = some value) (represents : Represents after (items ++ [value]))
      (kept : Kept queue items 0 after) :
      Did queue items call ⟨after, .signal .decrementCond, .returns true arg⟩ (items ++ [value])
  | took {item : Item} {rest : List Item} {after : Circular Item} (adds : call.adding = none)
      (removes : call.removing = true) (split : items = item :: rest)
      (represents : Represents after rest)
      (kept : Kept queue items 1 after) :
      Did queue items call ⟨after, .signal .gtZeroCond, .returns true (some item)⟩ rest
  | refused {cond : Cond} (takes : call.cond = some cond) (short : supply queue items cond = 0) :
      Did queue items call ⟨queue, .nobody, .returns false none⟩ items
  | waits {job : Job Item} (blocking : call = .blocking job)
      (short : supply queue items job.cond = 0) :
      Did queue items call ⟨queue, .nobody, .waits job.cond⟩ items
  | unblocked (unblocks : call = .unblockAllRemovers) :
      Did queue items call ⟨queue, .broadcast .decrementCond, .returns true none⟩ items

variable {husk : Item → Item} {queue : Circular Item} {items : List Item} {call : Call Item}
    {job : Job Item}

theorem add_by_did (left : Item → Item) (held : Represents queue items) {value : Item}
    (blocking : call = .blocking job) (adds : call.adding = some value)
    (cond : job.cond = .gtZeroCond) :
    ∃ region after, queue.addBy left value = some region ∧ Did queue items call region after := by
  rcases add_by_eq left held value with ⟨room, after, added, represents, kept⟩ | ⟨full, waits⟩
  · exact ⟨_, _, added, .put room adds represents kept⟩
  · have short : supply queue items job.cond = 0 := by
      simp only [cond, supply]
      omega
    refine ⟨_, items, waits, ?_⟩
    rw [← cond]
    exact .waits blocking short

theorem add_if_room_by_did (left : Item → Item) (held : Represents queue items) {value : Item}
    (adds : call.adding = some value) :
    ∃ region after, queue.addIfRoomBy left value = some region ∧
    Did queue items call region after := by
  rcases add_if_room_by_eq left held value with ⟨room, after, added, represents, kept⟩
    | ⟨full, refused⟩
  · exact ⟨_, _, added, .put room adds represents kept⟩
  · have takes : call.cond = some .gtZeroCond := by simp [Call.cond, adds]
    have short : supply queue items .gtZeroCond = 0 := by
      simp only [supply]
      omega
    exact ⟨_, _, refused, .refused takes short⟩

theorem removing_cond (adds : call.adding = none) (removes : call.removing = true) :
    call.cond = some .decrementCond := by
  simp [Call.cond, adds, removes]

theorem remove_by_did (left : Item → Item) (held : Represents queue items)
    (adds : call.adding = none) (removes : call.removing = true) :
    ∃ region after, queue.removeBy left = some region ∧ Did queue items call region after := by
  cases items with
  | nil =>
      exact ⟨_, _, remove_by_empty left held, .refused (removing_cond adds removes) rfl⟩
  | cons item rest =>
      rcases remove_by_filled left held with ⟨after, removed, represents, kept⟩
      exact ⟨_, _, removed, .took adds removes rfl represents kept⟩

theorem remove_or_block_by_did (left : Item → Item) (held : Represents queue items)
    (blocking : call = .blocking job) (adds : call.adding = none) (removes : call.removing = true)
    (cond : job.cond = .decrementCond) :
    ∃ region after, queue.removeOrBlockBy left = some region ∧
    Did queue items call region after := by
  cases items with
  | nil =>
      have short : supply queue [] job.cond = 0 := by rw [cond]; rfl
      refine ⟨_, [], remove_or_block_by_empty left held, ?_⟩
      rw [← cond]
      exact .waits blocking short
  | cons item rest =>
      rcases remove_or_block_by_filled left held with ⟨after, removed, represents, kept⟩
      exact ⟨_, _, removed, .took adds removes rfl represents kept⟩

theorem remove_woken_by_did (left : Item → Item) (held : Represents queue items)
    (adds : call.adding = none) (removes : call.removing = true) :
    ∃ region after, queue.removeWokenBy left = some region ∧ Did queue items call region after := by
  cases items with
  | nil =>
      exact ⟨_, _, remove_woken_by_empty left held, .refused (removing_cond adds removes) rfl⟩
  | cons item rest =>
      rcases remove_woken_by_filled left held with ⟨after, removed, represents, kept⟩
      exact ⟨_, _, removed, .took adds removes rfl represents kept⟩

theorem enter_did (husk : Item → Item) (call : Call Item) (held : Represents queue items) :
    ∃ region after, enter husk queue call = some region ∧ Did queue items call region after := by
  cases call with
  | blocking job =>
      cases job with
      | add value timed => exact add_by_did id held rfl rfl rfl
      | addMv value timed => exact add_by_did husk held rfl rfl rfl
      | removeOrBlock timed => exact remove_or_block_by_did id held rfl rfl rfl rfl
      | removeMvOrBlock timed => exact remove_or_block_by_did husk held rfl rfl rfl rfl
  | addIfRoom value => exact add_if_room_by_did id held rfl
  | addMvIfRoom value => exact add_if_room_by_did husk held rfl
  | remove => exact remove_by_did id held rfl rfl
  | removeMv => exact remove_by_did husk held rfl rfl
  | unblockAllRemovers => exact ⟨_, _, rfl, .unblocked rfl⟩

theorem resume_did (husk : Item → Item) (job : Job Item) (held : Represents queue items) :
    ∃ region after, resume husk queue job = some region ∧
    Did queue items (.blocking job) region after := by
  cases job with
  | add value timed => exact add_by_did id held rfl rfl rfl
  | addMv value timed => exact add_by_did husk held rfl rfl rfl
  | removeOrBlock timed => exact remove_woken_by_did id held rfl rfl
  | removeMvOrBlock timed => exact remove_woken_by_did husk held rfl rfl

/-! ## Elements through a step and through a run -/

theorem did_moves {region : Region Item} {after : List Item} (held : Represents queue items)
    (did : Did queue items call region after) (i : Nat) :
    Represents region.queue after ∧
      items ++ (Event.mk i call region.outcome).added =
      (Event.mk i call region.outcome).delivered ++ after ∧
      Kept queue items (Event.mk i call region.outcome).delivered.length region.queue ∧
      ∀ arg, region.outcome = .returns false arg → region.queue = queue ∧ after = items := by
  cases did with
  | put room adds represents kept =>
      have notRemoving : call.removing = false := by
        cases call with
        | blocking job => cases job <;> first | rfl | cases adds
        | _ => first | rfl | cases adds
      have nothing : ∀ arg, (Event.mk i call (.returns true arg)).delivered = [] := by
        intro arg
        simp [Event.delivered, notRemoving]
      refine ⟨represents, ?_, ?_, by simp⟩
      · simp [Event.added, adds, nothing]
      · rw [nothing]
        exact kept
  | took adds removes split represents kept =>
      refine ⟨represents, ?_, ?_, by simp⟩
      · simp [Event.added, Event.delivered, adds, removes, split]
      · simpa [Event.delivered, removes] using kept
  | refused takes short =>
      exact ⟨held, by simp [Event.added, Event.delivered], kept_refl held _, by simp⟩
  | waits blocking short =>
      exact ⟨held, by simp [Event.added, Event.delivered], kept_refl held _, by simp⟩
  | unblocked unblocks =>
      subst unblocks
      exact ⟨held, by simp [Event.added, Event.delivered, Call.adding, Call.removing],
        kept_refl held _,
        by simp⟩

variable {permitted : Call Item → Prop} {first world next : World Item} {events : List (Event Item)}
  {event : Event Item}

theorem step_moves (held : Represents world.queue items) (step : Step husk world event next) :
    ∃ after, Represents next.queue after ∧ items ++ event.added = event.delivered ++ after ∧
      Kept world.queue items event.delivered.length next.queue ∧
      ∀ arg, event.outcome = .returns false arg → next.queue = world.queue ∧ after = items := by
  cases step with
  | start ran acts =>
      rename_i i call region threads
      rcases enter_did husk call held with ⟨known, after, found, did⟩
      cases Option.some.inj (ran.symm.trans found)
      exact ⟨after, did_moves held did i⟩
  | resume ran acts =>
      rename_i i job signalled region threads
      rcases resume_did husk job held with ⟨known, after, found, did⟩
      cases Option.some.inj (ran.symm.trans found)
      exact ⟨after, did_moves held did i⟩
  | expire expires acts =>
      exact ⟨items, held, by simp [Event.added, Event.delivered, Circular.timedOut],
      kept_refl held _, fun _ _ => ⟨rfl, rfl⟩⟩

theorem run_moves (empty : Represents first.queue [])
    (run : Run husk permitted first events world) :
    ∃ stored, Represents world.queue stored ∧ world.queue.size = first.queue.size ∧
      events.flatMap Event.added = events.flatMap Event.delivered ++ stored := by
  induction run with
  | start => exact ⟨[], empty, rfl, rfl⟩
  | step run allowed step ih =>
      rcases ih with ⟨stored, held, sameSize, history⟩
      rcases step_moves held step with ⟨after, represents, moved, kept, -⟩
      refine ⟨after, represents, kept.size.trans sameSize, ?_⟩
      simp only [List.flatMap_append, List.flatMap_singleton]
      rw [history, List.append_assoc, moved, List.append_assoc]

/-- A consumer waits on an empty queue of one slot, a producer adds, the consumer resumes. -/
def handOver : List (Event Nat) :=
  [⟨0, .blocking (.removeOrBlock false), .waits .decrementCond⟩,
    ⟨1, .blocking (.add 7 false), .returns true (some 7)⟩,
    ⟨0, .blocking (.removeOrBlock false), .returns true (some 7)⟩]

def handedOver : World Nat := ⟨⟨true, false, ⟨1, 1⟩, 0, 0, 1, [7]⟩, [none, none]⟩

theorem hand_over_run {permitted : Call Nat → Prop}
    (removal : permitted (.blocking (.removeOrBlock false)))
    (addition : permitted (.blocking (.add 7 false))) :
    Run id permitted (World.new (Circular.new 1 true [0]) 2) handOver handedOver := by
  let consumer : Job Nat := .removeOrBlock false
  let idle : World Nat := World.new (Circular.new 1 true [0]) 2
  let blocked : World Nat := ⟨idle.queue, [some ⟨consumer, false⟩, none]⟩
  let filled : World Nat := ⟨⟨true, false, ⟨0, 1⟩, 0, 0, 1, [7]⟩, [some ⟨consumer, true⟩, none]⟩
  let waiting : Region Nat := ⟨idle.queue, .nobody, .waits .decrementCond⟩
  let adding : Region Nat := ⟨filled.queue, .signal .decrementCond, .returns true (some 7)⟩
  let removing : Region Nat := ⟨handedOver.queue, .signal .gtZeroCond, .returns true (some 7)⟩
  have present : blocked.threads[0]? = some (some ⟨consumer, false⟩) := rfl
  have marks : Signal Job.cond .decrementCond blocked.threads filled.threads := .marks present rfl
  have signalled : filled.threads[0]? = some (some ⟨consumer, true⟩) := rfl
  have alone : Signal Job.cond .gtZeroCond (filled.threads.set 0 none) handedOver.threads :=
    .nobody (by decide)
  have blocks : Acts Job.cond idle.threads 0 none waiting.wake (some consumer) blocked.threads :=
    .region rfl .nobody
  have wakes : Acts Job.cond blocked.threads 1 none adding.wake none filled.threads :=
    .region rfl (.signal marks)
  have leaves : Acts Job.cond filled.threads 0 (some ⟨consumer, true⟩) removing.wake none
      handedOver.threads :=
    .region signalled (.signal alone)
  have waits : Step id idle ⟨0, .blocking consumer, waiting.outcome⟩ blocked := .start rfl blocks
  have adds : Step id blocked ⟨1, .blocking (.add 7 false), adding.outcome⟩ filled :=
    .start rfl wakes
  have resumes : Step id filled ⟨0, .blocking consumer, removing.outcome⟩ handedOver :=
    .resume rfl leaves
  exact .step (.step (.step .start removal waits) addition adds) removal resumes

end TWlib.CircularThreads
