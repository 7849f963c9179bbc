import TWlib.BndSafeFifo

/-!
# Threads on a bounded queue and the semaphore that `clearAll` replaces

A step is one region under a mutex or one statement outside of it, of one thread. A thread that goes
on in a semaphore which was deleted makes a `stale` step, of which nothing more is said.
-/

namespace TWlib.BndSafeFifo

open TWlib.Lib.CellStore TWlib.Lib.Monitor
open TWlib.SafeFifo (Fifo Links)
open TWlib.Semaphore (Sema)

set_option autoImplicit false

variable {Item : Type*}

/-! ## The model -/

structure World (Item : Type*) where
  queue : BndFifo Item
  threads : Threads (Place Item)

def placeAfter : Outcome Item → Option (Place Item)
  | .goes place => some place
  | .returns _ => none

/-- The semaphore in one of whose functions a thread is. -/
def Place.inside : Place Item → Option Nat
  | .acquire sema _ | .gtZero sema _ | .decrement sema _ | .release sema _ | .releaseAll sema =>
      some sema
  | _ => none

/-- The semaphore that the next statement works on, which for `delete` is the one in use. -/
def World.uses (world : World Item) : Place Item → Option Nat
  | .delete => world.queue.sizeSema
  | place => place.inside

def World.lost (world : World Item) (place : Place Item) : Bool :=
  (world.uses place).any fun sema => (world.queue.semas.read sema).isNone

inductive Action (Item : Type*) where
  | enter (call : Call Item)
  | resume (place : Place Item)
  | stale (place : Place Item)
deriving DecidableEq

/-- `before` is the world in which the thread acts. -/
structure Event (Item : Type*) where
  before : World Item
  thread : Nat
  action : Action Item

inductive Step (blank : Item) (world : World Item) : Event Item → World Item → Prop where
  | enter {i : Nat} {call : Call Item} {region : Region Item} {threads : Threads (Place Item)}
      (ran : enter world.queue call = some region)
      (acts : Acts stop world.threads i none region.wake (placeAfter region.outcome) threads) :
      Step blank world ⟨world, i, .enter call⟩ ⟨region.queue, threads⟩
  | resume {i : Nat} {place : Place Item} {signalled : Bool} {region : Region Item}
      {threads : Threads (Place Item)}
      (ran : resume blank world.queue place = some region)
      (acts : Acts stop world.threads i (some ⟨place, signalled⟩) region.wake
        (placeAfter region.outcome) threads) :
      Step blank world ⟨world, i, .resume place⟩ ⟨region.queue, threads⟩
  | stale {i : Nat} {place : Place Item} {signalled : Bool} {threads : Threads (Place Item)}
      (lost : world.lost place = true)
      (acts : Acts stop world.threads i (some ⟨place, signalled⟩) .nobody none threads) :
      Step blank world ⟨world, i, .stale place⟩ { world with threads }

def World.new (max : Int) (count : Nat) : World Item := ⟨.new max, List.replicate count none⟩

abbrev Run (blank : Item) (permitted : Event Item → Prop) (first : World Item) :
    List (Event Item) → World Item → Prop :=
    Execution (Step blank) (fun _ event => permitted event) first

inductive Turn (Item : Type*) where
  | enter (i : Nat) (call : Call Item)
  | resume (i : Nat) (signalled : Option Nat)

def play (blank : Item) (world : World Item) : Turn Item → Option (Event Item × World Item)
  | .enter i call =>
      match world.threads[i]? with
      | some none => do
          let region ← enter world.queue call
          let threads ← actBy stop world.threads i none region.wake (placeAfter region.outcome)
          some (⟨world, i, .enter call⟩, ⟨region.queue, threads⟩)
      | _ => none
  | .resume i signalled =>
      match world.threads[i]? with
      | some (some ⟨place, _⟩) =>
          if world.lost place then do
            let threads ← actBy stop world.threads i none .nobody none
            some (⟨world, i, .stale place⟩, { world with threads })
          else do
            let region ← resume blank world.queue place
            let threads ← actBy stop world.threads i signalled region.wake
              (placeAfter region.outcome)
            some (⟨world, i, .resume place⟩, ⟨region.queue, threads⟩)
      | _ => none

theorem play_step {blank : Item} (world : World Item) (turn : Turn Item) (event : Event Item)
    (next : World Item) (played : play blank world turn = some (event, next)) :
    Step blank world event next := by
  cases turn with
  | enter i call =>
      simp only [play] at played
      split at played
      · rename_i outside
        rcases Option.bind_eq_some_iff.mp played with ⟨region, ran, rest⟩
        rcases Option.bind_eq_some_iff.mp rest with ⟨threads, acted, same⟩
        cases same
        exact .enter ran (act_by_acts outside acted)
      · cases played
  | resume i signalled =>
      simp only [play] at played
      split at played
      · rename_i stands
        split_ifs at played with lost
        · rcases Option.bind_eq_some_iff.mp played with ⟨threads, acted, same⟩
          cases same
          exact .stale lost (act_by_acts stands acted)
        · rcases Option.bind_eq_some_iff.mp played with ⟨region, ran, rest⟩
          rcases Option.bind_eq_some_iff.mp rest with ⟨threads, acted, same⟩
          cases same
          exact .resume ran (act_by_acts stands acted)
      · cases played

/-! ## What clearing must not do -/

def Action.clears : Action Item → Bool
  | .enter call => match call with
    | .clearAll => true
    | _ => false
  | .resume place | .stale place => match place with
    | .fifo _ .clearAll | .loadReleaseAll | .releaseAll _ | .delete | .construct => true
    | _ => false

def Action.loads : Action Item → Bool
  | .enter call => match call with
    | .adds _ => true
    | _ => false
  | .resume place | .stale place => match place with
    | .loadRelease _ | .loadReleaseAll | .delete => true
    | _ => false

def Action.takes : Action Item → Option Nat
  | .resume (.decrement sema _) => some sema
  | _ => none

def Action.isStale : Action Item → Bool
  | .stale _ => true
  | _ => false

/-- The thread was blocked in `acquire()` when the step was made. -/
def Event.blocked (event : Event Item) (i : Nat) : Bool :=
  (jobAt event.before.threads i).any fun
    | .gtZero _ _ => true
    | _ => false

/-- No thread goes on in a semaphore that was deleted. -/
def NeverStale (events : List (Event Item)) : Prop := ∀ event ∈ events, event.action.isStale = false

/-- A thread that was blocked when `clearAll` made a step takes permits only of semaphores made
since. -/
def TakesNewPermits (events : List (Event Item)) : Prop :=
  events.Pairwise fun clearing later => clearing.action.clears = true →
    clearing.blocked later.thread = true →
    ∀ sema ∈ later.action.takes, clearing.before.queue.semas.fresh ≤ sema

instance (events : List (Event Item)) : Decidable (NeverStale events) :=
  inferInstanceAs (Decidable (∀ event ∈ events, event.action.isStale = false))

instance (events : List (Event Item)) : Decidable (TakesNewPermits events) :=
  inferInstanceAs (Decidable (List.Pairwise _ _))

/-- `clearAll` makes no step while a thread is blocked in `acquire()`, `_sizeSema` is read only
while it points to a semaphore that exists, and that semaphore is deleted only when no thread is
inside it. -/
structure Careful (event : Event Item) : Prop where
  waits : event.action.clears = true → ∀ i < event.before.threads.length, event.blocked i = false
  loads : event.action.loads = true →
    (event.before.queue.sizeSema.bind event.before.queue.semas.read).isSome = true
  deletes : event.action = .resume .delete → ∀ sema ∈ event.before.queue.sizeSema,
    ∀ i < event.before.threads.length, (jobAt event.before.threads i).bind Place.inside ≠ some sema

instance [DecidableEq Item] (event : Event Item) : Decidable (Careful event) :=
  decidable_of_iff (_ ∧ _ ∧ _)
    ⟨fun holds => ⟨holds.1, holds.2.1, holds.2.2⟩, fun careful => ⟨careful.waits, careful.loads,
      careful.deletes⟩⟩

/-! ## Semaphores that exist -/

def Alive (semas : Store Sema) (place : Place Item) : Prop :=
  ∀ sema, place.inside = some sema → (semas.read sema).isSome

def AllAlive (world : World Item) : Prop :=
  ∀ i place, jobAt world.threads i = some place → Alive world.queue.semas place

def Live (queue : BndFifo Item) : Prop := (queue.sizeSema.bind queue.semas.read).isSome

/-- A region deletes no semaphore, and goes on in one that exists. -/
structure Leaves (semas : Store Sema) (region : Region Item) : Prop where
  kept : ∀ sema, (semas.read sema).isSome → (region.queue.semas.read sema).isSome
  onward : ∀ place, region.outcome = .goes place → Alive region.queue.semas place

variable {blank : Item} {queue : BndFifo Item} {region : Region Item} {sema : Nat}

theorem inner_leaves (queue : BndFifo Item) (caller : Caller) (ran : SafeFifo.Region Item) :
    Leaves queue.semas (queue.inner caller ran) := by
  refine ⟨fun sema present => present, ?_⟩
  intro place goes sema inside
  cases outcome : ran.outcome with
  | goes own =>
      simp only [BndFifo.inner, outcome] at goes
      cases goes
      cases inside
  | returns ret fill =>
      simp only [BndFifo.inner, outcome] at goes
      cases caller with
      | nothing => cases goes
      | addEmpty link => cases goes
      | removes =>
          simp only [Caller.back] at goes
          split_ifs at goes
          cases goes
          cases inside
      | clearAll =>
          cases goes
          cases inside

theorem calls_leaves (caller : Caller) (call : SafeFifoThreads.Call Item)
    (ran : queue.calls caller call = some region) : Leaves queue.semas region := by
  rcases Option.map_eq_some_iff.mp ran with ⟨inner, found, rfl⟩
  exact inner_leaves queue caller inner

theorem load_leaves {place : Nat → Place Item} (live : Live queue)
    (own : ∀ sema, (place sema).inside = some sema) (ran : queue.load place = some region) :
    Leaves queue.semas region := by
  rcases Option.map_eq_some_iff.mp ran with ⟨sema, inUse, rfl⟩
  refine ⟨fun sema present => present, ?_⟩
  intro place goes other inside
  cases goes
  rw [own] at inside
  cases inside
  simpa [Live, inUse] using live

theorem with_sema_leaves {function : Sema → Semaphore.Region}
    {next : Semaphore.Outcome → Outcome Item} (own : ∀ outcome place other, next outcome =
      .goes place → place.inside = some other → other = sema)
    (ran : queue.withSema sema function next = some region) : Leaves queue.semas region := by
  rcases Option.map_eq_some_iff.mp ran with ⟨object, present, rfl⟩
  have reads := read_write present (function object).sema
  refine ⟨?_, ?_⟩
  · intro other exists_
    rw [reads]
    split_ifs
    · rfl
    · exact exists_
  · intro place goes other inside
    rw [reads, if_pos (own _ place other goes inside)]
    rfl

theorem enter_leaves {call : Call Item} (loads : (Action.enter call).loads = true → Live queue)
    (ran : enter queue call = some region) : Leaves queue.semas region := by
  cases call with
  | adds adding => exact load_leaves (loads rfl) (fun _ => rfl) ran
  | remove => exact calls_leaves .removes .remove ran
  | removeOrBlock => exact calls_leaves .removes (.removeOrBlock false) ran
  | clearAll => exact calls_leaves .clearAll .clearAll ran
  | enable => exact calls_leaves .nothing .enable ran
  | disable => exact calls_leaves .nothing .disable ran

theorem adds_leaves {adding : Adding Item} (ran : queue.adds blank adding = some region) :
    Leaves queue.semas region := by
  cases adding with
  | add theD => exact calls_leaves .nothing (.add theD) ran
  | addToHead theD => exact calls_leaves .nothing (.addToHead theD) ran
  | addEmpty =>
      rcases Option.map_eq_some_iff.mp ran with ⟨⟨inner, ret⟩, found, rfl⟩
      exact inner_leaves queue _ inner

theorem acquire_leaves {adding : Adding Item} (ran : queue.acquire sema adding = some region) :
    Leaves queue.semas region := by
  apply with_sema_leaves _ ran
  intro outcome place other goes inside
  split at goes <;> cases goes <;> exact (Option.some.inj inside).symm

theorem resume_leaves {place : Place Item} (loads : (Action.resume place).loads = true → Live queue)
    (keeps : place ≠ .delete) (ran : resume blank queue place = some region) :
    Leaves queue.semas region := by
  cases place with
  | acquire sema adding => exact acquire_leaves ran
  | gtZero sema adding => exact acquire_leaves ran
  | decrement sema adding =>
      have ran : queue.withSema sema (fun object => object.decrement 0)
        (fun _ => .goes (.adding adding)) =
        some region := ran
      apply with_sema_leaves _ ran
      intro outcome place other goes inside
      cases goes
      cases inside
  | adding adding => exact adds_leaves ran
  | fifo place caller =>
      rcases Option.map_eq_some_iff.mp ran with ⟨inner, found, rfl⟩
      exact inner_leaves queue _ inner
  | loadRelease fill => exact load_leaves (loads rfl) (fun _ => rfl) ran
  | release sema fill =>
      have ran : queue.withSema sema Sema.release (fun _ => .returns (.removed true fill)) =
        some region := ran
      apply with_sema_leaves _ ran
      intro outcome place other goes
      cases goes
  | loadReleaseAll =>
      have live := loads rfl
      cases inUse : queue.sizeSema with
      | none => simp [Live, inUse] at live
      | some sema =>
          simp only [resume, BndFifo.loadReleaseAll, inUse] at ran
          cases ran
          refine ⟨fun sema present => present, ?_⟩
          intro place goes other inside
          cases goes
          cases inside
          simpa [Live, inUse] using live
  | releaseAll sema =>
      have ran : queue.withSema sema Sema.releaseAll (fun _ => .goes .delete) = some region := ran
      apply with_sema_leaves _ ran
      intro outcome place other goes inside
      cases goes
      cases inside
  | delete => exact absurd rfl keeps
  | construct =>
      cases ran
      refine ⟨?_, fun place goes => by cases goes⟩
      intro other present
      rcases Option.isSome_iff_exists.mp present with ⟨object, found⟩
      change ((queue.semas.push _).read other).isSome
      rw [read_push_of_present found]
      rfl

theorem delete_cases (ran : queue.delete = some region) :
    region.outcome = .goes .construct ∧ ∀ sema, queue.sizeSema ≠ some sema →
      region.queue.semas.read sema = queue.semas.read sema := by
  unfold BndFifo.delete at ran
  split at ran
  · cases ran
    exact ⟨rfl, fun sema other => rfl⟩
  · rename_i inUse own
    rcases Option.map_eq_some_iff.mp ran with ⟨object, present, rfl⟩
    refine ⟨rfl, ?_⟩
    intro sema other
    have different : sema ≠ inUse := fun same => other (same ▸ own)
    simp only [read_give_up, if_neg different]

/-! ## Every interleaving -/

variable {world next : World Item} {i : Nat} {event : Event Item} {events : List (Event Item)}

theorem all_alive_after {threads after : Threads (Place Item)}
    {thread : Option (Waiter (Place Item))}
    (acts : Acts stop threads i thread region.wake (placeAfter region.outcome) after)
    (others : ∀ j place, j ≠ i → jobAt threads j = some place → Alive region.queue.semas place)
    (onward : ∀ place, region.outcome = .goes place → Alive region.queue.semas place) :
    AllAlive ⟨region.queue, after⟩ := by
  intro j place has
  rw [acts_job acts] at has
  by_cases same : j = i
  · rw [if_pos same] at has
    apply onward
    cases outcome : region.outcome with
    | goes own =>
        rw [outcome] at has
        exact congrArg Outcome.goes (Option.some.inj has)
    | returns result =>
        rw [outcome] at has
        cases has
  · rw [if_neg same] at has
    exact others j place same has

theorem step_alive (careful : Careful event) (alive : AllAlive world)
    (step : Step blank world event next) :
    event.action.isStale = false ∧ AllAlive next := by
  cases step with
  | enter ran acts =>
      have leaves := enter_leaves careful.loads ran
      refine ⟨rfl, all_alive_after acts ?_ leaves.onward⟩
      exact fun j place _ has sema inside => leaves.kept sema (alive j place has sema inside)
  | resume ran acts =>
      rename_i i place signalled region woken
      refine ⟨rfl, ?_⟩
      by_cases deletes : place = .delete
      · subst deletes
        rcases delete_cases ran with ⟨outcome, others⟩
        apply all_alive_after acts
        · intro j place _ has sema inside
          rcases present_of_job_at has with ⟨mark, present⟩
          have bound : j < world.threads.length := (List.getElem?_eq_some_iff.mp present).1
          have apart : world.queue.sizeSema ≠ some sema := by
            intro inUse
            apply careful.deletes rfl sema inUse j bound
            rw [has]
            exact inside
          rw [others sema apart]
          exact alive j place has sema inside
        · intro place goes sema inside
          rw [outcome] at goes
          cases goes
          cases inside
      · have leaves := resume_leaves careful.loads deletes ran
        apply all_alive_after acts _ leaves.onward
        exact fun j place _ has sema inside => leaves.kept sema (alive j place has sema inside)
  | stale lost acts =>
      rename_i i place signalled threads
      have exists_ : ∀ sema, world.uses place = some sema →
          (world.queue.semas.read sema).isSome := by
        intro sema works
        by_cases deletes : place = .delete
        · subst deletes
          have live := careful.loads rfl
          have inUse : world.queue.sizeSema = some sema := works
          simpa [inUse] using live
        · apply alive i place (job_at_of_present (acts_stands acts)) sema
          cases place <;> first | exact works | exact absurd rfl deletes
      exfalso
      rcases (Option.any_eq_true _ _).mp lost with ⟨sema, works, deleted⟩
      have present := exists_ sema works
      rw [Option.isNone_iff_eq_none.mp deleted] at present
      cases present

theorem all_alive_new (max : Int) (count : Nat) : AllAlive (World.new max count : World Item) := by
  intro i place has
  rw [World.new, job_at_nobody] at has
  cases has

theorem run_alive {max : Int} {count : Nat}
    (run : Run blank Careful (World.new max count) events world) :
    AllAlive world ∧ ∀ event ∈ events, Careful event ∧ event.action.isStale = false := by
  induction run with
  | start => exact ⟨all_alive_new max count, fun event member => absurd member List.not_mem_nil⟩
  | step run allowed step ih =>
      rcases step_alive allowed ih.1 step with ⟨fine, alive⟩
      refine ⟨alive, ?_⟩
      intro event member
      rcases List.mem_append.mp member with earlier | last
      · exact ih.2 event earlier
      · rw [List.mem_singleton.mp last]
        exact ⟨allowed, fine⟩

/-- In every run of any number of threads in which `clearAll` makes no step while a thread is
blocked in `acquire()`, reads of `_sizeSema` find a semaphore, and none is deleted with a thread
inside it, the bounded queue clears safely. -/
theorem bnd_fifo_clears_safely (blank : Item) (max : Int) (count : Nat)
    (run : Run blank Careful (World.new max count) events world) :
    NeverStale events ∧ TakesNewPermits events := by
  have fine := (run_alive run).2
  refine ⟨fun event member => (fine event member).2, ?_⟩
  apply List.pairwise_iff_getElem.mpr
  intro j k atJ _ _ clears blocked
  have unblocked := (fine _ (List.getElem_mem atJ)).1.waits clears
  rcases Option.any_eq_true _ _ |>.mp blocked with ⟨place, has, -⟩
  rcases present_of_job_at has with ⟨mark, present⟩
  rw [unblocked _ (List.getElem?_eq_some_iff.mp present).1] at blocked
  cases blocked

/-! ## A full queue is cleared -/

/-- Thread 0 fills the queue, threads 1 and 2 block, and thread 0 clears the queue. Its
`releaseAll()` gives thread 1 a permit of the old semaphore; thread 2 still waits when that is
deleted. -/
def clearWhileBlocked : List (Turn Nat) :=
  [.enter 0 (.adds (.add 1)), .resume 0 none, .resume 0 none, .resume 0 none, .resume 0 none,
    .resume 0 none,
    .enter 1 (.adds (.add 2)), .resume 1 none, .enter 2 (.adds (.add 3)), .resume 2 none,
    .enter 0 .clearAll, .resume 0 none, .resume 0 none, .resume 0 none,
    .resume 1 none, .resume 1 none, .resume 2 none, .resume 0 none, .resume 2 none]

theorem bnd_fifo_may_clear_unsafely :
    ∃ events world, Run 0 (fun _ => True) (World.new 1 3 : World Nat) events world ∧
      ¬ NeverStale events ∧ ¬ TakesNewPermits events := by
  have checked : (playAll (play 0) (World.new 1 3) clearWhileBlocked).any (fun played =>
      decide (¬ NeverStale played.1 ∧ ¬ TakesNewPermits played.1)) = true := by decide +kernel
  rcases (Option.any_eq_true _ _).mp checked with ⟨⟨events, world⟩, played, fails⟩
  exact ⟨events, world, play_all_run play_step played fun _ _ => trivial, of_decide_eq_true fails⟩

/-- Thread 0 clears a full queue on which nobody waits, and thread 1 adds to it. -/
def clearWhenQuiet : List (Turn Nat) :=
  [.enter 0 (.adds (.add 1)), .resume 0 none, .resume 0 none, .resume 0 none, .resume 0 none,
    .resume 0 none,
    .enter 0 .clearAll, .resume 0 none, .resume 0 none, .resume 0 none, .resume 0 none,
    .resume 0 none,
    .enter 1 (.adds (.add 2)), .resume 1 none, .resume 1 none]

theorem bnd_fifo_clears_safely_when_quiet :
    ∃ events world, playAll (play 0) (World.new 1 2) clearWhenQuiet = some (events, world) ∧
      NeverStale events ∧ TakesNewPermits events := by
  have checked : (playAll (play 0) (World.new 1 2) clearWhenQuiet).any (fun played =>
      decide (∀ event ∈ played.1, Careful event)) = true := by decide +kernel
  rcases (Option.any_eq_true _ _).mp checked with ⟨⟨events, world⟩, played, careful⟩
  have run : Run 0 Careful (World.new 1 2) events world :=
    play_all_run play_step played (of_decide_eq_true careful)
  exact ⟨events, world, played, bnd_fifo_clears_safely 0 1 2 run⟩

end TWlib.BndSafeFifo
