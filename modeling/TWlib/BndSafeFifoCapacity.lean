import TWlib.BndSafeFifo

/-!
# The bound and the capacity of the bounded queue

`Whole` says which values the inner queue holds and how many permits its semaphore has. `Ends` says
once what a call of each kind does to the two numbers. Every call keeps their sum, except an adding
one that the inner queue refuses because it is disabled: it has taken its permit by then.
-/

namespace TWlib.BndSafeFifo

open TWlib.Lib.CellStore TWlib.Lib.MachineInt TWlib.Lib.Monitor TWlib.SafeFifoRegions
open TWlib.SafeFifo (Fifo Links)
open TWlib.Semaphore (Sema)

set_option autoImplicit false

variable {Item : Type*}

/-! ## Runs of one call after the other -/

def Call.isAdding : Call Item → Bool
  | .adds _ => true
  | _ => false

structure Taken (Item : Type*) where
  before : BndFifo Item
  call : Call Item
  after : BndFifo Item

inductive Sequence (blank : Item) (first : BndFifo Item) :
    List (Taken Item) → BndFifo Item → Prop where
  | start : Sequence blank first [] first
  | step {history : List (Taken Item)} {call : Call Item} {queue next : BndFifo Item}
      {result : Result Item}
      (sequence : Sequence blank first history queue)
      (performed : perform blank queue call = some (.returns next result)) :
      Sequence blank first (history ++ [⟨queue, call, next⟩]) next

/-- Permits and elements together are what the queue was made for, and an add does not block while
there is room. -/
structure InBalance (blank : Item) (max : Int) (queue : BndFifo Item) : Prop where
  balance : ∃ permits, queue.permits = some permits ∧ permits + queue.remaining = max
  bounded : queue.remaining ≤ max
  opens : queue.remaining < max → ∀ adding, ∃ next result,
    perform blank queue (.adds adding) = some (.returns next result)

/-- Whenever no call is in progress the queue is in balance, and no add is refused. -/
def KeepsCapacity (blank : Item) (max : Int) (history : List (Taken Item))
    (queue : BndFifo Item) : Prop :=
  InBalance blank max queue ∧ ∀ taken ∈ history, InBalance blank max taken.before ∧
    (taken.call.isAdding = true → taken.after.remaining = taken.before.remaining + 1)

/-! ## What a call does -/

structure Whole (max : Int) (queue : BndFifo Item) (items : List Item) (permits : Int) : Prop where
  represents : ∃ cells, Represents queue.fifo queue.links cells items
  sema : ∃ sema, queue.sizeSema = some sema ∧ queue.semas.read sema = some ⟨permits⟩
  max : queue.max = max

inductive Ends (max : Int) (queue : BndFifo Item) (items : List Item) (permits : Int) :
    Call Item → Ended Item → Prop where
  | blocks {adding : Adding Item} (short : permits < 1) :
      Ends max queue items permits (.adds adding) .blocks
  | stores {adding : Adding Item} {next : BndFifo Item} {result : Result Item} {now : List Item}
      (positive : 0 < permits) (accepts : queue.fifo.enabled = true)
      (whole : Whole max next now (asInt (permits - 1)))
      (longer : now.length = items.length + 1) :
      Ends max queue items permits (.adds adding) (.returns next result)
  | refuses {adding : Adding Item} {next : BndFifo Item} {result : Result Item}
      (positive : 0 < permits)
      (refuses : queue.fifo.enabled = false) (whole : Whole max next items (asInt (permits - 1))) :
      Ends max queue items permits (.adds adding) (.returns next result)
  | removes {call : Call Item} {next : BndFifo Item} {item : Item} {others : List Item}
      {result : Result Item}
      (other : call.isAdding = false) (split : items = item :: others)
      (whole : Whole max next others (asInt (permits + 1))) :
      Ends max queue items permits call (.returns next result)
  | clears {next : BndFifo Item} {result : Result Item} (whole : Whole max next [] max) :
      Ends max queue items permits .clearAll (.returns next result)
  | stays {call : Call Item} {next : BndFifo Item} {result : Result Item}
      (other : call.isAdding = false)
      (whole : Whole max next items permits) :
      Ends max queue items permits call (.returns next result)

variable {blank : Item} {max permits : Int} {queue : BndFifo Item} {items : List Item}

theorem permits_less (positive : 0 < permits) (fits : permits ≤ intMax) :
    asInt (permits - 1) = permits - 1 :=
  as_int_of_bounds (by omega) (by omega)

theorem permits_more (notNegative : 0 ≤ permits) (room : permits < intMax) :
    asInt (permits + 1) = permits + 1 :=
  as_int_of_bounds (by omega) (by omega)

theorem whole_new (max : Int) : Whole max (BndFifo.new max : BndFifo Item) [] max :=
  ⟨⟨[], represents_new⟩, ⟨0, rfl, rfl⟩, rfl⟩

theorem whole_permits (whole : Whole max queue items permits) : queue.permits = some permits := by
  rcases whole.sema with ⟨sema, inUse, present⟩
  simp [BndFifo.permits, inUse, present, Sema.count]

theorem whole_remaining (whole : Whole max queue items permits) :
    queue.remaining = items.length := by
  rcases whole.represents with ⟨cells, represents⟩
  exact represents.counted

theorem whole_inner {fifo : Fifo} {links : Links Item} {cells : List Nat} {now : List Item}
    (whole : Whole max queue items permits) (represents : Represents fifo links cells now) :
    Whole max { queue with fifo, links } now permits := ⟨⟨cells, represents⟩, whole.sema, whole.max⟩

theorem whole_sema {sema : Nat} {object : Sema} (whole : Whole max queue items permits)
    (inUse : queue.sizeSema = some sema) (present : queue.semas.read sema = some object)
    (now : Int) :
    Whole max { queue with semas := queue.semas.write sema ⟨now⟩ } items now :=
  ⟨whole.represents, ⟨sema, inUse, by simp [read_write present]⟩, whole.max⟩

theorem unblock_alone (blank : Item) (wake : Wake Stop) (caller : Caller) (fuel : Nat)
    {result : Result Item} (whole : Whole max queue items permits)
    (back : caller.back true (none : Option Item) = .returns result) :
    ∃ next, alone blank (fuel + 1) ⟨queue, wake, .goes (.fifo .unblock caller)⟩ =
      some (.returns next result) ∧
      Whole max next items permits := by
  rcases whole.represents with ⟨cells, represents⟩
  refine ⟨_, ?_, whole_inner whole (represents_unblock represents)⟩
  have outcome := SafeFifoThreads.unblock_outcome queue.fifo queue.links
  simp only [alone, resume, SafeFifoThreads.resume, Option.map_some, Option.bind_some,
    BndFifo.inner, outcome, back]

/-- The region of the inner queue stores one value more, or nothing when the queue is disabled. -/
def Stores (enabled : Bool) (items : List Item) (ran : Option (SafeFifo.Region Item)) : Prop :=
  ∃ fifo links cells now, ran = some ⟨fifo, links, .nobody, .goes .unblock⟩ ∧
    Represents fifo links cells now ∧ if enabled then now.length = items.length + 1 else now = items

variable {fifo : Fifo} {links : Links Item} {cells : List Nat}

theorem add_stores (represents : Represents fifo links cells items) {newlink : Nat} {theD : Item}
    (made : links.read newlink = some ⟨theD, none⟩) (outside : newlink ∉ cells) :
    Stores fifo.enabled items (fifo.add links newlink) := by
  cases accepts : fifo.enabled with
  | false => exact ⟨fifo, links, cells, items, by simp [Fifo.add, accepts], represents, rfl⟩
  | true =>
      rcases append_eq represents made outside with ⟨after, appended, grown, -⟩
      exact ⟨_, after, _, _, by simp [Fifo.add, accepts, appended], grown, by simp⟩

theorem add_to_head_stores (represents : Represents fifo links cells items) (theD : Item) :
    Stores fifo.enabled items (fifo.addToHead id links theD) := by
  cases accepts : fifo.enabled with
  | false => exact ⟨fifo, links, cells, items, by simp [Fifo.addToHead, accepts], represents, rfl⟩
  | true =>
      rcases add_to_head_eq id represents theD accepts with ⟨grown, after, now, added,
        represented, -⟩
      exact ⟨grown, after, now, _, added, represented, rfl⟩

theorem add_empty_stores (represents : Represents fifo links cells items) (blank : Item) :
    ∃ region ret, fifo.addEmpty blank links = some (region, ret) ∧
    Stores fifo.enabled items (some region) := by
  cases accepts : fifo.enabled with
  | false =>
      exact ⟨_, none, by simp [Fifo.addEmpty, accepts], fifo, links, cells, items, rfl,
        represents, rfl⟩
  | true =>
      rcases add_empty_eq represents blank accepts with ⟨grown, after, now, added, represented, -⟩
      exact ⟨_, _, added, grown, after, now, _, rfl, represented, by simp⟩

/-- What an adding call does once it has its permit: the value is in the queue, or the inner queue
has refused it. -/
theorem adding_alone (blank : Item) (wake : Wake Stop) (whole : Whole max queue items permits)
    (adding : Adding Item) :
    ∃ next result now, alone blank 4 ⟨queue, wake, .goes (.adding adding)⟩ =
      some (.returns next result) ∧
      Whole max next now permits ∧
      if queue.fifo.enabled then now.length = items.length + 1 else now = items := by
  rcases whole.represents with ⟨cells, represents⟩
  cases adding with
  | add theD =>
      rcases represents_push represents (⟨theD, none⟩ : SafeFifo.Link Item) with ⟨pushed, outside,
        -⟩
      have made : (queue.links.push ⟨theD, none⟩).read queue.links.fresh = some ⟨theD,
        none⟩ := by simp [read_push]
      rcases add_stores pushed made outside with ⟨fifo, links, _, now, added, represented, length⟩
      rcases unblock_alone blank .nobody .nothing 1
        (whole_inner whole represented) rfl with ⟨next, ended, still⟩
      refine ⟨next, .nothing, now, ?_, still, length⟩
      rw [← ended]
      simp [alone, resume, BndFifo.adds, BndFifo.calls, BndFifo.inner, SafeFifoThreads.enter,
        SafeFifoThreads.resume, Fifo.addOutside, SafeFifo.initLink, added, Wake.map]
  | addToHead theD =>
      rcases add_to_head_stores represents theD with ⟨fifo, links, _, now, added,
        represented, length⟩
      rcases unblock_alone blank .nobody .nothing 2
        (whole_inner whole represented) rfl with ⟨next, ended, still⟩
      refine ⟨next, .nothing, now, ?_, still, length⟩
      rw [← ended]
      simp [alone, resume, BndFifo.adds, BndFifo.calls, BndFifo.inner, SafeFifoThreads.enter,
        added, Wake.map]
  | addEmpty =>
      rcases add_empty_stores represents blank with
        ⟨region, ret, found, fifo, links, _, now, added, represented, length⟩
      cases added
      rcases unblock_alone blank .nobody (.addEmpty ret) 2
        (whole_inner whole represented) rfl with ⟨next, ended, still⟩
      refine ⟨next, .link ret, now, ?_, still, length⟩
      rw [← ended]
      simp [alone, resume, BndFifo.adds, BndFifo.inner, found, Wake.map]

/-- To look at the semaphore in use again is to begin the call again. -/
theorem go_on_again {sema : Nat} (inUse : queue.sizeSema = some sema) (blank : Item)
    (adding : Adding Item) :
    (resume blank queue (.gtZero sema adding)).bind (alone blank 5) = perform blank queue
    (.adds adding) := by
  simp only [perform, enter, BndFifo.load, inUse, Option.map_some, Option.bind_some]
  rfl

theorem go_on_adds {sema : Nat} (present : queue.semas.read sema = some ⟨permits⟩)
    (enough : ¬ permits < 1) (blank : Item) (adding : Adding Item) :
    (resume blank queue (.gtZero sema adding)).bind (alone blank 5) = alone blank 4
      ⟨{ queue with semas := queue.semas.write sema ⟨asInt (permits - 1)⟩ }, .nobody,
        .goes (.adding adding)⟩ := by
  have written : ∀ first second : Sema,
      (queue.semas.write sema first).write sema second = queue.semas.write sema second := by
    intro first second
    simp [Store.write]
  simp [alone, resume, BndFifo.acquire, BndFifo.withSema, present, Sema.acquire, enough,
    Sema.decrement,
    read_write present, Wake.map, written]

theorem go_on_blocks {sema : Nat} (present : queue.semas.read sema = some ⟨permits⟩)
    (short : permits < 1) (blank : Item) (adding : Adding Item) :
    (resume blank queue (.gtZero sema adding)).bind (alone blank 5) = some .blocks := by
  simp [alone, resume, BndFifo.acquire, BndFifo.withSema, present, Sema.acquire, short]

theorem go_on_gone {sema : Nat} (gone : queue.semas.read sema = none) (blank : Item)
    (adding : Adding Item) :
    resume blank queue (.gtZero sema adding) = none := by
  simp only [resume, BndFifo.acquire, BndFifo.withSema, gone, Option.map_none]

theorem perform_adds {sema : Nat} (inUse : queue.sizeSema = some sema)
    (present : queue.semas.read sema = some ⟨permits⟩) (enough : ¬ permits < 1) (blank : Item)
    (adding : Adding Item) :
    perform blank queue (.adds adding) = alone blank 4
      ⟨{ queue with semas := queue.semas.write sema ⟨asInt (permits - 1)⟩ }, .nobody,
        .goes (.adding adding)⟩ :=
  (go_on_again inUse blank adding).symm.trans (go_on_adds present enough blank adding)

theorem perform_adds_blocks {sema : Nat} (inUse : queue.sizeSema = some sema)
    (present : queue.semas.read sema = some ⟨permits⟩) (short : permits < 1) (blank : Item)
    (adding : Adding Item) :
    perform blank queue (.adds adding) = some .blocks :=
  (go_on_again inUse blank adding).symm.trans (go_on_blocks present short blank adding)

theorem adds_ends (whole : Whole max queue items permits) (adding : Adding Item) :
    ∃ ended, perform blank queue (.adds adding) = some ended ∧
      Ends max queue items permits (.adds adding) ended := by
  rcases whole.sema with ⟨sema, inUse, present⟩
  by_cases short : permits < 1
  · exact ⟨.blocks, perform_adds_blocks inUse present short blank adding, .blocks short⟩
  · have taken : Whole max { queue with semas := queue.semas.write sema ⟨asInt (permits - 1)⟩ }
      items
      (asInt (permits - 1)) := whole_sema whole inUse present _
    rcases adding_alone blank .nobody taken adding with ⟨next, result, now, ended, still, length⟩
    refine ⟨.returns next result, ?_, ?_⟩
    · rw [perform_adds inUse present short]
      exact ended
    · cases accepts : queue.fifo.enabled with
      | true => exact .stores (by omega) accepts still (by simpa [accepts] using length)
      | false =>
          have same : now = items := by simpa [accepts] using length
          exact .refuses (by omega) accepts (same ▸ still)

structure SameSemas (queue next : BndFifo Item) : Prop where
  inUse : next.sizeSema = queue.sizeSema
  fresh : next.semas.fresh = queue.semas.fresh
  gone : ∀ sema, queue.semas.read sema = none → next.semas.read sema = none

theorem same_semas_refl (queue : BndFifo Item) : SameSemas queue queue :=
  ⟨rfl, rfl, fun _ gone => gone⟩

theorem same_semas_write {sema : Nat} {object : Sema}
    (present : queue.semas.read sema = some object) (now : Sema) (fifo : Fifo)
    (links : Links Item) :
    SameSemas queue { queue with fifo, links, semas := queue.semas.write sema now } := by
  refine ⟨rfl, fresh_write _ _ _, fun other gone => ?_⟩
  have different : other ≠ sema := by
    rintro rfl
    rw [present] at gone
    cases gone
  rw [read_write present, if_neg different, gone]

/-- Another semaphore is in use, and the one that was, is gone. -/
structure DropsSema (queue next : BndFifo Item) : Prop where
  fresh : queue.semas.fresh ≤ next.semas.fresh
  gone : ∀ sema < queue.semas.fresh, queue.sizeSema = some sema ∨ queue.semas.read sema = none →
    next.semas.read sema = none

theorem release_alone (blank : Item) (wake : Wake Stop) (fuel : Nat)
    (whole : Whole max queue items permits) (fill : Option Item) :
    ∃ next, alone blank (fuel + 2) ⟨queue, wake, .goes (.loadRelease fill)⟩ =
        some (.returns next (.removed true fill)) ∧ Whole max next items (asInt (permits + 1)) ∧
        next.fifo = queue.fifo ∧
      SameSemas queue next := by
  rcases whole.sema with ⟨sema, inUse, present⟩
  refine ⟨{ queue with semas := queue.semas.write sema ⟨asInt (permits + 1)⟩ }, ?_,
    whole_sema whole inUse present _, rfl,
    same_semas_write present _ _ _⟩
  simp only [alone, resume, BndFifo.load, inUse, Option.map_some, Option.bind_some,
    BndFifo.withSema, present,
    Sema.release]

/-- What a removal does to a queue that holds `items`, and what it returns. -/
def Removes (max : Int) (enabled : Bool) (items : List Item) (permits : Int) (next : BndFifo Item)
    (result : Result Item) : Prop :=
  next.fifo.enabled = enabled ∧ match items with
    | [] => result = .removed false none ∧ Whole max next [] permits
    | item :: others =>
        result = .removed true (some item) ∧ Whole max next others (asInt (permits + 1))

theorem removes_ends {call : Call Item} {next : BndFifo Item} {result : Result Item}
    (other : call.isAdding = false)
    (removes : Removes max queue.fifo.enabled items permits next result) :
    Ends max queue items permits call (.returns next result) := by
  cases items with
  | nil => exact .stays other removes.2.2
  | cons item others => exact .removes other rfl removes.2.2

theorem take_out_removes (blank : Item) (fuel : Nat) (whole : Whole max queue items permits) :
    ∃ next result, ((queue.fifo.dropIn.takeOut queue.links).map (queue.inner .removes)).bind
      (alone blank (fuel + 2)) =
      some (.returns next result) ∧ Removes max queue.fifo.enabled items permits next result ∧
      SameSemas queue next := by
  rcases whole.represents with ⟨cells, represents⟩
  rcases take_out_eq represents with
    ⟨rfl, missed⟩ | ⟨item, others, shorter, after, now, rfl, took, rest, -, enabled, -⟩
  · refine ⟨queue, .removed false none, ?_, ⟨rfl, rfl, whole⟩, same_semas_refl queue⟩
    rw [missed]
    rfl
  · rcases release_alone blank .nobody fuel (whole_inner whole rest) (some item) with
      ⟨next, ended, still, same, inUse, fresh, gone⟩
    refine ⟨next, .removed true (some item), ?_, ⟨?_, rfl, still⟩, inUse, fresh, gone⟩
    · rw [took, ← ended]
      rfl
    · rw [same]
      exact enabled

theorem remove_removes (blank : Item) (whole : Whole max queue items permits) :
    ∃ next result, perform blank queue .remove = some (.returns next result) ∧
      Removes max queue.fifo.enabled items permits next result ∧ SameSemas queue next :=
  take_out_removes blank 4 whole

theorem remove_or_block_removes (blank : Item) (whole : Whole max queue items permits) :
    ∃ next result, perform blank queue .removeOrBlock = some (.returns next result) ∧
      Removes max queue.fifo.enabled items permits next result ∧ SameSemas queue next := by
  rcases whole.represents with ⟨cells, represents⟩
  cases empty : queue.fifo.out.isNone with
  | false =>
      have found : queue.fifo.removeOrBlock queue.links false =
          queue.fifo.dropIn.takeOut queue.links := by
        simp only [Fifo.removeOrBlock, drop_in_out, empty, Bool.false_eq_true, if_false,
          drop_in_twice]
      simp only [perform, enter, BndFifo.calls, SafeFifoThreads.enter, found]
      exact take_out_removes blank 4 whole
  | true =>
      -- nothing has come when the wait ends
      have nothing : items = [] := by
        rw [out_is_none_iff represents] at empty
        exact List.isEmpty_iff.mp empty
      subst nothing
      have noCells : cells = [] := TWlib.Lib.ValueChain.carries_no_cells represents.carried
      subst noCells
      let waiting : Fifo := { queue.fifo with blockCnt := asInt (queue.fifo.blockCnt + 1) }
      have waits : queue.fifo.removeOrBlock queue.links false =
          some ⟨waiting, queue.links, .nobody, .goes (.removeOrBlock false)⟩ := by
        simp only [Fifo.removeOrBlock, empty, if_true, drop_in_empty represents, waiting]
      have still : Represents waiting queue.links [] [] :=
        represents_flags represents queue.fifo.enabled _
      rcases take_out_removes blank 3 (whole_inner whole still) with ⟨next, result, same, removes,
        inUse, fresh, gone⟩
      refine ⟨next, result, ?_, removes, inUse, fresh, gone⟩
      rw [← same]
      simp only [perform, enter, BndFifo.calls, SafeFifoThreads.enter, waits]
      rfl

theorem clear_all_clears (blank : Item) (whole : Whole max queue items permits) :
    ∃ next, perform blank queue .clearAll = some (.returns next .nothing) ∧ Whole max next [] max ∧
      next.fifo.enabled = queue.fifo.enabled ∧ DropsSema queue next := by
  rcases whole.represents with ⟨cells, represents⟩
  rcases whole.sema with ⟨sema, inUse, present⟩
  rcases clear_all_eq represents false with ⟨after, cleared, empty, -⟩
  let fifo : Fifo := { queue.fifo with out := none, inn := none, remain := 0 }
  let unblocked := fifo.unblockAll after false
  let semas := ((queue.semas.write sema ⟨asInt (permits + 1)⟩).giveUp sema).push ⟨queue.max⟩
  let next : BndFifo Item :=
    { queue with fifo := unblocked.fifo, links := unblocked.links, semas,
                 sizeSema := some queue.semas.fresh }
  have still : Represents unblocked.fifo unblocked.links [] [] := represents_unblock_all empty false
  have outcome : unblocked.outcome = .returns true none := by
    simp only [unblocked, SafeFifoThreads.unblock_all_outcome, Bool.false_eq_true, if_false]
  have enabled : unblocked.fifo.enabled = queue.fifo.enabled := by
    rcases unblock_all_eq fifo after false with ⟨blockCnt, inner, -⟩
    rw [show unblocked.fifo = { fifo with blockCnt } from inner]
  have drops : DropsSema queue next := by
    refine ⟨by simp [next, semas], fun other bound which => ?_⟩
    have older : other ≠ ((queue.semas.write sema ⟨asInt (permits + 1)⟩).giveUp sema).fresh := by
      simpa using Nat.ne_of_lt bound
    simp only [next, semas]
    rw [read_push, if_neg older, read_give_up, read_write present]
    rcases which with same | gone
    · rw [if_pos (Option.some.inj (same.symm.trans inUse))]
    · rw [gone]
      split_ifs <;> rfl
  refine ⟨next, ?_, ⟨⟨[], still⟩, ⟨_, rfl, ?_⟩, whole.max⟩, enabled, drops⟩
  · simp only [unblocked, fifo] at outcome
    simp [perform, enter, BndFifo.calls, SafeFifoThreads.enter, cleared, BndFifo.inner,
      alone, resume,
      SafeFifoThreads.resume, outcome, Caller.back, BndFifo.loadReleaseAll, inUse,
      BndFifo.withSema, present,
      Sema.releaseAll, BndFifo.delete, read_write present, BndFifo.construct, next, unblocked,
      fifo, semas]
  · simp [next, semas, read_push, whole.max]

theorem perform_ends (blank : Item) (whole : Whole max queue items permits) (call : Call Item) :
    ∃ ended, perform blank queue call = some ended ∧ Ends max queue items permits call ended := by
  rcases whole.represents with ⟨cells, represents⟩
  have switched : ∀ enabled, Represents { queue.fifo with enabled } queue.links cells items :=
    fun enabled =>
    represents_flags represents enabled queue.fifo.blockCnt
  cases call with
  | adds adding => exact adds_ends whole adding
  | remove =>
      rcases remove_removes blank whole with ⟨next, result, same, removes, -⟩
      exact ⟨_, same, removes_ends rfl removes⟩
  | removeOrBlock =>
      rcases remove_or_block_removes blank whole with ⟨next, result, same, removes, -⟩
      exact ⟨_, same, removes_ends rfl removes⟩
  | clearAll =>
      rcases clear_all_clears blank whole with ⟨next, same, clears, -⟩
      exact ⟨_, same, .clears clears⟩
  | enable => exact ⟨_, rfl, .stays rfl (whole_inner whole (switched true))⟩
  | disable => exact ⟨_, rfl, .stays rfl (whole_inner whole (switched false))⟩

/-! ## Every sequence -/

variable {history : List (Taken Item)}

/-- In every state there is a whole number of permits, and permits and elements are at most the
bound. -/
theorem sequence_whole (positive : 0 ≤ max) (fits : max ≤ intMax)
    (sequence : Sequence blank (.new max) history queue) :
    ∃ items permits, Whole max queue items permits ∧ 0 ≤ permits ∧
    permits + items.length ≤ max := by
  induction sequence with
  | start => exact ⟨[], max, whole_new max, positive, by simp⟩
  | step sequence performed ih =>
      rename_i history call queue next result
      rcases ih with ⟨items, permits, whole, notNegative, within⟩
      rcases perform_ends blank whole call with ⟨ended, same, ends⟩
      cases Option.some.inj (performed.symm.trans same)
      cases ends with
      | stores some_permit accepts still longer =>
          have less := permits_less some_permit (by omega)
          exact ⟨_, _, still, by omega, by omega⟩
      | refuses some_permit refuses still =>
          have less := permits_less some_permit (by omega)
          exact ⟨_, _, still, by omega, by omega⟩
      | removes other split still =>
          subst split
          simp only [List.length_cons] at within
          have more := permits_more notNegative (by omega)
          exact ⟨_, _, still, by omega, by omega⟩
      | clears still => exact ⟨[], max, still, positive, by simp⟩
      | stays other still => exact ⟨items, permits, still, notNegative, within⟩

theorem sequence_taken (positive : 0 ≤ max) (fits : max ≤ intMax)
    (sequence : Sequence blank (.new max) history queue) :
    ∀ taken ∈ history, ∃ items permits result, Whole max taken.before items permits ∧
      perform blank taken.before taken.call = some (.returns taken.after result) := by
  induction sequence with
  | start => exact fun taken member => absurd member List.not_mem_nil
  | step sequence performed ih =>
      intro taken member
      rcases List.mem_append.mp member with earlier | last
      · exact ih taken earlier
      · rcases sequence_whole positive fits sequence with ⟨items, permits, whole, -⟩
        rw [List.mem_singleton.mp last]
        exact ⟨items, permits, _, whole, performed⟩

theorem in_balance_of_whole (blank : Item) (whole : Whole max queue items permits)
    (notNegative : 0 ≤ permits) (balance : permits + items.length = max) :
    InBalance blank max queue := by
  have counted := whole_remaining whole
  refine ⟨⟨permits, whole_permits whole, by omega⟩, by omega, ?_⟩
  intro room adding
  rcases perform_ends blank whole (.adds adding) with ⟨ended, same, ends⟩
  cases ends with
  | blocks short => omega
  | stores some_permit accepts still longer => exact ⟨_, _, same⟩
  | refuses some_permit refuses still => exact ⟨_, _, same⟩
  | removes other split still => cases other
  | stays other still => cases other

theorem ends_balanced {call : Call Item} {next : BndFifo Item} {result : Result Item}
    (fits : max ≤ intMax) (notNegative : 0 ≤ permits) (balance : permits + items.length = max)
    (enabled : call.isAdding = true → queue.fifo.enabled = true)
    (whole : Whole max queue items permits)
    (ends : Ends max queue items permits call (.returns next result)) :
    (∃ now free, Whole max next now free ∧ 0 ≤ free ∧ free + now.length = max) ∧
      (call.isAdding = true → next.remaining = queue.remaining + 1) := by
  have counted := whole_remaining whole
  cases ends with
  | stores some_permit accepts still longer =>
      have after := whole_remaining still
      have less := permits_less some_permit (by omega)
      exact ⟨⟨_, _, still, by omega, by omega⟩, fun _ => by omega⟩
  | refuses some_permit refuses still =>
      rw [enabled rfl] at refuses
      cases refuses
  | removes other split still =>
      subst split
      simp only [List.length_cons] at balance
      have more := permits_more notNegative (by omega)
      exact ⟨⟨_, _, still, by omega, by omega⟩, fun adds => by simp [other] at adds⟩
  | clears still => exact ⟨⟨[], max, still, by omega, by simp⟩, fun adds => by cases adds⟩
  | stays other still =>
      exact ⟨⟨items, permits, still, notNegative, balance⟩, fun adds => by simp [other] at adds⟩

theorem sequence_balanced (positive : 0 ≤ max) (fits : max ≤ intMax)
    (sequence : Sequence blank (.new max) history queue)
    (enabled : ∀ taken ∈ history, taken.call.isAdding = true → taken.before.fifo.enabled = true) :
    (∃ items permits, Whole max queue items permits ∧ 0 ≤ permits ∧ permits + items.length = max) ∧
      ∀ taken ∈ history, InBalance blank max taken.before ∧
        (taken.call.isAdding = true → taken.after.remaining = taken.before.remaining + 1) := by
  induction sequence with
  | start =>
      exact ⟨⟨[], max, whole_new max, positive, by simp⟩,
        fun taken member => absurd member List.not_mem_nil⟩
  | step sequence performed ih =>
      rename_i history call queue next result
      rcases ih fun taken member => enabled taken (List.mem_append_left _ member) with
        ⟨⟨items, permits, whole, notNegative, balance⟩, before⟩
      rcases perform_ends blank whole call with ⟨ended, same, ends⟩
      cases Option.some.inj (performed.symm.trans same)
      have accepted : call.isAdding = true → queue.fifo.enabled = true :=
        enabled ⟨queue, call, next⟩ (by simp)
      rcases ends_balanced fits notNegative balance accepted whole ends with ⟨balanced, stored⟩
      refine ⟨balanced, ?_⟩
      intro taken member
      rcases List.mem_append.mp member with earlier | last
      · exact before taken earlier
      · rw [List.mem_singleton.mp last]
        exact ⟨in_balance_of_whole blank whole notNegative balance, stored⟩

/-- The bounded queue keeps its bound and its capacity through a sequence of calls exactly when no
add is made while the queue is disabled. -/
theorem bnd_fifo_keeps_capacity_iff (blank : Item) (max : Int) (positive : 1 ≤ max)
    (fits : max ≤ intMax) {history : List (Taken Item)} {queue : BndFifo Item}
    (sequence : Sequence blank (.new max) history queue) :
    KeepsCapacity blank max history queue ↔
      ∀ taken ∈ history, taken.call.isAdding = true → taken.before.fifo.enabled = true := by
  have atLeast : 0 ≤ max := by omega
  constructor
  · intro keeps taken member adds
    rcases sequence_taken atLeast fits sequence taken member with ⟨items, permits, result,
      whole, performed⟩
    rcases perform_ends blank whole taken.call with ⟨ended, same, ends⟩
    cases Option.some.inj (performed.symm.trans same)
    have stored := (keeps.2 taken member).2 adds
    have before := whole_remaining whole
    generalize taken.call = call at ends adds
    generalize taken.after = after at ends stored
    cases ends with
    | stores some_permit accepts still longer => exact accepts
    | refuses some_permit refuses still =>
        have after := whole_remaining still
        omega
    | removes other split still => simp [other] at adds
    | clears still => cases adds
    | stays other still => simp [other] at adds
  · intro enabled
    rcases sequence_balanced atLeast fits sequence enabled with ⟨⟨items, permits, whole,
      notNegative, balance⟩, before⟩
    exact ⟨in_balance_of_whole blank whole notNegative balance, before⟩

/-! ## An add that the disabled queue refuses -/

def oneOnly : BndFifo Nat := .new 1

def disabled : BndFifo Nat := { oneOnly with fifo := { Fifo.new with enabled := false } }

/-- The link `add` made is not in the queue, and the permit is gone. -/
def refused : BndFifo Nat := { disabled with links := ⟨[some ⟨7, none⟩]⟩, semas := ⟨[some ⟨0⟩]⟩ }

def disabledAdd : List (Taken Nat) :=
  [⟨oneOnly, .disable, disabled⟩, ⟨disabled, .adds (.add 7), refused⟩]

theorem disabled_add_sequence : Sequence 0 (.new 1) disabledAdd refused := by
  have first : perform 0 oneOnly .disable = some (.returns disabled .nothing) := rfl
  have second : perform 0 disabled (.adds (.add 7)) = some (.returns refused .nothing) := rfl
  exact .step (.step .start first) second

theorem bnd_fifo_may_lose_capacity :
    ¬ ∀ (blank : Nat) (max : Int) (history : List (Taken Nat)) (queue : BndFifo Nat), 1 ≤ max →
      Sequence blank (.new max) history queue → KeepsCapacity blank max history queue := by
  intro all
  rcases (all 0 1 disabledAdd refused (by decide) disabled_add_sequence).1.balance with ⟨permits,
    count, balance⟩
  have none_left : refused.permits = some 0 := rfl
  cases Option.some.inj (none_left.symm.trans count)
  cases balance

/-- With a permit for one element: it is added, and removed again. -/
def stored : BndFifo Nat :=
  { oneOnly with fifo := ⟨true, some 0, some 0, 1, 0⟩, links := ⟨[some ⟨7, none⟩]⟩,
                 semas := ⟨[some ⟨0⟩]⟩ }

def addAndRemove : List (Taken Nat) :=
  [⟨oneOnly, .adds (.add 7), stored⟩, ⟨stored, .remove, { oneOnly with links := ⟨[none]⟩ }⟩]

theorem bnd_fifo_keeps_capacity_add_and_remove :
    KeepsCapacity 0 1 addAndRemove { oneOnly with links := ⟨[none]⟩ } ↔
      ∀ taken ∈ addAndRemove, taken.call.isAdding = true → taken.before.fifo.enabled = true := by
  have first : perform 0 oneOnly (.adds (.add 7)) = some (.returns stored .nothing) := rfl
  have second : perform 0 stored .remove =
      some (.returns { oneOnly with links := ⟨[none]⟩ } (.removed true (some 7))) := rfl
  exact bnd_fifo_keeps_capacity_iff 0 1 (by decide) (by decide) (.step (.step .start first) second)

end TWlib.BndSafeFifo
