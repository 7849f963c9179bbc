import TWlib.PlainFifo
import TWlib.SafeFifoThreads

/-!
# Copying a FIFO

`operator=` has the same loop in all three classes. It leaves its local variable `prev` in `in`, to
which nothing was assigned when the source is empty; here that is whatever value it starts with.
`tw_safeFIFOmv` moves each element out of the source.
-/

namespace TWlib.FifoCopy

open TWlib.Lib.CellStore TWlib.Lib.LinkedChain TWlib.Lib.ValueChain TWlib.Lib.Monitor
  TWlib.Lib.Deque
  TWlib.SafeFifo TWlib.SafeFifoRegions TWlib.SafeFifoThreads TWlib.PlainFifo

set_option autoImplicit false

variable {Item : Type*}

/-! ## The model -/

/-- `tw_FIFO`, `tw_safeFIFO`, and `tw_safeFIFOmv` with what a value is when it was moved from. -/
inductive Kind (Item : Type*) where
  | plain
  | safe
  | mv (husk : Item → Item)

/-- What an assignment leaves in its source. -/
def Kind.left : Kind Item → Item → Item
  | .plain | .safe => id
  | .mv husk => husk

structure Copied (Item : Type*) where
  fifo : Fifo
  links : SafeFifo.Links Item
  sources : SafeFifo.Links Item

def clearAll (fifo : Fifo) (links : SafeFifo.Links Item) : Option (Fifo × SafeFifo.Links Item) := do
  let links ← freeLinks links.fresh fifo.out links
  some ({ fifo with out := none, inn := none, remain := 0 }, links)

/-- `operator=` of `tw_FIFO`. -/
def plainAssign (fifo : Fifo) (links : SafeFifo.Links Item) (source : Source Item) :
    Option (Copied Item) := do
  let (fifo, links) ← clearAll { fifo with enabled := source.fifo.enabled } links
  let (copied, sources) ← fifo.assign id links source
  some ⟨copied.fifo, copied.links, sources⟩

/-- `operator=` of the other two, whose `clearAll` ends with `unblockAll()`. -/
def safeAssign (left : Item → Item) (fifo : Fifo) (links : SafeFifo.Links Item)
    (source : Source Item) :
    Option (Copied Item) := do
  let cleared ← fifo.clearAll links true
  let told := cleared.fifo.unblockAll cleared.links true
  let (copied, sources) ← told.fifo.assign left told.links source
  some ⟨copied.fifo, copied.links, sources⟩

def Kind.assign : Kind Item → Fifo → SafeFifo.Links Item → Source Item → Option (Copied Item)
  | .plain => plainAssign
  | .safe => safeAssign id
  | .mv husk => safeAssign husk

/-- The copy constructor of the safe ones: a new queue, and `*this = o;`. -/
def Kind.construct (kind : Kind Item) (links : SafeFifo.Links Item) (source : Source Item) :
    Option (Copied Item) :=
  kind.assign Fifo.new links source

/-- `add` and `remove` of the safe ones, with nothing in between. -/
def safeCall (left : Item → Item) (fifo : Fifo) (links : SafeFifo.Links Item) :
    QueueCall Item → Option (Fifo × SafeFifo.Links Item × Option Item)
  | .add theD => do
      let made := fifo.addOutside left links theD
      let added ← made.fifo.add made.links links.fresh
      let told := added.fifo.unblock added.links
      some (told.fifo, told.links, none)
  | .remove => PlainFifo.remove fifo links

def Kind.call : Kind Item → Fifo → SafeFifo.Links Item → QueueCall Item →
    Option (Fifo × SafeFifo.Links Item × Option Item)
  | .plain => PlainFifo.call
  | .safe => safeCall id
  | .mv husk => safeCall husk

def Kind.run (kind : Kind Item) (fifo : Fifo) (links : SafeFifo.Links Item) :
    List (QueueCall Item) → Option (Fifo × SafeFifo.Links Item × List (Option Item))
  | [] => some (fifo, links, [])
  | given :: rest => do
      let (fifo, links, fill) ← kind.call fifo links given
      let (fifo, links, fills) ← kind.run fifo links rest
      some (fifo, links, fill :: fills)

/-! ## What it is for -/

def queueRun (queue : Queue Item) : List (QueueCall Item) → Queue Item × List (Option Item)
  | [] => (queue, [])
  | given :: rest =>
      let (queue, fill) := queue.call given
      let (last, fills) := queueRun queue rest
      (last, fill :: fills)

/-- The target holds what the source held, which the source still does. Later calls find a queue
with these elements, and so do any number of threads on one of the safe queues. -/
structure Equals (kind : Kind Item) (source : Fifo) (cells : List Nat) (given : List Item)
    (copied : Copied Item) :
    Prop where
  holds : ∃ now, Holds copied.fifo copied.links now ⟨source.enabled, given⟩
  unchanged : Represents source copied.sources cells given
  later : ∀ calls, ∃ fifo links now,
    kind.run copied.fifo copied.links calls = some (fifo, links,
      (queueRun ⟨source.enabled, given⟩ calls).2) ∧
      Holds fifo links now (queueRun ⟨source.enabled, given⟩ calls).1
  threads : kind ≠ .plain → ∀ (count : Nat) (events : List (Event Item)) (world : World Item),
    Run kind.left (fun _ event => event.action.assigns = false)
        ⟨copied.fifo, copied.links, List.replicate count none⟩ events world →
      ∃ now items delivered cleared, Represents world.fifo world.links now items ∧
        Replay ⟨given, [], []⟩ (events.flatMap (Event.ops kind.left)) ⟨items, delivered, cleared⟩

/-- A copy is made and is right, whatever `prev` starts with. -/
def Copies (kind : Kind Item) (copy : Source Item → Option (Copied Item)) (source : Fifo)
    (links : SafeFifo.Links Item) (cells : List Nat) (given : List Item) : Prop :=
  ∀ prev, ∃ copied, copy ⟨source, links, prev⟩ = some copied ∧ Equals kind source cells given copied

variable {left : Item → Item} {fifo : Fifo} {links after : SafeFifo.Links Item}
  {cells now : List Nat} {items given : List Item} {queue : Queue Item} {kind : Kind Item}
  {source : Source Item}

/-! ## The source -/

/-- The loop leaves in each link of the source what the assignment of its element leaves. -/
theorem copy_rest_source {rest : List Nat} {others : List Item} : ∀ {fuel : Nat} {look : Option Nat}
    {copying result : Copying Item}, Carries (nextOf copying.source)
    (valueOf copying.source) look rest others →
    copyRest left fuel look copying = some result →
    Carries (nextOf result.source) (valueOf result.source) look rest (others.map left) ∧
      ∀ link, link ∉ rest → result.source.read link = copying.source.read link := by
  induction rest generalizing others with
  | nil =>
      intro fuel look copying result carries ran
      have ended : look = none := carries.chain
      have nothing : others = [] := carries_no_items carries
      subst ended nothing
      have same : result = copying := by cases fuel <;> exact (Option.some.inj ran).symm
      subst same
      exact ⟨carries, fun _ _ => rfl⟩
  | cons cell rest ih =>
      intro fuel look copying result carries ran
      rcases List.nodup_cons.mp (chain_nodup carries.chain) with ⟨outside, -⟩
      have starts : look = some cell := carries.chain.1
      subst starts
      rcases carries_first carries with ⟨_, item, later, next, same, rfl, step, holds, tail⟩
      cases same
      rcases Option.map_eq_some_iff.mp step with ⟨content, present, rfl⟩
      have value : content.d = item := by simpa [valueOf, present] using holds
      cases fuel with
      | zero => cases ran
      | succ fuel =>
          simp only [copyRest, init_link_eq left present, Option.bind_eq_bind,
            Option.bind_some] at ran
          have loops : ∃ hooked, copyRest left fuel content.next
              { copying with
                links := hooked
                source := copying.source.write cell { content with d := left content.d }
                prev := some copying.links.fresh
                remain := copying.remain + 1 } = some result := by
            cases prev : copying.prev with
            | none => simp [prev] at ran
            | some last =>
                simp only [prev] at ran
                rcases Option.bind_eq_some_iff.mp ran with ⟨hooked, -, onward⟩
                exact ⟨hooked, onward⟩
          rcases loops with ⟨hooked, onward⟩
          have moved : Carries
              (nextOf (copying.source.write cell { content with d := left content.d }))
              (valueOf (copying.source.write cell { content with d := left content.d }))
              content.next rest later :=
            carries_write_outside tail present outside
          rcases ih moved onward with ⟨behind, others⟩
          have reads := read_write present { content with d := left content.d }
          have here : result.source.read cell = some { content with d := left content.d } := by
            rw [others cell outside, reads, if_pos rfl]
          refine ⟨?_, fun link notIn => ?_⟩
          · exact carries_push_front behind (by simp [nextOf, here])
              (by simp [valueOf, here, value])
          · have different : link ≠ cell := fun same => notIn (same ▸ List.mem_cons_self ..)
            rw [others link fun inside => notIn (List.mem_cons_of_mem _ inside), reads,
              if_neg different]

theorem assign_source {region : Region Item} {sources : SafeFifo.Links Item}
    (whole : Represents source.fifo source.links cells given)
    (assigned : fifo.assign left links source = some (region, sources)) :
    Represents source.fifo sources cells (given.map left) := by
  refine ⟨?_, whole.last, by simpa using whole.counted⟩
  have carried := whole.carried
  cases out : source.fifo.out with
  | none =>
      rcases carries_none (out ▸ carried) with ⟨rfl, rfl⟩
      simp only [Fifo.assign, out, Option.some.injEq, Prod.mk.injEq] at assigned
      exact carries_nothing _ _
  | some look =>
      rw [out] at carried
      have nodup := chain_nodup carried.chain
      rcases carries_first carried with ⟨rest, item, later, next, rfl, rfl, step, holds, tail⟩
      rcases List.nodup_cons.mp nodup with ⟨outside, -⟩
      rcases Option.map_eq_some_iff.mp step with ⟨content, present, rfl⟩
      have value : content.d = item := by simpa [valueOf, present] using holds
      let start : Copying Item := ⟨links, source.links, source.prev, 0⟩
      have starts : start.source.read look = some content := present
      have begun := init_link_eq left starts
      simp only [Fifo.assign, out, Option.bind_eq_bind] at assigned
      rcases Option.bind_eq_some_iff.mp assigned with ⟨⟨copying, newlink, onward⟩, first, others⟩
      cases Option.some.inj (begun.symm.trans first)
      rcases Option.bind_eq_some_iff.mp others with ⟨result, ran, same⟩
      cases same
      have moved : Carries (nextOf (source.links.write look { content with d := left content.d }))
          (valueOf (source.links.write look { content with d := left content.d })) content.next
          rest later :=
        carries_write_outside tail present outside
      rcases copy_rest_source moved ran with ⟨behind, kept⟩
      have here : result.source.read look = some { content with d := left content.d } := by
        rw [kept look outside]
        simp [start, read_write present]
      exact carries_push_front behind (by simp [nextOf, here]) (by simp [valueOf, here, value])

/-! ## The target -/

theorem assign_reaches_loop (kind : Kind Item) (target : Represents fifo links cells items)
    (source : Source Item) :
    ∃ (ready : Fifo) (readyLinks : SafeFifo.Links Item), kind.assign fifo links source =
      (ready.assign kind.left readyLinks source).map fun done =>
      ⟨done.1.fifo, done.1.links, done.2⟩ := by
  have safe : ∀ left, ∃ (ready : Fifo) (readyLinks : SafeFifo.Links Item),
      safeAssign left fifo links source =
      (ready.assign left readyLinks source).map fun done =>
      ⟨done.1.fifo, done.1.links, done.2⟩ := by
    intro left
    rcases clear_all_eq target true with ⟨after, cleared, -, -⟩
    let told := (⟨fifo.enabled, none, none, 0, fifo.blockCnt⟩ : Fifo).unblockAll after true
    refine ⟨told.fifo, told.links, ?_⟩
    simp only [safeAssign, cleared, Option.bind_eq_bind, Option.bind_some]
    cases told.fifo.assign left told.links source <;> simp
  cases kind with
  | plain =>
      rcases free_links_eq target.carried.chain links.fresh (represents_fresh target) with ⟨after,
        freed, -⟩
      refine ⟨⟨source.fifo.enabled, none, none, 0, fifo.blockCnt⟩, after, ?_⟩
      simp only [Kind.assign, plainAssign, clearAll, freed, Option.bind_eq_bind,
        Option.bind_some, Kind.left]
      cases (⟨source.fifo.enabled, none, none, 0, fifo.blockCnt⟩ : Fifo).assign id after source <;>
        simp
  | safe => exact safe id
  | mv husk => exact safe husk

theorem assign_filled (kind : Kind Item) (target : Represents fifo links cells items)
    (source : Source Item) {sourceCells : List Nat}
    (whole : Represents source.fifo source.links sourceCells given) (filled : given ≠ []) :
    ∃ copied now, kind.assign fifo links source = some copied ∧
      Holds copied.fifo copied.links now ⟨source.fifo.enabled, given⟩ ∧
      Represents source.fifo copied.sources sourceCells (given.map kind.left) := by
  rcases assign_reaches_loop kind target source with ⟨ready, readyLinks, reaches⟩
  rcases assign_eq kind.left ready readyLinks filled whole with
    ⟨region, sources, now, assigned, represents, -, enabled, -⟩
  refine ⟨⟨region.fifo, region.links, sources⟩, now, ?_, ⟨represents, enabled⟩,
    assign_source whole assigned⟩
  rw [reaches, assigned, Option.map_some]

/-- From an empty source `in` is what `prev` was at the beginning. -/
theorem assign_empty (kind : Kind Item) (target : Represents fifo links cells items)
    (source : Source Item) (empty : source.fifo.out = none) :
    ∃ copied, kind.assign fifo links source = some copied ∧ copied.fifo.inn = source.prev := by
  rcases assign_reaches_loop kind target source with ⟨ready, readyLinks, reaches⟩
  have assigned : ready.assign kind.left readyLinks source =
      some (⟨{ ready with enabled := source.fifo.enabled, remain := 0, inn := source.prev },
        readyLinks, .nobody,
        .returns true none⟩, source.links) := by
    simp only [Fifo.assign, empty]
  refine ⟨⟨{ ready with enabled := source.fifo.enabled, remain := 0, inn := source.prev },
    readyLinks,
    source.links⟩, ?_, rfl⟩
  rw [reaches, assigned, Option.map_some]

/-! ## Later calls -/

theorem unblock_holds (holds : Holds fifo links cells queue) :
    Holds (fifo.unblock links).fifo (fifo.unblock links).links cells queue := by
  refine ⟨represents_unblock holds.represents, ?_⟩
  rcases unblock_eq fifo links with ⟨blockCnt, inner, -⟩
  rw [inner]
  exact holds.enabled

/-- The link is made first, and stays allocated if the queue is disabled. -/
theorem safe_add_holds (left : Item → Item) (holds : Holds fifo links cells queue) (theD : Item) :
    ∃ next after now, safeCall left fifo links (.add theD) = some (next, after, none) ∧
      Holds next after now (queue.call (.add theD)).1 := by
  rcases holds with ⟨represents, enabled⟩
  rcases represents_push represents (⟨theD, none⟩ : Link Item) with ⟨pushed, outside, -⟩
  have made : (links.push ⟨theD, none⟩).read links.fresh = some ⟨theD, none⟩ := by simp [read_push]
  cases accepts : queue.enabled with
  | false =>
      have refuses : fifo.enabled = false := enabled.trans accepts
      have held : Holds fifo (links.push ⟨theD, none⟩) cells queue := ⟨pushed, enabled⟩
      let told := fifo.unblock (links.push ⟨theD, none⟩)
      refine ⟨told.fifo, told.links, cells, ?_, ?_⟩
      · simp [safeCall, Fifo.addOutside, initLink, Fifo.add, refuses, told]
      · simp only [Queue.call, accepts, Bool.false_eq_true, if_false]
        exact unblock_holds held
  | true =>
      have accepted : fifo.enabled = true := enabled.trans accepts
      rcases append_eq pushed made outside with ⟨after, appended, grown, -⟩
      let longer : Fifo := { fifo with
        inn := some links.fresh, out := (cells ++ [links.fresh]).head?, remain := fifo.remain + 1 }
      have held : Holds longer after (cells ++ [links.fresh]) ⟨true, queue.items ++ [theD]⟩ :=
        ⟨grown, accepted⟩
      refine ⟨(longer.unblock after).fifo, (longer.unblock after).links,
        cells ++ [links.fresh], ?_, ?_⟩
      · rw [safeCall, Fifo.addOutside]
        simp only [initLink, Fifo.add, if_pos accepted, appended, Option.bind_eq_bind,
          Option.bind_some, longer]
      · simp only [Queue.call, accepts, if_true]
        exact unblock_holds held

theorem kind_call_holds (kind : Kind Item) (holds : Holds fifo links cells queue)
    (given : QueueCall Item) :
    ∃ next after now, kind.call fifo links given = some (next, after, (queue.call given).2) ∧
      Holds next after now (queue.call given).1 := by
  have safe : ∀ left, ∃ next after now, safeCall left fifo links given = some (next, after,
      (queue.call given).2) ∧
      Holds next after now (queue.call given).1 := by
    intro left
    cases given with
    | add theD => exact safe_add_holds left holds theD
    | remove =>
        rcases remove_holds holds with ⟨shorter, after, now, removed, held, -⟩
        exact ⟨shorter, after, now, removed, held⟩
  cases kind with
  | plain =>
      rcases call_holds holds given with ⟨next, after, now, called, held, -⟩
      exact ⟨next, after, now, called, held⟩
  | safe => exact safe id
  | mv husk => exact safe husk

theorem kind_run_holds (kind : Kind Item) (holds : Holds fifo links cells queue)
    (calls : List (QueueCall Item)) :
    ∃ last after now, kind.run fifo links calls = some (last, after, (queueRun queue calls).2) ∧
      Holds last after now (queueRun queue calls).1 := by
  induction calls generalizing fifo links cells queue with
  | nil => exact ⟨fifo, links, cells, rfl, holds⟩
  | cons given rest ih =>
      rcases kind_call_holds kind holds given with ⟨next, links', now, called, held⟩
      rcases ih held with ⟨last, after, final, ran, ends⟩
      refine ⟨last, after, final, ?_, ends⟩
      simp only [Kind.run, called, Option.bind_eq_bind, Option.bind_some, ran]
      rfl

theorem threads_replay (holds : Holds fifo links cells queue) {count : Nat}
    {events : List (Event Item)} {world : World Item}
      (run : Run left (fun _ event => event.action.assigns = false)
      ⟨fifo, links, List.replicate count none⟩ events world) :
    ∃ now items delivered cleared, Represents world.fifo world.links now items ∧
      Replay ⟨queue.items, [], []⟩ (events.flatMap (Event.ops left)) ⟨items, delivered,
        cleared⟩ := by
  have filled : ∀ event ∈ events, event.action ≠ .copy [] := by
    intro event member same
    have plain := execution_permitted run event member
    rw [same] at plain
    cases plain
  rcases run_replays_from (sound_idle holds.represents count) run filled with
    ⟨now, items, delivered, cleared, sound, replay⟩
  exact ⟨now, items, delivered, cleared, sound.represents, replay⟩

/-! ## When a copy is right -/

theorem copies_iff (kind : Kind Item) (target : Represents fifo links cells items) {other : Fifo}
    {otherLinks : SafeFifo.Links Item} {otherCells : List Nat}
    (whole : Represents other otherLinks otherCells given) :
    Copies kind (kind.assign fifo links) other otherLinks otherCells given ↔
      given ≠ [] ∧ ∀ item ∈ given, kind.left item = item := by
  constructor
  · intro copies
    have filled : given ≠ [] := by
      rintro rfl
      have noCells : otherCells = [] := carries_no_cells whole.carried
      have empty : other.out = none := by rw [represents_out whole, noCells, List.head?_nil]
      rcases copies (some 0) with ⟨copied, made, equals⟩
      rcases assign_empty kind target ⟨other, otherLinks, some 0⟩ empty with ⟨same, madeToo, inn⟩
      cases Option.some.inj (made.symm.trans madeToo)
      rcases equals.holds with ⟨now, holds⟩
      have noLinks : now = [] := carries_no_cells holds.represents.carried
      have last := holds.represents.last
      rw [inn, noLinks] at last
      cases last
    refine ⟨filled, ?_⟩
    rcases copies none with ⟨copied, made, equals⟩
    rcases assign_filled kind target ⟨other, otherLinks, none⟩ whole filled with
      ⟨same, now, madeToo, -, sources⟩
    cases Option.some.inj (made.symm.trans madeToo)
    have fixed : given.map kind.left = given.map id := by
      rw [List.map_id]
      exact represents_unique sources equals.unchanged
    exact List.map_inj_left.mp fixed
  · rintro ⟨filled, fixed⟩ start
    rcases assign_filled kind target ⟨other, otherLinks, start⟩ whole filled with
      ⟨copied, now, made, holds, sources⟩
    have same : given.map kind.left = given := by
      rw [List.map_inj_left.mpr fixed, List.map_id' given]
    refine ⟨copied, made, ⟨now, holds⟩, same ▸ sources, kind_run_holds kind holds, ?_⟩
    exact fun _ count events world run => threads_replay holds run

/-- An assignment, and a copy construction of the safe ones, makes an equal queue and leaves the
source as it is exactly if the source is not empty and no element of it is changed by being moved
from. -/
theorem fifo_copy_equals_iff (kind : Kind Item) (target : Represents fifo links cells items)
    {other : Fifo} {otherLinks : SafeFifo.Links Item} {otherCells : List Nat}
    (whole : Represents other otherLinks otherCells given) :
    (Copies kind (kind.assign fifo links) other otherLinks otherCells given ↔
      given ≠ [] ∧ ∀ item ∈ given, kind.left item = item) ∧
    (kind ≠ .plain → (Copies kind (kind.construct links) other otherLinks otherCells given ↔
      given ≠ [] ∧ ∀ item ∈ given, kind.left item = item)) := by
  have fresh : Represents Fifo.new links [] ([] : List Item) := ⟨carries_nothing _ _, rfl, rfl⟩
  exact ⟨copies_iff kind target whole, fun _ => copies_iff kind fresh whole⟩

/-! ## Sources of one element, of two and of none -/

def oneElement : Fifo := ⟨true, some 0, some 0, 1, 0⟩

def oneElementLinks : SafeFifo.Links Nat := ⟨[some ⟨7, none⟩]⟩

theorem one_element_represents : Represents oneElement oneElementLinks [0] [7] :=
  ⟨⟨⟨rfl, none, rfl, rfl⟩, rfl⟩, rfl, rfl⟩

def twoElements : Fifo := ⟨true, some 0, some 1, 2, 0⟩

def twoElementLinks : SafeFifo.Links Nat := ⟨[some ⟨7, some 1⟩, some ⟨8, none⟩]⟩

theorem two_elements_represents : Represents twoElements twoElementLinks [0, 1] [7, 8] :=
  ⟨⟨⟨rfl, some 1, rfl, rfl, none, rfl, rfl⟩, rfl⟩, rfl, rfl⟩

/-- Two elements are assigned to a queue that has one. Of the two, only the 7 is what a move leaves
of it. -/
theorem fifo_copy_equals_iff_two :
    Copies .safe (Kind.safe.assign oneElement oneElementLinks) twoElements twoElementLinks
      [0, 1] [7, 8] ∧
      ¬ Copies (.mv (min 7)) (Kind.construct (.mv (min 7)) twoElementLinks) twoElements
      twoElementLinks [0, 1] [7, 8] ∧
      Copies (.mv (min 8)) (Kind.construct (.mv (min 8)) twoElementLinks) twoElements
      twoElementLinks [0, 1] [7, 8] := by
  refine ⟨?_, fun copies => ?_, ?_⟩
  · exact (fifo_copy_equals_iff .safe one_element_represents two_elements_represents).1.mpr
      (by decide)
  · have same := ((fifo_copy_equals_iff (.mv (min 7)) two_elements_represents
      two_elements_represents).2
      (by rintro ⟨⟩)).mp copies
    exact absurd (same.2 8 (by simp)) (by decide)
  · exact ((fifo_copy_equals_iff (.mv (min 8)) two_elements_represents two_elements_represents).2
      (by rintro ⟨⟩)).mpr (by decide)

/-- A copy of an empty queue has something in `in`, and the first `add` writes through it. A copy of
a `tw_safeFIFOmv` that holds 7 leaves a 0 there, if that is what is left when a value is moved
from. -/
theorem fifo_copy_not_always_equal :
    (Kind.plain.assign oneElement oneElementLinks ⟨Fifo.new, Store.empty, some 5⟩ =
        some ⟨⟨true, none, some 5, 0, 0⟩, ⟨[none]⟩, Store.empty⟩ ∧
      PlainFifo.add ⟨true, none, some 5, 0, 0⟩ ⟨[none]⟩ 8 = none ∧
      ¬ Copies .plain (Kind.plain.assign oneElement oneElementLinks) Fifo.new Store.empty [] []) ∧
    ¬ Copies (.mv fun _ => 0) (Kind.assign (.mv fun _ => 0) Fifo.new Store.empty) oneElement
    oneElementLinks [0] [7] := by
  refine ⟨⟨rfl, rfl, ?_⟩, ?_⟩
  · intro copies
    have filled := ((copies_iff .plain one_element_represents represents_new).mp copies).1
    exact filled rfl
  · intro copies
    have fixed := ((copies_iff (.mv fun _ => 0) represents_new one_element_represents).mp copies).2
    exact absurd (fixed 7 (by simp)) (by simp [Kind.left])

end TWlib.FifoCopy
