import TWlib.FifoCopy
import TWlib.FifoDisabled

/-!
# Copying a bounded queue

What a bounded queue holds is in its inner queue, its free capacity in the semaphore, and its bound
in `_max`. Assignment takes the first two over from the source and leaves the bound, which is looked
at when `clearAll` makes the next semaphore. The copy constructor takes all three.
-/

namespace TWlib.BndSafeFifoCopy

open TWlib.Lib.CellStore TWlib.Lib.MachineInt TWlib.Lib.ValueChain TWlib.SafeFifo
    TWlib.SafeFifoRegions TWlib.PlainFifo
open TWlib.BndSafeFifo (Adding BndFifo Call Removes Result Whole)
open TWlib.FifoCopy (Kind)
open TWlib.FifoDisabled (Pointer returned safeAdds unblocked)
open TWlib.Semaphore (Sema)

set_option autoImplicit false

variable {Item : Type*}

/-! ## The model -/

/-- The target, and the source as it is left. -/
structure Copied (Item : Type*) where
  queue : BndFifo Item
  source : BndFifo Item

/-- `tw_bndSafeFIFO( void )`. -/
def empty : BndFifo Item := ⟨Fifo.new, Store.empty, Store.empty, none, 0⟩

/-- `if(_sizeSema) { _sizeSema->releaseAll(); delete _sizeSema; }` -/
def dropSema (queue : BndFifo Item) : Option (BndFifo Item) :=
  match queue.sizeSema with
  | none => some queue
  | some sema => (queue.semas.read sema).map fun object =>
      { queue with semas := (queue.semas.write sema object.releaseAll.sema).giveUp sema }

/-- `_sizeSema = new TW_Sema( o._sizeSema->count() );` -/
def newSema (queue other : BndFifo Item) : Option (BndFifo Item) :=
  other.permits.map fun count =>
    { queue with semas := queue.semas.push ⟨count⟩, sizeSema := some queue.semas.fresh }

/-- What an operation of the inner queue leaves of the two. -/
def ofInner (queue other : BndFifo Item) (copied : FifoCopy.Copied Item) : Copied Item :=
  ⟨{ queue with fifo := copied.fifo, links := copied.links },
    { other with links := copied.sources }⟩

/-- `operator=` of two different objects. `unset` is what is in the variable `prev` of the inner one
before anything is assigned to it. -/
def assign (unset : Option Nat) (queue other : BndFifo Item) : Option (Copied Item) := do
  let inner ← Kind.safe.assign queue.fifo queue.links ⟨other.fifo, other.links, unset⟩
  let copied := ofInner queue other inner
  let dropped ← dropSema copied.queue
  let queue ← newSema dropped copied.source
  some { copied with queue }

/-- The copy constructor, whose initialisers come first. -/
def construct (unset : Option Nat) (other : BndFifo Item) : Option (Copied Item) := do
  let inner ← Kind.safe.construct Store.empty ⟨other.fifo, other.links, unset⟩
  let copied := ofInner { empty with max := other.max } other inner
  let queue ← newSema copied.queue copied.source
  some { copied with queue }

/-! ## Later calls -/

/-- What a caller sees of a result. It does not depend on which link the queue has taken. -/
inductive Seen (Item : Type*) where
  | nothing
  | pointer (isSet : Bool)
  | removed (ret : Bool) (fill : Option Item)
deriving DecidableEq

def seen : Result Item → Seen Item
  | .nothing => .nothing
  | .link ret => .pointer ret.isSome
  | .removed ret fill => .removed ret fill

/-- The queue, and the adding calls that wait in `acquire()`, each with the semaphore it is in. -/
structure Busy (Item : Type*) where
  queue : BndFifo Item
  blocked : List (Nat × Adding Item)

/-- A call is made, or one of those that wait has another look at its semaphore. -/
inductive Turn (Item : Type*) where
  | call (call : Call Item)
  | goOn (i : Nat)

/-- A call waits, or returns and leaves so many elements. There may be no such call, and a semaphore
that is looked at may have been deleted. -/
inductive Observed (Item : Type*) where
  | blocks
  | returns (result : Seen Item) (remaining : Int)
  | nobody
  | lost
deriving DecidableEq

/-- A call that blocks has changed nothing. -/
def Busy.make (blank : Item) (busy : Busy Item) (call : Call Item) :
    Option (Busy Item × Observed Item) :=
  (BndSafeFifo.perform blank busy.queue call).map fun
    | .returns next result => ({ busy with queue := next }, .returns (seen result) next.remaining)
    | .blocks =>
        let waits := match call, busy.queue.sizeSema with
          | .adds adding, some sema => [(sema, adding)]
          | _, _ => []
        ({ busy with blocked := busy.blocked ++ waits }, .blocks)

/-- The loop of `acquire()` tests the count of the semaphore again. -/
def Busy.goOn (blank : Item) (busy : Busy Item) (i : Nat) : Option (Busy Item × Observed Item) :=
  match busy.blocked[i]? with
  | none => some (busy, .nobody)
  | some (sema, adding) =>
      ((BndSafeFifo.resume blank busy.queue (.gtZero sema adding)).bind
        (BndSafeFifo.alone blank 5)).map fun
        | .returns next result =>
            (⟨next, busy.blocked.eraseIdx i⟩, .returns (seen result) next.remaining)
        | .blocks => (busy, .blocks)

def Busy.turn (blank : Item) (busy : Busy Item) : Turn Item → Option (Busy Item × Observed Item)
  | .call call => busy.make blank call
  | .goOn i => busy.goOn blank i

/-- What is seen of the turns, up to the first that finds its semaphore deleted. -/
def run (blank : Item) (busy : Busy Item) : List (Turn Item) → List (Observed Item)
  | [] => []
  | turn :: rest => match busy.turn blank turn with
      | none => [.lost]
      | some (next, first) => first :: run blank next rest

/-! ## What it is for -/

/-- The calls that wait do so for a permit of the semaphore in use, or of one that is gone. -/
structure Bounded (Item : Type*) where
  enabled : Bool
  items : List Item
  permits : Int
  max : Int
  blocked : List (Bool × Adding Item)

/-- Where an adding call puts its element. -/
def into (blank : Item) (items : List Item) : Adding Item → List Item
  | .add theD => items ++ [theD]
  | .addToHead theD => theD :: items
  | .addEmpty => items ++ [blank]

/-- What it returns. -/
def madeBy (enabled : Bool) : Adding Item → Seen Item
  | .add _ | .addToHead _ => .nothing
  | .addEmpty => .pointer enabled

namespace Bounded

/-- An adding call that has found a permit. -/
def adds (blank : Item) (queue : Bounded Item) (adding : Adding Item) :
    Bounded Item × Observed Item :=
  let items := if queue.enabled then into blank queue.items adding else queue.items
  ({ queue with items, permits := asInt (queue.permits - 1) },
    .returns (madeBy queue.enabled adding) items.length)

def removes (queue : Bounded Item) : Bounded Item × Observed Item :=
  match queue.items with
  | [] => (queue, .returns (.removed false none) 0)
  | item :: items =>
      ({ queue with items, permits := asInt (queue.permits + 1) },
        .returns (.removed true (some item)) items.length)

def call (blank : Item) (queue : Bounded Item) : Call Item → Bounded Item × Observed Item
  | .adds adding =>
      if queue.permits < 1 then ({ queue with blocked := queue.blocked ++ [(true, adding)] },
        .blocks)
      else queue.adds blank adding
  | .remove | .removeOrBlock => queue.removes
  | .clearAll =>
      ({ queue with
          items := [], permits := queue.max, blocked := queue.blocked.map fun waiting =>
            (false, waiting.2) },
        .returns .nothing 0)
  | .enable => ({ queue with enabled := true }, .returns .nothing queue.items.length)
  | .disable => ({ queue with enabled := false }, .returns .nothing queue.items.length)

def goOn (blank : Item) (queue : Bounded Item) (i : Nat) : Option (Bounded Item × Observed Item) :=
  match queue.blocked[i]? with
  | none => some (queue, .nobody)
  | some (false, _) => none
  | some (true, adding) =>
      if queue.permits < 1 then some (queue, .blocks)
      else
        let added := queue.adds blank adding
        some ({ added.1 with blocked := queue.blocked.eraseIdx i }, added.2)

def turn (blank : Item) (queue : Bounded Item) : Turn Item → Option (Bounded Item × Observed Item)
  | .call call => some (queue.call blank call)
  | .goOn i => queue.goOn blank i

def run (blank : Item) (queue : Bounded Item) : List (Turn Item) → List (Observed Item)
  | [] => []
  | turn :: rest => match queue.turn blank turn with
      | none => [.lost]
      | some (next, first) => first :: run blank next rest

end Bounded

/-- The queue holds these elements, and its semaphore, if it has one, exists. -/
structure Stands (queue : BndFifo Item) (items : List Item) : Prop where
  represents : ∃ cells, Represents queue.fifo queue.links cells items
  sema : ∀ sema ∈ queue.sizeSema, (queue.semas.read sema).isSome

/-- The target has the elements, the free capacity and the bound of the source, which is left as it
was, and whatever is called on both of them later, and in whatever order the calls that block go on,
gives the same. -/
structure Equals (blank : Item) (other : BndFifo Item) (given : List Item)
    (copied : Copied Item) : Prop where
  elements : Stands copied.queue given
  unchanged : Stands copied.source given
  capacity : copied.queue.permits = other.permits
  bound : copied.queue.max = other.max
  later : ∀ turns, run blank ⟨copied.queue, []⟩ turns = run blank ⟨copied.source, []⟩ turns

def Copies (blank : Item) (copy : Option Nat → Option (Copied Item)) (other : BndFifo Item)
    (given : List Item) :
    Prop :=
  ∀ unset, ∃ copied, copy unset = some copied ∧ Equals blank other given copied

/-! ## One call -/

structure Waits (queue : BndFifo Item) (waiting : Nat × Adding Item) (meant : Bool × Adding Item) :
    Prop where
  adding : waiting.2 = meant.2
  made : waiting.1 < queue.semas.fresh
  inUse : meant.1 = true → queue.sizeSema = some waiting.1
  gone : meant.1 = false → queue.semas.read waiting.1 = none

structure Refines (queue : BndFifo Item) (bounded : Bounded Item) : Prop where
  whole : Whole bounded.max queue bounded.items bounded.permits
  enabled : queue.fifo.enabled = bounded.enabled

structure BusyRefines (busy : Busy Item) (bounded : Bounded Item) : Prop where
  queue : Refines busy.queue bounded
  blocked : List.Forall₂ (Waits busy.queue) busy.blocked bounded.blocked

variable {blank : Item} {fifo : Fifo} {links : Links Item} {cells : List Nat}
  {inner : PlainFifo.Queue Item} {queue other : BndFifo Item} {bounded : Bounded Item}
  {items given : List Item}

theorem unblocked_holds (holds : Holds fifo links cells inner) (pointer : Pointer) :
    ∃ next after, unblocked ⟨fifo, links, .nobody, .goes .unblock⟩ pointer = (next,
      after, pointer) ∧
      Holds next after cells inner :=
  ⟨_, _, rfl, FifoCopy.unblock_holds holds⟩

theorem safe_adds_holds (blank : Item) (holds : Holds fifo links cells inner)
    (adding : Adding Item) :
    ∃ next after now pointer, safeAdds id blank fifo links adding = some (next, after, pointer) ∧
      Holds next after now ⟨inner.enabled, if inner.enabled then into blank inner.items adding
        else inner.items⟩ ∧
      seen (returned adding pointer) = madeBy inner.enabled adding := by
  rcases holds with ⟨represents, enabled⟩
  cases accepts : inner.enabled with
  | false =>
      have refuses := enabled.trans accepts
      have still : ∀ {after : Links Item}, Represents fifo after cells inner.items →
          Holds fifo after cells ⟨false, inner.items⟩ := fun held => ⟨held, refuses⟩
      rw [FifoDisabled.safe_adds_disabled id blank links refuses]
      cases adding with
      | add theD =>
          rcases represents_push represents (⟨theD, none⟩ : Link Item) with ⟨pushed, -, -⟩
          rcases unblocked_holds (still pushed) .nothing with ⟨next, after, same, held⟩
          exact ⟨next, after, cells, .nothing, congrArg some same, held, rfl⟩
      | addToHead theD =>
          rcases unblocked_holds (still represents) .nothing with ⟨next, after, same, held⟩
          exact ⟨next, after, cells, .nothing, congrArg some same, held, rfl⟩
      | addEmpty =>
          rcases unblocked_holds (still represents) .unset with ⟨next, after, same, held⟩
          exact ⟨next, after, cells, .unset, congrArg some same, held, rfl⟩
  | true =>
      have accepted := enabled.trans accepts
      cases adding with
      | add theD =>
          rcases represents_push represents (⟨theD, none⟩ : Link Item) with ⟨pushed, outside, -⟩
          have made : (links.push ⟨theD, none⟩).read links.fresh = some ⟨theD,
            none⟩ := by simp [read_push]
          rcases append_eq pushed made outside with ⟨longer, appended, grown, -⟩
          have held : Holds _ longer _ ⟨true, inner.items ++ [theD]⟩ := ⟨grown, accepted⟩
          rcases unblocked_holds held .nothing with ⟨next, after, same, unblocked⟩
          refine ⟨next, after, _, .nothing, ?_, unblocked, rfl⟩
          simp only [safeAdds, Fifo.addOutside, initLink, Fifo.add, if_pos accepted, appended,
            Option.bind_eq_bind,
            Option.bind_some, Option.map_some, same]
      | addToHead theD =>
          rcases add_to_head_eq id represents theD accepted with ⟨grown, longer, now, added,
            held, -, kept, -⟩
          have held : Holds grown longer now ⟨true, theD :: inner.items⟩ :=
            ⟨held, kept.trans accepted⟩
          rcases unblocked_holds held .nothing with ⟨next, after, same, unblocked⟩
          refine ⟨next, after, now, .nothing, ?_, unblocked, rfl⟩
          simp only [safeAdds, added, Option.map_some, same]
      | addEmpty =>
          rcases add_empty_eq represents blank accepted with ⟨grown, longer, now, added, held, kept⟩
          have held : Holds grown longer now ⟨true, inner.items ++ [blank]⟩ :=
            ⟨held, kept.trans accepted⟩
          rcases unblocked_holds held (.link links.fresh) with ⟨next, after, same, unblocked⟩
          refine ⟨next, after, now, .link links.fresh, ?_, unblocked, rfl⟩
          simp only [safeAdds, added, Option.map_some, Pointer.ofNewlink, same]

section Waiting

open TWlib.BndSafeFifo (DropsSema SameSemas)

variable {next : BndFifo Item} {busy : Busy Item} {waiting : Nat × Adding Item}
    {meant : Bool × Adding Item}

theorem waits_same (same : SameSemas queue next) (waits : Waits queue waiting meant) :
    Waits next waiting meant where
  adding := waits.adding
  made := same.fresh ▸ waits.made
  inUse current := same.inUse.trans (waits.inUse current)
  gone stale := same.gone _ (waits.gone stale)

theorem waits_dropped (drops : DropsSema queue next) (waits : Waits queue waiting meant) :
    Waits next waiting (false, meant.2) where
  adding := waits.adding
  made := Nat.lt_of_lt_of_le waits.made drops.fresh
  inUse current := by cases current
  gone _ := by
    apply drops.gone _ waits.made
    cases current : meant.1 with
    | true => exact .inl (waits.inUse current)
    | false => exact .inr (waits.gone current)

theorem forall_at {Mine Meant : Type*} {relation : Mine → Meant → Prop} {mine : List Mine}
    {meant : List Meant} (related : List.Forall₂ relation mine meant) (i : Nat) :
      mine[i]? = none ∧ meant[i]? = none ∨
      ∃ one other, mine[i]? = some one ∧ meant[i]? = some other ∧ relation one other := by
  induction related generalizing i with
  | nil => exact .inl ⟨rfl, rfl⟩
  | cons here _ ih =>
      cases i with
      | zero => exact .inr ⟨_, _, rfl, rfl, here⟩
      | succ i => simpa using ih i

theorem forall_erase {Mine Meant : Type*} {relation : Mine → Meant → Prop} {mine : List Mine}
    {meant : List Meant} (related : List.Forall₂ relation mine meant) (i : Nat) :
    List.Forall₂ relation (mine.eraseIdx i) (meant.eraseIdx i) := by
  rw [List.eraseIdx_eq_take_drop_succ, List.eraseIdx_eq_take_drop_succ]
  exact List.rel_append (List.forall₂_take i related) (List.forall₂_drop (i + 1) related)

theorem adds_refines (blank : Item) (refines : Refines queue bounded)
    (enough : ¬ bounded.permits < 1) (adding : Adding Item) :
    ∃ next result, BndSafeFifo.perform blank queue (.adds adding) = some (.returns next result) ∧
      Refines next (bounded.adds blank adding).1 ∧ SameSemas queue next ∧
      .returns (seen result) next.remaining = (bounded.adds blank adding).2 := by
  rcases refines.whole.sema with ⟨sema, inUse, present⟩
  rcases refines.whole.represents with ⟨cells, represents⟩
  have holds : Holds queue.fifo queue.links cells ⟨bounded.enabled, bounded.items⟩ :=
    ⟨represents, refines.enabled⟩
  rcases safe_adds_holds blank holds adding with ⟨fifo, links, now, pointer, ran, held, result⟩
  have taken := BndSafeFifo.whole_sema refines.whole inUse present (asInt (bounded.permits - 1))
  have whole := BndSafeFifo.whole_inner taken held.represents
  have performed := FifoDisabled.perform_adds_inner inUse present enough blank adding
  rw [ran] at performed
  refine ⟨_, _, performed, ⟨whole, held.enabled⟩, BndSafeFifo.same_semas_write present _ fifo links,
    ?_⟩
  have counted := BndSafeFifo.whole_remaining whole
  simp only [Bounded.adds, result, counted]

theorem removes_refines {result : Result Item} (bounded : Bounded Item)
    (removes : Removes bounded.max bounded.enabled bounded.items bounded.permits next result) :
    Refines next bounded.removes.1 ∧ bounded.removes.1.blocked = bounded.blocked ∧
      .returns (seen result) next.remaining = bounded.removes.2 := by
  rcases bounded with ⟨enabled, items, permits, max, blocked⟩
  rcases removes with ⟨kept, removed⟩
  cases items with
  | nil =>
      rcases removed with ⟨rfl, whole⟩
      have counted : next.remaining = 0 := BndSafeFifo.whole_remaining whole
      refine ⟨⟨whole, kept⟩, rfl, ?_⟩
      simp only [seen, counted, Bounded.removes]
  | cons item others =>
      rcases removed with ⟨rfl, whole⟩
      have counted := BndSafeFifo.whole_remaining whole
      refine ⟨⟨whole, kept⟩, rfl, ?_⟩
      simp only [seen, counted, Bounded.removes]

theorem make_returns {call : Call Item} {result : Result Item} {meant : Bounded Item}
    {observed : Observed Item} (refines : BusyRefines busy bounded)
    (performed : BndSafeFifo.perform blank busy.queue call = some (.returns next result))
    (onward : Refines next meant) (same : SameSemas busy.queue next)
    (blocked : meant.blocked = bounded.blocked)
    (sees : .returns (seen result) next.remaining = observed) :
    ∃ after, busy.make blank call = some (after, observed) ∧ BusyRefines after meant := by
  refine ⟨⟨next, busy.blocked⟩, ?_, onward, ?_⟩
  · simp only [Busy.make, performed, Option.map_some, sees]
  · rw [blocked]
    exact refines.blocked.imp fun _ _ => waits_same same

theorem make_blocks (refines : BusyRefines busy bounded) (short : bounded.permits < 1)
    (adding : Adding Item) :
    ∃ after, busy.make blank (.adds adding) = some (after, .blocks) ∧
      BusyRefines after { bounded with blocked := bounded.blocked ++ [(true, adding)] } := by
  rcases refines.queue.whole.sema with ⟨sema, inUse, present⟩
  have performed := BndSafeFifo.perform_adds_blocks inUse present short blank adding
  have waits : Waits busy.queue (sema, adding) (true, adding) :=
    ⟨rfl, read_bound present, fun _ => inUse, fun stale => by cases stale⟩
  refine ⟨⟨busy.queue, busy.blocked ++ [(sema, adding)]⟩, ?_,
    ⟨refines.queue.whole, refines.queue.enabled⟩, ?_⟩
  · simp only [Busy.make, performed, Option.map_some, inUse]
  · exact List.rel_append refines.blocked (.cons waits .nil)

theorem make_refines (blank : Item) (refines : BusyRefines busy bounded) (call : Call Item) :
    ∃ after, busy.make blank call = some (after, (bounded.call blank call).2) ∧
      BusyRefines after (bounded.call blank call).1 := by
  have queueRefines := refines.queue
  have counted := BndSafeFifo.whole_remaining queueRefines.whole
  rcases queueRefines.whole.represents with ⟨cells, represents⟩
  cases call with
  | adds adding =>
      by_cases short : bounded.permits < 1
      · rw [Bounded.call, if_pos short]
        exact make_blocks refines short adding
      · rcases adds_refines blank queueRefines short adding with ⟨next, result, performed,
          onward, same, sees⟩
        rw [Bounded.call, if_neg short]
        exact make_returns refines performed onward same rfl sees
  | remove =>
      rcases BndSafeFifo.remove_removes blank queueRefines.whole with ⟨next, result, performed,
        removes, same⟩
      rw [queueRefines.enabled] at removes
      rcases removes_refines bounded removes with ⟨onward, blocked, sees⟩
      exact make_returns refines performed onward same blocked sees
  | removeOrBlock =>
      rcases BndSafeFifo.remove_or_block_removes blank queueRefines.whole with
        ⟨next, result, performed, removes, same⟩
      rw [queueRefines.enabled] at removes
      rcases removes_refines bounded removes with ⟨onward, blocked, sees⟩
      exact make_returns refines performed onward same blocked sees
  | clearAll =>
      rcases BndSafeFifo.clear_all_clears blank queueRefines.whole with ⟨next, performed, whole,
        kept, drops⟩
      have nothing : next.remaining = 0 := BndSafeFifo.whole_remaining whole
      refine ⟨⟨next, busy.blocked⟩, ?_, ⟨whole, kept.trans queueRefines.enabled⟩, ?_⟩
      · simp only [Busy.make, performed, Option.map_some, seen, nothing, Bounded.call]
      · exact List.forall₂_map_right_iff.mpr (refines.blocked.imp fun _ _ => waits_dropped drops)
  | enable =>
      have switched := represents_flags represents true busy.queue.fifo.blockCnt
      have onward : Refines _ { bounded with enabled := true } :=
        ⟨BndSafeFifo.whole_inner queueRefines.whole switched, rfl⟩
      exact make_returns refines rfl onward ⟨rfl, rfl, fun _ gone => gone⟩ rfl
        (congrArg (Observed.returns _) counted)
  | disable =>
      have switched := represents_flags represents false busy.queue.fifo.blockCnt
      have onward : Refines _ { bounded with enabled := false } :=
        ⟨BndSafeFifo.whole_inner queueRefines.whole switched, rfl⟩
      exact make_returns refines rfl onward ⟨rfl, rfl, fun _ gone => gone⟩ rfl
        (congrArg (Observed.returns _) counted)

theorem go_on_refines (blank : Item) (refines : BusyRefines busy bounded) (i : Nat) :
    busy.goOn blank i = none ∧ bounded.goOn blank i = none ∨
      ∃ after meant observed, busy.goOn blank i = some (after, observed) ∧
        bounded.goOn blank i = some (meant, observed) ∧ BusyRefines after meant := by
  rcases forall_at refines.blocked i with ⟨mine, meant⟩ | ⟨⟨sema, adding⟩, ⟨current, same⟩, mine,
    meant, waits⟩
  · exact .inr ⟨busy, bounded, .nobody, by rw [Busy.goOn, mine], by rw [Bounded.goOn, meant],
      refines⟩
  · have same : adding = same := waits.adding
    subst same
    cases current with
    | false =>
        refine .inl ⟨?_, by simp only [Bounded.goOn, meant]⟩
        simp only [Busy.goOn, mine, BndSafeFifo.go_on_gone (waits.gone rfl), Option.bind_none,
          Option.map_none]
    | true =>
        have inUse : busy.queue.sizeSema = some sema := waits.inUse rfl
        by_cases short : bounded.permits < 1
        · refine .inr ⟨busy, bounded, .blocks, ?_, by simp only [Bounded.goOn, meant, if_pos short],
            refines⟩
          rcases refines.queue.whole.sema with ⟨used, inUseToo, present⟩
          have performed := BndSafeFifo.perform_adds_blocks inUseToo present short blank adding
          simp only [Busy.goOn, mine, BndSafeFifo.go_on_again inUse, performed, Option.map_some]
        · rcases adds_refines blank refines.queue short adding with ⟨next, result, performed,
            onward, same, sees⟩
          let added := bounded.adds blank adding
          refine .inr ⟨⟨next, busy.blocked.eraseIdx i⟩,
            { added.1 with blocked := bounded.blocked.eraseIdx i }, added.2,
            ?_, by simp only [Bounded.goOn, meant, if_neg short, added],
            ⟨onward.whole, onward.enabled⟩, ?_⟩
          · simp only [Busy.goOn, mine, BndSafeFifo.go_on_again inUse, performed, Option.map_some,
              sees, added]
          · exact forall_erase (refines.blocked.imp fun _ _ => waits_same same) i

theorem run_refines (blank : Item) (refines : BusyRefines busy bounded) (turns : List (Turn Item)) :
    run blank busy turns = bounded.run blank turns := by
  induction turns generalizing busy bounded with
  | nil => rfl
  | cons turn rest ih =>
      cases turn with
      | call call =>
          rcases make_refines blank refines call with ⟨after, made, onward⟩
          simp only [run, Busy.turn, made, Bounded.run, Bounded.turn, ih onward]
      | goOn i =>
          rcases go_on_refines blank refines i with ⟨mine, meant⟩ | ⟨after, next, observed, mine,
            meant, onward⟩
          · simp only [run, Busy.turn, mine, Bounded.run, Bounded.turn, meant]
          · simp only [run, Busy.turn, mine, Bounded.run, Bounded.turn, meant, ih onward]

end Waiting

/-! ## When a copy is right -/

/-- The copy constructor is an assignment to a queue that is empty and has the bound already. -/
theorem construct_eq_assign (unset : Option Nat) (other : BndFifo Item) :
    construct unset other = assign unset { empty with max := other.max } other := rfl

/-- Around the assignment of the inner queue the semaphore is replaced, and the bound is not looked
at. -/
theorem assign_around {unset : Option Nat} {copied : FifoCopy.Copied Item}
    (target : Stands queue items) (assigned : Kind.safe.assign queue.fifo queue.links ⟨other.fifo,
      other.links, unset⟩ = some copied) :
    ∃ semas : Store Sema, assign unset queue other = other.permits.map fun count =>
      ⟨{ queue with
          fifo := copied.fifo, links := copied.links, semas := semas.push ⟨count⟩, sizeSema :=
            some semas.fresh },
        { other with links := copied.sources }⟩ := by
  have dropped : ∃ semas, dropSema (ofInner queue other copied).queue =
      some { (ofInner queue other copied).queue with semas } := by
    cases inUse : queue.sizeSema with
    | none => exact ⟨queue.semas, by simp only [dropSema, ofInner, inUse]⟩
    | some sema =>
        rcases Option.isSome_iff_exists.mp (target.sema sema inUse) with ⟨object, present⟩
        refine ⟨(queue.semas.write sema object.releaseAll.sema).giveUp sema, ?_⟩
        simp only [dropSema, ofInner, inUse, present, Option.map_some]
  rcases dropped with ⟨semas, dropped⟩
  refine ⟨semas, ?_⟩
  simp only [assign, assigned, dropped, Option.bind_eq_bind, Option.bind_some]
  have count : (ofInner queue other copied).source.permits = other.permits := rfl
  rw [newSema, count]
  cases other.permits <;> rfl

theorem permits_is_some (source : Stands other given) :
    other.permits.isSome = other.sizeSema.isSome := by
  cases inUse : other.sizeSema with
  | none => simp [BndFifo.permits, inUse]
  | some sema => simpa [BndFifo.permits, inUse] using source.sema sema inUse

theorem refines_stands (refines : Refines queue bounded) : Stands queue bounded.items := by
  rcases refines.whole.sema with ⟨sema, inUse, present⟩
  refine ⟨refines.whole.represents, fun other same => ?_⟩
  cases Option.mem_unique same inUse
  rw [present]
  rfl

theorem assign_copies_iff (blank : Item) (target : Stands queue items)
    (source : Stands other given) :
    Copies blank (fun unset => assign unset queue other) other given ↔
      given ≠ [] ∧ other.sizeSema.isSome ∧ queue.max = other.max := by
  rcases target.represents with ⟨cells, represents⟩
  rcases source.represents with ⟨otherCells, whole⟩
  constructor
  · intro copies
    rcases copies (some 0) with ⟨copied, made, equals⟩
    have filled : given ≠ [] := by
      rintro rfl
      have noCells : otherCells = [] := carries_no_cells whole.carried
      have nothing : other.fifo.out = none := by rw [represents_out whole, noCells, List.head?_nil]
      rcases FifoCopy.assign_empty .safe represents ⟨other.fifo, other.links, some 0⟩ nothing with
        ⟨inner, assigned, inn⟩
      rcases assign_around target assigned with ⟨semas, around⟩
      rcases Option.map_eq_some_iff.mp (around.symm.trans made) with ⟨count, -, rfl⟩
      rcases equals.elements.represents with ⟨now, held⟩
      have noLinks : now = [] := carries_no_cells held.carried
      have last : inner.fifo.inn = now.getLast? := held.last
      rw [inn, noLinks] at last
      cases last
    rcases FifoCopy.assign_filled .safe represents ⟨other.fifo, other.links,
        some 0⟩ whole filled with
      ⟨inner, now, assigned, -, -⟩
    rcases assign_around target assigned with ⟨semas, around⟩
    rcases Option.map_eq_some_iff.mp (around.symm.trans made) with ⟨count, has, rfl⟩
    refine ⟨filled, ?_, equals.bound⟩
    rw [← permits_is_some source, has]
    rfl
  · rintro ⟨filled, hasSema, sameMax⟩ unset
    rw [← permits_is_some source] at hasSema
    rcases Option.isSome_iff_exists.mp hasSema with ⟨count, has⟩
    rcases FifoDisabled.permits_sema has with ⟨sema, inUse, present⟩
    rcases FifoCopy.assign_filled .safe represents ⟨other.fifo, other.links,
        unset⟩ whole filled with
      ⟨inner, now, assigned, holds, kept⟩
    rcases assign_around target assigned with ⟨semas, around⟩
    rw [has, Option.map_some] at around
    let meant : Bounded Item := ⟨other.fifo.enabled, given, count, other.max, []⟩
    have copy : Refines { queue with
        fifo := inner.fifo, links := inner.links, semas := semas.push ⟨count⟩, sizeSema :=
          some semas.fresh } meant :=
      ⟨⟨⟨now, holds.represents⟩, ⟨semas.fresh, rfl, by simp [read_push, meant]⟩, sameMax⟩,
        holds.enabled⟩
    have source : Refines { other with links := inner.sources } meant :=
      ⟨⟨⟨otherCells, by simpa [Kind.left] using kept⟩, ⟨sema, inUse, present⟩, rfl⟩, rfl⟩
    refine ⟨_, around, refines_stands copy, refines_stands source, ?_, sameMax, fun turns => ?_⟩
    · rw [has]
      exact BndSafeFifo.whole_permits copy.whole
    · rw [run_refines blank ⟨copy, .nil⟩ turns, run_refines blank ⟨source, .nil⟩ turns]

theorem empty_stands (max : Int) : Stands ({ empty with max } : BndFifo Item) [] :=
  ⟨⟨[], represents_new⟩, fun _ inUse => by cases inUse⟩

/-- An assignment makes an equal bounded queue exactly if the source is not empty, has a semaphore,
and the two have the same bound to begin with. A copy construction needs the first two only. -/
theorem bnd_copy_equals_iff (blank : Item) (target : Stands queue items)
    (source : Stands other given) :
    (Copies blank (fun unset => assign unset queue other) other given ↔
      given ≠ [] ∧ other.sizeSema.isSome ∧ queue.max = other.max) ∧
    (Copies blank (fun unset => construct unset other) other given ↔ given ≠ [] ∧
      other.sizeSema.isSome) := by
  refine ⟨assign_copies_iff blank target source, ?_⟩
  simp only [construct_eq_assign]
  rw [assign_copies_iff blank (empty_stands other.max) source]
  simp only [and_true]

/-! ## A source with another bound -/

def holdsSeven : BndFifo Nat :=
  ⟨FifoCopy.oneElement, FifoCopy.oneElementLinks, ⟨[some ⟨1⟩]⟩, some 0, 2⟩

theorem holds_seven_stands : Stands holdsSeven [7] :=
  ⟨⟨[0], FifoCopy.one_element_represents⟩, fun sema inUse => by cases inUse; rfl⟩

theorem new_stands (max : Int) : Stands (.new max : BndFifo Nat) [] :=
  ⟨⟨[], represents_new⟩, fun sema inUse => by cases inUse; rfl⟩

theorem bnd_copy_equals_iff_new :
    (Copies 0 (fun unset => assign unset (.new 2) holdsSeven) holdsSeven [7] ↔
      ([7] : List Nat) ≠ [] ∧ holdsSeven.sizeSema.isSome ∧
      (BndFifo.new 2 : BndFifo Nat).max = holdsSeven.max) ∧
    (Copies 0 (fun unset => construct unset holdsSeven) holdsSeven [7] ↔
      ([7] : List Nat) ≠ [] ∧ holdsSeven.sizeSema.isSome) :=
  bnd_copy_equals_iff 0 (new_stands 2) holds_seven_stands

def clearAndAddTwo : List (Turn Nat) :=
  [.call .clearAll, .call (.adds (.add 8)), .call (.adds (.add 9))]

/-- A queue for one element has the same free capacity as its source until it is cleared. A source
that is empty, or that never had a semaphore, is not copied either. -/
theorem bnd_copy_not_always_equal :
    (∃ copied, assign none (.new 1) holdsSeven = some copied ∧
      run 0 ⟨copied.queue, []⟩ clearAndAddTwo = [.returns .nothing 0,
        .returns .nothing 1, .blocks] ∧
      run 0 ⟨copied.source, []⟩ clearAndAddTwo = [.returns .nothing 0, .returns .nothing 1,
        .returns .nothing 2]) ∧
    ¬ Copies 0 (fun unset => assign unset (.new 1) holdsSeven) holdsSeven [7] ∧
    ¬ Copies 0 (fun unset => assign unset (.new 1) (.new 1)) (.new 1 : BndFifo Nat) [] ∧
    assign none (.new 1) (empty : BndFifo Nat) = none := by
  refine ⟨⟨_, rfl, rfl, rfl⟩, ?_, ?_, rfl⟩
  · intro copies
    have same := ((assign_copies_iff 0 (new_stands 1) holds_seven_stands).mp copies).2.2
    cases same
  · intro copies
    exact ((assign_copies_iff 0 (new_stands 1) (new_stands 1)).mp copies).1 rfl

end TWlib.BndSafeFifoCopy
