import Mathlib.Data.List.Infix
import TWlib.SafeFifoRegions

/-!
# The FIFO without a mutex

`tw_FIFO` has the members of `tw_safeFIFO` except for the mutex, the condition and `_block_cnt`,
which no function here touches, and its functions do to the links what the regions of `tw_safeFIFO`
do. `transferFrom` is its own: it hooks the links of another queue behind its own and then counts
them by following `in`.
-/

namespace TWlib.PlainFifo

open TWlib.Lib.CellStore TWlib.Lib.LinkedChain TWlib.Lib.ValueChain TWlib.SafeFifo
    TWlib.SafeFifoRegions

set_option autoImplicit false

variable {Item : Type*}

/-! ## The model -/

def add (fifo : Fifo) (links : Links Item) (theD : Item) : Option (Fifo × Links Item) :=
  if fifo.enabled then
    let (links, newlink, _) := initLink id links theD
    fifo.append links newlink
  else some (fifo, links)

def addToHead (fifo : Fifo) (links : Links Item) (theD : Item) : Option (Fifo × Links Item) :=
  if fifo.enabled then do
    let (links, newlink, again) := initLink id links theD
    let content ← links.read newlink
    let links := links.write newlink { content with d := again }
    let links ← match fifo.out with
      | none => some links
      | some out => setNext links newlink (some out)
    let inn := if fifo.inn.isNone then some newlink else fifo.inn
    some ({ fifo with out := some newlink, inn, remain := fifo.remain + 1 }, links)
  else some (fifo, links)

/-- `tw_FIFO::addEmpty`, with the link whose content the caller gets a pointer to, or none for
NULL. -/
def addEmpty (blank : Item) (fifo : Fifo) (links : Links Item) :
    Option (Fifo × Links Item × Option Nat) :=
  if fifo.enabled then do
    let newlink := links.fresh
    let (fifo, links) ← fifo.append (links.push ⟨blank, none⟩) newlink
    some (fifo, links, some newlink)
  else some (fifo, links, none)

/-- `tw_FIFO::remove`, with what it fills its argument with if it returns true. -/
def remove (fifo : Fifo) (links : Links Item) : Option (Fifo × Links Item × Option Item) := do
  let fifo := fifo.dropIn
  match fifo.out with
  | none => some (fifo, links, none)
  | some oldout =>
      let content ← links.read oldout
      some ({ fifo with out := content.next, remain := fifo.remain - 1 }, links.giveUp oldout,
        some content.d)

/-- `while(in->next) { in = in->next; remain++; }` -/
def followIn : Nat → Fifo → Links Item → Option (Fifo × Links Item)
  | 0, _, _ => none
  | fuel + 1, fifo, links =>
      match fifo.inn with
      | none => none
      | some last => do
          let content ← links.read last
          match content.next with
          | none => some (fifo, links)
          | some next =>
              followIn fuel { fifo with inn := some next, remain := fifo.remain + 1 } links

/-- Two queues whose links are allocated in one place. -/
structure Pair (Item : Type*) where
  fifo : Fifo
  other : Fifo
  links : Links Item

/-- `if(other.out) { ... }`, which takes the first link of the other queue over. -/
def takeFirst (fifo : Fifo) (links : Links Item) (first : Nat) : Option (Fifo × Links Item) := do
  let links ← match fifo.inn with
    | some last => setNext links last (some first)
    | none => some links
  some ({ fifo with inn := some first, remain := fifo.remain + 1 }, links)

/-- `if(!out) out = in;` -/
def setOut (fifo : Fifo) : Fifo := if fifo.out.isNone then { fifo with out := fifo.inn } else fifo

def transferFrom (pair : Pair Item) : Option (Pair Item) :=
  if pair.fifo.enabled then do
    let (fifo, links) ← match pair.other.out with
      | some first => takeFirst pair.fifo pair.links first
      | none => some (pair.fifo, pair.links)
    let (fifo, links) ← followIn (links.fresh + 1) (setOut fifo) links
    some ⟨fifo, { pair.other with out := none, inn := none, remain := 0 }, links⟩
  else some pair

inductive QueueCall (Item : Type*) where
  | add (theD : Item)
  | remove
deriving DecidableEq

def call (fifo : Fifo) (links : Links Item) : QueueCall Item →
    Option (Fifo × Links Item × Option Item)
  | .add theD => do
      let (fifo, links) ← add fifo links theD
      some (fifo, links, none)
  | .remove => remove fifo links

def Pair.call (pair : Pair Item) (onOther : Bool) (given : QueueCall Item) :
    Option (Pair Item × Option Item) :=
  if onOther then do
    let (other, links, fill) ← PlainFifo.call pair.other pair.links given
    some ({ pair with other, links }, fill)
  else do
    let (fifo, links, fill) ← PlainFifo.call pair.fifo pair.links given
    some ({ pair with fifo, links }, fill)

def Pair.run : Pair Item → List (Bool × QueueCall Item) → Option (Pair Item × List (Option Item))
  | pair, [] => some (pair, [])
  | pair, (onOther, given) :: rest => do
      let (pair, fill) ← pair.call onOther given
      let (last, fills) ← pair.run rest
      some (last, fill :: fills)

/-! ## What it is for -/

/-- A queue that can be disabled, which keeps it from accepting elements. -/
structure Queue (Item : Type*) where
  enabled : Bool
  items : List Item

def Queue.call (queue : Queue Item) : QueueCall Item → Queue Item × Option Item
  | .add theD =>
      (if queue.enabled then { queue with items := queue.items ++ [theD] } else queue, none)
  | .remove => ({ queue with items := queue.items.tail }, queue.items.head?)

structure Queues (Item : Type*) where
  one : Queue Item
  two : Queue Item

def Queues.call (queues : Queues Item) (onOther : Bool) (given : QueueCall Item) :
    Queues Item × Option Item :=
  if onOther then
    let (two, fill) := queues.two.call given
    ({ queues with two }, fill)
  else
    let (one, fill) := queues.one.call given
    ({ queues with one }, fill)

def Queues.run : Queues Item → List (Bool × QueueCall Item) → Queues Item × List (Option Item)
  | queues, [] => (queues, [])
  | queues, (onOther, given) :: rest =>
      let (queues, fill) := queues.call onOther given
      let (last, fills) := queues.run rest
      (last, fill :: fills)

/-- The links of a queue hold its elements, and `out`, `in` and the count are about them. -/
structure Holds (fifo : Fifo) (links : Links Item) (cells : List Nat)
    (queue : Queue Item) : Prop where
  represents : Represents fifo links cells queue.items
  enabled : fifo.enabled = queue.enabled

/-- The two queues have no link in common. -/
structure Stands (pair : Pair Item) (queues : Queues Item) (cells others : List Nat) : Prop where
  one : Holds pair.fifo pair.links cells queues.one
  two : Holds pair.other pair.links others queues.two
  apart : cells.Disjoint others

/-- Both queues are queues, and remain so through all later calls. -/
def Behaves (pair : Pair Item) (queues : Queues Item) : Prop :=
  (∃ cells others, Stands pair queues cells others) ∧
    ∀ calls, ∃ last cells others, pair.run calls = some (last, (queues.run calls).2) ∧
      Stands last (queues.run calls).1 cells others

variable {fifo : Fifo} {links after : Links Item} {cells others : List Nat}
  {items given : List Item} {queue : Queue Item} {pair : Pair Item} {queues : Queues Item}

/-! ## One call -/

theorem add_holds (holds : Holds fifo links cells queue) (theD : Item) :
    ∃ grown after now, add fifo links theD = some (grown, after) ∧
      Holds grown after now (queue.call (.add theD)).1 ∧ Keeps links cells none after now := by
  rcases holds with ⟨represents, enabled⟩
  cases accepts : queue.enabled with
  | false =>
      refine ⟨fifo, links, cells, ?_, ⟨?_, ?_⟩, keeps_refl _ _ _⟩
      · simp [add, enabled, accepts]
      · simpa [Queue.call, accepts] using represents
      · simpa [Queue.call, accepts] using enabled
  | true =>
      rcases represents_push represents (⟨theD, none⟩ : Link Item) with ⟨pushed, outside, keepsPush⟩
      have made : (links.push ⟨theD, none⟩).read links.fresh = some ⟨theD,
        none⟩ := by simp [read_push]
      rcases append_eq pushed made outside with ⟨after, appended, grown, keepsAppend⟩
      refine ⟨{ fifo with inn := some links.fresh, out := (cells ++ [links.fresh]).head?,
                          remain := fifo.remain + 1 }, after, cells ++ [links.fresh], ?_,
                          ⟨?_, ?_⟩, ?_⟩
      · have accepted : fifo.enabled = true := enabled.trans accepts
        simp only [add, accepted, if_true, initLink]
        rw [← accepted]
        exact appended
      · simpa [Queue.call, accepts] using grown
      · simp [Queue.call, enabled, accepts]
      · intro link content apart own present
        rcases keepsPush link content apart own present with ⟨still, -⟩
        have different : some links.fresh ≠ some link := by
          intro same
          cases same
          exact Nat.lt_irrefl _ (read_bound present)
        exact keepsAppend link content apart different still

/-- `remove` is what the regions of the thread-safe classes do as well. -/
theorem remove_eq_region (fifo : Fifo) (links : Links Item) : remove fifo links =
    (fifo.remove links).map fun region => (region.fifo, region.links,
      match region.outcome with
      | .returns _ fill => fill
      | .goes _ => none) := by
  unfold remove Fifo.remove Fifo.takeOut
  cases out : fifo.out with
  | none => simp [out]
  | some oldout => cases read : links.read oldout <;> simp [out, read]

theorem remove_holds (holds : Holds fifo links cells queue) :
    ∃ shorter after now, remove fifo links = some (shorter, after, (queue.call .remove).2) ∧
      Holds shorter after now (queue.call .remove).1 ∧ Keeps links cells none after now := by
  rcases holds with ⟨represents, enabled⟩
  rcases take_out_eq represents with
    ⟨empty, missed⟩ | ⟨item, rest, shorter, after, now, split, took, left, keeps, same⟩
  · refine ⟨fifo, links, cells, ?_, ⟨?_, enabled⟩, keeps_refl _ _ _⟩
    · simp [remove_eq_region, Fifo.remove, missed, Queue.call, empty]
    · simpa [Queue.call, empty] using represents
  · refine ⟨shorter, after, now, ?_, ⟨?_, ?_⟩, keeps⟩
    · simp [remove_eq_region, Fifo.remove, took, Queue.call, split]
    · simpa [Queue.call, split] using left
    · exact same.1.trans enabled

theorem call_holds (holds : Holds fifo links cells queue) (given : QueueCall Item) :
    ∃ next after now, call fifo links given = some (next, after, (queue.call given).2) ∧
      Holds next after now (queue.call given).1 ∧ Keeps links cells none after now := by
  cases given with
  | add theD =>
      rcases add_holds holds theD with ⟨grown, after, now, added, held, keeps⟩
      refine ⟨grown, after, now, ?_, held, keeps⟩
      simp [call, added, Queue.call]
  | remove => exact remove_holds holds

theorem holds_apart {others now : List Nat} (holds : Holds fifo links others queue)
    (keeps : Keeps links cells none after now) (apart : cells.Disjoint others) :
    Holds fifo after others queue ∧ now.Disjoint others := by
  have kept : ∀ link ∈ others, after.read link = links.read link ∧ link ∉ now := by
    intro link member
    rcases represents_exists holds.represents member with ⟨content, present⟩
    have outside : link ∉ cells := fun inside => apart inside member
    rcases keeps link content outside (by simp) present with ⟨still, notNow⟩
    exact ⟨still.trans present.symm, notNow⟩
  refine ⟨⟨represents_frame holds.represents fun link member => (kept link member).1,
    holds.enabled⟩, ?_⟩
  exact fun link inside member => (kept link member).2 inside

theorem pair_call_stands (stands : Stands pair queues cells others) (onOther : Bool)
    (given : QueueCall Item) :
    ∃ next now after, pair.call onOther given = some (next, (queues.call onOther given).2) ∧
      Stands next (queues.call onOther given).1 now after := by
  cases onOther with
  | false =>
      rcases call_holds stands.one given with ⟨fifo, links, now, called, held, keeps⟩
      rcases holds_apart stands.two keeps stands.apart with ⟨still, apart⟩
      refine ⟨{ pair with fifo, links }, now, others, ?_, held, still, apart⟩
      simp [Pair.call, called, Queues.call]
  | true =>
      rcases call_holds stands.two given with ⟨other, links, now, called, held, keeps⟩
      rcases holds_apart stands.one keeps (List.disjoint_symm stands.apart) with ⟨still, apart⟩
      refine ⟨{ pair with other, links }, cells, now, ?_, still, held, List.disjoint_symm apart⟩
      simp [Pair.call, called, Queues.call]

theorem stands_behaves (stands : Stands pair queues cells others) : Behaves pair queues := by
  refine ⟨⟨cells, others, stands⟩, fun calls => ?_⟩
  induction calls generalizing pair queues cells others with
  | nil => exact ⟨pair, cells, others, rfl, stands⟩
  | cons first rest ih =>
      rcases first with ⟨onOther, given⟩
      rcases pair_call_stands stands onOther given with ⟨next, now, after, called, held⟩
      rcases ih held with ⟨last, lastCells, lastOthers, ran, ends⟩
      refine ⟨last, lastCells, lastOthers, ?_, ends⟩
      simp only [Pair.run, called, Option.bind_eq_bind, Option.bind_some, ran]
      rfl

/-! ## Transferring -/

/-- Following `in` ends at the last link and counts the links behind the first. -/
theorem follow_in_eq {first : Nat} {rest : List Nat}
    (chain : Chain (nextOf links) (some first) (first :: rest)) {fuel : Nat}
      (enough : rest.length < fuel) (starts : fifo.inn = some first) : followIn fuel fifo links =
      some ({ fifo with inn := (first :: rest).getLast?, remain := fifo.remain + rest.length },
        links) := by
  induction rest generalizing first fuel fifo with
  | nil =>
      rcases chain with ⟨-, after, step, ends⟩
      cases ends
      rcases Option.map_eq_some_iff.mp step with ⟨content, present, last⟩
      cases fuel with
      | zero => simp at enough
      | succ fuel =>
          have same : { fifo with inn := some first } = fifo := by rw [← starts]
          simp [followIn, starts, present, last, same]
  | cons second rest ih =>
      rcases chain with ⟨-, after, step, tail⟩
      rcases Option.map_eq_some_iff.mp step with ⟨content, present, rfl⟩
      have leads : content.next = some second := tail.1
      rw [leads] at tail
      cases fuel with
      | zero => simp at enough
      | succ fuel =>
          have onward : followIn fuel { fifo with inn := some second, remain := fifo.remain + 1 }
              links = _ :=
            ih tail (by simpa using enough) rfl
          have total : fifo.remain + 1 + (rest.length : Int) = fifo.remain +
              ((second :: rest).length : Int) := by
            simp only [List.length_cons]
            omega
          simp only [followIn, starts, present, Option.bind_eq_bind, Option.bind_some, leads,
            onward, total,
            List.getLast?_cons_cons]

theorem chain_last {next : Nat → Option (Option Nat)} {start : Option Nat} {last : Nat}
    (chain : Chain next start cells) (isLast : cells.getLast? = some last) : Chain next (some last)
    [last] := by
  rcases List.getLast?_eq_some_iff.mp isLast with ⟨front, rfl⟩
  exact ((chain_append start front [last]).mp chain).2

/-- The first link of the other queue is hooked behind the last one, and all the others with it. -/
theorem take_first_eq {first : Nat} (one : Represents fifo links cells items)
    (two : Carries (nextOf links) (valueOf links) (some first) others given)
    (apart : cells.Disjoint others) :
    ∃ after, takeFirst fifo links first =
        some ({ fifo with inn := some first, remain := fifo.remain + 1 }, after) ∧
      Carries (nextOf after) (valueOf after) (fifo.out.or (some first)) (cells ++ others)
      (items ++ given) ∧
      Chain (nextOf after) (some first) others ∧ after.fresh = links.fresh := by
  cases filled : cells.getLast? with
  | none =>
      have empty : cells = [] := List.getLast?_eq_none_iff.mp filled
      subst empty
      have nothing : items = [] := carries_no_items one.carried
      have inn : fifo.inn = none := one.last
      have out : fifo.out = none := represents_out one
      refine ⟨links, by simp [takeFirst, inn], ?_, two.chain, rfl⟩
      rw [out, nothing]
      exact two
  | some last =>
      have member : last ∈ cells := List.mem_of_getLast? filled
      have nonempty : cells ≠ [] := List.ne_nil_of_mem member
      have inn : fifo.inn = some last := one.last.trans filled
      rcases represents_exists one member with ⟨content, present⟩
      have reads := read_write present { content with next := some first }
      let after := links.write last { content with next := some first }
      have others_same : ∀ link, link ≠ last → nextOf after link = nextOf links link := by
        intro link different
        simp [after, nextOf, reads, different]
      have someOut : fifo.out.or (some first) = fifo.out := by
        rw [represents_out one]
        cases cells with
        | nil => exact absurd rfl nonempty
        | cons cell rest => rfl
      refine ⟨after, ?_, ?_, ?_, fresh_write _ _ _⟩
      · simp [takeFirst, inn, set_next_eq present, after]
      · rw [someOut]
        apply carries_splice one.carried two nonempty apart
        · intro link isLast
          cases Option.some.inj (isLast.symm.trans filled)
          simp [after, nextOf, reads]
        · intro link _ notLast
          apply others_same
          exact fun same => notLast (same ▸ filled)
        · intro link _
          by_cases same : link = last
          · simp [after, valueOf, reads, same, present]
          · simp [after, valueOf, reads, same]
      · apply chain_frame two.chain
        intro link inside
        exact others_same link fun same => apart (same ▸ member) inside

theorem both_allocated {other : Fifo} (one : Represents fifo links cells items)
    (two : Represents other links others given) (apart : cells.Disjoint others) :
    (cells ++ others).length ≤ links.fresh := by
  have inside : (cells ++ others) ⊆ List.range links.fresh := by
    intro link member
    have exists_ : ∃ content, links.read link = some content := by
      rcases List.mem_append.mp member with own | theirs
      · exact represents_exists one own
      · exact represents_exists two theirs
    rcases exists_ with ⟨content, present⟩
    exact List.mem_range.mpr (read_bound present)
  have nodup : (cells ++ others).Nodup :=
    (chain_nodup one.carried.chain).append (chain_nodup two.carried.chain) apart
  simpa using (List.subperm_of_subset nodup inside).length_le

/-- The links of the other queue are taken over unless both are empty, and then `in` is NULL. -/
theorem transfer_from_eq (one : Represents pair.fifo pair.links cells items)
    (two : Represents pair.other pair.links others given) (apart : cells.Disjoint others)
    (accepts : pair.fifo.enabled = true) (filled : items ≠ [] ∨ given ≠ []) :
    ∃ grown after, transferFrom pair =
        some ⟨grown, { pair.other with out := none, inn := none, remain := 0 }, after⟩ ∧
      Represents grown after (cells ++ others) (items ++ given) ∧ grown.enabled = true := by
  have bound := both_allocated one two apart
  have counts : pair.fifo.remain + others.length = ((items ++ given).length : Int) := by
    have length := carries_length two.carried
    have counted := one.counted
    simp only [List.length_append]
    omega
  cases out : pair.other.out with
  | none =>
      have empty := carries_none (out ▸ two.carried)
      rcases empty with ⟨rfl, rfl⟩
      have holds : items ≠ [] := by simpa using filled
      have nonempty : cells ≠ [] := by
        rintro rfl
        exact holds (carries_no_items one.carried)
      rcases List.getLast?_isSome.mpr nonempty |> Option.isSome_iff_exists.mp with ⟨last, isLast⟩
      have inn : pair.fifo.inn = some last := one.last.trans isLast
      have someOut : setOut pair.fifo = pair.fifo := by
        have filled : pair.fifo.out.isNone = false := by
          rw [represents_out one]
          simpa using nonempty
        simp only [setOut, filled, Bool.false_eq_true, if_false]
      have followed : followIn (pair.links.fresh + 1) pair.fifo pair.links = _ :=
        follow_in_eq (chain_last one.carried.chain isLast) (by simp) inn
      have same : { pair.fifo with inn := [last].getLast?,
                                   remain := pair.fifo.remain + ([] : List Nat).length } =
          pair.fifo := by simp [← inn]
      rw [same] at followed
      refine ⟨pair.fifo, pair.links, ?_, ?_, accepts⟩
      · simp only [transferFrom, accepts, if_true, out, Option.bind_eq_bind,
          Option.bind_some, someOut,
          followed]
      · simpa using one
  | some first =>
      have carried := two.carried
      rw [out] at carried
      rcases take_first_eq one carried apart with ⟨after, took, carries, chain, fresh⟩
      rcases carries_first carried with ⟨rest, item, later, onward, rfl, rfl, -, -, -⟩
      have enough : rest.length < after.fresh + 1 := by
        simp only [List.length_append, List.length_cons] at bound
        omega
      let hooked : Fifo := { pair.fifo with
        out := pair.fifo.out.or (some first), inn := some first, remain := pair.fifo.remain + 1 }
      have followed : followIn (after.fresh + 1) hooked after = _ := follow_in_eq chain enough rfl
      have starts : setOut { pair.fifo with inn := some first, remain := pair.fifo.remain + 1 } =
          hooked := by
        cases here : pair.fifo.out with
        | none => simp [setOut, hooked, here]
        | some cell => simp [setOut, hooked, here]
      refine ⟨{ hooked with inn := (first :: rest).getLast?,
                            remain := hooked.remain + rest.length }, after, ?_,
        ⟨carries, ?_, ?_⟩, ?_⟩
      · rw [transferFrom, if_pos accepts]
        simp only [out, took, Option.bind_eq_bind, Option.bind_some, starts, followed]
      · exact (List.getLast?_append_of_ne_nil cells (List.cons_ne_nil first rest)).symm
      · simp only [List.length_cons] at counts
        simp only [hooked]
        omega
      · exact accepts

/-- What `a.transferFrom(b)` is to do: the first queue holds both sequences, the other one is empty,
and both are queues that can be used. -/
def Transfers (pair : Pair Item) (queues : Queues Item) : Prop :=
  ∃ after, transferFrom pair = some after ∧
    Behaves after ⟨⟨queues.one.enabled, queues.one.items ++ queues.two.items⟩,
      ⟨queues.two.enabled, []⟩⟩

/-- With both queues empty the loop follows `in`, which is NULL. -/
theorem transfer_from_both_empty (one : Represents pair.fifo pair.links cells ([] : List Item))
    (two : Represents pair.other pair.links others ([] : List Item))
    (accepts : pair.fifo.enabled = true) :
    transferFrom pair = none := by
  have noCells : cells = [] := carries_no_cells one.carried
  have noOthers : others = [] := carries_no_cells two.carried
  subst noCells noOthers
  have inn : pair.fifo.inn = none := one.last
  have outside : pair.fifo.out = none := represents_out one
  have nothing : pair.other.out = none := represents_out two
  have starts : (setOut pair.fifo).inn = none := by
    simp only [setOut, outside, Option.isNone_none, if_true]
    exact inn
  rw [transferFrom, if_pos accepts]
  simp only [nothing, Option.bind_eq_bind, Option.bind_some, followIn, starts, Option.bind_none]

def twoEach (enabled : Bool) : Pair Nat where
  fifo := ⟨enabled, some 0, some 2, 2, 0⟩
  other := ⟨true, some 1, some 3, 2, 0⟩
  links := ⟨[some ⟨7, some 2⟩, some ⟨8, some 3⟩, some ⟨9, none⟩, some ⟨6, none⟩]⟩

theorem two_each_stands (enabled : Bool) :
    Stands (twoEach enabled) ⟨⟨enabled, [7, 9]⟩, ⟨true, [8, 6]⟩⟩ [0, 2] [1, 3] where
  one := ⟨⟨⟨⟨rfl, some 2, rfl, rfl, none, rfl, rfl⟩, rfl⟩, rfl, rfl⟩, rfl⟩
  two := ⟨⟨⟨⟨rfl, some 3, rfl, rfl, none, rfl, rfl⟩, rfl⟩, rfl, rfl⟩, rfl⟩
  apart := by simp

def newPair : Pair Nat := ⟨Fifo.new, Fifo.new, Store.empty⟩

end TWlib.PlainFifo
