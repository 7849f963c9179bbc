import TWlib.Lib.ValueChain
import TWlib.LListSurgery

/-!
# The doubly linked list as a finite sequence

A `Sequence` has the values in order and, for each iterator, the position it stands at. Every
operation of the list is one of the sequence: `perform_refines` says so for one call, and a run of
calls gives the answers that the sequence gives. While an iterator stands on a link, links are only
removed through it.
-/

namespace TWlib.LListLinks

open TWlib.Lib.CellStore TWlib.Lib.LinkedChain TWlib.Lib.DoublyLinked TWlib.Lib.ValueChain

set_option autoImplicit false

variable {Item : Type*}

/-! ## The sequence -/

structure Sequence (Item : Type*) where
  enabled : Bool
  items : List Item
  cursors : Nat → Option Nat

inductive Answer (Item : Type*) where
  | nothing
  | made (ret : Bool)
  | found (fill : Option Item)
  | flag (ret : Bool)
deriving DecidableEq

def position (length i : Nat) : Option Nat := if i < length then some i else none

def before : Nat → Option Nat
  | 0 => none
  | i + 1 => some i

namespace Sequence

def new : Sequence Item := ⟨true, [], fun _ => none⟩

def setCursor (seq : Sequence Item) (i : Nat) (cursor : Option Nat) : Sequence Item :=
  { seq with cursors := Function.update seq.cursors i cursor }

def pushBack (seq : Sequence Item) (item : Item) : Sequence Item :=
  if seq.enabled then { seq with items := seq.items ++ [item] } else seq

def pushFront (seq : Sequence Item) (item : Item) : Sequence Item :=
  if seq.enabled then
    { seq with items := item :: seq.items, cursors := fun i => (seq.cursors i).map (· + 1) }
  else seq

/-- The value at a cursor, and the cursor elsewhere. -/
def move (seq : Sequence Item) (i : Nat) (onward : Nat → Option Nat) :
    Sequence Item × Answer Item :=
  match seq.cursors i with
  | none => (seq, .found none)
  | some place => (seq.setCursor i (onward place), .found seq.items[place]?)

/-- The value at a cursor is removed, and the cursor is elsewhere. -/
def remove (seq : Sequence Item) (i : Nat) (onward : Nat → Option Nat) :
    Sequence Item × Answer Item :=
  match seq.cursors i with
  | none => (seq, .found none)
  | some place =>
      (({ seq with items := seq.items.eraseIdx place } : Sequence Item).setCursor i (onward place),
        .found seq.items[place]?)

def set (seq : Sequence Item) (i : Nat) (fill : Item) : Sequence Item × Answer Item :=
  match seq.cursors i with
  | none => (seq, .flag false)
  | some place => ({ seq with items := seq.items.set place fill }, .flag true)

theorem move_ended {seq : Sequence Item} {i : Nat} (ended : seq.cursors i = none)
    (onward : Nat → Option Nat) :
    seq.move i onward = (seq, .found none) := by
  simp only [move, ended]

theorem move_on {seq : Sequence Item} {i place : Nat} (on : seq.cursors i = some place)
    (onward : Nat → Option Nat) :
    seq.move i onward = (seq.setCursor i (onward place), .found seq.items[place]?) := by
  simp only [move, on]

theorem remove_ended {seq : Sequence Item} {i : Nat} (ended : seq.cursors i = none)
    (onward : Nat → Option Nat) :
    seq.remove i onward = (seq, .found none) := by
  simp only [remove, ended]

theorem remove_on {seq : Sequence Item} {i place : Nat} (on : seq.cursors i = some place)
    (onward : Nat → Option Nat) :
    seq.remove i onward =
      (({ seq with items := seq.items.eraseIdx place } : Sequence Item).setCursor i (onward place),
        .found seq.items[place]?) := by
  simp only [remove, on]

def apply (blank : Item) (seq : Sequence Item) : Call Item → Sequence Item × Answer Item
  | .addToTail theD => (seq.pushBack theD, .nothing)
  | .addToHead theD => (seq.pushFront theD, .nothing)
  | .addEmptyTail => (seq.pushBack blank, .made seq.enabled)
  | .removeHead => ({ seq with items := seq.items.tail }, .found seq.items.head?)
  | .removeTail => ({ seq with items := seq.items.dropLast }, .found seq.items.getLast?)
  | .peekHead => (seq, .found seq.items.head?)
  | .peekTail => (seq, .found seq.items.getLast?)
  | .clearAll => ({ seq with items := [] }, .nothing)
  | .enable => ({ seq with enabled := true }, .nothing)
  | .disable => ({ seq with enabled := false }, .nothing)
  | .newIter i | .releaseIter i => (seq.setCursor i none, .nothing)
  | .startIterHead i => (seq.setCursor i (position seq.items.length 0), .nothing)
  | .startIterTail i => (seq.setCursor i (before seq.items.length), .nothing)
  | .getNext i => seq.move i fun place => position seq.items.length (place + 1)
  | .getPrev i => seq.move i before
  | .getCurrent i => (seq, .found ((seq.cursors i).bind fun place => seq.items[place]?))
  | .setCurrent i fill | .setCurrentVal i fill => seq.set i fill
  | .removeNext i => seq.remove i fun place => position (seq.items.length - 1) place
  | .removePrev i => seq.remove i before
  | .atEnd i => (seq, .flag (seq.cursors i).isNone)

/-- The sequence after a run of calls, and the answers to them. -/
def replay (blank : Item) : Sequence Item → List (Call Item) → Sequence Item × List (Answer Item)
  | seq, [] => (seq, [])
  | seq, call :: calls =>
      let (next, answer) := seq.apply blank call
      let (last, answers) := replay blank next calls
      (last, answer :: answers)

theorem replay_append (blank : Item) (seq : Sequence Item) (calls : List (Call Item))
    (call : Call Item) :
    seq.replay blank (calls ++ [call]) =
      (((seq.replay blank calls).1.apply blank call).1,
        (seq.replay blank calls).2 ++ [((seq.replay blank calls).1.apply blank call).2]) := by
  induction calls generalizing seq with
  | nil => rfl
  | cons first calls ih => simp only [List.cons_append, replay, ih]

end Sequence

/-! ## Runs -/

def Result.answer : Result Item → Answer Item
  | .nothing => .nothing
  | .link ret => .made ret.isSome
  | .found fill => .found fill
  | .flag ret => .flag ret

/-- While an iteration is in progress, links are removed only through that iterator. -/
def Undisturbed (world : World Item) : Call Item → Prop
  | .removeHead | .removeTail | .clearAll => ∀ j, (world.iters j).look = none
  | .removeNext i | .removePrev i => ∀ j, j ≠ i → (world.iters j).look = none
  | _ => True

/-- A call that was performed, with the worlds before and after it. -/
structure Performed (Item : Type*) where
  before : World Item
  call : Call Item
  result : Result Item
  after : World Item

inductive Run (blank : Item) : List (Performed Item) → World Item → Prop where
  | start : Run blank [] World.new
  | step {history : List (Performed Item)} {call : Call Item} {result : Result Item}
      {world next : World Item}
      (run : Run blank history world) (performed : perform blank world call = some (next, result))
      (undisturbed : Undisturbed world call) :
      Run blank (history ++ [⟨world, call, result, next⟩]) next

/-! ## Iterators -/

/-- The iterator is at its end, or on the link at the position of the cursor. -/
inductive Stands (cells : List Nat) : Iter → Option Nat → Prop where
  | ended {owner : Bool} : Stands cells ⟨none, owner⟩ none
  | on {place link : Nat} (here : cells[place]? = some link) :
      Stands cells ⟨some link, true⟩ (some place)

variable {cells front back : List Nat} {iter : Iter} {cursor : Option Nat} {link : Nat}

theorem stands_ended (stands : Stands cells iter cursor) (ended : iter.look = none)
    (others : List Nat) :
    Stands others iter cursor := by
  cases stands with
  | ended => exact .ended
  | on here => cases ended

theorem stands_push_back (stands : Stands cells iter cursor) (newlink : Nat) :
    Stands (cells ++ [newlink]) iter cursor := by
  cases stands with
  | ended => exact .ended
  | on here =>
      exact .on (by rw [List.getElem?_append_left (List.getElem?_eq_some_iff.mp here).1, here])

theorem stands_push_front (stands : Stands cells iter cursor) (newlink : Nat) :
    Stands (newlink :: cells) iter (cursor.map (· + 1)) := by
  cases stands with
  | ended => exact .ended
  | on here => exact .on (by rw [List.getElem?_cons_succ, here])

theorem stands_head (front back : List Nat) :
    Stands (front ++ back) ⟨back.head?, true⟩ (position (front ++ back).length front.length) := by
  cases back with
  | nil =>
      have ended : position (front ++ []).length front.length = none := by simp [position]
      rw [ended]
      exact .ended
  | cons link back =>
      have here : position (front ++ link :: back).length front.length =
        some front.length := by simp [position]
      rw [here]
      exact .on (by simp)

theorem stands_last (front back : List Nat) :
    Stands (front ++ back) ⟨front.getLast?, true⟩ (before front.length) := by
  cases last : front.getLast? with
  | none =>
      rw [List.getLast?_eq_none_iff.mp last]
      exact .ended
  | some link =>
      rcases List.getLast?_eq_some_iff.mp last with ⟨others, rfl⟩
      have here : before (others ++ [link]).length = some others.length := by simp [before]
      rw [here]
      exact .on (by simp)

theorem stands_cases (stands : Stands cells iter cursor) :
    (iter.look = none ∧ cursor = none) ∨
      ∃ front link back, cells = front ++ link :: back ∧ iter = ⟨some link, true⟩ ∧
      cursor = some front.length := by
  cases stands with
  | ended => exact .inl ⟨rfl, rfl⟩
  | on here =>
      rename_i place link
      rcases List.getElem?_eq_some_iff.mp here with ⟨bound, same⟩
      refine .inr ⟨cells.take place, link, cells.drop (place + 1), ?_, rfl, ?_⟩
      · rw [← same, List.getElem_cons_drop, List.take_append_drop]
      · rw [List.length_take, Nat.min_eq_left (Nat.le_of_lt bound)]

/-! ## One call -/

structure Refines (world : World Item) (seq : Sequence Item) (cells : List Nat) : Prop where
  represents : Represents world.list world.links cells seq.items
  enabled : world.list.enabled = seq.enabled
  stands : ∀ i, Stands cells (world.iters i) (seq.cursors i)

variable {blank : Item} {world next : World Item} {seq : Sequence Item}

/-- The call is defined, and does and answers what the sequence does. -/
def Agrees (blank : Item) (world : World Item) (seq : Sequence Item) (call : Call Item) : Prop :=
  ∃ next result cells, perform blank world call = some (next, result) ∧
    Refines next (seq.apply blank call).1 cells ∧ result.answer = (seq.apply blank call).2

theorem refines_new : Refines (World.new : World Item) Sequence.new [] :=
  ⟨represents_new, rfl, fun _ => .ended⟩

theorem refines_set (refines : Refines world seq cells) (i : Nat)
    (stands : Stands cells iter cursor) :
    Refines (world.setIter i iter) (seq.setCursor i cursor) cells := by
  refine ⟨refines.represents, refines.enabled, ?_⟩
  intro j
  by_cases same : j = i
  · subst same
    simpa [World.setIter, Sequence.setCursor] using stands
  · simpa [World.setIter, Sequence.setCursor, same] using refines.stands j

theorem refines_same (refines : Refines world seq cells) (i : Nat) :
    Refines (world.setIter i (world.iters i)) seq cells := by
  have same : world.setIter i (world.iters i) = world := by simp [World.setIter]
  rw [same]
  exact refines

/-! ### Adding -/

theorem add_to_tail_agrees (refines : Refines world seq cells) (theD : Item) :
    ∃ list links cells, world.list.addToTail world.links theD = some (list, links) ∧
      Refines { world with list, links } (seq.pushBack theD) cells := by
  cases accepts : world.list.enabled with
  | false =>
      refine ⟨world.list, world.links, cells, by simp [LList.addToTail, accepts], ?_⟩
      simpa [Sequence.pushBack, ← refines.enabled, accepts] using refines
  | true =>
      rcases represents_push refines.represents (⟨theD, none, none⟩ : Link Item) with ⟨pushed,
        outside⟩
      have made : (world.links.push ⟨theD, none, none⟩).read world.links.fresh = some ⟨theD,
          none, none⟩ := by
        simp [read_push]
      rcases append_eq pushed made outside with ⟨after, appended, represents⟩
      refine ⟨world.list.appended cells world.links.fresh, after,
        cells ++ [world.links.fresh], ?_, ?_⟩
      · simp only [LList.addToTail, accepts, if_true, appended]
      · simp only [Sequence.pushBack, ← refines.enabled, accepts, if_true]
        exact ⟨represents, accepts, fun i => stands_push_back (refines.stands i) _⟩

theorem add_empty_tail_agrees (refines : Refines world seq cells) (blank : Item) :
    ∃ list links ret cells, world.list.addEmptyTail blank world.links = some (list, links, ret) ∧
      ret.isSome = seq.enabled ∧ Refines { world with list, links } (seq.pushBack blank) cells := by
  rcases add_to_tail_agrees refines blank with ⟨list, links, now, added, refined⟩
  cases accepts : world.list.enabled with
  | false =>
      refine ⟨world.list, world.links, none, cells, by simp [LList.addEmptyTail, accepts], ?_, ?_⟩
      · rw [← refines.enabled, accepts]
        rfl
      · simpa [Sequence.pushBack, ← refines.enabled, accepts] using refines
  | true =>
      simp only [LList.addToTail, accepts, if_true] at added
      refine ⟨list, links, some world.links.fresh, now, ?_, ?_, refined⟩
      · simp only [LList.addEmptyTail, accepts, if_true, added, Option.bind_eq_bind,
          Option.bind_some]
      · rw [← refines.enabled, accepts]
        rfl

theorem add_to_head_agrees (refines : Refines world seq cells) (theD : Item) :
    ∃ list links cells, world.list.addToHead world.links theD = some (list, links) ∧
      Refines { world with list, links } (seq.pushFront theD) cells := by
  cases accepts : world.list.enabled with
  | false =>
      refine ⟨world.list, world.links, cells, by simp [LList.addToHead, accepts], ?_⟩
      simpa [Sequence.pushFront, ← refines.enabled, accepts] using refines
  | true =>
      rcases add_to_head_eq refines.represents theD accepts with ⟨grown, after, added,
        enabled, represents⟩
      refine ⟨grown, after, world.links.fresh :: cells, added, ?_⟩
      simp only [Sequence.pushFront, ← refines.enabled, accepts, if_true]
      exact ⟨represents, enabled.trans accepts, fun i => stands_push_front (refines.stands i) _⟩

/-! ### Removing -/

theorem performs {Given : Type*} {ran : Option Given} {given : Given} (same : ran = some given)
    (leads : Given → World Item × Result Item) : ran.map leads = some (leads given) := by
  rw [same, Option.map_some]

theorem agrees_of {call : Call Item} {after : Sequence Item} {answer : Answer Item}
    (result : Result Item) (performed : perform blank world call = some (next, result))
    (answers : seq.apply blank call = (after, answer)) (refines : Refines next after cells)
    (same : result.answer = answer) : Agrees blank world seq call := by
  refine ⟨next, result, cells, performed, ?_, ?_⟩
  · rw [answers]
    exact refines
  · rw [answers]
    exact same

theorem refines_idle {list : LList} {links : Links Item} {others : List Nat} {items : List Item}
    (refines : Refines world seq cells) (represents : Represents list links others items)
    (enabled : list.enabled = world.list.enabled) (idle : ∀ j, (world.iters j).look = none) :
    Refines { world with list, links } { seq with items } others :=
  ⟨represents, enabled.trans refines.enabled,
    fun i => stands_ended (refines.stands i) (idle i) others⟩

theorem remove_head_agrees (refines : Refines world seq cells)
    (idle : ∀ j, (world.iters j).look = none) :
    Agrees blank world seq .removeHead := by
  cases cells with
  | nil =>
      have nothing : seq.items = [] := represents_no_items refines.represents
      have removed := remove_head_empty refines.represents
      have same : Refines world { seq with items := seq.items.tail } [] := by
        have still : seq.items.tail = seq.items := by rw [nothing, List.tail_nil]
        rw [still]
        exact refines
      have performed : perform blank world .removeHead = some (world, .found none) :=
        performs removed _
      apply agrees_of (.found none) performed rfl same
      rw [nothing]
      rfl
  | cons link back =>
      rcases remove_head_eq refines.represents with ⟨after, removed, represents⟩
      rw [List.eraseIdx_zero] at represents
      rw [← List.head?_eq_getElem?] at removed
      exact agrees_of (.found seq.items.head?) (performs removed _) rfl
        (refines_idle refines represents rfl idle) rfl

theorem remove_tail_agrees (refines : Refines world seq cells)
    (idle : ∀ j, (world.iters j).look = none) :
    Agrees blank world seq .removeTail := by
  have length := represents_length refines.represents
  cases last : cells.getLast? with
  | none =>
      have empty : cells = [] := List.getLast?_eq_none_iff.mp last
      subst empty
      have nothing : seq.items = [] := List.length_eq_zero_iff.mp length.symm
      have removed := remove_tail_empty refines.represents
      have same : Refines world { seq with items := seq.items.dropLast } [] := by
        have still : seq.items.dropLast = seq.items := by rw [nothing, List.dropLast_nil]
        rw [still]
        exact refines
      have performed : perform blank world .removeTail = some (world, .found none) :=
        performs removed _
      apply agrees_of (.found none) performed rfl same
      rw [nothing]
      rfl
  | some link =>
      rcases List.getLast?_eq_some_iff.mp last with ⟨front, rfl⟩
      rcases remove_tail_eq refines.represents with ⟨after, removed, represents⟩
      have place : front.length = seq.items.length - 1 := by
        rw [← length]
        simp
      rw [place, List.eraseIdx_length_sub_one] at represents
      rw [place, ← List.getLast?_eq_getElem?] at removed
      exact agrees_of (.found seq.items.getLast?) (performs removed _) rfl
        (refines_idle refines represents rfl idle) rfl

/-! ### Iterators -/

theorem ended_agrees (refines : Refines world seq cells) (i : Nat) {call : Call Item}
    (performed : perform blank world call = some (world.setIter i (world.iters i), .found none))
    (answers : seq.apply blank call = (seq, .found none)) : Agrees blank world seq call :=
  agrees_of (.found none) performed answers (refines_same refines i) rfl

theorem get_next_agrees (refines : Refines world seq cells) (i : Nat) :
    Agrees blank world seq (.getNext i) := by
  rcases stands_cases (refines.stands i) with ⟨ended, cursor⟩ | ⟨front, link, back, rfl, on, cursor⟩
  · have got : (world.iters i).getNext world.links = some (world.iters i, none) := by
      simp only [Iter.getNext, ended]
    exact ended_agrees refines i (performs got _) (Sequence.move_ended cursor _)
  · rcases represents_link refines.represents with ⟨content, present, links, -, value, -⟩
    have got : (world.iters i).getNext world.links = some (⟨back.head?, true⟩, some content.d) := by
      simp only [Iter.getNext, on, present, links, Option.map_some]
    have moved : Stands (front ++ link :: back) ⟨back.head?,
        true⟩ (position seq.items.length (front.length + 1)) := by
      rw [← represents_length refines.represents]
      simpa using stands_head (front ++ [link]) back
    exact agrees_of (.found (some content.d)) (performs got _) (Sequence.move_on cursor _)
      (refines_set refines i moved) (congrArg Answer.found value.symm)

theorem get_prev_agrees (refines : Refines world seq cells) (i : Nat) :
    Agrees blank world seq (.getPrev i) := by
  rcases stands_cases (refines.stands i) with ⟨ended, cursor⟩ | ⟨front, link, back, rfl, on, cursor⟩
  · have got : (world.iters i).getPrev world.links = some (world.iters i, none) := by
      simp only [Iter.getPrev, ended]
    exact ended_agrees refines i (performs got _) (Sequence.move_ended cursor _)
  · rcases represents_link refines.represents with ⟨content, present, -, links, value, -⟩
    have got : (world.iters i).getPrev world.links = some (⟨front.getLast?, true⟩,
        some content.d) := by
      simp only [Iter.getPrev, on, present, links, Option.map_some]
    exact agrees_of (.found (some content.d)) (performs got _) (Sequence.move_on cursor _)
      (refines_set refines i (stands_last front (link :: back))) (congrArg Answer.found value.symm)

theorem get_current_agrees (refines : Refines world seq cells) (i : Nat) :
    Agrees blank world seq (.getCurrent i) := by
  rcases stands_cases (refines.stands i) with ⟨ended, cursor⟩ | ⟨front, link, back, rfl, on, cursor⟩
  · have got : (world.iters i).getCurrent world.links =
      some none := by simp only [Iter.getCurrent, ended]
    have answer : (seq.cursors i).bind (fun place => seq.items[place]?) =
      none := by rw [cursor, Option.bind_none]
    exact agrees_of (.found none) (performs got _) rfl refines (congrArg Answer.found answer.symm)
  · rcases represents_link refines.represents with ⟨content, present, -, -, value, -⟩
    have got : (world.iters i).getCurrent world.links = some (some content.d) := by
      simp only [Iter.getCurrent, on, present, Option.map_some]
    have answer : (seq.cursors i).bind (fun place => seq.items[place]?) = some content.d := by
      rw [cursor, Option.bind_some, value]
    exact agrees_of (.found (some content.d)) (performs got _) rfl refines
      (congrArg Answer.found answer.symm)

theorem set_current_agrees (refines : Refines world seq cells) (i : Nat) (fill : Item) :
    Agrees blank world seq (.setCurrent i fill) := by
  rcases stands_cases (refines.stands i) with ⟨ended, cursor⟩ | ⟨front, link, back, rfl, on, cursor⟩
  · have got : (world.iters i).setCurrent world.links fill = some (world.links, false) := by
      simp only [Iter.setCurrent, ended]
    have answers : seq.set i fill = (seq, .flag false) := by simp only [Sequence.set, cursor]
    exact agrees_of (.flag false) (performs got _) answers refines rfl
  · rcases represents_set refines.represents fill with ⟨content, present, represents⟩
    have got : (world.iters i).setCurrent world.links fill =
        some (world.links.write link { content with d := fill }, true) := by
      simp only [Iter.setCurrent, on, present, Option.map_some]
    have answers : seq.set i fill = ({ seq with items := seq.items.set front.length fill },
        .flag true) := by
      simp only [Sequence.set, cursor]
    exact agrees_of (.flag true) (performs got _) answers ⟨represents, refines.enabled,
      refines.stands⟩ rfl

theorem refines_removed {list : LList} {links : Links Item} {others : List Nat}
    {items : List Item} {i : Nat} (refines : Refines world seq cells)
    (represents : Represents list links others items) (enabled : list.enabled = world.list.enabled)
    (idle : ∀ j, j ≠ i → (world.iters j).look = none) (stands : Stands others iter cursor) :
    Refines (({ world with list, links } : World Item).setIter i iter)
      (({ seq with items } : Sequence Item).setCursor i cursor) others := by
  refine ⟨represents, enabled.trans refines.enabled, ?_⟩
  intro j
  by_cases same : j = i
  · subst same
    simpa [World.setIter, Sequence.setCursor] using stands
  · simpa [World.setIter, Sequence.setCursor, same] using stands_ended (refines.stands j)
      (idle j same) others

theorem remove_next_agrees (refines : Refines world seq cells) (i : Nat)
    (idle : ∀ j, j ≠ i → (world.iters j).look = none) : Agrees blank world seq (.removeNext i) := by
  rcases stands_cases (refines.stands i) with ⟨ended, cursor⟩ | ⟨front, link, back, rfl, on, cursor⟩
  · have got : (world.iters i).removeNext world.list world.links =
        some (world.iters i, world.list, world.links, none) := by simp only [Iter.removeNext, ended]
    exact ended_agrees refines i (performs got _) (Sequence.remove_ended cursor _)
  · rcases represents_link refines.represents with ⟨content, present, links, -, value, -⟩
    rcases remove_link_eq refines.represents with ⟨after, removed, represents⟩
    have got : (world.iters i).removeNext world.list world.links =
        some (⟨back.head?, true⟩, world.list.without (front ++ back), after, some content.d) := by
      simp only [Iter.removeNext, Iter.removeLink, on, present, links, removed, if_true,
        Option.bind_eq_bind,
        Option.bind_some]
    have moved : Stands (front ++ back) ⟨back.head?,
        true⟩ (position (seq.items.length - 1) front.length) := by
      have length : (front ++ back).length = seq.items.length - 1 := by
        rw [← represents_length refines.represents]
        simp
      rw [← length]
      exact stands_head front back
    exact agrees_of (.found (some content.d)) (performs got _) (Sequence.remove_on cursor _)
      (refines_removed refines represents rfl idle moved) (congrArg Answer.found value.symm)

theorem remove_prev_agrees (refines : Refines world seq cells) (i : Nat)
    (idle : ∀ j, j ≠ i → (world.iters j).look = none) : Agrees blank world seq (.removePrev i) := by
  rcases stands_cases (refines.stands i) with ⟨ended, cursor⟩ | ⟨front, link, back, rfl, on, cursor⟩
  · have got : (world.iters i).removePrev world.list world.links =
        some (world.iters i, world.list, world.links, none) := by simp only [Iter.removePrev, ended]
    exact ended_agrees refines i (performs got _) (Sequence.remove_ended cursor _)
  · rcases represents_link refines.represents with ⟨content, present, -, links, value, -⟩
    rcases remove_link_eq refines.represents with ⟨after, removed, represents⟩
    have got : (world.iters i).removePrev world.list world.links =
        some (⟨front.getLast?, true⟩, world.list.without (front ++ back), after,
          some content.d) := by
      simp only [Iter.removePrev, Iter.removeLink, on, present, links, removed, if_true,
        Option.bind_eq_bind,
        Option.bind_some]
    exact agrees_of (.found (some content.d)) (performs got _) (Sequence.remove_on cursor _)
      (refines_removed refines represents rfl idle (stands_last front back))
      (congrArg Answer.found value.symm)

theorem perform_refines (blank : Item) (refines : Refines world seq cells) (call : Call Item)
    (undisturbed : Undisturbed world call) : Agrees blank world seq call := by
  have represents := refines.represents
  have head := linked_head represents.linked
  have tail := linked_tail represents.linked
  have length := represents_length represents
  cases call with
  | addToTail theD =>
      rcases add_to_tail_agrees refines theD with ⟨list, links, now, added, refined⟩
      exact agrees_of .nothing (performs added _) rfl refined rfl
  | addToHead theD =>
      rcases add_to_head_agrees refines theD with ⟨list, links, now, added, refined⟩
      exact agrees_of .nothing (performs added _) rfl refined rfl
  | addEmptyTail =>
      rcases add_empty_tail_agrees refines blank with ⟨list, links, ret, now, added, made, refined⟩
      exact agrees_of (.link ret) (performs added _) rfl refined
        (congrArg Answer.made made)
  | removeHead => exact remove_head_agrees refines undisturbed
  | removeTail => exact remove_tail_agrees refines undisturbed
  | peekHead =>
      exact agrees_of (.found seq.items.head?) (performs (peek_head_eq represents) _) rfl
        refines rfl
  | peekTail =>
      exact agrees_of (.found seq.items.getLast?) (performs (peek_tail_eq represents) _) rfl
        refines rfl
  | clearAll =>
      rcases clear_all_eq represents with ⟨after, cleared, empty, -⟩
      exact agrees_of .nothing (performs cleared _) rfl
        (refines_idle refines empty rfl undisturbed) rfl
  | enable =>
      exact agrees_of .nothing rfl rfl
        ⟨⟨represents.linked, represents.values, represents.counted⟩, rfl, refines.stands⟩ rfl
  | disable =>
      exact agrees_of .nothing rfl rfl
        ⟨⟨represents.linked, represents.values, represents.counted⟩, rfl, refines.stands⟩ rfl
  | newIter i => exact agrees_of .nothing rfl rfl (refines_set refines i .ended) rfl
  | releaseIter i => exact agrees_of .nothing rfl rfl (refines_set refines i .ended) rfl
  | startIterHead i =>
      have started : Stands cells (.startIterHead world.list) (position seq.items.length 0) := by
        rw [Iter.startIterHead, head, ← length]
        exact stands_head [] cells
      exact agrees_of .nothing rfl rfl (refines_set refines i started) rfl
  | startIterTail i =>
      have started : Stands cells (.startIterTail world.list) (before seq.items.length) := by
        have last := stands_last cells []
        rw [List.append_nil] at last
        rw [Iter.startIterTail, tail, ← length]
        exact last
      exact agrees_of .nothing rfl rfl (refines_set refines i started) rfl
  | getNext i => exact get_next_agrees refines i
  | getPrev i => exact get_prev_agrees refines i
  | getCurrent i => exact get_current_agrees refines i
  | setCurrent i fill => exact set_current_agrees refines i fill
  | setCurrentVal i fill =>
      have agrees : Agrees blank world seq (.setCurrent i fill) := set_current_agrees refines i fill
      exact agrees
  | removeNext i => exact remove_next_agrees refines i undisturbed
  | removePrev i => exact remove_prev_agrees refines i undisturbed
  | atEnd i =>
      apply agrees_of (.flag (world.iters i).atEnd) rfl rfl refines
      rcases stands_cases (refines.stands i) with ⟨ended, cursor⟩ | ⟨front, link, back,
        -, on, cursor⟩
      · simp only [Result.answer, Iter.atEnd, ended, cursor]
      · simp only [Result.answer, Iter.atEnd, on, cursor, Option.isNone_some]

/-! ## Every run -/

theorem run_refines {history : List (Performed Item)} (run : Run blank history world) :
    ∃ cells, Refines world (Sequence.new.replay blank (history.map Performed.call)).1 cells ∧
      history.map (fun taken => taken.result.answer) =
      (Sequence.new.replay blank (history.map Performed.call)).2 := by
  induction run with
  | start => exact ⟨[], refines_new, rfl⟩
  | step run performed undisturbed ih =>
      rename_i history call result world next
      rcases ih with ⟨cells, refines, answers⟩
      rcases perform_refines blank refines call undisturbed with ⟨other, known, now, same,
        refined, answer⟩
      cases Option.some.inj (performed.symm.trans same)
      rw [List.map_append, List.map_cons, List.map_nil, Sequence.replay_append]
      refine ⟨now, refined, ?_⟩
      rw [List.map_append, answers, List.map_cons, List.map_nil, answer]

end TWlib.LListLinks
