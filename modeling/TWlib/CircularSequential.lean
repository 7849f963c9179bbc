import TWlib.CircularBuffer

/-!
# One thread on a circular queue

`specPerform` says what the operations mean for a bounded sequence that can be
reversed. A run of the queue gives the answers of the same run of the sequence;
that it gives any says that every index into the array lay inside it.
-/

namespace TWlib.CircularSequential

open TWlib.Lib.RingSlots TWlib.CircularBuffer

set_option autoImplicit false

variable {Item State : Type*}

inductive Op (Item : Type*) where
  | add (value : Item)
  | addIfRoom (value : Item)
  | addMv (value : Item)
  | addMvIfRoom (value : Item)
  | remove
  | removeMv
  | removeOrBlock
  | removeMvOrBlock
  | reverse
  | clear
  | remaining

inductive Answer (Item : Type*) where
  | call (outcome : Outcome Item)
  | count (ret : Int)
  | done
deriving DecidableEq

/-- A thread that waits does not come back, since there is no other one. -/
def Answer.stuck : Answer Item → Bool
  | .call (.waits _) => true
  | _ => false

def ofRegion (region : Option (Region Item)) : Option (Circular Item × Answer Item) :=
  region.map fun region => (region.queue, .call region.outcome)

def perform (husk : Item → Item) (blank : Item) (queue : Circular Item) :
    Op Item → Option (Circular Item × Answer Item)
  | .add value => ofRegion (queue.add value)
  | .addIfRoom value => ofRegion (queue.addIfRoom value)
  | .addMv value => ofRegion (queue.addMv husk value)
  | .addMvIfRoom value => ofRegion (queue.addMvIfRoom husk value)
  | .remove => ofRegion queue.remove
  | .removeMv => ofRegion (queue.removeMv husk)
  | .removeOrBlock => ofRegion queue.removeOrBlock
  | .removeMvOrBlock => ofRegion (queue.removeMvOrBlock husk)
  | .reverse => some (queue.reverseOrder, .done)
  | .clear => some (queue.clear blank, .done)
  | .remaining => some (queue, .count queue.remain)

def run (act : State → Op Item → Option (State × Answer Item)) :
    State → List (Op Item) → Option (State × List (Answer Item))
  | state, [] => some (state, [])
  | state, op :: ops => do
      let (state, answer) ← act state op
      if answer.stuck then some (state, [answer])
      else do
        let (state, answers) ← run act state ops
        some (state, answer :: answers)

/-! ## The meaning -/

/-- An element is appended if there is room; `full` is what happens otherwise. -/
def specAdd (left : Item → Item) (size : Int) (items : List Item) (value : Item)
    (full : Outcome Item) :
    List Item × Answer Item :=
  if items.length < size then (items ++ [value], .call (.returns true (some (left value))))
  else (items, .call full)

/-- The first element is removed; `empty` is what happens when there is none. -/
def specRemove (items : List Item) (empty : Outcome Item) : List Item × Answer Item :=
  match items with
  | [] => ([], .call empty)
  | item :: rest => (rest, .call (.returns true (some item)))

def specPerform (husk : Item → Item) (size : Int) (items : List Item) :
    Op Item → List Item × Answer Item
  | .add value => specAdd id size items value (.waits .gtZeroCond)
  | .addIfRoom value => specAdd id size items value (.returns false none)
  | .addMv value => specAdd husk size items value (.waits .gtZeroCond)
  | .addMvIfRoom value => specAdd husk size items value (.returns false none)
  | .remove | .removeMv => specRemove items (.returns false none)
  | .removeOrBlock | .removeMvOrBlock => specRemove items (.waits .decrementCond)
  | .reverse => (items.reverse, .done)
  | .clear => ([], .done)
  | .remaining => (items, .count items.length)

/-! ## Refinement -/

variable {queue : Circular Item} {items : List Item}

/-- The queue answers as the sequence does and goes on representing it. -/
def Follows (size : Int) (result : Option (Circular Item × Answer Item))
    (meaning : List Item × Answer Item) :
    Prop :=
  ∃ after, result = some (after, meaning.2) ∧ Represents after meaning.1 ∧ after.size = size

theorem add_by_follows (left : Item → Item) (held : Represents queue items) (value : Item) :
    Follows queue.size (ofRegion (queue.addBy left value))
      (specAdd left queue.size items value (.waits .gtZeroCond)) := by
  rcases add_by_eq left held value with ⟨room, after, added, represents, kept⟩ | ⟨full, waits⟩
  · rw [specAdd, if_pos room, added]
    exact ⟨after, rfl, represents, kept.size⟩
  · rw [specAdd, if_neg (by omega), waits]
    exact ⟨queue, rfl, held, rfl⟩

theorem add_if_room_by_follows (left : Item → Item) (held : Represents queue items) (value : Item) :
    Follows queue.size (ofRegion (queue.addIfRoomBy left value))
      (specAdd left queue.size items value (.returns false none)) := by
  rcases add_if_room_by_eq left held value with ⟨room, after, added, represents, kept⟩
    | ⟨full, refused⟩
  · rw [specAdd, if_pos room, added]
    exact ⟨after, rfl, represents, kept.size⟩
  · rw [specAdd, if_neg (by omega), refused]
    exact ⟨queue, rfl, held, rfl⟩

theorem remove_by_follows (left : Item → Item) (held : Represents queue items) :
    Follows queue.size (ofRegion (queue.removeBy left))
    (specRemove items (.returns false none)) := by
  cases items with
  | nil =>
      rw [remove_by_empty left held]
      exact ⟨queue, rfl, held, rfl⟩
  | cons item rest =>
      rcases remove_by_filled left held with ⟨after, removed, represents, kept⟩
      rw [removed]
      exact ⟨after, rfl, represents, kept.size⟩

theorem remove_or_block_by_follows (left : Item → Item) (held : Represents queue items) :
    Follows queue.size (ofRegion (queue.removeOrBlockBy left))
    (specRemove items (.waits .decrementCond)) := by
  cases items with
  | nil =>
      rw [remove_or_block_by_empty left held]
      exact ⟨queue, rfl, held, rfl⟩
  | cons item rest =>
      rcases remove_or_block_by_filled left held with ⟨after, removed, represents, kept⟩
      rw [removed]
      exact ⟨after, rfl, represents, kept.size⟩

theorem perform_follows (husk : Item → Item) (blank : Item) (op : Op Item)
    (held : Represents queue items) :
    Follows queue.size (perform husk blank queue op) (specPerform husk queue.size items op) := by
  cases op with
  | add value => exact add_by_follows id held value
  | addIfRoom value => exact add_if_room_by_follows id held value
  | addMv value => exact add_by_follows husk held value
  | addMvIfRoom value => exact add_if_room_by_follows husk held value
  | remove => exact remove_by_follows id held
  | removeMv => exact remove_by_follows husk held
  | removeOrBlock => exact remove_or_block_by_follows id held
  | removeMvOrBlock => exact remove_or_block_by_follows husk held
  | reverse =>
      have same : queue.reverseOrder.size = queue.size := by
        unfold Circular.reverseOrder
        split_ifs <;> rfl
      exact ⟨queue.reverseOrder, rfl, represents_reverse held, same⟩
  | clear => exact ⟨queue.clear blank, rfl, represents_clear blank held, rfl⟩
  | remaining =>
      refine ⟨queue, ?_, held, rfl⟩
      simp only [perform, specPerform, remain_eq held]

theorem run_follows (husk : Item → Item) (blank : Item) (ops : List (Op Item))
    (held : Represents queue items) :
    ∃ after left answers, run (perform husk blank) queue ops = some (after, answers) ∧
      run (fun items op => some (specPerform husk queue.size items op)) items ops =
      some (left, answers) ∧
      Represents after left := by
  induction ops generalizing queue items with
  | nil => exact ⟨queue, items, [], rfl, rfl, held⟩
  | cons op ops ih =>
      rcases perform_follows husk blank op held with ⟨after, performed, represents, sameSize⟩
      simp only [run, performed, Option.bind_eq_bind, Option.bind_some]
      cases stuck : (specPerform husk queue.size items op).2.stuck with
      | true => exact ⟨after, _, _, rfl, rfl, represents⟩
      | false =>
          rcases ih represents with ⟨final, left, answers, ran, meant, finalHeld⟩
          rw [sameSize] at meant
          refine ⟨final, left, (specPerform husk queue.size items op).2 :: answers, ?_,
            ?_, finalHeld⟩
          · simp [ran]
          · simp [meant]

example : (run (perform id 0) (Circular.new 2 true [0, 0]) [.add 7, .add 8, .reverse, .addIfRoom 9,
    .remove, .remaining]).map Prod.snd = some [.call (.returns true (some 7)),
      .call (.returns true (some 8)),
      .done, .call (.returns false none), .call (.returns true (some 8)), .count 1] := by decide

end TWlib.CircularSequential
