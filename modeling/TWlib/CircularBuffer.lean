import TWlib.Lib.RingSlots
import TWlib.Lib.Monitor

/-!
# The circular queue `tw_safeCircular` over its semaphore

Every operation is modelled as the regions it executes under the mutex of the
semaphore. A region ends with a return or by waiting on one of the two condition
variables; `wake` is what it signals on the way. `left` is what an assignment
leaves in its source: the value itself for a copy, `husk` of it for a move.
-/

namespace TWlib.CircularBuffer

open TWlib.Lib.RingSlots

set_option autoImplicit false

/-! ## The code -/

/-- `TW_SemaTwoWay`: the fields that are not the mutex and the condition variables. -/
structure SemaTwoWay where
  cnt : Int
  size : Int
deriving DecidableEq

inductive Cond where
  | gtZeroCond
  | decrementCond
deriving DecidableEq

abbrev Wake := Lib.Monitor.Wake Cond

namespace SemaTwoWay

def countNoBlock (sema : SemaTwoWay) : Int := sema.cnt

def resetNoLock (sema : SemaTwoWay) : SemaTwoWay := { sema with cnt := sema.size }

/-- `acquireAndKeepLock` and `acquireAndKeepLockNoBlock` once they have the mutex; `none` when
`cnt` is not positive. -/
def acquire (sema : SemaTwoWay) : Option (SemaTwoWay × Wake) :=
  if sema.cnt ≥ 1 then some ({ sema with cnt := sema.cnt - 1 }, .signal .decrementCond) else none

def releaseWithoutLock (sema : SemaTwoWay) : SemaTwoWay × Wake :=
  let cnt := sema.cnt + 1
  ({ sema with cnt }, if cnt > 0 then .signal .gtZeroCond else .nobody)

end SemaTwoWay

variable {Item : Type*}

structure Circular (Item : Type*) where
  isObjects : Bool
  reverse : Bool
  sema : SemaTwoWay
  nextIn : Int
  nextOut : Int
  size : Int
  data : List Item
deriving DecidableEq

/-- The value returned and what the reference argument holds then; `none` when it was not set. -/
inductive Outcome (Item : Type*) where
  | returns (ret : Bool) (arg : Option Item)
  | waits (cond : Cond)
deriving DecidableEq

structure Region (Item : Type*) where
  queue : Circular Item
  wake : Wake
  outcome : Outcome Item
deriving DecidableEq

namespace Circular

/-- The constructor; `data` is the content of the new array. -/
def new (size : Int) (isObjects : Bool) (data : List Item) : Circular Item :=
  { isObjects, reverse := false, sema := ⟨size, size⟩, nextIn := -1, nextOut := 0, size, data }

def nextNextIn (queue : Circular Item) : Int :=
  if queue.reverse then
    let n := queue.nextIn - 1
    if n < 0 then queue.size - 1 else n
  else
    let n := queue.nextIn + 1
    if n ≥ queue.size then 0 else n

def nextNextOut (queue : Circular Item) : Int :=
  if queue.reverse then
    let n := queue.nextOut - 1
    if n < 0 then queue.size - 1 else n
  else
    let n := queue.nextOut + 1
    if n ≥ queue.size then 0 else n

def remain (queue : Circular Item) : Int := queue.size - queue.sema.countNoBlock

/-- `reverse()`. -/
def reverseOrder (queue : Circular Item) : Circular Item :=
  if queue.remain < 1 then queue
  else { queue with reverse := !queue.reverse, nextOut := queue.nextIn, nextIn := queue.nextOut }

/-- `nextIn = nextNextIn(); data[nextIn] = the_d;` -/
def putNext (queue : Circular Item) (value : Item) : Option (Circular Item) := do
  let nextIn := queue.nextNextIn
  let data ← setCell queue.data nextIn value
  some { queue with nextIn, data }

/-- `fill = data[nextOut];` -/
def takeOut (left : Item → Item) (queue : Circular Item) : Option (Circular Item × Item) := do
  let value ← cellAt queue.data queue.nextOut
  let data ← setCell queue.data queue.nextOut (left value)
  some ({ queue with data }, value)

/-- `nextIn = -1; nextOut = 0; _reverse = false;` -/
def restart (queue : Circular Item) : Circular Item :=
  { queue with nextIn := -1, nextOut := 0, reverse := false }

/-- `add` and `addMv`, from the mutex on, and again after every wait. -/
def addBy (left : Item → Item) (queue : Circular Item) (value : Item) : Option (Region Item) :=
  match queue.sema.acquire with
  | none => some ⟨queue, .nobody, .waits .gtZeroCond⟩
  | some (sema, wake) => do
      let queue ← { queue with sema }.putNext value
      some ⟨queue, wake, .returns true (some (left value))⟩

def add (queue : Circular Item) (value : Item) : Option (Region Item) := queue.addBy id value

def addMv (husk : Item → Item) (queue : Circular Item) (value : Item) : Option (Region Item) :=
  queue.addBy husk value

def addIfRoomBy (left : Item → Item) (queue : Circular Item) (value : Item) :
    Option (Region Item) :=
  match queue.sema.acquire with
  | none => some ⟨queue, .nobody, .returns false none⟩
  | some (sema, wake) => do
      let queue ← { queue with sema }.putNext value
      some ⟨queue, wake, .returns true (some (left value))⟩

def addIfRoom (queue : Circular Item) (value : Item) : Option (Region Item) :=
  queue.addIfRoomBy id value

def addMvIfRoom (husk : Item → Item) (queue : Circular Item) (value : Item) :
    Option (Region Item) :=
  queue.addIfRoomBy husk value

/-- The branch of all removals for `remain() > 0`. -/
def removeNow (left : Item → Item) (queue : Circular Item) : Option (Region Item) := do
  let r := queue.remain
  let (sema, wake) := queue.sema.releaseWithoutLock
  let (queue, value) ← { queue with sema }.takeOut left
  let queue := { queue with nextOut := queue.nextNextOut }
  let queue := if r = 1 then queue.restart else queue
  some ⟨queue, wake, .returns true (some value)⟩

def removeBy (left : Item → Item) (queue : Circular Item) : Option (Region Item) :=
  if queue.remain > 0 then queue.removeNow left else some ⟨queue, .nobody, .returns false none⟩

def remove (queue : Circular Item) : Option (Region Item) := queue.removeBy id

def removeMv (husk : Item → Item) (queue : Circular Item) : Option (Region Item) :=
  queue.removeBy husk

/-- What follows `waitForAcquirersKeepLock` in a blocking removal. The queue counts as not yet
shorter where it is asked whether it is empty. -/
def removeAwaited (left : Item → Item) (queue : Circular Item) : Option (Region Item) := do
  let (queue, value) ← queue.takeOut left
  let queue := if queue.remain = 0 then queue.restart else queue
  let queue := { queue with nextOut := queue.nextNextOut }
  let (sema, wake) := queue.sema.releaseWithoutLock
  some ⟨{ queue with sema }, wake, .returns true (some value)⟩

/-- `removeOrBlock` and `removeMvOrBlock`, from the mutex up to the wait. -/
def removeOrBlockBy (left : Item → Item) (queue : Circular Item) : Option (Region Item) :=
  if queue.remain > 0 then queue.removeNow left
  else if queue.sema.cnt ≥ queue.sema.size then some ⟨queue, .nobody, .waits .decrementCond⟩
  else queue.removeAwaited left

/-- `removeOrBlock` and `removeMvOrBlock` after the wait. -/
def removeWokenBy (left : Item → Item) (queue : Circular Item) : Option (Region Item) :=
  if queue.sema.cnt ≥ queue.sema.size then some ⟨queue, .nobody, .returns false none⟩
  else queue.removeAwaited left

def removeOrBlock (queue : Circular Item) : Option (Region Item) := queue.removeOrBlockBy id

def removeMvOrBlock (husk : Item → Item) (queue : Circular Item) : Option (Region Item) :=
  queue.removeOrBlockBy husk

def full (queue : Circular Item) : Bool := queue.sema.countNoBlock = 0

/-- The loop of `set`: `if(p >= _size) p = 0; p++; c++;` -/
def walkTo (queue : Circular Item) : Nat → Int → Int
  | 0, p => p
  | n + 1, p => queue.walkTo n ((if p ≥ queue.size then 0 else p) + 1)

/-- Where `set` finds the element `n`. -/
def position (queue : Circular Item) (n : Nat) : Int :=
  let p := queue.nextOut - 1
  let p := if queue.reverse then
      let p := queue.nextIn - 2
      if p < 0 then queue.size - 1 else p
    else p
  queue.walkTo n (p + 1)

/-- `set`, and what `setMv` does to the queue. -/
def set (queue : Circular Item) (n : Int) (value : Item) : Option (Circular Item × Bool) :=
  if n ≥ 0 ∧ n < queue.remain then
    (setCell queue.data (queue.position n.toNat) value).map fun data => ({ queue with data }, true)
  else some (queue, false)

/-- What `setMv` leaves in its argument comes with the result. -/
def setMv (husk : Item → Item) (queue : Circular Item) (n : Int) (value : Item) :
    Option (Circular Item × Bool × Item) :=
  (queue.set n value).map fun (after, ret) => (after, ret, if ret then husk value else value)

/-- `get`; the second result is what the reference argument is set to. -/
def get (queue : Circular Item) (n : Int) : Option (Bool × Option Item) :=
  if n ≥ 0 ∧ n < queue.remain then (cellAt queue.data (queue.position n.toNat)).map fun value =>
    (true, some value)
  else some (false, none)

/-- Whatever timed call runs into its limit returns false. -/
def timedOut (queue : Circular Item) : Region Item := ⟨queue, .nobody, .returns false none⟩

def unblockAllRemovers (queue : Circular Item) : Region Item :=
  ⟨queue, .broadcast .decrementCond, .returns true none⟩

/-- `clear`; `blank` is what the default constructor makes. -/
def clear (blank : Item) (queue : Circular Item) : Circular Item :=
  { queue.restart with
    sema := queue.sema.resetNoLock
    data := if queue.isObjects then queue.data.map fun _ => blank else queue.data }

end Circular

/-! ## What the queue stands for -/

def Circular.step (queue : Circular Item) : Int := if queue.reverse then -1 else 1

/-- The queue holds `items`, the next one to be removed first. -/
structure Represents (queue : Circular Item) (items : List Item) : Prop where
  positive : 1 ≤ queue.size
  whole : (queue.data.length : Int) = queue.size
  semaSize : queue.sema.size = queue.size
  count : queue.sema.cnt = queue.size - items.length
  laid : Laid queue.data queue.nextOut queue.step items
  outRange : 0 ≤ queue.nextOut ∧ queue.nextOut < queue.size
  inRange : -1 ≤ queue.nextIn ∧ queue.nextIn < queue.size
  /-- Only a queue that was not filled since it started has no last slot. -/
  started : queue.nextIn = -1 → queue.reverse = false ∧ items = []
  behind : (queue.nextIn + queue.step) % queue.size = slot queue.size queue.nextOut queue.step
    items.length

variable {queue : Circular Item} {items rest : List Item} {item : Item}

theorem step_unit (queue : Circular Item) : UnitStep queue.step := by
  unfold Circular.step
  split
  · exact .inr rfl
  · exact .inl rfl

theorem remain_eq (held : Represents queue items) : queue.remain = items.length := by
  simp only [Circular.remain, SemaTwoWay.countNoBlock, held.count]
  omega

theorem represents_new {size : Int} (positive : 1 ≤ size) (isObjects : Bool) (data : List Item)
    (whole : (data.length : Int) = size) : Represents (Circular.new size isObjects data) [] := by
  refine ⟨positive, whole, rfl, by simp [Circular.new], laid_nil _ _ _, ?_, ?_,
    fun _ => ⟨rfl, rfl⟩, ?_⟩
  · simp only [Circular.new]
    omega
  · simp only [Circular.new]
    omega
  · simp [Circular.new, Circular.step, slot]

theorem represents_restart (held : Represents queue []) : Represents queue.restart [] := by
  have positive := held.positive
  refine ⟨held.positive, held.whole, held.semaSize, held.count, laid_nil _ _ _, ?_, ?_,
    fun _ => ⟨rfl, rfl⟩, ?_⟩
  · simp only [Circular.restart]
    omega
  · simp only [Circular.restart]
    omega
  · simp [Circular.restart, Circular.step, slot]

/-! ## The indices -/

theorem step_mod {size index : Int} (low : 0 ≤ index) (high : index ≤ size) :
    index % size = if index = size then 0 else index := by
  split_ifs with equal
  · rw [equal, Int.emod_self]
  · exact Int.emod_eq_of_lt low (by omega)

theorem back_mod {size index : Int} (low : -1 ≤ index) (high : index < size) (positive : 1 ≤ size) :
    index % size = if index < 0 then size - 1 else index := by
  split_ifs with below
  · have place : index = -1 := by omega
    rw [place, ← Int.add_emod_right, Int.emod_eq_of_lt (by omega) (by omega)]
    omega
  · exact Int.emod_eq_of_lt (by omega) high

theorem next_next_in_bounds (positive : 1 ≤ queue.size)
    (bounds : -1 ≤ queue.nextIn ∧ queue.nextIn < queue.size) :
    0 ≤ queue.nextNextIn ∧ queue.nextNextIn < queue.size := by
  unfold Circular.nextNextIn
  simp only
  split_ifs <;> omega

theorem next_next_out_bounds (queue : Circular Item) (positive : 1 ≤ queue.size)
    (bounds : 0 ≤ queue.nextOut ∧ queue.nextOut < queue.size) :
    0 ≤ queue.nextNextOut ∧ queue.nextNextOut < queue.size := by
  unfold Circular.nextNextOut
  simp only
  split_ifs <;> omega

theorem next_next_in_eq (held : Represents queue items) :
    queue.nextNextIn = slot queue.size queue.nextOut queue.step items.length := by
  have positive := held.positive
  have range := held.inRange
  rw [← held.behind]
  unfold Circular.nextNextIn Circular.step
  cases reversed : queue.reverse with
  | true =>
      have filled : queue.nextIn ≠ -1 := fun fresh => by simp [(held.started fresh).1] at reversed
      simp only [if_true]
      rw [← Int.sub_eq_add_neg, back_mod (by omega) (by omega) positive]
  | false =>
      simp only [Bool.false_eq_true, if_false]
      rw [step_mod (by omega) (by omega)]
      split_ifs <;> omega

theorem next_next_out_eq (held : Represents queue items) :
    queue.nextNextOut = (queue.nextOut + queue.step) % queue.size := by
  have positive := held.positive
  have range := held.outRange
  unfold Circular.nextNextOut Circular.step
  cases reversed : queue.reverse with
  | true =>
      simp only [if_true]
      rw [← Int.sub_eq_add_neg, back_mod (by omega) (by omega) positive]
  | false =>
      simp only [Bool.false_eq_true, if_false]
      rw [step_mod (by omega) (by omega)]
      split_ifs <;> omega

/-! ## What a region does -/

/-- All items but the first `gone` are still in their cells. -/
structure Kept (queue : Circular Item) (items : List Item) (gone : Nat)
    (after : Circular Item) : Prop where
  size : after.size = queue.size
  cells : ∀ i, gone ≤ i → i < items.length →
    cellAt after.data (slot queue.size queue.nextOut queue.step i) = items[i]?

theorem kept_refl (held : Represents queue items) (gone : Nat) : Kept queue items gone queue := by
  refine ⟨rfl, fun i _ within => ?_⟩
  rw [← held.whole]
  exact held.laid.held i within

theorem acquire_eq (held : Represents queue items) : queue.sema.acquire =
    if items.length < queue.size then
      some ({ queue.sema with cnt := queue.sema.cnt - 1 }, .signal .decrementCond)
    else none := by
  have count := held.count
  simp only [SemaTwoWay.acquire]
  split_ifs with first second <;> first | rfl | omega

theorem put_next_represents (held : Represents queue items) (room : items.length < queue.size)
    (value : Item) : ∃ after,
      { queue with sema := { queue.sema with cnt := queue.sema.cnt - 1 } }.putNext value =
      some after ∧
      Represents after (items ++ [value]) ∧ Kept queue items 0 after := by
  have positive := held.positive
  have whole := held.whole
  have target := next_next_in_eq held
  have range := slot_range queue.nextOut queue.step positive items.length
  have high : slot queue.size queue.nextOut queue.step items.length < queue.data.length := by omega
  rcases set_cell_exists range.1 high value with ⟨data, set⟩
  have laid : Laid data queue.nextOut queue.step (items ++ [value]) := by
    apply laid_push (step_unit queue) held.laid
    · rw [whole]
      exact set
    · omega
  have length := set_cell_length set
  refine ⟨{ queue with
    sema := { queue.sema with cnt := queue.sema.cnt - 1 }
    nextIn := slot queue.size queue.nextOut queue.step items.length
    data }, ?_, ⟨positive, ?_, held.semaSize, ?_, laid, held.outRange, ?_, ?_, ?_⟩, ?_⟩
  · have same : ({ queue with sema := { queue.sema with cnt := queue.sema.cnt - 1 } }).nextNextIn =
        queue.nextNextIn := rfl
    simp only [Circular.putNext, same, target, set, Option.bind_eq_bind, Option.bind_some]
  · exact (congrArg Int.ofNat length).trans whole
  · have count := held.count
    simp only [count, List.length_append, List.length_singleton]
    omega
  · simp only
    omega
  · intro fresh
    simp only at fresh
    omega
  · simp only [List.length_append, List.length_singleton]
    exact slot_advance items.length
  · refine ⟨rfl, fun i _ within => ?_⟩
    have now := laid.held i (by simp only [List.length_append]; omega)
    rw [length, whole, List.getElem?_append_left within] at now
    exact now

theorem take_out_represents (left : Item → Item) (held : Represents queue (item :: rest))
    (sema : SemaTwoWay) :
    ∃ data, { queue with sema }.takeOut left = some ({ queue with sema, data }, item) ∧
      data.length = queue.data.length ∧
      Laid data ((queue.nextOut + queue.step) % queue.size) queue.step rest ∧
      Kept queue (item :: rest) 1 { queue with data } := by
  have positive := held.positive
  have whole := held.whole
  have out := held.outRange
  have place : queue.nextOut % queue.data.length = queue.nextOut :=
    Int.emod_eq_of_lt out.1 (by omega)
  have first := laid_first held.laid
  rw [place] at first
  have high : queue.nextOut < queue.data.length := by omega
  rcases set_cell_exists out.1 high (left item) with ⟨data, set⟩
  have length := set_cell_length set
  have later : Laid data (queue.nextOut + queue.step) queue.step rest := by
    apply laid_spoil (step_unit queue) held.laid
    rw [place]
    exact set
  refine ⟨data, ?_, length, ?_, ?_⟩
  · simp only [Circular.takeOut, first, set, Option.bind_eq_bind, Option.bind_some]
  · have wrapped := laid_wrap later
    rwa [length, whole] at wrapped
  · refine ⟨rfl, fun i notFirst within => ?_⟩
    have now := later.held (i - 1) (by simp only [List.length_cons] at within; omega)
    rw [← slot_succ, Nat.sub_add_cancel notFirst, length, whole] at now
    rw [now, List.getElem?_cons, if_neg (by omega)]

theorem represents_popped {data : List Item} (held : Represents queue (item :: rest))
    (length : data.length = queue.data.length)
    (laid : Laid data ((queue.nextOut + queue.step) % queue.size) queue.step rest) :
    Represents { queue with
      sema := { queue.sema with cnt := queue.sema.cnt + 1 }
      nextOut := (queue.nextOut + queue.step) % queue.size
      data } rest := by
  have positive := held.positive
  have count := held.count
  simp only [List.length_cons] at count
  have filled : queue.nextIn ≠ -1 := fun fresh => nomatch (held.started fresh).2
  refine ⟨positive, (congrArg Int.ofNat length).trans held.whole, held.semaSize, ?_, laid, ?_,
    held.inRange, fun fresh => absurd fresh filled, ?_⟩
  · simp only
    omega
  · exact ⟨Int.emod_nonneg _ (by omega), Int.emod_lt_of_pos _ (by omega)⟩
  · have behind := held.behind
    rw [List.length_cons, slot_succ] at behind
    exact behind.trans (slot_wrap _).symm

theorem release_eq (held : Represents queue items) : queue.sema.releaseWithoutLock =
    ({ queue.sema with cnt := queue.sema.cnt + 1 }, .signal .gtZeroCond) := by
  have count := held.count
  have fits := held.laid.fits
  have whole := held.whole
  simp only [SemaTwoWay.releaseWithoutLock]
  rw [if_pos (by omega)]

theorem remove_now_represents (left : Item → Item) (held : Represents queue (item :: rest)) :
    ∃ after,
    queue.removeNow left = some ⟨after, .signal .gtZeroCond, .returns true (some item)⟩ ∧
      Represents after rest ∧ Kept queue (item :: rest) 1 after := by
  have advance := next_next_out_eq held
  have count := remain_eq held
  rcases take_out_represents left held { queue.sema with cnt := queue.sema.cnt + 1 } with
    ⟨data, taken, length, laid, kept⟩
  have popped := represents_popped held length laid
  let removed : Circular Item := { queue with
    sema := { queue.sema with cnt := queue.sema.cnt + 1 }
    nextOut := (queue.nextOut + queue.step) % queue.size
    data }
  refine ⟨if queue.remain = 1 then removed.restart else removed, ?_, ?_, ?_⟩
  · have same : ({ queue with sema := { queue.sema with cnt := queue.sema.cnt + 1 },
                              data }).nextNextOut =
        queue.nextNextOut := rfl
    simp only [Circular.removeNow, release_eq held, taken, Option.bind_eq_bind,
      Option.bind_some, same,
      advance]
    rfl
  · split_ifs with last
    · have empty : rest = [] := by
        rw [← List.length_eq_zero_iff]
        simp only [List.length_cons] at count
        omega
      subst empty
      exact represents_restart popped
    · exact popped
  · have same : (if queue.remain = 1 then removed.restart else removed).data = data ∧
        (if queue.remain = 1 then removed.restart else removed).size = queue.size := by
      split_ifs <;> exact ⟨rfl, rfl⟩
    refine ⟨same.2, fun i notFirst within => ?_⟩
    rw [same.1]
    exact kept.cells i notFirst within

theorem remove_awaited_represents (left : Item → Item) (held : Represents queue (item :: rest)) :
    ∃ after,
    queue.removeAwaited left = some ⟨after, .signal .gtZeroCond, .returns true (some item)⟩ ∧
      Represents after rest ∧ Kept queue (item :: rest) 1 after := by
  have advance := next_next_out_eq held
  have count := remain_eq held
  simp only [List.length_cons] at count
  rcases take_out_represents left held queue.sema with ⟨data, taken, length, laid, kept⟩
  have popped := represents_popped held length laid
  refine ⟨_, ?_, popped, rfl, kept.cells⟩
  have same : ({ queue with data }).nextNextOut = queue.nextNextOut := rfl
  have notEmpty : ¬ ({ queue with data }).remain = 0 := by
    change ¬ queue.remain = 0
    omega
  simp only [Circular.removeAwaited, taken, Option.bind_eq_bind, Option.bind_some,
    if_neg notEmpty, same, advance, release_eq held]

/-! ## The calls -/

theorem add_by_eq (left : Item → Item) (held : Represents queue items) (value : Item) :
    (items.length < queue.size ∧ ∃ after,
        queue.addBy left value = some ⟨after, .signal .decrementCond,
          .returns true (some (left value))⟩ ∧
        Represents after (items ++ [value]) ∧ Kept queue items 0 after) ∨
    (items.length = queue.size ∧ queue.addBy left value = some ⟨queue, .nobody,
      .waits .gtZeroCond⟩) := by
  have fits := held.laid.fits
  have whole := held.whole
  have acquired := acquire_eq held
  by_cases room : items.length < queue.size
  · rcases put_next_represents held room value with ⟨after, put, represents, kept⟩
    rw [if_pos room] at acquired
    refine .inl ⟨room, after, ?_, represents, kept⟩
    simp only [Circular.addBy, acquired, put, Option.bind_eq_bind, Option.bind_some]
  · rw [if_neg room] at acquired
    refine .inr ⟨by omega, ?_⟩
    simp only [Circular.addBy, acquired]

theorem add_if_room_by_eq (left : Item → Item) (held : Represents queue items) (value : Item) :
    (items.length < queue.size ∧ ∃ after,
        queue.addIfRoomBy left value =
          some ⟨after, .signal .decrementCond, .returns true (some (left value))⟩ ∧
        Represents after (items ++ [value]) ∧ Kept queue items 0 after) ∨
    (items.length = queue.size ∧ queue.addIfRoomBy left value = some ⟨queue, .nobody,
      .returns false none⟩) := by
  have fits := held.laid.fits
  have whole := held.whole
  have acquired := acquire_eq held
  by_cases room : items.length < queue.size
  · rcases put_next_represents held room value with ⟨after, put, represents, kept⟩
    rw [if_pos room] at acquired
    refine .inl ⟨room, after, ?_, represents, kept⟩
    simp only [Circular.addIfRoomBy, acquired, put, Option.bind_eq_bind, Option.bind_some]
  · rw [if_neg room] at acquired
    refine .inr ⟨by omega, ?_⟩
    simp only [Circular.addIfRoomBy, acquired]

theorem remove_by_empty (left : Item → Item) (held : Represents queue ([] : List Item)) :
    queue.removeBy left = some ⟨queue, .nobody, .returns false none⟩ := by
  have count := remain_eq held
  rw [Circular.removeBy, if_neg (by simp [count])]

theorem remove_by_filled (left : Item → Item) (held : Represents queue (item :: rest)) : ∃ after,
    queue.removeBy left = some ⟨after, .signal .gtZeroCond, .returns true (some item)⟩ ∧
      Represents after rest ∧ Kept queue (item :: rest) 1 after := by
  have count := remain_eq held
  rw [Circular.removeBy, if_pos (by simp only [List.length_cons] at count; omega)]
  exact remove_now_represents left held

theorem remove_or_block_by_empty (left : Item → Item) (held : Represents queue ([] : List Item)) :
    queue.removeOrBlockBy left = some ⟨queue, .nobody, .waits .decrementCond⟩ := by
  have remaining := remain_eq held
  have count := held.count
  have semaSize := held.semaSize
  simp only [List.length_nil] at count
  rw [Circular.removeOrBlockBy, if_neg (by simp [remaining]), if_pos (by omega)]

theorem remove_or_block_by_filled (left : Item → Item) (held : Represents queue (item :: rest)) :
    ∃ after,
    queue.removeOrBlockBy left = some ⟨after, .signal .gtZeroCond, .returns true (some item)⟩ ∧
      Represents after rest ∧ Kept queue (item :: rest) 1 after := by
  have count := remain_eq held
  rw [Circular.removeOrBlockBy, if_pos (by simp only [List.length_cons] at count; omega)]
  exact remove_now_represents left held

theorem remove_woken_by_empty (left : Item → Item) (held : Represents queue ([] : List Item)) :
    queue.removeWokenBy left = some ⟨queue, .nobody, .returns false none⟩ := by
  have count := held.count
  have semaSize := held.semaSize
  simp only [List.length_nil] at count
  rw [Circular.removeWokenBy, if_pos (by omega)]

theorem remove_woken_by_filled (left : Item → Item) (held : Represents queue (item :: rest)) :
    ∃ after,
    queue.removeWokenBy left = some ⟨after, .signal .gtZeroCond, .returns true (some item)⟩ ∧
      Represents after rest ∧ Kept queue (item :: rest) 1 after := by
  have count := held.count
  have semaSize := held.semaSize
  simp only [List.length_cons] at count
  rw [Circular.removeWokenBy, if_neg (by omega)]
  exact remove_awaited_represents left held

/-! ## Reversing and clearing -/

theorem next_in_last (held : Represents queue (item :: rest)) :
    queue.nextIn = slot queue.size queue.nextOut queue.step rest.length := by
  have range := held.inRange
  have filled : queue.nextIn ≠ -1 := fun fresh => nomatch (held.started fresh).2
  have behind := held.behind
  rw [List.length_cons, ← slot_advance] at behind
  have modeq : queue.nextIn ≡ slot queue.size queue.nextOut queue.step rest.length
      [ZMOD queue.size] :=
    Int.ModEq.add_right_cancel' queue.step behind
  have last := slot_range queue.nextOut queue.step (show 0 < queue.size by omega) rest.length
  rwa [Int.ModEq, Int.emod_eq_of_lt (by omega) (by omega), Int.emod_eq_of_lt last.1 last.2] at modeq

theorem represents_reverse (held : Represents queue items) :
    Represents queue.reverseOrder items.reverse := by
  have count := remain_eq held
  cases items with
  | nil =>
      rw [Circular.reverseOrder, if_pos (by simp [count])]
      exact held
  | cons item rest =>
      simp only [List.length_cons] at count
      rw [Circular.reverseOrder, if_neg (by omega)]
      have last := next_in_last held
      have positive := held.positive
      have out := held.outRange
      have whole := held.whole
      let turned : Circular Item :=
        { queue with reverse := !queue.reverse, nextOut := queue.nextIn, nextIn := queue.nextOut }
      have opposite : turned.step = -queue.step := by
        simp only [turned, Circular.step]
        by_cases reversed : queue.reverse = true
        · simp [reversed]
        · simp [reversed]
      have lastRange := slot_range queue.nextOut queue.step
        (show 0 < queue.size by omega) rest.length
      refine ⟨positive, whole, held.semaSize, ?_, ?_, ?_, ?_, ?_, ?_⟩
      · rw [List.length_reverse]
        exact held.count
      · have laid := laid_reverse held.laid
        rw [whole] at laid
        change Laid queue.data queue.nextIn turned.step _
        rw [opposite, last]
        exact laid
      · simp only [last]
        exact lastRange
      · simp only
        omega
      · intro fresh
        simp only at fresh
        omega
      · change (queue.nextOut + turned.step) % queue.size =
          slot queue.size queue.nextIn turned.step _
        have first := slot_back queue.size queue.nextOut queue.step (Nat.lt_succ_self rest.length)
        rw [Nat.succ_sub_one, Nat.sub_self, slot_zero, Int.emod_eq_of_lt out.1 out.2] at first
        rw [opposite, last, List.length_reverse, List.length_cons, ← slot_advance, first]

theorem represents_clear (blank : Item) (held : Represents queue items) :
    Represents (queue.clear blank) [] := by
  have positive := held.positive
  refine ⟨positive, ?_, held.semaSize, ?_, laid_nil _ _ _, ?_, ?_, fun _ => ⟨rfl, rfl⟩, ?_⟩
  · have length : (queue.clear blank).data.length = queue.data.length := by
      simp only [Circular.clear]
      split_ifs <;> simp
    exact (congrArg Int.ofNat length).trans held.whole
  · simp only [Circular.clear, SemaTwoWay.resetNoLock, Circular.restart, held.semaSize,
      List.length_nil]
    omega
  · simp only [Circular.clear, Circular.restart]
    omega
  · simp only [Circular.clear, Circular.restart]
    omega
  · simp [Circular.clear, Circular.restart, Circular.step, slot]

theorem set_represents (held : Represents queue items) {n : Int} {value : Item}
    {after : Circular Item} {ret : Bool} (set : queue.set n value = some (after, ret)) :
    ∃ left, Represents after left ∧ left.length = items.length := by
  unfold Circular.set at set
  split_ifs at set with inside
  · rcases Option.map_eq_some_iff.mp set with ⟨data, written, same⟩
    cases same
    have length := set_cell_length written
    have fits : items.length ≤ data.length := length ▸ held.laid.fits
    rcases laid_any data queue.nextOut queue.step fits with ⟨left, laid, count⟩
    have few : left = [] ↔ items = [] := by
      rw [← List.length_eq_zero_iff, count, List.length_eq_zero_iff]
    refine ⟨left, ?_, count⟩
    exact {
      positive := held.positive
      whole := (congrArg Int.ofNat length).trans held.whole
      semaSize := held.semaSize
      count := by
        rw [count]
        exact held.count
      laid := laid
      outRange := held.outRange
      inRange := held.inRange
      started := fun fresh => ⟨(held.started fresh).1, few.mpr (held.started fresh).2⟩
      behind := by
        rw [count]
        exact held.behind }
  · cases set
    exact ⟨items, held, rfl⟩

end TWlib.CircularBuffer
