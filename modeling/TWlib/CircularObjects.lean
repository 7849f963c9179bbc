import TWlib.CircularIterator
import TWlib.Lib.CellStore

/-!
# Circular queues with their arrays on the heap

Two queues are two objects, each with an array of its own from `ALLOC::malloc`. An
operation works on the array its object points to, and `cloneFrom` and
`transferFrom` free one array and make another. Every other call of the class is one
of `Use`.
-/

namespace TWlib.CircularObjects

open TWlib.Lib.CellStore TWlib.Lib.RingSlots TWlib.CircularBuffer TWlib.CircularSequential
  TWlib.CircularArray
  TWlib.CircularIterator

set_option autoImplicit false

variable {Item : Type*}

/-! ## The calls on one queue -/

/-- The calls of one thread, an iteration from `getIter` to `release` being one. -/
inductive Use (Item : Type*) where
  | call (op : Op Item)
  /-- With a limit to the time it waits. -/
  | timed (op : Op Item)
  | get (n : Int)
  | set (n : Int) (value : Item)
  | setMv (n : Int) (value : Item)
  | iterate

inductive Result (Item : Type*) where
  | call (answer : Answer Item)
  | got (ret : Bool) (arg : Option Item)
  | wrote (ret : Bool) (left : Item)
  | visited (values : List (Option Item))
deriving DecidableEq

/-- The thread waits and does not come back. -/
def Result.stuck : Result Item → Bool
  | .call answer => answer.stuck
  | _ => false

/-- When the time is over, nobody else having come. A removal goes on waiting, since
`waitForAcquirersKeepLock(abstime)` has no time limit. -/
def expired (queue : Circular Item) : Answer Item → Circular Item × Result Item
  | .call (.waits .gtZeroCond) => (queue.timedOut.queue, .call (.call queue.timedOut.outcome))
  | answer => (queue, .call answer)

def use (husk : Item → Item) (blank : Item) (queue : Circular Item) :
    Use Item → Option (Circular Item × Result Item)
  | .call op => (perform husk blank queue op).map fun (after, answer) => (after, .call answer)
  | .timed op => (perform husk blank queue op).map fun (after, answer) => expired after answer
  | .get n => (queue.get n).map fun (ret, arg) => (queue, .got ret arg)
  | .set n value => (queue.set n value).map fun (after, ret) => (after, .wrote ret value)
  | .setMv n value =>
      (queue.setMv husk n value).map fun (after, ret, left) => (after, .wrote ret left)
  | .iterate => ((getIter queue).walk queue queue.remain.toNat).map fun visited =>
      (queue, .visited (visited.map Prod.snd))

/-- What a sequence of calls gives. -/
def results (husk : Item → Item) (blank : Item) (queue : Circular Item) :
    List (Use Item) → Option (List (Result Item))
  | [] => some []
  | one :: rest =>
      (use husk blank queue one).elim none fun (after, result) =>
        if result.stuck then some [result]
        else (results husk blank after rest).map fun later => result :: later

/-! ## Objects -/

/-- `tw_safeCircular`; `data` is the number of the array. -/
structure SafeCircular where
  isObjects : Bool
  reverse : Bool
  sema : SemaTwoWay
  enabled : Bool
  nextIn : Int
  nextOut : Int
  size : Int
  data : Nat
deriving DecidableEq

/-- The queue with the array its object points to. -/
def view (heap : Store (List Item)) (object : SafeCircular) : Option (Circular Item) :=
  (heap.read object.data).map fun data =>
    { isObjects := object.isObjects, reverse := object.reverse, sema := object.sema,
      nextIn := object.nextIn
      nextOut := object.nextOut, size := object.size, data }

/-- Nothing but `clear` changes `enabled` here. -/
def enabledAfter (object : SafeCircular) : Use Item → Bool
  | .call .clear => true
  | _ => object.enabled

/-- The object when its queue has become `after`. -/
def SafeCircular.become (object : SafeCircular) (after : Circular Item) (enabled : Bool) :
    SafeCircular where
  isObjects := after.isObjects
  reverse := after.reverse
  sema := after.sema
  enabled := enabled
  nextIn := after.nextIn
  nextOut := after.nextOut
  size := after.size
  data := object.data

def useObject (husk : Item → Item) (blank : Item) (heap : Store (List Item)) (object : SafeCircular)
    (one : Use Item) : Option (Store (List Item) × SafeCircular × Result Item) := do
  let queue ← view heap object
  let (after, result) ← use husk blank queue one
  some (heap.write object.data after.data, object.become after (enabledAfter object one), result)

/-! ## Two objects -/

/-- `p = new (p) T(other.data[n])` for each of the cells. -/
def initCells (size : Int) (source : List Item) : Option (List Item) :=
  if size ≤ source.length then some (source.take size.toNat) else none

/-- What the move constructor leaves in the cells. -/
def moveCells (husk : Item → Item) (size : Int) (source : List Item) : List Item :=
  (source.take size.toNat).map husk ++ source.drop size.toNat

/-- `a.cloneFrom(b)`; `fresh` is what `ALLOC::malloc` finds in the new array. -/
def cloneFrom (fresh : List Item) (heap : Store (List Item)) (a b : SafeCircular) :
    Option (Store (List Item) × SafeCircular) := do
  let _ ← heap.read a.data
  let heap := heap.giveUp a.data
  let cloned := { b with data := heap.fresh }
  if b.isObjects then do
    let source ← heap.read b.data
    let cells ← initCells b.size source
    some (heap.push cells, cloned)
  else some (heap.push fresh, cloned)

/-- `a.transferFrom(b)`; both objects are changed. -/
def transferFrom (husk : Item → Item) (fresh : List Item) (heap : Store (List Item))
    (a b : SafeCircular) :
    Option (Store (List Item) × SafeCircular × SafeCircular) := do
  let _ ← heap.read a.data
  let heap := heap.giveUp a.data
  let filled := { b with data := heap.fresh }
  let emptied := { b with sema := b.sema.resetNoLock, nextIn := -1, nextOut := 0 }
  if b.isObjects then do
    let source ← heap.read b.data
    let cells ← initCells b.size source
    some ((heap.push cells).write b.data (moveCells husk b.size source), filled, emptied)
  else some (heap.push fresh, filled, emptied)

/-! ## Each object has its own array -/

variable {heap after : Store (List Item)} {object other : SafeCircular} {husk : Item → Item}
  {blank : Item} {queue : Circular Item}

theorem view_some (seen : view heap object = some queue) :
    heap.read object.data = some queue.data ∧ queue.isObjects = object.isObjects ∧
      queue.reverse = object.reverse ∧
      queue.sema = object.sema ∧ queue.nextIn = object.nextIn ∧ queue.nextOut = object.nextOut ∧
      queue.size = object.size := by
  rcases Option.map_eq_some_iff.mp seen with ⟨data, read, same⟩
  cases same
  exact ⟨read, rfl, rfl, rfl, rfl, rfl, rfl⟩

theorem view_congr (same : after.read object.data = heap.read object.data) :
    view after object = view heap object := by
  rw [view, view, same]

theorem use_frame {one : Use Item} {objectAfter : SafeCircular} {result : Result Item}
    (apart : object.data ≠ other.data)
    (used : useObject husk blank heap object one = some (after, objectAfter, result)) :
    after.read other.data = heap.read other.data ∧ objectAfter.data = object.data := by
  rcases Option.bind_eq_some_iff.mp used with ⟨queue, seen, later⟩
  rcases Option.bind_eq_some_iff.mp later with ⟨⟨queueAfter, given⟩, _, done⟩
  cases done
  refine ⟨?_, rfl⟩
  rw [read_write (view_some seen).1, if_neg apart.symm]

theorem view_become (seen : view heap object = some queue) (next : Circular Item) (enabled : Bool) :
    view (heap.write object.data next.data) (object.become next enabled) = some next := by
  rw [view]
  change (Store.read _ object.data).map _ = _
  rw [read_write (view_some seen).1, if_pos rfl]
  rfl

theorem use_object_eq (husk : Item → Item) (blank : Item) (seen : view heap object = some queue)
    (one : Use Item) :
    (use husk blank queue one = none ∧ useObject husk blank heap object one = none) ∨
    ∃ queueAfter result afterHeap objectAfter, use husk blank queue one =
      some (queueAfter, result) ∧
      useObject husk blank heap object one = some (afterHeap, objectAfter, result) ∧
      view afterHeap objectAfter = some queueAfter := by
  cases used : use husk blank queue one with
  | none =>
      left
      simp [useObject, seen, used]
  | some pair =>
      right
      refine ⟨pair.1, pair.2, heap.write object.data pair.1.data,
        object.become pair.1 (enabledAfter object one), rfl, ?_, view_become seen pair.1 _⟩
      simp only [useObject, seen, used, Option.bind_eq_bind, Option.bind_some]

/-- What a sequence of calls on an object gives. -/
def objectResults (husk : Item → Item) (blank : Item) (heap : Store (List Item))
    (object : SafeCircular) :
    List (Use Item) → Option (List (Result Item))
  | [] => some []
  | one :: rest =>
      (useObject husk blank heap object one).elim none fun (after, objectAfter, result) =>
        if result.stuck then some [result]
        else (objectResults husk blank after objectAfter rest).map fun later => result :: later

theorem object_results_eq (seen : view heap object = some queue) (uses : List (Use Item)) :
    objectResults husk blank heap object uses = results husk blank queue uses := by
  induction uses generalizing heap object queue with
  | nil => rfl
  | cons one rest ih =>
      rcases use_object_eq husk blank seen one with
        ⟨undefined, missing⟩ | ⟨queueAfter, result, afterHeap, objectAfter, used, usedObject, now⟩
      · rw [objectResults, results, undefined, missing]
        rfl
      · rw [objectResults, results, used, usedObject]
        simp only [Option.elim, ih now]

/-! ## What a call does to the queue -/

inductive Change (queue : Circular Item) : Circular Item → Prop where
  | nothing : Change queue queue
  | put {sema : SemaTwoWay} {wake : Wake} {value : Item} {after : Circular Item}
      (acquired : queue.sema.acquire = some (sema, wake))
      (put : ({ queue with sema } : Circular Item).putNext value = some after) : Change queue after
  | removed {left : Item → Item} {region : Region Item} (filled : queue.remain > 0)
      (removed : queue.removeNow left = some region) : Change queue region.queue
  | awaited {left : Item → Item} {region : Region Item} (empty : ¬ queue.remain > 0)
      (behind : ¬ queue.sema.cnt ≥ queue.sema.size)
      (removed : queue.removeAwaited left = some region) :
      Change queue region.queue
  | reversed : Change queue queue.reverseOrder
  | cleared (blank : Item) : Change queue (queue.clear blank)
  | written {data : List Item} (length : data.length = queue.data.length) :
      Change queue { queue with data }

variable {left : Item → Item} {value : Item}

theorem add_by_change {region : Region Item} (added : queue.addBy left value = some region) :
    Change queue region.queue := by
  unfold Circular.addBy at added
  cases acquired : queue.sema.acquire with
  | none =>
      rw [acquired] at added
      cases added
      exact .nothing
  | some pair =>
      rw [acquired] at added
      rcases Option.bind_eq_some_iff.mp added with ⟨after, put, done⟩
      cases done
      exact .put acquired put

theorem add_if_room_by_change {region : Region Item}
    (added : queue.addIfRoomBy left value = some region) :
    Change queue region.queue := by
  unfold Circular.addIfRoomBy at added
  cases acquired : queue.sema.acquire with
  | none =>
      rw [acquired] at added
      cases added
      exact .nothing
  | some pair =>
      rw [acquired] at added
      rcases Option.bind_eq_some_iff.mp added with ⟨after, put, done⟩
      cases done
      exact .put acquired put

theorem remove_by_change {region : Region Item} (removed : queue.removeBy left = some region) :
    Change queue region.queue := by
  unfold Circular.removeBy at removed
  split_ifs at removed with filled
  · exact .removed filled removed
  · cases removed
    exact .nothing

theorem remove_or_block_by_change {region : Region Item}
    (removed : queue.removeOrBlockBy left = some region) :
    Change queue region.queue := by
  unfold Circular.removeOrBlockBy at removed
  split_ifs at removed with filled waits
  · exact .removed filled removed
  · cases removed
    exact .nothing
  · exact .awaited filled waits removed

theorem of_region_change {region : Option (Region Item)} {queueAfter : Circular Item}
    {answer : Answer Item} (given : ofRegion region = some (queueAfter, answer))
    (changes : ∀ found, region = some found → Change queue found.queue) :
    Change queue queueAfter := by
  rcases Option.map_eq_some_iff.mp given with ⟨found, same, done⟩
  cases done
  exact changes found same

theorem perform_change {op : Op Item} {queueAfter : Circular Item} {answer : Answer Item}
    (performed : perform husk blank queue op = some (queueAfter, answer)) :
    Change queue queueAfter := by
  cases op with
  | add value => exact of_region_change performed fun _ => add_by_change
  | addIfRoom value => exact of_region_change performed fun _ => add_if_room_by_change
  | addMv value => exact of_region_change performed fun _ => add_by_change
  | addMvIfRoom value => exact of_region_change performed fun _ => add_if_room_by_change
  | remove => exact of_region_change performed fun _ => remove_by_change
  | removeMv => exact of_region_change performed fun _ => remove_by_change
  | removeOrBlock => exact of_region_change performed fun _ => remove_or_block_by_change
  | removeMvOrBlock => exact of_region_change performed fun _ => remove_or_block_by_change
  | reverse =>
      cases performed
      exact .reversed
  | clear =>
      cases performed
      exact .cleared blank
  | remaining =>
      cases performed
      exact .nothing

theorem set_change {n : Int} {queueAfter : Circular Item} {ret : Bool}
    (set : queue.set n value = some (queueAfter, ret)) : Change queue queueAfter := by
  unfold Circular.set at set
  split_ifs at set
  · rcases Option.map_eq_some_iff.mp set with ⟨data, written, same⟩
    cases same
    exact .written (set_cell_length written)
  · cases set
    exact .nothing

theorem expired_queue (queue : Circular Item) (answer : Answer Item) :
    (expired queue answer).1 = queue := by
  unfold expired
  split <;> rfl

theorem use_change {one : Use Item} {queueAfter : Circular Item} {result : Result Item}
    (used : use husk blank queue one = some (queueAfter, result)) : Change queue queueAfter := by
  cases one with
  | call op =>
      rcases Option.map_eq_some_iff.mp used with ⟨⟨performed, answer⟩, same, done⟩
      cases done
      exact perform_change same
  | timed op =>
      rcases Option.map_eq_some_iff.mp used with ⟨⟨performed, answer⟩, same, done⟩
      have kept : queueAfter = performed :=
        (congrArg Prod.fst done).symm.trans (expired_queue performed answer)
      rw [kept]
      exact perform_change same
  | get n =>
      rcases Option.map_eq_some_iff.mp used with ⟨_, _, done⟩
      cases done
      exact .nothing
  | set n value =>
      rcases Option.map_eq_some_iff.mp used with ⟨⟨written, ret⟩, same, done⟩
      cases done
      exact set_change same
  | setMv n value =>
      rcases Option.map_eq_some_iff.mp used with ⟨⟨written, ret, rest⟩, same, done⟩
      rcases Option.map_eq_some_iff.mp same with ⟨⟨inner, _⟩, set, here⟩
      cases here
      cases done
      exact set_change set
  | iterate =>
      rcases Option.map_eq_some_iff.mp used with ⟨_, _, done⟩
      cases done
      exact .nothing

/-! ## Sizes -/

structure Sized (queue : Circular Item) : Prop where
  positive : 1 ≤ queue.size
  whole : (queue.data.length : Int) = queue.size
  semaSize : queue.sema.size = queue.size

structure SameSizes (before after : Circular Item) : Prop where
  size : after.size = before.size
  length : after.data.length = before.data.length
  semaSize : after.sema.size = before.sema.size

theorem same_sizes_refl (queue : Circular Item) : SameSizes queue queue := ⟨rfl, rfl, rfl⟩

theorem same_sizes_trans {before middle after : Circular Item} (first : SameSizes before middle)
    (second : SameSizes middle after) : SameSizes before after where
  size := second.size.trans first.size
  length := second.length.trans first.length
  semaSize := second.semaSize.trans first.semaSize

theorem sized_of_same {before after : Circular Item} (sized : Sized before)
    (same : SameSizes before after) :
    Sized after where
  positive := by
    rw [same.size]
    exact sized.positive
  whole := by
    rw [same.length, same.size]
    exact sized.whole
  semaSize := by
    rw [same.semaSize, same.size]
    exact sized.semaSize

theorem acquire_size {sema semaAfter : SemaTwoWay} {wake : Wake}
    (acquired : sema.acquire = some (semaAfter, wake)) :
    semaAfter.size = sema.size := by
  unfold SemaTwoWay.acquire at acquired
  split_ifs at acquired
  cases acquired
  rfl

theorem put_next_sizes {queue after : Circular Item} (put : queue.putNext value = some after) :
    SameSizes queue after := by
  rcases Option.bind_eq_some_iff.mp put with ⟨data, set, done⟩
  cases done
  exact ⟨rfl, set_cell_length set, rfl⟩

theorem take_out_sizes {queue after : Circular Item} {taken : Item}
    (took : queue.takeOut left = some (after, taken)) :
    SameSizes queue after := by
  rcases Option.bind_eq_some_iff.mp took with ⟨found, _, later⟩
  rcases Option.bind_eq_some_iff.mp later with ⟨data, set, done⟩
  cases done
  exact ⟨rfl, set_cell_length set, rfl⟩

theorem remove_now_sizes {region : Region Item} (removed : queue.removeNow left = some region) :
    SameSizes queue region.queue := by
  rcases Option.bind_eq_some_iff.mp removed with ⟨⟨after, taken⟩, took, done⟩
  cases done
  have releases : SameSizes queue { queue with sema := queue.sema.releaseWithoutLock.1 } :=
    ⟨rfl, rfl, rfl⟩
  have same := same_sizes_trans releases (take_out_sizes took)
  dsimp only
  split_ifs
  · exact same_sizes_trans same ⟨rfl, rfl, rfl⟩
  · exact same_sizes_trans same ⟨rfl, rfl, rfl⟩

theorem remove_awaited_sizes {region : Region Item}
    (removed : queue.removeAwaited left = some region) :
    SameSizes queue region.queue := by
  rcases Option.bind_eq_some_iff.mp removed with ⟨⟨after, taken⟩, took, done⟩
  cases done
  have same := take_out_sizes took
  dsimp only
  split_ifs
  · exact same_sizes_trans same ⟨rfl, rfl, rfl⟩
  · exact same_sizes_trans same ⟨rfl, rfl, rfl⟩

theorem change_sizes {queueAfter : Circular Item} (change : Change queue queueAfter) :
    SameSizes queue queueAfter := by
  cases change with
  | nothing => exact same_sizes_refl queue
  | put acquired put =>
      have same := put_next_sizes put
      exact ⟨same.size, same.length, same.semaSize.trans (acquire_size acquired)⟩
  | removed filled removed => exact remove_now_sizes removed
  | awaited empty behind removed => exact remove_awaited_sizes removed
  | reversed =>
      unfold Circular.reverseOrder
      split_ifs
      · exact same_sizes_refl queue
      · exact ⟨rfl, rfl, rfl⟩
  | cleared blank =>
      refine ⟨rfl, ?_, rfl⟩
      unfold Circular.clear
      split_ifs
      · exact List.length_map _
      · rfl
  | written length => exact ⟨rfl, length, rfl⟩

end TWlib.CircularObjects
