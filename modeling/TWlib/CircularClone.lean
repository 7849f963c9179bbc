import TWlib.CircularTransfer

/-!
# Cloning a circular queue

`cloneFrom` gives the new array the elements of the other one only when they are
objects. Otherwise it holds whatever `ALLOC::malloc` finds, next to indices and a
count that speak of elements: a removal returns what was in the memory.
-/

namespace TWlib.CircularClone

open TWlib.Lib.CellStore TWlib.Lib.RingSlots TWlib.CircularBuffer TWlib.CircularSequential
  TWlib.CircularArray
  TWlib.CircularIterator TWlib.CircularObjects TWlib.CircularEmptied TWlib.CircularTransfer

set_option autoImplicit false

variable {Item : Type*} {husk : Item → Item} {blank : Item}

/-! ## What is stated -/

/-- What later calls on an object can make of the heap and of it. -/
def Later (husk : Item → Item) (blank : Item) :
    Store (List Item) × SafeCircular → Store (List Item) × SafeCircular → Prop :=
  Relation.ReflTransGen fun before now =>
    ∃ one result, useObject husk blank before.1 before.2 one = some (now.1, now.2, result)

/-- After `a.cloneFrom(b)`, `queue` being what `b` was. -/
structure Cloned (husk : Item → Item) (blank : Item) (queue : Circular Item) (b : SafeCircular)
    (after : Store (List Item)) (cloned : SafeCircular) : Prop where
  source : view after b = some queue
  target : ∃ copy, view after cloned = some copy ∧ copy.size = queue.size ∧
    copy.reverse = queue.reverse ∧
    copy.sema.countNoBlock = queue.sema.countNoBlock ∧ ∀ items, Represents queue items →
    Represents copy items
  enabled : cloned.enabled = b.enabled
  answers : ∀ uses, objectResults husk blank after cloned uses =
    objectResults husk blank after b uses
  sourceKept : ∀ heap object, Later husk blank (after, cloned) (heap, object) →
    view heap b = some queue
  targetKept : ∀ heap object, Later husk blank (after, b) (heap, object) →
    view heap cloned = view after cloned

/-- No later call looks into a cell that was not written since. -/
def Blind (queue : Circular Item) : Prop :=
  queue.remain = 0 ∧ (queue.size = 1 ∨ queue.size = 2 ∧ queue.reverse = false)

/-! ## Where the indices are -/

/-- Of a queue in any state; an empty one is at its start. -/
structure Ranged (sema : SemaTwoWay) (nextIn nextOut size : Int) : Prop where
  positive : 1 ≤ size
  semaSize : sema.size = size
  count : 0 ≤ sema.cnt ∧ sema.cnt ≤ size
  out : 0 ≤ nextOut ∧ nextOut < size
  filled : sema.cnt < size → 0 ≤ nextIn ∧ nextIn < size
  empty : sema.cnt = size → nextIn = -1 ∧ nextOut = 0

def InRange (queue : Circular Item) : Prop :=
  Ranged queue.sema queue.nextIn queue.nextOut queue.size

variable {queue after : Circular Item} {left : Item → Item} {value : Item} {sema : SemaTwoWay}
    {wake : Wake}

theorem ranged_start {size : Int} (positive : 1 ≤ size) : Ranged ⟨size, size⟩ (-1) 0 size where
  positive := positive
  semaSize := rfl
  count := ⟨Int.le_trans Int.one_nonneg positive, Int.le_refl size⟩
  out := ⟨Int.le_refl 0, by omega⟩
  filled less := absurd less (Int.lt_irrefl size)
  empty _ := ⟨rfl, rfl⟩

theorem next_next_in_range (inRange : InRange queue) :
    0 ≤ queue.nextNextIn ∧ queue.nextNextIn < queue.size := by
  have positive := inRange.positive
  have bounds : -1 ≤ queue.nextIn ∧ queue.nextIn < queue.size := by
    by_cases less : queue.sema.cnt < queue.size
    · have filled := inRange.filled less
      omega
    · have empty := inRange.empty (Int.le_antisymm inRange.count.2 (Int.not_lt.mp less))
      omega
  exact next_next_in_bounds positive bounds

theorem next_next_out_range (inRange : InRange queue) :
    0 ≤ queue.nextNextOut ∧ queue.nextNextOut < queue.size :=
  next_next_out_bounds queue inRange.positive inRange.out

theorem put_in_range (inRange : InRange queue) (acquired : queue.sema.acquire = some (sema, wake))
    (put : ({ queue with sema } : Circular Item).putNext value = some after) : InRange after := by
  have count := inRange.count
  have place := next_next_in_range inRange
  unfold SemaTwoWay.acquire at acquired
  split_ifs at acquired with room
  cases acquired
  rcases Option.bind_eq_some_iff.mp put with ⟨data, _, done⟩
  cases done
  exact
    { positive := inRange.positive
      semaSize := inRange.semaSize
      count := ⟨Int.sub_nonneg_of_le room, by simp only; omega⟩
      out := inRange.out
      filled := fun _ => place
      empty := fun same => by
        simp only at same
        omega }

theorem remove_now_in_range {region : Region Item} (inRange : InRange queue)
    (filled : queue.remain > 0) (removed : queue.removeNow left = some region) :
    InRange region.queue := by
  have count := inRange.count
  have less : queue.sema.cnt < queue.size := Int.sub_pos.mp filled
  have place := next_next_out_range inRange
  have input := inRange.filled less
  have positive := inRange.positive
  rcases Option.bind_eq_some_iff.mp removed with ⟨⟨after, taken⟩, took, done⟩
  rcases Option.bind_eq_some_iff.mp took with ⟨found, _, later⟩
  rcases Option.bind_eq_some_iff.mp later with ⟨data, _, same⟩
  cases same
  cases done
  dsimp only
  split_ifs with last
  · have whole : queue.sema.cnt + 1 = queue.size := by
      unfold Circular.remain SemaTwoWay.countNoBlock at last
      omega
    have start := ranged_start positive
    rw [InRange, Circular.restart]
    simp only [whole, inRange.semaSize]
    exact start
  · have more : queue.sema.cnt + 1 < queue.size := by
      unfold Circular.remain SemaTwoWay.countNoBlock at last filled
      omega
    exact
      { positive := positive
        semaSize := inRange.semaSize
        count := ⟨Int.add_nonneg count.1 Int.one_nonneg, Int.le_of_lt more⟩
        out := place
        filled := fun _ => input
        empty := fun same => absurd same (Int.ne_of_lt more) }

theorem reverse_in_range (inRange : InRange queue) : InRange queue.reverseOrder := by
  unfold Circular.reverseOrder
  split_ifs with few
  · exact inRange
  · have less : queue.sema.cnt < queue.size := by
      unfold Circular.remain SemaTwoWay.countNoBlock at few
      omega
    exact
      { positive := inRange.positive
        semaSize := inRange.semaSize
        count := inRange.count
        out := inRange.filled less
        filled := fun _ => inRange.out
        empty := fun same => absurd same (Int.ne_of_lt less) }

/-- The removal that waits has nothing to do here: an empty queue has all its permits. -/
theorem change_in_range (inRange : InRange queue) (change : Change queue after) :
    InRange after := by
  cases change with
  | nothing => exact inRange
  | put acquired put => exact put_in_range inRange acquired put
  | removed filled removed => exact remove_now_in_range inRange filled removed
  | awaited empty behind removed =>
      have semaSize := inRange.semaSize
      unfold Circular.remain SemaTwoWay.countNoBlock at empty
      omega
  | reversed => exact reverse_in_range inRange
  | cleared blank =>
      have start := ranged_start inRange.positive
      rw [InRange, Circular.clear]
      simp only [SemaTwoWay.resetNoLock, inRange.semaSize]
      exact start
  | written length => exact inRange

def ObjectInRange (object : SafeCircular) : Prop :=
  Ranged object.sema object.nextIn object.nextOut object.size

variable {heap heapAfter : Store (List Item)} {objects : Nat → Option SafeCircular} {i j : Nat}
  {a b object cloned : SafeCircular} {fresh : List Item}

theorem in_range_of_view (seen : view heap object = some queue) :
    ObjectInRange object ↔ InRange queue := by
  rcases view_some seen with ⟨_, _, _, sema, nextIn, nextOut, size⟩
  rw [ObjectInRange, InRange, sema, nextIn, nextOut, size]

theorem use_object_in_range {one : Use Item} {objectAfter : SafeCircular} {result : Result Item}
    (inRange : ObjectInRange object)
    (used : useObject husk blank heap object one = some (heapAfter, objectAfter, result)) :
    ObjectInRange objectAfter := by
  rcases Option.bind_eq_some_iff.mp used with ⟨queue, seen, later⟩
  rcases Option.bind_eq_some_iff.mp later with ⟨⟨queueAfter, given⟩, usedQueue, done⟩
  cases done
  exact change_in_range ((in_range_of_view seen).mp inRange) (use_change usedQueue)

theorem reached_in_range (reached : ReachedObjects husk blank heap objects) :
    ∀ i object, objects i = some object → ObjectInRange object := by
  induction reached with
  | start => exact fun i object found => nomatch found
  | new reached unused positive isObjects whole ih =>
      exact all_after_update ih (ranged_start positive)
  | use reached there used ih => exact all_after_update ih (use_object_in_range (ih _ _ there) used)
  | switch enabled reached there ih =>
      have inRange := ih _ _ there
      exact all_after_update ih inRange
  | @clone heap after objects k l fresh a b cloned reached differ first second whole made ih =>
      have owned := owned_of_reached reached
      have inRange := ih _ _ second
      rcases owned.sized k a first with ⟨queueA, seenA, _⟩
      rcases owned.sized l b second with ⟨queue, seen, sized⟩
      rw [clone_from_eq seenA seen sized (fun same =>
        differ (owned.apart k l a b first second same)) fresh] at made
      cases made
      exact all_after_update ih inRange
  | @transfer heap after objects k l fresh a b filled emptied reached differ first second
      whole made ih =>
      have owned := owned_of_reached reached
      have inRange := ih _ _ second
      rcases owned.sized k a first with ⟨queueA, seenA, _⟩
      rcases owned.sized l b second with ⟨queue, seen, sized⟩
      rcases transfer_from_eq husk seenA seen sized (fun same =>
        differ (owned.apart k l a b first second same))
        fresh with ⟨_, same, _⟩
      rw [same] at made
      cases made
      have start := ranged_start inRange.positive
      have filled : ObjectInRange { b with data := heap.fresh } := inRange
      apply all_after_update (all_after_update ih filled)
      rw [ObjectInRange, SemaTwoWay.resetNoLock]
      simp only [inRange.semaSize]
      exact start

/-! ## Cells that no call looks into -/

/-- Two queues that differ in cells that will be written before they are read. -/
inductive Alike : Circular Item → Circular Item → Prop where
  | same (queue : Circular Item) : Alike queue queue
  | single (reverse : Bool) (x y : Item) :
      Alike ⟨false, reverse, ⟨1, 1⟩, -1, 0, 1, [x]⟩ ⟨false, reverse, ⟨1, 1⟩, -1, 0, 1, [y]⟩
  | double (x y z w : Item) :
      Alike ⟨false, false, ⟨2, 2⟩, -1, 0, 2, [x, y]⟩ ⟨false, false, ⟨2, 2⟩, -1, 0, 2, [z, w]⟩
  | half (reverse : Bool) (value x y : Item) :
      Alike ⟨false, reverse, ⟨1, 2⟩, 0, 0, 2, [value, x]⟩ ⟨false, reverse, ⟨1, 2⟩, 0, 0,
        2, [value, y]⟩

/-- Both are undefined, or both give the same and are alike again. -/
def Agree {Given : Type*} (first second : Option (Circular Item × Given)) : Prop :=
  first = none ∧ second = none ∨
    ∃ queue other given, first = some (queue, given) ∧ second = some (other, given) ∧
    Alike queue other

variable {other : Circular Item}

theorem agree_same {Given : Type*} (given : Option (Circular Item × Given)) :
    Agree given given := by
  cases given with
  | none => exact .inl ⟨rfl, rfl⟩
  | some pair => exact .inr ⟨pair.1, pair.1, pair.2, rfl, rfl, .same pair.1⟩

theorem perform_alike (husk : Item → Item) (blank : Item) (op : Op Item)
    (alike : Alike queue other) :
    Agree (perform husk blank queue op) (perform husk blank other op) := by
  cases alike with
  | same => exact agree_same _
  | single reverse x y =>
      cases reverse <;> cases op <;>
        first
        | exact .inr ⟨_, _, _, rfl, rfl, .single _ _ _⟩
        | exact .inr ⟨_, _, _, rfl, rfl, .same _⟩
  | double x y z w =>
      cases op <;>
        first
        | exact .inr ⟨_, _, _, rfl, rfl, .double _ _ _ _⟩
        | exact .inr ⟨_, _, _, rfl, rfl, .half false _ _ _⟩
  | half reverse value x y =>
      cases reverse <;> cases op <;>
        first
        | exact .inr ⟨_, _, _, rfl, rfl, .half _ _ _ _⟩
        | exact .inr ⟨_, _, _, rfl, rfl, .double _ _ _ _⟩
        | exact .inr ⟨_, _, _, rfl, rfl, .same _⟩

theorem get_outside {n : Int} (outside : ¬ (n ≥ 0 ∧ n < queue.remain)) :
    queue.get n = some (false, none) :=
  if_neg outside

theorem set_outside {n : Int} (outside : ¬ (n ≥ 0 ∧ n < queue.remain)) (value : Item) :
    queue.set n value = some (queue, false) := if_neg outside

theorem zero_of_half {n : Int} (bounds : n ≥ 0 ∧ n < (2 : Int) - 1) : n = 0 := by omega

theorem get_alike (n : Int) (alike : Alike queue other) :
    Agree (use husk blank queue (.get n)) (use husk blank other (.get n)) := by
  cases alike with
  | same => exact agree_same _
  | single reverse x y =>
      have outside : ¬ (n ≥ 0 ∧ n < (1 : Int) - 1) := by omega
      rw [use, use, get_outside outside, get_outside outside]
      exact .inr ⟨_, _, _, rfl, rfl, .single reverse x y⟩
  | double x y z w =>
      have outside : ¬ (n ≥ 0 ∧ n < (2 : Int) - 2) := by omega
      rw [use, use, get_outside outside, get_outside outside]
      exact .inr ⟨_, _, _, rfl, rfl, .double x y z w⟩
  | half reverse value x y =>
      by_cases inside : n ≥ 0 ∧ n < (2 : Int) - 1
      · cases zero_of_half inside
        cases reverse with
        | true => exact .inl ⟨rfl, rfl⟩
        | false => exact .inr ⟨_, _, _, rfl, rfl, .half false value x y⟩
      · rw [use, use, get_outside inside, get_outside inside]
        exact .inr ⟨_, _, _, rfl, rfl, .half reverse value x y⟩

theorem set_alike (n : Int) (value : Item) (alike : Alike queue other) :
    Agree (queue.set n value) (other.set n value) := by
  cases alike with
  | same => exact agree_same _
  | single reverse x y =>
      have outside : ¬ (n ≥ 0 ∧ n < (1 : Int) - 1) := by omega
      rw [set_outside outside, set_outside outside]
      exact .inr ⟨_, _, _, rfl, rfl, .single reverse x y⟩
  | double x y z w =>
      have outside : ¬ (n ≥ 0 ∧ n < (2 : Int) - 2) := by omega
      rw [set_outside outside, set_outside outside]
      exact .inr ⟨_, _, _, rfl, rfl, .double x y z w⟩
  | half reverse held x y =>
      by_cases inside : n ≥ 0 ∧ n < (2 : Int) - 1
      · cases zero_of_half inside
        cases reverse with
        | true => exact .inl ⟨rfl, rfl⟩
        | false => exact .inr ⟨_, _, _, rfl, rfl, .half false value x y⟩
      · rw [set_outside inside, set_outside inside]
        exact .inr ⟨_, _, _, rfl, rfl, .half reverse held x y⟩

theorem iterate_alike (alike : Alike queue other) :
    Agree (use husk blank queue .iterate) (use husk blank other .iterate) := by
  cases alike with
  | same => exact agree_same _
  | single reverse x y => exact .inr ⟨_, _, _, rfl, rfl, .single reverse x y⟩
  | double x y z w => exact .inr ⟨_, _, _, rfl, rfl, .double x y z w⟩
  | half reverse value x y => exact .inr ⟨_, _, _, rfl, rfl, .half reverse value x y⟩

theorem agree_map {Given Told : Type*} {first second : Option (Circular Item × Given)}
    (agree : Agree first second) (told : Circular Item → Given → Circular Item × Told)
    (kept : ∀ queue given, (told queue given).1 = queue)
    (alone : ∀ queue other given, (told queue given).2 = (told other given).2) :
    Agree (first.map fun pair => told pair.1 pair.2) (second.map fun pair =>
      told pair.1 pair.2) := by
  rcases agree with ⟨none, noneOther⟩ | ⟨queue, other, given, here, there, alike⟩
  · rw [none, noneOther]
    exact .inl ⟨rfl, rfl⟩
  · rw [here, there]
    refine .inr ⟨queue, other, (told queue given).2, ?_, ?_, alike⟩
    · exact congrArg some (Prod.ext (kept queue given) rfl)
    · exact congrArg some (Prod.ext (kept other given) (alone other queue given))

theorem use_alike (husk : Item → Item) (blank : Item) (one : Use Item) (alike : Alike queue other) :
    Agree (use husk blank queue one) (use husk blank other one) := by
  cases one with
  | call op =>
      exact agree_map (perform_alike husk blank op alike) (fun queue answer =>
        (queue, Result.call answer))
        (fun _ _ => rfl) fun _ _ _ => rfl
  | timed op =>
      apply agree_map (perform_alike husk blank op alike) expired expired_queue
      intro queue other answer
      unfold expired
      split <;> rfl
  | get n => exact get_alike n alike
  | set n value =>
      exact agree_map (set_alike n value alike) (fun queue ret => (queue, Result.wrote ret value))
        (fun _ _ => rfl)
        fun _ _ _ => rfl
  | setMv n value =>
      let told : Circular Item → Bool → Circular Item × Result Item := fun queue ret =>
        (queue, .wrote ret (if ret then husk value else value))
      have agree := agree_map (set_alike n value alike) told (fun _ _ => rfl) fun _ _ _ => rfl
      simp only [use, Circular.setMv, Option.map_map]
      exact agree
  | iterate => exact iterate_alike alike

theorem results_alike (uses : List (Use Item)) (alike : Alike queue other) :
    results husk blank queue uses = results husk blank other uses := by
  induction uses generalizing queue other with
  | nil => rfl
  | cons one rest ih =>
      rcases use_alike husk blank one alike with
        ⟨none, noneOther⟩ | ⟨after, afterOther, result, here, there, alikeAfter⟩
      · rw [results, results, none, noneOther]
      · rw [results, results, here, there]
        simp only [Option.elim, ih alikeAfter]

theorem blind_results (inRange : InRange queue) (plain : queue.isObjects = false)
    (blind : Blind queue) {data otherData : List Item} (whole : (data.length : Int) = queue.size)
    (otherWhole : (otherData.length : Int) = queue.size) (uses : List (Use Item)) :
    results husk blank { queue with data } uses =
    results husk blank { queue with data := otherData } uses := by
  rcases queue with ⟨isObjects, reverse, ⟨cnt, semaSize⟩, nextIn, nextOut, size, old⟩
  have semaSame : semaSize = size := inRange.semaSize
  have empty : cnt = size := by
    have none := blind.1
    unfold Circular.remain SemaTwoWay.countNoBlock at none
    simp only at none
    omega
  rcases inRange.empty empty with ⟨atStart, atOut⟩
  simp only at plain atStart atOut whole otherWhole
  subst semaSame plain empty atStart atOut
  apply results_alike
  rcases blind.2 with single | ⟨double, forward⟩
  · simp only at single
    subst single
    rcases List.length_eq_one_iff.mp (by omega : data.length = 1) with ⟨x, rfl⟩
    rcases List.length_eq_one_iff.mp (by omega : otherData.length = 1) with ⟨y, rfl⟩
    exact .single reverse x y
  · simp only at double forward
    subst double forward
    rcases List.length_eq_two.mp (by omega : data.length = 2) with ⟨x, y, rfl⟩
    rcases List.length_eq_two.mp (by omega : otherData.length = 2) with ⟨z, w, rfl⟩
    exact .double x y z w

/-! ## Cells that a call shows -/

/-- Some calls show what a cell was made with. -/
def Reveals (husk : Item → Item) (blank : Item) (queue : Circular Item) : Prop :=
  ∃ (uses : List (Use Item)) (k : Int) (shown : Item → List (Result Item)), 0 ≤ k ∧ k < queue.size ∧
    Function.Injective shown ∧ ∀ data : List Item, (data.length : Int) = queue.size →
      results husk blank { queue with data } uses = (cellAt data k).map shown

theorem reveals_of_filled (inRange : InRange queue) (filled : queue.remain > 0) :
    Reveals husk blank queue := by
  have out := inRange.out
  let shown : Item → List (Result Item) := fun value => [.call (.call (.returns true (some value)))]
  refine ⟨[.call .remove], queue.nextOut, shown, out.1, out.2, ?_, ?_⟩
  · intro first second same
    simpa [shown] using same
  · intro data whole
    rcases @cell_exists _ data queue.nextOut out.1 (by omega) with ⟨value, here⟩
    rcases @set_cell_exists _ data queue.nextOut out.1 (by omega) value with ⟨cells, set⟩
    have some_ : ({ queue with data } : Circular Item).remain > 0 := filled
    simp [results, use, perform, Circular.remove, Circular.removeBy, some_, Circular.removeNow,
      Circular.takeOut, here,
      set, ofRegion, Result.stuck, Answer.stuck, shown]

theorem results_clear (plain : queue.isObjects = false) (semaSize : queue.sema.size = queue.size)
    (rest : List (Use Item)) :
    results husk blank queue (.call .clear :: rest) =
      (results husk blank ⟨false, false, ⟨queue.size, queue.size⟩, -1, 0, queue.size,
        queue.data⟩ rest).map
        fun later => .call .done :: later := by
  have used : use husk blank queue (.call .clear) =
      some (⟨false, false, ⟨queue.size, queue.size⟩, -1, 0, queue.size, queue.data⟩,
        .call .done) := by
    simp [use, perform, Circular.clear, Circular.restart, SemaTwoWay.resetNoLock, plain, semaSize]
  rw [results, used]
  rfl

/-- With three cells or more, `get` finds after an addition at each end a cell that was not
written. -/
theorem reveals_of_large (inRange : InRange queue) (plain : queue.isObjects = false)
    (large : 3 ≤ queue.size) :
    Reveals husk blank queue := by
  let shown : Item → List (Result Item) := fun value =>
    [.call .done, .call (.call (.returns true (some blank))), .call .done,
      .call (.call (.returns true (some blank))), .got true (some value)]
  refine ⟨[.call .clear, .call (.add blank), .call .reverse, .call (.add blank), .get 0],
    queue.size - 2, shown,
    by omega, by omega, ?_, ?_⟩
  · intro first second same
    simpa [shown] using same
  · intro data whole
    rcases @set_cell_exists _ data 0 (Int.le_refl 0) (by omega) blank with ⟨cells, set⟩
    have length := set_cell_length set
    rcases @set_cell_exists _ cells (queue.size - 1) (by omega)
      (by omega) blank with ⟨both, setAgain⟩
    have goesTo : (Circular.mk false false ⟨queue.size,
        queue.size⟩ (-1) 0 queue.size data).nextNextIn = 0 := by
      simp [Circular.nextNextIn]
    have then_ : (Circular.mk false (!false) ⟨queue.size - 1,
        queue.size⟩ 0 0 queue.size cells).nextNextIn =
        queue.size - 1 := rfl
    have place : (Circular.mk false (!false) ⟨queue.size - 1 - 1,
        queue.size⟩ (queue.size - 1) 0 queue.size
        both).position (0 : Int).toNat = queue.size - 2 := by
      simp only [Circular.position, Bool.not_false, if_true, Int.toNat_zero, Circular.walkTo]
      split_ifs <;> omega
    have here : cellAt both (queue.size - 2) = cellAt data (queue.size - 2) := by
      rw [set_cell_read setAgain, if_neg (by omega), set_cell_read set, if_neg (by omega)]
    have cleared := @results_clear _ husk blank { queue with data } plain inRange.semaSize
    rw [cleared, results_add (by omega) goesTo set, results_reverse (by omega),
      results_add (by omega) then_ setAgain,
      results_get (Int.le_refl 0) (by omega), place, here]
    simp only [Option.map_map]
    rfl

/-- An empty queue of two cells in the other direction puts an element into the second and takes it
from the first. -/
theorem reveals_of_backward (data : List Item) :
    Reveals husk blank ⟨false, true, ⟨2, 2⟩, -1, 0, 2, data⟩ := by
  let shown : Item → List (Result Item) := fun value =>
    [.call (.call (.returns true (some blank))), .call (.call (.returns true (some value)))]
  refine ⟨[.call (.add blank), .call .remove], 0, shown, Int.le_refl 0,
    Int.ofNat_lt.mpr Nat.zero_lt_two, ?_, ?_⟩
  · intro first second same
    simpa [shown] using same
  · intro cells whole
    simp only at whole
    rcases List.length_eq_two.mp (by omega : cells.length = 2) with ⟨x, y, rfl⟩
    rfl

theorem reveals_of_not_blind (inRange : InRange queue) (plain : queue.isObjects = false)
    (seen : ¬ Blind queue) :
    Reveals husk blank queue := by
  by_cases filled : queue.remain > 0
  · exact reveals_of_filled inRange filled
  · by_cases large : 3 ≤ queue.size
    · exact reveals_of_large inRange plain large
    · rcases queue with ⟨isObjects, reverse, ⟨cnt, semaSize⟩, nextIn, nextOut, size, data⟩
      have semaSame : semaSize = size := inRange.semaSize
      have positive : 1 ≤ size := inRange.positive
      have count : cnt ≤ size := inRange.count.2
      have none : size - cnt ≤ 0 := Int.not_lt.mp filled
      have empty : cnt = size := by omega
      rcases inRange.empty empty with ⟨atStart, atOut⟩
      have notSingle : size ≠ 1 := fun single => seen ⟨Int.sub_eq_zero.mpr empty.symm, .inl single⟩
      have double : size = 2 := by
        simp only at large
        omega
      have backward : reverse = true := by
        by_contra forward
        exact seen ⟨Int.sub_eq_zero.mpr empty.symm,
          .inr ⟨double, Bool.eq_false_of_not_eq_true forward⟩⟩
      simp only at plain atStart atOut
      subst empty semaSame double plain atStart atOut backward
      exact reveals_of_backward data

theorem memory_differs (reveals : Reveals husk blank queue)
    (whole : (queue.data.length : Int) = queue.size) (several : ¬ Subsingleton Item) :
      ∃ (fresh : List Item) (uses : List (Use Item)),
      fresh.length = queue.data.length ∧
      results husk blank { queue with data := fresh } uses ≠ results husk blank queue uses := by
  rcases reveals with ⟨uses, k, shown, low, high, injective, shows_⟩
  rcases @cell_exists _ queue.data k low (by omega) with ⟨old, here⟩
  rw [not_subsingleton_iff_nontrivial] at several
  rcases exists_ne old with ⟨value, different⟩
  have length : (List.replicate queue.data.length value).length = queue.data.length :=
    List.length_replicate
  have there : cellAt (List.replicate queue.data.length value) k = some value := by
    rw [cellAt, if_pos low]
    exact List.getElem?_replicate_of_lt (by omega)
  have shownFresh := shows_ (List.replicate queue.data.length value) (by omega)
  have shownOld : results husk blank queue uses = (cellAt queue.data k).map shown :=
    shows_ queue.data whole
  refine ⟨List.replicate queue.data.length value, uses, length, ?_⟩
  rw [shownFresh, shownOld, there, here]
  intro same
  exact different (injective (Option.some.inj same))

/-! ## The clone -/

theorem later_frame {before now : Store (List Item) × SafeCircular}
    (later : Later husk blank before now) {other : SafeCircular}
    (apart : before.2.data ≠ other.data) :
    view now.1 other = view before.1 other ∧ now.2.data = before.2.data := by
  induction later with
  | refl => exact ⟨rfl, rfl⟩
  | tail _ step ih =>
      rcases ih with ⟨same, sameData⟩
      rcases step with ⟨one, result, used⟩
      rcases use_frame (sameData ▸ apart) used with ⟨kept, number⟩
      exact ⟨(view_congr kept).trans same, number.trans sameData⟩

theorem cloned_of_results {number : Nat} {data : List Item} (seen : view heap b = some queue)
    (seenClone : view heap { b with data := number } = some { queue with data })
    (apart : number ≠ b.data) (stored : ∀ items, Represents queue items →
      Represents { queue with data } items)
    (same : ∀ uses, results husk blank { queue with data } uses = results husk blank queue uses) :
    Cloned husk blank queue b heap { b with data := number } where
  source := seen
  target := ⟨_, seenClone, rfl, rfl, rfl, stored⟩
  enabled := rfl
  answers uses := by
    rw [object_results_eq seenClone, object_results_eq seen]
    exact same uses
  sourceKept after object later := (later_frame later apart).1.trans seen
  targetKept after object later := (later_frame later apart.symm).1

theorem represents_blind (blind : Blind queue) {data : List Item}
    (length : data.length = queue.data.length) {items : List Item} (held : Represents queue items) :
    Represents { queue with data } items := by
  have none : items = [] := by
    have count := remain_eq held
    rw [blind.1] at count
    exact List.length_eq_zero_iff.mp (by omega)
  subst none
  exact
    { positive := held.positive
      whole := (congrArg Int.ofNat length).trans held.whole
      semaSize := held.semaSize
      count := held.count
      laid := laid_nil _ _ _
      outRange := held.outRange
      inRange := held.inRange
      started := held.started
      behind := held.behind }

/-- `a.cloneFrom(b)` makes an independent equal queue, whatever is in the new memory, when the
elements are objects; otherwise only of a queue that shows none of its cells. -/
theorem cloned_iff (reached : ReachedObjects husk blank heap objects) (differ : i ≠ j)
    (first : objects i = some a) (second : objects j = some b) :
    ∃ queue, view heap b = some queue ∧
      ((∀ fresh : List Item, (fresh.length : Int) = b.size → ∃ after cloned,
          cloneFrom fresh heap a b = some (after, cloned) ∧
          Cloned husk blank queue b after cloned) ↔
        b.isObjects = true ∨ Subsingleton Item ∨ Blind queue) := by
  have owned := owned_of_reached reached
  rcases owned.sized i a first with ⟨queueA, seenA, _⟩
  rcases owned.sized j b second with ⟨queue, seen, sized⟩
  have apart : a.data ≠ b.data := fun same => differ (owned.apart i j a b first second same)
  have bound : heap.fresh ≠ b.data := Nat.ne_of_gt (owned_bound owned second)
  have inRange := (in_range_of_view seen).mp (reached_in_range reached j b second)
  have objects_ : queue.isObjects = b.isObjects := (view_some seen).2.1
  have whole := sized_view seen sized
  have made := clone_from_eq seenA seen sized apart
  have seenAfter : ∀ cells, view ((heap.giveUp a.data).push cells) b = some queue := fun cells =>
    (view_congr (read_replaced owned first differ.symm second)).trans seen
  have seenClone : ∀ cells, view ((heap.giveUp a.data).push cells) { b with data := heap.fresh } =
      some { queue with data := cells } := fun cells =>
      view_moved seen (read_made heap a.data cells)
  have copied : ∀ cells, cells = queue.data →
      Cloned husk blank queue b ((heap.giveUp a.data).push cells)
      { b with data := heap.fresh } := by
    intro cells same
    subst same
    exact cloned_of_results (seenAfter _) (seenClone _) bound (fun _ held => held) fun _ => rfl
  refine ⟨queue, seen, ?_⟩
  constructor
  · intro all
    by_contra neither
    rw [not_or, not_or] at neither
    rcases neither with ⟨notObjects, notSubsingleton, notBlind⟩
    have plain : queue.isObjects = false := objects_.trans (Bool.eq_false_of_not_eq_true notObjects)
    have reveals : Reveals husk blank queue := reveals_of_not_blind inRange plain notBlind
    rcases memory_differs reveals sized.whole notSubsingleton with ⟨fresh, uses, length, differs⟩
    rcases all fresh (by omega) with ⟨after, cloned, same, clones⟩
    rw [made] at same
    cases same
    have answers := clones.answers uses
    rw [object_results_eq (seenClone _), object_results_eq (seenAfter _), cellsFor,
      if_neg notObjects] at answers
    exact differs answers
  · intro cases_ fresh freshWhole
    refine ⟨_, _, made fresh, ?_⟩
    by_cases isObjects : b.isObjects = true
    · exact copied _ (by rw [cellsFor, if_pos isObjects])
    · rw [cellsFor, if_neg isObjects]
      have length : fresh.length = queue.data.length := by omega
      rcases cases_ with isObjects_ | subsingleton | blind
      · exact absurd isObjects_ isObjects
      · apply copied
        exact List.ext_getElem length fun _ _ _ => Subsingleton.elim _ _
      · have plain : queue.isObjects = false :=
          objects_.trans (Bool.eq_false_of_not_eq_true isObjects)
        exact cloned_of_results (seenAfter _) (seenClone _) bound (fun _ held =>
          represents_blind blind length held)
          (blind_results inRange plain blind (by rw [length]; exact sized.whole) sized.whole)

private def empty (isObjects : Bool) : SafeCircular := ⟨isObjects, false, ⟨1, 1⟩, true, -1, 0, 1, 0⟩
private def single (isObjects : Bool) : SafeCircular := ⟨isObjects, false, ⟨1, 2⟩, true, 0, 0, 2, 1⟩
private def memory : Store (List Nat) := ⟨[some [0], some [7, 0]]⟩

private theorem single_reached (isObjects : Bool) : ∃ objects, ReachedObjects id 0 memory objects ∧
    objects 0 = some (empty isObjects) ∧ objects 1 = some (single isObjects) := by
  have first : ReachedObjects id 0 ⟨[some [0]]⟩ (Function.update (fun _ => none) 0
      (some (empty isObjects))) :=
    @ReachedObjects.new Nat _ _ _ _ 0 1 [0] .start rfl (by decide) isObjects rfl
  have second := @ReachedObjects.new Nat _ _ _ _ 1 2 [0, 0] first rfl (by decide) isObjects rfl
  have third := @ReachedObjects.use _ _ _ _ memory _ 1 (.call (.add 7)) _
    (single isObjects) _ second rfl rfl
  exact ⟨_, third, rfl, rfl⟩

theorem cloned_iff_objects : ∃ (objects : Nat → Option SafeCircular) (queue : Circular Nat),
    ReachedObjects id 0 memory objects ∧ objects 0 = some (empty true) ∧
      objects 1 = some (single true) ∧
      queue.remain = 1 ∧ ∃ after cloned, cloneFrom [5, 5] memory (empty true) (single true) =
        some (after, cloned) ∧
        Cloned id 0 queue (single true) after cloned := by
  rcases single_reached true with ⟨objects, reached, first, second⟩
  rcases cloned_iff reached Nat.zero_ne_one first second with ⟨queue, seen, iff⟩
  rcases iff.mpr (.inl rfl) [5, 5] rfl with ⟨after, cloned, made, clones⟩
  refine ⟨objects, queue, reached, first, second, ?_, after, cloned, made, clones⟩
  cases seen
  rfl

/-- The elements are numbers: a removal from the clone gives a 5 that was in the memory, and not the
7. -/
theorem clone_of_numbers_shows_memory : ¬ ∀ (heap after : Store (List Nat))
    (objects : Nat → Option SafeCircular) (a b cloned : SafeCircular) (fresh : List Nat)
      (queue : Circular Nat), ReachedObjects id 0 heap objects →
      objects 0 = some a → objects 1 = some b → view heap b = some queue →
      (fresh.length : Int) = b.size →
      cloneFrom fresh heap a b = some (after, cloned) → Cloned id 0 queue b after cloned := by
  intro claimed
  rcases single_reached false with ⟨objects, reached, first, second⟩
  have clones := claimed memory ⟨[none, some [7, 0], some [5, 5]]⟩ objects (empty false)
    (single false)
    { single false with data := 2 } [5, 5] _ reached first second rfl rfl rfl
  exact absurd (clones.answers [.call .remove]) (by decide)

end TWlib.CircularClone
