import TWlib.CircularEmptied

/-!
# Moving a whole circular queue

`transferFrom` gives one queue everything of another and empties that one, but does not
reset its `_reverse`. A source that was reversed then takes the first element at the
end of its array, while it looks for it at the beginning. Nor does it make the cells of
the source anew: what the moves left there is shown where a new queue shows `T()`.
-/

namespace TWlib.CircularTransfer

open TWlib.Lib.CellStore TWlib.Lib.RingSlots TWlib.CircularBuffer TWlib.CircularSequential
  TWlib.CircularArray
  TWlib.CircularIterator TWlib.CircularObjects TWlib.CircularEmptied

set_option autoImplicit false

variable {Item : Type*} {husk : Item → Item} {blank : Item}

/-! ## Any number of queues -/

/-- What a thread can make of queues that it constructs, uses, switches, clones and transfers. -/
inductive ReachedObjects (husk : Item → Item) (blank : Item) :
    Store (List Item) → (Nat → Option SafeCircular) → Prop where
  | start : ReachedObjects husk blank Store.empty fun _ => none
  | new {heap : Store (List Item)} {objects : Nat → Option SafeCircular} {i : Nat} {size : Int}
      {data : List Item}
      (reached : ReachedObjects husk blank heap objects) (unused : objects i = none)
      (positive : 1 ≤ size)
      (isObjects : Bool) (whole : (data.length : Int) = size) :
      ReachedObjects husk blank (heap.push data) (Function.update objects i
        (some { isObjects, reverse := false, sema := ⟨size, size⟩, enabled := true, nextIn := -1,
                nextOut := 0, size,
                data := heap.fresh }))
  | use {heap after : Store (List Item)} {objects : Nat →
      Option SafeCircular} {i : Nat} {one : Use Item}
      {object objectAfter : SafeCircular} {result : Result Item}
      (reached : ReachedObjects husk blank heap objects)
      (found : objects i = some object)
      (used : useObject husk blank heap object one = some (after, objectAfter, result)) :
      ReachedObjects husk blank after (Function.update objects i (some objectAfter))
  | switch {heap : Store (List Item)} {objects : Nat →
      Option SafeCircular} {i : Nat} {object : SafeCircular}
      (enabled : Bool) (reached : ReachedObjects husk blank heap objects)
      (found : objects i = some object) :
      ReachedObjects husk blank heap (Function.update objects i (some { object with enabled }))
  | clone {heap after : Store (List Item)} {objects : Nat →
      Option SafeCircular} {i j : Nat} {fresh : List Item}
      {a b cloned : SafeCircular} (reached : ReachedObjects husk blank heap objects)
      (differ : i ≠ j)
      (first : objects i = some a) (second : objects j = some b)
      (whole : (fresh.length : Int) = b.size)
      (made : cloneFrom fresh heap a b = some (after, cloned)) :
      ReachedObjects husk blank after (Function.update objects i (some cloned))
  | transfer {heap after : Store (List Item)} {objects : Nat →
      Option SafeCircular} {i j : Nat} {fresh : List Item}
      {a b filled emptied : SafeCircular} (reached : ReachedObjects husk blank heap objects)
      (differ : i ≠ j)
      (first : objects i = some a) (second : objects j = some b)
      (whole : (fresh.length : Int) = b.size)
      (made : transferFrom husk fresh heap a b = some (after, filled, emptied)) :
      ReachedObjects husk blank after (Function.update (Function.update objects i (some filled)) j
        (some emptied))

/-- Every object has an array of the right size, and no two have the same. -/
structure Owned (heap : Store (List Item)) (objects : Nat → Option SafeCircular) : Prop where
  sized : ∀ i object, objects i = some object → ∃ queue, view heap object = some queue ∧ Sized queue
  apart : ∀ i j a b, objects i = some a → objects j = some b → a.data = b.data → i = j

variable {heap after : Store (List Item)} {objects : Nat → Option SafeCircular} {i j : Nat}
  {a b object : SafeCircular} {queue : Circular Item} {fresh : List Item}

theorem owned_bound (owned : Owned heap objects) (found : objects i = some object) :
    object.data < heap.fresh := by
  rcases owned.sized i object found with ⟨queue, seen, _⟩
  exact read_bound (view_some seen).1

theorem owned_update (owned : Owned heap objects) (own : ∃ queue, view after object = some queue ∧
    Sized queue)
    (number : ∀ j other, j ≠ i → objects j = some other → object.data ≠ other.data)
    (others : ∀ j other, j ≠ i → objects j = some other →
      after.read other.data = heap.read other.data) :
    Owned after (Function.update objects i (some object)) where
  sized j other found := by
    by_cases same : j = i
    · subst same
      rw [Function.update_self] at found
      cases found
      exact own
    · rw [Function.update_of_ne same] at found
      rw [view_congr (others j other same found)]
      exact owned.sized j other found
  apart j k left right first second same := by
    by_cases atFirst : j = i
    · by_cases atSecond : k = i
      · rw [atFirst, atSecond]
      · subst atFirst
        rw [Function.update_self] at first
        rw [Function.update_of_ne atSecond] at second
        cases first
        exact absurd same (number k right atSecond second)
    · by_cases atSecond : k = i
      · subst atSecond
        rw [Function.update_self] at second
        rw [Function.update_of_ne atFirst] at first
        cases second
        exact absurd same.symm (number j left atFirst first)
      · rw [Function.update_of_ne atFirst] at first
        rw [Function.update_of_ne atSecond] at second
        exact owned.apart j k left right first second same

theorem all_after_update {property : SafeCircular → Prop}
    (old : ∀ i object, objects i = some object → property object) (new : property object) :
    ∀ j found, Function.update objects i (some object) j = some found → property found := by
  intro j found there
  by_cases same : j = i
  · subst same
    rw [Function.update_self] at there
    cases there
    exact new
  · rw [Function.update_of_ne same] at there
    exact old j found there

theorem init_cells_eq {size : Int} {source : List Item} (whole : (source.length : Int) = size) :
    initCells size source = some source := by
  rw [initCells, if_pos (Int.le_of_eq whole.symm), List.take_of_length_le (by omega)]

theorem move_cells_eq (husk : Item → Item) {size : Int} {source : List Item}
    (whole : (source.length : Int) = size) :
    moveCells husk size source = source.map husk := by
  rw [moveCells, List.take_of_length_le (by omega), List.drop_of_length_le (by omega),
    List.append_nil]

def cellsFor (isObjects : Bool) (source fresh : List Item) : List Item :=
  if isObjects then source else fresh

theorem clone_from_eq {queueA : Circular Item} (seenA : view heap a = some queueA)
    (seen : view heap b = some queue) (sized : Sized queue) (apart : a.data ≠ b.data)
    (fresh : List Item) :
    cloneFrom fresh heap a b = some ((heap.giveUp a.data).push
      (cellsFor b.isObjects queue.data fresh),
      { b with data := heap.fresh }) := by
  have whole := sized.whole
  rw [(view_some seen).2.2.2.2.2.2] at whole
  have source : (heap.giveUp a.data).read b.data = some queue.data := by
    rw [read_give_up, if_neg apart.symm]
    exact (view_some seen).1
  unfold cloneFrom cellsFor
  cases objects : b.isObjects with
  | true =>
      simp [(view_some seenA).1, source, init_cells_eq whole]
  | false =>
      simp [(view_some seenA).1]

def cellsLeft (husk : Item → Item) (isObjects : Bool) (source : List Item) : List Item :=
  if isObjects then source.map husk else source

theorem transfer_from_eq (husk : Item → Item) {queueA : Circular Item}
    (seenA : view heap a = some queueA) (seen : view heap b = some queue) (sized : Sized queue)
    (apart : a.data ≠ b.data) (fresh : List Item) :
    ∃ after, transferFrom husk fresh heap a b = some (after, { b with data := heap.fresh },
        { b with sema := b.sema.resetNoLock, nextIn := -1, nextOut := 0 }) ∧
      ∀ cell, after.read cell = if cell = b.data then some (cellsLeft husk b.isObjects queue.data)
        else ((heap.giveUp a.data).push (cellsFor b.isObjects queue.data fresh)).read cell := by
  have whole := sized.whole
  rw [(view_some seen).2.2.2.2.2.2] at whole
  have source : (heap.giveUp a.data).read b.data = some queue.data := by
    rw [read_give_up, if_neg apart.symm]
    exact (view_some seen).1
  unfold transferFrom
  cases objects : b.isObjects with
  | true =>
      refine ⟨((heap.giveUp a.data).push queue.data).write b.data (queue.data.map husk), ?_,
        fun cell => ?_⟩
      · simp [(view_some seenA).1, source, init_cells_eq whole, move_cells_eq husk whole]
      · exact read_write (read_push_of_present source queue.data) _ cell
  | false =>
      refine ⟨(heap.giveUp a.data).push fresh, ?_, fun cell => ?_⟩
      · simp [(view_some seenA).1]
      · split_ifs with same
        · rw [same]
          exact read_push_of_present source fresh
        · rfl

theorem view_moved {data : List Item} {cell : Nat} (seen : view heap b = some queue)
    (read : after.read cell = some data) :
    view after { b with data := cell } = some { queue with data } := by
  rcases Option.map_eq_some_iff.mp seen with ⟨old, _, same⟩
  cases same
  rw [view]
  change (after.read cell).map _ = _
  rw [read]
  rfl

theorem sized_moved (sized : Sized queue) {data : List Item}
    (length : data.length = queue.data.length) :
    Sized { queue with data } where
  positive := sized.positive
  whole := (congrArg Int.ofNat length).trans sized.whole
  semaSize := sized.semaSize

theorem sized_view (seen : view heap b = some queue) (sized : Sized queue) :
    (queue.data.length : Int) = b.size := by
  rw [← (view_some seen).2.2.2.2.2.2]
  exact sized.whole

theorem read_replaced (owned : Owned heap objects) (first : objects i = some a) {cells : List Item}
    {other : SafeCircular}
    (differ : j ≠ i) (found : objects j = some other) :
    ((heap.giveUp a.data).push cells).read other.data = heap.read other.data := by
  have bound := owned_bound owned found
  have notOld : other.data ≠ a.data := fun same => differ (owned.apart j i other a found first same)
  rw [read_push, fresh_give_up, if_neg (Nat.ne_of_lt bound), read_give_up, if_neg notOld]

theorem read_made (heap : Store (List Item)) (cell : Nat) (cells : List Item) :
    ((heap.giveUp cell).push cells).read heap.fresh = some cells := by
  rw [read_push, fresh_give_up, if_pos rfl]

theorem owned_clone (owned : Owned heap objects) (differ : i ≠ j) (first : objects i = some a)
    (second : objects j = some b) (whole : (fresh.length : Int) = b.size) {cloned : SafeCircular}
    (made : cloneFrom fresh heap a b = some (after, cloned)) :
    Owned after (Function.update objects i (some cloned)) := by
  rcases owned.sized i a first with ⟨queueA, seenA, _⟩
  rcases owned.sized j b second with ⟨queue, seen, sized⟩
  have apart : a.data ≠ b.data := fun same => differ (owned.apart i j a b first second same)
  rw [clone_from_eq seenA seen sized apart fresh] at made
  cases made
  have size := sized_view seen sized
  have length : (cellsFor b.isObjects queue.data fresh).length = queue.data.length := by
    unfold cellsFor
    split_ifs
    · rfl
    · omega
  apply owned_update owned
  · exact ⟨_, view_moved seen (read_made heap a.data _), sized_moved sized length⟩
  · intro k other _ found same
    exact absurd same.symm (Nat.ne_of_lt (owned_bound owned found))
  · intro k other other_ found
    exact read_replaced owned first other_ found

theorem view_emptied {data : List Item} (seen : view heap b = some queue)
    (read : after.read b.data = some data) :
    view after { b with sema := b.sema.resetNoLock, nextIn := -1, nextOut := 0 } =
      some { queue with sema := queue.sema.resetNoLock, nextIn := -1, nextOut := 0, data } := by
  rcases Option.map_eq_some_iff.mp seen with ⟨old, _, same⟩
  cases same
  rw [view]
  change (after.read b.data).map _ = _
  rw [read]
  rfl

theorem cells_left_length (husk : Item → Item) (isObjects : Bool) (source : List Item) :
    (cellsLeft husk isObjects source).length = source.length := by
  unfold cellsLeft
  split_ifs
  · exact List.length_map husk
  · rfl

theorem owned_transfer (owned : Owned heap objects) (differ : i ≠ j) (first : objects i = some a)
    (second : objects j = some b) (whole : (fresh.length : Int) = b.size)
    {filled emptied : SafeCircular} (made : transferFrom husk fresh heap a b = some (after,
      filled, emptied)) :
    Owned after (Function.update (Function.update objects i (some filled)) j (some emptied)) := by
  rcases owned.sized i a first with ⟨queueA, seenA, _⟩
  rcases owned.sized j b second with ⟨queue, seen, sized⟩
  have apart : a.data ≠ b.data := fun same => differ (owned.apart i j a b first second same)
  have halfway := owned_clone owned differ first second whole
    (clone_from_eq seenA seen sized apart fresh)
  have still : (Function.update objects i (some { b with data := heap.fresh })) j = some b := by
    rw [Function.update_of_ne differ.symm]
    exact second
  rcases transfer_from_eq husk seenA seen sized apart fresh with ⟨heapAfter, same, reads⟩
  rw [same] at made
  cases made
  have here := reads b.data
  rw [if_pos rfl] at here
  have distinct : ∀ k other, k ≠ j →
      (Function.update objects i (some { b with data := heap.fresh })) k = some other →
      b.data ≠ other.data := fun k other away found equal =>
      away (halfway.apart k j other b found still equal.symm)
  apply owned_update halfway
  · refine ⟨_, view_emptied seen here, sized.positive, ?_, sized.semaSize⟩
    exact (congrArg Int.ofNat (cells_left_length husk b.isObjects queue.data)).trans sized.whole
  · exact distinct
  · intro k other away found
    rw [reads, if_neg (distinct k other away found).symm]

theorem owned_become (owned : Owned heap objects) (found : objects i = some object)
    (seen : view heap object = some queue) {queueAfter : Circular Item} (sized : Sized queueAfter)
    (enabled : Bool) :
    Owned (heap.write object.data queueAfter.data)
      (Function.update objects i (some (object.become queueAfter enabled))) := by
  have away : ∀ k other, k ≠ i → objects k = some other → object.data ≠ other.data :=
    fun k other differ there same => differ (owned.apart k i other object there found same.symm)
  apply owned_update owned
  · exact ⟨queueAfter, view_become seen queueAfter enabled, sized⟩
  · exact away
  · intro k other differ there
    rw [read_write (view_some seen).1, if_neg (away k other differ there).symm]

theorem owned_use (owned : Owned heap objects) {one : Use Item} {objectAfter : SafeCircular}
    {result : Result Item} (found : objects i = some object)
    (used : useObject husk blank heap object one = some (after, objectAfter, result)) :
    Owned after (Function.update objects i (some objectAfter)) := by
  rcases owned.sized i object found with ⟨queue, seen, sized⟩
  rcases Option.bind_eq_some_iff.mp used with ⟨known, same, later⟩
  cases Option.some.inj (seen.symm.trans same)
  rcases Option.bind_eq_some_iff.mp later with ⟨⟨queueAfter, given⟩, usedQueue, done⟩
  cases done
  exact owned_become owned found seen (sized_of_same sized (change_sizes (use_change usedQueue))) _

theorem owned_start : Owned (Store.empty : Store (List Item)) fun _ => none where
  sized _ object found := absurd found (Option.some_ne_none object).symm
  apart _ _ a _ first := absurd first (Option.some_ne_none a).symm

theorem owned_new (owned : Owned heap objects) (i : Nat) {size : Int} {data : List Item}
    (positive : 1 ≤ size) (isObjects : Bool) (whole : (data.length : Int) = size) :
    Owned (heap.push data) (Function.update objects i
      (some { isObjects, reverse := false, sema := ⟨size, size⟩, enabled := true, nextIn := -1,
              nextOut := 0, size,
              data := heap.fresh })) := by
  apply owned_update owned
  · refine ⟨Circular.new size isObjects data, ?_, positive, whole, rfl⟩
    simp [view, read_push, Circular.new]
  · intro k other _ found same
    exact absurd same.symm (Nat.ne_of_lt (owned_bound owned found))
  · intro k other _ found
    rw [read_push, if_neg (Nat.ne_of_lt (owned_bound owned found))]

theorem owned_switch (owned : Owned heap objects) (found : objects i = some object)
    (enabled : Bool) :
    Owned heap (Function.update objects i (some { object with enabled })) := by
  apply owned_update owned
  · exact owned.sized i object found
  · intro k other differ there same
    exact differ (owned.apart k i other object there found same.symm)
  · intro k other _ there
    rfl

theorem owned_of_reached (reached : ReachedObjects husk blank heap objects) :
    Owned heap objects := by
  induction reached with
  | start => exact owned_start
  | new reached unused positive isObjects whole ih => exact owned_new ih _ positive isObjects whole
  | use reached found used ih => exact owned_use ih found used
  | switch enabled reached found ih => exact owned_switch ih found enabled
  | clone reached differ first second whole made ih =>
      exact owned_clone ih differ first second whole made
  | transfer reached differ first second whole made ih =>
      exact owned_transfer ih differ first second whole made

/-! ## What is stated -/

/-- After `a.transferFrom(b)`, `queue` being what `b` was. -/
structure Transferred (husk : Item → Item) (blank : Item) (queue : Circular Item) (b : SafeCircular)
    (after : Store (List Item)) (filled emptied : SafeCircular) : Prop where
  target : view after filled = some queue
  enabled : filled.enabled = b.enabled
  answers : ∀ uses, objectResults husk blank after filled uses = results husk blank queue uses
  source : ∃ left, view after emptied = some left ∧ left.size = queue.size ∧ LikeNew husk blank left
  apart : filled.data ≠ emptied.data

theorem cell_left (husk : Item → Item) (source : List Item) (cell : Int) :
    cellAt (source.map husk) cell = (cellAt source cell).map husk := by
  unfold cellAt
  split_ifs
  · rw [List.getElem?_map]
  · rfl

/-- `a.transferFrom(b)` moves the whole queue. It leaves a new one when `b` was not reversed and has
at most two cells, or the moves leave `T()` in all of them but the first, and in no other case. -/
theorem transferred_iff (reached : ReachedObjects husk blank heap objects) (differ : i ≠ j)
    (first : objects i = some a) (second : objects j = some b) (isObjects : b.isObjects = true)
    (fresh : List Item) :
    ∃ after filled emptied queue, view heap b = some queue ∧
      transferFrom husk fresh heap a b = some (after, filled, emptied) ∧
      (Transferred husk blank queue b after filled emptied ↔ b.reverse = false ∧
        (b.size ≤ 2 ∨ ∀ k, 1 ≤ k → k < b.size → (cellAt queue.data k).map husk = some blank)) := by
  have owned := owned_of_reached reached
  rcases owned.sized i a first with ⟨queueA, seenA, _⟩
  rcases owned.sized j b second with ⟨queue, seen, sized⟩
  have apart : a.data ≠ b.data := fun same => differ (owned.apart i j a b first second same)
  have bound : b.data < heap.fresh := owned_bound owned second
  have direction : queue.reverse = b.reverse := (view_some seen).2.2.1
  have size : queue.size = b.size := (view_some seen).2.2.2.2.2.2
  have object : queue.isObjects = true := (view_some seen).2.1.trans isObjects
  rcases transfer_from_eq husk seenA seen sized apart fresh with ⟨after, made, reads⟩
  have target := reads heap.fresh
  rw [if_neg (Nat.ne_of_gt bound), read_made, cellsFor, if_pos isObjects] at target
  have source := reads b.data
  rw [if_pos rfl, cellsLeft, if_pos isObjects] at source
  have seenFilled : view after { b with data := heap.fresh } = some queue := view_moved seen target
  have seenEmptied := view_emptied seen source
  have whole : ((queue.data.map husk).length : Int) = queue.size := by
    rw [List.length_map]
    exact sized.whole
  have like := @like_new_iff _ husk blank queue.size _ queue.reverse sized.positive whole
  simp only [cell_left, direction, size] at like
  have left : ({ queue with sema := queue.sema.resetNoLock, nextIn := -1, nextOut := 0,
                            data := queue.data.map husk } :
      Circular Item) = ⟨true, b.reverse, ⟨b.size, b.size⟩, -1, 0, b.size, queue.data.map husk⟩ := by
    simp [SemaTwoWay.resetNoLock, sized.semaSize, object, direction, size]
  rw [left] at seenEmptied
  refine ⟨after, _, _, queue, seen, made, ?_⟩
  rw [← like]
  constructor
  · intro transferred
    rcases transferred.source with ⟨left, seenLeft, _, new⟩
    rw [seenEmptied] at seenLeft
    cases seenLeft
    exact new
  · intro new
    exact
      { target := seenFilled
        enabled := rfl
        answers := fun uses => object_results_eq seenFilled uses
        source := ⟨_, seenEmptied, size.symm, new⟩
        apart := Nat.ne_of_gt bound }

/-- An empty queue of one cell, and one of three cells that holds two elements. -/
private def target : SafeCircular := ⟨true, false, ⟨1, 1⟩, true, -1, 0, 1, 0⟩
private def source : SafeCircular := ⟨true, false, ⟨1, 3⟩, true, 1, 0, 3, 1⟩
private def arrays : Store (List Nat) := ⟨[some [0], some [7, 8, 0]]⟩

private theorem two_elements (husk : Nat → Nat) : ∃ objects, ReachedObjects husk 0 arrays objects ∧
    objects 0 = some target ∧ objects 1 = some source := by
  have first : ReachedObjects husk 0 ⟨[some [0]]⟩ (Function.update (fun _ => none) 0
      (some target)) :=
    @ReachedObjects.new Nat _ _ _ _ 0 1 [0] .start rfl (by decide) true rfl
  have second := @ReachedObjects.new Nat _ _ _ _ 1 3 [0, 0, 0] first rfl (by decide) true rfl
  have third := @ReachedObjects.use _ _ _ _ ⟨[some [0], some [7, 0, 0]]⟩ _ 1 (.call (.add 7)) _
    ⟨true, false, ⟨2, 3⟩, true, 0, 0, 3, 1⟩ _ second rfl rfl
  have fourth := @ReachedObjects.use _ _ _ _ arrays _ 1 (.call (.add 8)) _ source _ third rfl rfl
  exact ⟨_, fourth, rfl, rfl⟩

/-- The move leaves `T()`. -/
theorem transferred_iff_two_elements : ∃ (objects : Nat → Option SafeCircular)
    (after : Store (List Nat)) (filled emptied : SafeCircular) (queue : Circular Nat),
      ReachedObjects (fun _ => 0) 0 arrays objects ∧
      objects 0 = some target ∧ objects 1 = some source ∧ queue.remain = 2 ∧
      transferFrom (fun _ => 0) [] arrays target source = some (after, filled, emptied) ∧
      Transferred (fun _ => 0) 0 queue source after filled emptied := by
  rcases two_elements (fun _ => 0) with ⟨objects, reached, first, second⟩
  rcases transferred_iff reached Nat.zero_ne_one first second rfl [] with
    ⟨after, filled, emptied, queue, seen, made, iff⟩
  cases seen
  refine ⟨objects, after, filled, emptied, _, reached, first, second, rfl, made,
    iff.mpr ⟨rfl, Or.inr ?_⟩⟩
  intro k low high
  have inside : k < 3 := high
  rcases (show k = 1 ∨ k = 2 by omega) with rfl | rfl
  · rfl
  · rfl

private def turned : SafeCircular := { source with reverse := true, nextIn := 0, nextOut := 1 }

/-- A source that has been reversed takes an element, emptied, at the end of its array and looks for
it at the beginning. A source of numbers that has not been reversed shows one that was
transferred. -/
theorem source_not_always_new :
    (¬ ∀ (heap after : Store (List Nat)) (objects : Nat → Option SafeCircular)
      (a b filled emptied : SafeCircular) (queue : Circular Nat),
        ReachedObjects (fun _ => 0) 0 heap objects →
        objects 0 = some a → objects 1 = some b → b.isObjects = true → view heap b = some queue →
        transferFrom (fun _ => 0) [] heap a b = some (after, filled, emptied) →
        Transferred (fun _ => 0) 0 queue b after filled emptied) ∧
    ¬ ∀ (heap after : Store (List Nat)) (objects : Nat → Option SafeCircular)
      (a b filled emptied : SafeCircular) (queue : Circular Nat), ReachedObjects id 0 heap objects →
        objects 0 = some a → objects 1 = some b → b.isObjects = true → b.reverse = false →
        view heap b = some queue → transferFrom id [] heap a b = some (after, filled, emptied) →
        Transferred id 0 queue b after filled emptied := by
  constructor
  · intro claimed
    rcases two_elements (fun _ => 0) with ⟨objects, reached, first, second⟩
    have reachedTurned : ReachedObjects (fun _ => 0) 0 arrays
        (Function.update objects 1 (some turned)) :=
      @ReachedObjects.use _ _ _ _ _ _ _ (.call .reverse) _ _ _ reached second rfl
    have transferred := claimed arrays ⟨[none, some [0, 0, 0], some [7, 8, 0]]⟩ _ target turned
      { turned with data := 2 } { turned with sema := ⟨3, 3⟩, nextIn := -1, nextOut := 0 } _
      reachedTurned first rfl rfl
      rfl rfl
    rcases transferred.source with ⟨left, seen, _, like⟩
    cases seen
    have same := like [.call (.add 5), .call .remove]
    exact absurd same (by decide)
  · intro claimed
    rcases two_elements id with ⟨objects, reached, first, second⟩
    have transferred := claimed arrays ⟨[none, some [7, 8, 0], some [7, 8, 0]]⟩ _ target source
      { source with data := 2 } { source with sema := ⟨3, 3⟩, nextIn := -1, nextOut := 0 } _ reached
      first second rfl
      rfl rfl rfl
    rcases transferred.source with ⟨left, seen, _, like⟩
    cases seen
    have same := like [.call (.add 5), .call .reverse, .call (.add 6), .iterate]
    exact absurd same (by decide)

end TWlib.CircularTransfer
