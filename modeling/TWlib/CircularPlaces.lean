import TWlib.CircularStranded

/-!
# Where circular queues have their indices

Whatever any threads do to any number of queues, each queue has an array of its own and
of its size, and its indices lie in it. Of the elements nothing is said: a source that
was reversed has its indices in the array after `transferFrom`, but at the wrong end.
-/

namespace TWlib.CircularPlaces

open TWlib.Lib.CellStore TWlib.Lib.RingSlots TWlib.Lib.Monitor TWlib.CircularBuffer
  TWlib.CircularObjects
  TWlib.CircularTransfer TWlib.CircularThreads TWlib.CircularStranded

set_option autoImplicit false

variable {Item : Type*} {husk : Item → Item} {blank : Item}

/-! ## Indices -/

structure Placed (sema : SemaTwoWay) (nextIn nextOut size : Int) : Prop where
  out : 0 ≤ nextOut ∧ nextOut < size
  input : -1 ≤ nextIn ∧ nextIn < size
  filled : sema.cnt < size → 0 ≤ nextIn

def QueuePlaced (queue : Circular Item) : Prop :=
  Placed queue.sema queue.nextIn queue.nextOut queue.size

def ObjectPlaced (object : SafeCircular) : Prop :=
  Placed object.sema object.nextIn object.nextOut object.size

variable {queue after : Circular Item} {left : Item → Item} {value : Item} {region : Region Item}
  {call : Call Item} {job : Job Item}

theorem placed_start {sema : SemaTwoWay} {size : Int} (positive : 1 ≤ size)
    (all : sema.cnt = size) :
    Placed sema (-1) 0 size where
  out := ⟨Int.le_refl 0, by omega⟩
  input := ⟨Int.le_refl _, by omega⟩
  filled less := absurd less (by omega)

theorem put_placed {sema : SemaTwoWay} (positive : 1 ≤ queue.size) (placed : QueuePlaced queue)
    (put : ({ queue with sema } : Circular Item).putNext value = some after) :
    QueuePlaced after := by
  have place := next_next_in_bounds positive placed.input
  obtain ⟨data, -, done⟩ := Option.bind_eq_some_iff.mp put
  cases done
  exact ⟨placed.out, ⟨Int.le_trans (by decide) place.1, place.2⟩, fun _ => place.1⟩

theorem remove_now_placed (positive : 1 ≤ queue.size) (placed : QueuePlaced queue)
    (removed : queue.removeNow left = some region) : QueuePlaced region.queue := by
  have place := next_next_out_bounds queue positive placed.out
  obtain ⟨⟨after, taken⟩, took, done⟩ := Option.bind_eq_some_iff.mp removed
  obtain ⟨found, -, later⟩ := Option.bind_eq_some_iff.mp took
  obtain ⟨data, -, same⟩ := Option.bind_eq_some_iff.mp later
  cases same
  cases done
  dsimp only
  split_ifs with last
  · unfold Circular.remain SemaTwoWay.countNoBlock at last
    apply placed_start positive
    simp only [Circular.restart]
    omega
  · refine ⟨place, placed.input, fun less => placed.filled ?_⟩
    simp only at less
    omega

/-- A removal after a wait asks whether the queue is empty before it makes it shorter. -/
theorem remove_awaited_placed (positive : 1 ≤ queue.size) (placed : QueuePlaced queue)
    (removed : queue.removeAwaited left = some region) : QueuePlaced region.queue := by
  obtain ⟨⟨after, taken⟩, took, done⟩ := Option.bind_eq_some_iff.mp removed
  obtain ⟨found, -, later⟩ := Option.bind_eq_some_iff.mp took
  obtain ⟨data, -, same⟩ := Option.bind_eq_some_iff.mp later
  cases same
  cases done
  dsimp only
  split_ifs with last
  · have all : queue.sema.cnt = queue.size := (Int.sub_eq_zero.mp last).symm
    let started : Circular Item := ({ queue with data } : Circular Item).restart
    have start : QueuePlaced started := placed_start positive all
    refine ⟨next_next_out_bounds started positive start.out, start.input, fun less => ?_⟩
    have more : queue.sema.cnt + 1 < queue.size := less
    omega
  · refine ⟨next_next_out_bounds { queue with data } positive placed.out, placed.input,
      fun less => placed.filled ?_⟩
    simp only at less
    omega

theorem reverse_placed (placed : QueuePlaced queue) : QueuePlaced queue.reverseOrder := by
  unfold Circular.reverseOrder
  split_ifs with few
  · exact placed
  · unfold Circular.remain SemaTwoWay.countNoBlock at few
    have input := placed.filled (by omega)
    exact
      { out := ⟨input, placed.input.2⟩
        input := ⟨Int.le_trans (by decide) placed.out.1, placed.out.2⟩
        filled := fun _ => placed.out.1 }

theorem change_placed (sized : Sized queue) (placed : QueuePlaced queue)
    (change : Change queue after) :
    QueuePlaced after := by
  cases change with
  | nothing => exact placed
  | put acquired put => exact put_placed sized.positive placed put
  | removed filled removed => exact remove_now_placed sized.positive placed removed
  | awaited empty behind removed => exact remove_awaited_placed sized.positive placed removed
  | reversed => exact reverse_placed placed
  | cleared blank => exact placed_start sized.positive sized.semaSize
  | written length => exact placed

/-! ## Regions -/

theorem enter_change (ran : enter husk queue call = some region) : Change queue region.queue := by
  cases call with
  | blocking job =>
      cases job with
      | add value timed => exact add_by_change ran
      | addMv value timed => exact add_by_change ran
      | removeOrBlock timed => exact remove_or_block_by_change ran
      | removeMvOrBlock timed => exact remove_or_block_by_change ran
  | addIfRoom value => exact add_if_room_by_change ran
  | addMvIfRoom value => exact add_if_room_by_change ran
  | remove => exact remove_by_change ran
  | removeMv => exact remove_by_change ran
  | unblockAllRemovers =>
      cases ran
      exact .nothing

theorem resume_changes (ran : resume husk queue job = some region) :
    Change queue region.queue ∨ ∃ left : Item → Item, queue.removeAwaited left = some region := by
  have woken : ∀ left : Item → Item, queue.removeWokenBy left = some region →
      Change queue region.queue ∨ ∃ left : Item → Item, queue.removeAwaited left = some region := by
    intro left removed
    unfold Circular.removeWokenBy at removed
    split_ifs at removed
    · cases removed
      exact .inl .nothing
    · exact .inr ⟨left, removed⟩
  cases job with
  | add value timed => exact .inl (add_by_change ran)
  | addMv value timed => exact .inl (add_by_change ran)
  | removeOrBlock timed => exact woken id ran
  | removeMvOrBlock timed => exact woken husk ran

variable {world next : World Item} {event : Event Item}

theorem step_placed (sized : Sized world.queue) (placed : QueuePlaced world.queue)
    (step : Step husk world event next) : Sized next.queue ∧ QueuePlaced next.queue := by
  have changed : ∀ {queue : Circular Item}, Change world.queue queue → Sized queue ∧
      QueuePlaced queue :=
    fun change => ⟨sized_of_same sized (change_sizes change), change_placed sized placed change⟩
  cases step with
  | start ran acts => exact changed (enter_change ran)
  | resume ran acts =>
      obtain change | ⟨left, removed⟩ := resume_changes ran
      · exact changed change
      · exact ⟨sized_of_same sized (remove_awaited_sizes removed),
          remove_awaited_placed sized.positive placed removed⟩
  | expire expires acts => exact ⟨sized, placed⟩

/-! ## Any number of queues -/

structure Sound (system : System Item) : Prop where
  owned : Owned system.heap system.objects
  placed : ∀ i object, system.objects i = some object → ObjectPlaced object
  /-- Threads are on queues only. -/
  made : ∀ i, system.objects i = none → system.threads i = []

variable {heap heapAfter : Store (List Item)} {objects : Nat → Option SafeCircular}
  {object objectAfter a b cloned filled emptied : SafeCircular} {fresh : List Item} {i j : Nat}
  {system systemAfter : System Item} {move : Move Item}

theorem placed_of_view (seen : view heap object = some queue) :
    ObjectPlaced object ↔ QueuePlaced queue := by
  obtain ⟨-, -, -, sema, nextIn, nextOut, size⟩ := view_some seen
  rw [ObjectPlaced, QueuePlaced, sema, nextIn, nextOut, size]

theorem use_placed {one : Use Item} {result : Result Item} (owned : Owned heap objects)
    (found : objects i = some object) (placed : ObjectPlaced object)
    (used : useObject husk blank heap object one = some (heapAfter, objectAfter, result)) :
    ObjectPlaced objectAfter := by
  obtain ⟨queue, seen, sized⟩ := owned.sized i object found
  obtain ⟨known, same, later⟩ := Option.bind_eq_some_iff.mp used
  cases Option.some.inj (seen.symm.trans same)
  obtain ⟨⟨queueAfter, given⟩, usedQueue, done⟩ := Option.bind_eq_some_iff.mp later
  cases done
  exact change_placed sized ((placed_of_view seen).mp placed) (use_change usedQueue)

theorem cloned_placed (placed : ObjectPlaced b)
    (made : cloneFrom fresh heap a b = some (heapAfter, cloned)) :
    ObjectPlaced cloned := by
  obtain ⟨cells, -, later⟩ := Option.bind_eq_some_iff.mp made
  split_ifs at later
  · obtain ⟨source, -, copies⟩ := Option.bind_eq_some_iff.mp later
    obtain ⟨cells, -, done⟩ := Option.bind_eq_some_iff.mp copies
    cases done
    exact placed
  · cases later
    exact placed

theorem transferred_placed (positive : 1 ≤ b.size) (semaSize : b.sema.size = b.size)
    (placed : ObjectPlaced b) (made : transferFrom husk fresh heap a b = some (heapAfter,
      filled, emptied)) :
    ObjectPlaced filled ∧ ObjectPlaced emptied := by
  have start : Placed b.sema.resetNoLock (-1) 0 b.size := placed_start positive semaSize
  obtain ⟨cells, -, later⟩ := Option.bind_eq_some_iff.mp made
  split_ifs at later
  · obtain ⟨source, -, copies⟩ := Option.bind_eq_some_iff.mp later
    obtain ⟨cells, -, done⟩ := Option.bind_eq_some_iff.mp copies
    cases done
    exact ⟨placed, start⟩
  · cases later
    exact ⟨placed, start⟩

theorem made_update_threads {threads : Nat → Threads (Job Item)}
    (made : ∀ i, objects i = none → threads i = []) (i : Nat) (object : SafeCircular)
    (now : Threads (Job Item)) :
    ∀ k, Function.update objects i (some object) k = none →
    Function.update threads i now k = [] := by
  intro k missing
  by_cases same : k = i
  · subst same
    rw [Function.update_self] at missing
    cases missing
  · rw [Function.update_of_ne same] at missing ⊢
    exact made k missing

theorem made_update {threads : Nat → Threads (Job Item)}
    (made : ∀ i, objects i = none → threads i = []) (i : Nat) (object : SafeCircular) :
    ∀ k, Function.update objects i (some object) k = none → threads k = [] := by
  have same := made_update_threads made i object (threads i)
  rwa [Function.update_eq_self] at same

theorem passes_sound (sound : Sound system) (passes : Passes husk blank system move systemAfter) :
    Sound systemAfter := by
  have owned := sound.owned
  cases passes with
  | new unused positive isObjects whole count =>
      rename_i i size data
      exact
        { owned := owned_new owned i positive isObjects whole
          placed := all_after_update sound.placed (placed_start positive rfl)
          made := made_update_threads sound.made i _ _ }
  | region found seen step =>
      rename_i i event object queue next
      obtain ⟨known, same, sized⟩ := owned.sized i object found
      cases Option.some.inj (seen.symm.trans same)
      have placed := (placed_of_view seen).mp (sound.placed i object found)
      obtain ⟨sizedAfter, placedAfter⟩ := step_placed sized placed step
      exact
        { owned := owned_become owned found seen sizedAfter object.enabled
          placed := all_after_update sound.placed placedAfter
          made := made_update_threads sound.made i _ _ }
  | quiet quiet found used =>
      exact
        { owned := owned_use owned found used
          placed := all_after_update sound.placed (use_placed owned found
            (sound.placed _ _ found) used)
          made := made_update sound.made _ _ }
  | switch enabled found =>
      rename_i i object
      have placed := sound.placed i object found
      exact
        { owned := owned_switch owned found enabled
          placed := all_after_update sound.placed placed
          made := made_update sound.made i _ }
  | clear found used =>
      exact
        { owned := owned_use owned found used
          placed := all_after_update sound.placed (use_placed owned found
            (sound.placed _ _ found) used)
          made := made_update sound.made _ _ }
  | clone differ first second whole made =>
      have placed := cloned_placed (sound.placed _ _ second) made
      exact
        { owned := owned_clone owned differ first second whole made
          placed := all_after_update sound.placed placed
          made := made_update sound.made _ _ }
  | transfer differ first second whole made =>
      obtain ⟨queue, seen, sized⟩ := owned.sized _ _ second
      obtain ⟨-, -, -, sema, -, -, size⟩ := view_some seen
      have positive := sized.positive
      have semaSize := sized.semaSize
      rw [size] at positive
      rw [sema, size] at semaSize
      obtain ⟨filled, emptied⟩ :=
        transferred_placed positive semaSize (sound.placed _ _ second) made
      exact
        { owned := owned_transfer owned differ first second whole made
          placed := all_after_update (all_after_update sound.placed filled) emptied
          made := made_update (made_update sound.made _ _) _ _ }

theorem sound_start : Sound (⟨Store.empty, fun _ => none, fun _ => []⟩ : System Item) where
  owned := owned_start
  placed _ _ found := nomatch found
  made _ _ := rfl

theorem run_sound {permitted : System Item → Move Item → Prop}
    (run : CircularStranded.Run husk blank permitted system) : Sound system := by
  induction run with
  | start => exact sound_start
  | step run allowed passes ih => exact passes_sound ih passes

/-! ## Regions go through -/

theorem put_defined (sema : SemaTwoWay) (sized : Sized queue) (placed : QueuePlaced queue)
    (value : Item) :
    ∃ after, ({ queue with sema } : Circular Item).putNext value = some after := by
  have whole := sized.whole
  obtain ⟨low, high⟩ := next_next_in_bounds sized.positive placed.input
  obtain ⟨data, set⟩ :=
    set_cell_exists low (show queue.nextNextIn < queue.data.length by omega) value
  exact ⟨_, Option.bind_eq_some_iff.mpr ⟨data, set, rfl⟩⟩

theorem take_out_defined (left : Item → Item) (sized : Sized queue) (placed : QueuePlaced queue) :
    ∃ pair, queue.takeOut left = some pair := by
  have whole := sized.whole
  obtain ⟨low, high⟩ := placed.out
  have bound : queue.nextOut < queue.data.length := by omega
  obtain ⟨value, read⟩ := cell_exists low bound
  obtain ⟨data, set⟩ := set_cell_exists low bound (left value)
  exact ⟨_, Option.bind_eq_some_iff.mpr ⟨value, read, Option.bind_eq_some_iff.mpr ⟨data, set, rfl⟩⟩⟩

theorem resume_defined (husk : Item → Item) (sized : Sized queue) (placed : QueuePlaced queue)
    (job : Job Item) :
    ∃ region, resume husk queue job = some region := by
  have added : ∀ (left : Item → Item) (value : Item), ∃ region, queue.addBy left value =
      some region := by
    intro left value
    unfold Circular.addBy
    cases queue.sema.acquire with
    | none => exact ⟨_, rfl⟩
    | some pair =>
        obtain ⟨after, put⟩ := put_defined pair.1 sized placed value
        exact ⟨_, Option.bind_eq_some_iff.mpr ⟨after, put, rfl⟩⟩
  have removed : ∀ left : Item → Item, ∃ region, queue.removeWokenBy left = some region := by
    intro left
    unfold Circular.removeWokenBy
    split_ifs
    · exact ⟨_, rfl⟩
    · obtain ⟨pair, took⟩ := take_out_defined left sized placed
      exact ⟨_, Option.bind_eq_some_iff.mpr ⟨pair, took, rfl⟩⟩
  cases job with
  | add value timed => exact added id value
  | addMv value timed => exact added husk value
  | removeOrBlock timed => exact removed id
  | removeMvOrBlock timed => exact removed husk

end TWlib.CircularPlaces
