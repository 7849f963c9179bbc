import TWlib.CircularSequential

/-!
# The circular queue as an array

`get`, `set` and `setMv` walk to an element from one end of the ring, the iterator
from the other, neither by `nextNextOut`. An element is known by its slot here, the
`i`-th to be removed by `slot` of `i`.
-/

namespace TWlib.CircularArray

open TWlib.Lib.RingSlots TWlib.CircularBuffer TWlib.CircularSequential

set_option autoImplicit false

variable {Item : Type*}

/-! ## Reachable queues -/

/-- What one thread makes of a new queue. -/
inductive Reached (husk : Item → Item) (blank : Item) : Circular Item → Prop where
  | new {size : Int} (positive : 1 ≤ size) (isObjects : Bool) {data : List Item}
      (whole : (data.length : Int) = size) : Reached husk blank (Circular.new size isObjects data)
  | call {queue after : Circular Item} {answer : Answer Item} (reached : Reached husk blank queue)
      (op : Op Item)
      (performed : perform husk blank queue op = some (after, answer)) : Reached husk blank after
  | set {queue after : Circular Item} {n : Int} {value : Item} {ret : Bool}
      (reached : Reached husk blank queue)
      (set : queue.set n value = some (after, ret)) : Reached husk blank after

theorem reached_represents {husk : Item → Item} {blank : Item} {queue : Circular Item}
    (reached : Reached husk blank queue) : ∃ items, Represents queue items := by
  induction reached with
  | new positive isObjects whole => exact ⟨[], represents_new positive isObjects _ whole⟩
  | call reached op performed ih =>
      rcases ih with ⟨items, held⟩
      rcases perform_follows husk blank _ held with ⟨after, same, represents, _⟩
      rw [performed] at same
      cases same
      exact ⟨_, represents⟩
  | set reached set ih =>
      rcases ih with ⟨items, held⟩
      rcases set_represents held set with ⟨left, represents, _⟩
      exact ⟨left, represents⟩

/-! ## What is stated of `get`, `set` and `setMv` -/

/-- The slots of the first `count` elements, in the order of their removal. -/
def slots (queue : Circular Item) (count : Nat) : List Int :=
  (List.range count).map (slot queue.size queue.nextOut queue.step)

structure Addresses (husk : Item → Item) (queue : Circular Item) (items : List Item) : Prop where
  inside : ∀ n, n < items.length → 0 ≤ queue.position n ∧ queue.position n < queue.size
  each : ((List.range items.length).map queue.position).Perm (slots queue items.length)
  got : ∀ n : Nat, n < items.length → ∃ value, queue.get n = some (true, some value)
  order : queue.reverse = false → ∀ (n : Nat) (item : Item), items[n]? = some item →
    queue.get n = some (true, some item)
  changed : ∀ (n : Nat) (value : Item), n < items.length →
    ∃ after, queue.set n value = some (after, true) ∧
    queue.setMv husk n value = some (after, true, husk value) ∧
    after.get n = some (true, some value) ∧
    ∀ m : Nat, m < items.length → m ≠ n → after.get m = queue.get m

variable {queue : Circular Item} {items rest : List Item} {husk : Item → Item}

/-! ## The walk -/

/-- The walk passes from `size`, not from the slot before it, to slot 1. -/
theorem walk_to_eq (queue : Circular Item) {n : Nat} {p : Int} (low : 0 ≤ p) (high : p ≤ queue.size)
    (fewer : n ≤ queue.size) :
    queue.walkTo n p = if p + n ≤ queue.size then p + n else p + n - queue.size := by
  induction n generalizing p with
  | zero =>
      rw [Circular.walkTo, if_pos (by omega)]
      simp
  | succ n ih =>
      rw [Circular.walkTo]
      split_ifs with wraps
      · rw [ih (by omega) (by omega) (by omega)]
        split_ifs <;> omega
      · rw [ih (by omega) (by omega) (by omega)]
        split_ifs <;> omega
      · rw [ih (by omega) (by omega) (by omega)]
        split_ifs <;> omega
      · rw [ih (by omega) (by omega) (by omega)]
        split_ifs <;> omega

theorem walk_to_data (queue : Circular Item) (data : List Item) (n : Nat) (p : Int) :
    ({ queue with data } : Circular Item).walkTo n p = queue.walkTo n p := by
  induction n generalizing p with
  | zero => rfl
  | succ n ih => exact ih _

theorem position_data (queue : Circular Item) (data : List Item) (n : Nat) :
    ({ queue with data } : Circular Item).position n = queue.position n :=
    walk_to_data queue data n _

theorem length_le (held : Represents queue items) : items.length ≤ queue.size := by
  have fits := held.laid.fits
  have whole := held.whole
  omega

theorem position_forward (held : Represents queue items) (forward : queue.reverse = false) {n : Nat}
    (within : n ≤ items.length) : queue.position n =
      if queue.nextOut + n ≤ queue.size then queue.nextOut + n
      else queue.nextOut + n - queue.size := by
  have out := held.outRange
  have few := length_le held
  simp only [Circular.position, forward, Bool.false_eq_true, if_false]
  rw [Int.sub_add_cancel]
  exact walk_to_eq queue (by omega) (by omega) (by omega)

/-- In a reversed queue the walk starts in front of the last slot, or one past the end. -/
theorem position_backward (backward : queue.reverse = true) (n : Nat) : queue.position n =
    queue.walkTo n (if queue.nextIn < 2 then queue.size else queue.nextIn - 1) := by
  simp only [Circular.position, backward, if_true]
  congr 1
  split_ifs <;> omega

theorem get_eq (held : Represents queue items) {n : Nat} (within : n < items.length) :
    queue.get n = (cellAt queue.data (queue.position n)).map fun value => (true, some value) := by
  have count := remain_eq held
  rw [Circular.get, if_pos (by omega)]
  rfl

/-! ## Where the walk is right -/

section Straight

variable (held : Represents queue items) (forward : queue.reverse = false)
  (straight : queue.nextOut + items.length ≤ queue.size)

include held forward straight

theorem position_straight {n : Nat} (within : n < items.length) :
    queue.position n = slot queue.size queue.nextOut queue.step n := by
  have out := held.outRange
  rw [position_forward held forward (Nat.le_of_lt within), if_pos (by omega), slot,
    Circular.step, forward,
    if_neg Bool.false_ne_true, Int.one_mul, Int.emod_eq_of_lt (by omega) (by omega)]

theorem get_straight {n : Nat} (within : n < items.length) :
    queue.get n = items[n]?.map fun value => (true, some value) := by
  rw [get_eq held within, position_straight held forward straight within,
    ← held.laid.held n within, held.whole]

theorem set_straight (n : Nat) (value : Item) (within : n < items.length) :
    ∃ after, queue.set n value = some (after, true) ∧ queue.setMv husk n value = some (after, true,
      husk value) ∧
      after.get n = some (true, some value) ∧
      ∀ m : Nat, m < items.length → m ≠ n → after.get m = queue.get m := by
  have positive := held.positive
  have whole := held.whole
  have few := length_le held
  have count := remain_eq held
  have range := slot_range queue.nextOut queue.step (show 0 < queue.size by omega) n
  have place := position_straight held forward straight within
  have writable : ∃ data, setCell queue.data (queue.position n) value = some data :=
    set_cell_exists (by omega) (by omega) value
  rcases writable with ⟨data, written⟩
  have set : queue.set n value = some ({ queue with data }, true) := by
    rw [Circular.set, if_pos (by omega)]
    change (setCell queue.data (queue.position n) value).map _ = _
    rw [written]
    rfl
  have read : ∀ m : Nat, m < items.length → ({ queue with data } : Circular Item).get m =
      (if queue.position m = queue.position n then some value
        else cellAt queue.data (queue.position m)).map
        fun found => (true, some found) := by
    intro m inside
    have valid : (m : Int) ≥ 0 ∧ (m : Int) < ({ queue with data } : Circular Item).remain := by
      change (m : Int) ≥ 0 ∧ (m : Int) < queue.remain
      omega
    rw [← set_cell_read written, Circular.get, if_pos valid, position_data]
    rfl
  refine ⟨{ queue with data }, set, ?_, ?_, fun m inside other => ?_⟩
  · rw [Circular.setMv, set]
    rfl
  · rw [read n within, if_pos rfl]
    rfl
  · have apart : queue.position m ≠ queue.position n := by
      rw [place, position_straight held forward straight inside]
      intro same
      exact other (slot_injective (step_unit queue) (by omega) (by omega) same)
    rw [read m inside, if_neg apart, get_eq held inside]

theorem addresses_straight : Addresses husk queue items where
  inside := by
    intro n within
    rw [position_straight held forward straight within]
    exact slot_range _ _ (by have := held.positive; omega) n
  each := by
    have same : (List.range items.length).map queue.position = slots queue items.length := by
      apply List.map_congr_left
      intro n member
      exact position_straight held forward straight (List.mem_range.mp member)
    rw [same]
  got := by
    intro n within
    rw [get_straight held forward straight within, List.getElem?_eq_getElem within]
    exact ⟨_, rfl⟩
  order := by
    intro _ n item found
    have within := (List.getElem?_eq_some_iff.mp found).1
    rw [get_straight held forward straight within, found]
    rfl
  changed := set_straight held forward straight

end Straight

/-! ## Where it is not -/

theorem straight_of_addresses (held : Represents queue items)
    (addresses : Addresses husk queue items) (forward : queue.reverse = false) :
    queue.nextOut + items.length ≤ queue.size := by
  by_contra wraps
  have out := held.outRange
  have within : (queue.size - queue.nextOut).toNat < items.length := by omega
  have inside := addresses.inside _ within
  rw [position_forward held forward (Nat.le_of_lt within)] at inside
  split_ifs at inside <;> omega

theorem forward_of_addresses (held : Represents queue items)
    (addresses : Addresses husk queue items) (filled : items ≠ []) : queue.reverse = false := by
  by_contra backward
  rw [Bool.not_eq_false] at backward
  have some_ : 0 < items.length := List.length_pos_iff.mpr filled
  have few := length_le held
  have positive := held.positive
  have within := held.inRange
  have first := addresses.inside 0 some_
  have step : queue.step = -1 := by rw [Circular.step, if_pos backward]
  rw [position_backward backward, Circular.walkTo] at first
  have start : ¬ queue.nextIn < 2 := by
    intro low
    rw [if_pos low] at first
    omega
  by_cases full : (items.length : Int) = queue.size
  · have last : (queue.size - (queue.nextIn - 1)).toNat < items.length := by omega
    have inside := addresses.inside _ last
    rw [position_backward backward, if_neg start,
      walk_to_eq queue (by omega) (by omega) (by omega)] at inside
    split_ifs at inside <;> omega
  · have member : queue.position 0 ∈ slots queue items.length := by
      apply addresses.each.mem_iff.mp
      exact List.mem_map.mpr ⟨0, List.mem_range.mpr some_, rfl⟩
    rcases List.mem_map.mp member with ⟨i, bound, same⟩
    have inside := List.mem_range.mp bound
    have behind := held.behind
    rw [step, Int.emod_eq_of_lt (by omega) (by omega)] at behind
    rw [position_backward backward, Circular.walkTo, if_neg start, step] at same
    have meets : slot queue.size queue.nextOut (-1) i = slot queue.size queue.nextOut
        (-1) items.length := by
      rw [same, ← behind]
      omega
    have turned := slot_injective (Or.inr rfl) (by omega) (by omega) meets
    omega

/-- `get`, `set` and `setMv` address the elements as long as the queue is neither reversed nor
wrapped round the end of the array, and only then unless it is empty. -/
theorem addresses_iff {husk : Item → Item} {blank : Item} {queue : Circular Item}
    (reached : Reached husk blank queue) : ∃ items, Represents queue items ∧
      (Addresses husk queue items ↔
        queue.remain = 0 ∨ queue.reverse = false ∧ queue.nextOut + queue.remain ≤ queue.size) := by
  rcases reached_represents reached with ⟨items, held⟩
  refine ⟨items, held, ?_⟩
  have count := remain_eq held
  constructor
  · intro addresses
    by_cases empty : items = []
    · rw [empty] at count
      exact Or.inl count
    · have forward := forward_of_addresses held addresses empty
      have straight := straight_of_addresses held addresses forward
      exact Or.inr ⟨forward, by omega⟩
  · intro either
    rcases either with empty | ⟨forward, straight⟩
    · have nothing : items = [] := List.length_eq_zero_iff.mp (by omega)
      subst nothing
      exact {
        inside := nofun
        each := List.Perm.refl _
        got := nofun
        order := nofun
        changed := nofun }
    · exact addresses_straight held forward (by omega)

/-- Two elements in the first two of three cells. -/
theorem addresses_iff_two_elements : ∃ queue : Circular Nat, ∃ items, Reached id 0 queue ∧
    Represents queue items ∧ queue.remain = 2 ∧ Addresses id queue items := by
  have made : Reached id 0 (Circular.new 3 true [0, 0, 0]) := .new (by decide) true (by decide)
  have first : Reached id 0 (⟨true, false, ⟨2, 3⟩, 0, 0, 3, [7, 0, 0]⟩ : Circular Nat) :=
    .call made (.add 7) rfl
  have second : Reached id 0 (⟨true, false, ⟨1, 3⟩, 1, 0, 3, [7, 8, 0]⟩ : Circular Nat) :=
    .call first (.add 8) rfl
  rcases @addresses_iff _ id 0 _ second with ⟨items, held, iff⟩
  exact ⟨_, items, second, held, rfl, iff.mpr (Or.inr ⟨rfl, by decide⟩)⟩

/-- A full queue of two cells that wraps round: its second element is looked for in a third cell. -/
theorem wrapped_addresses_past_the_end : ¬ ∀ (queue : Circular Nat) (items : List Nat),
    Reached id 0 queue → Represents queue items → Addresses id queue items := by
  intro claimed
  have made : Reached id 0 (Circular.new 2 true [0, 0]) := .new (by decide) true (by decide)
  have first : Reached id 0 (⟨true, false, ⟨1, 2⟩, 0, 0, 2, [1, 0]⟩ : Circular Nat) :=
    .call made (.add 1) rfl
  have second : Reached id 0 (⟨true, false, ⟨0, 2⟩, 1, 0, 2, [1, 2]⟩ : Circular Nat) :=
    .call first (.add 2) rfl
  have third : Reached id 0 (⟨true, false, ⟨1, 2⟩, 1, 1, 2, [1, 2]⟩ : Circular Nat) :=
    .call second .remove rfl
  have fourth : Reached id 0 (⟨true, false, ⟨0, 2⟩, 0, 1, 2, [3, 2]⟩ : Circular Nat) :=
    .call third (.add 3) rfl
  rcases reached_represents fourth with ⟨items, held⟩
  have count : (2 : Int) = items.length := remain_eq held
  have inside := (claimed _ items fourth held).inside 1 (by omega)
  exact absurd inside.2 (by decide)

end TWlib.CircularArray
