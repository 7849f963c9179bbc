import TWlib.CircularArray

/-!
# The iterator of the circular queue

The iterator holds the mutex from `getIter` to `release`, so the queue stays as it is.
It counts the elements and goes up in the array from `nextOut`, in whatever direction
they are removed.
-/

namespace TWlib.CircularIterator

open TWlib.Lib.RingSlots TWlib.CircularBuffer TWlib.CircularSequential TWlib.CircularArray

set_option autoImplicit false

variable {Item : Type*}

/-! ## The code -/

structure Iter where
  valid : Bool
  n : Int
  p : Int
deriving DecidableEq

def getIter (queue : Circular Item) : Iter := ⟨queue.remain > 0, 0, queue.nextOut⟩

def Iter.next (queue : Circular Item) (it : Iter) : Iter × Bool :=
  let n := it.n + 1
  if n < queue.remain then
    let p := it.p + 1
    ({ it with n, p := if p ≥ queue.size then 0 else p }, true)
  else ({ it with n, valid := false }, false)

/-- The second result is what the reference argument is set to. -/
def Iter.data (queue : Circular Item) (it : Iter) : Option (Bool × Option Item) :=
  if it.valid ∧ it.n < queue.remain then (cellAt queue.data it.p).map fun value =>
    (true, some value)
  else some (false, none)

def Iter.atEnd (queue : Circular Item) (it : Iter) : Bool :=
  !(it.valid ∧ it.n < queue.remain : Bool)

/-- `while(!iter.atEnd()) { iter.data(d); iter.next(); }`: the slots with what `data` gave there. -/
def Iter.walk (queue : Circular Item) : Nat → Iter → Option (List (Int × Option Item))
  | 0, it => if it.atEnd queue then some [] else none
  | fuel + 1, it =>
      if it.atEnd queue then some []
      else (it.data queue).elim none fun (_, value) =>
        (Iter.walk queue fuel (it.next queue).1).map fun visited => (it.p, value) :: visited

/-! ## What is stated -/

/-- After `remaining()` elements, each with its value and in the order of their removal, it is at
the end. -/
def Enumerates (queue : Circular Item) (items : List Item) : Prop :=
  (getIter queue).walk queue items.length =
    some ((List.range items.length).map fun i =>
      (slot queue.size queue.nextOut queue.step i, items[i]?))

variable {queue : Circular Item} {items : List Item}

/-! ## The walk -/

theorem at_end_iff {valid : Bool} {n p : Int} :
    (Iter.mk valid n p).atEnd queue = false ↔ valid = true ∧ n < queue.remain := by
  simp [Iter.atEnd]

theorem next_slot (held : Represents queue items) {i : Nat} :
    (if slot queue.size queue.nextOut 1 i + 1 ≥ queue.size then 0
      else slot queue.size queue.nextOut 1 i + 1) =
      slot queue.size queue.nextOut 1 (i + 1) := by
  have positive := held.positive
  have range := slot_range queue.nextOut 1 (show 0 < queue.size by omega) i
  rw [← slot_advance, step_mod (by omega) (by omega)]
  split_ifs <;> omega

theorem walk_eq (held : Represents queue items) {fuel i : Nat} (left : i + fuel = items.length)
    (some_ : 0 < fuel) :
    (Iter.mk true i (slot queue.size queue.nextOut 1 i)).walk queue fuel =
      some ((List.range' i fuel).map fun j =>
        (slot queue.size queue.nextOut 1 j,
            cellAt queue.data (slot queue.size queue.nextOut 1 j))) := by
  have count := remain_eq held
  have positive := held.positive
  have whole := held.whole
  induction fuel generalizing i with
  | zero => omega
  | succ fuel ih =>
      have range := slot_range queue.nextOut 1 (show 0 < queue.size by omega) i
      have going : (Iter.mk true i (slot queue.size queue.nextOut 1 i)).atEnd queue = false :=
        at_end_iff.mpr ⟨rfl, by omega⟩
      have valid : True ∧ (i : Int) < queue.remain := ⟨trivial, by omega⟩
      rcases @cell_exists _ queue.data _ range.1 (by omega) with ⟨value, here⟩
      have data : (Iter.mk true i (slot queue.size queue.nextOut 1 i)).data queue = some (true,
          some value) := by
        rw [Iter.data, if_pos (by simpa using valid), here]
        rfl
      rw [Iter.walk, going, if_neg Bool.false_ne_true, data]
      simp only [Option.elim, List.range'_succ, List.map_cons, here]
      by_cases last : fuel = 0
      · subst last
        have ended : (Iter.mk true i (slot queue.size queue.nextOut 1 i)).next queue =
            (Iter.mk false (i + 1) (slot queue.size queue.nextOut 1 i), false) := by
          have beyond : ¬ (i : Int) + 1 < queue.remain := by omega
          rw [Iter.next, if_neg beyond]
        rw [ended]
        rfl
      · have moved : (Iter.mk true i (slot queue.size queue.nextOut 1 i)).next queue =
            (Iter.mk true (i + 1 : Nat) (slot queue.size queue.nextOut 1 (i + 1)), true) := by
          have more : (i : Int) + 1 < queue.remain := by omega
          rw [Iter.next, if_pos more, ← next_slot held]
          rfl
        rw [moved, ih (by omega) (by omega)]
        rfl

theorem walk_all (held : Represents queue items) :
    (getIter queue).walk queue items.length =
      some ((List.range items.length).map fun j =>
        (slot queue.size queue.nextOut 1 j,
            cellAt queue.data (slot queue.size queue.nextOut 1 j))) := by
  have count := remain_eq held
  have out := held.outRange
  by_cases empty : items.length = 0
  · rw [empty] at count ⊢
    simp [Iter.walk, Iter.atEnd, getIter, count]
  · have start : getIter queue = Iter.mk true (0 : Nat) (slot queue.size queue.nextOut 1 0) := by
      rw [getIter, slot_zero, Int.emod_eq_of_lt out.1 out.2]
      simp only [Iter.mk.injEq, decide_eq_true_eq, and_true]
      exact ⟨by omega, rfl⟩
    rw [start, walk_eq held (Nat.zero_add _) (by omega), List.range_eq_range']

/-! ## The order -/

theorem slots_agree (held : Represents queue items) {i : Nat} (within : i < items.length)
    (same : slot queue.size queue.nextOut 1 i = slot queue.size queue.nextOut queue.step i) :
    (slot queue.size queue.nextOut 1 i, cellAt queue.data (slot queue.size queue.nextOut 1 i)) =
      (slot queue.size queue.nextOut queue.step i, items[i]?) := by
  rw [same, ← held.laid.held i within, held.whole]

theorem enumerates_iff_slots (held : Represents queue items) : Enumerates queue items ↔
    ∀ i, i < items.length → slot queue.size queue.nextOut 1 i =
    slot queue.size queue.nextOut queue.step i := by
  rw [Enumerates, walk_all held, Option.some.injEq]
  constructor
  · intro equal i within
    have here := List.map_inj_left.mp equal i (List.mem_range.mpr within)
    exact congrArg Prod.fst here
  · intro agree
    apply List.map_congr_left
    intro i member
    have within := List.mem_range.mp member
    exact slots_agree held within (agree i within)

theorem slot_two {start : Int} {i : Nat} : slot 2 start 1 i = slot 2 start (-1) i := by
  unfold slot
  omega

theorem two_of_slot_one {size start : Int} (large : 2 ≤ size)
    (same : slot size start 1 1 = slot size start (-1) 1) :
    size = 2 := by
  have modeq : start + -1 * (1 : Nat) ≡ start + 1 * (1 : Nat) [ZMOD size] := same.symm
  have divides := modeq.dvd
  have apart : start + 1 * ((1 : Nat) : Int) - (start + -1 * ((1 : Nat) : Int)) = 2 := by omega
  rw [apart] at divides
  have most := Int.le_of_dvd (by decide) divides
  omega

private theorem two_elements :
    Reached id 0 (⟨true, false, ⟨1, 3⟩, 1, 0, 3, [7, 8, 0]⟩ : Circular Nat) := by
  have made : Reached id 0 (Circular.new 3 true [0, 0, 0]) := .new (by decide) true (by decide)
  have first : Reached id 0 (⟨true, false, ⟨2, 3⟩, 0, 0, 3, [7, 0, 0]⟩ : Circular Nat) :=
    .call made (.add 7) rfl
  exact .call first (.add 8) rfl

end TWlib.CircularIterator
