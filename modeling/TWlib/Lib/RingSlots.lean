import Mathlib.Data.Int.ModEq
import Mathlib.Data.List.Basic
import Mathlib.Tactic.Ring

/-!
# A sequence laid out around a ring of cells

The items occupy the cells met on the way from a start, one step after the other
in one of the two directions, and the way wraps at both ends. Nothing is said
about the other cells. The lemmas follow a sequence that grows at its end, loses
its first item, or is read from its other end.
-/

namespace TWlib.Lib.RingSlots

set_option autoImplicit false

variable {Item : Type*}

/-! ## Cells -/

def cellAt (data : List Item) (index : Int) : Option Item :=
  if 0 ≤ index then data[index.toNat]? else none

def setCell (data : List Item) (index : Int) (item : Item) : Option (List Item) :=
  if 0 ≤ index ∧ index < data.length then some (data.set index.toNat item) else none

variable {data after : List Item} {index other : Int} {item found : Item}

theorem cell_exists (low : 0 ≤ index) (high : index < data.length) :
    ∃ item, cellAt data index = some item := by
  have bound : index.toNat < data.length := by omega
  refine ⟨data[index.toNat], ?_⟩
  rw [cellAt, if_pos low]
  exact List.getElem?_eq_getElem bound

theorem cell_beyond (beyond : data.length ≤ index) : cellAt data index = none := by
  rw [cellAt, if_pos (by omega)]
  exact List.getElem?_eq_none (by omega)

theorem set_cell_exists (low : 0 ≤ index) (high : index < data.length) (item : Item) :
    ∃ after, setCell data index item = some after := ⟨_, if_pos ⟨low, high⟩⟩

theorem set_cell_length (set : setCell data index item = some after) :
    after.length = data.length := by
  unfold setCell at set
  split_ifs at set
  cases set
  simp

theorem set_cell_read (set : setCell data index item = some after) (other : Int) :
    cellAt after other = if other = index then some item else cellAt data other := by
  unfold setCell at set
  split_ifs at set with bounds
  cases set
  unfold cellAt
  by_cases same : other = index
  · subst same
    have bound : other.toNat < data.length := by omega
    simp [bounds.1, bound]
  · rw [if_neg same]
    split_ifs with low
    · have different : index.toNat ≠ other.toNat := by omega
      rw [List.getElem?_set_ne different]
    · rfl

/-! ## Slots -/

/-- The index of the cell met after `i` steps. -/
def slot (size start step : Int) (i : Nat) : Int := (start + step * i) % size

/-- One cell forward or one cell back. -/
def UnitStep (step : Int) : Prop := step = 1 ∨ step = -1

variable {size start step : Int}

theorem slot_range (start step : Int) (positive : 0 < size) (i : Nat) :
    0 ≤ slot size start step i ∧ slot size start step i < size :=
  ⟨Int.emod_nonneg _ (by omega), Int.emod_lt_of_pos _ positive⟩

theorem slot_zero (size start step : Int) : slot size start step 0 = start % size := by
  simp [slot]

theorem slot_wrap (i : Nat) : slot size (start % size) step i = slot size start step i := by
  simp [slot, Int.add_emod]

theorem slot_succ (i : Nat) : slot size start step (i + 1) = slot size (start + step) step i := by
  simp only [slot]
  congr 1
  push_cast
  ring

theorem slot_advance (i : Nat) : (slot size start step i + step) % size = slot size start step
    (i + 1) := by
  rw [slot, Int.emod_add_emod, slot]
  congr 1
  push_cast
  ring

/-- Less than a round apart, different numbers of steps lead to different cells. -/
theorem slot_injective (unit : UnitStep step) {i j : Nat} (iBound : (i : Int) < size)
    (jBound : (j : Int) < size) (same : slot size start step i = slot size start step j) :
    i = j := by
  have divides : size ∣ step * j - step * i := by
    have modeq : start + step * i ≡ start + step * j [ZMOD size] := same
    have apart := modeq.dvd
    have cancel : start + step * j - (start + step * i) = step * j - step * i := by ring
    rwa [cancel] at apart
  have distance : size ∣ (j : Int) - i := by
    rcases unit with rfl | rfl
    · simpa using divides
    · have flipped := (Int.dvd_neg).mpr divides
      have cancel : -(-1 * (j : Int) - -1 * i) = j - i := by ring
      rwa [cancel] at flipped
  have none_apart := Int.eq_zero_of_abs_lt_dvd distance (by rw [abs_lt]; omega)
  omega

theorem slot_back (size start step : Int) {count i : Nat} (within : i < count) :
    slot size (slot size start step (count - 1)) (-step) i = slot size start step
    (count - 1 - i) := by
  have place : start + step * ((count - 1 : Nat) : Int) + -step * i =
      start + step * ((count - 1 - i : Nat) : Int) := by
    have split : ((count - 1 : Nat) : Int) = ((count - 1 - i : Nat) : Int) + i := by omega
    rw [split]
    ring
  unfold slot
  rw [Int.emod_add_emod, place]

/-! ## Sequences -/

structure Laid (data : List Item) (start step : Int) (items : List Item) : Prop where
  fits : items.length ≤ data.length
  held : ∀ i, i < items.length → cellAt data (slot data.length start step i) = items[i]?

variable {items rest : List Item}

theorem laid_nil (data : List Item) (start step : Int) : Laid data start step [] :=
  ⟨Nat.zero_le _, by simp⟩

theorem laid_any (data : List Item) (start step : Int) {count : Nat} (fits : count ≤ data.length) :
    ∃ items, Laid data start step items ∧ items.length = count := by
  induction count generalizing start with
  | zero => exact ⟨[], laid_nil _ _ _, rfl⟩
  | succ count ih =>
      have positive : (0 : Int) < data.length := by omega
      rcases slot_range start step positive 0 with ⟨low, high⟩
      rcases cell_exists low high with ⟨item, read⟩
      rcases ih (start + step) (by omega) with ⟨rest, laid, length⟩
      refine ⟨item :: rest, ⟨?_, fun i within => ?_⟩, ?_⟩
      · rw [List.length_cons, length]
        exact fits
      · cases i with
        | zero => exact read
        | succ i =>
            rw [slot_succ]
            exact laid.held i (Nat.lt_of_succ_lt_succ within)
      · rw [List.length_cons, length]

theorem laid_wrap (laid : Laid data start step items) :
    Laid data (start % data.length) step items :=
  ⟨laid.fits, fun i within => by rw [slot_wrap, laid.held i within]⟩

theorem laid_first (laid : Laid data start step (item :: rest)) :
    cellAt data (start % data.length) = some item := by
  have first := laid.held 0 (by simp)
  rwa [slot_zero] at first

theorem laid_push (unit : UnitStep step) (laid : Laid data start step items)
    (set : setCell data (slot data.length start step items.length) item = some after)
    (room : items.length < data.length) : Laid after start step (items ++ [item]) := by
  have length := set_cell_length set
  refine ⟨by simp only [List.length_append, List.length_singleton]; omega, fun i within => ?_⟩
  simp only [List.length_append, List.length_singleton] at within
  rw [length, set_cell_read set]
  by_cases last : i = items.length
  · subst last
    simp
  · have different : slot data.length start step i ≠ slot data.length start step items.length := by
      intro same
      exact last (slot_injective unit (by omega) (by omega) same)
    rw [if_neg different, laid.held i (by omega), List.getElem?_append_left (by omega)]

theorem laid_pop (laid : Laid data start step (item :: rest)) :
    Laid data (start + step) step rest := by
  have fits := laid.fits
  simp only [List.length_cons] at fits
  refine ⟨by omega, fun i within => ?_⟩
  have later := laid.held (i + 1) (by simpa using within)
  rw [slot_succ] at later
  simpa using later

/-- What becomes of the cell of the first item does not matter to the others. -/
theorem laid_spoil (unit : UnitStep step) (laid : Laid data start step (item :: rest))
    (set : setCell data (start % data.length) found = some after) :
    Laid after (start + step) step rest := by
  have popped := laid_pop laid
  have length := set_cell_length set
  have fits := laid.fits
  simp only [List.length_cons] at fits
  refine ⟨by omega, fun i within => ?_⟩
  have different : slot data.length (start + step) step i ≠ start % data.length := by
    intro same
    rw [← slot_succ, ← slot_zero _ start step] at same
    have equal := slot_injective unit (by omega) (by omega) same
    omega
  rw [length, set_cell_read set, if_neg different, popped.held i within]

theorem laid_reverse (laid : Laid data start step items) :
    Laid data (slot data.length start step (items.length - 1)) (-step) items.reverse := by
  refine ⟨by simpa using laid.fits, fun i within => ?_⟩
  rw [List.length_reverse] at within
  rw [slot_back _ _ _ within, laid.held _ (by omega), List.getElem?_reverse within]

end TWlib.Lib.RingSlots
