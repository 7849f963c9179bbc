import Mathlib.Data.List.Basic

/-!
# Slices of a list, by position and size

`slice off size` picks the positions `off .. off + size - 1` and `eraseSlice off size`
removes them. The lemmas follow a slice through a list that is given in two pieces.
-/

namespace TWlib.Lib.ListSlice

set_option autoImplicit false

variable {Item : Type*}

def slice (off size : Nat) (items : List Item) : List Item := (items.drop off).take size

def eraseSlice (off size : Nat) (items : List Item) : List Item :=
  items.take off ++ items.drop (off + size)

theorem erase_slice_length (off size : Nat) (items : List Item) (fits : off + size ≤ items.length) :
    (eraseSlice off size items).length + size = items.length := by
  simp only [eraseSlice, List.length_append, List.length_take, List.length_drop]
  omega

theorem erase_slice_behind (off size : Nat) (front back : List Item) :
    eraseSlice (front.length + off) size (front ++ back) = front ++ eraseSlice off size back := by
  simp only [eraseSlice, List.take_length_add_append, Nat.add_assoc, List.drop_length_add_append,
    List.append_assoc]

theorem erase_slice_before (off size : Nat) (front back : List Item)
    (fits : off + size ≤ front.length) :
    eraseSlice off size (front ++ back) = eraseSlice off size front ++ back := by
  simp only [eraseSlice]
  rw [List.take_append_of_le_length (by omega), List.drop_append_of_le_length fits,
    List.append_assoc]

theorem erase_slice_across (off excess : Nat) (front back : List Item) (fits : off ≤ front.length) :
    eraseSlice off (front.length - off + excess) (front ++ back) = front.take off ++
    back.drop excess := by
  have reach : off + (front.length - off + excess) = front.length + excess := by omega
  simp only [eraseSlice, reach, List.drop_length_add_append]
  rw [List.take_append_of_le_length fits]

theorem erase_slice_tail (off size : Nat) (items : List Item) (fits : off + size = items.length) :
    eraseSlice off size items = items.take off := by
  simp [eraseSlice, fits]

theorem slice_behind (off size : Nat) (front back : List Item) :
    slice (front.length + off) size (front ++ back) = slice off size back := by
  simp only [slice, List.drop_length_add_append]

theorem slice_before (off size : Nat) (front back : List Item) (fits : off + size ≤ front.length) :
    slice off size (front ++ back) = slice off size front := by
  simp only [slice]
  rw [List.drop_append_of_le_length (by omega),
    List.take_append_of_le_length (by simp only [List.length_drop]; omega)]

theorem slice_across (off excess : Nat) (front back : List Item) (fits : off ≤ front.length) :
    slice off (front.length - off + excess) (front ++ back) = front.drop off ++
    back.take excess := by
  simp only [slice]
  rw [List.drop_append_of_le_length fits]
  have length : front.length - off = (front.drop off).length := by simp
  rw [length, List.take_length_add_append]

theorem split_at_length (items : List Item) (count : Nat) (fits : count ≤ items.length) :
    ∃ front back, items = front ++ back ∧ front.length = count :=
  ⟨items.take count, items.drop count, (List.take_append_drop count items).symm,
    List.length_take_of_le fits⟩

theorem slice_middle (front middle back : List Item) :
    slice front.length middle.length (front ++ (middle ++ back)) = middle := by
  simp [slice]

theorem erase_slice_middle (front middle back : List Item) :
    eraseSlice front.length middle.length (front ++ (middle ++ back)) = front ++ back := by
  have reach : front.length + middle.length = (front ++ middle).length := by simp
  rw [eraseSlice, List.take_left, reach, ← List.append_assoc, List.drop_left]

/-- Moving the rest of a window to the left over a slice of it, in place, leaves the
window without the slice; what lies behind the moved bytes does not matter. -/
theorem erase_slice_in_place (items : List Item) (start length off size : Nat)
    (bound : start + length ≤ items.length) (fits : off + size ≤ length) (behind : List Item) :
    slice start (length - size)
      (items.take (start + off) ++ slice (start + off + size)
        (length - size - off) items ++ behind) =
      eraseSlice off size (slice start length items) := by
  rcases split_at_length items start (by omega) with ⟨front, rest, rfl, rfl⟩
  simp only [List.length_append] at bound
  rcases split_at_length rest off (by omega) with ⟨kept, rest, rfl, rfl⟩
  simp only [List.length_append] at bound
  rcases split_at_length rest size (by omega) with ⟨erased, rest, rfl, rfl⟩
  simp only [List.length_append] at bound
  rcases split_at_length rest (length - erased.length - kept.length) (by omega) with
    ⟨moved, rest, rfl, movedLength⟩
  have whole : length = (kept ++ (erased ++ moved)).length := by simp; omega
  have window : slice front.length length (front ++ (kept ++ (erased ++ (moved ++ rest)))) =
      kept ++ (erased ++ moved) := by
    have := slice_middle front (kept ++ (erased ++ moved)) rest
    simpa [whole] using this
  have taken : slice (front.length + kept.length + erased.length) moved.length
      (front ++ (kept ++ (erased ++ (moved ++ rest)))) = moved := by
    have := slice_middle (front ++ (kept ++ erased)) moved rest
    simpa [Nat.add_assoc] using this
  have before : (front ++ (kept ++ (erased ++ (moved ++ rest)))).take (front.length + kept.length) =
      front ++ kept := by
    rw [← List.append_assoc, ← List.length_append, List.take_left]
  have left : length - erased.length = (kept ++ moved).length := by simp; omega
  rw [window, erase_slice_middle, before, ← movedLength, taken, left]
  have := slice_middle front (kept ++ moved) behind
  simpa using this

/-- What is at a position after `count` items were copied, in place, from `src` to `dst`. -/
theorem copied_in_place_get (items : List Item) (dst src count i : Nat)
    (from_ : src + count ≤ items.length) (room : dst + count ≤ items.length) :
    (items.take dst ++ slice src count items ++ items.drop (dst + count))[i]? =
      if dst ≤ i ∧ i < dst + count then items[i - dst + src]? else items[i]? := by
  have copiedLength : (slice src count items).length = count := by
    simp only [slice, List.length_take, List.length_drop]
    omega
  have frontLength : (items.take dst).length = dst := List.length_take_of_le (by omega)
  rw [List.append_assoc, List.getElem?_append, frontLength]
  by_cases before : i < dst
  · rw [if_pos before, List.getElem?_take_of_lt before, if_neg (by omega)]
  · rw [if_neg before, List.getElem?_append, copiedLength]
    by_cases inside : i - dst < count
    · rw [if_pos inside, if_pos (by omega), slice, List.getElem?_take_of_lt inside,
        List.getElem?_drop,
        Nat.add_comm src]
    · rw [if_neg inside, if_neg (by omega), List.getElem?_drop]
      congr 1
      omega

end TWlib.Lib.ListSlice
