import TWlib.Lib.LinkedChain

/-!
# Doubly linked chains of cells

A chain from `head` and a chain from `tail` meet the same cells in opposite orders. Nothing else is
needed for the successors and the predecessors to mirror each other, and exchanging the two
directions gives every fact about the one end from that about the other.
-/

namespace TWlib.Lib.DoublyLinked

open TWlib.Lib.LinkedChain

set_option autoImplicit false

variable {Cell : Type*}

structure Linked (next prev : Cell → Option (Option Cell)) (head tail : Option Cell)
    (cells : List Cell) : Prop where
  forward : Chain next head cells
  backward : Chain prev tail cells.reverse

variable {next prev otherNext otherPrev : Cell → Option (Option Cell)} {head tail : Option Cell}
  {cell new : Cell} {cells front back : List Cell}

theorem linked_nothing (next prev : Cell → Option (Option Cell)) :
    Linked next prev none none [] := ⟨rfl, rfl⟩

theorem linked_flip (linked : Linked next prev head tail cells) :
    Linked prev next tail head cells.reverse :=
  ⟨linked.backward, by rw [List.reverse_reverse]; exact linked.forward⟩

theorem linked_head (linked : Linked next prev head tail cells) : head = cells.head? :=
  chain_start linked.forward

theorem linked_tail (linked : Linked next prev head tail cells) : tail = cells.getLast? := by
  rw [linked_head (linked_flip linked), List.head?_reverse]

theorem linked_nodup (linked : Linked next prev head tail cells) : cells.Nodup :=
  chain_nodup linked.forward

theorem linked_frame (linked : Linked next prev head tail cells)
    (sameNext : ∀ cell ∈ cells, otherNext cell = next cell)
    (samePrev : ∀ cell ∈ cells, otherPrev cell = prev cell) :
    Linked otherNext otherPrev head tail cells := by
  refine ⟨chain_frame linked.forward sameNext, chain_frame linked.backward ?_⟩
  exact fun cell member => samePrev cell (List.mem_reverse.mp member)

/-! ## Neighbours -/

theorem linked_next (linked : Linked next prev head tail (front ++ cell :: back)) :
    next cell = some back.head? := by
  rcases (chain_append _ _ _).mp linked.forward with ⟨-, -, after, step, rest⟩
  rw [step, chain_start rest]

theorem linked_prev (linked : Linked next prev head tail (front ++ cell :: back)) :
    prev cell = some front.getLast? := by
  have flipped := linked_flip linked
  rw [List.reverse_append, List.reverse_cons, List.append_assoc, List.singleton_append] at flipped
  rw [linked_next flipped, List.head?_reverse]

/-! ## Removing -/

section Relinked

variable [DecidableEq Cell]

theorem chain_remove {start : Option Cell} (chain : Chain next start (front ++ cell :: back))
    (relinked : ∀ target ∈ front ++ back,
      otherNext target = if front.getLast? = some target then some back.head? else next target) :
    Chain otherNext (front ++ back).head? (front ++ back) := by
  have nodup : front.Nodup := (List.nodup_append.mp (chain_nodup chain)).1
  have apart : ∀ target ∈ back, front.getLast? ≠ some target := by
    intro target member last
    have distinct := (List.nodup_append.mp (chain_nodup chain)).2.2
    exact distinct target (List.mem_of_getLast? last) target (List.mem_cons_of_mem _ member) rfl
  rcases (chain_append _ _ _).mp chain with ⟨segment, -, after, step, rest⟩
  have behind : Chain otherNext back.head? back := by
    rw [← chain_start rest]
    apply chain_frame rest
    intro target member
    rw [relinked target (List.mem_append_right _ member), if_neg (apart target member)]
  cases filled : front with
  | nil => exact behind
  | cons first others =>
      rw [← filled]
      have some_front : front ≠ [] := by simp [filled]
      have before : Segment otherNext start front back.head? := by
        apply segment_relink segment nodup some_front
        · intro target last
          rw [relinked target (List.mem_append_left _ (List.mem_of_getLast? last)), if_pos last]
        · intro target member notLast
          rw [relinked target (List.mem_append_left _ member), if_neg notLast]
      have first : start = (front ++ back).head? := by
        rw [segment_start before]
        simp [filled]
      rw [← first]
      exact (chain_append _ _ _).mpr ⟨before, behind⟩

theorem linked_remove (linked : Linked next prev head tail (front ++ cell :: back))
    (nexts : ∀ target ∈ front ++ back,
      otherNext target = if front.getLast? = some target then some back.head? else next target)
    (prevs : ∀ target ∈ front ++ back,
      otherPrev target = if back.head? = some target then some front.getLast? else prev target) :
    Linked otherNext otherPrev (front ++ back).head? (front ++ back).getLast? (front ++ back) := by
  refine ⟨chain_remove linked.forward nexts, ?_⟩
  have flipped := (linked_flip linked).forward
  rw [List.reverse_append, List.reverse_cons, List.append_assoc, List.singleton_append] at flipped
  have removed : Chain otherPrev (back.reverse ++ front.reverse).head?
      (back.reverse ++ front.reverse) := by
    apply chain_remove flipped
    intro target member
    have present : target ∈ front ++ back := by simpa [or_comm] using member
    rw [prevs target present, List.getLast?_reverse, List.head?_reverse]
  rwa [← List.reverse_append, List.head?_reverse] at removed

/-! ## Adding -/

theorem linked_push_back (linked : Linked next prev head tail cells)
    (nexts : ∀ target ∈ cells, otherNext target = if cells.getLast? =
      some target then some (some new) else next target)
    (ends : otherNext new = some none) (prevs : ∀ target ∈ cells, otherPrev target = prev target)
    (behind : otherPrev new = some tail) :
    Linked otherNext otherPrev (cells ++ [new]).head? (some new) (cells ++ [new]) := by
  have single : Chain otherNext (some new) [new] := ⟨rfl, none, ends, rfl⟩
  refine ⟨?_, ?_⟩
  · cases filled : cells with
    | nil => exact single
    | cons first others =>
        rw [← filled]
        have segment : Segment otherNext head cells (some new) := by
          apply segment_relink linked.forward (linked_nodup linked) (by simp [filled])
          · intro target last
            rw [nexts target (List.mem_of_getLast? last), if_pos last]
          · intro target member notLast
            rw [nexts target member, if_neg notLast]
        have start : head = (cells ++ [new]).head? := by
          rw [linked_head linked]
          simp [filled]
        rw [← start]
        exact (chain_append _ _ _).mpr ⟨segment, single⟩
  · rw [List.reverse_append]
    refine ⟨rfl, tail, behind, ?_⟩
    apply chain_frame linked.backward
    exact fun target member => prevs target (List.mem_reverse.mp member)

theorem linked_push_front (linked : Linked next prev head tail cells)
    (prevs : ∀ target ∈ cells, otherPrev target = if cells.head? = some target then some (some new)
      else prev target)
    (ends : otherPrev new = some none) (nexts : ∀ target ∈ cells, otherNext target = next target)
    (before : otherNext new = some head) :
    Linked otherNext otherPrev (some new) (new :: cells).getLast? (new :: cells) := by
  have pushed : Linked otherPrev otherNext (cells.reverse ++ [new]).head? (some new)
      (cells.reverse ++ [new]) := by
    apply linked_push_back (linked_flip linked) _ ends _ before
    · intro target member
      rw [prevs target (List.mem_reverse.mp member), List.getLast?_reverse]
    · exact fun target member => nexts target (List.mem_reverse.mp member)
  have flipped := linked_flip pushed
  rw [List.reverse_append, List.reverse_reverse, List.reverse_singleton,
    List.singleton_append] at flipped
  rwa [← List.reverse_cons, List.head?_reverse] at flipped

/-! ## Two chains one behind the other -/

variable {start last : Option Cell} {others : List Cell}

theorem chain_splice (before : Chain next head cells) (behind : Chain next start others)
    (apart : cells.Disjoint others)
    (relinked : ∀ target ∈ cells ++ others,
      otherNext target = if cells.getLast? = some target then some others.head? else next target) :
    Chain otherNext (cells ++ others).head? (cells ++ others) := by
  have second : Chain otherNext others.head? others := by
    rw [← chain_start behind]
    apply chain_frame behind
    intro target member
    have notLast : cells.getLast? ≠ some target :=
      fun same => apart (List.mem_of_getLast? same) member
    rw [relinked target (List.mem_append_right _ member), if_neg notLast]
  cases filled : cells with
  | nil => exact second
  | cons first rest =>
      rw [← filled]
      have segment : Segment otherNext head cells others.head? := by
        apply segment_relink before (chain_nodup before) (by simp [filled])
        · intro target isLast
          rw [relinked target (List.mem_append_left _ (List.mem_of_getLast? isLast)), if_pos isLast]
        · intro target member notLast
          rw [relinked target (List.mem_append_left _ member), if_neg notLast]
      have same : head = (cells ++ others).head? := by
        rw [segment_start segment]
        simp [filled]
      rw [← same]
      exact (chain_append _ _ _).mpr ⟨segment, second⟩

theorem linked_splice (before : Linked next prev head tail cells)
    (behind : Linked next prev start last others) (apart : cells.Disjoint others)
    (nexts : ∀ target ∈ cells ++ others,
      otherNext target = if cells.getLast? = some target then some others.head? else next target)
    (prevs : ∀ target ∈ cells ++ others,
      otherPrev target = if others.head? = some target then some cells.getLast? else prev target) :
    Linked otherNext otherPrev (cells ++ others).head? (cells ++ others).getLast?
    (cells ++ others) := by
  refine ⟨chain_splice before.forward behind.forward apart nexts, ?_⟩
  have backward : Chain otherPrev (others.reverse ++ cells.reverse).head?
      (others.reverse ++ cells.reverse) := by
    apply chain_splice behind.backward before.backward
    · exact fun target inside member =>
        apart (List.mem_reverse.mp member) (List.mem_reverse.mp inside)
    · intro target member
      have present : target ∈ cells ++ others := by simpa [or_comm] using member
      rw [prevs target present, List.getLast?_reverse, List.head?_reverse]
  rwa [← List.reverse_append, List.head?_reverse] at backward

end Relinked

end TWlib.Lib.DoublyLinked
