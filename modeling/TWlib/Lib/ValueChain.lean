import TWlib.Lib.LinkedChain

/-!
# Chains of cells that hold values

A chain is seen through its successor function, as in `LinkedChain`, and the content of its
cells through `value`. `Carries` says which cells a chain has and which values they hold; the
lemmas are those of a queue that is changed at its ends.
-/

namespace TWlib.Lib.ValueChain

open TWlib.Lib.LinkedChain

set_option autoImplicit false

variable {Cell Item : Type*}

structure Carries (next : Cell → Option (Option Cell)) (value : Cell → Option Item)
    (start : Option Cell) (cells : List Cell) (items : List Item) : Prop where
  chain : Chain next start cells
  values : cells.map value = items.map some

variable {next other : Cell → Option (Option Cell)} {value otherValue : Cell → Option Item}
  {start : Option Cell} {cell new : Cell} {cells : List Cell} {item : Item} {items : List Item}

theorem carries_nothing (next : Cell → Option (Option Cell)) (value : Cell → Option Item) :
    Carries next value none [] [] := ⟨rfl, rfl⟩

theorem carries_length (carries : Carries next value start cells items) :
    cells.length = items.length := by
  simpa using congrArg List.length carries.values

theorem carries_no_cells (carries : Carries next value start cells ([] : List Item)) : cells = [] :=
  List.length_eq_zero_iff.mp (carries_length carries)

theorem carries_no_items (carries : Carries next value start ([] : List Cell) items) : items = [] :=
  List.length_eq_zero_iff.mp (carries_length carries).symm

theorem carries_head (carries : Carries next value start cells items) : start = cells.head? :=
  chain_start carries.chain

theorem carries_none (carries : Carries next value none cells items) : cells = [] ∧ items = [] := by
  have empty : cells = [] := by simpa using (carries_head carries).symm
  subst empty
  exact ⟨rfl, carries_no_items carries⟩

theorem carries_first (carries : Carries next value (some cell) cells items) :
    ∃ rest item others after, cells = cell :: rest ∧ items = item :: others ∧
      next cell = some after ∧
      value cell = some item ∧ Carries next value after rest others := by
  rcases carries with ⟨chain, values⟩
  cases cells with
  | nil => simp at chain
  | cons first rest =>
      rcases chain with ⟨same, after, step, tail⟩
      cases same
      cases items with
      | nil => simp at values
      | cons item others =>
          have both : value cell = some item ∧ rest.map value =
            others.map some := by simpa using values
          exact ⟨rest, item, others, after, rfl, rfl, step, both.1, tail, both.2⟩

theorem carries_frame (carries : Carries next value start cells items)
    (sameNext : ∀ cell ∈ cells, other cell = next cell)
    (sameValue : ∀ cell ∈ cells, otherValue cell = value cell) :
    Carries other otherValue start cells items := by
  refine ⟨chain_frame carries.chain sameNext, ?_⟩
  rw [← carries.values]
  exact List.map_congr_left sameValue

theorem carries_push_front (carries : Carries next value start cells items)
    (links : next new = some start) (holds : value new = some item) :
    Carries next value (some new) (new :: cells) (item :: items) := by
  refine ⟨⟨rfl, start, links, carries.chain⟩, ?_⟩
  simp only [List.map_cons, holds, carries.values]

theorem carries_push_back (carries : Carries next value start cells items) (filled : cells ≠ [])
    (relinked : ∀ cell, cells.getLast? = some cell → other cell = some (some new))
    (same : ∀ cell ∈ cells, cells.getLast? ≠ some cell → other cell = next cell)
    (sameValue : ∀ cell ∈ cells, otherValue cell = value cell)
    (ends : other new = some none) (holds : otherValue new = some item) :
    Carries other otherValue start (cells ++ [new]) (items ++ [item]) := by
  have nodup : cells.Nodup := chain_nodup carries.chain
  have segment : Segment other start cells (some new) :=
    segment_relink carries.chain nodup filled relinked same
  have single : Segment other (some new) [new] none := ⟨rfl, none, ends, rfl⟩
  have values : cells.map otherValue = cells.map value := List.map_congr_left sameValue
  refine ⟨(segment_append start none cells [new]).mpr ⟨some new, segment, single⟩, ?_⟩
  simp only [List.map_append, values, carries.values, List.map_cons, List.map_nil, holds]

/-- Two chains that share no cell, when the last cell of the first is pointed at the second. -/
theorem carries_splice {others : List Cell} {values : List Item}
    (front : Carries next value start cells items)
    (back : Carries next value (some cell) others values) (filled : cells ≠ [])
    (apart : cells.Disjoint others) (relinked : ∀ last, cells.getLast? = some last →
      other last = some (some cell)) (same : ∀ link ∈ cells ++ others, cells.getLast? ≠ some link →
        other link = next link)
    (sameValue : ∀ link ∈ cells ++ others, otherValue link = value link) :
    Carries other otherValue start (cells ++ others) (items ++ values) := by
  have nodup : cells.Nodup := chain_nodup front.chain
  have segment : Segment other start cells (some cell) := by
    apply segment_relink front.chain nodup filled relinked
    exact fun link member => same link (List.mem_append_left _ member)
  have behind : Chain other (some cell) others := by
    apply chain_frame back.chain
    intro link member
    apply same link (List.mem_append_right _ member)
    exact fun last => apart (List.mem_of_getLast? last) member
  refine ⟨(segment_append start none cells others).mpr ⟨some cell, segment, behind⟩, ?_⟩
  have held : (cells ++ others).map otherValue = (cells ++ others).map value :=
    List.map_congr_left sameValue
  rw [held, List.map_append, front.values, back.values, List.map_append]

end TWlib.Lib.ValueChain
