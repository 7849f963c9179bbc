import Mathlib.Data.List.Basic
import Mathlib.Data.List.Nodup

/-!
# Singly linked chains of cells

A store is seen here only through its successor function. `next cell = none`
says that the cell does not exist (it was never made, or is gone), `some none`
that it is the last one of its chain, and `some (some later)` that `later`
follows. Nothing is assumed about the cells themselves.
-/

namespace TWlib.Lib.LinkedChain

set_option autoImplicit false

variable {Cell : Type*}

/-- The cells met on the way from `start` up to, and without, `stop`. -/
def Segment (next : Cell → Option (Option Cell)) :
    Option Cell → List Cell → Option Cell → Prop
  | start, [], stop => start = stop
  | start, cell :: rest, stop =>
      start = some cell ∧ ∃ after, next cell = some after ∧ Segment next after rest stop

/-- A chain runs to its end: every cell on it exists and the last one has no successor. -/
def Chain (next : Cell → Option (Option Cell)) (start : Option Cell) (cells : List Cell) : Prop :=
  Segment next start cells none

/-- Following successors, through existing cells only. -/
inductive Reachable (next : Cell → Option (Option Cell)) : Option Cell → Cell → Prop where
  | here (cell : Cell) : Reachable next (some cell) cell
  | later {cell target : Cell} {after : Option Cell} (step : next cell = some after)
      (rest : Reachable next after target) : Reachable next (some cell) target

section Segments

variable {next : Cell → Option (Option Cell)}

@[simp] theorem segment_nil (start stop : Option Cell) :
    Segment next start [] stop ↔ start = stop := Iff.rfl

theorem segment_cons (start stop : Option Cell) (cell : Cell) (rest : List Cell) :
    Segment next start (cell :: rest) stop ↔
      start = some cell ∧ ∃ after, next cell = some after ∧ Segment next after rest stop := Iff.rfl

theorem segment_append (start stop : Option Cell) (front back : List Cell) :
    Segment next start (front ++ back) stop ↔
      ∃ middle, Segment next start front middle ∧ Segment next middle back stop := by
  induction front generalizing start with
  | nil => simp
  | cons cell rest ih =>
      simp only [List.cons_append, segment_cons, ih]
      constructor
      · rintro ⟨same, after, step, middle, left, right⟩
        exact ⟨middle, ⟨same, after, step, left⟩, right⟩
      · rintro ⟨middle, ⟨same, after, step, left⟩, right⟩
        exact ⟨same, after, step, middle, left, right⟩

theorem segment_frame {other : Cell → Option (Option Cell)} {start stop : Option Cell}
    {cells : List Cell} (segment : Segment next start cells stop)
    (same : ∀ cell ∈ cells, other cell = next cell) : Segment other start cells stop := by
  induction cells generalizing start with
  | nil => exact segment
  | cons cell rest ih =>
      obtain ⟨first, after, step, tail⟩ := segment
      exact ⟨first, after, (same cell (by simp)).trans step,
        ih tail (fun later member => same later (by simp [member]))⟩

theorem segment_exists {start stop : Option Cell} {cells : List Cell}
    (segment : Segment next start cells stop) :
    ∀ cell ∈ cells, ∃ after, next cell = some after := by
  induction cells generalizing start with
  | nil => simp
  | cons cell rest ih =>
      obtain ⟨-, after, step, tail⟩ := segment
      intro other member
      rcases List.mem_cons.mp member with same | later
      · exact ⟨after, same ▸ step⟩
      · exact ih tail other later

/-- Pointing the last cell elsewhere moves the stop of a segment and nothing else. -/
theorem segment_relink {other : Cell → Option (Option Cell)} {start stop newStop : Option Cell}
    {cells : List Cell} (segment : Segment next start cells stop) (nodup : cells.Nodup)
    (filled : cells ≠ []) (last : ∀ cell, cells.getLast? = some cell → other cell = some newStop)
    (same : ∀ cell ∈ cells, cells.getLast? ≠ some cell → other cell = next cell) :
    Segment other start cells newStop := by
  induction cells generalizing start with
  | nil => exact absurd rfl filled
  | cons cell rest ih =>
      rcases segment with ⟨first, after, step, tail⟩
      rcases List.nodup_cons.mp nodup with ⟨outside, nodupRest⟩
      cases rest with
      | nil => exact ⟨first, newStop, last cell rfl, rfl⟩
      | cons following others =>
          have lastSame : (cell :: following :: others).getLast? = (following :: others).getLast? :=
            List.getLast?_cons_cons
          have different : (following :: others).getLast? ≠ some cell := by
            intro equal
            exact outside (List.mem_of_getLast? equal)
          refine ⟨first, after, (same cell (by simp) (lastSame ▸ different)).trans step, ?_⟩
          apply ih tail nodupRest (by simp)
          · intro target isLast
            exact last target (lastSame.trans isLast)
          · intro target member notLast
            exact same target (List.mem_cons_of_mem _ member) (lastSame ▸ notLast)

theorem segment_start {start stop : Option Cell} {cells : List Cell}
    (segment : Segment next start cells stop) : start = cells.head?.or stop := by
  cases cells with
  | nil => simpa using segment
  | cons cell rest => simpa using segment.1

end Segments

section Chains

variable {next : Cell → Option (Option Cell)}

@[simp] theorem chain_nil (start : Option Cell) : Chain next start [] ↔ start = none := Iff.rfl

theorem chain_cons (start : Option Cell) (cell : Cell) (rest : List Cell) :
    Chain next start (cell :: rest) ↔
      start = some cell ∧ ∃ after, next cell = some after ∧ Chain next after rest := Iff.rfl

theorem chain_start {start : Option Cell} {cells : List Cell} (chain : Chain next start cells) :
    start = cells.head? := by
  simpa using segment_start chain

theorem chain_append (start : Option Cell) (front back : List Cell) :
    Chain next start (front ++ back) ↔
      Segment next start front back.head? ∧ Chain next back.head? back := by
  rw [Chain, segment_append]
  constructor
  · rintro ⟨middle, left, right⟩
    have same : middle = back.head? := chain_start right
    exact same ▸ ⟨left, right⟩
  · rintro ⟨left, right⟩
    exact ⟨_, left, right⟩

theorem chain_frame {other : Cell → Option (Option Cell)} {start : Option Cell} {cells : List Cell}
    (chain : Chain next start cells) (same : ∀ cell ∈ cells, other cell = next cell) :
    Chain other start cells := segment_frame chain same

theorem chain_unique {start : Option Cell} {left right : List Cell}
    (leftChain : Chain next start left) (rightChain : Chain next start right) : left = right := by
  induction left generalizing start right with
  | nil =>
      cases right with
      | nil => rfl
      | cons cell rest =>
          have empty : start = none := leftChain
          simp [empty, chain_cons] at rightChain
  | cons cell rest ih =>
      obtain ⟨first, after, step, tail⟩ := leftChain
      cases right with
      | nil => simp [first] at rightChain
      | cons other others =>
          obtain ⟨otherFirst, otherAfter, otherStep, otherTail⟩ := rightChain
          have same : other = cell := by simpa [first] using otherFirst.symm
          subst same
          have sameAfter : otherAfter = after := Option.some.inj (otherStep.symm.trans step)
          subst sameAfter
          rw [ih tail otherTail]

/-- A chain that ends cannot meet a cell twice: from the second meeting on it
would repeat itself, and both continuations would have to have one length. -/
theorem chain_nodup {start : Option Cell} {cells : List Cell} (chain : Chain next start cells) :
    cells.Nodup := by
  induction cells generalizing start with
  | nil => exact List.nodup_nil
  | cons cell rest ih =>
      obtain ⟨first, after, step, tail⟩ := id chain
      refine List.nodup_cons.mpr ⟨fun member => ?_, ih tail⟩
      obtain ⟨before, behind, split⟩ := List.append_of_mem member
      have again : Chain next (some cell) (cell :: behind) :=
        ((chain_append _ before (cell :: behind)).mp (split ▸ tail)).2
      have same := chain_unique (first ▸ chain) again
      have lengths := congrArg List.length same
      simp only [split, List.length_cons, List.length_append] at lengths
      omega

theorem reachable_iff_mem {start : Option Cell} {cells : List Cell}
    (chain : Chain next start cells) (target : Cell) :
    Reachable next start target ↔ target ∈ cells := by
  induction cells generalizing start with
  | nil =>
      have empty : start = none := chain
      subst empty
      simp only [List.not_mem_nil, iff_false]
      intro reach
      cases reach
  | cons cell rest ih =>
      obtain ⟨first, after, step, tail⟩ := chain
      subst first
      constructor
      · intro reach
        cases reach with
        | here => simp
        | later otherStep onward =>
            have same := Option.some.inj (otherStep.symm.trans step)
            subst same
            exact List.mem_cons_of_mem _ ((ih tail).mp onward)
      · intro member
        rcases List.mem_cons.mp member with same | later
        · subst same
          exact .here target
        · exact .later step ((ih tail).mpr later)

theorem reachable_of_segment_gone {start : Option Cell} {stop target : Cell} {cells : List Cell}
    (segment : Segment next start cells (some stop)) (gone : next stop = none)
    (reach : Reachable next start target) : target ∈ cells ∨ target = stop := by
  induction cells generalizing start with
  | nil =>
      have same : start = some stop := segment
      subst same
      cases reach with
      | here => exact .inr rfl
      | later step _ => simp [gone] at step
  | cons cell rest ih =>
      obtain ⟨first, after, step, tail⟩ := segment
      subst first
      cases reach with
      | here => simp
      | later otherStep onward =>
          have same := Option.some.inj (otherStep.symm.trans step)
          subst same
          rcases ih tail onward with member | final
          · exact .inl (List.mem_cons_of_mem _ member)
          · exact .inr final

end Chains

end TWlib.Lib.LinkedChain
