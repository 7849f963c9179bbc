import Mathlib.Algebra.Order.Ring.Int
import Mathlib.Data.Nat.Log
import TWlib.Lib.TreeZipper

/-!
# Red-black trees and the places in them

`Balanced` is the balance of a tree with a colour on every item, `Hole` that of the frames around a
place: what may be put there, and that the whole is balanced again. A rebalancing moves the place
where something is wrong outwards until it can be mended.
-/

namespace TWlib.Lib.RedBlackTree

open TWlib.Lib.TreeZipper

set_option autoImplicit false

inductive Color where
  | black
  | red
deriving DecidableEq

section Definitions

variable {Item : Type*} (color : Item → Color)

/-- No red node has a red subtree, and `Nat` black ones are on every way down. -/
inductive Balanced : BinaryTree Item → Color → Nat → Prop where
  | nil : Balanced .nil .black 0
  | red {item : Item} {left right : BinaryTree Item} {height : Nat} (paint : color item = .red)
      (below : Balanced left .black height) (beyond : Balanced right .black height) :
      Balanced (.node item left right) .red height
  | black {item : Item} {left right : BinaryTree Item} {height : Nat} {one other : Color}
      (paint : color item = .black) (below : Balanced left one height)
      (beyond : Balanced right other height) :
      Balanced (.node item left right) .black (height + 1)

/-- A tree of this height fits here, below a node of this colour if there is one. -/
inductive Hole : List (Frame Item) → Option Color → Nat → Prop where
  | top {height : Nat} : Hole [] none height
  | red {frame : Frame Item} {frames : List (Frame Item)} {height : Nat}
      (paint : color frame.item = .red)
      (beside : Balanced color frame.sibling .black height)
      (outer : Hole frames (some .black) height) :
      Hole (frame :: frames) (some .red) height
  | black {frame : Frame Item} {frames : List (Frame Item)} {height : Nat} {shade : Color}
      {above : Option Color}
      (paint : color frame.item = .black) (beside : Balanced color frame.sibling shade height)
      (outer : Hole frames above (height + 1)) : Hole (frame :: frames) (some .black) height

end Definitions

variable {Item : Type*} {color : Item → Color} {side : Side} {item : Item}
  {near far tree : BinaryTree Item} {frames : List (Frame Item)} {frame : Frame Item}
  {shade one other : Color} {above : Option Color} {height : Nat}

/-! ## One node -/

theorem join_red (paint : color item = .red) (below : Balanced color near .black height)
    (beyond : Balanced color far .black height) :
    Balanced color (join side near item far) .red height := by
  cases side with
  | left => exact Balanced.red paint below beyond
  | right => exact Balanced.red paint beyond below

theorem join_black (paint : color item = .black) (below : Balanced color near one height)
    (beyond : Balanced color far other height) :
    Balanced color (join side near item far) .black (height + 1) := by
  cases side with
  | left => exact Balanced.black paint below beyond
  | right => exact Balanced.black paint beyond below

theorem of_join_red (balanced : Balanced color (join side near item far) .red height) :
    color item = .red ∧ Balanced color near .black height ∧ Balanced color far .black height := by
  cases side with
  | left =>
      cases balanced with
      | red paint below beyond => exact ⟨paint, below, beyond⟩
  | right =>
      cases balanced with
      | red paint below beyond => exact ⟨paint, beyond, below⟩

theorem of_join_black (balanced : Balanced color (join side near item far) .black height) :
    color item = .black ∧ ∃ one other lower, height = lower + 1 ∧ Balanced color near one lower ∧
      Balanced color far other lower := by
  cases side with
  | left =>
      cases balanced with
      | black paint below beyond => exact ⟨paint, _, _, _, rfl, below, beyond⟩
  | right =>
      cases balanced with
      | black paint below beyond => exact ⟨paint, _, _, _, rfl, beyond, below⟩

theorem join_shade (balanced : Balanced color (join side near item far) shade height) :
    color item = shade := by
  cases shade with
  | red => exact (of_join_red balanced).1
  | black => exact (of_join_black balanced).1

theorem exists_node (balanced : Balanced color tree shade (height + 1)) (side : Side) :
    ∃ near item far, tree = join side near item far := by
  cases balanced with
  | red paint below beyond =>
      rcases exists_join side _ _ _ with ⟨near, far, shape⟩
      exact ⟨near, _, far, shape⟩
  | black paint below beyond =>
      rcases exists_join side _ _ _ with ⟨near, far, shape⟩
      exact ⟨near, _, far, shape⟩

theorem exists_node_red (balanced : Balanced color tree .red height) (side : Side) :
    ∃ near item far, tree = join side near item far := by
  cases balanced with
  | red paint below beyond =>
      rcases exists_join side _ _ _ with ⟨near, far, shape⟩
      exact ⟨near, _, far, shape⟩

/-! ## Taking a tree apart at a place -/

theorem plug_balanced (balanced : Balanced color tree shade height)
    (hole : Hole color frames above height) (fits : shade = .red → above = some .black) :
    ∃ total, Balanced color (plug frames tree) .black total := by
  induction frames generalizing tree shade height above with
  | nil =>
      cases hole
      cases shade with
      | black => exact ⟨height, balanced⟩
      | red => cases fits rfl
  | cons frame frames inductionHypothesis =>
      cases hole with
      | red paint beside outer =>
          cases shade with
          | red => cases fits rfl
          | black => exact inductionHypothesis (join_red paint balanced beside) outer fun _ => rfl
      | black paint beside outer =>
          exact inductionHypothesis (join_black paint balanced beside) outer
            fun contra => by cases contra

theorem unplug {total : Nat} (balanced : Balanced color (plug frames tree) .black total) :
    ∃ shade height above, Balanced color tree shade height ∧ Hole color frames above height ∧
      (shade = .red → above = some .black) := by
  induction frames generalizing tree with
  | nil => exact ⟨.black, total, none, balanced, Hole.top, fun contra => by cases contra⟩
  | cons frame frames inductionHypothesis =>
      rcases inductionHypothesis balanced with ⟨shade, height, above, filled, hole, fits⟩
      cases shade with
      | red =>
          rcases of_join_red filled with ⟨paint, below, beside⟩
          have outer : Hole color frames (some .black) height := fits rfl ▸ hole
          exact ⟨.black, height, some .red, below, Hole.red paint beside outer,
            fun contra => by cases contra⟩
      | black =>
          rcases of_join_black filled with ⟨paint, one, other, lower, rfl, below, beside⟩
          exact ⟨one, lower, some .black, below, Hole.black paint beside hole, fun _ => rfl⟩

theorem hole_repaint {new : Item} (hole : Hole color (⟨side, item, far⟩ :: frames) above height)
    (same : color new = color item) : Hole color (⟨side, new, far⟩ :: frames) above height := by
  cases hole with
  | red paint beside outer => exact Hole.red (by rw [same, paint]) beside outer
  | black paint beside outer => exact Hole.black (by rw [same, paint]) beside outer

theorem hole_append_repaint {new : Item} {inner outer : List (Frame Item)}
    (hole : Hole color (inner ++ ⟨side, item, far⟩ :: outer) above height)
    (same : color new = color item) :
    Hole color (inner ++ ⟨side, new, far⟩ :: outer) above height := by
  induction inner generalizing above height with
  | nil => exact hole_repaint hole same
  | cons frame inner inductionHypothesis =>
      cases hole with
      | red paint beside outer => exact Hole.red paint beside (inductionHypothesis outer)
      | black paint beside outer => exact Hole.black paint beside (inductionHypothesis outer)

/-! ## How deep the tree is -/

theorem two_pow_le (balanced : Balanced color tree shade height) :
    2 ^ height ≤ tree.numNodes + 1 := by
  induction balanced with
  | nil => exact Nat.le_refl 1
  | red _ _ _ left right =>
      simp only [BinaryTree.numNodes]
      omega
  | black _ _ _ left right =>
      simp only [BinaryTree.numNodes, Nat.pow_succ]
      omega

theorem height_le (balanced : Balanced color tree shade height) :
    tree.height ≤ 2 * height + (if shade = .red then 1 else 0) := by
  induction balanced with
  | nil => simp
  | red _ _ _ left right =>
      simp only [BinaryTree.height, reduceCtorEq, if_false, if_true] at *
      omega
  | black _ _ _ left right =>
      simp only [BinaryTree.height, reduceCtorEq, if_false]
      split_ifs at left right <;> omega

/-- Twice the logarithm of the number of nodes bounds the way to the bottom. -/
theorem height_le_log (balanced : Balanced color tree .black height) :
    tree.height ≤ 2 * Nat.log 2 (tree.numNodes + 1) := by
  have deep := height_le balanced
  have dense : height ≤ Nat.log 2 (tree.numNodes + 1) :=
    Nat.le_log_of_pow_le (by omega) (two_pow_le balanced)
  simp only [reduceCtorEq, if_false] at deep
  omega

end TWlib.Lib.RedBlackTree
