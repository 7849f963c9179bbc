import TWlib.Lib.SearchTree
import TWlib.RbTreeUpdates

/-!
# Searching and stepping

The loops that follow the pointers, against the search and the order of the tree they are in.
-/

namespace TWlib.RbTree

open TWlib.Lib.CellStore
open TWlib.Lib.TreeZipper
open TWlib.Lib.ParentTree
open TWlib.Lib.RedBlackTree
open TWlib.Lib.SearchTree

set_option autoImplicit false

variable {Data : Type} {head : RbHead Data} {frames path rest : List (Frame (Item Data))}
  {frame : Frame (Item Data)} {near far tree left right whole : BinaryTree (Item Data)}
  {item : Item Data} {side : Side} {elm : Nat} {fuel : Nat} {cmp : Data → Data → Int} {key : Data}

def against (cmp : Data → Data → Int) (key : Data) (item : Item Data) : Int := cmp key item.data

theorem at_children (at' : At head frames (.node item left right)) :
    At head (⟨.left, item, right⟩ :: frames) left ∧
    At head (⟨.right, item, left⟩ :: frames) right :=
  ⟨at_left.mp at', at_right.mp at'⟩

theorem find_loop_run (cmp : Data → Data → Int) (key : Data) (at' : At head frames tree)
    (enough : tree.height ≤ fuel) :
    findLoop cmp head key fuel (pointer layout tree) =
      some (pointer layout (descend (against cmp key) frames tree).2) := by
  induction tree generalizing frames fuel with
  | nil => cases fuel <;> rfl
  | node item left right inLeft inRight =>
      simp only [BinaryTree.height] at enough
      cases fuel with
      | zero => omega
      | succ fuel =>
          have here : head.nodes.read item.cell =
            some (layout.value item (pointer layout left) (pointer layout right)
              (parent layout frames)) :=
              at'.place.linked.1
          have deeperLeft := inLeft (at_children at').1 (show left.height ≤ fuel by omega)
          have deeperRight := inRight (at_children at').2 (show right.height ≤ fuel by omega)
          show findLoop cmp head key (fuel + 1) (some item.cell) = _
          by_cases below : cmp key item.data < 0
          · simp [findLoop, here, layout, descend, against, below]
            exact deeperLeft
          · by_cases above : 0 < cmp key item.data
            · simp [findLoop, here, layout, descend, against, below, above]
              exact deeperRight
            · simp [findLoop, here, layout, descend, against, below, above, pointer]

theorem insert_loop_run (cmp : Data → Data → Int) (key : Data) (comp : Int)
    (at' : At head frames tree) (ways : ∀ frame rest, frames = frame :: rest →
      frame.side = if comp < 0 then .left else .right) :
    (∃ item left right, (descend (against cmp key) frames tree).2 = .node item left right ∧
      ∀ fuel, tree.height ≤ fuel →
      insertLoop cmp head key fuel (pointer layout tree) (parent layout frames) comp =
      some (.equal item.cell)) ∨
    ∃ last, (descend (against cmp key) frames tree).2 = .nil ∧
      (∀ frame rest, (descend (against cmp key) frames tree).1 = frame :: rest →
        frame.side = if last < 0 then .left else .right) ∧ ∀ fuel, tree.height ≤ fuel →
          insertLoop cmp head key fuel (pointer layout tree) (parent layout frames) comp =
            some (.bottom (parent layout (descend (against cmp key) frames tree).1) last) := by
  induction tree generalizing frames comp with
  | nil => exact Or.inr ⟨comp, rfl, ways, fun fuel _ => by cases fuel <;> rfl⟩
  | node item left right inLeft inRight =>
      have here : head.nodes.read item.cell =
        some (layout.value item (pointer layout left) (pointer layout right)
          (parent layout frames)) :=
          at'.place.linked.1
      have round : ∀ fuel, insertLoop cmp head key (fuel + 1) (some item.cell)
          (parent layout frames) comp =
          if cmp key item.data < 0 then
            insertLoop cmp head key fuel (pointer layout left) (some item.cell) (cmp key item.data)
          else if 0 < cmp key item.data then
            insertLoop cmp head key fuel (pointer layout right) (some item.cell) (cmp key item.data)
          else some (.equal item.cell) := by
        intro fuel
        simp [insertLoop, here]
        rfl
      have started : ∀ {landing : Landing}, (∀ fuel, max left.height right.height ≤ fuel →
          insertLoop cmp head key (fuel + 1) (some item.cell) (parent layout frames) comp =
            some landing) →
            ∀ fuel, (BinaryTree.node item left right).height ≤ fuel →
              insertLoop cmp head key fuel (some item.cell) (parent layout frames) comp =
              some landing := by
        intro landing runs fuel enough
        cases fuel with
        | zero => simp at enough
        | succ fuel => exact runs fuel (by simpa using enough)
      by_cases below : cmp key item.data < 0
      · have deeper := inLeft (cmp key item.data) (at_children at').1
          (by rintro frame rest shape; cases shape; simp [below])
        simp only [descend, against, below, if_true]
        rcases deeper with ⟨other, before, after, found, run⟩ | ⟨last, bottom, turns, run⟩
        · refine Or.inl ⟨other, before, after, found, started fun fuel enough => ?_⟩
          rw [round, if_pos below]
          exact run fuel (by omega)
        · refine Or.inr ⟨last, bottom, turns, started fun fuel enough => ?_⟩
          rw [round, if_pos below]
          exact run fuel (by omega)
      · by_cases above : 0 < cmp key item.data
        · have deeper := inRight (cmp key item.data) (at_children at').2
            (by rintro frame rest shape; cases shape; simp [below])
          simp only [descend, against, below, above, if_true, if_false]
          rcases deeper with ⟨other, before, after, found, run⟩ | ⟨last, bottom, turns, run⟩
          · refine Or.inl ⟨other, before, after, found, started fun fuel enough => ?_⟩
            rw [round, if_neg below, if_pos above]
            exact run fuel (by omega)
          · refine Or.inr ⟨last, bottom, turns, started fun fuel enough => ?_⟩
            rw [round, if_neg below, if_pos above]
            exact run fuel (by omega)
        · simp only [descend, against, below, above, if_false]
          refine Or.inl ⟨item, left, right, rfl, started fun fuel enough => ?_⟩
          rw [round, if_neg below, if_neg above]

/-- What is kept in `res` is the first item behind the place. -/
theorem nfind_loop_run (cmp : Data → Data → Int) (key : Data) (at' : At head frames tree)
    (enough : tree.height ≤ fuel) :
    nfindLoop cmp head key fuel (pointer layout tree) ((after frames).head?.map Item.cell) =
      some (match (descend (against cmp key) frames tree).2 with
        | .nil => (after (descend (against cmp key) frames tree).1).head?.map Item.cell
        | .node item _ _ => some item.cell) := by
  induction tree generalizing frames fuel with
  | nil => cases fuel <;> rfl
  | node item left right inLeft inRight =>
      simp only [BinaryTree.height] at enough
      cases fuel with
      | zero => omega
      | succ fuel =>
          have here : head.nodes.read item.cell =
            some (layout.value item (pointer layout left) (pointer layout right)
              (parent layout frames)) :=
              at'.place.linked.1
          have deeperLeft := inLeft (at_children at').1 (show left.height ≤ fuel by omega)
          have deeperRight := inRight (at_children at').2 (show right.height ≤ fuel by omega)
          show nfindLoop cmp head key (fuel + 1) (some item.cell) _ = _
          by_cases below : cmp key item.data < 0
          · simp [nfindLoop, here, layout, descend, against, below]
            exact deeperLeft
          · by_cases above : 0 < cmp key item.data
            · simp [nfindLoop, here, layout, descend, against, below, above]
              exact deeperRight
            · simp [nfindLoop, here, layout, descend, against, below, above]

/-! ## Neighbours -/

theorem climb_run (at' : At head frames tree) (here : pointer layout tree = some elm)
    (enough : frames.length < fuel) :
    climb side head fuel elm = some ((ahead side frames).head?.map Item.cell) := by
  induction frames generalizing tree elm fuel with
  | nil =>
      cases tree with
      | nil => cases here
      | node item left right =>
          cases here
          have parentRead : rbParent head item.cell = some none := read_parent (at_node at')
          cases fuel with
          | zero => cases enough
          | succ fuel => simp [climb, parentRead]
  | cons frame frames inductionHypothesis =>
      cases tree with
      | nil => cases here
      | node item left right =>
          have apart := sibling_ne at' here
          cases here
          have parentRead : rbParent head item.cell = some (some frame.item.cell) :=
            read_parent (at_node at')
          rcases frame with ⟨way, above, sibling⟩
          have outer := at_near.mpr at'
          cases fuel with
          | zero => cases enough
          | succ fuel =>
              by_cases same : way = side
              · subst same
                have deeper := inductionHypothesis outer pointer_join
                  (show frames.length < fuel by simpa using enough)
                have childRead : rbChild way head above.cell = some (some item.cell) :=
                  read_near outer
                rw [ahead_near]
                simpa [climb, parentRead, childRead] using deeper
              · have turned : side = way.flip := eq_flip_of_ne (Ne.symm same)
                subst turned
                have childRead : rbChild way.flip head above.cell = some (pointer layout sibling) :=
                  read_far outer
                have notHere : pointer layout sibling ≠ some item.cell := apart
                have first := ahead_far way.flip above sibling frames
                rw [flip_twice] at first
                rw [first]
                simp [climb, parentRead, childRead, notHere]

/-- `RB_NEXT` and `RB_PREV` step to the item that follows in the direction. -/
theorem rb_neighbour_run (side : Side) (at' : At head frames (join side near item far)) :
    rbNeighbour side head item.cell = some ((travel side near ++ ahead side frames).head?.map
      Item.cell) := by
  have nearRead := read_near at'
  have bound := cells_bound at'
  have some_node : 1 + near.numNodes ≤ (join side near item far).numNodes := by
    cases side <;> simp only [join, BinaryTree.numNodes] <;> omega
  by_cases bottom : near = .nil
  · subst bottom
    have climbed : climb side head head.nodes.fresh item.cell =
        some ((ahead side frames).head?.map Item.cell) :=
      climb_run at' pointer_join (by omega)
    have parentRead := read_parent at'
    have nothing : rbChild side head item.cell = some none := nearRead
    rw [travel_nil, List.nil_append]
    cases frames with
    | nil =>
        have top : rbParent head item.cell = some none := parentRead
        simp [rbNeighbour, nothing, top, climbed]
    | cons frame rest =>
        have apart := sibling_ne at' pointer_join
        rcases frame with ⟨way, above, sibling⟩
        have outer := at_near.mpr at'
        have top : rbParent head item.cell = some (some above.cell) := parentRead
        by_cases same : way = side
        · subst same
          have childRead : rbChild way.flip head above.cell = some (pointer layout sibling) :=
            read_far outer
          have notHere : pointer layout sibling ≠ some item.cell := by simpa using apart
          simp [rbNeighbour, nothing, top, climbed, childRead, notHere]
        · have turned : way = side.flip := eq_flip_of_ne same
          subst turned
          have childRead : rbChild side.flip head above.cell = some (some item.cell) := by
            rw [read_near outer, pointer_join]
            rfl
          rw [ahead_far]
          simp [rbNeighbour, nothing, top, childRead]
  · rcases exists_last side.flip bottom with ⟨path, next, beyond, rfl, ways⟩
    have some_below : ∃ below, pointer layout (plug path (join side.flip .nil next beyond)) =
        some below := by
      cases shape : plug path (join side.flip .nil next beyond) with
      | nil => exact absurd shape bottom
      | node top before behind => exact ⟨_, rfl⟩
    rcases some_below with ⟨below, top⟩
    have pathBound := length_add_nodes_le path (join side.flip .nil next beyond)
    have last : lastOn side.flip head head.nodes.fresh below = some next.cell :=
      last_on_run ways (at_near.mp at') top (by omega)
    rw [travel_first ways]
    simp [rbNeighbour, nearRead, top, last]

theorem minmax_loop_run {last : Option Nat} (at' : At head frames tree)
    (enough : tree.height ≤ fuel) :
    minmaxLoop side head fuel (pointer layout tree) last =
      some (((travel side.flip tree).head?.map Item.cell).or last) := by
  induction tree generalizing frames fuel last with
  | nil => cases fuel <;> simp [minmaxLoop, pointer]
  | node item left right inLeft inRight =>
      simp only [BinaryTree.height] at enough
      cases fuel with
      | zero => omega
      | succ fuel =>
          have deeper : ∀ near far, BinaryTree.node item left right = join side near item far →
              minmaxLoop side head fuel (pointer layout near) (some item.cell) =
                some (((travel side.flip near).head?.map Item.cell).or (some item.cell)) := by
            intro near far shape
            cases side with
            | left =>
                cases shape
                exact inLeft (at_children at').1 (by omega)
            | right =>
                cases shape
                exact inRight (at_children at').2 (by omega)
          rcases exists_join side item left right with ⟨near, far, shape⟩
          have below := deeper near far shape
          rw [shape] at at' ⊢
          have nearRead := read_near at'
          have order : travel side.flip (join side near item far) =
              travel side.flip near ++ item :: travel side.flip far := by
            rw [← join_flip, travel_join]
          rw [pointer_join, order]
          show minmaxLoop side head (fuel + 1) (some item.cell) last = _
          cases front : travel side.flip near with
          | nil =>
              rw [front] at below
              simpa [minmaxLoop, nearRead] using below
          | cons first others =>
              rw [front] at below
              simpa [minmaxLoop, nearRead] using below

end TWlib.RbTree
