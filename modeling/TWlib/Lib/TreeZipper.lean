import Mathlib.Data.List.Perm.Basic
import Mathlib.Data.Tree.Basic

/-!
# Places in a binary tree

A place is a subtree together with the frames met on the way to it, the innermost first. A frame
tells on which side of its item the way went on, so that what holds of one side is stated for both
at once.
-/

namespace TWlib.Lib.TreeZipper

set_option autoImplicit false

inductive Side where
  | left
  | right
deriving DecidableEq

def Side.flip : Side → Side
  | .left => .right
  | .right => .left

@[simp] theorem flip_twice (side : Side) : side.flip.flip = side := by cases side <;> rfl

@[simp] theorem flip_ne (side : Side) : side.flip ≠ side := by cases side <;> decide

@[simp] theorem ne_flip (side : Side) : side ≠ side.flip := by cases side <;> decide

theorem eq_flip_of_ne {side other : Side} (apart : side ≠ other) : side = other.flip := by
  cases side <;> cases other <;> simp_all [Side.flip]

variable {Item : Type*}

/-- The node with `near` as its subtree on `side`. -/
def join (side : Side) (near : BinaryTree Item) (item : Item) (far : BinaryTree Item) :
    BinaryTree Item :=
  match side with
  | .left => .node item near far
  | .right => .node item far near

theorem join_flip (side : Side) (near far : BinaryTree Item) (item : Item) :
    join side.flip near item far = join side far item near := by cases side <;> rfl

theorem exists_join (side : Side) (item : Item) (left right : BinaryTree Item) :
    ∃ near far, BinaryTree.node item left right = join side near item far := by
  cases side with
  | left => exact ⟨left, right, rfl⟩
  | right => exact ⟨right, left, rfl⟩

structure Frame (Item : Type*) where
  side : Side
  item : Item
  sibling : BinaryTree Item

def Frame.fill (frame : Frame Item) (tree : BinaryTree Item) : BinaryTree Item :=
  join frame.side tree frame.item frame.sibling

/-- The whole tree around a place. -/
def plug : List (Frame Item) → BinaryTree Item → BinaryTree Item
  | [], tree => tree
  | frame :: frames, tree => plug frames (frame.fill tree)

theorem plug_append (inner outer : List (Frame Item)) (tree : BinaryTree Item) :
    plug (inner ++ outer) tree = plug outer (plug inner tree) := by
  induction inner generalizing tree with
  | nil => rfl
  | cons frame inner inductionHypothesis => exact inductionHypothesis (frame.fill tree)

theorem plug_snoc (frames : List (Frame Item)) (frame : Frame Item) (tree : BinaryTree Item) :
    plug (frames ++ [frame]) tree = frame.fill (plug frames tree) := plug_append frames [frame] tree

/-- The same whole tree, seen from the node or from its subtree on `side`. -/
theorem plug_join (frames : List (Frame Item)) (side : Side) (near : BinaryTree Item) (item : Item)
    (far : BinaryTree Item) : plug (⟨side, item, far⟩ :: frames) near =
    plug frames (join side near item far) := rfl

/-! ## The items from the left to the right -/

def items : BinaryTree Item → List Item
  | .nil => []
  | .node item left right => items left ++ item :: items right

def before : List (Frame Item) → List Item
  | [] => []
  | frame :: frames =>
      match frame.side with
      | .left => before frames
      | .right => before frames ++ (items frame.sibling ++ [frame.item])

def after : List (Frame Item) → List Item
  | [] => []
  | frame :: frames =>
      match frame.side with
      | .left => frame.item :: items frame.sibling ++ after frames
      | .right => after frames

theorem items_plug (frames : List (Frame Item)) (tree : BinaryTree Item) :
    items (plug frames tree) = before frames ++ items tree ++ after frames := by
  induction frames generalizing tree with
  | nil => simp [plug, before, after]
  | cons frame frames inductionHypothesis =>
      rw [plug, inductionHypothesis]
      cases way : frame.side <;> simp [Frame.fill, join, way, before, after, items]

theorem before_append (inner outer : List (Frame Item)) :
    before (inner ++ outer) = before outer ++ before inner := by
  induction inner with
  | nil => simp [before]
  | cons frame inner inductionHypothesis =>
      cases way : frame.side <;> simp [before, way, inductionHypothesis]

theorem after_append (inner outer : List (Frame Item)) :
    after (inner ++ outer) = after inner ++ after outer := by
  induction inner with
  | nil => simp [after]
  | cons frame inner inductionHypothesis =>
      cases way : frame.side <;> simp [after, way, inductionHypothesis]

theorem items_length (tree : BinaryTree Item) : (items tree).length = tree.numNodes := by
  induction tree with
  | nil => rfl
  | node item left right inLeft inRight =>
      simp only [items, List.length_append, List.length_cons, BinaryTree.numNodes, inLeft, inRight]
      omega

theorem items_rotate (side : Side) (near inner far : BinaryTree Item) (item child : Item) :
    items (join side (join side near item inner) child far) =
      items (join side near item (join side inner child far)) := by
  cases side <;> simp [join, items]

/-- Every position in the list of the items is a place in the tree. -/
theorem place_of_split {tree : BinaryTree Item} {early late : List Item} {item : Item}
    (split : items tree = early ++ item :: late) :
      ∃ frames left right, tree = plug frames (.node item left right) ∧
      early = before frames ++ items left ∧ late = items right ++ after frames := by
  induction tree generalizing early late with
  | nil => simp [items] at split
  | node top left right inLeft inRight =>
      rw [items] at split
      rcases List.append_eq_append_iff.mp split with ⟨between, front, back⟩ | ⟨between, front, back⟩
      · cases between with
        | nil =>
            rw [List.nil_append] at back
            cases back
            exact ⟨[], left, right, rfl, by simpa [before] using front, by simp [after]⟩
        | cons first others =>
            rw [List.cons_append] at back
            injection back with here rest
            subst here
            rcases inRight rest with ⟨frames, near, far, shape, fronts, backs⟩
            refine ⟨frames ++ [⟨.right, top, left⟩], near,
              far, by rw [plug_append, ← shape]; rfl, ?_, ?_⟩
            · rw [front, fronts, before_append]
              simp [before]
            · rw [backs, after_append]
              simp [after]
      · cases between with
        | nil =>
            rw [List.nil_append] at back
            cases back
            exact ⟨[], left, right, rfl, by simpa [before] using front.symm, by simp [after]⟩
        | cons first others =>
            rw [List.cons_append] at back
            injection back with here rest
            subst here
            rcases inLeft front with ⟨frames, near, far, shape, fronts, backs⟩
            refine ⟨frames ++ [⟨.left, top, right⟩], near,
              far, by rw [plug_append, ← shape]; rfl, ?_, ?_⟩
            · rw [fronts, before_append]
              simp [before]
            · rw [rest, backs, after_append]
              simp [after]

theorem place_of_member {tree : BinaryTree Item} {item : Item} (member : item ∈ items tree) :
    ∃ frames left right, tree = plug frames (.node item left right) := by
  rcases List.append_of_mem member with ⟨early, late, split⟩
  rcases place_of_split split with ⟨frames, left, right, shape, -, -⟩
  exact ⟨frames, left, right, shape⟩

theorem length_add_nodes_le (frames : List (Frame Item)) (tree : BinaryTree Item) :
    frames.length + tree.numNodes ≤ (plug frames tree).numNodes := by
  induction frames generalizing tree with
  | nil => simp [plug]
  | cons frame frames inductionHypothesis =>
      have grown : tree.numNodes + 1 ≤ (frame.fill tree).numNodes := by
        rcases frame with ⟨side, item, sibling⟩
        cases side <;> simp only [Frame.fill, join, BinaryTree.numNodes] <;> omega
      have outer := inductionHypothesis (frame.fill tree)
      simp only [plug, List.length_cons]
      omega

/-! ## The last item on one side -/

theorem exists_last (side : Side) {tree : BinaryTree Item} (some_item : tree ≠ .nil) :
    ∃ frames item far, tree = plug frames (join side .nil item far) ∧
    ∀ frame ∈ frames, frame.side = side := by
  induction tree with
  | nil => exact absurd rfl some_item
  | node top left right inLeft inRight =>
      rcases exists_join side top left right with ⟨near, far, shape⟩
      by_cases bottom : near = .nil
      · exact ⟨[], top, far, by rw [shape, bottom]; rfl, by simp⟩
      · have deeper : ∃ frames item behind,
            near = plug frames (join side .nil item behind) ∧
            ∀ frame ∈ frames, frame.side = side := by
          cases side with
          | left =>
              cases shape
              exact inLeft bottom
          | right =>
              cases shape
              exact inRight bottom
        rcases deeper with ⟨frames, item, behind, same, ways⟩
        refine ⟨frames ++ [⟨side, top, far⟩], item, behind, ?_, ?_⟩
        · rw [plug_append, ← same, shape]
          rfl
        · intro frame member
          rcases List.mem_append.mp member with inner | outer
          · exact ways frame inner
          · rw [List.mem_singleton.mp outer]

theorem before_of_left {frames : List (Frame Item)} (ways : ∀ frame ∈ frames, frame.side = .left) :
    before frames = [] := by
  induction frames with
  | nil => rfl
  | cons frame frames inductionHypothesis =>
      have here := ways frame List.mem_cons_self
      have rest := inductionHypothesis fun other member =>
        ways other (List.mem_cons_of_mem _ member)
      simp [before, here, rest]

end TWlib.Lib.TreeZipper
