import TWlib.Lib.SortedList
import TWlib.Lib.TreeZipper

/-!
# Searching a tree, and walking through it

`descend` is the way of a search down to an equal item or to the empty place where one would be.
`travel` lists the items in the direction of a side, `ahead` those that come after a place.
-/

namespace TWlib.Lib.SearchTree

open TWlib.Lib.SortedList
open TWlib.Lib.TreeZipper

set_option autoImplicit false

variable {Item Key : Type*}

/-- The comparison is that of what is looked for with the item. -/
def descend (cut : Item → Int) : List (Frame Item) → BinaryTree Item → List (Frame Item) ×
    BinaryTree Item
  | frames, .nil => (frames, .nil)
  | frames, .node item left right =>
      if cut item < 0 then descend cut (⟨.left, item, right⟩ :: frames) left
      else if 0 < cut item then descend cut (⟨.right, item, left⟩ :: frames) right
      else (frames, .node item left right)

variable {cut : Item → Int} {frames : List (Frame Item)} {tree : BinaryTree Item}

theorem plug_descend (cut : Item → Int) (frames : List (Frame Item)) (tree : BinaryTree Item) :
    plug (descend cut frames tree).1 (descend cut frames tree).2 = plug frames tree := by
  induction tree generalizing frames with
  | nil => rfl
  | node item left right inLeft inRight =>
      simp only [descend]
      split_ifs
      · exact inLeft _
      · exact inRight _
      · rfl

theorem descend_end (cut : Item → Int) (frames : List (Frame Item)) (tree : BinaryTree Item) :
    (descend cut frames tree).2 = .nil ∨
      ∃ item left right, (descend cut frames tree).2 = .node item left right ∧ cut item = 0 := by
  induction tree generalizing frames with
  | nil => exact Or.inl rfl
  | node item left right inLeft inRight =>
      simp only [descend]
      split_ifs with below above
      · exact inLeft _
      · exact inRight _
      · exact Or.inr ⟨item, left, right, rfl, by omega⟩

/-- Around the place: all items before it are below what is looked for, all after it above. -/
structure Straddles (cut : Item → Int) (frames : List (Frame Item)) : Prop where
  below : ∀ item ∈ before frames, 0 < cut item
  above : ∀ item ∈ after frames, cut item < 0

theorem straddles_nil (cut : Item → Int) : Straddles cut [] where
  below := fun _ member => by cases member
  above := fun _ member => by cases member

/-- In a tree in order the search leaves out nothing but what is below or above. -/
theorem descend_straddles (straddles : Straddles cut frames)
    (ordered : (items tree).Pairwise fun a b => cut a ≤ 0 → cut b < 0) :
    Straddles cut (descend cut frames tree).1 := by
  induction tree generalizing frames with
  | nil => exact straddles
  | node item left right inLeft inRight =>
      rcases List.pairwise_append.mp ordered with ⟨orderedLeft, rest, across⟩
      rcases List.pairwise_cons.mp rest with ⟨later, orderedRight⟩
      simp only [descend]
      split_ifs with below above
      · apply inLeft _ orderedLeft
        refine ⟨straddles.below, ?_⟩
        intro other member
        rcases List.mem_append.mp member with front | back
        · rcases List.mem_cons.mp front with rfl | beyond
          · exact below
          · exact later other beyond (by omega)
        · exact straddles.above other back
      · apply inRight _ orderedRight
        refine ⟨?_, straddles.above⟩
        intro other member
        rcases List.mem_append.mp member with front | back
        · exact straddles.below other front
        · rcases List.mem_append.mp back with beside | here
          · by_contra notBelow
            have contra := across other beside item List.mem_cons_self (by omega)
            omega
          · rw [List.mem_singleton.mp here]
            exact above
      · exact straddles

/-- The two parts of the sorted list of keys that a place splits it into. -/
theorem splits_of_straddles {cmp : Key → Key → Int} {key : Key} {value : Item → Key}
    (straddles : Straddles (fun item => cmp key (value item)) frames)
    {left right : List Item} (leftBelow : ∀ item ∈ left, 0 < cmp key (value item))
    (rightAbove : ∀ item ∈ right, cmp key (value item) < 0) :
    Splits cmp key ((before frames ++ left).map value) ((right ++ after frames).map value) := by
  constructor
  · intro other member
    rcases List.mem_map.mp member with ⟨item, place, rfl⟩
    rcases List.mem_append.mp place with front | back
    · exact straddles.below item front
    · exact leftBelow item back
  · intro other member
    rcases List.mem_map.mp member with ⟨item, place, rfl⟩
    rcases List.mem_append.mp place with front | back
    · exact rightAbove item front
    · exact straddles.above item back

/-! ## In the direction of a side -/

def travel (side : Side) (tree : BinaryTree Item) : List Item :=
  match side with
  | .left => (items tree).reverse
  | .right => items tree

def ahead (side : Side) (frames : List (Frame Item)) : List Item :=
  match side with
  | .left => (before frames).reverse
  | .right => after frames

variable {side : Side} {near far : BinaryTree Item} {item : Item}

@[simp] theorem travel_nil (side : Side) :
    travel side (.nil : BinaryTree Item) = [] := by cases side <;> rfl

@[simp] theorem ahead_nil (side : Side) :
    ahead side ([] : List (Frame Item)) = [] := by cases side <;> rfl

theorem travel_join : travel side (join side near item far) = travel side far ++ item ::
    travel side near := by
  cases side <;> simp [travel, join, items]

theorem ahead_near (side : Side) (item : Item) (far : BinaryTree Item)
    (frames : List (Frame Item)) :
    ahead side (⟨side, item, far⟩ :: frames) = ahead side frames := by
  cases side <;> simp [ahead, before, after]

theorem ahead_far (side : Side) (item : Item) (near : BinaryTree Item)
    (frames : List (Frame Item)) :
    ahead side (⟨side.flip, item, near⟩ :: frames) = item :: travel side near ++
    ahead side frames := by
  cases side <;> simp [ahead, before, after, travel, Side.flip]

theorem travel_plug (side : Side) (frames : List (Frame Item)) (tree : BinaryTree Item) :
    travel side (plug frames tree) = (ahead side.flip frames).reverse ++ travel side tree ++
    ahead side frames := by
  cases side <;> simp [travel, ahead, items_plug, Side.flip]

/-- The item that comes first is at the end of the way that turns away from the direction. -/
theorem travel_first {path : List (Frame Item)} (ways : ∀ frame ∈ path, frame.side = side.flip) :
    travel side (plug path (join side.flip .nil item far)) =
    item :: (travel side far ++ ahead side path) := by
  have nothing : ahead side.flip path = [] := by
    induction path with
    | nil => simp
    | cons frame path inductionHypothesis =>
        rcases frame with ⟨other, item, sibling⟩
        have here : other = side.flip := ways _ List.mem_cons_self
        subst here
        rw [ahead_near]
        exact inductionHypothesis fun other member => ways other (List.mem_cons_of_mem _ member)
  rw [travel_plug, nothing, join_flip, travel_join]
  simp

end TWlib.Lib.SearchTree
