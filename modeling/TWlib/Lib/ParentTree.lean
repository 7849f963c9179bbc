import TWlib.Lib.TreeZipper

/-!
# Binary trees whose nodes point back to their parents

Every node lies in a cell with pointers to its two children and to its parent. `Holds` says that the
cells hold a given tree; what a change of some cells makes of the tree is read off at the place of
the change: its frames see one pointer to it, and it sees one pointer back.
-/

namespace TWlib.Lib.ParentTree

open TWlib.Lib.TreeZipper

set_option autoImplicit false

/-- Where an item lies, and what is in its cell for the left, the right and the parent pointer. -/
structure Layout (Item Cell Value : Type*) where
  cell : Item → Cell
  value : Item → Option Cell → Option Cell → Option Cell → Value

variable {Item Cell Value : Type*}

/-- What is in the cell of a node with `near` on `side`. -/
def Layout.knot (layout : Layout Item Cell Value) (side : Side) (item : Item)
    (near far parent : Option Cell) : Value :=
  match side with
  | .left => layout.value item near far parent
  | .right => layout.value item far near parent

section Definitions

variable (layout : Layout Item Cell Value) (look : Cell → Option Value)

def pointer : BinaryTree Item → Option Cell
  | .nil => none
  | .node item _ _ => some (layout.cell item)

def parent : List (Frame Item) → Option Cell
  | [] => none
  | frame :: _ => some (layout.cell frame.item)

def cells : BinaryTree Item → List Cell
  | .nil => []
  | .node item left right => layout.cell item :: (cells left ++ cells right)

def frameCells : List (Frame Item) → List Cell
  | [] => []
  | frame :: frames => layout.cell frame.item :: (cells layout frame.sibling ++ frameCells frames)

/-- The nodes of a tree below `above`. -/
def Linked : Option Cell → BinaryTree Item → Prop
  | _, .nil => True
  | above, .node item left right =>
      look (layout.cell item) = some (layout.value item (pointer layout left)
        (pointer layout right) above) ∧
        Linked (some (layout.cell item)) left ∧ Linked (some (layout.cell item)) right

/-- The nodes around a place to which `hole` points. -/
def Around : List (Frame Item) → Option Cell → Prop
  | [], _ => True
  | frame :: frames, hole =>
      look (layout.cell frame.item) =
          some (layout.knot frame.side frame.item hole (pointer layout frame.sibling)
            (parent layout frames)) ∧
        Linked layout look (some (layout.cell frame.item)) frame.sibling ∧
          Around frames (some (layout.cell frame.item))

structure Holds (whole : BinaryTree Item) : Prop where
  linked : Linked layout look none whole
  apart : (cells layout whole).Nodup

end Definitions

variable {layout : Layout Item Cell Value} {look after : Cell → Option Value} {above : Option Cell}
  {side : Side} {item new : Item} {near inner far tree left right : BinaryTree Item}
  {frames : List (Frame Item)}

theorem holds_nil : Holds layout look .nil := ⟨trivial, List.nodup_nil⟩

@[simp] theorem pointer_join : pointer layout (join side near item far) =
    some (layout.cell item) := by
  cases side <;> rfl

theorem linked_join : Linked layout look above (join side near item far) ↔
    look (layout.cell item) = some (layout.knot side item (pointer layout near)
      (pointer layout far) above) ∧
      Linked layout look (some (layout.cell item)) near ∧
      Linked layout look (some (layout.cell item)) far := by
  cases side with
  | left => rfl
  | right =>
      simp only [join, Linked, Layout.knot]
      tauto

theorem cells_join (layout : Layout Item Cell Value) (side : Side) (near : BinaryTree Item)
    (item : Item) (far : BinaryTree Item) :
    (cells layout (join side near item far)).Perm
    (layout.cell item :: (cells layout near ++ cells layout far)) := by
  cases side with
  | left => exact List.Perm.refl _
  | right => exact List.perm_append_comm.cons _

theorem cells_plug (layout : Layout Item Cell Value) (frames : List (Frame Item))
    (tree : BinaryTree Item) :
    (cells layout (plug frames tree)).Perm (cells layout tree ++ frameCells layout frames) := by
  induction frames generalizing tree with
  | nil => simp [plug, frameCells]
  | cons frame frames inductionHypothesis =>
      rcases frame with ⟨side, item, sibling⟩
      have here : (cells layout (join side tree item sibling)).Perm
          (cells layout tree ++ layout.cell item :: cells layout sibling) :=
        (cells_join layout side tree item sibling).trans List.perm_middle.symm
      have outer := (inductionHypothesis (join side tree item sibling)).trans (here.append_right _)
      simpa [plug, Frame.fill, frameCells] using outer

theorem frame_cells_append (inner outer : List (Frame Item)) :
    frameCells layout (inner ++ outer) = frameCells layout inner ++ frameCells layout outer := by
  induction inner with
  | nil => rfl
  | cons frame inner inductionHypothesis => simp [frameCells, inductionHypothesis]

theorem cells_length (tree : BinaryTree Item) : (cells layout tree).length = tree.numNodes := by
  induction tree with
  | nil => rfl
  | node item left right inLeft inRight =>
      simp only [cells, List.length_cons, List.length_append, inLeft, inRight, BinaryTree.numNodes]

theorem cell_mem_items {cell : Cell} : cell ∈ cells layout tree ↔
    ∃ item ∈ items tree, layout.cell item = cell := by
  induction tree with
  | nil => simp [cells, items]
  | node item left right inLeft inRight =>
      simp only [cells, items, List.mem_cons, List.mem_append, inLeft, inRight]
      constructor
      · rintro (here | ⟨other, member, same⟩ | ⟨other, member, same⟩)
        · exact ⟨item, Or.inr (Or.inl rfl), here.symm⟩
        · exact ⟨other, Or.inl member, same⟩
        · exact ⟨other, Or.inr (Or.inr member), same⟩
      · rintro ⟨other, member | here | member, same⟩
        · exact Or.inr (Or.inl ⟨other, member, same⟩)
        · exact Or.inl (by rw [← same, here])
        · exact Or.inr (Or.inr ⟨other, member, same⟩)

/-! ## Frame facts -/

theorem linked_frame (linked : Linked layout look above tree)
    (same : ∀ cell ∈ cells layout tree, after cell = look cell) :
    Linked layout after above tree := by
  induction tree generalizing above with
  | nil => trivial
  | node item left right inLeft inRight =>
      rcases linked with ⟨here, linkedLeft, linkedRight⟩
      refine ⟨?_, inLeft linkedLeft ?_, inRight linkedRight ?_⟩
      · rw [same _ List.mem_cons_self, here]
      · exact fun cell member => same cell (List.mem_cons_of_mem _ (List.mem_append_left _ member))
      · exact fun cell member => same cell (List.mem_cons_of_mem _ (List.mem_append_right _ member))

theorem around_frame {hole : Option Cell} (around : Around layout look frames hole)
    (same : ∀ cell ∈ frameCells layout frames, after cell = look cell) :
    Around layout after frames hole := by
  induction frames generalizing hole with
  | nil => trivial
  | cons frame frames inductionHypothesis =>
      rcases around with ⟨here, sibling, outer⟩
      refine ⟨?_, linked_frame sibling ?_, inductionHypothesis outer ?_⟩
      · rw [same _ List.mem_cons_self, here]
      · exact fun cell member => same cell (List.mem_cons_of_mem _ (List.mem_append_left _ member))
      · exact fun cell member => same cell (List.mem_cons_of_mem _ (List.mem_append_right _ member))

theorem linked_plug : Linked layout look none (plug frames tree) ↔
    Around layout look frames (pointer layout tree) ∧
    Linked layout look (parent layout frames) tree := by
  induction frames generalizing tree with
  | nil => exact ⟨fun linked => ⟨trivial, linked⟩, fun both => both.2⟩
  | cons frame frames inductionHypothesis =>
      rw [plug, inductionHypothesis, Frame.fill, linked_join, pointer_join]
      simp only [Around, parent]
      tauto

/-- A tree held, seen from one place. -/
structure Place (layout : Layout Item Cell Value) (look : Cell → Option Value)
    (frames : List (Frame Item)) (tree : BinaryTree Item) : Prop where
  around : Around layout look frames (pointer layout tree)
  linked : Linked layout look (parent layout frames) tree
  inside : (cells layout tree).Nodup
  outside : (frameCells layout frames).Nodup
  apart : ∀ cell ∈ cells layout tree, cell ∉ frameCells layout frames

theorem holds_place : Holds layout look (plug frames tree) ↔ Place layout look frames tree := by
  have distinct := (cells_plug layout frames tree).nodup_iff
  constructor
  · rintro ⟨linked, nodup⟩
    rcases linked_plug.mp linked with ⟨around, below⟩
    rcases List.nodup_append.mp (distinct.mp nodup) with ⟨inside, outside, disjoint⟩
    exact ⟨around, below, inside, outside, fun cell member other =>
      disjoint cell member cell other rfl⟩
  · rintro ⟨around, below, inside, outside, apart⟩
    refine ⟨linked_plug.mpr ⟨around, below⟩,
      distinct.mpr (List.nodup_append.mpr ⟨inside, outside, ?_⟩)⟩
    rintro cell member other elsewhere rfl
    exact apart cell member elsewhere

theorem place_up {frame : Frame Item} :
    Place layout look (frame :: frames) tree ↔ Place layout look frames (frame.fill tree) := by
  rw [← holds_place, ← holds_place, plug]

theorem parent_mem {cell : Cell} (above : parent layout frames = some cell) :
    cell ∈ frameCells layout frames := by
  cases frames with
  | nil => cases above
  | cons frame frames =>
      cases above
      exact List.mem_cons_self

theorem pointer_mem {cell : Cell} (here : pointer layout tree = some cell) :
    cell ∈ cells layout tree := by
  cases tree with
  | nil => cases here
  | node item left right =>
      cases here
      exact List.mem_cons_self

theorem place_parent_ne {cell : Cell} (place : Place layout look frames tree)
    (member : cell ∈ cells layout tree) :
    parent layout frames ≠ some cell := fun above => place.apart cell member (parent_mem above)

theorem place_sibling_ne {frame : Frame Item} {cell : Cell}
    (place : Place layout look (frame :: frames) tree) (member : cell ∈ cells layout tree) :
    pointer layout frame.sibling ≠ some cell := by
  intro top
  apply place.apart cell member
  exact List.mem_cons_of_mem _ (List.mem_append_left _ (pointer_mem top))

theorem pointer_plug_congr {other : BinaryTree Item} (frames : List (Frame Item))
    (same : pointer layout tree = pointer layout other) :
    pointer layout (plug frames tree) = pointer layout (plug frames other) := by
  induction frames generalizing tree other with
  | nil => exact same
  | cons frame frames inductionHypothesis => exact inductionHypothesis (by simp [Frame.fill])

theorem pointer_plug_cons {frame : Frame Item} (other : BinaryTree Item) :
    pointer layout (plug (frame :: frames) tree) = pointer layout (plug (frame :: frames) other) :=
  pointer_plug_congr frames (by simp [Frame.fill])

/-! ## Changing one end of a link -/

section Ends

variable (layout : Layout Item Cell Value) (after : Cell → Option Value)

/-- The cell of the root points back to `above`. -/
def Hangs (above : Option Cell) (tree : BinaryTree Item) : Prop :=
  ∀ item left right, tree = .node item left right → after (layout.cell item) =
    some (layout.value item (pointer layout left) (pointer layout right) above)

/-- The cell above the place points to `hole` there. -/
def Sees (frames : List (Frame Item)) (hole : Option Cell) : Prop :=
  ∀ frame rest, frames = frame :: rest → after (layout.cell frame.item) =
    some (layout.knot frame.side frame.item hole (pointer layout frame.sibling)
      (parent layout rest))

end Ends

theorem linked_hangs (linked : Linked layout look above tree) : Hangs layout look above tree := by
  rintro item left right rfl
  exact linked.1

theorem around_sees {hole : Option Cell} (around : Around layout look frames hole) :
    Sees layout look frames hole := by
  rintro frame rest rfl
  exact around.1

theorem hangs_frame {below : Option Cell} (hangs : Hangs layout look below tree)
    (same : ∀ cell, pointer layout tree = some cell → after cell = look cell) :
    Hangs layout after below tree := by
  intro item left right shape
  rw [same _ (by rw [shape]; rfl)]
  exact hangs item left right shape

theorem sees_frame {hole : Option Cell} (sees : Sees layout look frames hole)
    (same : ∀ cell, parent layout frames = some cell → after cell = look cell) :
    Sees layout after frames hole := by
  intro frame rest shape
  rw [same _ (by rw [shape]; rfl)]
  exact sees frame rest shape

theorem linked_rehang {below : Option Cell} (linked : Linked layout look above tree)
    (distinct : (cells layout tree).Nodup) (hangs : Hangs layout after below tree)
    (same : ∀ cell ∈ cells layout tree, pointer layout tree ≠ some cell → after cell = look cell) :
    Linked layout after below tree := by
  cases tree with
  | nil => trivial
  | node item left right =>
      rcases linked with ⟨-, linkedLeft, linkedRight⟩
      rcases List.nodup_cons.mp distinct with ⟨outside, -⟩
      have kept : ∀ cell ∈ cells layout left ++ cells layout right, after cell = look cell := by
        intro cell member
        apply same cell (List.mem_cons_of_mem _ member)
        intro here
        cases here
        exact outside member
      refine ⟨hangs item left right rfl, linked_frame linkedLeft ?_, linked_frame linkedRight ?_⟩
      · exact fun cell member => kept cell (List.mem_append_left _ member)
      · exact fun cell member => kept cell (List.mem_append_right _ member)

theorem around_refill {old hole : Option Cell} (around : Around layout look frames old)
    (distinct : (frameCells layout frames).Nodup) (sees : Sees layout after frames hole)
    (same : ∀ cell ∈ frameCells layout frames, parent layout frames ≠ some cell →
      after cell = look cell) :
    Around layout after frames hole := by
  cases frames with
  | nil => trivial
  | cons frame rest =>
      rcases around with ⟨-, sibling, outer⟩
      rcases List.nodup_cons.mp distinct with ⟨outside, -⟩
      have kept : ∀ cell ∈ cells layout frame.sibling ++ frameCells layout rest, after cell =
          look cell := by
        intro cell member
        apply same cell (List.mem_cons_of_mem _ member)
        intro here
        cases here
        exact outside member
      refine ⟨sees frame rest rfl, linked_frame sibling ?_, around_frame outer ?_⟩
      · exact fun cell member => kept cell (List.mem_append_left _ member)
      · exact fun cell member => kept cell (List.mem_append_right _ member)

/-! ## Changing a tree at one place -/

section Changes

theorem place_relabel (place : Place layout look frames (.node item left right))
    (stays : layout.cell new = layout.cell item)
    (here : after (layout.cell item) =
      some (layout.value new (pointer layout left) (pointer layout right) (parent layout frames)))
    (others : ∀ cell, cell ≠ layout.cell item → after cell = look cell) :
    Place layout after frames (.node new left right) := by
  rcases place with ⟨around, ⟨-, linkedLeft, linkedRight⟩, inside, outside, apart⟩
  rcases List.nodup_cons.mp inside with ⟨own, -⟩
  have elsewhere : ∀ cell ∈ cells layout left ++ cells layout right, after cell = look cell := by
    rintro cell member
    exact others cell fun same => own (same ▸ member)
  refine ⟨?_, ⟨by rw [stays]; exact here, ?_, ?_⟩, by simpa only [cells, stays] using inside,
    outside,
    by simpa only [cells, stays] using apart⟩
  · rw [pointer, stays]
    apply around_frame around
    exact fun cell member => others cell fun same => apart cell (by simp [cells, same]) member
  · rw [stays]
    exact linked_frame linkedLeft fun cell member => elsewhere cell (List.mem_append_left _ member)
  · rw [stays]
    exact linked_frame linkedRight fun cell member =>
      elsewhere cell (List.mem_append_right _ member)

theorem place_attach (place : Place layout look frames .nil)
    (unused : layout.cell new ∉ frameCells layout frames)
    (here : after (layout.cell new) = some (layout.value new none none (parent layout frames)))
    (sees : Sees layout after frames (some (layout.cell new)))
    (others : ∀ cell, cell ≠ layout.cell new → parent layout frames ≠ some cell →
      after cell = look cell) :
    Place layout after frames (.node new .nil .nil) := by
  rcases place with ⟨around, -, -, outside, -⟩
  refine ⟨?_, ⟨here, trivial, trivial⟩, by simp [cells], outside, by simpa [cells] using unused⟩
  apply around_refill around outside sees
  exact fun cell member notParent => others cell (fun same => unused (same ▸ member)) notParent

theorem place_detach (place : Place layout look frames (join side tree item .nil))
    (hangs : Hangs layout after (parent layout frames) tree)
    (sees : Sees layout after frames (pointer layout tree))
      (others : ∀ cell, cell ≠ layout.cell item → pointer layout tree ≠ some cell →
        parent layout frames ≠ some cell →
      after cell = look cell) :
    Place layout after frames tree := by
  rcases place with ⟨around, linked, inside, outside, apart⟩
  rcases linked_join.mp linked with ⟨-, below, -⟩
  have order : (cells layout (join side tree item .nil)).Perm
      (layout.cell item :: cells layout tree) := by
    simpa [cells] using cells_join layout side tree item .nil
  rcases List.nodup_cons.mp (order.nodup_iff.mp inside) with ⟨own, distinct⟩
  have away : ∀ cell ∈ layout.cell item :: cells layout tree, cell ∉ frameCells layout frames :=
    fun cell member => apart cell (order.mem_iff.mpr member)
  refine ⟨?_, ?_, distinct, outside, fun cell member => away cell (List.mem_cons_of_mem _ member)⟩
  · apply around_refill around outside sees
    intro cell member notParent
    apply others cell
    · rintro rfl
      exact away _ List.mem_cons_self member
    · exact fun here => away cell (List.mem_cons_of_mem _ (pointer_mem here)) member
    · exact notParent
  · apply linked_rehang below distinct hangs
    intro cell member notTop
    apply others cell
    · rintro rfl
      exact own member
    · exact notTop
    · exact fun here => away cell (List.mem_cons_of_mem _ member) (parent_mem here)

theorem place_replace (place : Place layout look frames (.node item left right))
    (unused : layout.cell new ∉ frameCells layout frames ++
      (cells layout left ++ cells layout right))
    (here : after (layout.cell new) =
      some (layout.value new (pointer layout left) (pointer layout right) (parent layout frames)))
    (hangsLeft : Hangs layout after (some (layout.cell new)) left)
    (hangsRight : Hangs layout after (some (layout.cell new)) right)
    (sees : Sees layout after frames (some (layout.cell new)))
    (others : ∀ cell, cell ≠ layout.cell item → cell ≠ layout.cell new →
      pointer layout left ≠ some cell →
      pointer layout right ≠ some cell → parent layout frames ≠ some cell →
      after cell = look cell) :
    Place layout after frames (.node new left right) := by
  rcases place with ⟨around, ⟨-, linkedLeft, linkedRight⟩, inside, outside, apart⟩
  rcases List.nodup_cons.mp inside with ⟨own, distinct⟩
  rcases List.nodup_append.mp distinct with ⟨distinctLeft, distinctRight, sides⟩
  have notNew : ∀ cell ∈ frameCells layout frames ++ (cells layout left ++ cells layout right),
      cell ≠ layout.cell new := fun cell member same => unused (same ▸ member)
  have away : ∀ cell ∈ cells layout left ++ cells layout right, cell ∉ frameCells layout frames :=
    fun cell member => apart cell (List.mem_cons_of_mem _ member)
  refine ⟨?_, ⟨here, ?_, ?_⟩, ?_, outside, ?_⟩
  · apply around_refill around outside sees
    intro cell member notParent
    apply others cell _ (notNew cell (List.mem_append_left _ member)) _ _ notParent
    · rintro rfl
      exact apart _ List.mem_cons_self member
    · exact fun top => away cell (List.mem_append_left _ (pointer_mem top)) member
    · exact fun top => away cell (List.mem_append_right _ (pointer_mem top)) member
  · apply linked_rehang linkedLeft distinctLeft hangsLeft
    intro cell member notTop
    apply others cell _ (notNew cell (List.mem_append_right _ (List.mem_append_left _ member)))
      notTop
    · exact fun top => sides cell member cell (pointer_mem top) rfl
    · exact fun top => away cell (List.mem_append_left _ member) (parent_mem top)
    · rintro rfl
      exact own (List.mem_append_left _ member)
  · apply linked_rehang linkedRight distinctRight hangsRight
    intro cell member notTop
    apply others cell _ (notNew cell (List.mem_append_right _ (List.mem_append_right _ member))) _
      notTop
    · exact fun top => away cell (List.mem_append_right _ member) (parent_mem top)
    · rintro rfl
      exact own (List.mem_append_right _ member)
    · exact fun top => sides cell (pointer_mem top) cell member rfl
  · exact List.nodup_cons.mpr ⟨fun member => unused (List.mem_append_right _ member), distinct⟩
  · intro cell member
    rcases List.mem_cons.mp member with rfl | below
    · exact fun other => unused (List.mem_append_left _ other)
    · exact away cell below

/-- The far subtree comes up: its near subtree changes over to the item it hung below. -/
theorem place_rotate {child : Item}
    (place : Place layout look frames (join side near item (join side inner child far)))
      (atItem : after (layout.cell item) = some (layout.knot side item (pointer layout near)
        (pointer layout inner)
      (some (layout.cell child))))
    (atChild : after (layout.cell child) = some (layout.knot side child (some (layout.cell item))
      (pointer layout far)
      (parent layout frames)))
    (hangs : Hangs layout after (some (layout.cell item)) inner)
    (sees : Sees layout after frames (some (layout.cell child)))
    (others : ∀ cell, cell ≠ layout.cell item → cell ≠ layout.cell child →
      pointer layout inner ≠ some cell →
      parent layout frames ≠ some cell → after cell = look cell) :
    Place layout after frames (join side (join side near item inner) child far) := by
  rcases place with ⟨around, linked, inside, outside, apart⟩
  rcases linked_join.mp linked with ⟨-, linkedNear, linkedChild⟩
  rcases linked_join.mp linkedChild with ⟨-, linkedInner, linkedFar⟩
  have order : (cells layout (join side near item (join side inner child far))).Perm
      (layout.cell item ::
      layout.cell child :: (cells layout near ++ (cells layout inner ++ cells layout far))) :=
    (cells_join _ _ _ _ _).trans
      ((((cells_join _ _ _ _ _).append_left _).trans List.perm_middle).cons _)
  have rotated : (cells layout (join side (join side near item inner) child far)).Perm
      (layout.cell item ::
      layout.cell child :: (cells layout near ++ (cells layout inner ++ cells layout far))) := by
    refine (cells_join _ _ _ _ _).trans ((((cells_join _ _ _ _ _).append_right _).cons _).trans ?_)
    simpa using List.Perm.swap (layout.cell item) (layout.cell child) _
  rcases List.nodup_cons.mp (order.nodup_iff.mp inside) with ⟨ownItem, rest⟩
  rcases List.nodup_cons.mp rest with ⟨ownChild, subtrees⟩
  rcases List.nodup_append.mp subtrees with ⟨-, innerFar, nearRest⟩
  rcases List.nodup_append.mp innerFar with ⟨distinctInner, -, innerApart⟩
  have away : ∀ cell ∈ layout.cell item :: layout.cell child ::
      (cells layout near ++ (cells layout inner ++ cells layout far)),
      cell ∉ frameCells layout frames :=
    fun cell member => apart cell (order.mem_iff.mpr member)
  have offItem : ∀ cell ∈ cells layout near ++ (cells layout inner ++ cells layout far),
      cell ≠ layout.cell item := by
    rintro cell member rfl
    exact ownItem (List.mem_cons_of_mem _ member)
  have offChild : ∀ cell ∈ cells layout near ++ (cells layout inner ++ cells layout far),
      cell ≠ layout.cell child := by
    rintro cell member rfl
    exact ownChild member
  have offParent : ∀ cell ∈ cells layout near ++ (cells layout inner ++ cells layout far),
      parent layout frames ≠ some cell := fun cell member above =>
    away cell (List.mem_cons_of_mem _ (List.mem_cons_of_mem _ member)) (parent_mem above)
  refine ⟨?_, ?_, (rotated.trans order.symm).nodup_iff.mpr inside, outside, ?_⟩
  · rw [pointer_join]
    apply around_refill around outside sees
    intro cell member notParent
    apply others cell _ _ _ notParent
    · rintro rfl
      exact away _ List.mem_cons_self member
    · rintro rfl
      exact away _ (List.mem_cons_of_mem _ List.mem_cons_self) member
    · exact fun top => away cell (by simp [pointer_mem top]) member
  · refine linked_join.mpr ⟨by rw [pointer_join]; exact atChild,
      linked_join.mpr ⟨atItem, ?_, ?_⟩, ?_⟩
    · apply linked_frame linkedNear
      intro cell member
      have place := List.mem_append_left (cells layout inner ++ cells layout far) member
      apply others cell (offItem cell place) (offChild cell place) _ (offParent cell place)
      exact fun top => nearRest cell member cell (List.mem_append_left _ (pointer_mem top)) rfl
    · apply linked_rehang linkedInner distinctInner hangs
      intro cell member notTop
      have place := List.mem_append_right (cells layout near)
        (List.mem_append_left (cells layout far) member)
      exact others cell (offItem cell place) (offChild cell place) notTop (offParent cell place)
    · apply linked_frame linkedFar
      intro cell member
      have place := List.mem_append_right (cells layout near)
        (List.mem_append_right (cells layout inner) member)
      apply others cell (offItem cell place) (offChild cell place) _ (offParent cell place)
      exact fun top => innerApart cell (pointer_mem top) cell member rfl
  · intro cell member
    exact away cell (rotated.mem_iff.mp member)

end Changes

end TWlib.Lib.ParentTree
