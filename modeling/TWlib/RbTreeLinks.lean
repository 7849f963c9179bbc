import TWlib.Lib.CellRegion
import TWlib.Lib.ParentTree
import TWlib.RbTree

/-!
# What the macros do to the tree

`At` says that the memory holds a tree, seen from a place, and that the head points to its root.
Each theorem here takes one piece of the code from such a state to the next one. `Keeps` is what all
of them leave as it is: which nodes exist, and their data.
-/

namespace TWlib.RbTree

open TWlib.Lib.CellStore
open TWlib.Lib.CellRegion (length_le_fresh)
open TWlib.Lib.TreeZipper
open TWlib.Lib.ParentTree
open TWlib.Lib.RedBlackTree (Color)

set_option autoImplicit false

structure Item (Data : Type) where
  cell : Nat
  data : Data
  color : Color

variable {Data : Type}

def Item.paint (item : Item Data) (color : Color) : Item Data := { item with color }

@[simp] theorem paint_cell (item : Item Data) (color : Color) :
    (item.paint color).cell = item.cell := rfl

@[simp] theorem paint_data (item : Item Data) (color : Color) :
    (item.paint color).data = item.data := rfl

@[simp] theorem paint_color (item : Item Data) (color : Color) :
    (item.paint color).color = color := rfl

def layout : Layout (Item Data) Nat (RbNode Data) where
  cell := Item.cell
  value := fun item left right above => ⟨item.data, left, right, above, item.color⟩

structure At (head : RbHead Data) (frames : List (Frame (Item Data)))
    (tree : BinaryTree (Item Data)) : Prop where
  place : Place layout head.nodes.read frames tree
  root : head.rbhRoot = pointer layout (plug frames tree)

structure Keeps (head next : RbHead Data) : Prop where
  fresh : next.nodes.fresh = head.nodes.fresh
  data : ∀ cell, (next.nodes.read cell).map RbNode.data = (head.nodes.read cell).map RbNode.data

variable {head next last : RbHead Data} {frames : List (Frame (Item Data))}
  {frame : Frame (Item Data)} {near inner far tree left right : BinaryTree (Item Data)}
  {item child new : Item Data} {side : Side} {node : RbNode Data} {elm : Nat}
  {target above hole : Option Nat}

theorem keeps_refl (head : RbHead Data) : Keeps head head := ⟨rfl, fun _ => rfl⟩

theorem keeps_trans (first : Keeps head next) (second : Keeps next last) : Keeps head last :=
  ⟨second.fresh.trans first.fresh, fun cell => (second.data cell).trans (first.data cell)⟩

@[simp] theorem layout_cell (item : Item Data) : layout.cell item = item.cell := rfl

@[simp] theorem knot_data (near far above : Option Nat) :
    (layout.knot side item near far above).data = item.data := by
  cases side <;> rfl

@[simp] theorem knot_color (near far above : Option Nat) :
    (layout.knot side item near far above).rbeColor = item.color := by cases side <;> rfl

@[simp] theorem knot_parent (near far above : Option Nat) :
    (layout.knot side item near far above).rbeParent = above := by cases side <;> rfl

@[simp] theorem knot_child (near far above : Option Nat) :
    (layout.knot side item near far above).child side = near := by cases side <;> rfl

@[simp] theorem knot_child_flip (near far above : Option Nat) :
    (layout.knot side item near far above).child side.flip = far := by cases side <;> rfl

@[simp] theorem knot_right_left (near far above : Option Nat) :
    (layout.knot .right item near far above).child .left = far := rfl

@[simp] theorem knot_set_child (near far above target : Option Nat) :
    (layout.knot side item near far above).setChild side target =
    layout.knot side item target far above := by
  cases side <;> rfl

@[simp] theorem knot_set_child_flip (near far above target : Option Nat) :
    (layout.knot side item near far above).setChild side.flip target =
    layout.knot side item near target above := by
  cases side <;> rfl

@[simp] theorem set_child_data (side : Side) (target : Option Nat) (node : RbNode Data) :
    (node.setChild side target).data = node.data := by cases side <;> rfl

@[simp] theorem knot_set_parent (near far above below : Option Nat) :
    (layout.knot side item near far above).setParent below =
    layout.knot side item near far below := by
  cases side <;> rfl

/-! ## One write -/

theorem adjust_spec (present : head.nodes.read elm = some node) (change : RbNode Data → RbNode Data)
    (data : (change node).data = node.data) :
    ∃ next, adjust change head elm = some next ∧ next.rbhRoot = head.rbhRoot ∧ Keeps head next ∧
      next.nodes.read elm = some (change node) ∧
        ∀ cell, cell ≠ elm → next.nodes.read cell = head.nodes.read cell := by
  refine ⟨{ head with nodes := head.nodes.write elm (change node) }, by simp [adjust, present], rfl,
    ⟨by simp, ?_⟩, ?_,
    ?_⟩
  · exact map_read_write_same RbNode.data present (change node) data
  · simp [read_write present]
  · intro cell apart
    simp [read_write present, apart]

theorem hook_parent_spec (hangs : Hangs layout head.nodes.read above tree) (below : Option Nat) :
    ∃ next, hookParent head (pointer layout tree) below = some next ∧ next.rbhRoot = head.rbhRoot ∧
      Keeps head next ∧
      Hangs layout next.nodes.read below tree ∧
        ∀ cell, pointer layout tree ≠ some cell → next.nodes.read cell = head.nodes.read cell := by
  cases tree with
  | nil =>
      exact ⟨head, rfl, rfl, keeps_refl head, fun _ _ _ shape => by (cases shape), fun _ _ => rfl⟩
  | node item left right =>
      rcases adjust_spec (hangs item left right rfl) (RbNode.setParent below) rfl with
        ⟨next, run, root, keeps, here, others⟩
      refine ⟨next, run, root, keeps, ?_, ?_⟩
      · rintro top before behind shape
        cases shape
        exact here
      · exact fun cell apart => others cell fun same => apart (by rw [same]; rfl)

/-- The pointer to the place is found by asking for `RB_LEFT`, since the sibling is another node. -/
theorem replace_child_spec (sees : Sees layout head.nodes.read frames (some elm))
    (apart : ∀ frame rest, frames = frame :: rest → pointer layout frame.sibling ≠ some elm)
    (target : Option Nat) :
    ∃ next, replaceChild head (parent layout frames) elm target = some next ∧
      next.rbhRoot = (if frames = [] then target else head.rbhRoot) ∧ Keeps head next ∧
        Sees layout next.nodes.read frames target ∧
          ∀ cell, parent layout frames ≠ some cell →
          next.nodes.read cell = head.nodes.read cell := by
  cases frames with
  | nil =>
      exact ⟨{ head with rbhRoot := target }, rfl, rfl, ⟨rfl, fun _ => rfl⟩,
        fun _ _ shape => by (cases shape),
        fun _ _ => rfl⟩
  | cons frame rest =>
      have present := sees frame rest rfl
      have beside := apart frame rest rfl
      rcases adjust_spec present (RbNode.setChild frame.side target) (by simp) with ⟨next, run,
        root, keeps, here, others⟩
      refine ⟨next, ?_, by simpa using root, keeps, ?_, ?_⟩
      · rw [layout_cell] at present run
        cases way : frame.side with
        | left =>
            rw [way] at present run
            simp [replaceChild, parent, rbChild, present, setChild, run]
        | right =>
            rw [way] at present run
            simp [replaceChild, parent, rbChild, present, setChild, run, beside]
      · rintro other others shape
        cases shape
        rw [here, knot_set_child]
      · exact fun cell notParent => others cell fun same => notParent (by rw [same]; rfl)

/-! ## Changing the tree at a place -/

theorem paint_spec (at' : At head frames (join side near item far)) (color : Color) :
    ∃ next, setColor head item.cell color = some next ∧ Keeps head next ∧
      At next frames (join side near (item.paint color) far) := by
  rcases at' with ⟨place, root⟩
  cases side <;>
  · rcases adjust_spec place.linked.1 (RbNode.setColor color) rfl with ⟨next, run, sameRoot, keeps,
      here, others⟩
    refine ⟨next, run, keeps, place_relabel place rfl here others, ?_⟩
    rw [sameRoot, root]
    exact pointer_plug_congr frames rfl

/-- `RB_ROTATE_LEFT` and `RB_ROTATE_RIGHT`. -/
theorem rotate_spec (at' : At head frames (join side near item (join side inner child far))) :
    ∃ next, rotate side head item.cell = some next ∧ Keeps head next ∧
      At next frames (join side (join side near item inner) child far) := by
  rcases at' with ⟨place, root⟩
  rcases linked_join.mp place.linked with ⟨atItem, -, linkedChild⟩
  rcases linked_join.mp linkedChild with ⟨atChild, linkedInner, -⟩
  simp only [layout_cell, pointer_join] at atItem atChild linkedInner
  have order := cells_join layout side near item (join side inner child far)
  have below := cells_join layout side inner child far
  have memberItem : item.cell ∈ cells layout (join side near item (join side inner child far)) :=
    order.mem_iff.mpr List.mem_cons_self
  have memberBelow : ∀ cell ∈ cells layout (join side inner child far),
      cell ∈ cells layout (join side near item (join side inner child far)) :=
    fun cell member => order.mem_iff.mpr (List.mem_cons_of_mem _ (List.mem_append_right _ member))
  have memberChild : child.cell ∈ cells layout (join side inner child far) :=
    below.mem_iff.mpr List.mem_cons_self
  have memberInner : ∀ cell, pointer layout inner = some cell →
      cell ∈ cells layout (join side inner child far) :=
    fun cell top => below.mem_iff.mpr (List.mem_cons_of_mem _
      (List.mem_append_left _ (pointer_mem top)))
  rcases List.nodup_cons.mp (order.nodup_iff.mp place.inside) with ⟨ownItem, distinct⟩
  have apartItem : ∀ cell ∈ cells layout (join side inner child far), cell ≠ item.cell := by
    rintro cell member rfl
    exact ownItem (List.mem_append_right _ member)
  rcases List.nodup_cons.mp (below.nodup_iff.mp (List.nodup_append.mp distinct).2.1) with ⟨ownChild,
    -⟩
  have innerChild : pointer layout inner ≠ some child.cell := fun top =>
    ownChild (List.mem_append_left _ (pointer_mem top))
  have innerItem : pointer layout inner ≠ some item.cell :=
    fun top => apartItem _ (memberInner _ top) rfl
  have childItem : child.cell ≠ item.cell := apartItem _ memberChild
  have parentItem : parent layout frames ≠ some item.cell := place_parent_ne place memberItem
  have parentChild : parent layout frames ≠ some child.cell :=
    place_parent_ne place (memberBelow _ memberChild)
  have parentInner : ∀ cell, pointer layout inner = some cell → parent layout frames ≠ some cell :=
    fun cell top => place_parent_ne place (memberBelow _ (memberInner _ top))
  have sees := around_sees place.around
  rw [pointer_join] at sees
  have beside : ∀ frame rest, frames = frame :: rest →
      pointer layout frame.sibling ≠ some item.cell := by
    rintro frame rest rfl
    exact place_sibling_ne place memberItem
  -- the inner subtree changes over
  rcases adjust_spec atItem (RbNode.setChild side.flip (pointer layout inner)) (by simp) with
    ⟨one, run1, root1, keeps1, item1, off1⟩
  have hangs1 : Hangs layout one.nodes.read (some child.cell) inner :=
    hangs_frame (linked_hangs linkedInner) fun cell top =>
      off1 cell (apartItem _ (memberInner _ top))
  rcases hook_parent_spec hangs1 (some item.cell) with ⟨two, run2, root2, keeps2, hangs2, off2⟩
  have item2 := (off2 _ innerItem).trans item1
  have child2 := ((off2 _ innerChild).trans (off1 _ childItem)).trans atChild
  -- the child takes the place
  rcases adjust_spec child2 (RbNode.setParent (parent layout frames)) rfl with
    ⟨three, run3, root3, keeps3, child3, off3⟩
  have sees3 : Sees layout three.nodes.read frames (some item.cell) := by
    apply sees_frame sees
    intro cell above
    have apart : cell ≠ item.cell ∧ cell ≠ child.cell :=
      ⟨fun same => parentItem (same ▸ above), fun same => parentChild (same ▸ above)⟩
    rw [off3 cell apart.2, off2 cell fun top => parentInner cell top above, off1 cell apart.1]
  rcases replace_child_spec sees3 beside (some child.cell) with ⟨four, run4, root4, keeps4,
    sees4, off4⟩
  have child4 := (off4 _ parentChild).trans child3
  -- and the item hangs below it
  rcases adjust_spec child4 (RbNode.setChild side (some item.cell)) (by simp) with
    ⟨five, run5, root5, keeps5, child5, off5⟩
  have item5 := ((off5 _ childItem.symm).trans
    ((off4 _ parentItem).trans (off3 _ childItem.symm))).trans item2
  rcases adjust_spec item5 (RbNode.setParent (some child.cell)) rfl with
    ⟨six, run6, root6, keeps6, item6, off6⟩
  refine ⟨six, ?_, ?_, ?_, ?_⟩
  · simp [rotate, rbChild, rbParent, setChild, setParent, atItem, atChild, run1, run2, item2, run3,
      run4, run5, run6]
  · exact keeps_trans keeps1 (keeps_trans keeps2
      (keeps_trans keeps3 (keeps_trans keeps4 (keeps_trans keeps5 keeps6))))
  · apply place_rotate place
    · simpa using item6
    · rw [layout_cell, off6 _ childItem, child5]
      simp
    · apply hangs_frame hangs2
      intro cell top
      have member := memberInner cell top
      have notChild : cell ≠ child.cell := fun same => innerChild (same ▸ top)
      rw [off6 cell (apartItem cell member), off5 cell notChild, off4 cell (parentInner cell top),
        off3 cell notChild]
    · apply sees_frame sees4
      intro cell above
      rw [off6 cell fun same => parentItem (same ▸ above),
        off5 cell fun same => parentChild (same ▸ above)]
    · intro cell notItem notChild notInner notParent
      rw [off6 cell notItem, off5 cell notChild, off4 cell notParent, off3 cell notChild,
        off2 cell notInner,
        off1 cell notItem]
  · rw [root6, root5, root4, root3, root2, root1, root]
    cases frames with
    | nil => simp [plug]
    | cons frame rest => exact pointer_plug_cons _

theorem detach_spec (at' : At head frames (join side tree item .nil)) :
    ∃ next, detach head item.cell (pointer layout tree) (parent layout frames) = some next ∧
      Keeps head next ∧
      next.nodes.read item.cell = head.nodes.read item.cell ∧ At next frames tree := by
  rcases at' with ⟨place, root⟩
  rcases linked_join.mp place.linked with ⟨-, linked, -⟩
  have order := cells_join layout side tree item .nil
  have memberItem : item.cell ∈ cells layout (join side tree item .nil) :=
    order.mem_iff.mpr List.mem_cons_self
  have memberTree : ∀ cell, pointer layout tree = some cell →
      cell ∈ cells layout (join side tree item .nil) :=
    fun cell top => order.mem_iff.mpr (List.mem_cons_of_mem _
      (List.mem_append_left _ (pointer_mem top)))
  have apartItem : pointer layout tree ≠ some item.cell := fun top =>
    (List.nodup_cons.mp (order.nodup_iff.mp place.inside)).1
      (List.mem_append_left _ (pointer_mem top))
  have parentItem : parent layout frames ≠ some item.cell := place_parent_ne place memberItem
  have sees := around_sees place.around
  rw [pointer_join] at sees
  rcases hook_parent_spec (linked_hangs linked) (parent layout frames) with ⟨one, run1, root1,
    keeps1, hangs1, off1⟩
  have sees1 : Sees layout one.nodes.read frames (some item.cell) :=
    sees_frame sees fun cell above => off1 cell fun top =>
      place_parent_ne place (memberTree cell top) above
  have beside : ∀ frame rest, frames = frame :: rest →
      pointer layout frame.sibling ≠ some item.cell := by
    rintro frame rest rfl
    exact place_sibling_ne place memberItem
  rcases replace_child_spec sees1 beside (pointer layout tree) with ⟨next, run2, root2, keeps2,
    sees2, off2⟩
  refine ⟨next, by simp [detach, run1, run2], keeps_trans keeps1 keeps2, ?_, ?_, ?_⟩
  · rw [off2 _ parentItem, off1 _ apartItem]
  · apply place_detach place
    · apply hangs_frame hangs1
      exact fun cell top => off2 cell (place_parent_ne place (memberTree cell top))
    · exact sees2
    · intro cell _ notTop notParent
      rw [off2 cell notParent, off1 cell notTop]
  · rw [root2, root1, root]
    cases frames with
    | nil => simp [plug]
    | cons frame rest => exact pointer_plug_cons _

/-- A node outside the tree gets the fields of `old` and its place. -/
theorem supplant_spec {old : Item Data} (at' : At head frames (.node old left right))
    (some_left : left ≠ .nil) (present : head.nodes.read elm = some node)
    (unused : elm ∉ frameCells layout frames ++ cells layout (.node old left right)) :
    ∃ last, supplant head elm old.cell = some last ∧ Keeps head last ∧
      At last frames (.node ⟨elm, node.data, old.color⟩ left right) := by
  rcases at' with ⟨place, root⟩
  rcases place.linked with ⟨atOld, linkedLeft, linkedRight⟩
  simp only [layout_cell] at atOld
  rcases List.nodup_cons.mp place.inside with ⟨own, distinct⟩
  rcases List.nodup_append.mp distinct with ⟨-, -, sides⟩
  have memberLeft : ∀ cell, pointer layout left = some cell → cell ∈ cells layout left :=
    fun _ => pointer_mem
  have memberRight : ∀ cell, pointer layout right = some cell → cell ∈ cells layout right :=
    fun _ => pointer_mem
  have inside : ∀ cell ∈ cells layout left ++ cells layout right, cell ≠ elm ∧ cell ≠ old.cell ∧
      parent layout frames ≠ some cell := by
    intro cell member
    have whole : cell ∈ cells layout (.node old left right) := List.mem_cons_of_mem _ member
    refine ⟨?_, ?_, place_parent_ne place whole⟩
    · rintro rfl
      exact unused (List.mem_append_right _ whole)
    · rintro rfl
      exact own member
  have parentElm : parent layout frames ≠ some elm :=
    fun above => unused (List.mem_append_left _ (parent_mem above))
  have parentOld : parent layout frames ≠ some old.cell := place_parent_ne place List.mem_cons_self
  have oldElm : old.cell ≠ elm := by
    rintro rfl
    exact unused (List.mem_append_right _ List.mem_cons_self)
  have leftOld : pointer layout left ≠ some old.cell :=
    fun top => own (List.mem_append_left _ (memberLeft _ top))
  have leftElm : pointer layout left ≠ some elm :=
    fun top => (inside _ (List.mem_append_left _ (memberLeft _ top))).1 rfl
  have rightElm : pointer layout right ≠ some elm := fun top =>
    (inside _ (List.mem_append_right _ (memberRight _ top))).1 rfl
  have sees : Sees layout head.nodes.read frames (some old.cell) := around_sees place.around
  have beside : ∀ frame rest, frames = frame :: rest →
      pointer layout frame.sibling ≠ some old.cell := by
    rintro frame rest rfl
    exact place_sibling_ne place List.mem_cons_self
  rcases adjust_spec present
      (fun node =>
        { (layout.value old (pointer layout left) (pointer layout right) (parent layout frames)) with
          data := node.data }) rfl with ⟨one, run1, root1, keeps1, here1, off1⟩
  have sees1 : Sees layout one.nodes.read frames (some old.cell) :=
    sees_frame sees fun cell above => off1 cell fun same => parentElm (same ▸ above)
  rcases replace_child_spec sees1 beside (some elm) with ⟨two, run2, root2, keeps2, sees2, off2⟩
  have hangsLeft : Hangs layout two.nodes.read (some old.cell) left := by
    apply hangs_frame (linked_hangs linkedLeft)
    intro cell top
    have apart := inside cell (List.mem_append_left _ (memberLeft _ top))
    rw [off2 cell apart.2.2, off1 cell apart.1]
  rcases hook_parent_spec hangsLeft (some elm) with ⟨three, run3, root3, keeps3, hangs3, off3⟩
  have hangsRight : Hangs layout three.nodes.read (some old.cell) right := by
    apply hangs_frame (linked_hangs linkedRight)
    intro cell top
    have apart := inside cell (List.mem_append_right _ (memberRight _ top))
    rw [off3 cell fun other => sides cell (memberLeft _ other) cell (memberRight _ top) rfl,
      off2 cell apart.2.2,
      off1 cell apart.1]
  rcases hook_parent_spec hangsRight (some elm) with ⟨last, run4, root4, keeps4, hangs4, off4⟩
  have old1 := (off1 _ oldElm).trans atOld
  have old2 := (off2 _ parentOld).trans old1
  have old3 := (off3 _ leftOld).trans old2
  have copy : copyField head elm old.cell = some one := by simpa [copyField, atOld] using run1
  have above1 : rbParent one old.cell = some (parent layout frames) := by simp [rbParent,
    old1, layout]
  have left2 : rbChild .left two old.cell = some (pointer layout left) := by
    simp [rbChild, old2, layout, RbNode.child]
  have right3 : rbChild .right three old.cell = some (pointer layout right) := by
    simp [rbChild, old3, layout, RbNode.child]
  refine ⟨last, ?_, ?_, ⟨?_, ?_⟩⟩
  · cases left with
    | nil => exact absurd rfl some_left
    | node top before behind =>
        have child2 : rbChild .left two old.cell = some (some top.cell) := left2
        have step3 : setParent two top.cell (some elm) = some three := run3
        simp [supplant, copy, above1, run2, child2, step3, right3, run4]
  · exact keeps_trans keeps1 (keeps_trans keeps2 (keeps_trans keeps3 keeps4))
  · apply place_replace place
    · intro member
      rcases List.mem_append.mp member with other | below
      · exact unused (List.mem_append_left _ other)
      · exact unused (List.mem_append_right _ (List.mem_cons_of_mem _ below))
    · rw [layout_cell, off4 _ rightElm, off3 _ leftElm, off2 _ parentElm]
      exact here1
    · apply hangs_frame hangs3
      exact fun cell top => off4 cell fun other =>
        sides cell (memberLeft _ top) cell (memberRight _ other) rfl
    · exact hangs4
    · apply sees_frame sees2
      intro cell above
      rw [off4 cell fun top => (inside cell (List.mem_append_right _ (memberRight _ top))).2.2
        above,
        off3 cell fun top => (inside cell (List.mem_append_left _ (memberLeft _ top))).2.2 above]
    · intro cell _ notElm notLeft notRight notParent
      rw [off4 cell notRight, off3 cell notLeft, off2 cell notParent, off1 cell notElm]
  · rw [root4, root3, root2, root1, root]
    cases frames with
    | nil => simp [plug, pointer]
    | cons frame rest => exact pointer_plug_cons _

theorem attach_spec {comp : Int} (at' : At head frames .nil)
    (present : head.nodes.read elm = some node) (unused : elm ∉ frameCells layout frames)
    (ways : ∀ frame rest, frames = frame :: rest → frame.side = if comp < 0 then .left
      else .right) :
    ∃ next, attach head elm (parent layout frames) comp = some next ∧ Keeps head next ∧
      At next frames (.node ⟨elm, node.data, .red⟩ .nil .nil) := by
  rcases at' with ⟨place, root⟩
  have sees := around_sees place.around
  have parentElm : parent layout frames ≠ some elm := fun above => unused (parent_mem above)
  rcases adjust_spec present (fun node => ⟨node.data, none, none, parent layout frames,
      .red⟩) rfl with
    ⟨one, run1, root1, keeps1, here1, off1⟩
  cases frames with
  | nil =>
      refine ⟨{ one with rbhRoot := some elm }, ?_, ⟨keeps1.fresh, keeps1.data⟩, ⟨?_, rfl⟩⟩
      · simp only [parent] at run1
        simp [attach, parent, run1]
      · exact place_attach place unused here1 (fun _ _ shape => by cases shape) fun cell apart _ =>
          off1 cell apart
  | cons frame rest =>
      have apart : frame.item.cell ≠ elm := fun same => parentElm (by rw [← same]; rfl)
      have atParent := (off1 _ apart).trans (sees frame rest rfl)
      rcases adjust_spec atParent (RbNode.setChild frame.side (some elm)) (by simp) with
        ⟨next, run2, root2, keeps2, here2, off2⟩
      refine ⟨next, ?_, keeps_trans keeps1 keeps2, ⟨?_, ?_⟩⟩
      · simp only [parent, layout_cell] at run1
        rw [ways frame rest rfl] at run2
        simp [attach, parent, run1, setChild, run2]
      · have outside : layout.cell (⟨elm, node.data, .red⟩ : Item Data) ∉ frameCells layout
          (frame :: rest) := unused
        apply place_attach place outside
        · rw [layout_cell, off2 _ apart.symm, here1]
          rfl
        · rintro other others shape
          cases shape
          exact here2.trans (by rw [knot_set_child]; rfl)
        · intro cell notElm notParent
          rw [off2 cell fun same => notParent (by rw [same]; rfl), off1 cell notElm]
      · rw [root2, root1, root]
        exact pointer_plug_cons _

/-! ## What can be read at a place -/

theorem at_up {frame : Frame (Item Data)} : At head (frame :: frames) tree ↔
    At head frames (frame.fill tree) :=
  ⟨fun seen => ⟨place_up.mp seen.place, seen.root⟩,
    fun seen => ⟨place_up.mpr seen.place, seen.root⟩⟩

theorem at_plug {inner : List (Frame (Item Data))} :
    At head (inner ++ frames) tree ↔ At head frames (plug inner tree) := by
  induction inner generalizing tree with
  | nil => rfl
  | cons frame inner inductionHypothesis => exact at_up.trans inductionHypothesis

theorem at_whole : At head frames tree ↔ At head [] (plug frames tree) := by
  rw [← at_plug, List.append_nil]

theorem cell_alive {whole : BinaryTree (Item Data)} (at' : At head [] whole) :
    ∀ cell ∈ cells layout whole, cell < head.nodes.fresh := by
  intro cell member
  rcases cell_mem_items.mp member with ⟨item, place, rfl⟩
  rcases place_of_member place with ⟨frames, left, right, shape⟩
  rw [shape, ← at_whole] at at'
  exact read_bound at'.place.linked.1

theorem cells_bound (at' : At head frames tree) :
    frames.length + tree.numNodes ≤ head.nodes.fresh := by
  have distinct := (holds_place.mpr at'.place).apart
  have few := length_le_fresh distinct (cell_alive (at_whole.mp at'))
  rw [cells_length] at few
  exact (length_add_nodes_le frames tree).trans few

theorem at_node (at' : At head frames (.node item left right)) :
    At head frames (join .left left item right) := at'

theorem at_node_right (at' : At head frames (.node item left right)) :
    At head frames (join .right right item left) := at'

theorem at_left : At head frames (.node item left right) ↔
    At head (⟨.left, item, right⟩ :: frames) left := by
  rw [at_up]
  rfl

theorem at_right : At head frames (.node item left right) ↔
    At head (⟨.right, item, left⟩ :: frames) right := by
  rw [at_up]
  rfl

end TWlib.RbTree
