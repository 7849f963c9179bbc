import Mathlib.Data.List.Induction
import TWlib.RbTreeColors

/-!
# Hanging nodes in and taking them out

`RB_INSERT` below the end of a search, and `RB_REMOVE` of any node of the tree. Both leave a
balanced tree in which the other nodes are the same, with the same data and in the same order.
-/

namespace TWlib.RbTree

open TWlib.Lib.CellStore
open TWlib.Lib.TreeZipper
open TWlib.Lib.ParentTree
open TWlib.Lib.RedBlackTree

set_option autoImplicit false

variable {Data : Type} {head next : RbHead Data} {frames path rest : List (Frame (Item Data))}
  {frame : Frame (Item Data)} {near far tree left right whole : BinaryTree (Item Data)}
  {item : Item Data} {side : Side} {elm : Nat} {above : Option Nat} {shade : Color}
  {color : Option Color} {height fuel : Nat}

/-! ## Walks along one side and upwards -/

theorem last_on_run (ways : ∀ frame ∈ path, frame.side = side)
    (at' : At head frames (plug path (join side .nil item far)))
    (here : pointer layout (plug path (join side .nil item far)) = some elm)
    (enough : path.length < fuel) :
    lastOn side head fuel elm = some item.cell := by
  induction path using List.reverseRecOn generalizing frames elm fuel with
  | nil =>
      rw [plug, pointer_join, Option.some_inj, layout_cell] at here
      subst here
      cases fuel with
      | zero => cases enough
      | succ fuel => simp [lastOn, read_near at', pointer]
  | append_singleton path frame inductionHypothesis =>
      rw [plug_snoc] at at' here
      have way : frame.side = side := ways frame (by simp)
      rw [Frame.fill, way] at at' here
      rw [pointer_join, Option.some_inj, layout_cell] at here
      subst here
      cases fuel with
      | zero => cases enough
      | succ fuel =>
          have some_below : ∃ below, pointer layout (plug path (join side .nil item far)) =
              some below := by
            cases path with
            | nil => exact ⟨_, pointer_join⟩
            | cons first others =>
                have nodes := length_add_nodes_le (first :: others) (join side .nil item far)
                cases shape : plug (first :: others) (join side .nil item far) with
                | nil =>
                    rw [shape] at nodes
                    simp [BinaryTree.numNodes] at nodes
                | node top below behind => exact ⟨_, rfl⟩
          rcases some_below with ⟨below, top⟩
          have deeper := inductionHypothesis (fun other member => ways other (by simp [member]))
            (at_near.mp at') top
            (by simpa using enough)
          simp [lastOn, read_near at', top, deeper]

theorem augment_up_run (at' : At head frames tree) (enough : frames.length ≤ fuel) :
    augmentUp head fuel (parent layout frames) = some () := by
  induction frames generalizing tree fuel with
  | nil => cases fuel <;> rfl
  | cons frame frames inductionHypothesis =>
      cases fuel with
      | zero => cases enough
      | succ fuel =>
          have outer := at_up.mp at'
          have parentRead : rbParent head frame.item.cell = some (parent layout frames) :=
            read_parent outer
          show augmentUp head (fuel + 1) (some frame.item.cell) = some ()
          simp [augmentUp, parentRead, inductionHypothesis outer (by simpa using enough)]

/-! ## Taking a node out -/

/-- The place may be one black node short, or red at its top. -/
theorem remove_color_spec (at' : At head frames tree)
    (balanced : Balanced Item.color tree shade height)
    (hole : Hole Item.color frames color (height + 1)) :
    ∃ next whole total, rbRemoveColor head (parent layout frames) (pointer layout tree) =
      some next ∧ Keeps head next ∧
      At next [] whole ∧ Balanced Item.color whole .black total ∧
      contents whole = contents (plug frames tree) := by
  have bound := cells_bound at'
  cases shade with
  | black =>
      rcases remove_color_loop (head.nodes.fresh + 1) at' balanced hole (by omega) with
        ⟨left, next, whole, total, run, mend, keeps, done⟩
      exact ⟨next, whole, total, by simp [rbRemoveColor, run, mend], keeps, done⟩
  | red =>
      have treeRead := read_red at' balanced
      rcases blacken_spec at' balanced with ⟨next, top, higher, run, keeps, painted, done,
        order, grown⟩
      rw [grown rfl] at done
      rcases plug_balanced done hole (fun contra => by cases contra) with ⟨total, whole⟩
      refine ⟨next, plug frames top, total, ?_, keeps, at_whole.mp painted, whole,
        contents_plug_congr frames order⟩
      have red : isRed head (pointer layout tree) = some true := treeRead
      simp [rbRemoveColor, removeColorLoop, red, run]

/-- The last lines of `RB_REMOVE`: a node with one subtree at most was taken out above it. -/
theorem remove_finish {removed : Item Data} (at' : At head frames tree)
    (balanced : Balanced Item.color (join side tree removed .nil) shade height)
    (hole : Hole Item.color frames color height) (fits : shade = .red → color = some .black) :
    ∃ next whole total,
      (if removed.color = .black then
        rbRemoveColor head (parent layout frames) (pointer layout tree)
      else some head) =
        some next ∧ Keeps head next ∧ At next [] whole ∧ Balanced Item.color whole .black total ∧
          contents whole = contents (plug frames tree) := by
  have paint := join_shade balanced
  cases shade with
  | red =>
      rcases of_join_red balanced with ⟨-, treeDone, -⟩
      rcases plug_balanced treeDone hole (fun contra => by cases contra) with ⟨total, done⟩
      exact ⟨head, _, total, by simp [paint], keeps_refl head, at_whole.mp at', done, rfl⟩
  | black =>
      rcases of_join_black balanced with ⟨-, one, other, lower, rfl, treeDone, nilDone⟩
      rw [if_pos paint]
      exact remove_color_spec at' treeDone hole

theorem remove_outer_spec (side : Side) (at' : At head frames (join side tree item .nil))
    {total : Nat} (balanced : Balanced Item.color (plug frames (join side tree item .nil))
      .black total) :
    ∃ next whole higher, ((removeOuter head item.cell (pointer layout tree)).bind fun left =>
        if left.2.2.2 = .black then rbRemoveColor left.1 left.2.1 left.2.2.1
          else some left.1) = some next ∧
      Keeps head next ∧ At next [] whole ∧ Balanced Item.color whole .black higher ∧
        ∃ early late, contents (plug frames (join side tree item .nil)) = early ++ (item.cell,
          item.data) :: late ∧
          contents whole = early ++ late := by
  have parentRead := read_parent at'
  have colorRead := read_color at'
  rcases unplug balanced with ⟨shade, height, color, placed, hole, fits⟩
  rcases detach_spec at' with ⟨one, run1, keeps1, -, at1⟩
  rcases remove_finish at1 placed hole fits with ⟨next, whole, higher, run2, keeps2, at2,
    done, order⟩
  refine ⟨next, whole, higher, ?_, keeps_trans keeps1 keeps2, at2, done, ?_⟩
  · simp [removeOuter, parentRead, colorRead, run1, run2]
  · let early := (before frames).map fun item => (item.cell, item.data)
    let late := (after frames).map fun item => (item.cell, item.data)
    rw [order, contents_plug, contents_plug]
    cases side with
    | left =>
        exact ⟨early ++ contents tree, late, by simp [join, early, late], by simp [early, late]⟩
    | right =>
        exact ⟨early, contents tree ++ late, by simp [join, early, late], by simp [early, late]⟩

/-- A node with two children: the next node takes its place, with its colour. -/
theorem remove_inner_spec {elm : Nat} (at' : At head frames (.node item left right))
    (some_left : left ≠ .nil) (here : pointer layout right = some elm) {total : Nat}
    (balanced : Balanced Item.color (plug frames (.node item left right)) .black total) :
    ∃ next whole higher, ((removeInner head item.cell elm).bind fun left =>
        if left.2.2.2 = .black then rbRemoveColor left.1 left.2.1 left.2.2.1
          else some left.1) = some next ∧
      Keeps head next ∧ At next [] whole ∧ Balanced Item.color whole .black higher ∧
        ∃ early late, contents (plug frames (.node item left right)) = early ++ (item.cell,
          item.data) :: late ∧
          contents whole = early ++ late := by
  have some_right : right ≠ .nil := by
    rintro rfl
    cases here
  rcases exists_last .left some_right with ⟨path, successor, child, rfl, ways⟩
  have atRight : At head (⟨.right, item, left⟩ :: frames)
      (plug path (join .left .nil successor child)) :=
    at_right.mp at'
  have atSuccessor : At head (path ++ ⟨.right, item, left⟩ :: frames)
      (join .right child successor .nil) :=
    at_plug.mpr atRight
  have bound := cells_bound atSuccessor
  have lastRead : lastOn .left head head.nodes.fresh elm = some successor.cell := by
    apply last_on_run ways atRight here
    simp only [List.length_append, List.length_cons] at bound
    omega
  have childRead := read_near atSuccessor
  have parentRead := read_parent atSuccessor
  have colorRead := read_color atSuccessor
  rcases detach_spec atSuccessor with ⟨one, run1, keeps1, stays, at1⟩
  have parentAgain : rbParent one successor.cell =
      some (parent layout (path ++ ⟨.right, item, left⟩ :: frames)) := by
    rw [rbParent, stays]
    exact parentRead
  have content := (linked_join.mp atSuccessor.place.linked).1
  rw [layout_cell, ← stays] at content
  have atOld : At one frames (.node item left (plug path child)) := at_right.mpr (at_plug.mp at1)
  have unused : successor.cell ∉ frameCells layout frames ++ cells layout
      (.node item left (plug path child)) := by
    intro member
    have inWhole : successor.cell ∈ cells layout
        (plug frames (.node item left (plug path child))) :=
      (cells_plug layout frames _).mem_iff.mpr (by simpa [or_comm] using member)
    have shape : plug frames (.node item left (plug path child)) =
        plug (path ++ ⟨.right, item, left⟩ :: frames) child := by
      rw [plug_append]
      rfl
    rw [shape, (cells_plug layout _ _).mem_iff] at inWhole
    have order := cells_join layout .right child successor .nil
    rcases List.mem_append.mp inWhole with below | outside
    · have distinct := (List.nodup_cons.mp (order.nodup_iff.mp atSuccessor.place.inside)).1
      exact distinct (List.mem_append_left _ below)
    · exact atSuccessor.place.apart _ (order.mem_iff.mpr List.mem_cons_self) outside
  rcases supplant_spec atOld some_left content unused with ⟨two, run2, keeps2, at2⟩
  rw [knot_data] at at2
  have atPlace : At two (path ++ ⟨.right, successor.paint item.color, left⟩ :: frames) child :=
    at_plug.mpr (at_right.mp at2)
  -- what is in `parent` is above the place again, whether that is the successor or a node on the
  -- way to it
  have outer : (if parent layout (path ++ ⟨.right, item, left⟩ :: frames) =
      some item.cell then some successor.cell
      else parent layout (path ++ ⟨.right, item, left⟩ :: frames)) =
        parent layout (path ++ ⟨.right, successor.paint item.color, left⟩ :: frames) := by
    cases path with
    | nil => simp [parent]
    | cons first others =>
        have apart : first.item.cell ≠ item.cell := by
          intro same
          have distinct := atSuccessor.place.outside
          rw [frame_cells_append] at distinct
          exact (List.nodup_append.mp distinct).2.2 _ List.mem_cons_self _ List.mem_cons_self same
        simp [parent, apart]
  have balancedThere : Balanced Item.color
      (plug (path ++ ⟨.right, item, left⟩ :: frames) (join .right child successor .nil))
      .black total := by
    rw [plug_append]
    exact balanced
  rcases unplug balancedThere with ⟨shade, height, color, placed, hole, fits⟩
  have hole' : Hole Item.color (path ++ ⟨.right, successor.paint item.color, left⟩ :: frames)
      color height :=
    hole_append_repaint hole rfl
  rcases remove_finish atPlace placed hole' fits with ⟨next, whole, higher, run3, keeps3, at3,
    done, order⟩
  have climbed := augment_up_run atPlace (le_trans (Nat.le_add_right _ _) (cells_bound atPlace))
  refine ⟨next, whole, higher, ?_, keeps_trans keeps1 (keeps_trans keeps2 keeps3), at3, done,
    (before frames).map (fun item => (item.cell, item.data)) ++ contents left,
    contents (plug path (join .left .nil successor child)) ++ (after frames).map
    (fun item => (item.cell, item.data)),
    ?_, ?_⟩
  · simp [removeInner, lastRead, childRead, parentRead, colorRead, run1, parentAgain, outer, run2,
      climbed, run3]
  · rw [contents_plug, contents_node]
    simp
  · have front : contents (plug path (join .left .nil successor child)) =
        (successor.cell, successor.data) :: contents (plug path child) := by
      rw [contents_plug, contents_plug, before_of_left ways]
      rfl
    have shape : plug (⟨.right, successor.paint item.color, left⟩ :: frames) (plug path child) =
        plug frames (.node (successor.paint item.color) left (plug path child)) := rfl
    rw [order, plug_append, shape, contents_plug, contents_node, front]
    simp

theorem rb_remove_spec (at' : At head frames (.node item left right)) {total : Nat}
    (balanced : Balanced Item.color (plug frames (.node item left right)) .black total) :
    ∃ next whole higher, rbRemove head item.cell = some next ∧ Keeps head next ∧ At next [] whole ∧
      Balanced Item.color whole .black higher ∧
        ∃ early late, contents (plug frames (.node item left right)) = early ++ (item.cell,
          item.data) :: late ∧
          contents whole = early ++ late := by
  have leftRead : rbChild .left head item.cell = some (pointer layout left) :=
    read_near (at_node at')
  have rightRead : rbChild .right head item.cell = some (pointer layout right) :=
    read_far (at_node at')
  cases left with
  | nil =>
      rcases remove_outer_spec .right at' balanced with ⟨next, whole, higher, run, done⟩
      refine ⟨next, whole, higher, ?_, done⟩
      simpa [rbRemove, leftRead, rightRead, pointer] using run
  | node top below behind =>
      cases right with
      | nil =>
          rcases remove_outer_spec .left at' balanced with ⟨next, whole, higher, run, done⟩
          refine ⟨next, whole, higher, ?_, done⟩
          simpa [rbRemove, leftRead, rightRead, pointer] using run
      | node other before after =>
          rcases remove_inner_spec at' (by simp) rfl balanced with ⟨next, whole, higher, run, done⟩
          refine ⟨next, whole, higher, ?_, done⟩
          simpa [rbRemove, leftRead, rightRead, pointer] using run

end TWlib.RbTree
