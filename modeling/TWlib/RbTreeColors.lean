import TWlib.RbTreeLinks

/-!
# Rebalancing

The two loops that mend the colours after a node was hung in or taken out. Each round either ends
the loop with the whole tree balanced, or moves the place that is wrong two levels up, or one. The
nodes keep their order from the left to the right.
-/

namespace TWlib.RbTree

open TWlib.Lib.CellStore
open TWlib.Lib.TreeZipper
open TWlib.Lib.ParentTree
open TWlib.Lib.RedBlackTree

set_option autoImplicit false

variable {Data : Type} {head next : RbHead Data} {frames rest : List (Frame (Item Data))}
  {frame : Frame (Item Data)} {near inner far tree beside : BinaryTree (Item Data)}
  {item child new : Item Data} {side inside : Side} {elm : Nat} {above : Option Nat} {shade : Color}
  {height fuel : Nat}

def contents (tree : BinaryTree (Item Data)) : List (Nat × Data) :=
  (items tree).map fun item => (item.cell, item.data)

@[simp] theorem contents_nil : contents (.nil : BinaryTree (Item Data)) = [] := rfl

@[simp] theorem contents_node (left right : BinaryTree (Item Data)) :
    contents (.node item left right) = contents left ++ (item.cell, item.data) ::
    contents right := by
  simp [contents, items]

theorem contents_plug (frames : List (Frame (Item Data))) (tree : BinaryTree (Item Data)) :
    contents (plug frames tree) = (before frames).map (fun item => (item.cell, item.data)) ++
      contents tree ++
      (after frames).map (fun item => (item.cell, item.data)) := by
  simp [contents, items_plug]

theorem contents_join_congr {otherNear otherFar : BinaryTree (Item Data)} {other : Item Data}
    (sameNear : contents near = contents otherNear) (sameCell : item.cell = other.cell)
    (sameData : item.data = other.data) (sameFar : contents far = contents otherFar) :
    contents (join side near item far) = contents (join side otherNear other otherFar) := by
  simp only [contents] at *
  cases side <;> simp [join, items, sameNear, sameCell, sameData, sameFar]

theorem contents_plug_congr {other : BinaryTree (Item Data)} (frames : List (Frame (Item Data)))
    (same : contents tree = contents other) :
    contents (plug frames tree) = contents (plug frames other) := by
  rw [contents_plug, contents_plug, same]

theorem contents_rotate : contents (join side (join side near item inner) child far) =
    contents (join side near item (join side inner child far)) := by
  simp only [contents, items_rotate]

/-! ## Reading at a place -/

theorem read_near (at' : At head frames (join side near item far)) :
    rbChild side head item.cell = some (pointer layout near) := by
  have here := (linked_join.mp at'.place.linked).1
  rw [layout_cell] at here
  simp [rbChild, here]

theorem read_far (at' : At head frames (join side near item far)) :
    rbChild side.flip head item.cell = some (pointer layout far) := by
  have here := (linked_join.mp at'.place.linked).1
  rw [layout_cell] at here
  simp [rbChild, here]

theorem read_parent (at' : At head frames (join side near item far)) :
    rbParent head item.cell = some (parent layout frames) := by
  have here := (linked_join.mp at'.place.linked).1
  rw [layout_cell] at here
  simp [rbParent, here]

theorem read_color (at' : At head frames (join side near item far)) :
    rbColor head item.cell = some item.color := by
  have here := (linked_join.mp at'.place.linked).1
  rw [layout_cell] at here
  simp [rbColor, here]

theorem read_red (at' : At head frames tree) (balanced : Balanced Item.color tree shade height) :
    isRed head (pointer layout tree) = some (shade == .red) := by
  cases tree with
  | nil =>
      cases balanced
      rfl
  | node item left right =>
      have colored : rbColor head item.cell = some item.color := read_color (at_node at')
      have same : item.color = shade := by
        cases balanced with
        | red paint _ _ => exact paint
        | black paint _ _ => exact paint
      simp [isRed, pointer, colored, same]

theorem at_near : At head frames (join side near item far) ↔
    At head (⟨side, item, far⟩ :: frames) near := by
  rw [at_up, Frame.fill]

theorem at_far : At head frames (join side near item far) ↔
    At head (⟨side.flip, item, near⟩ :: frames) far := by
  rw [at_up, Frame.fill, join_flip]

/-- On which side of its parent a node is, the code asks about the left one. -/
theorem read_side (at' : At head (frame :: frames) tree)
    (apart : pointer layout frame.sibling ≠ pointer layout tree) :
    ∃ left, rbChild .left head frame.item.cell = some left ∧
      (if left = pointer layout tree then Side.left else .right) = frame.side := by
  have seen := at_up.mp at'
  rcases frame with ⟨side, item, sibling⟩
  cases side with
  | left => exact ⟨_, read_near seen, by simp⟩
  | right => exact ⟨pointer layout sibling, read_far seen, by simp [apart]⟩

theorem sibling_ne (at' : At head (frame :: frames) tree) (here : pointer layout tree = some elm) :
    pointer layout frame.sibling ≠ pointer layout tree := by
  rw [here]
  exact place_sibling_ne at'.place (pointer_mem here)

theorem read_children {one other : Color} (at' : At head frames (join side near item far))
    (nearDone : Balanced Item.color near one height)
    (farDone : Balanced Item.color far other height) :
    ∃ left right leftRed rightRed, rbChild .left head item.cell = some left ∧
      isRed head left = some leftRed ∧
      rbChild .right head item.cell = some right ∧ isRed head right = some rightRed ∧
        (leftRed || rightRed) = (one == .red || other == .red) := by
  have nearRead := read_near at'
  have farRead := read_far at'
  have nearRed := read_red (at_near.mp at') nearDone
  have farRed := read_red (at_far.mp at') farDone
  cases side with
  | left => exact ⟨_, _, _, _, nearRead, nearRed, farRead, farRed, rfl⟩
  | right => exact ⟨_, _, _, _, farRead, farRed, nearRead, nearRed, Bool.or_comm _ _⟩

/-! ## Changes that both loops make -/

theorem rotate_flip_spec (at' : At head frames (join side (join side near item inner) child far)) :
    ∃ next, rotate side.flip head child.cell = some next ∧ Keeps head next ∧
      At next frames (join side near item (join side inner child far)) := by
  have mirrored : At head frames (join side.flip far child (join side.flip inner item near)) := by
    simpa only [join_flip] using at'
  simpa only [join_flip] using rotate_spec mirrored

theorem set_black_red_spec (at' : At head frames
    (join side (join inside near child inner) item far)) :
    ∃ next, setBlackRed head child.cell item.cell = some next ∧ Keeps head next ∧
      At next frames (join side (join inside near (child.paint .black) inner)
        (item.paint .red) far) := by
  rcases paint_spec (at_near.mp at') .black with ⟨one, run1, keeps1, at1⟩
  rcases paint_spec (at_near.mpr at1) .red with ⟨next, run2, keeps2, at2⟩
  exact ⟨next, by simp [setBlackRed, run1, run2], keeps_trans keeps1 keeps2, at2⟩

theorem blacken_spec (at' : At head frames tree)
    (balanced : Balanced Item.color tree shade height) :
    ∃ next black higher, blacken head (pointer layout tree) = some next ∧ Keeps head next ∧
      At next frames black ∧
      Balanced Item.color black .black higher ∧ contents black = contents tree ∧
      (shade = .red → higher = height + 1) := by
  cases tree with
  | nil =>
      cases balanced
      exact ⟨head, .nil, 0, rfl, keeps_refl head, at', Balanced.nil, rfl, by simp⟩
  | node item left right =>
      rcases paint_spec (at_node at') .black with ⟨next, run, keeps, painted⟩
      have same : contents (join .left left (item.paint .black) right) =
          contents (.node item left right) :=
        by simp [join]
      cases balanced with
      | red paint below beyond =>
          exact ⟨next, _, _, run, keeps, painted, Balanced.black rfl below beyond, same,
            fun _ => rfl⟩
      | black paint below beyond =>
          exact ⟨next, _, _, run, keeps, painted, Balanced.black rfl below beyond, same, by simp⟩

/-! ## After an insertion -/

/-- A black parent is above the node the loop goes on with, and what came down on the other side is
red. -/
theorem insert_turn_spec {grand parent : Item Data}
    (at' : At head (⟨inside, parent, inner⟩ :: ⟨side, grand, beside⟩ :: rest) tree)
    (here : pointer layout tree = some elm) (balanced : Balanced Item.color tree .red height)
    (red : parent.color = .red) (sibling : Balanced Item.color inner .black height)
    (uncle : Balanced Item.color beside .black height) :
    ∃ next result lower middle other, insertTurn side head elm parent.cell grand.cell =
      some (next, result) ∧
      Keeps head next ∧ At next (⟨side, middle, other⟩ :: rest) lower ∧
        pointer layout lower = some result ∧
        Balanced Item.color lower .red height ∧ Balanced Item.color other .red height ∧
          middle.color = .black ∧
          contents (join side lower middle other) =
            contents (join side (join inside tree parent inner) grand beside) := by
  have seen := at_near.mpr (at_near.mpr at')
  have atParent := at_near.mpr at'
  by_cases turned : inside = side
  · subst turned
    have straight : rbChild inside.flip head parent.cell = some (pointer layout inner) :=
      read_far atParent
    have apart : pointer layout inner ≠ some elm := by
      rw [← here]
      exact sibling_ne at' here
    rcases set_black_red_spec seen with ⟨one, run1, keeps1, at1⟩
    rcases rotate_flip_spec at1 with ⟨next, run2, keeps2, at2⟩
    refine ⟨next, elm, tree, parent.paint .black, join inside inner (grand.paint .red) beside, ?_,
      keeps_trans keeps1 keeps2, at_near.mp at2, here, balanced,
      join_red rfl sibling uncle, rfl, ?_⟩
    · simp only [paint_cell] at run2
      simp [insertTurn, straight, apart, run1, run2]
    · rw [← contents_rotate]
      exact contents_join_congr (contents_join_congr rfl rfl rfl rfl) rfl rfl rfl
  · have way : inside = side.flip := eq_flip_of_ne turned
    subst way
    rcases exists_node_red balanced side with ⟨near, top, far, rfl⟩
    rw [pointer_join, Option.some_inj, layout_cell] at here
    subst here
    rcases of_join_red balanced with ⟨paint, below, beyond⟩
    rw [join_flip] at atParent seen
    have bent : rbChild side.flip head parent.cell = some (some top.cell) := by
      rw [read_far atParent, pointer_join]
      rfl
    rcases rotate_spec atParent with ⟨one, run1, keeps1, at1⟩
    rcases set_black_red_spec (at_near.mpr at1) with ⟨two, run2, keeps2, at2⟩
    rcases rotate_flip_spec at2 with ⟨next, run3, keeps3, at3⟩
    refine ⟨next, parent.cell, join side inner parent near, top.paint .black,
      join side far (grand.paint .red) beside, ?_,
      keeps_trans keeps1 (keeps_trans keeps2 keeps3), at_near.mp at3, pointer_join,
      join_red red sibling below,
      join_red rfl beyond uncle, rfl, ?_⟩
    · simp only [paint_cell] at run3
      simp [insertTurn, bent, run1, run2, run3]
    · rw [← contents_rotate, join_flip]
      refine contents_join_congr ?_ rfl rfl rfl
      rw [← contents_rotate]
      exact contents_join_congr rfl rfl rfl rfl

/-- Everything is balanced, apart from the colour of the root. -/
theorem insert_color_loop (fuel : Nat) : ∀ {head : RbHead Data} {frames : List (Frame (Item Data))}
    {tree : BinaryTree (Item Data)} {elm : Nat} {above : Option Color} {height : Nat},
    At head frames tree →
    pointer layout tree = some elm → Balanced Item.color tree .red height →
    Hole Item.color frames above height →
    frames.length < fuel → ∃ next whole shade total, insertColorLoop fuel head elm = some next ∧
      Keeps head next ∧
      At next [] whole ∧ Balanced Item.color whole shade total ∧
      contents whole = contents (plug frames tree) := by
  induction fuel with
  | zero => exact fun _ _ _ _ enough => absurd enough (Nat.not_lt_zero _)
  | succ fuel inductionHypothesis =>
      intro head frames tree elm above height at' here balanced hole enough
      rcases exists_node_red balanced .left with ⟨near, item, far, rfl⟩
      rw [pointer_join, Option.some_inj, layout_cell] at here
      subst here
      cases hole with
      | top =>
          have parentRead := read_parent at'
          refine ⟨head, _, _, _, ?_, keeps_refl head, at', balanced, rfl⟩
          simp [insertColorLoop, parentRead, parent]
      | black paint beside outer =>
          rename_i frame frames shade above
          have parentRead : rbParent head item.cell = some (some frame.item.cell) := read_parent at'
          have colorRead : rbColor head frame.item.cell = some .black := by
            rw [read_color (at_up.mp at'), paint]
          rcases plug_balanced balanced (Hole.black paint beside outer) fun _ =>
            rfl with ⟨total, whole⟩
          refine ⟨head, _, _, _, ?_, keeps_refl head, at_whole.mp at', whole, rfl⟩
          simp [insertColorLoop, parentRead, colorRead]
      | red paint sibling outer =>
          rename_i frame frames
          cases outer with
          | black grandPaint uncle outer =>
          rename_i grand rest shade above
          rcases frame with ⟨inside, parent, inner⟩
          rcases grand with ⟨side, grand, beside⟩
          simp only at paint sibling grandPaint uncle
          simp only [List.length_cons] at enough
          have atParent := at_near.mpr at'
          have atGrand := at_near.mpr atParent
          have colorRead : rbColor head parent.cell =
            some .red := by rw [read_color atParent, paint]
          have parentRead : rbParent head item.cell = some (some parent.cell) := read_parent at'
          have grandRead : rbParent head parent.cell = some (some grand.cell) :=
            read_parent atParent
          have tmpRead := read_far atGrand
          have tmpRed := read_red (at_far.mp atGrand) uncle
          rcases read_side atParent (sibling_ne atParent pointer_join) with ⟨left,
            leftRead, sideRead⟩
          simp only [pointer_join, layout_cell] at leftRead sideRead
          cases shade with
          | red =>
              rcases exists_node_red uncle .left with ⟨behind, top, farther, rfl⟩
              rcases paint_spec (at_far.mp atGrand) .black with ⟨one, run1, keeps1, at1⟩
              rcases set_black_red_spec (at_far.mpr at1) with ⟨two, run2, keeps2, at2⟩
              rcases of_join_red uncle with ⟨-, below, beyond⟩
              have parentDone : Balanced Item.color (join inside (join .left near item far)
                  (parent.paint .black) inner)
                  .black _ := join_black rfl balanced sibling
              have uncleDone :
                  Balanced Item.color (join .left behind (top.paint .black) farther) .black _ :=
                join_black rfl below beyond
              have taller : Balanced Item.color (join side _ (grand.paint .red) _) .red _ :=
                join_red rfl parentDone uncleDone
              rcases inductionHypothesis at2 pointer_join taller outer (by omega) with
                ⟨next, whole, total, height, run3, keeps3, at3, done, same⟩
              refine ⟨next, whole, total, height, ?_,
                keeps_trans keeps1 (keeps_trans keeps2 keeps3), at3, done, ?_⟩
              · simp only [pointer_join, layout_cell] at tmpRead tmpRed
                have round : insertColorLoop (fuel + 1) head item.cell =
                    insertColorLoop fuel two grand.cell := by
                  simp [insertColorLoop, parentRead, colorRead, grandRead, leftRead, sideRead,
                    tmpRead, tmpRed, run1, run2]
                rw [round]
                exact run3
              · rw [same]
                apply contents_plug_congr
                exact contents_join_congr (contents_join_congr rfl rfl rfl rfl) rfl rfl
                  (contents_join_congr rfl rfl rfl rfl)
          | black =>
              rcases insert_turn_spec at' pointer_join balanced paint sibling uncle with
                ⟨one, result, lower, middle, other, run1, keeps1, at1, here1, balanced1, other1,
                  middle1, same1⟩
              rcases inductionHypothesis at1 here1 balanced1 (Hole.black middle1 other1 outer)
                  (by simp; omega) with
                ⟨next, whole, total, height, run2, keeps2, at2, done, same⟩
              refine ⟨next, whole, total, height, ?_, keeps_trans keeps1 keeps2, at2, done, ?_⟩
              · simp only [layout_cell] at run1
                simp [insertColorLoop, parentRead, colorRead, grandRead, leftRead, sideRead,
                  tmpRead, tmpRed, run1, run2]
              · rw [same]
                exact contents_plug_congr rest same1

theorem contents_length (tree : BinaryTree (Item Data)) :
    (contents tree).length = tree.numNodes := by
  rw [contents, List.length_map, items_length]

theorem insert_color_spec (at' : At head frames tree) (here : pointer layout tree = some elm)
    (balanced : Balanced Item.color tree .red height) {color : Option Color}
    (hole : Hole Item.color frames color height) :
    ∃ next whole total, rbInsertColor head elm = some next ∧ Keeps head next ∧ At next [] whole ∧
      Balanced Item.color whole .black total ∧ contents whole = contents (plug frames tree) := by
  have bound := cells_bound at'
  rcases insert_color_loop (head.nodes.fresh + 1) at' here balanced hole (by omega) with
    ⟨one, middle, shade, total, run1, keeps1, at1, done, same⟩
  rcases blacken_spec at1 done with ⟨next, whole, higher, run2, keeps2, at2, black, order, -⟩
  refine ⟨next, whole, higher, ?_, keeps_trans keeps1 keeps2, at2, black, order.trans same⟩
  cases middle with
  | nil =>
      have nodes := congrArg List.length same
      rw [contents_length, contents_length] at nodes
      have room := length_add_nodes_le frames tree
      cases tree with
      | nil => cases here
      | node item left right =>
          simp only [BinaryTree.numNodes] at nodes room
          omega
  | node item left right =>
      have root : one.rbhRoot = some item.cell := at1.root
      have paint : setColor one item.cell .black = some next := run2
      simp [rbInsertColor, run1, root, paint]

/-! ## After a removal -/

/-- What the sibling of a place that is one black node short has below it is balanced, and it is
black. -/
theorem black_sibling_spec {parent : Item Data} {sibling : BinaryTree (Item Data)}
    (at' : At head (⟨side, parent, sibling⟩ :: rest) tree)
    (other : Balanced Item.color sibling shade (height + 1)) {color : Option Color}
    (hole : Hole Item.color (⟨side, parent, sibling⟩ :: rest) color (height + 1)) :
    ∃ next brother near far below upper, blackSibling side head parent.cell = some (next,
      brother.cell) ∧
      Keeps head next ∧
        At next (⟨side, below, join side near brother far⟩ :: upper) tree ∧
          below.cell = parent.cell ∧
          Balanced Item.color (join side near brother far) .black (height + 1) ∧
            Hole Item.color (⟨side, below, join side near brother far⟩ :: upper) (some below.color)
              (height + 1) ∧
              (below.color = .red ∨ upper = rest) ∧
                contents (plug (⟨side, below, join side near brother far⟩ :: upper) tree) =
                  contents (plug (⟨side, parent, sibling⟩ :: rest) tree) := by
  rcases exists_node other side with ⟨near, brother, far, rfl⟩
  have atParent := at_near.mpr at'
  have tmpRead : rbChild side.flip head parent.cell = some (some brother.cell) := by
    rw [read_far atParent, pointer_join]
    rfl
  have colored : brother.color = shade := join_shade other
  have colorRead : rbColor head brother.cell =
    some shade := by rw [read_color (at_far.mp atParent), colored]
  cases shade with
  | black =>
      refine ⟨head, brother, near, far, parent, rest, ?_, keeps_refl head, at', rfl, other, ?_,
        Or.inr rfl, rfl⟩
      · simp [blackSibling, tmpRead, colorRead]
      · cases hole with
        | red paint beside outer =>
            simp only at paint
            rw [paint]
            exact Hole.red paint beside outer
        | black paint beside outer =>
            simp only at paint
            rw [paint]
            exact Hole.black paint beside outer
  | red =>
      rcases of_join_red other with ⟨-, nearDone, farDone⟩
      cases hole with
      | red paint beside outer =>
          have black := join_shade beside
          rw [colored] at black
          cases black
      | black paint beside outer =>
          rw [← join_flip] at atParent
          rcases set_black_red_spec atParent with ⟨one, run1, keeps1, at1⟩
          rw [join_flip] at at1
          rcases rotate_spec at1 with ⟨next, run2, keeps2, at2⟩
          rcases exists_node nearDone side with ⟨nearer, nephew, behind, rfl⟩
          have tmpAgain : rbChild side.flip next parent.cell = some (some nephew.cell) := by
            have seen := read_far (at_near.mp at2)
            rwa [pointer_join] at seen
          refine ⟨next, nephew, nearer, behind, parent.paint .red,
            ⟨side, brother.paint .black, far⟩ :: rest, ?_,
            keeps_trans keeps1 keeps2, at_near.mp (at_near.mp at2), rfl, nearDone, ?_,
            Or.inl rfl, ?_⟩
          · simp only [paint_cell] at run2
            simp [blackSibling, tmpRead, colorRead, run1, run2, tmpAgain]
          · exact Hole.red rfl nearDone (Hole.black rfl farDone outer)
          · simp only [plug_join]
            apply contents_plug_congr
            rw [contents_rotate]
            exact contents_join_congr rfl rfl rfl (contents_join_congr rfl rfl rfl rfl)

theorem red_nephew_spec {parent brother : Item Data} {one other : Color}
    (at' : At head (⟨side, parent, join side near brother far⟩ :: rest) tree)
    (nearDone : Balanced Item.color near one height)
    (farDone : Balanced Item.color far other height) (red : one = .red ∨ other = .red) :
    ∃ next upper nearer farther shade, redNephew side head parent.cell brother.cell = some (next,
      upper.cell) ∧
      Keeps head next ∧ At next (⟨side, parent, join side nearer upper farther⟩ :: rest) tree ∧
        Balanced Item.color nearer shade height ∧ Balanced Item.color farther .red height ∧
          contents (join side nearer upper farther) = contents (join side near brother far) := by
  have atBrother := at_far.mp (at_near.mpr at')
  have farRead := read_far atBrother
  have farRed := read_red (at_far.mp atBrother) farDone
  cases other with
  | red =>
      refine ⟨head, brother, near, far, one, ?_, keeps_refl head, at', nearDone, farDone, rfl⟩
      simp [redNephew, farRead, farRed]
  | black =>
      have nearRed : one = .red := by simpa using red
      subst nearRed
      rcases exists_node_red nearDone side with ⟨outer, nephew, inner, rfl⟩
      rcases of_join_red nearDone with ⟨-, outerDone, innerDone⟩
      have nearRead : rbChild side head brother.cell = some (some nephew.cell) := by
        rw [read_near atBrother, pointer_join]
        rfl
      rcases paint_spec (at_near.mp atBrother) .black with ⟨one, run1, keeps1, at1⟩
      rcases paint_spec (at_near.mpr at1) .red with ⟨two, run2, keeps2, at2⟩
      rcases rotate_flip_spec at2 with ⟨next, run3, keeps3, at3⟩
      have atParent := at_far.mpr at3
      have tmpAgain : rbChild side.flip next parent.cell = some (some nephew.cell) := by
        have seen := read_far atParent
        rwa [pointer_join] at seen
      refine ⟨next, nephew.paint .black, outer, join side inner (brother.paint .red) far, .black,
        ?_,
        keeps_trans keeps1 (keeps_trans keeps2 keeps3), at_near.mp atParent, outerDone,
        join_red rfl innerDone farDone, ?_⟩
      · simp only [paint_cell] at run3
        simp [redNephew, farRead, farRed, nearRead, blacken, run1, run2, run3, tmpAgain]
      · rw [← contents_rotate]
        exact contents_join_congr (contents_join_congr rfl rfl rfl rfl) rfl rfl rfl

theorem remove_turn_spec {parent brother : Item Data} {one other : Color} {color : Option Color}
    (at' : At head (⟨side, parent, join side near brother far⟩ :: rest) tree)
    (balanced : Balanced Item.color tree .black height)
    (nearDone : Balanced Item.color near one height)
    (farDone : Balanced Item.color far other height) (red : one = .red ∨ other = .red)
    (hole : Hole Item.color (⟨side, parent, join side near brother far⟩ :: rest) color
      (height + 1)) :
    ∃ next whole total, removeTurn side head parent.cell brother.cell = some next ∧
      Keeps head next ∧ At next [] whole ∧
      Balanced Item.color whole .black total ∧
        contents whole = contents (plug (⟨side, parent, join side near brother far⟩ ::
          rest) tree) := by
  rcases red_nephew_spec at' nearDone farDone red with
    ⟨first, upper, nearer, farther, shade, run0, keeps0, at0, nearerDone, fartherDone, same⟩
  rcases exists_node_red fartherDone .left with ⟨left, nephew, right, rfl⟩
  rcases of_join_red fartherDone with ⟨-, leftDone, rightDone⟩
  have atParent := at_near.mpr at0
  have colorRead := read_color atParent
  rcases paint_spec (at_far.mp atParent) parent.color with ⟨two, run1, keeps1, at1⟩
  rcases paint_spec (at_far.mpr at1) .black with ⟨three, run2, keeps2, at2⟩
  have farRead : rbChild side.flip three upper.cell = some (some nephew.cell) := by
    have seen := read_far (at_far.mp at2)
    rwa [pointer_join] at seen
  rcases paint_spec (at_far.mp (at_far.mp at2)) .black with ⟨four, run3, keeps3, at3⟩
  rcases rotate_spec (at_far.mpr (at_far.mpr at3)) with ⟨next, run4, keeps4, at4⟩
  simp only [paint_cell] at run4
  have mended : Balanced Item.color (join side tree (parent.paint .black) nearer) .black
      (height + 1) :=
    join_black rfl balanced nearerDone
  have taller : Balanced Item.color (join .left left (nephew.paint .black) right) .black
      (height + 1) :=
    join_black rfl leftDone rightDone
  have run : removeTurn side head parent.cell brother.cell = some next := by
    simp [removeTurn, run0, colorRead, run1, run2, farRead, blacken, run3, run4]
  have order : contents (plug rest (join side (join side tree (parent.paint .black) nearer)
      (upper.paint parent.color)
      (join .left left (nephew.paint .black) right))) =
        contents (plug (⟨side, parent, join side near brother far⟩ :: rest) tree) := by
    rw [plug_join]
    apply contents_plug_congr
    rw [contents_rotate]
    refine contents_join_congr rfl rfl rfl (Eq.trans ?_ same)
    exact contents_join_congr rfl rfl rfl (contents_join_congr rfl rfl rfl rfl)
  have keeps := keeps_trans keeps0 (keeps_trans keeps1
    (keeps_trans keeps2 (keeps_trans keeps3 keeps4)))
  cases hole with
  | red paint beside outer =>
      simp only at paint
      have mendedAbove : Balanced Item.color (join side _ (upper.paint parent.color) _) .red _ :=
        join_red paint mended taller
      rcases plug_balanced mendedAbove outer fun _ => rfl with ⟨total, done⟩
      exact ⟨next, _, total, run, keeps, at_whole.mp at4, done, order⟩
  | black paint beside outer =>
      simp only at paint
      have mendedAbove : Balanced Item.color (join side _ (upper.paint parent.color) _) .black _ :=
        join_black paint mended taller
      rcases plug_balanced mendedAbove outer (fun contra => by cases contra) with ⟨total, done⟩
      exact ⟨next, _, total, run, keeps, at_whole.mp at4, done, order⟩

theorem pointer_ne_root (at' : At head (frame :: frames) tree) :
    pointer layout tree ≠ head.rbhRoot := by
  have outermost : ∀ (frames : List (Frame (Item Data))) (frame : Frame (Item Data))
      (tree : BinaryTree (Item Data)),
      ∃ cell ∈ frameCells layout (frame :: frames), pointer layout (plug (frame :: frames) tree) =
      some cell := by
    intro frames
    induction frames with
    | nil =>
        intro frame tree
        exact ⟨frame.item.cell, List.mem_cons_self, by simp [plug, Frame.fill]⟩
    | cons next frames inductionHypothesis =>
        intro frame tree
        rcases inductionHypothesis next (frame.fill tree) with ⟨cell, member, same⟩
        exact ⟨cell, List.mem_cons_of_mem _ (List.mem_append_right _ member), same⟩
  rcases outermost frames frame tree with ⟨cell, member, same⟩
  rw [at'.root, same]
  exact fun here => at'.place.apart cell (pointer_mem here) member

/-- The place is one black node short; in the end the whole tree is balanced. -/
theorem remove_color_loop (fuel : Nat) : ∀ {head : RbHead Data} {frames : List (Frame (Item Data))}
    {tree : BinaryTree (Item Data)} {color : Option Color} {height : Nat}, At head frames tree →
    Balanced Item.color tree .black height → Hole Item.color frames color (height + 1) →
    frames.length < fuel →
    ∃ left next whole total, removeColorLoop fuel head (parent layout frames)
      (pointer layout tree) = some left ∧
      blacken left.1 left.2 = some next ∧ Keeps head next ∧ At next [] whole ∧
        Balanced Item.color whole .black total ∧ contents whole = contents (plug frames tree) := by
  induction fuel with
  | zero => exact fun _ _ _ enough => absurd enough (Nat.not_lt_zero _)
  | succ fuel inductionHypothesis =>
      intro head frames tree color height at' balanced hole enough
      have treeRead := read_red at' balanced
      cases frames with
      | nil =>
          have root : pointer layout tree = head.rbhRoot := at'.root.symm
          rcases blacken_spec at' balanced with ⟨next, whole, higher, run, keeps, seen,
            done, order, -⟩
          refine ⟨(head, pointer layout tree), next, whole, higher, ?_, run, keeps, seen,
            done, order⟩
          rw [root] at treeRead
          simp [removeColorLoop, treeRead, root]
      | cons frame rest =>
          rcases frame with ⟨side, above, sibling⟩
          have apartRoot := pointer_ne_root at'
          have beside : ∃ shade, Balanced Item.color sibling shade (height + 1) := by
            cases hole with
            | red paint beside outer => exact ⟨_, beside⟩
            | black paint beside outer => exact ⟨_, beside⟩
          rcases beside with ⟨shade, other⟩
          have apart : pointer layout sibling ≠ pointer layout tree := by
            rcases exists_node other .left with ⟨near, item, far, shape⟩
            intro same
            rw [shape, pointer_join] at same
            exact sibling_ne at' same.symm (by rw [shape, pointer_join, same])
          rcases read_side at' apart with ⟨left, leftRead, sideRead⟩
          rcases black_sibling_spec at' other hole with
            ⟨one, brother, near, far, below, upper, run1, keeps1, at1, sameCell, brotherDone, hole1,
              shorter, order1⟩
          rcases of_join_black brotherDone with ⟨-, nearShade, farShade, lower, levels,
            nearDone, farDone⟩
          cases levels
          have atBrother := at_far.mp (at_near.mpr at1)
          rcases read_children atBrother nearDone farDone with
            ⟨leftOf, rightOf, leftRed, rightRed, leftOfRead, leftRedRead, rightOfRead,
              rightRedRead, eitherRed⟩
          by_cases quiet : nearShade = .black ∧ farShade = .black
          · rcases quiet with ⟨rfl, rfl⟩
            have neither : (leftRed || rightRed) = false := eitherRed
            have bothBlack : leftRed = false ∧ rightRed = false := by simpa using neither
            rcases paint_spec atBrother .red with ⟨two, run2, keeps2, at2⟩
            have atParent := at_far.mpr at2
            have parentRead : rbParent two above.cell = some (parent layout upper) := by
              rw [← sameCell]
              exact read_parent atParent
            have round : removeColorLoop (fuel + 1) head (some above.cell) (pointer layout tree) =
                removeColorLoop fuel two (parent layout upper) (some above.cell) := by
              simp [removeColorLoop, treeRead, apartRoot, leftRead, sideRead, run1, leftOfRead,
                leftRedRead, rightOfRead,
                rightRedRead, bothBlack, run2, parentRead]
            have lighter : Balanced Item.color (join side near (brother.paint .red) far)
                .red height :=
              join_red rfl nearDone farDone
            have sameOrder :
                contents (plug upper (join side tree below
                  (join side near (brother.paint .red) far))) =
                contents (plug (⟨side, above, sibling⟩ :: rest) tree) := by
              rw [← order1, plug_join]
              exact contents_plug_congr _ (contents_join_congr rfl rfl rfl
                (contents_join_congr rfl rfl rfl rfl))
            cases shade1 : below.color with
            | red =>
                rw [shade1] at hole1
                cases hole1 with
                | red paint beside outer =>
                rcases paint_spec atParent .black with ⟨next, run3, keeps3, at3⟩
                have mended : Balanced Item.color (join side _ (below.paint .black) _) .black _ :=
                  join_black rfl balanced lighter
                rcases plug_balanced mended outer (fun contra => by cases contra) with ⟨total, done⟩
                have stop : removeColorLoop fuel two (parent layout upper) (some above.cell) =
                    some (two, some above.cell) := by
                  have colorRead : rbColor two above.cell = some .red := by
                    rw [← sameCell, read_color atParent, shade1]
                  cases fuel with
                  | zero => exact absurd enough (by simp)
                  | succ fuel => simp [removeColorLoop, isRed, colorRead]
                refine ⟨(two, some above.cell), next, _, total, round.trans stop, ?_,
                  keeps_trans keeps1 (keeps_trans keeps2 keeps3), at_whole.mp at3, done, ?_⟩
                · rw [← sameCell]
                  exact run3
                · rw [← sameOrder]
                  exact contents_plug_congr _ (contents_join_congr rfl rfl rfl rfl)
            | black =>
                rw [shade1] at hole1
                have sameUpper : upper = rest := by simpa [shade1] using shorter
                subst sameUpper
                cases hole1 with
                | black paint beside outer =>
                have mended : Balanced Item.color (join side _ below _) .black _ :=
                  join_black shade1 balanced lighter
                have room : upper.length < fuel := by simpa using enough
                rcases inductionHypothesis atParent mended outer room with
                  ⟨left, next, whole, total, run3, run4, keeps3, at3, done, order3⟩
                refine ⟨left, next, whole, total, round.trans ?_, run4,
                  keeps_trans keeps1 (keeps_trans keeps2 keeps3), at3,
                  done, order3.trans sameOrder⟩
                rw [← sameCell]
                simpa using run3
          · have someShade : nearShade = .red ∨ farShade = .red := by
              cases nearShade with
              | red => exact .inl rfl
              | black =>
                  cases farShade with
                  | red => exact .inr rfl
                  | black => exact absurd ⟨rfl, rfl⟩ quiet
            rcases remove_turn_spec at1 balanced nearDone farDone someShade hole1 with
              ⟨two, whole, total, run2, keeps2, at2, done, order2⟩
            have someRed : (leftRed || rightRed) = true := by
              rw [eitherRed]
              simpa using someShade
            rcases blacken_spec at2 done with ⟨next, black, higher, run3, keeps3, at3,
              blackDone, order3, -⟩
            refine ⟨(two, two.rbhRoot), next, black, higher, ?_, ?_,
              keeps_trans keeps1 (keeps_trans keeps2 keeps3), at3,
              blackDone, order3.trans (order2.trans order1)⟩
            · rw [sameCell] at run2
              show removeColorLoop (fuel + 1) head (some above.cell) (pointer layout tree) =
                some (two, two.rbhRoot)
              cases leftRed with
              | true =>
                  simp [removeColorLoop, treeRead, apartRoot, leftRead, sideRead, run1, leftOfRead,
                    leftRedRead,
                    rightOfRead, rightRedRead, run2]
              | false =>
                  have rightIsRed : rightRed = true := someRed
                  simp [removeColorLoop, treeRead, apartRoot, leftRead, sideRead, run1, leftOfRead,
                    leftRedRead,
                    rightOfRead, rightRedRead, rightIsRed, run2]
            · rw [at2.root]
              exact run3

end TWlib.RbTree
