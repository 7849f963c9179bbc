import TWlib.KTreePut

/-!
# Two neighbours in a B-tree

On the way down of `kb_delp` two neighbouring nodes become one, or one gets a key from the other
over the node above. In all three cases the subtrees below the two stay in the same order.
-/

namespace TWlib.KTree

open TWlib.Lib.CellStore
open TWlib.Lib.CellRegion
open TWlib.Lib.SeparatedRow

set_option autoImplicit false

variable {Key : Type} {sep middle : Key} {layout : Layout} {height bytes other : Nat}
  {row one two : NodeRow Key} {piece item left right last first : Piece Key} {b next : KbTree Key}
  {lefts : List (Piece Key × Key)} {rights : List (Key × Piece Key)}

/-! ## What is written -/

theorem merged_node : mergedNode (nodeOf height bytes one) middle (nodeOf height other two) =
    nodeOf height bytes (one.join middle two) := by
  simp only [mergedNode, nodeOf, seps_join, items_join, decide_eq_true_eq, List.map_append]
  split_ifs <;> rfl

theorem with_first : withFirst sep (nodeOf height bytes (row.join middle ⟨last, []⟩))
    (nodeOf height other two) =
    some (nodeOf height other (Row.join ⟨last, []⟩ sep two)) := by
  simp only [withFirst, nodeOf, seps_join, items_join, decide_eq_true_eq]
  split_ifs <;> simp

theorem without_last : withoutLast (nodeOf height bytes (row.join middle ⟨last, []⟩)) =
    nodeOf height bytes row := by
  simp only [withoutLast, nodeOf, seps_join, items_join]
  split_ifs <;> simp

theorem with_last : withLast sep (nodeOf height bytes (Row.join ⟨first, []⟩ middle row))
    (nodeOf height other one) =
    some (nodeOf height other (one.join sep ⟨first, []⟩)) := by
  simp only [withLast, nodeOf, seps_join, items_join, decide_eq_true_eq]
  split_ifs <;> simp

theorem without_first : withoutFirst (nodeOf height bytes (Row.join ⟨first, []⟩ middle row)) =
    nodeOf height bytes row := by
  simp only [withoutFirst, nodeOf, seps_join, items_join]
  split_ifs <;> simp

theorem last_key : (nodeOf height bytes (row.join middle ⟨last, []⟩)).keys.getLast? =
    some middle := by
  simp [nodeOf, seps_join]

theorem first_key : (nodeOf height bytes (Row.join ⟨first, []⟩ middle row)).keys.head? =
    some middle := by
  simp [nodeOf, seps_join]

theorem remove_keys : removeAt lefts.length (splice ⟨left, [(sep, right)]⟩ rights lefts).seps =
    some (splice ⟨item, []⟩ rights lefts).seps := by
  simp only [seps_splice, seps_single, seps_pair, List.append_nil, List.append_assoc,
    List.singleton_append]
  exact remove_at (by simp)

theorem remove_ptrs (same : item.cell = left.cell) :
    removeAt (lefts.length + 1) ((splice ⟨left, [(sep, right)]⟩ rights lefts).items.map fun item =>
      some item.cell) =
      some ((splice ⟨item, []⟩ rights lefts).items.map fun item => some item.cell) := by
  simp only [items_splice, items_single, items_pair, List.map_append, List.map_cons, same,
    List.append_assoc,
    List.cons_append, List.nil_append]
  exact remove_next (by simp)

theorem replace_key (sep middle : Key) (lefts : List (Piece Key × Key))
    (rights : List (Key × Piece Key)) (same : first.cell = left.cell)
    (same' : last.cell = right.cell) :
    replaceAt lefts.length middle (splice ⟨left, [(sep, right)]⟩ rights lefts).seps =
        some (splice ⟨first, [(middle, last)]⟩ rights lefts).seps ∧
      (splice ⟨left, [(sep, right)]⟩ rights lefts).items.map (fun item => some item.cell) =
        (splice ⟨first, [(middle, last)]⟩ rights lefts).items.map fun item => some item.cell := by
  constructor
  · simp only [seps_splice, seps_pair, List.append_assoc, List.singleton_append]
    exact replace_at (by simp)
  · simp [items_splice, same, same']

/-! ## Both nodes and the one above -/

theorem pair_cells {first last : Piece Key} :
    (⟨first, [(sep, last)]⟩ : NodeRow Key).items.flatMap Piece.cells = first.cells ++
    last.cells := by
  simp

theorem pair_order (above cell other : Nat) (front back : List Nat) :
    (above :: ((cell :: front) ++ other :: back)).Perm
    (above :: cell :: other :: (front ++ back)) :=
  List.Perm.cons above (List.Perm.cons cell List.perm_middle)

theorem pair_distinct (shows' : Shows layout b.nodes (height + 1) piece
    (splice ⟨left, [(sep, right)]⟩ rights lefts))
    (nodup : piece.cells.Nodup) (shownLeft : Shows layout b.nodes height left one)
    (shownRight : Shows layout b.nodes height right two) :
    (piece.cell :: left.cell :: right.cell ::
      (one.items.flatMap Piece.cells ++ two.items.flatMap Piece.cells)).Nodup := by
  have distinct := mid_nodup shows' nodup
  rw [pair_cells, shows_cells shownLeft, shows_cells shownRight] at distinct
  exact (pair_order _ _ _ _ _).nodup distinct

theorem pair_stays {nodes : Store (KbNode Key)}
    (distinct : (piece.cell :: left.cell :: right.cell ::
      (one.items.flatMap Piece.cells ++ two.items.flatMap Piece.cells)).Nodup)
    (shownLeft : Shows layout b.nodes height left one)
    (shownRight : Shows layout b.nodes height right two) (rest : ∀ cell, cell ≠ piece.cell →
      cell ≠ left.cell → cell ≠ right.cell → nodes.read cell = b.nodes.read cell) :
    ∀ item ∈ one.items ++ two.items, Built layout nodes height item ∧
    Filled layout height item := by
  have untouched : ∀ cell ∈ one.items.flatMap Piece.cells ++ two.items.flatMap Piece.cells,
      nodes.read cell = b.nodes.read cell := by
    intro cell member
    simp only [List.nodup_cons, List.mem_cons, not_or] at distinct
    refine rest cell ?_ ?_ ?_
    · rintro rfl
      exact distinct.1.2.2 member
    · rintro rfl
      exact distinct.2.1.2 member
    · rintro rfl
      exact distinct.2.2.1 member
  intro item member
  rcases List.mem_append.mp member with front | back
  · exact items_stay shownLeft (fun cell inside =>
      untouched cell (List.mem_append_left _ inside)) item front
  · exact items_stay shownRight (fun cell inside =>
      untouched cell (List.mem_append_right _ inside)) item back

theorem shows_pair {before behind : NodeRow Key}
    (shows' : Shows b.layout b.nodes (height + 1) piece
      (splice ⟨left, [(sep, right)]⟩ rights lefts))
    (nodup : piece.cells.Nodup) (shownLeft : Shows b.layout b.nodes height left one)
    (shownRight : Shows b.layout b.nodes height right two)
    (items : before.items ++ behind.items = one.items ++ two.items)
    (fillLeft : b.layout.t - 1 ≤ before.rest.length ∧ before.rest.length ≤ 2 * b.layout.t - 1)
    (fillRight : b.layout.t - 1 ≤ behind.rest.length ∧ behind.rest.length ≤ 2 * b.layout.t - 1)
    (isFirst : first = pieceOf b.layout height left.cell left.bytes before)
    (isLast : last = pieceOf b.layout height right.cell right.bytes behind)
    {nodes : Store (KbNode Key)} (grows : b.nodes.fresh ≤ nodes.fresh)
      (storedAbove : nodes.read piece.cell =
      some (nodeOf (height + 1) piece.bytes (splice ⟨first, [(middle, last)]⟩ rights lefts)))
    (storedLeft : nodes.read left.cell = some (nodeOf height left.bytes before))
    (storedRight : nodes.read right.cell = some (nodeOf height right.bytes behind))
    (rest : ∀ cell, cell ≠ piece.cell → cell ≠ left.cell → cell ≠ right.cell →
      nodes.read cell = b.nodes.read cell) :
    ∃ after, after = pieceOf b.layout (height + 1) piece.cell piece.bytes
      (splice ⟨first, [(middle, last)]⟩ rights lefts) ∧
      Shows b.layout nodes (height + 1) after (splice ⟨first, [(middle, last)]⟩ rights lefts) ∧
        Keeps b (b.setNodes nodes) piece.cells after.cells ∧
        after.cells.length = piece.cells.length := by
  have distinct := pair_distinct shows' nodup shownLeft shownRight
  have below := pair_stays distinct shownLeft shownRight rest
  rw [← items] at below
  have same : one.items.flatMap Piece.cells ++ two.items.flatMap Piece.cells =
      before.items.flatMap Piece.cells ++ behind.items.flatMap Piece.cells := by
    rw [← List.flatMap_append, ← items, List.flatMap_append]
  have oldOrder := pair_order piece.cell left.cell right.cell (one.items.flatMap Piece.cells)
    (two.items.flatMap Piece.cells)
  have newOrder := pair_order piece.cell left.cell right.cell (before.items.flatMap Piece.cells)
    (behind.items.flatMap Piece.cells)
  rw [← same] at newOrder
  have cellsFirst : first.cells = left.cell :: before.items.flatMap Piece.cells :=
    congrArg Piece.cells isFirst
  have cellsLast : last.cells = right.cell :: behind.items.flatMap Piece.cells :=
    congrArg Piece.cells isLast
  have rebuilt : Rebuilt b.nodes nodes _ _ := rebuilt_same grows (fun cell outside => by
    simp only [List.mem_cons, not_or] at outside
    exact rest cell outside.1 outside.2.1 outside.2.2.1) distinct
  have keeps : Keeps b (b.setNodes nodes) (piece.cell ::
      (⟨left, [(sep, right)]⟩ : NodeRow Key).items.flatMap Piece.cells)
      (piece.cell :: (⟨first, [(middle, last)]⟩ : NodeRow Key).items.flatMap Piece.cells) := by
    rw [pair_cells, pair_cells, shows_cells shownLeft, shows_cells shownRight,
      cellsFirst, cellsLast]
    exact ⟨rfl, rfl, rfl, rebuilt_perm rebuilt oldOrder.symm newOrder.symm⟩
  have filled : ∀ item ∈ (⟨first, [(middle, last)]⟩ : NodeRow Key).items,
      Built b.layout nodes (height + 1) item ∧ Filled b.layout (height + 1) item := by
    intro item member
    rcases List.mem_cons.mp member with here | there
    · rw [here, show (⟨first, [(middle, last)]⟩ : NodeRow Key).first = first from rfl, isFirst]
      exact ⟨built_pieceOf storedLeft fillLeft.2 shownLeft.block fun item inside =>
        below item (List.mem_append_left _ inside), .inr fillLeft.1⟩
    · rw [List.mem_singleton.mp there, isLast]
      exact ⟨built_pieceOf storedRight fillRight.2 shownRight.block fun item inside =>
        below item (List.mem_append_right _ inside), .inr fillRight.1⟩
  have bound := shows'.bound
  rw [length_splice] at bound
  rcases shows_splice shows' nodup keeps storedAbove bound filled with
    ⟨after, isAfter, shown, keepsAfter⟩
  refine ⟨after, isAfter, shown, keepsAfter, ?_⟩
  have around := length_cells_splice shows' shown
  have lengths := congrArg List.length same
  rw [pair_cells, pair_cells, shows_cells shownLeft, shows_cells shownRight, cellsFirst,
    cellsLast] at around
  simp only [List.length_append, List.length_cons] at around lengths
  omega

/-! ## A key from a neighbour -/

/-- `__KB_KEY(key_t, x)[i] = …;` between two neighbours. -/
theorem set_key_spec (b : KbTree Key) (middle : Key) (formed : Formed b.layout) {x : Nat}
    (same : first.cell = left.cell) (same' : last.cell = right.cell)
    (stored : b.nodes.read x = some (nodeOf (height + 1) bytes
      (splice ⟨left, [(sep, right)]⟩ rights lefts))) (bound : lefts.length + 1 + rights.length ≤
        2 * b.layout.t - 1) (block : bytes = b.layout.ilen) :
    setKey b x lefts.length middle = some (b.setNodes (b.nodes.write x
      (nodeOf (height + 1) bytes (splice ⟨first, [(middle, last)]⟩ rights lefts)))) := by
  rcases replace_key sep middle lefts rights same same' with ⟨keys, ptrs⟩
  have keysRead : replaceAt (lefts.length : Int).toNat middle
      (nodeOf (height + 1) bytes (splice ⟨left, [(sep, right)]⟩ rights lefts)).keys = _ := keys
  have write := write_row_spec b (height + 1) bytes (splice ⟨first, [(middle, last)]⟩ rights lefts)
    formed stored
    (by rw [length_splice]; exact bound) (fun _ => block)
  simp only [setKey, readNode, stored, keysRead, Option.bind_eq_bind, Option.bind_some,
    nodeOf_keys ptrs]
  exact write

/-- Two neighbours and the node above, as they are stored. -/
structure Pair (b : KbTree Key) (height bytes x : Nat) (lefts : List (Piece Key × Key))
    (left : Piece Key) (one : NodeRow Key) (sep : Key) (right : Piece Key) (two : NodeRow Key)
    (rights : List (Key × Piece Key)) : Prop where
  formed : Formed b.layout
  above : b.nodes.read x = some (nodeOf (height + 1) bytes
    (splice ⟨left, [(sep, right)]⟩ rights lefts))
  block : bytes = b.layout.ilen
  bound : lefts.length + 1 + rights.length ≤ 2 * b.layout.t - 1
  front : Shows b.layout b.nodes height left one
  back : Shows b.layout b.nodes height right two
  apart : x ≠ left.cell ∧ x ≠ right.cell ∧ left.cell ≠ right.cell

theorem pair_of_shows (formed : Formed b.layout)
    (shows' : Shows b.layout b.nodes (height + 1) piece
      (splice ⟨left, [(sep, right)]⟩ rights lefts))
    (nodup : piece.cells.Nodup) :
    ∃ one two, Pair b height piece.bytes piece.cell lefts left one sep right two rights := by
  have there := shows'.below left (mem_items_splice.mpr (.inr (.inl first_mem)))
  have beside := shows'.below right (mem_items_splice.mpr (.inr (.inl (by simp))))
  rcases built_succ.mp there.1 with ⟨one, shownLeft⟩
  rcases built_succ.mp beside.1 with ⟨two, shownRight⟩
  have distinct := pair_distinct shows' nodup shownLeft shownRight
  simp only [List.nodup_cons, List.mem_cons, not_or] at distinct
  have bound := shows'.bound
  rw [length_splice] at bound
  exact ⟨one, two, formed, shows'.stored, shows'.block (Nat.succ_pos _), bound, shownLeft,
    shownRight, distinct.1.1,
    distinct.1.2.1, distinct.2.1.1⟩

variable {x : Nat}

theorem borrow_before_run {moved : Piece Key}
    (pair : Pair b height bytes x lefts left (one.join middle ⟨moved, []⟩) sep right two rights)
    (same : first.cell = left.cell) (same' : last.cell = right.cell)
    (room : two.rest.length < 2 * b.layout.t - 1) :
    borrowBefore b x (lefts.length + 1) = some (b.setNodes
      (((b.nodes.write right.cell (nodeOf height right.bytes (Row.join ⟨moved, []⟩ sep two))).write
        x
        (nodeOf (height + 1) bytes (splice ⟨first, [(middle, last)]⟩ rights lefts))).write left.cell
          (nodeOf height left.bytes one))) := by
  have readX : readNode b x = _ := pair.above
  have readLeft : readNode b left.cell = _ := pair.front.stored
  have readRight : readNode b right.cell = _ := pair.back.stored
  have frontBound := pair.front.bound
  rw [show (one.join middle ⟨moved, []⟩).rest.length = one.rest.length +
    1 by simp [Row.join]] at frontBound
  have write1 := write_row_spec b height right.bytes (Row.join ⟨moved, []⟩ sep two) pair.formed
    pair.back.stored
    (by simp [Row.join]; omega) pair.back.block
  have stored1 : (b.nodes.write right.cell (nodeOf height right.bytes
      (Row.join ⟨moved, []⟩ sep two))).read x =
      some (nodeOf (height + 1) bytes (splice ⟨left, [(sep, right)]⟩ rights lefts)) := by
    rw [read_write pair.back.stored, if_neg pair.apart.2.1]
    exact pair.above
  have write2 := set_key_spec (b.setNodes
    (b.nodes.write right.cell (nodeOf height right.bytes (Row.join ⟨moved, []⟩ sep two))))
      middle pair.formed
      same same' stored1 pair.bound pair.block
  have stored2 : ((b.nodes.write right.cell (nodeOf height right.bytes
      (Row.join ⟨moved, []⟩ sep two))).write x
      (nodeOf (height + 1) bytes (splice ⟨first, [(middle, last)]⟩ rights lefts))).read left.cell =
        some (nodeOf height left.bytes (one.join middle ⟨moved, []⟩)) := by
    rw [read_write stored1, if_neg (Ne.symm pair.apart.1), read_write pair.back.stored,
      if_neg pair.apart.2.2]
    exact pair.front.stored
  have write3 := write_row_spec (b.setNodes ((b.nodes.write right.cell
    (nodeOf height right.bytes (Row.join ⟨moved, []⟩ sep two))).write x
      (nodeOf (height + 1) bytes (splice ⟨first, [(middle, last)]⟩ rights lefts)))) height
      left.bytes one pair.formed stored2
    (by simp only [setNodes_layout]; omega) pair.front.block
  simp only [borrowBefore, readX, readLeft, readRight, child_left (Nat.succ_pos height),
    child_right (Nat.succ_pos height),
    Int.add_sub_cancel, Int.toNat_natCast, node_sep_at, with_first, last_key, without_last, write1,
    Option.bind_eq_bind,
    Option.bind_some]
  rw [setNodes_nodes] at write2
  simp only [write2, Option.bind_some]
  exact write3

theorem borrow_before_spec (formed : Formed b.layout)
    (shows' : Shows b.layout b.nodes (height + 1) piece
      (splice ⟨left, [(sep, right)]⟩ rights lefts))
    (nodup : piece.cells.Nodup) (enough : b.layout.t ≤ left.fill)
    (few : right.fill = b.layout.t - 1) :
    ∃ next middle first last after, borrowBefore b piece.cell (lefts.length + 1) = some next ∧
      after = pieceOf b.layout (height + 1) piece.cell piece.bytes
      (splice ⟨first, [(middle, last)]⟩ rights lefts) ∧
      Shows b.layout next.nodes (height + 1) after (splice ⟨first, [(middle, last)]⟩ rights lefts) ∧
      Keeps b next piece.cells after.cells ∧ after.cells.length = piece.cells.length ∧
      next.nNodes = b.nNodes ∧
      last.fill = b.layout.t ∧ last.cell = right.cell ∧ first.roomy = left.roomy ∧
      ∃ between, left.keys = first.keys ++ middle :: between ∧
      last.keys = between ++ sep :: right.keys := by
  rcases pair_of_shows formed shows' nodup with ⟨one, two, pair⟩
  have degree := formed.degree
  have countOne := shows_fill pair.front
  have countTwo := shows_fill pair.back
  have boundOne := pair.front.bound
  have cut : ∃ before middle tail, one = Row.join before middle tail ∧
      before.rest.length = one.rest.length - 1 :=
    exists_join (by omega)
  rcases cut with ⟨before, middle, ⟨moved, others⟩, rfl, size⟩
  have lengths : (before.join middle ⟨moved, others⟩).rest.length = before.rest.length +
      (others.length + 1) := by
    simp [Row.join]
  have none' : others = [] := List.length_eq_zero_iff.mp (by omega)
  subst none'
  rw [List.length_nil] at lengths
  let behind : NodeRow Key := Row.join ⟨moved, []⟩ sep two
  have behindCount : behind.rest.length = two.rest.length + 1 := by simp [behind, Row.join]
  let first := pieceOf b.layout height left.cell left.bytes before
  let last := pieceOf b.layout height right.cell right.bytes behind
  have run := borrow_before_run pair (show first.cell = left.cell from rfl)
    (show last.cell = right.cell from rfl) (by omega)
  have reads := read_three (nodeOf height right.bytes behind)
    (nodeOf (height + 1) piece.bytes (splice ⟨first, [(middle, last)]⟩ rights lefts))
    (nodeOf height left.bytes before)
    pair.back.stored pair.above pair.front.stored
  have items : before.items ++ behind.items = (before.join middle ⟨moved, []⟩).items ++
      two.items := by
    simp [behind, items_join]
  rcases shows_pair shows' nodup pair.front pair.back items ⟨by omega, by omega⟩
    ⟨by omega, by omega⟩
    (show first = _ from rfl) (show last = _ from rfl) (by simp)
    ((reads _).trans (by rw [if_neg pair.apart.1, if_pos rfl]))
    ((reads _).trans (if_pos rfl))
    ((reads _).trans (by rw [if_neg (Ne.symm pair.apart.2.2), if_neg (Ne.symm pair.apart.2.1),
      if_pos rfl]))
    (fun cell notAbove notLeft notRight =>
      (reads cell).trans (by rw [if_neg notLeft, if_neg notAbove, if_neg notRight])) with
    ⟨after, isAfter, shown, keeps, size'⟩
  refine ⟨_, middle, first, last, after, run, isAfter, shown, keeps, size', rfl, ?_, rfl, ?_, ?_⟩
  · show behind.rest.length = _
    omega
  · have was := congrArg Piece.roomy pair.front.shape
    rw [was]
    rfl
  · refine ⟨moved.keys, ?_, ?_⟩
    · rw [shows_keys pair.front, weave_join, weave_single]
      rfl
    · rw [shows_keys pair.back]
      show behind.weave Piece.keys = _
      rw [weave_join, weave_single]

theorem borrow_behind_run {moved : Piece Key}
    (pair : Pair b height bytes x lefts left one sep right (Row.join ⟨moved, []⟩ middle two) rights)
    (same : first.cell = left.cell) (same' : last.cell = right.cell)
    (room : one.rest.length < 2 * b.layout.t - 1) :
    borrowBehind b x lefts.length = some (b.setNodes
      (((b.nodes.write left.cell (nodeOf height left.bytes (one.join sep ⟨moved, []⟩))).write x
        (nodeOf (height + 1) bytes (splice ⟨first, [(middle, last)]⟩ rights lefts))).write
          right.cell
          (nodeOf height right.bytes two))) := by
  have readX : readNode b x = _ := pair.above
  have readLeft : readNode b left.cell = _ := pair.front.stored
  have readRight : readNode b right.cell = _ := pair.back.stored
  have backBound := pair.back.bound
  rw [show (Row.join ⟨moved, []⟩ middle two).rest.length = two.rest.length +
    1 by simp [Row.join]] at backBound
  have write1 := write_row_spec b height left.bytes (one.join sep ⟨moved, []⟩) pair.formed
    pair.front.stored
    (by simp [Row.join]; omega) pair.front.block
  have stored1 : (b.nodes.write left.cell (nodeOf height left.bytes
      (one.join sep ⟨moved, []⟩))).read x =
      some (nodeOf (height + 1) bytes (splice ⟨left, [(sep, right)]⟩ rights lefts)) := by
    rw [read_write pair.front.stored, if_neg pair.apart.1]
    exact pair.above
  have write2 := set_key_spec (b.setNodes
    (b.nodes.write left.cell (nodeOf height left.bytes (one.join sep ⟨moved, []⟩))))
      middle pair.formed
      same same' stored1 pair.bound pair.block
  have stored2 : ((b.nodes.write left.cell (nodeOf height left.bytes
      (one.join sep ⟨moved, []⟩))).write x
      (nodeOf (height + 1) bytes (splice ⟨first, [(middle, last)]⟩ rights lefts))).read right.cell =
        some (nodeOf height right.bytes (Row.join ⟨moved, []⟩ middle two)) := by
    rw [read_write stored1, if_neg (Ne.symm pair.apart.2.1), read_write pair.front.stored,
      if_neg (Ne.symm pair.apart.2.2)]
    exact pair.back.stored
  have write3 := write_row_spec (b.setNodes ((b.nodes.write left.cell
    (nodeOf height left.bytes (one.join sep ⟨moved, []⟩))).write x
      (nodeOf (height + 1) bytes (splice ⟨first, [(middle, last)]⟩ rights lefts)))) height
      right.bytes two pair.formed
    stored2 (by simp only [setNodes_layout]; omega) pair.back.block
  simp only [borrowBehind, readX, readLeft, readRight, child_left (Nat.succ_pos height),
    child_right (Nat.succ_pos height),
    Int.toNat_natCast, node_sep_at, with_last, first_key, without_first, write1,
    Option.bind_eq_bind, Option.bind_some]
  rw [setNodes_nodes] at write2
  simp only [write2, Option.bind_some]
  exact write3

theorem borrow_behind_spec (formed : Formed b.layout)
    (shows' : Shows b.layout b.nodes (height + 1) piece
      (splice ⟨left, [(sep, right)]⟩ rights lefts))
    (nodup : piece.cells.Nodup) (few : left.fill = b.layout.t - 1)
    (enough : b.layout.t ≤ right.fill) :
    ∃ next middle first last after, borrowBehind b piece.cell lefts.length = some next ∧
      after = pieceOf b.layout (height + 1) piece.cell piece.bytes
      (splice ⟨first, [(middle, last)]⟩ rights lefts) ∧
      Shows b.layout next.nodes (height + 1) after (splice ⟨first, [(middle, last)]⟩ rights lefts) ∧
      Keeps b next piece.cells after.cells ∧ after.cells.length = piece.cells.length ∧
      next.nNodes = b.nNodes ∧
      first.fill = b.layout.t ∧ first.cell = left.cell ∧ first.roomy = left.roomy ∧
      ∃ between, right.keys = between ++ middle :: last.keys ∧
      first.keys = left.keys ++ sep :: between := by
  rcases pair_of_shows formed shows' nodup with ⟨one, two, pair⟩
  have degree := formed.degree
  have countOne := shows_fill pair.front
  have countTwo := shows_fill pair.back
  have boundTwo := pair.back.bound
  have cut : ∃ head middle behind, two = Row.join head middle behind ∧ head.rest.length = 0 :=
    exists_join (by omega)
  rcases cut with ⟨⟨moved, others⟩, middle, behind, rfl, size⟩
  have none' : others = [] := List.length_eq_zero_iff.mp size
  subst none'
  have lengths : (Row.join ⟨moved, []⟩ middle behind).rest.length = behind.rest.length +
    1 := by simp [Row.join]
  let before : NodeRow Key := one.join sep ⟨moved, []⟩
  have beforeCount : before.rest.length = one.rest.length + 1 := by simp [before, Row.join]
  let first := pieceOf b.layout height left.cell left.bytes before
  let last := pieceOf b.layout height right.cell right.bytes behind
  have run := borrow_behind_run pair (show first.cell = left.cell from rfl)
    (show last.cell = right.cell from rfl) (by omega)
  have reads := read_three (nodeOf height left.bytes before)
    (nodeOf (height + 1) piece.bytes (splice ⟨first, [(middle, last)]⟩ rights lefts))
    (nodeOf height right.bytes behind)
    pair.front.stored pair.above pair.back.stored
  have items : before.items ++ behind.items = one.items ++
      (Row.join ⟨moved, []⟩ middle behind).items := by
    simp [before, items_join]
  rcases shows_pair shows' nodup pair.front pair.back items ⟨by omega, by omega⟩
    ⟨by omega, by omega⟩
    (show first = _ from rfl) (show last = _ from rfl) (by simp)
    ((reads _).trans (by rw [if_neg pair.apart.2.1, if_pos rfl]))
    ((reads _).trans (by rw [if_neg pair.apart.2.2, if_neg (Ne.symm pair.apart.1), if_pos rfl]))
    ((reads _).trans (if_pos rfl))
    (fun cell notAbove notLeft notRight =>
      (reads cell).trans (by rw [if_neg notRight, if_neg notAbove, if_neg notLeft])) with
    ⟨after, isAfter, shown, keeps, size'⟩
  refine ⟨_, middle, first, last, after, run, isAfter, shown, keeps, size', rfl, ?_, rfl, ?_, ?_⟩
  · show before.rest.length = _
    omega
  · have was := congrArg Piece.roomy pair.front.shape
    rw [was]
    rfl
  · refine ⟨moved.keys, ?_, ?_⟩
    · rw [shows_keys pair.back, weave_join, weave_single]
      rfl
    · rw [shows_keys pair.front]
      show before.weave Piece.keys = _
      rw [weave_join, weave_single]

/-! ## One node out of two -/

theorem join_run (middle : Key) (pair : Pair b height bytes x lefts left one sep right two rights)
    (same : item.cell = left.cell)
    (room : one.rest.length + 1 + two.rest.length ≤ 2 * b.layout.t - 1) :
    kbJoin b x lefts.length middle = some (b.setNodes
      (((b.nodes.write left.cell (nodeOf height left.bytes (one.join middle two))).write x
        (nodeOf (height + 1) bytes (splice ⟨item, []⟩ rights lefts))).giveUp right.cell),
        left.cell) := by
  have readX : readNode b x = _ := pair.above
  have readLeft : readNode b left.cell = _ := pair.front.stored
  have readRight : readNode b right.cell = _ := pair.back.stored
  have bound := pair.bound
  have write1 := write_row_spec b height left.bytes (one.join middle two) pair.formed
    pair.front.stored
    (by simp [Row.join]; omega) pair.front.block
  have stored1 : (b.nodes.write left.cell (nodeOf height left.bytes (one.join middle two))).read x =
      some (nodeOf (height + 1) bytes (splice ⟨left, [(sep, right)]⟩ rights lefts)) := by
    rw [read_write pair.front.stored, if_neg pair.apart.1]
    exact pair.above
  have write2 := write_row_spec
    (b.setNodes (b.nodes.write left.cell (nodeOf height left.bytes (one.join middle two))))
    (height + 1) bytes (splice ⟨item, []⟩ rights lefts) pair.formed stored1
    (by rw [length_splice]; simp; omega) (fun _ => pair.block)
  have keys : removeAt (lefts.length : Int).toNat
      (nodeOf (height + 1) bytes (splice ⟨left, [(sep, right)]⟩ rights lefts)).keys =
        some (splice ⟨item, []⟩ rights lefts).seps := remove_keys
  have ptrs : removeAt ((lefts.length : Int).toNat + 1)
      ((splice ⟨left, [(sep, right)]⟩ rights lefts).items.map fun item => some item.cell) = _ :=
      remove_ptrs same
  simp only [kbJoin, readX, readLeft, readRight, child_left (Nat.succ_pos height),
    child_right (Nat.succ_pos height),
    merged_node, write1, Option.bind_eq_bind, Option.bind_some]
  rw [keys, nodeOf_ptrs (Nat.succ_pos _), Option.bind_some, ptrs, Option.bind_some,
    nodeOf_with (Nat.succ_pos _), write2]
  rfl

theorem read_joined {nodes : Store (KbNode Key)} {one two : Nat} {was that : KbNode Key}
    (gone : Nat) (first second : KbNode Key) (presentOne : nodes.read one = some was)
    (presentTwo : nodes.read two = some that) (cell : Nat) :
    (((nodes.write one first).write two second).giveUp gone).read cell =
      if cell = gone then none else if cell = two then some second else
        if cell = one then some first else nodes.read cell := by
  rcases present_write presentOne presentTwo first with ⟨now, present⟩
  rw [read_give_up, read_write present, read_write presentOne]

theorem join_spec (middle : Key) (formed : Formed b.layout)
    (shows' : Shows b.layout b.nodes (height + 1) piece
      (splice ⟨left, [(sep, right)]⟩ rights lefts))
    (nodup : piece.cells.Nodup) (fewLeft : left.fill = b.layout.t - 1)
    (fewRight : right.fill = b.layout.t - 1) :
    ∃ next joined after, kbJoin b piece.cell lefts.length middle = some (next, joined.cell) ∧
      after = pieceOf b.layout (height + 1) piece.cell piece.bytes
      (splice ⟨joined, []⟩ rights lefts) ∧
      Shows b.layout next.nodes (height + 1) after (splice ⟨joined, []⟩ rights lefts) ∧
      Keeps b next piece.cells after.cells ∧ after.cells.length ≤ piece.cells.length ∧
      next.nNodes = b.nNodes ∧
      b.layout.t ≤ joined.fill ∧ joined.roomy = left.roomy ∧
      joined.keys = left.keys ++ middle :: right.keys := by
  rcases pair_of_shows formed shows' nodup with ⟨one, two, pair⟩
  have degree := formed.degree
  have countOne := shows_fill pair.front
  have countTwo := shows_fill pair.back
  have count : (one.join middle two).rest.length = one.rest.length + 1 + two.rest.length := by
    simp [Row.join]
    omega
  let joined := pieceOf b.layout height left.cell left.bytes (one.join middle two)
  have run := join_run middle pair (show joined.cell = left.cell from rfl) (by omega)
  have reads := read_joined right.cell (nodeOf height left.bytes (one.join middle two))
    (nodeOf (height + 1) piece.bytes (splice ⟨joined, []⟩ rights lefts))
    pair.front.stored pair.above
  have grows : (((b.nodes.write left.cell (nodeOf height left.bytes (one.join middle two))).write
    piece.cell
    (nodeOf (height + 1) piece.bytes (splice ⟨joined, []⟩ rights lefts))).giveUp right.cell).fresh =
    b.nodes.fresh := by simp
  generalize ((b.nodes.write left.cell _).write piece.cell _).giveUp right.cell =
    nodes at run reads grows
  have distinct := pair_distinct shows' nodup pair.front pair.back
  have below := pair_stays distinct pair.front pair.back fun cell notAbove notLeft notRight =>
    (reads cell).trans (by rw [if_neg notRight, if_neg notAbove, if_neg notLeft])
  have stored : nodes.read piece.cell = some (nodeOf (height + 1) piece.bytes
      (splice ⟨joined, []⟩ rights lefts)) :=
    (reads _).trans (by rw [if_neg pair.apart.2.1, if_pos rfl])
  have storedJoined :
      nodes.read left.cell = some (nodeOf height left.bytes (one.join middle two)) :=
    (reads _).trans (by rw [if_neg pair.apart.2.2, if_neg (Ne.symm pair.apart.1), if_pos rfl])
  have builtJoined : Built b.layout nodes (height + 1) joined :=
    built_pieceOf storedJoined (by omega) pair.front.block fun item member =>
      below item (items_join ▸ member)
  have keeps : Keeps b (b.setNodes nodes) (piece.cell ::
      (⟨left, [(sep, right)]⟩ : NodeRow Key).items.flatMap Piece.cells)
      (piece.cell :: (⟨joined, []⟩ : NodeRow Key).items.flatMap Piece.cells) := by
    rw [pair_cells, shows_cells pair.front, shows_cells pair.back]
    have order := pair_order piece.cell left.cell right.cell (one.items.flatMap Piece.cells)
      (two.items.flatMap Piece.cells)
    have ahead : (piece.cell :: left.cell :: right.cell ::
        (one.items.flatMap Piece.cells ++ two.items.flatMap Piece.cells)).Perm
          (right.cell :: piece.cell :: left.cell :: (one.items.flatMap Piece.cells ++
            two.items.flatMap Piece.cells)) :=
      (List.Perm.cons _ (List.Perm.swap _ _ _)).trans (List.Perm.swap _ _ _)
    have rebuilt : Rebuilt b.nodes nodes _ _ :=
      rebuilt_without (Nat.le_of_eq grows.symm) (fun cell outside => by
      simp only [List.mem_cons, not_or] at outside
      rw [reads, if_neg outside.1, if_neg outside.2.1, if_neg outside.2.2.1])
      ((reads _).trans (if_pos rfl)) (ahead.nodup distinct)
    refine ⟨rfl, rfl, rfl, rebuilt_perm rebuilt (ahead.symm.trans order.symm) (List.Perm.of_eq ?_)⟩
    simp [joined, pieceOf, items_join]
  have bound := shows'.bound
  rw [length_splice] at bound
  rcases shows_splice shows' nodup keeps stored (by simp at bound ⊢; omega) (by
      intro item member
      rw [show item = joined by simpa using member]
      exact ⟨builtJoined, .inr (show b.layout.t - 1 ≤
        (one.join middle two).rest.length by omega)⟩) with ⟨after, isAfter, shown, keepsAfter⟩
  refine ⟨_, joined, after, run, isAfter, shown, keepsAfter, ?_, rfl, ?_, ?_, ?_⟩
  · have around := length_cells_splice shows' shown
    have inner : joined.cells.length + 1 = left.cells.length + right.cells.length := by
      rw [shows_cells pair.front, shows_cells pair.back]
      simp [joined, pieceOf, items_join]
      omega
    rw [pair_cells] at around
    simp at around
    omega
  · show b.layout.t ≤ (one.join middle two).rest.length
    omega
  · have was := congrArg Piece.roomy pair.front.shape
    rw [was]
    rfl
  · rw [shows_keys pair.front, shows_keys pair.back]
    show (one.join middle two).weave Piece.keys = _
    exact weave_join

/-! ## The part of the way down after `++i` -/

theorem child_size_at {node : KbNode Key} {i : Int} (child : childAt node i = some item.cell)
    (shows' : Shows layout b.nodes height item row) : childSize b node i = some item.fill := by
  have read : readNode b item.cell = some (nodeOf height item.bytes row) := shows'.stored
  simp only [childSize, child, read, Option.bind_eq_bind, Option.bind_some, nodeOf_n,
    shows_fill shows']

theorem beside_before (shows' : Shows layout b.nodes (height + 1) piece
    (splice ⟨item, []⟩ rights lefts)) (test : Nat → Bool) :
    beside b (nodeOf (height + 1) piece.bytes (splice ⟨item, []⟩ rights lefts))
      (0 < (lefts.length : Int))
      (lefts.length - 1) test = some (lefts.getLast?.any fun entry => test entry.1.fill) := by
  induction lefts using List.reverseRecOn with
  | nil => rfl
  | append_singleton front entry _ =>
      have there : 0 < ((front ++ [entry]).length : Int) := by simp
      have place : ((front ++ [entry]).length : Int) - 1 = front.length := by simp
      have built := (shows'.below entry.1 (mem_items_splice.mpr (.inl (by simp)))).1
      rcases built_succ.mp built with ⟨row, within⟩
      rw [beside, decide_eq_true there, place, if_pos rfl, splice_before]
      rw [child_size_at (child_left (Nat.succ_pos height)) within]
      simp

theorem beside_behind (shows' : Shows layout b.nodes (height + 1) piece
    (splice ⟨item, []⟩ rights lefts)) (test : Nat → Bool) :
    beside b (nodeOf (height + 1) piece.bytes (splice ⟨item, []⟩ rights lefts))
      ((lefts.length : Int) < (nodeOf (height + 1) piece.bytes (splice ⟨item, []⟩ rights lefts)).n)
      (lefts.length + 1) test = some (rights.head?.any fun entry => test entry.2.fill) := by
  rw [nodeOf_n, length_splice]
  cases rights with
  | nil => simp [beside]
  | cons entry rights =>
      have built := (shows'.below entry.2 (mem_items_splice.mpr (.inr (.inr (by simp))))).1
      rcases built_succ.mp built with ⟨row, within⟩
      have there : (lefts.length : Int) <
          ((lefts.length + 0 + (entry :: rights).length : Nat) : Int) := by
        rw [List.length_cons]
        omega
      rw [beside, List.length_nil, decide_eq_true there, if_pos rfl, splice_next]
      rw [child_size_at (child_right (Nat.succ_pos height)) within]
      simp

/-- What the way down of `kb_delp` does to a subtree. -/
structure Shrunk (b next : KbTree Key) (piece after : Piece Key) : Prop where
  keeps : Keeps b next piece.cells after.cells
  cell : after.cell = piece.cell
  roomy : after.roomy = piece.roomy
  fill : piece.fill ≤ after.fill + 1
  nodes : next.nNodes = b.nNodes
  cells : after.cells.length ≤ piece.cells.length

theorem shrunk_refl (nodup : piece.cells.Nodup) : Shrunk b b piece piece :=
  ⟨keeps_refl nodup, rfl, rfl, Nat.le_succ _, rfl, Nat.le_refl _⟩

theorem shrunk_trans {later : KbTree Key} {between after : Piece Key}
    (early : Shrunk b next piece between) (late : Shrunk next later between after)
    (same : after.fill = between.fill) : Shrunk b later piece after :=
  ⟨keeps_trans early.keeps late.keeps, late.cell.trans early.cell, late.roomy.trans early.roomy,
    same ▸ early.fill,
    late.nodes.trans early.nodes, Nat.le_trans late.cells early.cells⟩

/-- The keys that were beside a child that was refilled are beside it or in it. -/
structure Refilled (b next : KbTree Key) (piece between : Piece Key)
    (lefts before : List (Piece Key × Key)) (rights behind : List (Key × Piece Key)) : Prop where
  shrunk : Shrunk b next piece between
  keys : between.keys = piece.keys
  front : weaveLefts Piece.keys before <+: weaveLefts Piece.keys lefts
  back : weaveRights Piece.keys behind <:+ weaveRights Piece.keys rights

theorem exists_before {p : Piece Key × Key → Bool} (there : lefts.getLast?.any p = true) :
    ∃ front left sep, lefts = front ++ [(left, sep)] ∧ p (left, sep) = true := by
  induction lefts using List.reverseRecOn with
  | nil => cases there
  | append_singleton front entry _ => exact ⟨front, entry.1, entry.2, rfl, by simpa using there⟩

theorem exists_behind {p : Key × Piece Key → Bool} (there : rights.head?.any p = true) :
    ∃ sep right back, rights = (sep, right) :: back ∧ p (sep, right) = true := by
  cases rights with
  | nil => cases there
  | cons entry back => exact ⟨entry.1, entry.2, back, rfl, by simpa using there⟩

theorem refill_before (formed : Formed b.layout)
    (shows' : Shows b.layout b.nodes (height + 1) piece
      (splice ⟨item, []⟩ rights (lefts ++ [(left, sep)])))
    (nodup : piece.cells.Nodup) (enough : b.layout.t ≤ left.fill)
    (few : item.fill = b.layout.t - 1) :
    ∃ next between before chosen, borrowBefore b piece.cell
      (lefts ++ [(left, sep)]).length = some next ∧
      chosen.cell = item.cell ∧ Shows b.layout next.nodes (height + 1) between
      (splice ⟨chosen, []⟩ rights before) ∧
      b.layout.t ≤ chosen.fill ∧ Refilled b next piece between (lefts ++ [(left, sep)]) before
      rights rights := by
  have place : ((lefts ++ [(left, sep)]).length : Int) = lefts.length + 1 := by simp
  rw [splice_before] at shows'
  rcases borrow_before_spec formed shows' nodup enough few with
    ⟨next, middle, first, last, after, run, isAfter, shown, keeps, cells, nodes, fill, cell, roomy,
      moved, keysLeft, keysLast⟩
  refine ⟨next, after, lefts ++ [(first, middle)], last, place ▸ run, cell, splice_before ▸ shown,
    Nat.le_of_eq fill.symm,
    ⟨keeps, ?_, ?_, ?_, nodes, Nat.le_of_eq cells⟩, ?_, ?_, List.suffix_rfl⟩
  · rw [isAfter]
    rfl
  · rw [isAfter]
    exact roomy_splice shows' roomy
  · rw [shows_fill shown, shows_fill shows', length_splice, length_splice]
    exact Nat.le_succ _
  · rw [shows_keys shown, shows_keys shows', weave_splice, weave_splice, weave_pair, weave_pair,
      keysLeft, keysLast]
    simp
  · exact ⟨moved ++ [sep], by simp [weaveLefts, List.flatMap_append, keysLeft]⟩

theorem refill_behind (formed : Formed b.layout)
    (shows' : Shows b.layout b.nodes (height + 1) piece
      (splice ⟨item, []⟩ ((sep, right) :: rights) lefts))
    (nodup : piece.cells.Nodup) (few : item.fill = b.layout.t - 1)
    (enough : b.layout.t ≤ right.fill) :
    ∃ next between chosen behind, borrowBehind b piece.cell lefts.length = some next ∧
      chosen.cell = item.cell ∧
      Shows b.layout next.nodes (height + 1) between (splice ⟨chosen, []⟩ behind lefts) ∧
      b.layout.t ≤ chosen.fill ∧
      Refilled b next piece between lefts lefts ((sep, right) :: rights) behind := by
  rw [splice_next] at shows'
  rcases borrow_behind_spec formed shows' nodup few enough with
    ⟨next, middle, first, last, after, run, isAfter, shown, keeps, cells, nodes, fill, cell, roomy,
      moved, keysRight, keysFirst⟩
  refine ⟨next, after, first, (middle, last) :: rights, run, cell, splice_next ▸ shown,
    Nat.le_of_eq fill.symm,
    ⟨keeps, ?_, ?_, ?_, nodes, Nat.le_of_eq cells⟩, ?_, List.prefix_rfl, ?_⟩
  · rw [isAfter]
    rfl
  · rw [isAfter]
    exact roomy_splice shows' roomy
  · rw [shows_fill shown, shows_fill shows', length_splice, length_splice]
    exact Nat.le_succ _
  · rw [shows_keys shown, shows_keys shows', weave_splice, weave_splice, weave_pair, weave_pair,
      keysRight, keysFirst]
    simp
  · exact ⟨sep :: moved, by simp [weaveRights, keysRight]⟩

theorem join_shrunk (middle : Key) (formed : Formed b.layout)
    (shows' : Shows b.layout b.nodes (height + 1) piece
      (splice ⟨left, [(sep, right)]⟩ rights lefts))
    (nodup : piece.cells.Nodup) (fewLeft : left.fill = b.layout.t - 1)
    (fewRight : right.fill = b.layout.t - 1) :
    ∃ next between chosen, kbJoin b piece.cell lefts.length middle = some (next, chosen.cell) ∧
      Shows b.layout next.nodes (height + 1) between (splice ⟨chosen, []⟩ rights lefts) ∧
      b.layout.t ≤ chosen.fill ∧
      Shrunk b next piece between ∧ chosen.keys = left.keys ++ middle :: right.keys := by
  rcases join_spec middle formed shows' nodup fewLeft fewRight with
    ⟨next, joined, after, run, isAfter, shown, keeps, cells, nodes, fill, roomy, keys⟩
  refine ⟨next, after, joined, run, shown, fill, ⟨keeps, ?_, ?_, ?_, nodes, cells⟩, keys⟩
  · rw [isAfter]
    rfl
  · rw [isAfter]
    exact roomy_splice shows' roomy
  · rw [shows_fill shown, shows_fill shows', length_splice, length_splice]
    simp
    omega

theorem refill_join (formed : Formed b.layout)
    (shows' : Shows b.layout b.nodes (height + 1) piece
      (splice ⟨left, [(sep, right)]⟩ rights lefts))
    (nodup : piece.cells.Nodup) (fewLeft : left.fill = b.layout.t - 1)
    (fewRight : right.fill = b.layout.t - 1) :
    ∃ next between chosen, kbJoin b piece.cell lefts.length sep = some (next, chosen.cell) ∧
      Shows b.layout next.nodes (height + 1) between (splice ⟨chosen, []⟩ rights lefts) ∧
      b.layout.t ≤ chosen.fill ∧
      Refilled b next piece between lefts lefts rights rights := by
  rcases join_shrunk sep formed shows' nodup fewLeft fewRight with ⟨next, between, chosen, run,
    shown, fill, shrunk, keys⟩
  refine ⟨next, between, chosen, run, shown, fill, shrunk, ?_, List.prefix_rfl, List.suffix_rfl⟩
  rw [shows_keys shown, shows_keys shows', weave_splice, weave_splice, weave_pair,
    weave_single, keys]

theorem refill_eq (shows' : Shows b.layout b.nodes (height + 1) piece
    (splice ⟨item, []⟩ rights lefts)) :
    refill b piece.cell lefts.length =
      if item.fill ≠ b.layout.t - 1 then some (b, item.cell)
      else if lefts.getLast?.any fun entry => b.layout.t ≤ entry.1.fill then
        (borrowBefore b piece.cell lefts.length).map fun b => (b, item.cell)
      else if rights.head?.any fun entry => b.layout.t ≤ entry.2.fill then
        (borrowBehind b piece.cell lefts.length).map fun b => (b, item.cell)
      else if lefts.getLast?.any fun entry => entry.1.fill = b.layout.t - 1 then
        ((splice ⟨item, []⟩ rights lefts).seps[((lefts.length : Int) - 1).toNat]?).bind
          (kbJoin b piece.cell (lefts.length - 1))
      else if rights.head?.any fun entry => entry.2.fill = b.layout.t - 1 then
        ((splice ⟨item, []⟩ rights lefts).seps[lefts.length]?).bind
          (kbJoin b piece.cell lefts.length)
      else some (b, item.cell) := by
  rcases built_succ.mp (shows'.below item (mem_items_splice.mpr
    (.inr (.inl first_mem)))).1 with ⟨inner, within⟩
  have readX : readNode b piece.cell = some (nodeOf (height + 1) piece.bytes
      (splice ⟨item, []⟩ rights lefts)) :=
    shows'.stored
  have readXp : readNode b item.cell = some (nodeOf height item.bytes inner) := within.stored
  have child : childAt (nodeOf (height + 1) piece.bytes (splice ⟨item, []⟩ rights lefts))
      lefts.length = some item.cell :=
    child_at (Nat.succ_pos _)
  have count : (nodeOf height item.bytes inner).n = item.fill := by rw [nodeOf_n, shows_fill within]
  simp only [refill, readX, readXp, child, count, beside_before shows', beside_behind shows',
    Option.bind_eq_bind,
    Option.bind_some, Int.toNat_natCast]
  congr 1
  split_ifs <;> cases borrowBefore b piece.cell lefts.length <;>
    cases borrowBehind b piece.cell lefts.length <;> rfl

/-- Every way through the part ends at a child that has a key to spare. -/
theorem refill_spec (formed : Formed b.layout)
    (shows' : Shows b.layout b.nodes (height + 1) piece (splice ⟨item, []⟩ rights lefts))
    (nodup : piece.cells.Nodup) (some' : 0 < piece.fill) :
    ∃ next between before chosen behind, refill b piece.cell lefts.length = some (next,
      chosen.cell) ∧
      Shows b.layout next.nodes (height + 1) between (splice ⟨chosen, []⟩ behind before) ∧
      b.layout.t ≤ chosen.fill ∧
      Refilled b next piece between lefts before rights behind := by
  have filled : ∀ other ∈ (splice ⟨item, []⟩ rights lefts).items, b.layout.t - 1 ≤ other.fill := by
    intro other member
    rcases (shows'.below other member).2 with leaf | enough
    · cases leaf
    · exact enough
  rw [refill_eq shows']
  by_cases few : item.fill = b.layout.t - 1
  · rw [if_neg (not_not.mpr few)]
    by_cases richLeft : (lefts.getLast?.any fun entry => decide (b.layout.t ≤ entry.1.fill)) = true
    · rw [if_pos richLeft]
      rcases exists_before richLeft with ⟨front, left, sep, rfl, enough⟩
      rcases refill_before formed shows' nodup (by simpa using enough) few with
        ⟨next, between, before, chosen, run, cell, shown, fill, refilled⟩
      exact ⟨next, between, before, chosen, rights, by rw [run, cell]; rfl, shown, fill, refilled⟩
    rw [if_neg richLeft]
    by_cases richRight : (rights.head?.any fun entry => decide (b.layout.t ≤ entry.2.fill)) = true
    · rw [if_pos richRight]
      rcases exists_behind richRight with ⟨sep, right, back, rfl, enough⟩
      rcases refill_behind formed shows' nodup few (by simpa using enough) with
        ⟨next, between, chosen, behind, run, cell, shown, fill, refilled⟩
      exact ⟨next, between, lefts, chosen, behind, by rw [run, cell]; rfl, shown, fill, refilled⟩
    rw [if_neg richRight]
    by_cases poorLeft : (lefts.getLast?.any fun entry => decide (entry.1.fill = b.layout.t - 1)) =
      true
    · rw [if_pos poorLeft]
      rcases exists_before poorLeft with ⟨front, left, sep, rfl, poor⟩
      rw [splice_before] at shows' ⊢
      rcases refill_join formed shows' nodup (by simpa using poor) few with ⟨next, between, chosen,
        run, shown, fill, refilled⟩
      have place : ((front ++ [(left, sep)]).length : Int) - 1 = front.length := by simp
      refine ⟨next, between, front, chosen, rights, ?_, shown, fill, { refilled with front := ?_ }⟩
      · rw [place, Int.toNat_natCast, sep_at]
        exact run
      · simp [weaveLefts, List.flatMap_append]
    rw [if_neg poorLeft]
    by_cases poorRight : (rights.head?.any fun entry => decide (entry.2.fill = b.layout.t - 1)) =
      true
    · rw [if_pos poorRight]
      rcases exists_behind poorRight with ⟨sep, right, back, rfl, poor⟩
      rw [splice_next] at shows' ⊢
      rcases refill_join formed shows' nodup few (by simpa using poor) with ⟨next, between, chosen,
        run, shown, fill, refilled⟩
      refine ⟨next, between, lefts, chosen, back, ?_, shown, fill, { refilled with back := ?_ }⟩
      · rw [sep_at]
        exact run
      · exact List.suffix_append _ _
    -- A node with a key has two children, and each has enough keys for one of the cases.
    exfalso
    have count := shows_fill shows'
    rw [length_splice, List.length_nil, Nat.add_zero] at count
    by_cases before : lefts = []
    · cases rights with
      | nil => simp [before] at count; omega
      | cons entry back =>
          have enough := filled entry.2 (mem_items_splice.mpr (.inr (.inr (by simp))))
          simp only [List.head?_cons, Option.any_some, decide_eq_true_eq] at richRight poorRight
          omega
    · have enough := filled (lefts.getLast before).1 (mem_items_splice.mpr (.inl
        (List.mem_map.mpr ⟨_, List.getLast_mem before, rfl⟩)))
      simp only [List.getLast?_eq_some_getLast before, Option.any_some,
        decide_eq_true_eq] at richLeft poorLeft
      omega
  · rw [if_pos few]
    have enough := filled item (mem_items_splice.mpr (.inr (.inl first_mem)))
    exact ⟨b, piece, lefts, item, rights, rfl, shows', by omega, shrunk_refl nodup, rfl,
      List.prefix_rfl, List.suffix_rfl⟩

end TWlib.KTree
