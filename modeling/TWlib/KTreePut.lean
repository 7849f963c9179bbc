import TWlib.KTreeSearch

/-!
# Adding a key to a B-tree

`kb_split` divides a full child, so that the way down of `kb_putp` never enters a full node; the new
key ends up in a leaf, in the order of the keys.
-/

namespace TWlib.KTree

open TWlib.Lib.CellStore
open TWlib.Lib.MachineInt
open TWlib.Lib.CellRegion
open TWlib.Lib.SeparatedRow
open TWlib.Lib.SortedList
open TWlib.Lib.SortedBag
open TWlib.Lib.SortedRow

set_option autoImplicit false

variable {Key : Type} {cmp : Key → Key → Int} {key sep middle : Key} {layout : Layout}
  {height bytes count : Nat} {row left right : NodeRow Key} {piece item : Piece Key}
  {b next : KbTree Key} {lefts : List (Piece Key × Key)} {rights : List (Key × Piece Key)}

/-! ## Cutting a node in two -/

theorem left_half (degree : layout.t = count + 1) (leftCount : left.rest.length = count) :
    leftHalf layout (nodeOf height bytes (left.join sep right)) = nodeOf height bytes left := by
  have keys : (left.seps ++ sep :: right.seps).take count = left.seps := by
    rw [List.take_append_of_le_length (by simp [leftCount]),
      List.take_of_length_le (by simp [leftCount])]
  have ptrs : (left.items ++ right.items).take (count + 1) = left.items := by
    rw [List.take_append_of_le_length (by simp [leftCount]),
      List.take_of_length_le (by simp [leftCount])]
  simp only [leftHalf, nodeOf, seps_join, items_join, degree, Nat.add_sub_cancel, keys]
  split_ifs
  · rw [← List.map_take, ptrs]
  · rw [List.take_nil]

/-- The size of the block of a new node. -/
def newBytes (layout : Layout) (height : Nat) : Nat :=
  if 0 < height then layout.ilen else layout.elen

theorem right_half (degree : layout.t = count + 1) (leftCount : left.rest.length = count)
    (rightCount : right.rest.length = count) :
    rightHalf layout (nodeOf height bytes (left.join sep right)) =
    nodeOf height (newBytes layout height) right := by
  have keys : ((left.seps ++ sep :: right.seps).drop (count + 1)).take count = right.seps := by
    rw [show left.seps ++ sep :: right.seps = (left.seps ++ [sep]) ++ right.seps by simp,
      List.drop_append_of_le_length (by simp [leftCount]),
      List.drop_of_length_le (by simp [leftCount]), List.nil_append,
      List.take_of_length_le (by simp [rightCount])]
  have ptrs : ((left.items ++ right.items).drop (count + 1)).take (count + 1) = right.items := by
    rw [List.drop_append_of_le_length (by simp [leftCount]),
      List.drop_of_length_le (by simp [leftCount]), List.nil_append,
      List.take_of_length_le (by simp [rightCount])]
  simp only [rightHalf, newBytes, nodeOf, seps_join, items_join, decide_eq_true_eq, degree,
    Nat.add_sub_cancel, keys]
  split_ifs
  · rw [← List.map_drop, ← List.map_take, ptrs]
  · rfl

theorem insert_keys (one two : Piece Key) :
    insertAt lefts.length middle (splice ⟨item, []⟩ rights lefts).seps =
    some (splice ⟨one, [(middle, two)]⟩ rights lefts).seps := by
  simp only [seps_splice, seps_single, seps_pair, List.append_nil, List.append_assoc,
    List.singleton_append]
  exact insert_at (by simp)

theorem insert_ptrs (middle : Key) (one two : Piece Key) (same : one.cell = item.cell) :
    insertAt (lefts.length + 1) (some two.cell) ((splice ⟨item, []⟩ rights lefts).items.map
      fun item => some item.cell) =
      some ((splice ⟨one, [(middle, two)]⟩ rights lefts).items.map fun item => some item.cell) := by
  simp only [items_splice, items_single, items_pair, List.map_append, List.map_cons,
    List.map_nil, same]
  have place : ∀ early late : List (Option Nat), early.length = lefts.length →
      insertAt (lefts.length + 1) (some two.cell) (early ++ [some item.cell] ++ late) =
        some (early ++ [some item.cell, some two.cell] ++ late) := by
    intro early late same
    rw [insert_at (by simp [same])]
    simp
  exact place _ _ (by simp)

/-- The writes of `kb_split`. -/
theorem split_run (formed : Formed b.layout) {x y ybytes : Nat} {one two : Piece Key}
    (degree : b.layout.t = count + 1) (leftCount : left.rest.length = count)
    (rightCount : right.rest.length = count)
    (storedY : b.nodes.read y = some (nodeOf height ybytes (left.join middle right)))
    (storedX : b.nodes.read x = some (nodeOf (height + 1) bytes (splice ⟨item, []⟩ rights lefts)))
    (apart : x ≠ y) (blockY : 0 < height → ybytes = b.layout.ilen) (blockX : bytes = b.layout.ilen)
    (room : lefts.length + rights.length < 2 * b.layout.t - 1) (same : one.cell = item.cell)
    (new : two.cell = b.nodes.fresh) :
    kbSplit b x lefts.length y = some ({ b with nNodes := asInt (b.nNodes + 1) }.setNodes
      (((b.nodes.push (nodeOf height (newBytes b.layout height) right)).write y
        (nodeOf height ybytes left)).write x
        (nodeOf (height + 1) bytes (splice ⟨one, [(middle, two)]⟩ rights lefts)))) := by
  have middleRead : (nodeOf height ybytes (left.join middle right)).keys[b.layout.t - 1]? =
      some middle := by
    rw [show (nodeOf height ybytes (left.join middle right)).keys = left.seps ++ middle ::
      right.seps from seps_join]
    exact get_at (by simp [degree, leftCount])
  have enough : ¬ (nodeOf height ybytes (left.join middle right)).n < 2 * b.layout.t - 1 := by
    rw [nodeOf_n]
    simp [Row.join, leftCount, rightCount, degree]
    omega
  have stored1 : (b.nodes.push (nodeOf height (newBytes b.layout height) right)).read y =
      some (nodeOf height ybytes (left.join middle right)) := read_push_of_present storedY _
  have write1 := write_row_spec ({ b with nNodes := asInt (b.nNodes + 1) }.setNodes
    (b.nodes.push (nodeOf height (newBytes b.layout height) right))) height ybytes left
    formed stored1
    (by simp only [setNodes_layout, leftCount, degree]; omega) blockY
  have stored2 : ((b.nodes.push (nodeOf height (newBytes b.layout height) right)).write y
      (nodeOf height ybytes left)).read x = some (nodeOf (height + 1) bytes
        (splice ⟨item, []⟩ rights lefts)) := by
    rw [read_write stored1, if_neg apart]
    exact read_push_of_present storedX _
  have write2 := write_row_spec ({ b with nNodes := asInt (b.nNodes + 1) }.setNodes
      ((b.nodes.push (nodeOf height (newBytes b.layout height) right)).write y
        (nodeOf height ybytes left)))
    (height + 1) bytes (splice ⟨one, [(middle, two)]⟩ rights lefts) formed stored2
    (by rw [length_splice]; simp; omega) (fun _ => blockX)
  have keys : insertAt (lefts.length : Int).toNat middle
      (nodeOf (height + 1) bytes (splice ⟨item, []⟩ rights lefts)).keys = _ := insert_keys one two
  have ptrs : insertAt ((lefts.length : Int).toNat + 1) (some b.nodes.fresh)
      ((splice ⟨item, []⟩ rights lefts).items.map fun item => some item.cell) = _ :=
    new ▸ insert_ptrs middle one two same
  simp only [kbSplit, readNode, storedY, Option.bind_eq_bind, Option.bind_some, middleRead,
    if_neg enough,
    setNodes_layout, left_half degree leftCount, right_half degree leftCount rightCount, write1,
    setNodes_nodes, stored2]
  rw [keys, nodeOf_ptrs (Nat.succ_pos _), Option.bind_some, ptrs, Option.bind_some,
    nodeOf_with (Nat.succ_pos _)]
  exact write2

theorem split_order (new above cell : Nat) (front back : List Nat) :
    (new :: above :: cell :: (front ++ back)).Perm (above :: ((cell :: front) ++ new :: back)) :=
  have moved : ((cell :: front) ++ new :: back).Perm (new :: (cell :: front ++ back)) :=
    List.perm_middle
  (List.Perm.swap above new _).trans (List.Perm.cons above moved.symm)

/-- A full child becomes two with half of its keys each, and the node above gets the one between
them. -/
theorem split_spec (formed : Formed b.layout)
    (shows' : Shows b.layout b.nodes (height + 1) piece (splice ⟨item, []⟩ rights lefts))
    (nodup : piece.cells.Nodup) (full : item.fill = 2 * b.layout.t - 1)
    (room : lefts.length + rights.length < 2 * b.layout.t - 1) :
    ∃ next one middle two after, kbSplit b piece.cell lefts.length item.cell = some next ∧
      after = pieceOf b.layout (height + 1) piece.cell piece.bytes
      (splice ⟨one, [(middle, two)]⟩ rights lefts) ∧
      Shows b.layout next.nodes (height + 1) after (splice ⟨one, [(middle, two)]⟩ rights lefts) ∧
      Keeps b next piece.cells after.cells ∧ one.fill = b.layout.t - 1 ∧ two.fill = b.layout.t - 1 ∧
      item.keys = one.keys ++ middle :: two.keys ∧ one.roomy = item.roomy ∧
      next.nNodes = asInt (b.nNodes + 1) ∧
      after.cells.length = piece.cells.length + 1 := by
  have built := (shows'.below item (mem_items_splice.mpr (.inr (.inl first_mem)))).1
  rcases built_succ.mp built with ⟨inner, within⟩
  obtain ⟨count, degree⟩ : ∃ count, b.layout.t = count + 1 :=
    ⟨b.layout.t - 1, by have := formed.degree; omega⟩
  have innerCount : inner.rest.length = 2 * count + 1 := by
    rw [← shows_fill within]
    omega
  have cut : ∃ left middle right, inner = Row.join left middle right ∧ left.rest.length = count :=
    exists_join (by omega)
  rcases cut with ⟨left, middle, right, rfl, leftCount⟩
  have rightCount : right.rest.length = count := by
    simp only [Row.join, List.length_append, List.length_cons] at innerCount
    omega
  have distinct := mid_nodup shows' nodup
  have alive := mid_alive shows'
  have itemCells := shows_cells within
  simp only [items_single, List.flatMap_cons, List.flatMap_nil, List.append_nil,
    itemCells, items_join,
    List.flatMap_append] at distinct alive
  have apart : piece.cell ≠ item.cell := fun same =>
    (List.nodup_cons.mp distinct).1 (same ▸ List.mem_cons_self)
  let one := pieceOf b.layout height item.cell item.bytes left
  let two := pieceOf b.layout height b.nodes.fresh (newBytes b.layout height) right
  have run := split_run formed degree leftCount rightCount within.stored shows'.stored apart
    within.block
    (shows'.block (Nat.succ_pos _)) room (show one.cell = item.cell from rfl)
    (show two.cell = b.nodes.fresh from rfl)
  have reads := read_beside (nodeOf (height + 1) piece.bytes
    (splice ⟨one, [(middle, two)]⟩ rights lefts))
    (nodeOf height item.bytes left) (nodeOf height (newBytes b.layout height) right) shows'.stored
    within.stored
  have rebuilt := rebuilt_beside (nodeOf (height + 1) piece.bytes
    (splice ⟨one, [(middle, two)]⟩ rights lefts))
    (nodeOf height item.bytes left) (nodeOf height (newBytes b.layout height) right) shows'.stored
    within.stored
    List.mem_cons_self (List.mem_cons_of_mem _ List.mem_cons_self) alive distinct
  generalize ((b.nodes.push _).write item.cell _).write piece.cell _ = nodes at run reads rebuilt
  have untouched : ∀ cell ∈ left.items.flatMap Piece.cells ++ right.items.flatMap Piece.cells,
      nodes.read cell = b.nodes.read cell := by
    intro cell member
    have notAbove : cell ≠ piece.cell := fun same =>
      (List.nodup_cons.mp distinct).1 (same ▸ List.mem_cons_of_mem _ member)
    have notItem : cell ≠ item.cell := fun same =>
      (List.nodup_cons.mp (List.nodup_cons.mp distinct).2).1 (same ▸ member)
    have notNew : cell ≠ b.nodes.fresh :=
      Nat.ne_of_lt (alive cell (List.mem_cons_of_mem _ (List.mem_cons_of_mem _ member)))
    rw [reads, if_neg notAbove, if_neg notItem, if_neg notNew]
  have below := items_stay within fun cell member =>
    untouched cell (by simpa [items_join] using member)
  rw [items_join] at below
  have newAbove : b.nodes.fresh ≠ piece.cell := (Nat.ne_of_lt (alive _ List.mem_cons_self)).symm
  have newItem : b.nodes.fresh ≠ item.cell :=
    (Nat.ne_of_lt (alive _ (List.mem_cons_of_mem _ List.mem_cons_self))).symm
  have storedOne : nodes.read item.cell = some (nodeOf height item.bytes left) := by
    rw [reads, if_neg apart.symm, if_pos rfl]
  have storedTwo : nodes.read b.nodes.fresh =
      some (nodeOf height (newBytes b.layout height) right) := by
    rw [reads, if_neg newAbove, if_neg newItem, if_pos rfl]
  have builtOne : Built b.layout nodes (height + 1) one :=
    built_pieceOf storedOne (by omega) within.block fun item member =>
      below item (List.mem_append_left _ member)
  have builtTwo : Built b.layout nodes (height + 1) two :=
    built_pieceOf storedTwo (by omega) (fun internal => if_pos internal) fun item member =>
      below item (List.mem_append_right _ member)
  have fillOne : one.fill = count := leftCount
  have fillTwo : two.fill = count := rightCount
  have enoughOne : b.layout.t - 1 ≤ one.fill := by omega
  have enoughTwo : b.layout.t - 1 ≤ two.fill := by omega
  have order := split_order b.nodes.fresh piece.cell item.cell (left.items.flatMap Piece.cells)
    (right.items.flatMap Piece.cells)
  have keeps : Keeps b ({ b with nNodes := asInt (b.nNodes + 1) }.setNodes nodes)
      (piece.cell :: (⟨item, []⟩ : NodeRow Key).items.flatMap Piece.cells)
      (piece.cell :: (⟨one, [(middle, two)]⟩ : NodeRow Key).items.flatMap Piece.cells) := by
    refine ⟨rfl, rfl, rfl, rebuilt_perm rebuilt (List.Perm.of_eq ?_)
      (order.trans (List.Perm.of_eq ?_))⟩
    · simp [itemCells, items_join]
    · simp [one, two, pieceOf]
  have stored : nodes.read piece.cell =
      some (nodeOf (height + 1) piece.bytes (splice ⟨one, [(middle, two)]⟩ rights lefts)) := by
    rw [reads, if_pos rfl]
  have filled : ∀ item ∈ (⟨one, [(middle, two)]⟩ : NodeRow Key).items,
      Built b.layout nodes (height + 1) item ∧ Filled b.layout (height + 1) item := by
    intro item member
    rcases List.mem_cons.mp member with rfl | second
    · exact ⟨builtOne, .inr enoughOne⟩
    · rw [List.mem_singleton.mp second]
      exact ⟨builtTwo, .inr enoughTwo⟩
  rcases shows_splice shows' nodup keeps stored (by simp; omega) filled with ⟨after, same,
    shown, keepsAfter⟩
  refine ⟨_, one, middle, two, after, run, same, shown, keepsAfter, by omega, by omega, ?_,
    ?_, rfl, ?_⟩
  · rw [shows_keys within, weave_join]
    rfl
  · rw [within.shape]
    rfl
  · have around := length_cells_splice shows' shown
    have inside : one.cells.length + two.cells.length = item.cells.length + 1 := by
      simp [itemCells, items_join, one, two, pieceOf]
      omega
    simp only [items_single, items_pair, List.flatMap_cons, List.flatMap_nil, List.append_nil,
      List.length_append] at around
    omega

/-! ## The way down -/

/-- Where a new key goes: behind an equal key, else in front of the first key above it. -/
theorem place_spec (lawful : Lawful cmp) (ascending : Ascending cmp row.seps) (key : Key)
    (given : Int) :
    ∃ lefts item rights r, getpAux cmp row.seps key given = some ((lefts.length : Int) - 1, r) ∧
      row = splice ⟨item, []⟩ rights lefts ∧ (∀ sep ∈ lefts.map Prod.snd, cmp sep key ≤ 0) ∧
        ∀ sep ∈ rights.map Prod.fst, cmp key sep ≤ 0 := by
  have weaken : ∀ {sep : Key}, 0 < cmp key sep → cmp sep key ≤ 0 := fun above =>
    Int.le_of_lt ((below_flip lawful).mp above)
  rcases getp_aux_spec lawful ascending key given with ⟨i, r, run, looked⟩
  cases looked with
  | @found lefts left here right rights shape equal below =>
      refine ⟨lefts ++ [(left, here)], right, rights, 0, ?_, shape.trans splice_before.symm, ?_, ?_⟩
      · simpa using run
      · intro sep member
        rw [List.map_append] at member
        rcases List.mem_append.mp member with before | last
        · exact weaken (below sep before)
        · rw [List.mem_singleton.mp last]
          exact Int.le_of_eq (zero_symm lawful equal)
      · intro sep member
        rw [shape, seps_splice, seps_pair, List.append_assoc] at ascending
        have order := (List.pairwise_append.mp ascending).2.1
        exact lawful.trans key here sep (by omega) ((List.pairwise_cons.mp order).1 sep member)
  | @absent lefts item rights r shape below above differ =>
      exact ⟨lefts, item, rights, r, run, shape, fun sep member => weaken (below sep member),
        fun sep member => Int.le_of_lt (above sep member)⟩

theorem sides_weak (lawful : Lawful cmp) {layout : Layout} {nodes : Store (KbNode Key)}
    (ascending : Ascending cmp piece.keys)
    (shows' : Shows layout nodes height piece (splice ⟨item, []⟩ rights lefts))
    (below : ∀ sep ∈ lefts.map Prod.snd, cmp sep key ≤ 0)
    (above : ∀ sep ∈ rights.map Prod.fst, cmp key sep ≤ 0) :
    (∀ other ∈ weaveLefts Piece.keys lefts, cmp other key ≤ 0) ∧
      (∀ other ∈ weaveRights Piece.keys rights, cmp key other ≤ 0) ∧ Ascending cmp item.keys := by
  rw [keys_at shows'] at ascending
  rcases List.pairwise_append.mp ascending with ⟨front, back, -⟩
  rcases List.pairwise_append.mp front with ⟨first, middle, -⟩
  exact ⟨lefts_below lawful first below, rights_above lawful back above, middle⟩

/-- What `__kb_putp_aux` does to a subtree. -/
structure Grown (cmp : Key → Key → Int) (key : Key) (b next : KbTree Key)
    (piece after : Piece Key) : Prop where
  keeps : Keeps b next piece.cells after.cells
  cell : after.cell = piece.cell
  roomy : after.roomy = piece.roomy
  fill : piece.fill ≤ after.fill
  inserted : Inserted cmp key piece.keys after.keys
  nodes : Counts b next piece.cells.length after.cells.length

theorem put_leaf (lawful : Lawful cmp) (formed : Formed b.layout) (key : Key)
    (shows' : Shows b.layout b.nodes 0 piece row) (nodup : piece.cells.Nodup)
    (ascending : Ascending cmp piece.keys) (room : piece.fill < 2 * b.layout.t - 1) (fuel : Nat) :
    ∃ next after, putpAux cmp (fuel + 1) b piece.cell key = some next ∧
      Built b.layout next.nodes 1 after ∧
      Grown cmp key b next piece after := by
  rcases place_spec lawful (ascending_seps shows' ascending) key 0 with ⟨lefts, item, rights, r,
    place, rfl, below, above⟩
  have empty := item_of_leaf shows'
  subst empty
  have count := shows_fill shows'
  simp only [length_splice, List.length_nil, Nat.add_zero] at count
  let grown : NodeRow Key := splice ⟨.empty, [(key, .empty)]⟩ rights lefts
  have read : readNode b piece.cell = some (nodeOf 0 piece.bytes
    (splice ⟨.empty, []⟩ rights lefts)) := shows'.stored
  have index : ((lefts.length : Int) - 1 + 1).toNat = lefts.length := by simp
  have keys : insertAt lefts.length key (nodeOf 0 piece.bytes
      (splice ⟨.empty, []⟩ rights lefts)).keys = some grown.seps :=
    insert_keys _ _
  have fits : grown.rest.length ≤ 2 * b.layout.t - 1 := by
    simp only [grown, length_splice, List.length_cons, List.length_nil]
    omega
  have write := write_row_spec b 0 piece.bytes grown formed shows'.stored fits
    (absurd · (Nat.lt_irrefl 0))
  have run : putpAux cmp (fuel + 1) b piece.cell key =
      some (b.setNodes (b.nodes.write piece.cell (nodeOf 0 piece.bytes grown))) := by
    have placed : getpAux cmp (nodeOf 0 piece.bytes (splice ⟨.empty, []⟩ rights lefts)).keys key 0 =
        some ((lefts.length : Int) - 1, r) := place
    simp only [putpAux, read, placed, node_leaf, Option.bind_eq_bind, Option.bind_some, index, keys]
    exact write
  have keeps : Keeps b (b.setNodes (b.nodes.write piece.cell (nodeOf 0 piece.bytes grown)))
      (piece.cell :: (⟨.empty, []⟩ : NodeRow Key).items.flatMap Piece.cells)
      (piece.cell :: (⟨.empty, [(key, .empty)]⟩ : NodeRow Key).items.flatMap Piece.cells) :=
    ⟨rfl, rfl, rfl, rebuilt_write shows'.stored List.mem_cons_self (by simp)⟩
  have stored : (b.nodes.write piece.cell (nodeOf 0 piece.bytes grown)).read piece.cell =
      some (nodeOf 0 piece.bytes grown) := by
    rw [read_write shows'.stored, if_pos rfl]
  have leaves : ∀ item ∈ (⟨.empty, [(key, .empty)]⟩ : NodeRow Key).items,
      Built b.layout (b.nodes.write piece.cell (nodeOf 0 piece.bytes grown)) 0 item ∧
      Filled b.layout 0 item := by
    intro item member
    have this' : item = .empty := by simpa using member
    exact ⟨this', .inl rfl⟩
  rcases shows_splice shows' nodup keeps stored (by simp; omega) leaves with ⟨after, same,
    shown, keepsAfter⟩
  refine ⟨_, after, run, built_succ.mpr ⟨_, shown⟩, keepsAfter, ?_, ?_, ?_, ?_, ?_⟩
  · rw [same]
    rfl
  · rw [same]
    exact roomy_splice shows' rfl
  · rw [shows_fill shown, count, length_splice]
    simp
  · refine ⟨lefts.map Prod.snd, rights.map Prod.fst, ?_, ?_, below, above⟩
    · simp [leaf_keys shows', seps_splice]
    · simp [leaf_keys shown, seps_splice]
  · have around := length_cells_splice shows' shown
    simp only [items_single, items_pair, List.flatMap_cons, List.flatMap_nil, List.append_nil,
      empty_cells,
      List.length_nil, Nat.add_zero] at around
    rw [around]
    exact counts_unchanged (setNodes_nNodes _ _) _

/-- The child that the way down goes on with is not full. -/
theorem put_child_spec (lawful : Lawful cmp) (formed : Formed b.layout) (key : Key)
    (shows' : Shows b.layout b.nodes (height + 1) piece (splice ⟨item, []⟩ rights lefts))
    (nodup : piece.cells.Nodup) (room : piece.fill < 2 * b.layout.t - 1)
    (below : ∀ sep ∈ lefts.map Prod.snd, cmp sep key ≤ 0)
    (above : ∀ sep ∈ rights.map Prod.fst, cmp key sep ≤ 0) :
    ∃ next between before chosen behind, putpChild cmp b piece.cell key lefts.length = some (next,
      (before.length : Int)) ∧
      Shows b.layout next.nodes (height + 1) between (splice ⟨chosen, []⟩ behind before) ∧
      Keeps b next piece.cells between.cells ∧ chosen.fill < 2 * b.layout.t - 1 ∧
      between.cell = piece.cell ∧
      between.keys = piece.keys ∧ between.roomy = piece.roomy ∧ piece.fill ≤ between.fill ∧
      Counts b next piece.cells.length between.cells.length ∧
      (∀ sep ∈ before.map Prod.snd, cmp sep key ≤ 0) ∧ ∀ sep ∈ behind.map Prod.fst,
      cmp key sep ≤ 0 := by
  have built := (shows'.below item (mem_items_splice.mpr (.inr (.inl first_mem)))).1
  have atMost := built_fill built
  have count := shows_fill shows'
  simp only [length_splice, List.length_nil, Nat.add_zero] at count
  rcases built_succ.mp built with ⟨inner, within⟩
  have readX : readNode b piece.cell = some (nodeOf (height + 1) piece.bytes
      (splice ⟨item, []⟩ rights lefts)) :=
    shows'.stored
  have readY : readNode b item.cell = some (nodeOf height item.bytes inner) := within.stored
  have child : childAt (nodeOf (height + 1) piece.bytes (splice ⟨item, []⟩ rights lefts))
      lefts.length = some item.cell :=
    child_at (Nat.succ_pos _)
  by_cases full : item.fill = 2 * b.layout.t - 1
  · rcases split_spec formed shows' nodup full (by omega) with
      ⟨next, one, middle, two, after, cut, same, shown, keeps, fillOne, fillTwo, keys, roomy,
        nodes, cells⟩
    have isFull : (nodeOf height item.bytes inner).n = 2 * b.layout.t - 1 := by
      rw [nodeOf_n, ← shows_fill within]
      exact full
    have cell : after.cell = piece.cell := by rw [same]; rfl
    have middleRead := key_at_sep shown.stored
    rw [cell] at middleRead
    have run : putpChild cmp b piece.cell key lefts.length =
        some (next, if 0 < cmp key middle then (lefts.length : Int) + 1 else lefts.length) := by
      simp [putpChild, readX, child, readY, isFull, cut, middleRead]
    have order : after.keys = piece.keys := by
      rw [shows_keys shown, shows_keys shows', weave_splice, weave_splice, weave_single,
        weave_pair, keys]
    have room' : after.roomy = piece.roomy := by
      rw [same]
      exact roomy_splice shows' roomy
    have fill : piece.fill ≤ after.fill := by
      rw [shows_fill shown, count, length_splice]
      simp
    have degree := formed.degree
    have counts : Counts b next piece.cells.length after.cells.length :=
      cells ▸ counts_one_more nodes _
    by_cases behind : 0 < cmp key middle
    · refine ⟨next, after, lefts ++ [(one, middle)], two, rights, ?_, splice_before ▸ shown,
        keeps, by omega, cell, order,
        room', fill, counts, ?_, above⟩
      · rw [run, if_pos behind]
        simp
      · intro sep member
        rw [List.map_append] at member
        rcases List.mem_append.mp member with first | last
        · exact below sep first
        · rw [List.mem_singleton.mp last]
          exact Int.le_of_lt ((below_flip lawful).mp behind)
    · refine ⟨next, after, lefts, one, (middle, two) :: rights, ?_, splice_next ▸ shown,
        keeps, by omega, cell, order,
        room', fill, counts, below, ?_⟩
      · rw [run, if_neg behind]
      · intro sep member
        rcases List.mem_cons.mp member with rfl | later
        · exact Int.not_lt.mp behind
        · exact above sep later
  · refine ⟨b, piece, lefts, item, rights, ?_, shows', keeps_refl nodup, by omega, rfl, rfl, rfl,
      Nat.le_refl _,
      counts_unchanged rfl _, below, above⟩
    have notFull : (nodeOf height item.bytes inner).n ≠ 2 * b.layout.t - 1 := by
      rw [nodeOf_n, ← shows_fill within]
      exact full
    simp [putpChild, readX, child, readY, notFull]

theorem put_aux_spec (lawful : Lawful cmp) (key : Key) (height : Nat) :
    ∀ {b : KbTree Key} {piece : Piece Key} {fuel : Nat},
    Formed b.layout → Built b.layout b.nodes (height + 1) piece → piece.cells.Nodup →
    Ascending cmp piece.keys →
    piece.fill < 2 * b.layout.t - 1 → height < fuel →
    ∃ next after, putpAux cmp fuel b piece.cell key = some next ∧
      Built b.layout next.nodes (height + 1) after ∧
      Grown cmp key b next piece after := by
  induction height with
  | zero =>
      intro b piece fuel formed built nodup ascending room enough
      rcases built_succ.mp built with ⟨row, shows'⟩
      cases fuel with
      | zero => cases enough
      | succ fuel => exact put_leaf lawful formed key shows' nodup ascending room fuel
  | succ height inductionHypothesis =>
      intro b piece fuel formed built nodup ascending room enough
      rcases built_succ.mp built with ⟨row, shows'⟩
      cases fuel with
      | zero => cases enough
      | succ fuel =>
          rcases place_spec lawful (ascending_seps shows' ascending) key 0 with
            ⟨lefts, item, rights, r, place, rfl, below, above⟩
          rcases put_child_spec lawful formed key shows' nodup room below above with
            ⟨middle, between, before, chosen, behind, child, shown, keeps, notFull, cell, keys,
              roomy, fill, nodes, under,
              beyond⟩
          have ascending' : Ascending cmp between.keys := keys ▸ ascending
          have shown' : Shows middle.layout middle.nodes (height + 1) between
              (splice ⟨chosen, []⟩ behind before) :=
            keeps.layout ▸ shown
          rcases sides_weak lawful ascending' shown' under beyond with ⟨front, back, inner⟩
          have there := (shown'.below chosen (mem_items_splice.mpr (.inr (.inl first_mem)))).1
          have distinct := mid_nodup shown' keeps.rebuilt.nodup
          rcases inductionHypothesis (keeps.layout ▸ formed) there
            (by simpa using (List.nodup_cons.mp distinct).2) inner
            (keeps.layout ▸ notFull) (Nat.lt_of_succ_lt_succ enough) with ⟨next, grownChild, run,
              builtChild, grown⟩
          have filled : Filled middle.layout (height + 1) grownChild := by
            rcases (shown'.below chosen (mem_items_splice.mpr (.inr (.inl first_mem)))).2 with leaf
              | some'
            · cases leaf
            · exact .inr (Nat.le_trans some' grown.fill)
          rcases shows_child shown' keeps.rebuilt.nodup grown.keeps grown.cell
              builtChild filled with
            ⟨after, same, shownAfter, keepsAfter⟩
          have whole : putpAux cmp (fuel + 1) b piece.cell key = some next := by
            have readX : readNode b piece.cell =
                some (nodeOf (height + 1) piece.bytes (splice ⟨item, []⟩ rights lefts)) :=
                shows'.stored
            have placed : getpAux cmp (nodeOf (height + 1) piece.bytes
                (splice ⟨item, []⟩ rights lefts)).keys key 0 =
                some ((lefts.length : Int) - 1, r) := place
            have readAgain : readNode middle piece.cell =
                some (nodeOf (height + 1) between.bytes (splice ⟨chosen, []⟩ behind before)) :=
                cell ▸ shown.stored
            simp only [putpAux, readX, placed, node_internal (Nat.succ_pos height),
              Int.sub_add_cancel, child, readAgain,
              child_at (Nat.succ_pos height), Option.bind_eq_bind, Option.bind_some]
            exact run
          refine ⟨next, after, whole, keeps.layout ▸ built_succ.mpr ⟨_, shownAfter⟩,
            keeps_trans keeps keepsAfter, ?_, ?_, ?_,
            ?_, ?_⟩
          · rw [same, ← cell]
            rfl
          · rw [← roomy, same]
            exact roomy_splice shown' grown.roomy
          · have count := shows_fill shown'
            rw [shows_fill shownAfter, length_splice]
            rw [length_splice] at count
            simp only [List.length_nil] at count ⊢
            omega
          · rw [← keys, keys_at shown', keys_at shownAfter]
            exact inserted_inside grown.inserted front back
          · have around := length_cells_splice shown' shownAfter
            simp only [items_single, List.flatMap_cons, List.flatMap_nil, List.append_nil] at around
            exact counts_trans nodes grown.nodes (by omega)

/-! ## The whole tree -/

/-- The tree holds the keys of `piece`, in the order of the comparison, and no other node is in
memory. The root alone may have few keys; its leftmost leaf is the node that the tree was made
with. -/
structure Represents (cmp : Key → Key → Int) (b : KbTree Key) (height : Nat)
    (piece : Piece Key) : Prop where
  formed : Formed b.layout
  built : Built b.layout b.nodes (height + 1) piece
  top : piece.cell = b.root
  nodup : piece.cells.Nodup
  only : ∀ cell, (b.nodes.read cell).isSome → cell ∈ piece.cells
  fill : 0 < height → 0 < piece.fill
  roomy : piece.roomy = true
  ascending : Ascending cmp piece.keys
  count : b.nKeys = asInt piece.keys.length
  isInt : IsInt b.nNodes

theorem grow_spec (formed : Formed b.layout) (built : Built b.layout b.nodes (height + 1) piece)
    (top : piece.cell = b.root) (nodup : piece.cells.Nodup) (fill : 0 < height → 0 < piece.fill) :
    ∃ next height' between, growRoot b = some next ∧
      Built b.layout next.nodes (height' + 1) between ∧
      between.cell = next.root ∧ next.layout = b.layout ∧ next.nKeys = b.nKeys ∧
      Rebuilt b.nodes next.nodes piece.cells between.cells ∧ between.keys = piece.keys ∧
      between.roomy = piece.roomy ∧
      between.fill < 2 * b.layout.t - 1 ∧ (0 < height' → 0 < between.fill) ∧
      Counts b next piece.cells.length between.cells.length := by
  have atMost := built_fill built
  have degree := formed.degree
  rcases built_succ.mp built with ⟨row, shows'⟩
  have read : readNode b b.root = some (nodeOf height piece.bytes row) := top ▸ shows'.stored
  by_cases full : piece.fill = 2 * b.layout.t - 1
  · have isFull : (nodeOf height piece.bytes row).n = 2 * b.layout.t - 1 := by
      rw [nodeOf_n, ← shows_fill shows']
      exact full
    let raised : KbTree Key :=
      { b with
        nNodes := asInt (b.nNodes + 1)
        nodes := b.nodes.push (nodeOf (height + 1) b.layout.ilen ⟨piece, []⟩)
        root := b.nodes.fresh }
    let above := pieceOf b.layout (height + 1) b.nodes.fresh b.layout.ilen
      (⟨piece, []⟩ : NodeRow Key)
    have alive := shows_alive shows'
    have pushed := rebuilt_push (nodeOf (height + 1) b.layout.ilen
      (⟨piece, []⟩ : NodeRow Key)) alive nodup
    have cells : above.cells = b.nodes.fresh :: piece.cells := by simp [above, pieceOf]
    have shown : Shows raised.layout raised.nodes (height + 1) above
        (splice ⟨piece, []⟩ [] []) := by
      refine ⟨?_, rfl, Nat.zero_le _, fun _ => rfl, fun item member => ?_⟩
      · exact (read_push _ _ _).trans (if_pos rfl)
      · have same : item = piece := by simpa [splice] using member
        rw [same]
        refine ⟨built_of_same _ built fun cell inside => ?_,
          .inr (show b.layout.t - 1 ≤ piece.fill by omega)⟩
        exact (read_push _ _ _).trans (if_neg (Nat.ne_of_lt (alive cell inside)))
    rcases split_spec (b := raised) formed shown (cells ▸ pushed.nodup) full
        (show 0 + 0 < 2 * b.layout.t - 1 by omega) with
      ⟨next, one, middle, two, after, cut, same, shownAfter, keeps, fillOne, fillTwo, keys, roomy,
        nodes, count⟩
    have root : after.cell = next.root := by
      rw [keeps.root, same]
      rfl
    refine ⟨next, height + 1, after, ?_, built_succ.mpr ⟨_, shownAfter⟩, root,
      keeps.layout, keeps.keys,
      rebuilt_trans pushed (cells ▸ keeps.rebuilt), ?_, ?_, ?_, ?_, ?_⟩
    · have topNode : nodeOf (height + 1) b.layout.ilen (⟨piece, []⟩ : NodeRow Key) =
          ⟨b.layout.ilen, true, [], [some b.root]⟩ := by simp [nodeOf, top]
      simp only [raised, topNode, top] at cut
      simp only [growRoot, read, isFull, Option.bind_eq_bind, Option.bind_some, if_true]
      exact cut
    · rw [shows_keys shownAfter, weave_splice, weave_pair, ← keys]
      simp [weaveLefts, weaveRights]
    · rw [same]
      exact (roomy_splice shown roomy).trans rfl
    · rw [shows_fill shownAfter]
      simp [splice]
      omega
    · intro _
      rw [shows_fill shownAfter]
      simp [splice]
    · have raises : Counts b raised piece.cells.length (piece.cells.length + 1) :=
        counts_one_more rfl _
      rw [cells] at count
      rw [count]
      refine counts_trans raises (counts_one_more nodes (piece.cells.length + 1)) ?_
      rw [List.length_cons]
      omega
  · refine ⟨b, height, piece, ?_, built, top, rfl, rfl, rebuilt_refl nodup, rfl,
      rfl, by omega, fill,
      counts_unchanged rfl _⟩
    have notFull : (nodeOf height piece.bytes row).n ≠ 2 * b.layout.t - 1 := by
      rw [nodeOf_n, ← shows_fill shows']
      exact full
    simp [growRoot, read, notFull]

theorem only_rebuilt {nodes after : Store (KbNode Key)} {old new : List Nat}
    (rebuilt : Rebuilt nodes after old new) (only : ∀ cell, (nodes.read cell).isSome → cell ∈ old) :
    ∀ cell, (after.read cell).isSome → cell ∈ new := by
  intro cell present
  by_contra outside
  by_cases before : cell ∈ old
  · rw [rebuilt.gone cell before outside] at present
    cases present
  · rw [rebuilt.kept cell before outside] at present
    exact before (only cell present)

theorem putp_spec (lawful : Lawful cmp) (represents : Represents cmp b height piece) (key : Key) :
    ∃ next height' after, kbPutp cmp b key = some next ∧ Represents cmp next height' after ∧
      next.layout = b.layout ∧ Inserted cmp key piece.keys after.keys ∧
        Counts b next piece.cells.length after.cells.length ∧
        after.cells.length + b.nodes.fresh ≤ piece.cells.length + next.nodes.fresh := by
  rcases grow_spec (b := { b with nKeys := asInt (b.nKeys + 1) }) represents.formed represents.built
    represents.top
    represents.nodup represents.fill with
    ⟨middle, height', between, grow, built, top, layout', nKeys, rebuilt, keys, roomy, room,
      fill, nodes⟩
  have enough : height' < middle.nodes.fresh + 1 := by
    have bound := height_fresh built rebuilt.nodup
    omega
  rcases put_aux_spec lawful key height' (layout' ▸ represents.formed)
    (layout' ▸ built) rebuilt.nodup
    (keys ▸ represents.ascending) (layout' ▸ room) enough with ⟨next, after, run, builtAfter, grown⟩
  have order : Inserted cmp key piece.keys after.keys := keys ▸ grown.inserted
  have whole := rebuilt_trans rebuilt grown.keeps.rebuilt
  refine ⟨next, height', after, ?_, ?_, grown.keeps.layout.trans layout', order, ?_, ?_⟩
  · simp only [kbPutp, grow, Option.bind_eq_bind, Option.bind_some, ← top]
    exact run
  · constructor
    · rw [grown.keeps.layout, layout']
      exact represents.formed
    · exact grown.keeps.layout ▸ builtAfter
    · rw [grown.cell, top, grown.keeps.root]
    · exact whole.nodup
    · exact only_rebuilt whole represents.only
    · exact fun internal => Nat.lt_of_lt_of_le (fill internal) grown.fill
    · rw [grown.roomy, roomy]
      exact represents.roomy
    · exact ascending_inserted represents.ascending order
    · rw [grown.keeps.keys, nKeys, length_inserted order, represents.count, as_int_add_as_int]
      push_cast
      rfl
    · exact grown.nodes.isInt (nodes.isInt represents.isInt)
  · have counts : Counts b middle piece.cells.length between.cells.length :=
      ⟨nodes.isInt, nodes.same⟩
    exact counts_trans counts grown.nodes (by omega)
  · exact rebuilt_length whole fun cell member =>
      alive_bound (built_cells_alive _ builtAfter cell member)

end TWlib.KTree
