import TWlib.KTree
import TWlib.Lib.CellRegion

/-!
# The nodes of a B-tree seen from above

A `Piece` is what the node above has to know of a subtree: where its top is, how many keys that has,
which nodes it is made of and which keys it holds in order. The children of a leaf are empty pieces,
so that leaves and internal nodes are rows of pieces alike.
-/

namespace TWlib.KTree

open TWlib.Lib.CellStore
open TWlib.Lib.MachineInt
open TWlib.Lib.CellRegion
open TWlib.Lib.SeparatedRow

set_option autoImplicit false

variable {Key : Type}

/-- `roomy` tells whether the leftmost leaf has room for a pointer. -/
structure Piece (Key : Type) where
  cell : Nat
  bytes : Nat
  fill : Nat
  roomy : Bool
  cells : List Nat
  keys : List Key

def Piece.empty : Piece Key := ⟨0, 0, 0, false, [], []⟩

@[simp] theorem empty_cells : (Piece.empty : Piece Key).cells = [] := rfl

@[simp] theorem empty_keys : (Piece.empty : Piece Key).keys = [] := rfl

abbrev NodeRow (Key : Type) := Row (Piece Key) Key

/-- What is stored in a node with this row, which is a leaf at height 0. -/
def nodeOf (height bytes : Nat) (row : NodeRow Key) : KbNode Key where
  bytes := bytes
  isInternal := decide (0 < height)
  keys := row.seps
  ptrs := if 0 < height then row.items.map fun item => some item.cell else []

def pieceOf (layout : Layout) (height cell bytes : Nat) (row : NodeRow Key) : Piece Key where
  cell := cell
  bytes := bytes
  fill := row.rest.length
  roomy := if 0 < height then row.first.roomy else decide (layout.offPtr + 8 ≤ bytes)
  cells := cell :: row.items.flatMap Piece.cells
  keys := row.weave Piece.keys

/-- The bounds on the number of keys, for the nodes below the root. -/
def Filled (layout : Layout) (height : Nat) (piece : Piece Key) : Prop :=
  height = 0 ∨ layout.t - 1 ≤ piece.fill

/-- A subtree of this height, all its leaves at the same depth. -/
def Built (layout : Layout) (nodes : Store (KbNode Key)) : Nat → Piece Key → Prop
  | 0, piece => piece = .empty
  | height + 1, piece => ∃ row, nodes.read piece.cell = some (nodeOf height piece.bytes row) ∧
      piece = pieceOf layout height piece.cell piece.bytes row ∧
        row.rest.length ≤ 2 * layout.t - 1 ∧
        (0 < height → piece.bytes = layout.ilen) ∧
          ∀ item ∈ row.items, Built layout nodes height item ∧ Filled layout height item

/-- The sizes that `kb_init` computes leave room for the keys and the pointers of every node. -/
structure Formed (layout : Layout) : Prop where
  degree : 2 ≤ layout.t
  most : layout.n = 2 * layout.t - 1
  keysFit : layout.offPtr = 4 + layout.n * layout.keySize
  ptrsFit : layout.offPtr + 2 * layout.t * 8 ≤ layout.ilen

theorem formed_layout {keySize t : Nat} (degree : 2 ≤ t) : Formed (kbLayout keySize t) where
  degree := degree
  most := rfl
  keysFit := rfl
  ptrsFit := by
    have count : 2 * t - 1 + 1 = 2 * t := by omega
    have spread : (2 * t - 1) * (8 + keySize) = (2 * t - 1) * 8 + (2 * t - 1) * keySize :=
      Nat.mul_add _ _ _
    simp only [kbLayout]
    omega

theorem keys_fit {layout : Layout} (formed : Formed layout) {count : Nat}
    (bound : count ≤ 2 * layout.t - 1) :
    4 + count * layout.keySize ≤ layout.offPtr := by
  rw [formed.keysFit, formed.most]
  exact Nat.add_le_add_left (Nat.mul_le_mul_right _ bound) 4

variable {layout : Layout} {nodes after : Store (KbNode Key)} {height bytes cell : Nat}
  {row other : NodeRow Key} {piece item : Piece Key} {b next : KbTree Key} {node : KbNode Key}

theorem built_cells_alive : ∀ (height : Nat) {piece : Piece Key}, Built layout nodes height piece →
    ∀ cell ∈ piece.cells, (nodes.read cell).isSome := by
  intro height
  induction height with
  | zero =>
      intro piece built cell member
      rw [show piece = .empty from built] at member
      cases member
  | succ height inductionHypothesis =>
      intro piece built cell member
      rcases built with ⟨row, stored, shape, -, -, below⟩
      rw [shape] at member
      rcases List.mem_cons.mp member with rfl | inside
      · rw [stored]
        rfl
      · rcases List.mem_flatMap.mp inside with ⟨item, there, here⟩
        exact inductionHypothesis (below item there).1 cell here

theorem built_of_same : ∀ (height : Nat) {piece : Piece Key}, Built layout nodes height piece →
    (∀ cell ∈ piece.cells, after.read cell = nodes.read cell) →
    Built layout after height piece := by
  intro height
  induction height with
  | zero => exact fun built _ => built
  | succ height inductionHypothesis =>
      intro piece built same
      rcases built with ⟨row, stored, shape, bound, block, below⟩
      have cells : piece.cells = piece.cell :: row.items.flatMap Piece.cells :=
        congrArg Piece.cells shape
      refine ⟨row, ?_, shape, bound, block, fun item member => ⟨?_, (below item member).2⟩⟩
      · rw [same piece.cell (cells ▸ List.mem_cons_self), stored]
      · refine inductionHypothesis (below item member).1 fun cell inside => same cell ?_
        rw [cells]
        exact List.mem_cons_of_mem _ (List.mem_flatMap.mpr ⟨item, member, inside⟩)

theorem built_of_rebuilt {old new : List Nat} (built : Built layout nodes height piece)
    (rebuilt : Rebuilt nodes after old new) (apart : ∀ cell ∈ piece.cells, cell ∉ old) :
    Built layout after height piece := by
  refine built_of_same height built fun cell member => ?_
  have notNew : cell ∉ new := by
    intro inside
    rcases rebuilt.made cell inside with again | fresh
    · exact apart cell member again
    · exact Nat.not_lt.mpr fresh (alive_bound (built_cells_alive height built cell member))
  exact rebuilt.kept cell (apart cell member) notNew

theorem built_fill (built : Built layout nodes (height + 1) piece) :
    piece.fill ≤ 2 * layout.t - 1 := by
  rcases built with ⟨row, -, shape, bound, -, -⟩
  rw [shape]
  exact bound

/-! ## Reading and writing a node that shows a row -/

theorem nodeOf_n : (nodeOf height bytes row).n = row.rest.length := by
  simp [KbNode.n, nodeOf]

theorem nodeOf_ptrs (internal : 0 < height) :
    (nodeOf height bytes row).ptrs = row.items.map fun item => some item.cell := if_pos internal

theorem nodeOf_with (internal : 0 < height) :
    { nodeOf height bytes row with keys := other.seps,
                                   ptrs := other.items.map fun item => some item.cell } =
      nodeOf height bytes other := by
  simp [nodeOf, internal]

theorem nodeOf_keys (ptrs : row.items.map (fun item => some item.cell) = other.items.map fun item =>
    some item.cell) :
    { nodeOf height bytes row with keys := other.seps } = nodeOf height bytes other := by
  simp only [nodeOf, ptrs]

/-- The change of a tree: the pieces are other ones, and nothing else of it is. -/
structure Keeps (b next : KbTree Key) (old new : List Nat) : Prop where
  layout : next.layout = b.layout
  root : next.root = b.root
  keys : next.nKeys = b.nKeys
  rebuilt : Rebuilt b.nodes next.nodes old new

variable {old new newer early late : List Nat}

theorem keeps_refl (nodup : old.Nodup) : Keeps b b old old := ⟨rfl, rfl, rfl, rebuilt_refl nodup⟩

theorem keeps_trans {middle : KbTree Key} (first : Keeps b middle old new)
    (second : Keeps middle next new newer) :
    Keeps b next old newer :=
  ⟨second.layout.trans first.layout, second.root.trans first.root, second.keys.trans first.keys,
    rebuilt_trans first.rebuilt second.rebuilt⟩

theorem keeps_perm (keeps : Keeps b next old new) (sameOld : old.Perm early)
    (sameNew : new.Perm late) :
    Keeps b next early late := ⟨keeps.layout, keeps.root, keeps.keys,
      rebuilt_perm keeps.rebuilt sameOld sameNew⟩

theorem keeps_inside (keeps : Keeps b next old new) (nodup : (early ++ old ++ late).Nodup)
    (alive : ∀ cell ∈ early ++ late, cell < b.nodes.fresh) :
    Keeps b next (early ++ old ++ late) (early ++ new ++ late) :=
  ⟨keeps.layout, keeps.root, keeps.keys, rebuilt_inside keeps.rebuilt nodup alive⟩

/-- How the `int` `n_nodes` goes along when `before` nodes become `after`. -/
structure Counts (b next : KbTree Key) (before after : Nat) : Prop where
  isInt : IsInt b.nNodes → IsInt next.nNodes
  same : asInt (next.nNodes + before) = asInt (b.nNodes + after)

theorem counts_unchanged (unchanged : next.nNodes = b.nNodes) (count : Nat) :
    Counts b next count count where
  isInt holds := unchanged ▸ holds
  same := by rw [unchanged]

theorem counts_one_more (more : next.nNodes = asInt (b.nNodes + 1)) (count : Nat) :
    Counts b next count (count + 1) where
  isInt _ := more ▸ as_int_is_int _
  same := by
    rw [more, as_int_add_as_int]
    congr 1
    omega

theorem counts_one_less (less : next.nNodes = asInt (b.nNodes - 1)) (count : Nat) :
    Counts b next (count + 1) count where
  isInt _ := less ▸ as_int_is_int _
  same := by
    rw [less, as_int_add_as_int]
    congr 1
    omega

theorem counts_trans {middle : KbTree Key} {before between betweenToo after first last : Nat}
    (early : Counts b middle before between) (late : Counts middle next betweenToo after)
    (sizes : last + before + betweenToo = first + between + after) : Counts b next first last where
  isInt holds := late.isInt (early.isInt holds)
  same := by
    have one := as_int_eq_iff.mp early.same
    have two := as_int_eq_iff.mp late.same
    apply as_int_eq_iff.mpr
    omega

theorem write_row_spec (b : KbTree Key) (height bytes : Nat) (row : NodeRow Key)
    (formed : Formed b.layout) (stored : b.nodes.read cell = some node)
    (bound : row.rest.length ≤ 2 * b.layout.t - 1) (block : 0 < height → bytes = b.layout.ilen) :
    writeNode b cell (nodeOf height bytes row) =
      some (b.setNodes (b.nodes.write cell (nodeOf height bytes row))) := by
  have keysFit : 4 + (nodeOf height bytes row).n * b.layout.keySize ≤ b.layout.offPtr := by
    rw [nodeOf_n]
    exact keys_fit formed bound
  have ptrsFit : (nodeOf height bytes row).ptrs = [] ∨
      b.layout.offPtr + (nodeOf height bytes row).ptrs.length * 8 ≤ bytes := by
    by_cases internal : 0 < height
    · have degree := formed.degree
      have room := formed.ptrsFit
      rw [block internal]
      simp only [nodeOf, internal, if_true, List.length_map, length_items]
      omega
    · simp [nodeOf, internal]
  simp only [writeNode, stored, Option.bind_eq_bind, Option.bind_some]
  rw [if_pos ⟨keysFit, ptrsFit⟩]

/-! ## Changing a part of a row -/

/-- A node with the row it shows, over subtrees. -/
structure Shows (layout : Layout) (nodes : Store (KbNode Key)) (height : Nat) (piece : Piece Key)
    (row : NodeRow Key) :
    Prop where
  stored : nodes.read piece.cell = some (nodeOf height piece.bytes row)
  shape : piece = pieceOf layout height piece.cell piece.bytes row
  bound : row.rest.length ≤ 2 * layout.t - 1
  block : 0 < height → piece.bytes = layout.ilen
  below : ∀ item ∈ row.items, Built layout nodes height item ∧ Filled layout height item

theorem built_succ : Built layout nodes (height + 1) piece ↔
    ∃ row, Shows layout nodes height piece row :=
  ⟨fun ⟨row, stored, shape, bound, block, below⟩ => ⟨row, stored, shape, bound, block, below⟩,
    fun ⟨row, shows'⟩ => ⟨row, shows'.stored, shows'.shape, shows'.bound, shows'.block,
      shows'.below⟩⟩

theorem built_pieceOf (stored : nodes.read cell = some (nodeOf height bytes row))
    (bound : row.rest.length ≤ 2 * layout.t - 1) (block : 0 < height → bytes = layout.ilen)
    (below : ∀ item ∈ row.items, Built layout nodes height item ∧ Filled layout height item) :
    Built layout nodes (height + 1) (pieceOf layout height cell bytes row) :=
  built_succ.mpr ⟨row, stored, rfl, bound, block, below⟩

theorem shows_cells (shows' : Shows layout nodes height piece row) :
    piece.cells = piece.cell :: row.items.flatMap Piece.cells := congrArg Piece.cells shows'.shape

theorem shows_keys (shows' : Shows layout nodes height piece row) :
    piece.keys = row.weave Piece.keys :=
  congrArg Piece.keys shows'.shape

theorem shows_fill (shows' : Shows layout nodes height piece row) : piece.fill = row.rest.length :=
  congrArg Piece.fill shows'.shape

theorem shows_alive (shows' : Shows layout nodes height piece row) :
    ∀ cell ∈ piece.cells, cell < nodes.fresh :=
  fun cell member => alive_bound (built_cells_alive (height + 1) (built_succ.mpr ⟨row, shows'⟩)
    cell member)

theorem built_fill_le (built : Built layout nodes (height + 1) piece) :
    piece.fill ≤ piece.keys.length := by
  rcases built_succ.mp built with ⟨row, shows'⟩
  rw [shows_fill shows', shows_keys shows', ← length_seps]
  exact seps_sublist.length_le

theorem built_height (height : Nat) : ∀ {piece : Piece Key}, Built layout nodes height piece →
    height ≤ piece.cells.length := by
  induction height with
  | zero => exact fun _ => Nat.zero_le _
  | succ height inductionHypothesis =>
      intro piece built
      rcases built_succ.mp built with ⟨row, shows'⟩
      have below := inductionHypothesis (shows'.below row.first first_mem).1
      rw [shows_cells shows', Row.items, List.flatMap_cons, List.length_cons, List.length_append]
      omega

/-- No way down is longer than the memory. -/
theorem height_fresh (built : Built layout nodes height piece) (nodup : piece.cells.Nodup) :
    height ≤ nodes.fresh :=
  Nat.le_trans (built_height height built)
    (length_le_fresh nodup fun cell member => alive_bound
      (built_cells_alive height built cell member))

variable {mid changed : NodeRow Key} {lefts : List (Piece Key × Key)}
    {rights : List (Key × Piece Key)}

theorem cells_splice : (splice mid rights lefts).items.flatMap Piece.cells =
    (lefts.flatMap fun entry => entry.1.cells) ++ mid.items.flatMap Piece.cells ++
      rights.flatMap fun entry => entry.2.cells := by
  simp [items_splice, List.flatMap_map]

theorem splice_perm (mid : NodeRow Key) (rights : List (Key × Piece Key))
    (lefts : List (Piece Key × Key)) (cell : Nat) :
    (cell :: (splice mid rights lefts).items.flatMap Piece.cells).Perm
    ((lefts.flatMap fun entry => entry.1.cells) ++ (cell :: mid.items.flatMap Piece.cells) ++
      rights.flatMap fun entry => entry.2.cells) := by
  rw [cells_splice, List.append_assoc, List.append_assoc]
  exact List.perm_middle.symm

theorem mid_nodup (shows' : Shows layout nodes height piece (splice mid rights lefts))
    (nodup : piece.cells.Nodup) :
    (piece.cell :: mid.items.flatMap Piece.cells).Nodup := by
  have perm := splice_perm mid rights lefts piece.cell
  have whole := perm.nodup (shows_cells shows' ▸ nodup)
  exact whole.sublist ((List.sublist_append_right _ _).trans (List.sublist_append_left _ _))

theorem mid_alive (shows' : Shows layout nodes height piece (splice mid rights lefts)) :
    ∀ cell ∈ piece.cell :: mid.items.flatMap Piece.cells, cell < nodes.fresh := by
  intro cell member
  have perm := splice_perm mid rights lefts piece.cell
  refine shows_alive shows' cell (shows_cells shows' ▸ perm.mem_iff.mpr ?_)
  exact List.mem_append_left _ (List.mem_append_right _ member)

theorem items_stay (shows' : Shows layout nodes height piece row)
    (same : ∀ cell ∈ row.items.flatMap Piece.cells, after.read cell = nodes.read cell) :
    ∀ item ∈ row.items, Built layout after height item ∧ Filled layout height item := by
  intro item member
  refine ⟨built_of_same height (shows'.below item member).1 fun cell inside => same cell ?_,
    (shows'.below item member).2⟩
  exact List.mem_flatMap.mpr ⟨item, member, inside⟩

theorem shows_splice (shows' : Shows b.layout b.nodes height piece (splice mid rights lefts))
    (nodup : piece.cells.Nodup) (keeps : Keeps b next (piece.cell :: mid.items.flatMap Piece.cells)
      (piece.cell :: changed.items.flatMap Piece.cells))
    (stored : next.nodes.read piece.cell =
      some (nodeOf height piece.bytes (splice changed rights lefts)))
    (bound : lefts.length + changed.rest.length + rights.length ≤ 2 * b.layout.t - 1)
    (below : ∀ item ∈ changed.items, Built b.layout next.nodes height item ∧
      Filled b.layout height item) :
    ∃ after, after = pieceOf b.layout height piece.cell piece.bytes (splice changed rights lefts) ∧
      Shows b.layout next.nodes height after (splice changed rights lefts) ∧
      Keeps b next piece.cells after.cells := by
  have perm := splice_perm mid rights lefts piece.cell
  have cells := shows_cells shows'
  have apart : ((lefts.flatMap fun entry => entry.1.cells) ++
      (piece.cell :: mid.items.flatMap Piece.cells) ++
      rights.flatMap fun entry => entry.2.cells).Nodup := perm.nodup (cells ▸ nodup)
  have alive : ∀ cell ∈ (lefts.flatMap fun entry => entry.1.cells) ++ rights.flatMap fun entry =>
      entry.2.cells,
      cell < b.nodes.fresh := by
    intro cell member
    refine shows_alive shows' cell (cells ▸ perm.mem_iff.mpr ?_)
    rcases List.mem_append.mp member with front | back
    · exact List.mem_append_left _ (List.mem_append_left _ front)
    · exact List.mem_append_right _ back
  refine ⟨_, rfl, ⟨stored, rfl, ?_, shows'.block, ?_⟩, ?_⟩
  · rwa [length_splice]
  · intro item member
    rcases mem_items_splice.mp member with front | inside | back
    · have there : item ∈ (splice mid rights lefts).items := mem_items_splice.mpr (.inl front)
      refine ⟨built_of_rebuilt (shows'.below item there).1 keeps.rebuilt ?_,
        (shows'.below item there).2⟩
      intro cell here changing
      rcases List.mem_map.mp front with ⟨entry, listed, rfl⟩
      rw [List.append_assoc, List.nodup_append] at apart
      exact apart.2.2 cell (List.mem_flatMap.mpr ⟨entry, listed, here⟩) cell
        (List.mem_append_left _ changing) rfl
    · exact below item inside
    · have there : item ∈ (splice mid rights lefts).items := mem_items_splice.mpr (.inr (.inr back))
      refine ⟨built_of_rebuilt (shows'.below item there).1 keeps.rebuilt ?_,
        (shows'.below item there).2⟩
      intro cell here changing
      rcases List.mem_map.mp back with ⟨entry, listed, rfl⟩
      rw [List.nodup_append] at apart
      exact apart.2.2 cell (List.mem_append_right _ changing) cell (List.mem_flatMap.mpr ⟨entry,
        listed, here⟩) rfl
  · rw [cells]
    exact keeps_perm (keeps_inside keeps apart alive) perm.symm
      (splice_perm changed rights lefts piece.cell).symm

theorem length_cells_splice {others : Store (KbNode Key)} {grown : Piece Key}
    (shows' : Shows layout nodes height piece (splice mid rights lefts))
    (shown : Shows layout others height grown (splice changed rights lefts)) :
    grown.cells.length + (mid.items.flatMap Piece.cells).length =
      piece.cells.length + (changed.items.flatMap Piece.cells).length := by
  rw [shows_cells shows', shows_cells shown, cells_splice, cells_splice]
  simp only [List.length_cons, List.length_append]
  omega

theorem roomy_splice (shows' : Shows layout nodes height piece (splice mid rights lefts))
    (same : changed.first.roomy = mid.first.roomy) :
    (pieceOf layout height piece.cell piece.bytes (splice changed rights lefts)).roomy =
    piece.roomy := by
  have here := congrArg Piece.roomy shows'.shape
  rw [here]
  simp only [pieceOf, first_splice Piece.roomy same]

theorem shows_child {changed : Piece Key}
    (shows' : Shows b.layout b.nodes height piece (splice ⟨item, []⟩ rights lefts))
    (nodup : piece.cells.Nodup) (keeps : Keeps b next item.cells changed.cells)
    (same : changed.cell = item.cell) (built : Built b.layout next.nodes height changed)
    (filled : Filled b.layout height changed) :
    ∃ after, after = pieceOf b.layout height piece.cell piece.bytes
      (splice ⟨changed, []⟩ rights lefts) ∧
      Shows b.layout next.nodes height after (splice ⟨changed, []⟩ rights lefts) ∧
        Keeps b next piece.cells after.cells := by
  have cells := shows_cells shows'
  have unchanged : nodeOf height piece.bytes (splice ⟨changed, []⟩ rights lefts) =
      nodeOf height piece.bytes (splice ⟨item, []⟩ rights lefts) := by
    simp [nodeOf, seps_splice, items_splice, same]
  have apart : piece.cell ∉ item.cells := by
    intro inside
    have whole := cells ▸ nodup
    refine (List.nodup_cons.mp whole).1 (List.mem_flatMap.mpr ⟨item, ?_, inside⟩)
    exact mem_items_splice.mpr (.inr (.inl first_mem))
  have inner : ([piece.cell] ++ item.cells ++ []).Nodup := by
    have whole := cells ▸ nodup
    rw [cells_splice] at whole
    have part := ((List.nodup_cons.mp whole).2.sublist ((List.sublist_append_right _ _).trans
      (List.sublist_append_left _ _)))
    simpa [apart] using part
  have alive : ∀ cell ∈ [piece.cell] ++ ([] : List Nat), cell < b.nodes.fresh := by
    intro cell member
    refine shows_alive shows' cell (cells ▸ ?_)
    simpa using Or.inl (by simpa using member : cell = piece.cell)
  have around : Keeps b next (piece.cell :: item.cells) (piece.cell :: changed.cells) := by
    simpa using keeps_inside keeps inner alive
  refine shows_splice shows' nodup ?_ ?_ ?_ ?_
  · simpa using around
  · rw [unchanged, ← shows'.stored]
    have notNew : piece.cell ∉ changed.cells := by
      intro inside
      have distinct := around.rebuilt.nodup
      exact (List.nodup_cons.mp distinct).1 inside
    exact keeps.rebuilt.kept _ apart notNew
  · have bound := shows'.bound
    rw [length_splice] at bound
    exact bound
  · intro here member
    rw [show here = changed by simpa using member]
    exact ⟨built, filled⟩

end TWlib.KTree
