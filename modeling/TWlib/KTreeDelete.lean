import TWlib.KTreeRebalance

/-!
# Removing a key from a B-tree

The way down of `kb_delp` enters only children with a key to spare. It takes the key from a leaf,
the neighbour of the key from a leaf in its place, or, when there is no such key, the one before its
place in the leaf.
-/

namespace TWlib.KTree

open TWlib.Lib.CellStore
open TWlib.Lib.MachineInt
open TWlib.Lib.CellRegion
open TWlib.Lib.SeparatedRow
open TWlib.Lib.SortedList
open TWlib.Lib.SortedBag

set_option autoImplicit false

variable {Key : Type} {cmp : Key → Key → Int} {key sep middle result : Key}
  {old new front back : List Key} {height fuel : Nat} {row : NodeRow Key}
  {piece item left right : Piece Key} {b next : KbTree Key} {lefts : List (Piece Key × Key)}
  {rights : List (Key × Piece Key)}

/-! ## What is asked for -/

/-- The arguments `k` and `s` of `__kb_delp_aux`. -/
inductive Request (Key : Type) where
  | this (key : Key)
  | last
  | first

def Request.k : Request Key → Option Key
  | .this key => some key
  | .last => none
  | .first => none

def Request.s : Request Key → Nat
  | .this _ => 0
  | .last => 1
  | .first => 2

def Taken (cmp : Key → Key → Int) : Request Key → List Key → Key → List Key → Prop
  | .this key, old, result, new => Removed cmp key old result new ∨ Slipped cmp key old result new
  | .last, old, result, new => old = new ++ [result]
  | .first, old, result, new => old = result :: new

/-- What is asked for belongs between these keys. -/
def Aimed (cmp : Key → Key → Int) : Request Key → List Key → List Key → Prop
  | .this key, front, back => Splits cmp key front back
  | .last, _, back => back = []
  | .first, front, _ => front = []

/-- A key that there is none of, and the way down to it goes out of the keys of a leaf. -/
def Absent (cmp : Key → Key → Int) (request : Request Key) (b : KbTree Key)
    (piece : Piece Key) : Prop :=
  ∃ key, request = .this key ∧ BeforeFirst cmp key b piece.cell ∧
    ∀ other ∈ piece.keys, cmp key other ≠ 0

variable {request : Request Key}

theorem taken_inside (aimed : Aimed cmp request front back)
    (taken : Taken cmp request old result new) :
    Taken cmp request (front ++ old ++ back) result (front ++ new ++ back) := by
  cases request with
  | this key =>
      rcases taken with removed | slipped
      · exact .inl (removed_inside removed front back)
      · exact .inr (slipped_inside slipped aimed.below aimed.above)
  | last =>
      rw [show back = [] from aimed, show old = new ++ [result] from taken]
      simp [Taken]
  | first =>
      rw [show front = [] from aimed, show old = result :: new from taken]
      rfl

theorem taken_length {key : Key} (taken : Taken cmp (.this key) old result new) :
    old.length = new.length + 1 := by
  rcases taken with removed | slipped
  · exact removed_length removed
  · exact slipped_length slipped

theorem taken_ascending {key : Key} (lawful : Lawful cmp) (ascending : Ascending cmp old)
    (taken : Taken cmp (.this key) old result new) : Ascending cmp new := by
  rcases taken with removed | slipped
  · exact ascending_removed lawful ascending removed
  · exact ascending_slipped ascending slipped

theorem aimed_within {fewer less : List Key} (aimed : Aimed cmp request front back)
    (early : fewer <+: front) (late : less <:+ back) : Aimed cmp request fewer less := by
  cases request with
  | this key =>
      exact ⟨fun other member => aimed.below other (early.subset member),
        fun other member => aimed.above other (late.subset member)⟩
  | last => exact List.suffix_nil.mp ((show back = [] from aimed) ▸ late)
  | first => exact List.prefix_nil.mp ((show front = [] from aimed) ▸ early)

theorem apart_inside {key : Key} (splits : Splits cmp key front back)
    (apart : ∀ other ∈ old, cmp key other ≠ 0) :
    ∀ other ∈ front ++ old ++ back, cmp key other ≠ 0 := by
  intro other member
  rcases List.mem_append.mp member with first | behind
  · rcases List.mem_append.mp first with before | inside
    · have below := splits.below other before
      omega
    · exact apart other inside
  · have above := splits.above other behind
    omega

/-- One key less, or the key is not there. -/
def Answers (cmp : Key → Key → Int) (request : Request Key) (b : KbTree Key) (height : Nat)
    (piece : Piece Key) (run : Option (KbTree Key × Key)) : Prop :=
  (∃ next result after, run = some (next, result) ∧ Built b.layout next.nodes (height + 1) after ∧
    Shrunk b next piece after ∧ Taken cmp request piece.keys result after.keys) ∨
    Absent cmp request b piece

theorem before_first_none {x : Nat} (before : BeforeFirst cmp key b x) :
    delpAux cmp fuel b (some x) (some key) 0 = none := by
  induction before generalizing fuel with
  | leaf read isLeaf place =>
      cases fuel with
      | zero => rfl
      | succ fuel =>
          simp only [delpAux, read, place, isLeaf, Option.bind_eq_bind, Option.bind_some]
          rfl
  | descend read isInternal place differ refilled rest inductionHypothesis =>
      cases fuel with
      | zero => rfl
      | succ fuel =>
          simp only [delpAux, read, place, isInternal, if_neg differ, refilled, Option.bind_eq_bind,
            Option.bind_some]
          exact inductionHypothesis

/-! ## In a leaf -/

theorem take_leaf {k : Option Key} {s : Nat} {i r : Int} (formed : Formed b.layout)
    (shows' : Shows b.layout b.nodes 0 piece (splice ⟨.empty, [(sep, .empty)]⟩ rights lefts))
    (nodup : piece.cells.Nodup)
    (place : delpPlace cmp (nodeOf 0 piece.bytes (splice ⟨.empty, [(sep, .empty)]⟩ rights lefts)) k
      s = some (i, r)) (index : (if s = 2 then i + 1 else i) = lefts.length) (fuel : Nat) :
    ∃ next after, delpAux cmp (fuel + 1) b (some piece.cell) k s = some (next, sep) ∧
      Built b.layout next.nodes 1 after ∧
      Shrunk b next piece after ∧ piece.keys = lefts.map Prod.snd ++ sep :: rights.map Prod.fst ∧
        after.keys = lefts.map Prod.snd ++ rights.map Prod.fst := by
  have count := shows_fill shows'
  have bound := shows'.bound
  rw [length_splice, List.length_singleton] at count bound
  let less : NodeRow Key := splice ⟨.empty, []⟩ rights lefts
  have read : readNode b piece.cell = some (nodeOf 0 piece.bytes
      (splice ⟨.empty, [(sep, .empty)]⟩ rights lefts)) :=
    shows'.stored
  have keyRead : (nodeOf 0 piece.bytes (splice ⟨.empty,
      [(sep, .empty)]⟩ rights lefts)).keys[lefts.length]? = some sep :=
    sep_at
  have keys : removeAt lefts.length (nodeOf 0 piece.bytes
      (splice ⟨.empty, [(sep, .empty)]⟩ rights lefts)).keys =
      some less.seps := remove_keys
  have fits : less.rest.length ≤ 2 * b.layout.t - 1 := by
    simp only [less, length_splice, List.length_nil]
    omega
  have write := write_row_spec b 0 piece.bytes less formed shows'.stored fits
    (absurd · (Nat.lt_irrefl 0))
  have run : delpAux cmp (fuel + 1) b (some piece.cell) k s =
      some (b.setNodes (b.nodes.write piece.cell (nodeOf 0 piece.bytes less)), sep) := by
    have inside : ¬ (lefts.length : Int) < 0 := by omega
    simp only [delpAux, read, place, node_leaf, index, Option.bind_eq_bind, Option.bind_some,
      if_neg inside,
      Int.toNat_natCast, keyRead, keys]
    exact (congrArg (Option.bind · _) write).trans rfl
  have keeps : Keeps b (b.setNodes (b.nodes.write piece.cell (nodeOf 0 piece.bytes less)))
      (piece.cell :: (⟨.empty, [(sep, .empty)]⟩ : NodeRow Key).items.flatMap Piece.cells)
      (piece.cell :: (⟨.empty, []⟩ : NodeRow Key).items.flatMap Piece.cells) :=
    ⟨rfl, rfl, rfl, rebuilt_write shows'.stored List.mem_cons_self (by simp)⟩
  have stored : (b.nodes.write piece.cell (nodeOf 0 piece.bytes less)).read piece.cell =
      some (nodeOf 0 piece.bytes less) := by
    rw [read_write shows'.stored, if_pos rfl]
  have leaves : ∀ item ∈ (⟨.empty, []⟩ : NodeRow Key).items,
      Built b.layout (b.nodes.write piece.cell (nodeOf 0 piece.bytes less)) 0 item ∧
      Filled b.layout 0 item := by
    intro item member
    exact ⟨List.mem_singleton.mp member, .inl rfl⟩
  rcases shows_splice shows' nodup keeps stored (by simp; omega) leaves with ⟨after, same,
    shown, keepsAfter⟩
  refine ⟨_, after, run, built_succ.mpr ⟨_, shown⟩, ⟨keepsAfter, ?_, ?_, ?_, rfl, ?_⟩, ?_, ?_⟩
  · rw [same]
    rfl
  · rw [same]
    exact roomy_splice shows' rfl
  · rw [shows_fill shown, count, length_splice, List.length_nil]
    omega
  · have around := length_cells_splice shows' shown
    simp at around
    omega
  · simp [leaf_keys shows', seps_splice]
  · simp [leaf_keys shown, seps_splice]

theorem leaf_items {mid : NodeRow Key} {nodes : Store (KbNode Key)} {layout : Layout}
    (shows' : Shows layout nodes 0 piece (splice mid rights lefts)) :
    ∀ item ∈ mid.items, item = .empty := fun item member =>
  (shows'.below item (mem_items_splice.mpr (.inr (.inl member)))).1

theorem delp_leaf (lawful : Lawful cmp) (formed : Formed b.layout)
    (shows' : Shows b.layout b.nodes 0 piece row) (nodup : piece.cells.Nodup)
    (ascending : Ascending cmp piece.keys) (some' : request.s ≠ 0 → 0 < piece.fill) (fuel : Nat) :
    Answers cmp request b 0 piece (delpAux cmp (fuel + 1) b (some piece.cell) request.k
      request.s) := by
  have count := shows_fill shows'
  cases request with
  | last =>
      have more : 0 < row.rest.length := count ▸ some' (by simp [Request.s])
      rcases exists_splice_pair (row.rest.length - 1) row (by omega) with ⟨lefts, left, sep, right,
        rights, size, rfl⟩
      have empty := leaf_items shows'
      obtain rfl := empty left first_mem
      obtain rfl := empty right (by simp)
      rw [length_splice, List.length_singleton] at size more
      have none' : rights = [] := List.length_eq_zero_iff.mp (by omega)
      subst none'
      have place : delpPlace cmp (nodeOf 0 piece.bytes (splice ⟨.empty, [(sep, .empty)]⟩ [] lefts))
          none 1 =
          some ((lefts.length : Int), 0) := by
        simp [delpPlace, nodeOf_n, length_splice, node_leaf]
      rcases take_leaf formed shows' nodup place rfl fuel with ⟨next, after, run, built, shrunk,
        keys, keys'⟩
      exact .inl ⟨next, sep, after, run, built, shrunk, by simp [Taken, keys, keys']⟩
  | first =>
      have more : 0 < row.rest.length := count ▸ some' (by simp [Request.s])
      rcases exists_splice_pair 0 row more with ⟨lefts, left, sep, right, rights, size, rfl⟩
      have empty := leaf_items shows'
      obtain rfl := empty left first_mem
      obtain rfl := empty right (by simp)
      have none' : lefts = [] := List.length_eq_zero_iff.mp size
      subst none'
      have place : delpPlace cmp (nodeOf 0 piece.bytes (splice ⟨.empty, [(sep, .empty)]⟩ rights []))
          none 2 =
          some (-1, 0) := rfl
      rcases take_leaf formed shows' nodup place rfl fuel with ⟨next, after, run, built, shrunk,
        keys, keys'⟩
      exact .inl ⟨next, sep, after, run, built, shrunk, by simp [Taken, keys, keys']⟩
  | this key =>
      rcases getp_aux_spec lawful (ascending_seps shows' ascending) key 0 with ⟨i, r,
        search, looked⟩
      have place : delpPlace cmp (nodeOf 0 piece.bytes row) (some key) 0 = some (i, r) := search
      cases looked with
      | @found lefts left here right rights shape equal below =>
          subst shape
          have empty := leaf_items shows'
          obtain rfl := empty left first_mem
          obtain rfl := empty right (by simp)
          rcases take_leaf formed shows' nodup place rfl fuel with ⟨next, after, run, built, shrunk,
            keys, keys'⟩
          refine .inl ⟨next, here, after, run, built, shrunk,
            .inl ⟨_, here, _, keys, equal, .inl rfl, ?_⟩⟩
          rw [keys']
          exact renamed_refl _
      | @absent lefts item rights r shape below above differ =>
          subst shape
          rcases List.eq_nil_or_concat lefts with rfl | ⟨front, entry, rfl⟩
          · refine .inr ⟨key, rfl, .leaf shows'.stored node_leaf place, ?_⟩
            · rcases leaf_apart lawful ascending shows' below above with ⟨splits, whole⟩
              exact whole ▸ splits_apart splits
          · rw [List.concat_eq_append] at *
            rcases entry with ⟨left, sep⟩
            rw [splice_before] at *
            have empty := leaf_items shows'
            obtain rfl := empty left first_mem
            obtain rfl := empty item (by simp)
            have index : (if 0 =
                2 then (((front ++ [((.empty : Piece Key), sep)]).length : Int) - 1) + 1 else
                ((front ++ [((.empty : Piece Key), sep)]).length : Int) - 1) =
                front.length := by simp
            rcases take_leaf formed shows' nodup place index fuel with ⟨next, after, run, built,
              shrunk, keys, keys'⟩
            refine .inl ⟨next, sep, after, run, built, shrunk, .inr ⟨_, _, keys, keys', ?_, above⟩⟩
            intro other member
            exact below other (by simpa using member)

/-! ## Below a node -/

theorem place_below (lawful : Lawful cmp) (shows' : Shows b.layout b.nodes (height + 1) piece row)
    (ascending : Ascending cmp piece.keys) (some' : 0 < piece.fill) (request : Request Key) :
    (∃ lefts left here right rights key, request = .this key ∧
      row = splice ⟨left, [(here, right)]⟩ rights lefts ∧
      cmp key here = 0 ∧
        delpPlace cmp (nodeOf (height + 1) piece.bytes row) request.k request.s =
        some ((lefts.length : Int), 0)) ∨
      ∃ lefts item rights r, row = splice ⟨item, []⟩ rights lefts ∧ r ≠ 0 ∧
        delpPlace cmp (nodeOf (height + 1) piece.bytes row) request.k request.s =
        some ((lefts.length : Int) - 1, r) ∧
        Aimed cmp request (weaveLefts Piece.keys lefts) (weaveRights Piece.keys rights) := by
  have count := shows_fill shows'
  cases request with
  | last =>
      rcases exists_splice row.rest.length row (Nat.le_refl _) with ⟨lefts, item, rights, size, rfl⟩
      rw [length_splice, List.length_nil] at size
      have none' : rights = [] := List.length_eq_zero_iff.mp (by omega)
      subst none'
      refine .inr ⟨lefts, item, [], 1, rfl, by decide, ?_, rfl⟩
      simp [delpPlace, Request.s, nodeOf_n, length_splice, node_internal]
  | first =>
      rcases exists_splice 0 row (Nat.zero_le _) with ⟨lefts, item, rights, size, rfl⟩
      have none' : lefts = [] := List.length_eq_zero_iff.mp size
      subst none'
      refine .inr ⟨[], item, rights, -1, rfl, by decide, ?_, rfl⟩
      simp [delpPlace, Request.s, node_internal]
  | this key =>
      rcases getp_aux_spec lawful (ascending_seps shows' ascending) key 0 with ⟨i, r,
        search, looked⟩
      have place : delpPlace cmp (nodeOf (height + 1) piece.bytes row) (some key) 0 = some (i, r) :=
        search
      cases looked with
      | @found lefts left here right rights shape equal below =>
          exact .inl ⟨lefts, left, here, right, rights, key, rfl, shape, equal, place⟩
      | @absent lefts item rights r shape below above differ =>
          subst shape
          rcases sides_strict lawful ascending shows' below above with ⟨front, back, -⟩
          refine .inr ⟨lefts, item, rights, r, rfl, ?_, place, front, back⟩
          rcases differ with apart | ⟨rfl, rfl, -⟩
          · exact apart
          · rw [count] at some'
            simp [splice] at some'

theorem shrunk_child {changed : Piece Key}
    (shows' : Shows b.layout b.nodes (height + 1) piece (splice ⟨item, []⟩ rights lefts))
    (nodup : piece.cells.Nodup) (enough : b.layout.t ≤ item.fill)
    (built : Built b.layout next.nodes (height + 1) changed) (shrunk : Shrunk b next item changed) :
    ∃ after, Shows b.layout next.nodes (height + 1) after (splice ⟨changed, []⟩ rights lefts) ∧
      Shrunk b next piece after ∧
      after.fill = piece.fill := by
  have filled : Filled b.layout (height + 1) changed := by
    have less := shrunk.fill
    exact .inr (by omega)
  rcases shows_child shows' nodup shrunk.keeps shrunk.cell built filled with ⟨after, isAfter,
    shown, keeps⟩
  have same : after.fill = piece.fill := by
    rw [shows_fill shown, shows_fill shows', length_splice, length_splice]
  refine ⟨after, shown, ⟨keeps, ?_, ?_, by omega, shrunk.nodes, ?_⟩, same⟩
  · rw [isAfter]
    rfl
  · rw [isAfter]
    exact roomy_splice shows' shrunk.roomy
  · have around := length_cells_splice shows' shown
    have inside := shrunk.cells
    simp only [items_single, List.flatMap_cons, List.flatMap_nil, List.append_nil] at around
    omega

/-- `__KB_KEY(key_t, x)[i] = …;` for a node whose subtrees stay. -/
theorem key_spec (middle : Key) (formed : Formed b.layout)
    (shows' : Shows b.layout b.nodes (height + 1) piece
      (splice ⟨left, [(sep, right)]⟩ rights lefts))
    (nodup : piece.cells.Nodup) :
    ∃ next after, setKey b piece.cell lefts.length middle = some next ∧
      Shows b.layout next.nodes (height + 1) after (splice ⟨left, [(middle, right)]⟩ rights lefts) ∧
        Shrunk b next piece after ∧ after.fill = piece.fill := by
  have bound := shows'.bound
  rw [length_splice] at bound
  let written := nodeOf (height + 1) piece.bytes (splice ⟨left, [(middle, right)]⟩ rights lefts)
  have run := set_key_spec b middle formed (Eq.refl left.cell)
    (Eq.refl right.cell) shows'.stored bound
    (shows'.block (Nat.succ_pos _))
  have stored : (b.nodes.write piece.cell written).read piece.cell = some written := by
    rw [read_write shows'.stored, if_pos rfl]
  have distinct := mid_nodup shows' nodup
  have keeps : Keeps b (b.setNodes (b.nodes.write piece.cell written))
      (piece.cell :: (⟨left, [(sep, right)]⟩ : NodeRow Key).items.flatMap Piece.cells)
      (piece.cell :: (⟨left, [(middle, right)]⟩ : NodeRow Key).items.flatMap Piece.cells) :=
    ⟨rfl, rfl, rfl, rebuilt_write shows'.stored List.mem_cons_self distinct⟩
  have below : ∀ item ∈ (⟨left, [(middle, right)]⟩ : NodeRow Key).items,
      Built b.layout (b.nodes.write piece.cell written) (height + 1) item ∧
      Filled b.layout (height + 1) item := by
    intro item member
    have inside := shows'.below item (mem_items_splice.mpr (.inr (.inl member)))
    refine ⟨built_of_same _ inside.1 fun cell here => ?_, inside.2⟩
    have apart : cell ≠ piece.cell := by
      rintro rfl
      exact (List.nodup_cons.mp distinct).1 (List.mem_flatMap.mpr ⟨item, member, here⟩)
    rw [read_write shows'.stored, if_neg apart]
  rcases shows_splice shows' nodup keeps stored bound below with ⟨after, isAfter, shown, keepsAfter⟩
  have same : after.fill = piece.fill := by
    rw [shows_fill shown, shows_fill shows', length_splice, length_splice]
    rfl
  refine ⟨_, after, run, shown, ⟨keepsAfter, ?_, ?_, by omega, rfl, ?_⟩, same⟩
  · rw [isAfter]
    rfl
  · rw [isAfter]
    exact roomy_splice shows' rfl
  · have around := length_cells_splice shows' shown
    rw [pair_cells, pair_cells] at around
    omega

/-! ## The way down -/

/-- What is known of the subtrees when the way down enters a node above them. -/
def Deletes (cmp : Key → Key → Int) (height fuel : Nat) : Prop :=
  ∀ {b : KbTree Key} {piece : Piece Key} (request : Request Key), Formed b.layout →
    Built b.layout b.nodes (height + 1) piece → piece.cells.Nodup → Ascending cmp piece.keys →
      0 < piece.fill →
      Answers cmp request b height piece (delpAux cmp fuel b (some piece.cell) request.k request.s)

theorem item_nodup {nodes : Store (KbNode Key)} {layout : Layout}
    (shows' : Shows layout nodes height piece (splice ⟨item, []⟩ rights lefts))
    (nodup : piece.cells.Nodup) :
    item.cells.Nodup := by
  have distinct := mid_nodup shows' nodup
  simpa using (List.nodup_cons.mp distinct).2

theorem delp_child (deletes : Deletes cmp height fuel) (formed : Formed b.layout)
    (shows' : Shows b.layout b.nodes (height + 1) piece (splice ⟨item, []⟩ rights lefts))
    (nodup : piece.cells.Nodup) (inner : Ascending cmp item.keys) (enough : b.layout.t ≤ item.fill)
    (request : Request Key) :
    (∃ next result changed after, delpAux cmp fuel b (some item.cell) request.k request.s =
      some (next, result) ∧
      Shows b.layout next.nodes (height + 1) after (splice ⟨changed, []⟩ rights lefts) ∧
      Shrunk b next piece after ∧
      after.fill = piece.fill ∧ Taken cmp request item.keys result changed.keys) ∨
      Absent cmp request b item := by
  have degree := formed.degree
  have there := (shows'.below item (mem_items_splice.mpr (.inr (.inl first_mem)))).1
  rcases deletes request formed there (item_nodup shows' nodup) inner (by omega) with
    ⟨next, result, changed, run, built, shrunk, taken⟩ | absent
  · rcases shrunk_child shows' nodup enough built shrunk with ⟨after, shown, whole, same⟩
    exact .inl ⟨next, result, changed, after, run, shown, whole, same, taken⟩
  · exact .inr absent

theorem delp_below (deletes : Deletes cmp height fuel) (formed : Formed b.layout)
    (shows' : Shows b.layout b.nodes (height + 1) piece (splice ⟨item, []⟩ rights lefts))
    (nodup : piece.cells.Nodup) (ascending : Ascending cmp piece.keys) (some' : 0 < piece.fill)
    {r : Int} (differ : r ≠ 0)
      (place : delpPlace cmp (nodeOf (height + 1) piece.bytes (splice ⟨item, []⟩ rights lefts))
        request.k request.s =
      some ((lefts.length : Int) - 1, r))
    (aimed : Aimed cmp request (weaveLefts Piece.keys lefts) (weaveRights Piece.keys rights)) :
    Answers cmp request b (height + 1) piece (delpAux cmp (fuel + 1) b (some piece.cell) request.k
      request.s) := by
  rcases refill_spec formed shows' nodup some' with
    ⟨middle, between, before, chosen, behind, refill', shown, enough, refilled⟩
  have read : readNode b piece.cell = some (nodeOf (height + 1) piece.bytes
    (splice ⟨item, []⟩ rights lefts)) := shows'.stored
  have run : delpAux cmp (fuel + 1) b (some piece.cell) request.k request.s =
      delpAux cmp fuel middle (some chosen.cell) request.k request.s := by
    simp only [delpAux, read, place, node_internal (Nat.succ_pos height), Option.bind_eq_bind,
      Option.bind_some,
      if_neg differ, Int.sub_add_cancel, refill']
    rfl
  have layout' := refilled.shrunk.keeps.layout
  have shown' : Shows middle.layout middle.nodes (height + 1) between
    (splice ⟨chosen, []⟩ behind before) := layout' ▸ shown
  have aimed' := aimed_within aimed refilled.front refilled.back
  have whole := keys_at shown'
  have inner : Ascending cmp chosen.keys := by
    have order : Ascending cmp between.keys := refilled.keys ▸ ascending
    rw [whole] at order
    exact order.sublist ((List.sublist_append_right _ _).trans (List.sublist_append_left _ _))
  rcases delp_child deletes (layout' ▸ formed) shown' refilled.shrunk.keeps.rebuilt.nodup inner
    (layout' ▸ enough)
    request with ⟨next, result, changed, after, below, shownAfter, shrunk, same, taken⟩ | ⟨key, rfl,
      before', apart⟩
  · refine .inl ⟨next, result, after, run.trans below, layout' ▸ built_succ.mpr ⟨_, shownAfter⟩,
      shrunk_trans refilled.shrunk shrunk same, ?_⟩
    rw [← refilled.keys, whole, keys_at shownAfter]
    exact taken_inside aimed' taken
  · refine .inr ⟨key, rfl, .descend read (node_internal (Nat.succ_pos height)) place differ ?_
      before', ?_⟩
    · rw [Int.sub_add_cancel]
      exact refill'
    · rw [← refilled.keys, whole]
      exact apart_inside aimed' apart

theorem removed_replaced (equal : cmp key sep = 0) (front old mid back : List Key) :
    Taken cmp (.this key) (front ++ (old ++ sep :: mid) ++ back) sep
    (front ++ (old ++ mid) ++ back) := by
  refine .inl ⟨front ++ old, sep, mid ++ back, by simp, equal, .inl rfl, ?_⟩
  have same : Renamed cmp key (front ++ (old ++ mid) ++ back) (front ++ (old ++ mid) ++ back) :=
    renamed_refl _
  simpa using same

theorem keys_pair {nodes : Store (KbNode Key)} {layout : Layout}
    (shows' : Shows layout nodes height piece (splice ⟨left, [(sep, right)]⟩ rights lefts)) :
    piece.keys = weaveLefts Piece.keys lefts ++ (left.keys ++ sep :: right.keys) ++
    weaveRights Piece.keys rights := by
  rw [shows_keys shows', weave_splice, weave_pair]

/-- A key of a node, with the last key of its left subtree in its place. -/
theorem delp_from_left (deletes : Deletes cmp height fuel) (formed : Formed b.layout)
    (shows' : Shows b.layout b.nodes (height + 1) piece
      (splice ⟨left, [(sep, right)]⟩ rights lefts)) (nodup : piece.cells.Nodup)
    (ascending : Ascending cmp piece.keys) (equal : cmp key sep = 0)
    (enough : b.layout.t ≤ left.fill) :
    ∃ middle next last after, delpAux cmp fuel b (some left.cell) none 1 = some (middle, last) ∧
      setKey middle piece.cell lefts.length last = some next ∧
      Built b.layout next.nodes (height + 2) after ∧
      Shrunk b next piece after ∧ Taken cmp (.this key) piece.keys sep after.keys := by
  have whole := keys_pair shows'
  rw [← splice_next] at shows'
  have inner : Ascending cmp left.keys := by
    rw [keys_at shows'] at ascending
    exact ascending.sublist ((List.sublist_append_right _ _).trans (List.sublist_append_left _ _))
  rcases delp_child deletes formed shows' nodup inner enough .last with
    ⟨middle, last, changed, between, below, shown, shrunk, same, taken⟩ | absent
  · have layout' := shrunk.keeps.layout
    rw [splice_next] at shown
    rcases key_spec last (layout' ▸ formed) (layout' ▸ shown) shrunk.keeps.rebuilt.nodup with
      ⟨next, after, set, shownAfter, shrunk', same'⟩
    refine ⟨middle, next, last, after, below, shrunk.cell ▸ set,
      layout' ▸ built_succ.mpr ⟨_, shownAfter⟩,
      shrunk_trans shrunk shrunk' same', ?_⟩
    have keys : left.keys = changed.keys ++ [last] := taken
    have removed := removed_replaced equal (weaveLefts Piece.keys lefts) left.keys right.keys
      (weaveRights Piece.keys rights)
    rw [whole, keys_pair shownAfter]
    rw [show changed.keys ++ last :: right.keys = left.keys ++ right.keys by simp [keys]]
    exact removed
  · rcases absent with ⟨_, impossible, -⟩
    cases impossible

/-- A key of a node, with the first key of its right subtree in its place. -/
theorem delp_from_right (deletes : Deletes cmp height fuel) (formed : Formed b.layout)
    (shows' : Shows b.layout b.nodes (height + 1) piece
      (splice ⟨left, [(sep, right)]⟩ rights lefts)) (nodup : piece.cells.Nodup)
    (ascending : Ascending cmp piece.keys) (equal : cmp key sep = 0)
    (enough : b.layout.t ≤ right.fill) :
    ∃ middle next first after, delpAux cmp fuel b (some right.cell) none 2 = some (middle, first) ∧
      setKey middle piece.cell lefts.length first = some next ∧
      Built b.layout next.nodes (height + 2) after ∧
      Shrunk b next piece after ∧ Taken cmp (.this key) piece.keys sep after.keys := by
  have whole := keys_pair shows'
  rw [← splice_before] at shows'
  have inner : Ascending cmp right.keys := by
    rw [keys_at shows'] at ascending
    exact ascending.sublist ((List.sublist_append_right _ _).trans (List.sublist_append_left _ _))
  rcases delp_child deletes formed shows' nodup inner enough .first with
    ⟨middle, first, changed, between, below, shown, shrunk, same, taken⟩ | absent
  · have layout' := shrunk.keeps.layout
    rw [splice_before] at shown
    rcases key_spec first (layout' ▸ formed) (layout' ▸ shown) shrunk.keeps.rebuilt.nodup with
      ⟨next, after, set, shownAfter, shrunk', same'⟩
    refine ⟨middle, next, first, after, below, shrunk.cell ▸ set,
      layout' ▸ built_succ.mpr ⟨_, shownAfter⟩,
      shrunk_trans shrunk shrunk' same', ?_⟩
    have keys : right.keys = first :: changed.keys := taken
    have removed := removed_replaced equal (weaveLefts Piece.keys lefts) left.keys right.keys
      (weaveRights Piece.keys rights)
    rw [whole, keys_pair shownAfter, ← keys]
    exact removed
  · rcases absent with ⟨_, impossible, -⟩
    cases impossible

/-- The merge around a key of a node puts the key that was asked for in its place, which the rest of
the way down finds again. -/
theorem delp_joined (lawful : Lawful cmp) (deletes : Deletes cmp height fuel)
    (formed : Formed b.layout) (shows' : Shows b.layout b.nodes (height + 1) piece
      (splice ⟨left, [(sep, right)]⟩ rights lefts)) (nodup : piece.cells.Nodup)
    (ascending : Ascending cmp piece.keys) (equal : cmp key sep = 0)
    (fewLeft : left.fill = b.layout.t - 1) (fewRight : right.fill = b.layout.t - 1) :
    ∃ middle chosen next result after, kbJoin b piece.cell lefts.length key =
      some (middle, chosen) ∧
      delpAux cmp fuel middle (some chosen) (some key) 0 = some (next, result) ∧
      Built b.layout next.nodes (height + 2) after ∧ Shrunk b next piece after ∧
        Taken cmp (.this key) piece.keys result after.keys := by
  have whole := keys_pair shows'
  rcases join_shrunk key formed shows' nodup fewLeft fewRight with ⟨middle, between, chosen, join,
    shown, enough, shrunk, keys⟩
  have layout' := shrunk.keeps.layout
  have shown' : Shows middle.layout middle.nodes (height + 1) between
    (splice ⟨chosen, []⟩ rights lefts) := layout' ▸ shown
  have renamed : Renamed cmp key (left.keys ++ sep :: right.keys) chosen.keys := by
    rw [keys]
    exact renamed_append (renamed_refl _) (.cons (.inr ⟨rfl, equal⟩) (renamed_refl _))
  have inner : Ascending cmp chosen.keys := by
    rw [whole] at ascending
    exact ascending_renamed lawful (ascending.sublist ((List.sublist_append_right _ _).trans
      (List.sublist_append_left _ _))) renamed
  have there : key ∈ chosen.keys := by
    rw [keys]
    exact List.mem_append_right _ List.mem_cons_self
  rcases delp_child deletes (layout' ▸ formed) shown' shrunk.keeps.rebuilt.nodup inner
      (layout' ▸ enough) (.this key) with
    ⟨next, result, changed, after, below, shownAfter, shrunk', same, taken⟩ | absent
  · refine ⟨middle, chosen.cell, next, result, after, join, below,
      layout' ▸ built_succ.mpr ⟨_, shownAfter⟩,
      shrunk_trans shrunk shrunk' same, ?_⟩
    rw [whole, keys_at shownAfter]
    rcases taken with removed | slipped
    · exact .inl (removed_inside (removed_renamed renamed removed) _ _)
    · have none' := List.find?_eq_none.mp (slipped_absent slipped) key there
      simp [self_zero lawful] at none'
  · rcases absent with ⟨_, same, -, apart⟩
    cases same
    exact absurd (self_zero lawful key) (apart key there)

theorem delp_found (lawful : Lawful cmp) (deletes : Deletes cmp height fuel)
    (formed : Formed b.layout) (shows' : Shows b.layout b.nodes (height + 1) piece
      (splice ⟨left, [(sep, right)]⟩ rights lefts)) (nodup : piece.cells.Nodup)
    (ascending : Ascending cmp piece.keys) (equal : cmp key sep = 0)
    (place : delpPlace cmp (nodeOf (height + 1) piece.bytes
      (splice ⟨left, [(sep, right)]⟩ rights lefts)) (some key) 0 =
      some ((lefts.length : Int), 0)) :
    Answers cmp (.this key) b (height + 1) piece (delpAux cmp (fuel + 1) b (some piece.cell)
      (some key) 0) := by
  have inLeft := shows'.below left (mem_items_splice.mpr (.inr (.inl first_mem)))
  have inRight := shows'.below right (mem_items_splice.mpr (.inr (.inl (by simp))))
  rcases built_succ.mp inLeft.1 with ⟨one, shownLeft⟩
  rcases built_succ.mp inRight.1 with ⟨two, shownRight⟩
  have read : readNode b piece.cell =
      some (nodeOf (height + 1) piece.bytes (splice ⟨left, [(sep, right)]⟩ rights lefts)) :=
      shows'.stored
  have toLeft : childAt (nodeOf (height + 1) piece.bytes
      (splice ⟨left, [(sep, right)]⟩ rights lefts)) lefts.length =
      some left.cell := child_left (Nat.succ_pos _)
  have toRight : childAt (nodeOf (height + 1) piece.bytes
      (splice ⟨left, [(sep, right)]⟩ rights lefts)) (lefts.length + 1) =
      some right.cell := child_right (Nat.succ_pos _)
  have sizeLeft := child_size_at toLeft shownLeft
  have sizeRight := child_size_at toRight shownRight
  have internal : (nodeOf (height + 1) piece.bytes
      (splice ⟨left, [(sep, right)]⟩ rights lefts)).isInternal = true :=
    node_internal (Nat.succ_pos height)
  have degree := formed.degree
  by_cases richLeft : b.layout.t ≤ left.fill
  · have found : delpFound b (nodeOf (height + 1) piece.bytes
        (splice ⟨left, [(sep, right)]⟩ rights lefts)) lefts.length =
        some .fromLeft := by
      simp [delpFound, sizeLeft, richLeft]
    rcases delp_from_left deletes formed shows' nodup ascending equal richLeft with
      ⟨middle, next, last, after, below, set, built, shrunk, taken⟩
    refine .inl ⟨next, sep, after, ?_, built, shrunk, taken⟩
    simp [delpAux, read, place, internal, found, node_sep_at, toLeft, below, set]
  by_cases richRight : b.layout.t ≤ right.fill
  · have found : delpFound b (nodeOf (height + 1) piece.bytes
        (splice ⟨left, [(sep, right)]⟩ rights lefts)) lefts.length =
        some .fromRight := by
      simp [delpFound, sizeLeft, sizeRight, richLeft, richRight]
    rcases delp_from_right deletes formed shows' nodup ascending equal richRight with
      ⟨middle, next, first, after, below, set, built, shrunk, taken⟩
    refine .inl ⟨next, sep, after, ?_, built, shrunk, taken⟩
    simp [delpAux, read, place, internal, found, node_sep_at, toRight, below, set]
  have fewLeft : left.fill = b.layout.t - 1 := by
    rcases inLeft.2 with leaf | enough
    · cases leaf
    · omega
  have fewRight : right.fill = b.layout.t - 1 := by
    rcases inRight.2 with leaf | enough
    · cases leaf
    · omega
  have found : delpFound b (nodeOf (height + 1) piece.bytes
      (splice ⟨left, [(sep, right)]⟩ rights lefts)) lefts.length =
      some .join := by
    have fewer : ¬ b.layout.t ≤ b.layout.t - 1 := by omega
    simp [delpFound, sizeLeft, sizeRight, fewLeft, fewRight, fewer]
  rcases delp_joined lawful deletes formed shows' nodup ascending equal fewLeft fewRight with
    ⟨middle, chosen, next, result, after, join, below, built, shrunk, taken⟩
  refine .inl ⟨next, result, after, ?_, built, shrunk, taken⟩
  simp [delpAux, read, place, internal, found, join, below]

theorem delp_aux_spec (lawful : Lawful cmp) (height : Nat) : ∀ {fuel : Nat}, height < fuel →
    Deletes cmp height fuel := by
  induction height with
  | zero =>
      intro fuel enough b piece request formed built nodup ascending some'
      rcases built_succ.mp built with ⟨row, shows'⟩
      cases fuel with
      | zero => cases enough
      | succ fuel => exact delp_leaf lawful formed shows' nodup ascending (fun _ => some') fuel
  | succ height inductionHypothesis =>
      intro fuel enough b piece request formed built nodup ascending some'
      rcases built_succ.mp built with ⟨row, shows'⟩
      cases fuel with
      | zero => cases enough
      | succ fuel =>
          have deletes : Deletes cmp height fuel :=
            inductionHypothesis (Nat.lt_of_succ_lt_succ enough)
          rcases place_below lawful shows' ascending some' request with
            ⟨lefts, left, here, right, rights, key, rfl, rfl, equal, place⟩ |
              ⟨lefts, item, rights, r, rfl, differ, place, aimed⟩
          · exact delp_found lawful deletes formed shows' nodup ascending equal place
          · exact delp_below deletes formed shows' nodup ascending some' differ place aimed

/-! ## The whole tree -/

/-- A root without keys is taken away, its child is the root then. -/
theorem shrink_spec {piece : Piece Key} (built : Built b.layout b.nodes (height + 1) piece)
    (top : piece.cell = b.root) (nodup : piece.cells.Nodup) (formed : Formed b.layout) :
    ∃ next height' after, shrinkRoot b = some next ∧ Built b.layout next.nodes (height' + 1) after ∧
      after.cell = next.root ∧ next.layout = b.layout ∧ next.nKeys = b.nKeys ∧
      Rebuilt b.nodes next.nodes piece.cells after.cells ∧ after.keys = piece.keys ∧
      after.roomy = piece.roomy ∧
      (0 < height' → 0 < after.fill) ∧ Counts b next piece.cells.length after.cells.length ∧
      after.cells.length ≤ piece.cells.length := by
  rcases built_succ.mp built with ⟨row, shows'⟩
  have count := shows_fill shows'
  have read : readNode b b.root = some (nodeOf height piece.bytes row) := top ▸ shows'.stored
  by_cases empty : piece.fill = 0 ∧ 0 < height
  · rcases empty with ⟨none', internal⟩
    rcases row with ⟨child, rest⟩
    have alone : rest = [] := List.length_eq_zero_iff.mp (count ▸ none')
    subst alone
    have below := shows'.below child first_mem
    have degree := formed.degree
    obtain ⟨height', rfl⟩ : ∃ height', height = height' + 1 := ⟨height - 1, by omega⟩
    have cells : piece.cells = piece.cell :: child.cells := by
      rw [shows_cells shows']
      simp
    have rebuilt : Rebuilt b.nodes (b.nodes.giveUp piece.cell) piece.cells child.cells :=
      cells ▸ rebuilt_give_up (cells ▸ nodup)
    have toChild : childAt (nodeOf (height' + 1) piece.bytes (⟨child, []⟩ : NodeRow Key)) 0 =
        some child.cell :=
      show childAt _ (([] : List (Piece Key × Key)).length : Int) = _ from child_at internal
    refine ⟨{ b with nNodes := asInt (b.nNodes - 1), root := child.cell,
                     nodes := b.nodes.giveUp b.root }, height', child,
      ?_, ?_, rfl, rfl, rfl, top ▸ rebuilt, ?_, ?_, ?_, ?_, ?_⟩
    · have size : (nodeOf (height' + 1) piece.bytes (⟨child, []⟩ : NodeRow Key)).n = 0 := nodeOf_n
      simp only [shrinkRoot, read, size, node_internal internal, toChild, Option.bind_eq_bind,
        Option.bind_some, true_and,
        if_true]
    · refine built_of_same _ below.1 fun cell member => ?_
      have apart : cell ≠ b.root := by
        rintro rfl
        exact (List.nodup_cons.mp (cells ▸ nodup)).1 (top ▸ member)
      rw [read_give_up, if_neg apart]
    · rw [shows_keys shows', weave_single]
    · rw [shows'.shape]
      rfl
    · rcases below.2 with leaf | enough
      · cases leaf
      · exact fun _ => by omega
    · rw [cells, List.length_cons]
      exact counts_one_less rfl _
    · rw [cells]
      exact Nat.le_succ _
  · refine ⟨b, height, piece, ?_, built, top, rfl, rfl, rebuilt_refl nodup, rfl, rfl, ?_,
      counts_unchanged rfl _,
      Nat.le_refl _⟩
    · have unchanged : ¬ ((nodeOf height piece.bytes row).n = 0 ∧
          (nodeOf height piece.bytes row).isInternal = true) := by
        rw [nodeOf_n, ← count]
        simpa [nodeOf] using empty
      simp only [shrinkRoot, read, Option.bind_eq_bind, Option.bind_some, if_neg unchanged]
    · intro internal
      by_contra notSome
      exact empty ⟨by omega, internal⟩

theorem delp_spec (lawful : Lawful cmp) (represents : Represents cmp b height piece) (key : Key) :
    (∃ next result height' after lost, kbDelp cmp b key = some (next, result) ∧
      Represents cmp next height' after ∧
      next.layout = b.layout ∧ Taken cmp (.this key) piece.keys result after.keys ∧
        Counts b next piece.cells.length (after.cells.length + lost) ∧
        after.cells.length + lost + b.nodes.fresh ≤ piece.cells.length + next.nodes.fresh) ∨
      kbDelp cmp b key = none ∧ BeforeFirst cmp key b b.root ∧
      ∀ other ∈ piece.keys, cmp key other ≠ 0 := by
  have enough : height < b.nodes.fresh + 1 := by
    have bound := height_fresh represents.built represents.nodup
    omega
  have answers : Answers cmp (.this key) b height piece
      (delpAux cmp (b.nodes.fresh + 1) b (some piece.cell) (some key) 0) := by
    by_cases some' : 0 < piece.fill
    · exact delp_aux_spec lawful height enough (.this key) represents.formed represents.built
        represents.nodup
        represents.ascending some'
    · have leaf : height = 0 := by
        by_contra internal
        exact some' (represents.fill (Nat.pos_of_ne_zero internal))
      subst leaf
      rcases built_succ.mp represents.built with ⟨row, shows'⟩
      exact delp_leaf lawful represents.formed shows' represents.nodup represents.ascending
        (fun asked => absurd rfl asked) _
  rcases answers with ⟨middle, result, between, run, built, shrunk, taken⟩ | ⟨_, same,
    before, apart⟩
  · let counted : KbTree Key := { middle with nKeys := asInt (middle.nKeys - 1) }
    have layout' : counted.layout = b.layout := shrunk.keeps.layout
    rcases shrink_spec (b := counted) (layout' ▸ built)
      (shrunk.cell.trans (represents.top.trans shrunk.keeps.root.symm))
      shrunk.keeps.rebuilt.nodup (layout' ▸ represents.formed) with
      ⟨next, height', after, shrink, builtAfter, top, layoutAfter, nKeys, rebuilt, keys, roomy,
        fill, counts, fewer⟩
    have taken' : Taken cmp (.this key) piece.keys result after.keys := keys ▸ taken
    have sameLayout : next.layout = b.layout := layoutAfter.trans layout'
    have whole := rebuilt_trans shrunk.keeps.rebuilt rebuilt
    have same : counted.nNodes = b.nNodes := shrunk.nodes
    have unchanged := counts_unchanged same 0
    have cells := shrunk.cells
    -- The merges have freed the nodes that are lost to the count.
    refine .inl ⟨next, result, height', after, piece.cells.length - between.cells.length, ?_, ?_,
      sameLayout, taken',
      counts_trans unchanged counts (by omega), ?_⟩
    · simp only [kbDelp, ← represents.top, run, Option.bind_eq_bind, Option.bind_some,
        counted] at shrink ⊢
      rw [shrink]
      rfl
    · constructor
      · rw [sameLayout]
        exact represents.formed
      · exact layoutAfter ▸ builtAfter
      · exact top
      · exact whole.nodup
      · exact only_rebuilt whole represents.only
      · exact fill
      · rw [roomy, shrunk.roomy]
        exact represents.roomy
      · exact taken_ascending lawful represents.ascending taken'
      · have now : next.nKeys = asInt (b.nKeys - 1) :=
          nKeys.trans (congrArg (fun n => asInt (n - 1)) shrunk.keeps.keys)
        rw [now, represents.count, taken_length taken', Int.sub_eq_add_neg, as_int_add_as_int]
        congr 1
        push_cast
        omega
      · exact counts.isInt (unchanged.isInt represents.isInt)
    · have grows := whole.grows
      omega
  · cases same
    have before : BeforeFirst cmp key b b.root := represents.top ▸ before
    refine .inr ⟨?_, before, apart⟩
    simp only [kbDelp, before_first_none before, Option.bind_eq_bind, Option.bind_none]

end TWlib.KTree
