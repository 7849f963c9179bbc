import TWlib.KTreePieces
import TWlib.Lib.SortedRow

/-!
# Searching a B-tree

The binary search of a node finds the key or the child below which it has to be; from that the walks
of `kb_getp` and `kb_intervalp` find the key or the two that it is between.
-/

namespace TWlib.KTree

open TWlib.Lib.CellStore
open TWlib.Lib.SeparatedRow
open TWlib.Lib.SortedList
open TWlib.Lib.SortedBag
open TWlib.Lib.SortedRow

set_option autoImplicit false

variable {Key : Type} {cmp : Key → Key → Int} {key here : Key} {keys early late : List Key}
  {layout : Layout} {nodes : Store (KbNode Key)} {height bytes : Nat} {row : NodeRow Key}
  {piece item : Piece Key} {b : KbTree Key}

/-! ## In a node -/

theorem exists_cut (lawful : Lawful cmp) (ascending : Ascending cmp keys) (key : Key) :
    ∃ early late, keys = early ++ late ∧ (∀ other ∈ early, cmp other key < 0) ∧
    ∀ other ∈ late, ¬ cmp other key < 0 := by
  induction keys with
  | nil => exact ⟨[], [], rfl, by simp, by simp⟩
  | cons first rest inductionHypothesis =>
      rcases List.pairwise_cons.mp ascending with ⟨under, later⟩
      by_cases below : cmp first key < 0
      · rcases inductionHypothesis later with ⟨early, late, rfl, before, behind⟩
        refine ⟨first :: early, late, rfl, ?_, behind⟩
        intro other member
        rcases List.mem_cons.mp member with rfl | inside
        · exact below
        · exact before other inside
      · refine ⟨[], first :: rest, rfl, by simp, ?_⟩
        intro other member
        rcases List.mem_cons.mp member with rfl | inside
        · exact below
        · exact fun contra => below (lt_of_le_of_lt lawful (under other inside) contra)

theorem getp_loop_spec (before : ∀ other ∈ early, cmp other key < 0)
    (behind : ∀ other ∈ late, ¬ cmp other key < 0) (fuel : Nat) :
      ∀ first last, first ≤ early.length → early.length ≤ last → last ≤ (early ++ late).length →
      last - first < fuel → getpLoop cmp (early ++ late) key fuel first last =
      some early.length := by
  induction fuel with
  | zero => exact fun _ _ _ _ _ enough => absurd enough (Nat.not_lt_zero _)
  | succ fuel inductionHypothesis =>
      intro first last lower upper inside enough
      by_cases more : first < last
      · have midBound : (first + last) / 2 < (early ++ late).length := by omega
        have read : (early ++ late)[(first + last) / 2]? =
            some (early ++ late)[(first + last) / 2] :=
          List.getElem?_eq_getElem midBound
        rw [getpLoop, if_pos more]
        simp only [read, Option.bind_eq_bind, Option.bind_some]
        by_cases front : (first + last) / 2 < early.length
        · have below : cmp (early ++ late)[(first + last) / 2] key < 0 := by
            rw [List.getElem_append_left front]
            exact before _ (List.getElem_mem front)
          rw [if_pos below]
          exact inductionHypothesis _ _ (by omega) upper inside (by omega)
        · have above : ¬ cmp (early ++ late)[(first + last) / 2] key < 0 := by
            rw [List.getElem_append_right (Nat.le_of_not_lt front)]
            exact behind _ (List.getElem_mem _)
          rw [if_neg above]
          exact inductionHypothesis _ _ lower (by omega) (by omega) (by omega)
      · rw [getpLoop, if_neg more]
        exact congrArg some (by omega)

/-- What `__kb_getp_aux` says about the row of a node: the number of a separator that is equal to
the key, or of the last one below it. -/
inductive Looked (cmp : Key → Key → Int) (key : Key) (given : Int) (row : NodeRow Key) :
    Int → Int → Prop where
  | found {lefts left here right rights} (shape : row = splice ⟨left, [(here, right)]⟩ rights lefts)
      (equal : cmp key here = 0) (below : ∀ sep ∈ lefts.map Prod.snd, 0 < cmp key sep) :
      Looked cmp key given row lefts.length 0
  | absent {lefts item rights r} (shape : row = splice ⟨item, []⟩ rights lefts)
      (below : ∀ sep ∈ lefts.map Prod.snd, 0 < cmp key sep)
      (above : ∀ sep ∈ rights.map Prod.fst, cmp key sep < 0)
      (differ : r ≠ 0 ∨ lefts = [] ∧ rights = [] ∧ r = given) :
      Looked cmp key given row (lefts.length - 1) r

theorem getp_aux_spec (lawful : Lawful cmp) (ascending : Ascending cmp row.seps) (key : Key)
    (given : Int) :
    ∃ i r, getpAux cmp row.seps key given = some (i, r) ∧ Looked cmp key given row i r := by
  rcases exists_cut lawful ascending key with ⟨early, late, seps, before, behind⟩
  have below : ∀ sep ∈ early, 0 < cmp key sep :=
    fun sep member => (below_flip lawful).mpr (before sep member)
  have loop := getp_loop_spec before behind ((early ++ late).length + 1) 0 (early ++ late).length
    (Nat.zero_le _)
    (by simp) (Nat.le_refl _) (by omega)
  rw [seps] at ascending ⊢
  cases late with
  | nil =>
      rw [List.append_nil] at seps loop ⊢
      rcases exists_splice_seps (seps.trans (List.append_nil _).symm) with ⟨lefts, item, rights,
        shape, front, back⟩
      have none' : rights = [] := by simpa using back
      subst none'
      have count : early.length = lefts.length := by rw [← front, List.length_map]
      by_cases empty : early.length = 0
      · refine ⟨lefts.length - 1, given, ?_, .absent shape (front ▸ below) (by simp) (.inr ?_)⟩
        · rw [getpAux, if_pos empty]
          simp [← count, empty]
        · exact ⟨List.length_eq_zero_iff.mp (count ▸ empty), rfl, rfl⟩
      · refine ⟨lefts.length - 1, 1, ?_, .absent shape (front ▸ below) (by simp) (.inl ?_)⟩
        · rw [getpAux, if_neg empty]
          simp only [loop, Option.bind_eq_bind, Option.bind_some, if_true]
          rw [count]
        · decide
  | cons here others =>
      have some' : (early ++ here :: others).length ≠ 0 := by simp
      have notLast : early.length ≠ (early ++ here :: others).length := by simp
      have atMost : cmp key here ≤ 0 := by
        have notBelow := behind here List.mem_cons_self
        exact (below_or_equal lawful).mpr (by omega)
      have read : (early ++ here :: others)[early.length]? = some here := get_at rfl
      by_cases equal : cmp key here = 0
      · rcases exists_splice_pair_seps seps with ⟨lefts, left, right, rights, shape, front, back⟩
        have count : early.length = lefts.length := by rw [← front, List.length_map]
        refine ⟨lefts.length, 0, ?_, .found shape equal (front ▸ below)⟩
        rw [getpAux, if_neg some']
        simp only [loop, Option.bind_eq_bind, Option.bind_some, if_neg notLast, read, equal]
        rw [if_neg (by decide), count]
      · rcases exists_splice_seps seps with ⟨lefts, item, rights, shape, front, back⟩
        have count : early.length = lefts.length := by rw [← front, List.length_map]
        have strict : cmp key here < 0 := by omega
        refine ⟨lefts.length - 1, cmp key here, ?_, .absent shape (front ▸ below) ?_ (.inl equal)⟩
        · rw [getpAux, if_neg some']
          simp only [loop, Option.bind_eq_bind, Option.bind_some, if_neg notLast, read,
            if_pos strict]
          rw [count]
        · rw [back]
          intro sep member
          rcases List.mem_cons.mp member with rfl | later
          · exact strict
          · have order := (List.pairwise_append.mp ascending).2.1
            exact lt_of_lt_of_le lawful strict ((List.pairwise_cons.mp order).1 sep later)

/-! ## From node to node -/

variable {lefts : List (Piece Key × Key)} {rights : List (Key × Piece Key)} {left right : Piece Key}

theorem node_internal (internal : 0 < height) : (nodeOf height bytes row).isInternal = true := by
  simp [nodeOf, internal]

theorem node_leaf : (nodeOf 0 bytes row).isInternal = false := rfl

theorem ptr_at (internal : 0 < height) :
    (nodeOf height bytes (splice ⟨item, []⟩ rights lefts)).ptrs[lefts.length]? =
    some (some item.cell) := by
  have place : lefts.length = (lefts.map fun entry => some entry.1.cell).length := by simp
  simp only [nodeOf, internal, if_true, items_splice, items_single, List.map_append, List.map_map,
    List.append_assoc,
    List.map_cons, List.singleton_append]
  exact get_at place

theorem child_at (internal : 0 < height) :
    childAt (nodeOf height bytes (splice ⟨item, []⟩ rights lefts)) lefts.length =
    some item.cell := by
  have inside : 0 ≤ (lefts.length : Int) := Int.natCast_nonneg _
  rw [childAt, if_pos inside, Int.toNat_natCast, ptr_at internal]
  rfl

theorem child_left (internal : 0 < height) :
    childAt (nodeOf height bytes (splice ⟨left, [(here, right)]⟩ rights lefts)) lefts.length =
    some left.cell := by
  rw [← splice_next]
  exact child_at internal

theorem child_right (internal : 0 < height) :
    childAt (nodeOf height bytes (splice ⟨left, [(here, right)]⟩ rights lefts)) (lefts.length + 1) =
    some right.cell := by
  rw [← splice_before]
  have place : (lefts.length : Int) + 1 = ((lefts ++ [(left, here)]).length : Nat) := by simp
  rw [place]
  exact child_at internal

theorem sep_at : (splice ⟨left, [(here, right)]⟩ rights lefts).seps[lefts.length]? = some here := by
  simp only [seps_splice, seps_pair, List.append_assoc, List.singleton_append]
  exact get_at (by simp)

theorem node_sep_at :
    (nodeOf height bytes (splice ⟨left, [(here, right)]⟩ rights lefts)).keys[lefts.length]? =
    some here :=
  sep_at

theorem key_at_sep (stored : b.nodes.read piece.cell =
    some (nodeOf height bytes (splice ⟨left, [(here, right)]⟩ rights lefts))) :
    keyAt b (piece.cell, lefts.length) = some here := by
  simp only [keyAt, readNode, stored, Option.bind_eq_bind, Option.bind_some, node_sep_at]

theorem ascending_seps (shows' : Shows layout nodes height piece row)
    (ascending : Ascending cmp piece.keys) :
    Ascending cmp row.seps := by
  rw [shows_keys shows'] at ascending
  exact ascending.sublist seps_sublist

theorem keys_at (shows' : Shows layout nodes height piece (splice ⟨item, []⟩ rights lefts)) :
    piece.keys = weaveLefts Piece.keys lefts ++ item.keys ++ weaveRights Piece.keys rights := by
  rw [shows_keys shows', weave_splice, weave_single]

theorem here_mem (shows' : Shows layout nodes height piece
    (splice ⟨left, [(here, right)]⟩ rights lefts)) :
    here ∈ piece.keys := by
  rw [shows_keys shows', weave_splice]
  simp

theorem item_of_leaf (shows' : Shows layout nodes 0 piece (splice ⟨item, []⟩ rights lefts)) :
    item = .empty :=
  (shows'.below item (mem_items_splice.mpr (.inr (.inl first_mem)))).1

theorem sides_strict (lawful : Lawful cmp) (ascending : Ascending cmp piece.keys)
    (shows' : Shows layout nodes height piece (splice ⟨item, []⟩ rights lefts))
    (below : ∀ sep ∈ lefts.map Prod.snd, 0 < cmp key sep)
    (above : ∀ sep ∈ rights.map Prod.fst, cmp key sep < 0) :
    (∀ other ∈ weaveLefts Piece.keys lefts, 0 < cmp key other) ∧
      (∀ other ∈ weaveRights Piece.keys rights, cmp key other < 0) ∧ Ascending cmp item.keys := by
  rw [keys_at shows'] at ascending
  rcases List.pairwise_append.mp ascending with ⟨front, back, -⟩
  rcases List.pairwise_append.mp front with ⟨first, middle, -⟩
  exact ⟨lefts_strictly_below lawful first below, rights_strictly_above lawful back above, middle⟩

/-- The place of an equal key, or none when there is none. -/
def Lands (cmp : Key → Key → Int) (b : KbTree Key) (key : Key) (keys : List Key)
    (place : Option (Nat × Nat)) : Prop :=
  (place = none ∧ ∀ other ∈ keys, cmp key other ≠ 0) ∨
    ∃ found stored, place = some found ∧ stored ∈ keys ∧ keyAt b found = some stored ∧
    cmp key stored = 0

theorem away_of_differ {r given : Int} (differ : r ≠ 0 ∨ lefts = [] ∧ rights = [] ∧ r = given) :
    ¬ (0 ≤ (lefts.length : Int) - 1 ∧ r = 0) := by
  rintro ⟨inside, zero⟩
  rcases differ with apart | ⟨rfl, -, -⟩
  · exact apart zero
  · simp at inside

theorem leaf_apart (lawful : Lawful cmp) (ascending : Ascending cmp piece.keys)
    (shows' : Shows layout nodes 0 piece (splice ⟨item, []⟩ rights lefts))
    (below : ∀ sep ∈ lefts.map Prod.snd, 0 < cmp key sep)
    (above : ∀ sep ∈ rights.map Prod.fst, cmp key sep < 0) :
    Splits cmp key (weaveLefts Piece.keys lefts) (weaveRights Piece.keys rights) ∧
      piece.keys = weaveLefts Piece.keys lefts ++ weaveRights Piece.keys rights := by
  rcases sides_strict lawful ascending shows' below above with ⟨front, back, -⟩
  refine ⟨⟨front, back⟩, ?_⟩
  rw [keys_at shows', item_of_leaf shows', empty_keys, List.append_nil]

theorem splits_apart {early late : List Key} (splits : Splits cmp key early late) :
    ∀ other ∈ early ++ late, cmp key other ≠ 0 := by
  intro other member
  rcases List.mem_append.mp member with front | back
  · have below := splits.below other front
    omega
  · have above := splits.above other back
    omega

/-- One round of `kb_getp`: it ends, or goes on with the child that the key belongs to. -/
theorem getp_step (lawful : Lawful cmp) (shows' : Shows b.layout b.nodes height piece row)
    (ascending : Ascending cmp piece.keys) (fuel : Nat) (r : Int) :
    (∃ place, getpWalk cmp b key (fuel + 1) (some piece.cell) r = some place ∧
      Lands cmp b key piece.keys place) ∨
      ∃ lefts item rights r', row = splice ⟨item, []⟩ rights lefts ∧ 0 < height ∧
        getpWalk cmp b key (fuel + 1) (some piece.cell) r = getpWalk cmp b key fuel
          (some item.cell) r' ∧
          (∀ sep ∈ lefts.map Prod.snd, 0 < cmp key sep) ∧ ∀ sep ∈ rights.map Prod.fst,
          cmp key sep < 0 := by
  rcases getp_aux_spec lawful (ascending_seps shows' ascending) key r with ⟨i, r', run, looked⟩
  have read : readNode b piece.cell = some (nodeOf height piece.bytes row) := shows'.stored
  have keysRead : (nodeOf height piece.bytes row).keys = row.seps := rfl
  cases looked with
  | found shape equal below =>
      subst shape
      refine .inl ⟨_, ?_, .inr ⟨_, _, rfl, here_mem shows', key_at_sep shows'.stored, equal⟩⟩
      simp [getpWalk, read, keysRead, run]
  | @absent lefts item rights r' shape below above differ =>
      have away := away_of_differ differ
      subst shape
      by_cases leaf : height = 0
      · subst leaf
        rcases leaf_apart lawful ascending shows' below above with ⟨splits, whole⟩
        refine .inl ⟨none, ?_, .inl ⟨rfl, whole ▸ splits_apart splits⟩⟩
        simp only [getpWalk, read, keysRead, run, node_leaf, Option.bind_eq_bind, Option.bind_some,
          if_neg away]
        rfl
      · have internal : 0 < height := Nat.pos_of_ne_zero leaf
        refine .inr ⟨lefts, item, rights, r', rfl, internal, ?_, below, above⟩
        have index : ((lefts.length : Int) - 1 + 1).toNat = lefts.length := by simp
        simp only [getpWalk, read, keysRead, run, node_internal internal, Option.bind_eq_bind,
          Option.bind_some,
          if_neg away, index, ptr_at internal]
        rfl

theorem getp_walk_spec (lawful : Lawful cmp) (key : Key) (height : Nat) :
    ∀ {piece : Piece Key} {fuel : Nat} (r : Int),
    Built b.layout b.nodes (height + 1) piece → Ascending cmp piece.keys → height < fuel →
    ∃ place, getpWalk cmp b key fuel (some piece.cell) r = some place ∧
    Lands cmp b key piece.keys place := by
  induction height with
  | zero =>
      intro piece fuel r built ascending enough
      rcases built_succ.mp built with ⟨row, shows'⟩
      cases fuel with
      | zero => cases enough
      | succ fuel =>
          rcases getp_step lawful shows' ascending fuel r with done | ⟨_, _, _, _, _, internal, _⟩
          · exact done
          · cases internal
  | succ height inductionHypothesis =>
      intro piece fuel r built ascending enough
      rcases built_succ.mp built with ⟨row, shows'⟩
      cases fuel with
      | zero => cases enough
      | succ fuel =>
          rcases getp_step lawful shows' ascending fuel r with done | ⟨lefts, item, rights, r', rfl,
            -, round, below, above⟩
          · exact done
          · rcases sides_strict lawful ascending shows' below above with ⟨front, back, inner⟩
            have there := (shows'.below item (mem_items_splice.mpr (.inr (.inl first_mem)))).1
            rcases inductionHypothesis r' there inner (Nat.lt_of_succ_lt_succ enough) with ⟨place,
              run, lands⟩
            refine ⟨place, round.trans run, ?_⟩
            have whole := keys_at shows'
            rcases lands with ⟨rfl, absent⟩ | ⟨found, stored, rfl, member, read, equal⟩
            · refine .inl ⟨rfl, ?_⟩
              intro other member
              rw [whole] at member
              rcases List.mem_append.mp member with first | last
              · rcases List.mem_append.mp first with outside | inside
                · have under := front other outside
                  omega
                · exact absent other inside
              · have above := back other last
                omega
            · refine .inr ⟨found, stored, rfl, ?_, read, equal⟩
              rw [whole]
              exact List.mem_append_left _ (List.mem_append_right _ member)

/-! ## The keys around a key -/

/-- Both places are that of an equal key, or the one of the last key below and the one of the first
key above; where there is no such key it is the place that was known before. -/
def Between (cmp : Key → Key → Int) (b : KbTree Key) (key : Key) (keys : List Key)
    (lower upper : Option (Nat × Nat)) (result : Option (Nat × Nat) × Option (Nat × Nat)) : Prop :=
  (∃ place stored, result = (some place, some place) ∧ stored ∈ keys ∧ keyAt b place = some stored ∧
    cmp key stored = 0) ∨
    ∃ early late, keys = early ++ late ∧ Splits cmp key early late ∧
      result.1.map (keyAt b) = (early.getLast?.map some).or (lower.map (keyAt b)) ∧
      result.2.map (keyAt b) = (late.head?.map some).or (upper.map (keyAt b))

theorem lower_at (stored : b.nodes.read piece.cell =
    some (nodeOf height bytes (splice ⟨item, []⟩ rights lefts)))
    (lower : Option (Nat × Nat)) :
    (if 0 ≤ (lefts.length : Int) - 1 then some (piece.cell, ((lefts.length : Int) - 1).toNat)
      else lower).map (keyAt b) =
      ((lefts.map Prod.snd).getLast?.map some).or (lower.map (keyAt b)) := by
  induction lefts using List.reverseRecOn with
  | nil => simp
  | append_singleton lefts entry _ =>
      have index : (((lefts ++ [entry]).length : Int) - 1).toNat =
        (lefts.map Prod.snd).length := by simp
      have inside : 0 ≤ ((lefts ++ [entry]).length : Int) - 1 := by simp
      rw [if_pos inside, Option.map_some, index]
      simp only [keyAt, readNode, stored, nodeOf, Option.bind_eq_bind, Option.bind_some,
        seps_splice, seps_single,
        List.map_append, List.map_cons, List.map_nil, List.append_nil, List.append_assoc,
        List.singleton_append,
        List.getLast?_concat, Option.map_some, Option.some_or]
      exact congrArg some (get_at rfl)

theorem upper_at (stored : b.nodes.read piece.cell =
    some (nodeOf height bytes (splice ⟨item, []⟩ rights lefts)))
    (upper : Option (Nat × Nat)) :
    (if (lefts.length : Int) - 1 < (nodeOf height bytes (splice ⟨item, []⟩ rights lefts)).n - 1 then
        some (piece.cell, ((lefts.length : Int) - 1 + 1).toNat) else upper).map (keyAt b) =
      ((rights.map Prod.fst).head?.map some).or (upper.map (keyAt b)) := by
  rw [nodeOf_n, length_splice]
  cases rights with
  | nil => simp
  | cons entry rights =>
      rw [if_pos (by rw [List.length_cons]; omega), splice_next] at *
      have index : ((lefts.length : Int) - 1 + 1).toNat = lefts.length := by simp
      rw [index, Option.map_some, key_at_sep stored]
      rfl

theorem interval_step (lawful : Lawful cmp) (shows' : Shows b.layout b.nodes height piece row)
    (ascending : Ascending cmp piece.keys) (key : Key) (fuel : Nat) (r : Int)
    (lower upper : Option (Nat × Nat)) :
    (∃ result, intervalWalk cmp b key (fuel + 1) (some piece.cell) r lower upper = some result ∧
      Between cmp b key piece.keys lower upper result) ∨
      ∃ lefts item rights r' lower' upper', row = splice ⟨item, []⟩ rights lefts ∧ 0 < height ∧
        intervalWalk cmp b key (fuel + 1) (some piece.cell) r lower upper =
          intervalWalk cmp b key fuel (some item.cell) r' lower' upper' ∧
        lower'.map (keyAt b) = ((lefts.map Prod.snd).getLast?.map some).or (lower.map (keyAt b)) ∧
        upper'.map (keyAt b) = ((rights.map Prod.fst).head?.map some).or (upper.map (keyAt b)) ∧
          (∀ sep ∈ lefts.map Prod.snd, 0 < cmp key sep) ∧ ∀ sep ∈ rights.map Prod.fst,
          cmp key sep < 0 := by
  rcases getp_aux_spec lawful (ascending_seps shows' ascending) key r with ⟨i, r', run, looked⟩
  have read : readNode b piece.cell = some (nodeOf height piece.bytes row) := shows'.stored
  have keysRead : (nodeOf height piece.bytes row).keys = row.seps := rfl
  cases looked with
  | found shape equal below =>
      subst shape
      refine .inl ⟨_, ?_, .inl ⟨_, _, rfl, here_mem shows', key_at_sep shows'.stored, equal⟩⟩
      simp [intervalWalk, read, keysRead, run]
  | @absent lefts item rights r' shape below above differ =>
      have away := away_of_differ differ
      subst shape
      have lowerKey := lower_at shows'.stored lower
      have upperKey := upper_at shows'.stored upper
      by_cases leaf : height = 0
      · subst leaf
        rcases leaf_apart lawful ascending shows' below above with ⟨splits, whole⟩
        refine .inl ⟨(if 0 ≤ (lefts.length : Int) - 1 then
            some (piece.cell, ((lefts.length : Int) - 1).toNat) else lower,
          if (lefts.length : Int) - 1 <
              (nodeOf 0 piece.bytes (splice ⟨item, []⟩ rights lefts)).n - 1 then
            some (piece.cell, ((lefts.length : Int) - 1 + 1).toNat) else upper), ?_,
            .inr ⟨_, _, whole, splits, ?_, ?_⟩⟩
        · simp only [intervalWalk, read, keysRead, run, node_leaf, Option.bind_eq_bind,
            Option.bind_some, if_neg away]
          rfl
        · rw [getLast_lefts]
          exact lowerKey
        · rw [head_rights]
          exact upperKey
      · have internal : 0 < height := Nat.pos_of_ne_zero leaf
        refine .inr ⟨lefts, item, rights, r', _, _, rfl, internal, ?_, lowerKey, upperKey,
          below, above⟩
        have index : ((lefts.length : Int) - 1 + 1).toNat = lefts.length := by simp
        simp only [intervalWalk, read, keysRead, run, node_internal internal, Option.bind_eq_bind,
          Option.bind_some,
          if_neg away, index, ptr_at internal]
        rfl

theorem interval_walk_spec (lawful : Lawful cmp) (key : Key) (height : Nat) :
    ∀ {piece : Piece Key} {fuel : Nat} (r : Int)
    (lower upper : Option (Nat × Nat)), Built b.layout b.nodes (height + 1) piece →
    Ascending cmp piece.keys →
    height < fuel → ∃ result, intervalWalk cmp b key fuel (some piece.cell) r lower upper =
      some result ∧
      Between cmp b key piece.keys lower upper result := by
  induction height with
  | zero =>
      intro piece fuel r lower upper built ascending enough
      rcases built_succ.mp built with ⟨row, shows'⟩
      cases fuel with
      | zero => cases enough
      | succ fuel =>
          rcases interval_step lawful shows' ascending key fuel r lower upper with done | ⟨_, _, _,
            _, _, _, _, internal, _⟩
          · exact done
          · cases internal
  | succ height inductionHypothesis =>
      intro piece fuel r lower upper built ascending enough
      rcases built_succ.mp built with ⟨row, shows'⟩
      cases fuel with
      | zero => cases enough
      | succ fuel =>
          rcases interval_step lawful shows' ascending key fuel r lower upper with
            done | ⟨lefts, item, rights, r', lower', upper', rfl, -, round, lowerKey, upperKey,
              below, above⟩
          · exact done
          · rcases sides_strict lawful ascending shows' below above with ⟨front, back, inner⟩
            have there := (shows'.below item (mem_items_splice.mpr (.inr (.inl first_mem)))).1
            rcases inductionHypothesis r' lower' upper' there inner
                (Nat.lt_of_succ_lt_succ enough) with
              ⟨result, run, between⟩
            refine ⟨result, round.trans run, ?_⟩
            have whole := keys_at shows'
            rcases between with ⟨place, stored, rfl, member, read, equal⟩ | ⟨early, late, split,
              splits, one, two⟩
            · refine .inl ⟨place, stored, rfl, ?_, read, equal⟩
              rw [whole]
              exact List.mem_append_left _ (List.mem_append_right _ member)
            · refine .inr ⟨weaveLefts Piece.keys lefts ++ early,
                late ++ weaveRights Piece.keys rights, ?_, ⟨?_, ?_⟩, ?_, ?_⟩
              · rw [whole, split, ← List.append_assoc, List.append_assoc _ late]
              · intro other member
                rcases List.mem_append.mp member with outside | inside
                · exact front other outside
                · exact splits.below other inside
              · intro other member
                rcases List.mem_append.mp member with inside | outside
                · exact splits.above other inside
                · exact back other outside
              · rw [one, lowerKey, List.getLast?_append, getLast_lefts, Option.map_or,
                  Option.or_assoc]
              · rw [two, upperKey, List.head?_append, head_rights, Option.map_or, Option.or_assoc]

/-! ## The first key -/

theorem weave_empty (empty : ∀ item ∈ row.items, item = .empty) :
    row.weave Piece.keys = row.seps := by
  rcases row with ⟨first, rest⟩
  rw [Row.weave, empty first first_mem, empty_keys, List.nil_append]
  have later : ∀ entry ∈ rest, entry.2 = .empty := fun entry member =>
    empty entry.2 (List.mem_cons_of_mem _ (List.mem_map.mpr ⟨entry, member, rfl⟩))
  rw [Row.seps]
  clear empty
  induction rest with
  | nil => rfl
  | cons entry rest inductionHypothesis =>
      have rest' := inductionHypothesis fun other member =>
        later other (List.mem_cons_of_mem _ member)
      rw [weaveRights] at rest' ⊢
      rw [List.flatMap_cons, rest', later entry List.mem_cons_self]
      rfl

theorem leaf_keys (shows' : Shows layout nodes 0 piece row) : piece.keys = row.seps := by
  rw [shows_keys shows']
  exact weave_empty fun item member => (shows'.below item member).1

/-- The walk ends at the leftmost leaf, which it can only tell from the pointer that this has room
for. -/
theorem first_walk_spec (formed : Formed b.layout) (height : Nat) :
    ∀ {piece : Piece Key} {fuel : Nat},
    Built b.layout b.nodes (height + 1) piece → piece.roomy = true → 0 < piece.fill →
    height < fuel →
    firstWalk b fuel piece.cell = piece.keys.head? := by
  induction height with
  | zero =>
      intro piece fuel built roomy some' enough
      rcases built_succ.mp built with ⟨row, shows'⟩
      cases fuel with
      | zero => cases enough
      | succ fuel =>
          have read : readNode b piece.cell = some (nodeOf 0 piece.bytes row) := shows'.stored
          have room : b.layout.offPtr + 8 ≤ piece.bytes := by
            rw [shows'.shape] at roomy
            simpa [pieceOf] using roomy
          simp only [firstWalk, read, Option.bind_eq_bind, Option.bind_some, nodeOf, Nat.lt_irrefl,
            if_false, if_pos room]
          rw [leaf_keys shows', List.head?_eq_getElem?]
  | succ height inductionHypothesis =>
      intro piece fuel built roomy some' enough
      rcases built_succ.mp built with ⟨row, shows'⟩
      cases fuel with
      | zero => cases enough
      | succ fuel =>
          have read : readNode b piece.cell = some (nodeOf (height + 1) piece.bytes row) :=
            shows'.stored
          have first := shows'.below row.first first_mem
          have firstRoomy : row.first.roomy = true := by
            rw [shows'.shape] at roomy
            simpa [pieceOf] using roomy
          have firstFill : 0 < row.first.fill := by
            have degree := formed.degree
            rcases first.2 with leaf | enough'
            · cases leaf
            · omega
          have nonempty : row.first.keys ≠ [] := by
            intro none'
            have count := built_fill_le first.1
            rw [none'] at count
            exact absurd count (Nat.not_le.mpr firstFill)
          have below := inductionHypothesis first.1 firstRoomy firstFill
            (Nat.lt_of_succ_lt_succ enough)
          simp only [firstWalk, read, Option.bind_eq_bind, Option.bind_some, nodeOf, Nat.succ_pos,
            if_true, Row.items,
            List.map_cons]
          rw [below, shows_keys shows', Row.weave, List.head?_append_of_ne_nil _ nonempty]

end TWlib.KTree
