import TWlib.RbTreeSearch

/-!
# `RB_Tree` as a sorted list

`Represents` ties the memory to the nodes and data that the tree holds from the left to the right: a
balanced tree, strictly increasing. Every member of `RB_Tree` keeps it and answers as the list does.
-/

namespace TWlib.RbTree

open TWlib.Lib.CellStore
open TWlib.Lib.TreeZipper
open TWlib.Lib.ParentTree
open TWlib.Lib.RedBlackTree
open TWlib.Lib.SearchTree
open TWlib.Lib.SortedList

set_option autoImplicit false

variable {Data : Type}

structure Represents (cmp : Data → Data → Int) (head : RbHead Data) (nodes : List (Nat × Data)) :
    Prop where
  tree : ∃ whole total, At head [] whole ∧ Balanced Item.color whole .black total ∧
    contents whole = nodes
  order : Increasing cmp (nodes.map Prod.snd)

variable {cmp : Data → Data → Int} {head next : RbHead Data} {nodes : List (Nat × Data)}
  {whole tree : BinaryTree (Item Data)} {frames : List (Frame (Item Data))} {key null : Data}

theorem represents_new (cmp : Data → Data → Int) : Represents cmp RbHead.new [] where
  tree := ⟨.nil, 0, ⟨holds_place.mp holds_nil, rfl⟩, Balanced.nil, rfl⟩
  order := List.Pairwise.nil

/-! ## Where a search ends -/

/-- The place of a key: an empty one between what is below and what is above, or that of an equal
key. -/
theorem search_end (lawful : Lawful cmp) (order : Increasing cmp ((contents whole).map Prod.snd))
    (key : Data) :
    ((descend (against cmp key) [] whole).2 = .nil ∧ ∃ early late, contents whole = early ++ late ∧
      early = (before (descend (against cmp key) [] whole).1).map (fun item => (item.cell,
        item.data)) ∧
        late = (after (descend (against cmp key) [] whole).1).map (fun item => (item.cell,
          item.data)) ∧
          Splits cmp key (early.map Prod.snd) (late.map Prod.snd)) ∨
    ∃ item left right, (descend (against cmp key) [] whole).2 = .node item left right ∧
      cmp key item.data = 0 ∧
      ∃ early late, contents whole = early ++ (item.cell, item.data) :: late ∧
        Splits cmp key (early.map Prod.snd) (late.map Prod.snd) := by
  have values : (contents whole).map Prod.snd = (items whole).map Item.data := by
    simp [contents, Function.comp_def]
  have cuts : (items whole).Pairwise fun a b => against cmp key a ≤ 0 → against cmp key b < 0 := by
    rw [values] at order
    exact List.pairwise_map.mp (increasing_cut lawful order key)
  have straddles := descend_straddles (straddles_nil (against cmp key)) cuts
  have same := plug_descend (against cmp key) [] whole
  rw [plug] at same
  rcases descend_end (against cmp key) [] whole with bottom | ⟨item, left, right, found, equal⟩
  · left
    refine ⟨bottom, _, _, ?_, rfl, rfl, ?_⟩
    · conv_lhs => rw [← same, bottom, contents_plug]
      simp
    · have splits : Splits cmp key ((before (descend (against cmp key) [] whole).1 ++
          []).map Item.data)
          (([] ++ after (descend (against cmp key) [] whole).1).map Item.data) :=
        splits_of_straddles straddles (by simp) (by simp)
      simpa [Function.comp_def] using splits
  · right
    have shape : contents whole = ((before (descend (against cmp key) [] whole).1 ++ items left).map
        fun item => (item.cell, item.data)) ++ (item.cell, item.data) ::
          ((items right ++ after (descend (against cmp key) [] whole).1).map fun item => (item.cell,
            item.data)) := by
      conv_lhs => rw [← same, found, contents_plug, contents_node]
      simp [contents]
    refine ⟨item, left, right, found, equal, _, _, shape, ?_⟩
    rw [shape, List.map_append, List.map_cons] at order
    exact increasing_splits lawful order equal

theorem place_of_key (at' : At head [] whole) (cut : Item Data → Int) :
    At head (descend cut [] whole).1 (descend cut [] whole).2 := by
  rw [at_whole, plug_descend]
  exact at'

theorem height_le_fresh (at' : At head [] whole) : whole.height ≤ head.nodes.fresh := by
  have bound := cells_bound at'
  have deep := whole.height_le_numNodes
  omega

theorem rb_find_spec (lawful : Lawful cmp) (represents : Represents cmp head nodes) (key : Data) :
    (rbFind cmp head key = some none ∧ lookup cmp key (nodes.map Prod.snd) = none) ∨
      ∃ item frames left right, rbFind cmp head key = some (some item.cell) ∧
        cmp key item.data = 0 ∧
        lookup cmp key (nodes.map Prod.snd) = some item.data ∧
          At head frames (.node item left right) ∧
          (∃ total, Balanced Item.color (plug frames (.node item left right)) .black total) ∧
            contents (plug frames (.node item left right)) = nodes := by
  rcases represents with ⟨⟨whole, total, at', balanced, rfl⟩, order⟩
  have run := find_loop_run cmp key at' (height_le_fresh at')
  have root : head.rbhRoot = pointer layout whole := at'.root
  rw [← root] at run
  have place := place_of_key at' (against cmp key)
  have same := plug_descend (against cmp key) [] whole
  rcases search_end lawful order key with
    ⟨bottom, early, late, shape, -, -, splits⟩ | ⟨item, left, right, found, equal, early, late,
      shape, splits⟩
  · left
    rw [bottom] at run
    exact ⟨run, by rw [shape, List.map_append, lookup_absent splits]⟩
  · right
    rw [found] at run place same
    refine ⟨item, _, left, right, run, equal, ?_, place,
      ⟨total, by rw [same]; exact balanced⟩, by rw [same]; rfl⟩
    rw [shape, List.map_append, List.map_cons, lookup_present splits equal]

theorem read_item {item : Item Data} {left right : BinaryTree (Item Data)}
    (at' : At head frames (.node item left right)) :
    ∃ node, head.nodes.read item.cell = some node ∧ node.data = item.data :=
    ⟨_, at'.place.linked.1, rfl⟩

theorem find_spec (lawful : Lawful cmp) (represents : Represents cmp head nodes) (null key : Data) :
    head.find cmp null key = some ((lookup cmp key (nodes.map Prod.snd)).getD null) := by
  rcases rb_find_spec lawful represents key with ⟨run, absent⟩ | ⟨item, frames, left, right, run, -,
    present, place, -, -⟩
  · simp [RbHead.find, run, absent]
  · rcases read_item place with ⟨node, here, content⟩
    simp [RbHead.find, run, present, here, content]

theorem find_fill_spec (lawful : Lawful cmp) (represents : Represents cmp head nodes)
    (key fill : Data) :
    head.findFill cmp key fill = some ((lookup cmp key (nodes.map Prod.snd)).isSome,
      (lookup cmp key (nodes.map Prod.snd)).getD fill) := by
  rcases rb_find_spec lawful represents key with ⟨run, absent⟩ | ⟨item, frames, left, right, run, -,
    present, place, -, -⟩
  · simp [RbHead.findFill, run, absent]
  · rcases read_item place with ⟨node, here, content⟩
    simp [RbHead.findFill, run, present, here, content]

theorem nfind_spec (lawful : Lawful cmp) (represents : Represents cmp head nodes) (key : Data) :
    rbNfind cmp head key = some ((nodes.find? fun node => cmp key node.2 ≤ 0).map Prod.fst) := by
  rcases represents with ⟨⟨whole, total, at', balanced, rfl⟩, order⟩
  have run := nfind_loop_run cmp key at' (height_le_fresh at')
  have root : head.rbhRoot = pointer layout whole := at'.root
  rw [rbNfind, root]
  refine run.trans ?_
  have passed : ∀ early : List (Nat × Data), (∀ other ∈ early.map Prod.snd, 0 < cmp key other) →
      early.find? (fun node => decide (cmp key node.2 ≤ 0)) = none := by
    intro early below
    apply List.find?_eq_none.mpr
    intro node member
    have one := below node.2 (List.mem_map_of_mem member)
    simp only [decide_eq_true_eq]
    omega
  rcases search_end lawful order key with
    ⟨bottom, early, late, shape, -, backShape, splits⟩ | ⟨item, left, right, found, equal, early,
      late, shape, splits⟩
  · rw [bottom, shape, List.find?_append, passed early splits.below, Option.none_or]
    have first : late.find? (fun node => decide (cmp key node.2 ≤ 0)) = late.head? := by
      cases late with
      | nil => rfl
      | cons node others =>
          have above := splits.above node.2 (by simp)
          simp [Int.le_of_lt above]
    rw [first, backShape]
    simp [Function.comp_def]
  · rw [found, shape, List.find?_append, passed early splits.below, Option.none_or]
    simp [equal]

theorem is_empty_spec (represents : Represents cmp head nodes) : head.isEmpty = nodes.isEmpty := by
  rcases represents with ⟨⟨whole, total, at', -, rfl⟩, -⟩
  have root : head.rbhRoot = pointer layout whole := at'.root
  cases whole with
  | nil => simp [RbHead.isEmpty, root, pointer]
  | node item left right => simp [RbHead.isEmpty, root, pointer]

/-! ## Changing the tree -/

theorem cells_contents (tree : BinaryTree (Item Data)) :
    (cells layout tree).Perm ((contents tree).map Prod.fst) := by
  induction tree with
  | nil => simp [cells]
  | node item left right inLeft inRight =>
      simp only [contents_node, List.map_append, List.map_cons, cells]
      exact ((inLeft.append inRight).cons _).trans List.perm_middle.symm

theorem at_frame (at' : At head [] whole) (sameRoot : next.rbhRoot = head.rbhRoot)
    (same : ∀ cell ∈ cells layout whole, next.nodes.read cell = head.nodes.read cell) :
    At next [] whole := by
  rcases at' with ⟨⟨around, linked, inside, outside, apart⟩, root⟩
  exact ⟨⟨trivial, linked_frame linked same, inside, outside, apart⟩, sameRoot.trans root⟩

theorem remove_spec (lawful : Lawful cmp) (represents : Represents cmp head nodes)
    (null key : Data) :
    (head.remove cmp null key = some (head, null) ∧ lookup cmp key (nodes.map Prod.snd) = none) ∨
      ∃ next cell data early late, head.remove cmp null key = some (next, data) ∧ cmp key data = 0 ∧
        nodes = early ++ (cell, data) :: late ∧ lookup cmp key (nodes.map Prod.snd) = some data ∧
          Represents cmp next (early ++ late) ∧ next.nodes.fresh = head.nodes.fresh ∧
            next.nodes.read cell = none ∧ ∀ other, other ≠ cell →
              (next.nodes.read other).map RbNode.data = (head.nodes.read other).map
              RbNode.data := by
  rcases rb_find_spec lawful represents key with ⟨run, absent⟩ | ⟨item, frames, left, right, run,
    equal, present, place, done, same⟩
  · exact Or.inl ⟨by simp [RbHead.remove, run], absent⟩
  · right
    rcases done with ⟨total, balanced⟩
    rcases read_item place with ⟨node, here, content⟩
    rcases rb_remove_spec place balanced with ⟨next, whole, higher, removed, keeps, at', black,
      early, late, shape, rest⟩
    rw [same] at shape
    have order := represents.order
    rw [shape, List.map_append, List.map_cons] at order
    refine ⟨{ next with nodes := next.nodes.giveUp item.cell }, item.cell, item.data, early, late,
      ?_, equal, shape,
      present, ⟨⟨whole, higher, ?_, black, rest⟩, ?_⟩, ?_, ?_, ?_⟩
    · simp [RbHead.remove, run, here, removed, content]
    · have distinct := (cells_contents (plug frames (.node item left right))).nodup_iff.mp
        (holds_place.mpr place.place).apart
      rw [same, shape, List.map_append, List.map_cons] at distinct
      have outside : item.cell ∉ cells layout whole := by
        rw [(cells_contents whole).mem_iff, rest, List.map_append]
        exact (List.nodup_cons.mp (List.perm_middle.nodup_iff.mp distinct)).1
      refine at_frame at' ?_ ?_
      · rfl
      · intro cell member
        have apart : cell ≠ item.cell := fun here => outside (here ▸ member)
        simp [read_give_up, apart]
    · rw [List.map_append]
      exact increasing_drop order
    · simpa using keeps.fresh
    · simp [read_give_up]
    · intro other apart
      simpa [read_give_up, apart] using keeps.data other

/-- Of an equal key there is a node already, and the new one stays in memory outside the tree. -/
theorem insert_spec (lawful : Lawful cmp) (represents : Represents cmp head nodes) (data : Data) :
    ∃ next, head.insert cmp data = some next ∧ next.nodes.fresh = head.nodes.fresh + 1 ∧
      (next.nodes.read head.nodes.fresh).map RbNode.data = some data ∧
        (∀ cell, cell ≠ head.nodes.fresh →
          (next.nodes.read cell).map RbNode.data = (head.nodes.read cell).map RbNode.data) ∧
          (((lookup cmp data (nodes.map Prod.snd)).isSome ∧ Represents cmp next nodes) ∨
            ∃ early late, lookup cmp data (nodes.map Prod.snd) = none ∧ nodes = early ++ late ∧
              Splits cmp data (early.map Prod.snd) (late.map Prod.snd) ∧
                Represents cmp next (early ++ (head.nodes.fresh, data) :: late)) := by
  rcases represents with ⟨⟨whole, total, at', balanced, rfl⟩, order⟩
  let pushed : RbHead Data :=
    { head with nodes := head.nodes.push ⟨data, none, none, none, .black⟩ }
  have atPushed : At pushed [] whole := by
    refine at_frame at' ?_ ?_
    · rfl
    · exact fun cell member => (read_push _ _ _).trans
        (if_neg (Nat.ne_of_lt (cell_alive at' cell member)))
  have present : pushed.nodes.read head.nodes.fresh = some ⟨data, none, none, none, .black⟩ := by
    simp [pushed, read_push]
  have others : ∀ cell, cell ≠ head.nodes.fresh → pushed.nodes.read cell = head.nodes.read cell :=
    fun cell apart => (read_push _ _ _).trans (if_neg apart)
  have grown : pushed.nodes.fresh = head.nodes.fresh + 1 := by simp [pushed]
  have unfolded : head.insert cmp data = (rbInsert cmp pushed head.nodes.fresh).bind fun result =>
    some result.1 := rfl
  have root : pushed.rbhRoot = pointer layout whole := atPushed.root
  have place := place_of_key atPushed (against cmp data)
  have same := plug_descend (against cmp data) [] whole
  have run := insert_loop_run cmp data 0 atPushed fun _ _ shape => by cases shape
  rcases search_end lawful order data with
    ⟨bottom, early, late, shape, frontShape, backShape, splits⟩ | ⟨item, left, right, found, equal,
      early, late, shape, splits⟩
  · rcases run with ⟨item, left, right, found, -⟩ | ⟨last, -, ways, run⟩
    · rw [bottom] at found
      cases found
    · rw [bottom] at place same
      have unused : head.nodes.fresh ∉ frameCells layout
          (descend (against cmp data) [] whole).1 := by
        intro member
        have inWhole : head.nodes.fresh ∈ cells layout whole := by
          have order := cells_plug layout (descend (against cmp data) [] whole).1 .nil
          rw [same] at order
          exact order.mem_iff.mpr (List.mem_append_right _ member)
        exact Nat.lt_irrefl _ (cell_alive at' _ inWhole)
      rcases attach_spec place present unused ways with ⟨one, run1, keeps1, at1⟩
      have balancedThere : Balanced Item.color (plug (descend (against cmp data) [] whole).1 .nil)
          .black total := by
        rw [same]
        exact balanced
      rcases unplug balancedThere with ⟨shade, height, color, empty, hole, -⟩
      cases empty with
      | nil =>
      have single : Balanced Item.color (.node ⟨head.nodes.fresh, data, .red⟩ .nil .nil) .red 0 :=
        Balanced.red rfl Balanced.nil Balanced.nil
      rcases insert_color_spec at1 rfl single hole with ⟨next, grown', higher, run2, keeps2, at2,
        black, content⟩
      have keeps := keeps_trans keeps1 keeps2
      have nodes' : contents grown' = early ++ (head.nodes.fresh, data) :: late := by
        rw [content, contents_plug, frontShape, backShape]
        simp
      have inserted : head.insert cmp data = some next := by
        rw [← root] at run
        have looked : insertLoop cmp pushed data pushed.nodes.fresh pushed.rbhRoot none 0 =
            some (.bottom _ last) :=
          run _ (height_le_fresh atPushed)
        have colored : rbInsertColor one head.nodes.fresh = some next := run2
        rw [unfolded]
        simp [rbInsert, present, looked, run1, colored]
      refine ⟨next, inserted, keeps.fresh.trans grown, ?_, ?_,
        Or.inr ⟨early, late, ?_, shape, splits, ?_, ?_⟩⟩
      · rw [keeps.data, present]
        rfl
      · intro cell apart
        rw [keeps.data, others cell apart]
      · rw [shape, List.map_append, lookup_absent splits]
      · exact ⟨grown', higher, at2, black, nodes'⟩
      · rw [shape, List.map_append] at order
        simpa using increasing_add lawful order splits
  · rcases run with ⟨again, _, _, -, run⟩ | ⟨last, bottom, -, -⟩
    · have inserted : head.insert cmp data = some pushed := by
        rw [← root] at run
        have looked : insertLoop cmp pushed data pushed.nodes.fresh pushed.rbhRoot none 0 =
            some (.equal again.cell) :=
          run _ (height_le_fresh atPushed)
        rw [unfolded]
        simp [rbInsert, present, looked]
      refine ⟨pushed, inserted, grown, by rw [present]; rfl,
        fun cell apart => by rw [others cell apart], Or.inl ⟨?_, ?_⟩⟩
      · rw [shape, List.map_append, List.map_cons, lookup_present splits equal]
        rfl
      · exact ⟨⟨whole, total, atPushed, balanced, rfl⟩, order⟩
    · rw [found] at bottom
      cases bottom

end TWlib.RbTree
