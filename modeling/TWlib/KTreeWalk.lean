import TWlib.KTreePut

/-!
# Walks over a whole B-tree

`kb_traverse` keeps the way down to the present node on a stack, `kb_destroy` the nodes that are
still to be freed. Both stacks grow before there is no room.
-/

namespace TWlib.KTree

open TWlib.Lib.CellStore
open TWlib.Lib.CellRegion
open TWlib.Lib.SeparatedRow

set_option autoImplicit false

variable {Key : Type} {layout : Layout} {nodes : Store (KbNode Key)} {height : Nat}
  {row : NodeRow Key} {piece item : Piece Key} {b : KbTree Key} {lefts : List (Piece Key × Key)}
  {rights : List (Key × Piece Key)}

/-! ## The keys in order -/

/-- What stands for a subtree on the stack of `__kb_traverse`. -/
def entryOf (height : Nat) (piece : Piece Key) : Option Nat :=
  if 0 < height then some piece.cell else none

/-- The rounds that a subtree takes at most: two for each of its entries but the first, whose push
belongs to the node above. -/
def rounds (layout : Layout) (cells : Nat) : Nat := 2 * (cells * (2 * layout.t)) + 1

/-- After so many rounds what is above `below` on the stack is gone, `emitted` has been shown, and
the walk goes on with the node below. -/
def Emits (b : KbTree Key) (steps kmax : Nat) (above below : List (Option Nat × Nat))
    (emitted : List Key) : Prop :=
  ∃ kmax' ≥ kmax, ∀ fuel seen, traverseLoop b (fuel + steps) kmax (above ++ below) seen =
    (kpDown b below).bind fun entry =>
    traverseLoop b fuel kmax' entry.1 (seen ++ emitted ++ entry.2)

def Visits (b : KbTree Key) (height : Nat) (piece : Piece Key) : Prop :=
  ∃ steps ≤ rounds b.layout piece.cells.length, ∀ kmax below, below.length < kmax →
    Emits b steps kmax [(entryOf height piece, 0)] below piece.keys

theorem visits_empty : Visits b 0 (Piece.empty : Piece Key) := by
  refine ⟨1, by simp [rounds], fun kmax below _ => ⟨kmax, Nat.le_refl _, fun fuel seen => ?_⟩⟩
  simp only [entryOf, Nat.lt_irrefl, if_false, List.singleton_append, traverseLoop, empty_keys,
    List.append_nil,
    Option.bind_eq_bind]

theorem push_round (stored : b.nodes.read piece.cell =
    some (nodeOf height piece.bytes (splice ⟨item, []⟩ rights lefts)))
    {kmax : Nat} {below : List (Option Nat × Nat)} (room : below.length < kmax) :
    ∃ kmax' ≥ kmax, below.length + 1 < kmax' ∧ ∀ fuel seen,
      traverseLoop b (fuel + 1) kmax ((some piece.cell, lefts.length) :: below) seen =
        traverseLoop b fuel kmax' ((entryOf height item, 0) :: (some piece.cell, lefts.length) ::
          below) seen := by
  have read : readNode b piece.cell = _ := stored
  have atMost : lefts.length ≤ (nodeOf height piece.bytes (splice ⟨item, []⟩ rights lefts)).n := by
    rw [nodeOf_n, length_splice]
    exact Nat.le_trans (Nat.le_add_right _ _) (Nat.le_add_right _ _)
  have more : below.length + 1 < if below.length = kmax - 1 then 2 * kmax else kmax := by
    split_ifs <;> omega
  refine ⟨_, ?_, more, fun fuel seen => ?_⟩
  · split_ifs <;> omega
  · simp only [traverseLoop, read, Option.bind_eq_bind, Option.bind_some, if_pos atMost,
      if_pos more]
    by_cases internal : 0 < height
    · rw [node_internal internal, if_pos rfl, ptr_at internal, Option.bind_some, entryOf,
        if_pos internal]
    · obtain rfl : height = 0 := Nat.eq_zero_of_not_pos internal
      rfl

theorem pop_round (stored : b.nodes.read piece.cell = some (nodeOf height piece.bytes row))
    (kmax fuel : Nat) (below : List (Option Nat × Nat)) (seen : List Key) :
    traverseLoop b (fuel + 1) kmax ((some piece.cell, row.rest.length + 1) :: below) seen =
      (kpDown b below).bind fun entry => traverseLoop b fuel kmax entry.1 (seen ++ entry.2) := by
  have read : readNode b piece.cell = _ := stored
  have beyond : ¬ row.rest.length + 1 ≤ (nodeOf height piece.bytes row).n := by
    rw [nodeOf_n]
    exact Nat.not_succ_le_self _
  simp only [traverseLoop, read, Option.bind_eq_bind, Option.bind_some, if_neg beyond]

/-- Back at a node: the key behind the child is shown, when there is one. -/
theorem down_at (stored : b.nodes.read piece.cell =
    some (nodeOf height piece.bytes (splice ⟨item, []⟩ rights lefts)))
    (below : List (Option Nat × Nat)) :
    kpDown b ((some piece.cell, lefts.length) :: below) =
      some ((some piece.cell, lefts.length + 1) :: below, (rights.map Prod.fst).head?.toList) := by
  have read : readNode b piece.cell = _ := stored
  cases rights with
  | nil =>
      have last : ¬ lefts.length < (nodeOf height piece.bytes (splice ⟨item, []⟩ [] lefts)).n := by
        rw [nodeOf_n, length_splice]
        exact Nat.lt_irrefl _
      simp only [kpDown, read, Option.bind_eq_bind, Option.bind_some, if_neg last]
      rfl
  | cons entry rights =>
      have inside : lefts.length < (nodeOf height piece.bytes
          (splice ⟨item, []⟩ (entry :: rights) lefts)).n := by
        rw [nodeOf_n, length_splice, List.length_cons]
        omega
      have key : (nodeOf height piece.bytes (splice ⟨item,
          []⟩ (entry :: rights) lefts)).keys[lefts.length]? = some entry.1 := by
        rw [splice_next]
        exact node_sep_at
      simp only [kpDown, read, Option.bind_eq_bind, Option.bind_some, if_pos inside, key,
        Option.map_some]
      rfl

theorem visits_rest (stored : b.nodes.read piece.cell = some (nodeOf height piece.bytes row))
    (visits : ∀ item ∈ row.items, Visits b height item) (rights : List (Key × Piece Key)) :
    ∀ (lefts : List (Piece Key × Key)) (item : Piece Key), row = splice ⟨item, []⟩ rights lefts →
      ∃ steps ≤ 2 * ((item.cells.length + (rights.map fun entry =>
          entry.2.cells.length).sum) * (2 * b.layout.t)) +
          2 * (rights.length + 1) + 1,
        ∀ kmax below, below.length < kmax →
          Emits b steps kmax [(some piece.cell, lefts.length)] below
          (item.keys ++ weaveRights Piece.keys rights) := by
  induction rights with
  | nil =>
      intro lefts item shape
      subst shape
      rcases visits item (mem_items_splice.mpr (.inr (.inl first_mem))) with ⟨steps, few, visit⟩
      refine ⟨1 + steps + 1, ?_, fun kmax below room => ?_⟩
      · simp only [rounds] at few
        simp
        omega
      · rcases push_round stored room with ⟨more, atLeast, inside, push⟩
        rcases visit more ((some piece.cell, lefts.length) :: below) inside with ⟨most,
          further, emits⟩
        have pop := pop_round stored most
        rw [length_splice, List.length_nil] at pop
        refine ⟨most, by omega, fun fuel seen => ?_⟩
        rw [List.singleton_append, ← Nat.add_assoc, push, ← Nat.add_assoc]
        rw [List.singleton_append] at emits
        rw [emits, down_at stored, Option.bind_some]
        simp [pop, weaveRights]
  | cons entry rights inductionHypothesis =>
      intro lefts item shape
      rcases inductionHypothesis (lefts ++ [(item, entry.1)]) entry.2
          (by rw [shape, splice_next, splice_before]) with
        ⟨rest, fewRest, emitsRest⟩
      subst shape
      rcases visits item (mem_items_splice.mpr (.inr (.inl first_mem))) with ⟨steps, few, visit⟩
      refine ⟨rest + steps + 1, ?_, fun kmax below room => ?_⟩
      · simp only [rounds] at few
        simp only [List.map_cons, List.sum_cons, List.length_cons, Nat.add_mul] at fewRest ⊢
        omega
      · rcases push_round stored room with ⟨more, atLeast, inside, push⟩
        rcases visit more ((some piece.cell, lefts.length) :: below) inside with ⟨most,
          further, emits⟩
        rcases emitsRest most below (by omega) with ⟨final, furthest, emitsRest⟩
        refine ⟨final, by omega, fun fuel seen => ?_⟩
        rw [List.singleton_append, ← Nat.add_assoc, push, ← Nat.add_assoc]
        rw [List.singleton_append] at emits
        rw [emits, down_at stored, Option.bind_some]
        simp only [List.singleton_append, List.length_append, List.length_singleton] at emitsRest
        simp [emitsRest, weaveRights]

theorem visits_built (formed : Formed b.layout) (height : Nat) : ∀ {piece : Piece Key},
    Built b.layout b.nodes height piece → Visits b height piece := by
  induction height with
  | zero =>
      intro piece built
      rw [show piece = .empty from built]
      exact visits_empty
  | succ height inductionHypothesis =>
      intro piece built
      rcases built_succ.mp built with ⟨row, shows'⟩
      rcases visits_rest shows'.stored (fun item member =>
        inductionHypothesis (shows'.below item member).1) row.rest []
        row.first rfl with ⟨steps, few, emits⟩
      refine ⟨steps, ?_, fun kmax below room => ?_⟩
      · have degree := formed.degree
        have bound := shows'.bound
        have count : (row.first.cells.length + (row.rest.map fun entry =>
            entry.2.cells.length).sum) + 1 =
            piece.cells.length := by
          rw [shows_cells shows', List.length_cons, List.length_flatMap]
          simp [Row.items, Function.comp_def]
        have spread := Nat.add_mul (row.first.cells.length + (row.rest.map fun entry =>
          entry.2.cells.length).sum) 1
          (2 * b.layout.t)
        rw [rounds, ← count]
        omega
      · have rounds' := emits kmax below room
        rw [entryOf, if_pos (Nat.succ_pos _), shows_keys shows']
        exact rounds'

theorem traverse_spec (formed : Formed b.layout) (built : Built b.layout b.nodes (height + 1) piece)
    (top : piece.cell = b.root) (nodup : piece.cells.Nodup) : kbTraverse b = some piece.keys := by
  rcases visits_built formed (height + 1) built with ⟨steps, few, visit⟩
  rcases visit 8 [] (by decide) with ⟨kmax, -, emits⟩
  have fits : piece.cells.length ≤ b.nodes.fresh :=
    length_le_fresh nodup fun cell member => alive_bound (built_cells_alive _ built cell member)
  have enough : steps + 1 ≤ 2 * (b.nodes.fresh * (b.layout.n + 1) + 1) := by
    have degree := formed.degree
    have row : b.layout.n + 1 = 2 * b.layout.t := by
      rw [formed.most]
      omega
    have atMost := Nat.mul_le_mul_right (2 * b.layout.t) fits
    rw [row]
    simp only [rounds] at few
    omega
  obtain ⟨fuel, same⟩ := Nat.exists_eq_add_of_le enough
  rw [entryOf, if_pos (Nat.succ_pos _), top] at emits
  have run := emits (fuel + 1) []
  rw [kbTraverse, show 2 * (b.nodes.fresh * (b.layout.n + 1) + 1) = fuel + 1 + steps by omega]
  simpa [kpDown, traverseLoop] using run

/-! ## Giving the memory back -/

theorem push_children (cells : List Nat) : ∀ (max : Nat) (stack : List Nat), 0 < max →
    stack.length ≤ max →
    ∃ max' ≥ max, pushChildren (cells.map some) max stack = some (max', cells.reverse ++ stack) ∧
      (cells.reverse ++ stack).length ≤ max' := by
  induction cells with
  | nil => exact fun max stack _ room => ⟨max, Nat.le_refl _, rfl, room⟩
  | cons cell cells inductionHypothesis =>
      intro max stack some' room
      have more : stack.length < if stack.length = max then 2 * max else max := by
        split_ifs <;> omega
      rcases inductionHypothesis (if stack.length = max then 2 * max else max) (cell :: stack)
        (Nat.lt_of_le_of_lt (Nat.zero_le _) more) more with ⟨max', atLeast, run, room'⟩
      refine ⟨max', ?_, ?_, ?_⟩
      · refine Nat.le_trans ?_ atLeast
        split_ifs <;> omega
      · rw [List.map_cons, pushChildren]
        simp only [if_pos more, run]
        simp
      · simpa using room'

/-- What is still to be freed: subtrees with their heights, no node in two of them. -/
structure Pending (layout : Layout) (nodes : Store (KbNode Key))
    (pending : List (Nat × Piece Key)) : Prop where
  built : ∀ entry ∈ pending, Built layout nodes (entry.1 + 1) entry.2
  nodup : (pending.flatMap fun entry => entry.2.cells).Nodup

def children (height : Nat) (row : NodeRow Key) : List (Nat × Piece Key) :=
  if 0 < height then row.items.reverse.map fun item => (height - 1, item) else []

variable {pending : List (Nat × Piece Key)}

theorem children_cells (shows' : Shows layout nodes height piece row) :
    ((children height row).flatMap fun entry => entry.2.cells).Perm
    (row.items.flatMap Piece.cells) := by
  rw [children]
  split_ifs with internal
  · rw [List.flatMap_map]
    exact (List.reverse_perm row.items).flatMap_right _
  · obtain rfl : height = 0 := Nat.eq_zero_of_not_pos internal
    have none' : row.items.flatMap Piece.cells = [] :=
      List.flatMap_eq_nil_iff.mpr fun item member =>
        congrArg Piece.cells (shows'.below item member).1
    rw [none']
    exact List.Perm.nil

theorem pending_cells (shows' : Shows layout nodes height piece row)
    (pending : List (Nat × Piece Key)) :
    (((height, piece) :: pending).flatMap fun entry => entry.2.cells).Perm
      (piece.cell :: (children height row ++ pending).flatMap fun entry => entry.2.cells) := by
  rw [List.flatMap_cons, shows_cells shows', List.cons_append, List.flatMap_append]
  exact List.Perm.cons _ ((children_cells shows').symm.append_right _)

theorem pending_free (shows' : Shows layout nodes height piece row)
    (ready : Pending layout nodes ((height, piece) :: pending)) :
    Pending layout (nodes.giveUp piece.cell) (children height row ++ pending) := by
  have distinct := (pending_cells shows' pending).nodup ready.nodup
  have stays : ∀ entry ∈ children height row ++ pending,
      Built layout nodes (entry.1 + 1) entry.2 := by
    intro entry member
    rcases List.mem_append.mp member with below | later
    · rw [children] at below
      split_ifs at below with internal
      · rcases List.mem_map.mp below with ⟨item, inside, rfl⟩
        obtain ⟨lower, rfl⟩ : ∃ lower, height = lower + 1 := ⟨height - 1, by omega⟩
        exact (shows'.below item (List.mem_reverse.mp inside)).1
      · cases below
    · exact ready.built entry (List.mem_cons_of_mem _ later)
  refine ⟨fun entry member => built_of_same _ (stays entry member) fun cell inside => ?_,
    (List.nodup_cons.mp distinct).2⟩
  have apart : cell ≠ piece.cell := by
    rintro rfl
    exact (List.nodup_cons.mp distinct).1 (List.mem_flatMap.mpr ⟨entry, member, inside⟩)
  rw [read_give_up, if_neg apart]

theorem destroy_step {cell : Nat} {node : KbNode Key} (stored : nodes.read cell = some node)
    (fuel max : Nat) (stack : List Nat) : destroyLoop (fuel + 1) nodes max (cell :: stack) =
      (if node.isInternal then pushChildren node.ptrs max stack else some (max, stack)).bind
      fun entry =>
        destroyLoop fuel (nodes.giveUp cell) entry.1 entry.2 := by
  simp only [destroyLoop, stored, Option.bind_eq_bind, Option.bind_some]
  cases node.isInternal <;> rfl

theorem destroy_push (height bytes max : Nat) (row : NodeRow Key) (stack : List Nat)
    (some' : 0 < max) (room : stack.length ≤ max) :
    ∃ max' ≥ max, (if (nodeOf height bytes row).isInternal then pushChildren
      (nodeOf height bytes row).ptrs max stack
      else some (max, stack)) = some (max',
        (children height row).map (fun entry => entry.2.cell) ++ stack) ∧
      ((children height row).map (fun entry => entry.2.cell) ++ stack).length ≤ max' := by
  by_cases internal : 0 < height
  · rcases push_children (row.items.map Piece.cell) max stack some' room with ⟨max',
      atLeast, run, room'⟩
    have same : (children height row).map (fun entry => entry.2.cell) =
        (row.items.map Piece.cell).reverse := by
      rw [children, if_pos internal, List.map_map, List.map_reverse]
      rfl
    refine ⟨max', atLeast, ?_, same ▸ room'⟩
    rw [node_internal internal, if_pos rfl, nodeOf_ptrs internal, same, ← run, List.map_map]
    rfl
  · obtain rfl : height = 0 := Nat.eq_zero_of_not_pos internal
    exact ⟨max, Nat.le_refl _, rfl, room⟩

theorem destroy_loop_spec (layout : Layout) (fuel : Nat) :
    ∀ (nodes : Store (KbNode Key)) (max : Nat)
    (pending : List (Nat × Piece Key)), Pending layout nodes pending → 0 < max →
    pending.length ≤ max →
    (pending.flatMap fun entry => entry.2.cells).length < fuel →
    ∃ rest, destroyLoop fuel nodes max (pending.map fun entry => entry.2.cell) = some rest ∧
      ∀ cell, rest.read cell = if cell ∈ pending.flatMap (fun entry => entry.2.cells) then none
      else nodes.read cell := by
  induction fuel with
  | zero => exact fun _ _ _ _ _ _ enough => absurd enough (Nat.not_lt_zero _)
  | succ fuel inductionHypothesis =>
      intro nodes max pending ready some' room enough
      cases pending with
      | nil => exact ⟨nodes, rfl, by simp⟩
      | cons entry pending =>
          rcases entry with ⟨height, piece⟩
          rcases built_succ.mp (ready.built (height, piece) List.mem_cons_self) with ⟨row, shows'⟩
          have cells := pending_cells shows' pending
          rcases destroy_push height piece.bytes max row (pending.map fun entry =>
            entry.2.cell) some'
            (by simp at room ⊢; omega) with ⟨max', atLeast, push, room'⟩
          rw [← List.map_append] at push room'
          rw [cells.length_eq, List.length_cons] at enough
          rcases inductionHypothesis (nodes.giveUp piece.cell) max' _ (pending_free shows' ready)
            (Nat.lt_of_lt_of_le some' atLeast) (by simpa using room')
            (by omega) with ⟨rest, run, reads⟩
          refine ⟨rest, ?_, fun cell => ?_⟩
          · rw [List.map_cons, destroy_step shows'.stored, push]
            exact run
          · rw [reads, read_give_up]
            simp only [cells.mem_iff, List.mem_cons]
            split_ifs <;> tauto

/-- Every node of the tree is freed, each once, and nothing else is. -/
theorem destroy_spec (built : Built b.layout b.nodes (height + 1) piece) (top : piece.cell = b.root)
    (nodup : piece.cells.Nodup) : ∃ rest, kbDestroy b = some rest ∧
      ∀ cell, rest.read cell = if cell ∈ piece.cells then none else b.nodes.read cell := by
  have fits : piece.cells.length ≤ b.nodes.fresh :=
    length_le_fresh nodup fun cell member => alive_bound (built_cells_alive _ built cell member)
  have ready : Pending b.layout b.nodes [(height, piece)] := by
    constructor
    · intro entry member
      rw [List.mem_singleton.mp member]
      exact built
    · simpa using nodup
  rcases destroy_loop_spec b.layout (b.nodes.fresh + 1) b.nodes 8 _ ready (by decide) (by simp)
    (by simpa using Nat.lt_succ_of_le fits) with ⟨rest, run, reads⟩
  refine ⟨rest, ?_, fun cell => ?_⟩
  · rw [kbDestroy, ← top]
    exact run
  · rw [reads]
    simp

end TWlib.KTree
