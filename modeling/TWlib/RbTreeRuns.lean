import TWlib.RbTreeRefinement

/-!
# Runs of an `RB_Tree`

A run of the members from an empty tree, next to the same run of a sorted list; which nodes are in
memory after it, and how long the searches are.
-/

namespace TWlib.RbTree

open TWlib.Lib.CellStore
open TWlib.Lib.TreeZipper
open TWlib.Lib.ParentTree
open TWlib.Lib.RedBlackTree
open TWlib.Lib.SearchTree
open TWlib.Lib.SortedList

set_option autoImplicit false

variable {Data : Type}

inductive Call (Data : Type) where
  | insert (data : Data)
  | remove (data : Data)
  | find (data : Data)
  | findFill (data fill : Data)
  | isEmpty

inductive Answer (Data : Type) where
  | nothing
  | data (result : Data)
  | filled (found : Bool) (fill : Data)
  | empty (yes : Bool)
deriving DecidableEq

section Calls

variable (cmp : Data → Data → Int) (null : Data)

def perform (head : RbHead Data) : Call Data → Option (RbHead Data × Answer Data)
  | .insert data => (head.insert cmp data).map fun head => (head, .nothing)
  | .remove data => (head.remove cmp null data).map fun result => (result.1, .data result.2)
  | .find data => (head.find cmp null data).map fun result => (head, .data result)
  | .findFill data fill =>
      (head.findFill cmp data fill).map fun result => (head, .filled result.1 result.2)
  | .isEmpty => some (head, .empty head.isEmpty)

def run : List (Call Data) → RbHead Data → Option (RbHead Data × List (Answer Data))
  | [], head => some (head, [])
  | call :: calls, head => do
      let (head, answer) ← perform cmp null head call
      let (head, answers) ← run calls head
      some (head, answer :: answers)

/-- What a sorted list does and answers. -/
def expected (keys : List Data) : Call Data → List Data × Answer Data
  | .insert data => (add cmp data keys, .nothing)
  | .remove data => (drop cmp data keys, .data ((lookup cmp data keys).getD null))
  | .find data => (keys, .data ((lookup cmp data keys).getD null))
  | .findFill data fill =>
      (keys, .filled (lookup cmp data keys).isSome ((lookup cmp data keys).getD fill))
  | .isEmpty => (keys, .empty keys.isEmpty)

def expectedRun : List (Call Data) → List Data → List Data × List (Answer Data)
  | [], keys => (keys, [])
  | call :: calls, keys =>
      let (keys, answer) := expected cmp null keys call
      let (keys, answers) := expectedRun calls keys
      (keys, answer :: answers)

/-- Whether the call inserts a key that an equal one is there for. -/
def repeats (keys : List Data) : Call Data → Nat
  | .insert data => if (lookup cmp data keys).isSome then 1 else 0
  | _ => 0

def repeatsOf : List (Call Data) → List Data → Nat
  | [], _ => 0
  | call :: calls, keys => repeats cmp keys call + repeatsOf calls (expected cmp null keys call).1

end Calls

variable {cmp : Data → Data → Int} {head next : RbHead Data} {nodes : List (Nat × Data)}
    {lost : List Nat} {null : Data}

/-! ## One call -/

/-- The nodes in memory are those of the tree, and those that nothing points to any more. -/
structure Accounted (head : RbHead Data) (nodes : List (Nat × Data)) (lost : List Nat) : Prop where
  apart : (nodes.map Prod.fst ++ lost).Nodup
  alive : ∀ cell, (head.nodes.read cell).isSome ↔ cell ∈ nodes.map Prod.fst ++ lost

theorem accounted_new : Accounted (RbHead.new : RbHead Data) [] [] where
  apart := List.nodup_nil
  alive := by simp [RbHead.new]

theorem isSome_of_data {cell : Nat}
    (same : (next.nodes.read cell).map RbNode.data = (head.nodes.read cell).map RbNode.data) :
    (next.nodes.read cell).isSome = (head.nodes.read cell).isSome := by
  simpa using congrArg Option.isSome same

theorem perform_spec (null : Data) (lawful : Lawful cmp) (represents : Represents cmp head nodes)
    (accounted : Accounted head nodes lost) (call : Call Data) :
    ∃ next answer after more, perform cmp null head call = some (next, answer) ∧
      Represents cmp next after ∧
      Accounted next after (lost ++ more) ∧ (after.map Prod.snd, answer) = expected cmp null
        (nodes.map Prod.snd) call ∧
        more.length = repeats cmp (nodes.map Prod.snd) call := by
  cases call with
  | insert data =>
      rcases insert_spec lawful represents data with ⟨next, inserted, grown, made, kept, outcome⟩
      have unused : head.nodes.fresh ∉ nodes.map Prod.fst ++ lost := by
        rw [← accounted.alive]
        simp [read_beyond (Nat.le_refl _)]
      have others : ∀ cell, cell ≠ head.nodes.fresh →
          ((next.nodes.read cell).isSome ↔ cell ∈ nodes.map Prod.fst ++ lost) :=
        fun cell apart => by rw [isSome_of_data (kept cell apart), accounted.alive]
      have new : (next.nodes.read head.nodes.fresh).isSome := by
        cases content : next.nodes.read head.nodes.fresh with
        | none => simp [content] at made
        | some node => rfl
      rcases outcome with ⟨present, stands⟩ | ⟨early, late, absent, shape, splits, stands⟩
      · refine ⟨next, .nothing, nodes, [head.nodes.fresh], by simp [perform, inserted], stands,
          ⟨?_, ?_⟩, ?_, ?_⟩
        · rw [← List.append_assoc]
          refine List.nodup_append.mpr ⟨accounted.apart, by simp, ?_⟩
          rintro cell member other single rfl
          exact unused (List.mem_singleton.mp single ▸ member)
        · intro cell
          by_cases here : cell = head.nodes.fresh
          · simp [here, new]
          · rw [others cell here]
            simp [here]
        · simp [expected, add, present]
        · simp [repeats, present]
      · refine ⟨next, .nothing, _, [], by simp [perform, inserted], stands, ⟨?_, ?_⟩, ?_, ?_⟩
        · have apart := List.nodup_cons.mpr ⟨unused, accounted.apart⟩
          rw [shape, List.map_append, List.append_assoc] at apart
          rw [List.append_nil, List.map_append, List.map_cons, List.append_assoc, List.cons_append]
          exact List.perm_middle.nodup_iff.mpr apart
        · intro cell
          by_cases here : cell = head.nodes.fresh
          · simp [here, new]
          · rw [others cell here, shape]
            simp [here]
        · simp only [expected, shape, List.map_append, List.map_cons, add_absent splits]
        · simp [repeats, absent]
  | remove data =>
      rcases remove_spec lawful represents null data with
        ⟨ran, absent⟩ | ⟨next, cell, result, early, late, ran, equal, shape, present, stands, fresh,
          freed, kept⟩
      · refine ⟨head, .data null, nodes, [], by simp [perform, ran],
          represents, by simpa using accounted, ?_, rfl⟩
        simp [expected, absent, drop_of_lookup absent]
      · have distinct := accounted.apart
        have order := represents.order
        rw [shape, List.map_append, List.map_cons] at distinct order
        have splits := increasing_splits lawful order equal
        have outside : cell ∉ (early ++ late).map Prod.fst ++ lost := by
          rw [List.append_assoc, List.cons_append] at distinct
          have apart := (List.nodup_cons.mp (List.perm_middle.nodup_iff.mp distinct)).1
          simpa [or_assoc] using apart
        refine ⟨next, .data result, early ++ late, [], by simp [perform, ran], stands,
          ⟨?_, ?_⟩, ?_, rfl⟩
        · rw [List.append_nil, List.map_append]
          exact distinct.sublist (((List.sublist_cons_self _ _).append_left _).append_right _)
        · intro other
          by_cases here : other = cell
          · subst here
            simpa [freed] using outside
          · rw [isSome_of_data (kept other here), accounted.alive, shape]
            simp [here]
        · simp only [expected, present]
          simp only [shape, List.map_append, List.map_cons, drop_present splits equal,
            Option.getD_some]
  | find data =>
      exact ⟨head, .data ((lookup cmp data (nodes.map Prod.snd)).getD null), nodes, [],
        by simp [perform, find_spec lawful represents],
        represents, by simpa using accounted, rfl, rfl⟩
  | findFill data fill =>
      exact ⟨head, .filled (lookup cmp data (nodes.map Prod.snd)).isSome
        ((lookup cmp data (nodes.map Prod.snd)).getD fill),
        nodes, [], by simp [perform, find_fill_spec lawful represents],
        represents, by simpa using accounted, rfl, rfl⟩
  | isEmpty =>
      refine ⟨head, _, nodes, [], rfl, represents, by simpa using accounted, ?_, rfl⟩
      simp [expected, is_empty_spec represents]

/-! ## Runs -/

theorem run_spec (null : Data) (lawful : Lawful cmp) (calls : List (Call Data)) :
    ∀ {head : RbHead Data} {nodes : List (Nat × Data)}
    {lost : List Nat}, Represents cmp head nodes → Accounted head nodes lost →
    ∃ next answers after more, run cmp null calls head = some (next, answers) ∧
      Represents cmp next after ∧
      Accounted next after (lost ++ more) ∧
        (after.map Prod.snd, answers) = expectedRun cmp null calls (nodes.map Prod.snd) ∧
          more.length = repeatsOf cmp null calls (nodes.map Prod.snd) := by
  induction calls with
  | nil =>
      intro head nodes lost represents accounted
      exact ⟨head, [], nodes, [], rfl, represents, by simpa using accounted, rfl, rfl⟩
  | cons call calls inductionHypothesis =>
      intro head nodes lost represents accounted
      rcases perform_spec null lawful represents accounted call with
        ⟨middle, answer, between, first, ran, stands, counted, agrees, firstLength⟩
      rcases inductionHypothesis stands counted with
        ⟨next, answers, after, second, ranRest, standsRest, countedRest, agreesRest, secondLength⟩
      have keys : between.map Prod.snd = (expected cmp null (nodes.map Prod.snd) call).1 :=
        congrArg Prod.fst agrees
      refine ⟨next, answer :: answers, after, first ++ second, ?_, standsRest, ?_, ?_, ?_⟩
      · simp [run, ran, ranRest]
      · rw [← List.append_assoc]
        exact countedRest
      · rw [expectedRun, ← agrees]
        simp only
        rw [← agreesRest]
      · rw [repeatsOf, List.length_append, firstLength, secondLength, keys]

/-! ## Stepping through the nodes -/

theorem neighbour_spec {early late : List (Nat × Data)} {cell : Nat} {data : Data}
    (represents : Represents cmp head (early ++ (cell, data) :: late)) :
    rbNeighbour .right head cell = some (late.head?.map Prod.fst) ∧
      rbNeighbour .left head cell = some (early.getLast?.map Prod.fst) ∧
        (head.nodes.read cell).map RbNode.data = some data := by
  rcases represents with ⟨⟨whole, total, at', -, shape⟩, -⟩
  rcases List.map_eq_append_iff.mp shape with ⟨front, back, split, frontShape, backShape⟩
  rcases List.map_eq_cons_iff.mp backShape with ⟨item, behind, cut, here, behindShape⟩
  cases here
  rw [cut] at split
  rcases place_of_split split with ⟨frames, left, right, shape, fronts, backs⟩
  rw [shape, ← at_whole] at at'
  refine ⟨?_, ?_, ?_⟩
  · have step := rb_neighbour_run .right (at_node_right at')
    have order : travel .right right ++ ahead .right frames = behind := backs.symm
    rw [order] at step
    rw [step, ← behindShape]
    cases behind <;> rfl
  · have step := rb_neighbour_run .left (at_node at')
    have order : travel .left left ++ ahead .left frames = front.reverse := by
      rw [fronts, List.reverse_append]
      rfl
    rw [order, List.head?_reverse] at step
    rw [step, ← frontShape, List.getLast?_map, Option.map_map]
    rfl
  · rcases read_item at' with ⟨node, content, same⟩
    rw [content, Option.map_some, same]

theorem minmax_spec (represents : Represents cmp head nodes) (val : Int) :
    rbMinmax head val = some ((if val < 0 then nodes.head? else nodes.getLast?).map Prod.fst) := by
  rcases represents with ⟨⟨whole, total, at', -, rfl⟩, -⟩
  have root : head.rbhRoot = pointer layout whole := at'.root
  have run : ∀ side, minmaxLoop side head head.nodes.fresh head.rbhRoot none =
      some ((travel side.flip whole).head?.map Item.cell) := by
    intro side
    rw [root, minmax_loop_run at' (height_le_fresh at'), Option.or_none]
  by_cases low : val < 0
  · rw [rbMinmax, if_pos low, if_pos low, run]
    simp [travel, Side.flip, contents, Function.comp_def]
  · rw [rbMinmax, if_neg low, if_neg low, run]
    simp [travel, Side.flip, contents, Function.comp_def]

theorem nodes_length_le (represents : Represents cmp head nodes) :
    nodes.length ≤ head.nodes.fresh := by
  rcases represents with ⟨⟨whole, total, at', -, rfl⟩, -⟩
  have bound := cells_bound at'
  rw [contents_length]
  omega

theorem destroy_loop_run (represents : Represents cmp head nodes) (late : List (Nat × Data)) :
    ∀ {early : List (Nat × Data)} {fuel : Nat}, nodes = early ++ late → late.length ≤ fuel →
      head.destroyLoop fuel (late.head?.map Prod.fst) = some () := by
  induction late with
  | nil =>
      intro early fuel shape enough
      cases fuel <;> rfl
  | cons node late inductionHypothesis =>
      intro early fuel shape enough
      cases fuel with
      | zero => cases enough
      | succ fuel =>
          rcases node with ⟨cell, data⟩
          have step : rbNext head cell = some (late.head?.map Prod.fst) :=
            (neighbour_spec (shape ▸ represents)).1
          have rest := @inductionHypothesis (early ++ [(cell, data)]) fuel (by simp [shape])
            (by simpa using enough)
          show head.destroyLoop (fuel + 1) (some cell) = some ()
          simp [RbHead.destroyLoop, step, rest]

theorem destroy_spec (represents : Represents cmp head nodes) : head.destroy = some head := by
  have walked := destroy_loop_run represents nodes (List.nil_append nodes).symm
    (nodes_length_le represents)
  simp [RbHead.destroy, minmax_spec represents, walked]

/-! ## After any run -/

/-- Every run goes through, answers as a sorted list of different keys does, and leaves a red-black
tree of its keys. -/
theorem rb_tree_run_refines (lawful : Lawful cmp) (null : Data) (calls : List (Call Data)) :
    ∃ head answers nodes, run cmp null calls RbHead.new = some (head, answers) ∧
      Represents cmp head nodes ∧
      (nodes.map Prod.snd, answers) = expectedRun cmp null calls [] := by
  rcases run_spec null lawful calls (represents_new cmp) accounted_new with
    ⟨head, answers, nodes, lost, ran, represents, -, agrees, -⟩
  exact ⟨head, answers, nodes, ran, represents, agrees⟩

theorem lawful_difference : Lawful fun a b : Int => a - b where
  flip := fun a b => by omega
  trans := fun a b c => by omega

theorem rb_tree_run_refines_difference :
    ∃ head answers nodes, run (fun a b : Int => a - b) 0 [.insert 3, .insert 1, .insert 2,
      .insert 1, .remove 3, .find 2]
      RbHead.new = some (head, answers) ∧ Represents (fun a b : Int => a - b) head nodes ∧
        (nodes.map Prod.snd, answers) = expectedRun (fun a b : Int => a - b) 0
          [.insert 3, .insert 1, .insert 2, .insert 1, .remove 3, .find 2] [] :=
  rb_tree_run_refines lawful_difference 0 _

/-- The nodes allocated after a run are those of the tree, and one for every insertion of a key that
was there already: none of these is in the tree, and neither later calls nor the destructor free
it. -/
theorem rb_tree_run_loses (lawful : Lawful cmp) (null : Data) (calls : List (Call Data)) :
    ∃ head answers nodes lost, run cmp null calls RbHead.new = some (head, answers) ∧
      Represents cmp head nodes ∧
      Accounted head nodes lost ∧ lost.length = repeatsOf cmp null calls [] ∧
      head.destroy = some head := by
  rcases run_spec null lawful calls (represents_new cmp) accounted_new with
    ⟨head, answers, nodes, lost, ran, represents, accounted, -, length⟩
  exact ⟨head, answers, nodes, lost, ran, represents, by simpa using accounted, length,
    destroy_spec represents⟩

theorem rb_tree_run_loses_difference :
    ∃ head answers nodes lost, run (fun a b : Int => a - b) 0 [.insert 1, .insert 1, .remove 1,
      .insert 1, .insert 1]
      RbHead.new = some (head, answers) ∧ Represents (fun a b : Int => a - b) head nodes ∧
        Accounted head nodes lost ∧
        lost.length = repeatsOf (fun a b : Int => a - b) 0 [.insert 1, .insert 1, .remove 1,
          .insert 1, .insert 1] [] ∧
          head.destroy = some head :=
  rb_tree_run_loses lawful_difference 0 _

/-- The searches need one step for every node on their way, and with twice the logarithm of the
number of keys they are at the end of it. -/
theorem rb_tree_search_steps (lawful : Lawful cmp) (null : Data) (calls : List (Call Data))
    (key : Data) :
    ∃ head answers, run cmp null calls RbHead.new = some (head, answers) ∧
      ∀ fuel, 2 * Nat.log 2 ((expectedRun cmp null calls []).1.length + 1) ≤ fuel →
        (∃ found, findLoop cmp head key fuel head.rbhRoot = some found ∧
          rbFind cmp head key = some found) ∧
          (∃ found, nfindLoop cmp head key fuel head.rbhRoot none = some found ∧
            rbNfind cmp head key = some found) ∧
            (∃ landing, insertLoop cmp head key fuel head.rbhRoot none 0 = some landing ∧
              insertLoop cmp head key head.nodes.fresh head.rbhRoot none 0 = some landing) ∧
                ∀ side, ∃ last, minmaxLoop side head fuel head.rbhRoot none = some last ∧
                  minmaxLoop side head head.nodes.fresh head.rbhRoot none = some last := by
  rcases run_spec null lawful calls (represents_new cmp) accounted_new with
    ⟨head, answers, nodes, lost, ran, represents, -, agrees, -⟩
  refine ⟨head, answers, ran, ?_⟩
  intro fuel enough
  have keys : nodes.map Prod.snd = (expectedRun cmp null calls []).1 := congrArg Prod.fst agrees
  rcases represents with ⟨⟨whole, total, at', balanced, shape⟩, -⟩
  have deep : whole.height ≤ fuel := by
    have bound := height_le_log balanced
    rw [← contents_length, shape, ← List.length_map Prod.snd, keys] at bound
    omega
  have room := height_le_fresh at'
  have root : head.rbhRoot = pointer layout whole := at'.root
  rw [rbFind, rbNfind, root]
  refine ⟨⟨_, find_loop_run cmp key at' deep, find_loop_run cmp key at' room⟩,
    ⟨_, nfind_loop_run cmp key at' deep, nfind_loop_run cmp key at' room⟩, ?_,
    fun side => ⟨_, minmax_loop_run at' deep, minmax_loop_run at' room⟩⟩
  rcases insert_loop_run cmp key 0 at' (fun _ _ shape => by cases shape) with
    ⟨item, left, right, -, steps⟩ | ⟨last, -, -, steps⟩
  · exact ⟨_, steps fuel deep, steps _ room⟩
  · exact ⟨_, steps fuel deep, steps _ room⟩

theorem rb_tree_search_steps_difference :
    ∃ head answers, run (fun a b : Int => a - b) 0 [.insert 4, .insert 2, .insert 6] RbHead.new =
      some (head, answers) ∧
      ∀ fuel, 2 * Nat.log 2 ((expectedRun (fun a b : Int => a - b) 0 [.insert 4, .insert 2,
        .insert 6] []).1.length + 1)
        ≤ fuel →
        (∃ found, findLoop (fun a b : Int => a - b) head 5 fuel head.rbhRoot = some found ∧
          rbFind (fun a b : Int => a - b) head 5 = some found) ∧
          (∃ found, nfindLoop (fun a b : Int => a - b) head 5 fuel head.rbhRoot none = some found ∧
            rbNfind (fun a b : Int => a - b) head 5 = some found) ∧
            (∃ landing, insertLoop (fun a b : Int => a - b) head 5 fuel head.rbhRoot none 0 =
              some landing ∧
              insertLoop (fun a b : Int => a - b) head 5 head.nodes.fresh head.rbhRoot none 0 =
                some landing) ∧
                ∀ side, ∃ last, minmaxLoop side head fuel head.rbhRoot none = some last ∧
                  minmaxLoop side head head.nodes.fresh head.rbhRoot none = some last :=
  rb_tree_search_steps lawful_difference 0 _ 5

/-- `RB_NFIND` finds the first node that is not below the key, `RB_MIN` and `RB_MAX` the ends. -/
theorem rb_tree_run_bounds (lawful : Lawful cmp) (null : Data) (calls : List (Call Data))
    (key : Data) :
    ∃ head answers nodes, run cmp null calls RbHead.new = some (head, answers) ∧
      Represents cmp head nodes ∧
      nodes.map Prod.snd = (expectedRun cmp null calls []).1 ∧
        rbNfind cmp head key = some ((nodes.find? fun node => cmp key node.2 ≤ 0).map Prod.fst) ∧
          rbMinmax head (-1) = some (nodes.head?.map Prod.fst) ∧
          rbMinmax head 1 = some (nodes.getLast?.map Prod.fst) := by
  rcases run_spec null lawful calls (represents_new cmp) accounted_new with
    ⟨head, answers, nodes, lost, ran, represents, -, agrees, -⟩
  exact ⟨head, answers, nodes, ran, represents, congrArg Prod.fst agrees,
    nfind_spec lawful represents key,
    minmax_spec represents (-1), minmax_spec represents 1⟩

theorem rb_tree_run_bounds_difference :
    ∃ head answers nodes, run (fun a b : Int => a - b) 0 [.insert 4, .insert 2, .insert 6,
        .remove 4] RbHead.new =
        some (head, answers) ∧ Represents (fun a b : Int => a - b) head nodes ∧
      nodes.map Prod.snd = (expectedRun (fun a b : Int => a - b) 0 [.insert 4, .insert 2, .insert 6,
        .remove 4] []).1 ∧
        rbNfind (fun a b : Int => a - b) head 3 =
          some ((nodes.find? fun node => 3 - node.2 ≤ 0).map Prod.fst) ∧
          rbMinmax head (-1) = some (nodes.head?.map Prod.fst) ∧
          rbMinmax head 1 = some (nodes.getLast?.map Prod.fst) :=
  rb_tree_run_bounds lawful_difference 0 _ 3

end TWlib.RbTree
