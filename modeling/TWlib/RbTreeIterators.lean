import Mathlib.Data.List.Induction
import TWlib.RbTreeRuns

/-!
# The iterators of an `RB_Tree`

An iterator on an unchanged tree is a cursor in the sorted list that stops at both ends. Of the
changes of the tree only the removal of the node under it does it any harm.
-/

namespace TWlib.RbTree

open TWlib.Lib.CellStore
open TWlib.Lib.SortedList

set_option autoImplicit false

variable {Data : Type} {cmp : Data → Data → Int} {head next : RbHead Data}
    {nodes : List (Nat × Data)} {null : Data}

inductive IterCall where
  | startMin
  | startMax
  | getNext
  | getPrev
  | current

section IterCalls

variable (null : Data)

/-- The result is `none` for the calls that return nothing. -/
def performIter (head : RbHead Data) (iter : Iter) : IterCall → Option (Iter × Option Data)
  | .startMin => (Iter.startMin head).map fun iter => (iter, none)
  | .startMax => (Iter.startMax head).map fun iter => (iter, none)
  | .getNext => (iter.getNext null head).map fun result => (result.1, some result.2)
  | .getPrev => (iter.getPrev null head).map fun result => (result.1, some result.2)
  | .current => (iter.current null head).map fun result => (iter, some result)

def runIter (head : RbHead Data) : List IterCall → Iter → Option (Iter × List (Option Data))
  | [], iter => some (iter, [])
  | call :: calls, iter => do
      let (iter, answer) ← performIter null head iter call
      let (iter, answers) ← runIter head calls iter
      some (iter, answer :: answers)

/-- A cursor in the sorted list, which stays where it is at either end. -/
def expectedIter (keys : List Data) (cursor : Option Nat) : IterCall → Option Nat × Option Data
  | .startMin => (if keys = [] then none else some 0, none)
  | .startMax => (if keys = [] then none else some (keys.length - 1), none)
  | .getNext =>
      match cursor with
      | none => (none, some null)
      | some place =>
          if place + 1 < keys.length then (some (place + 1), some (keys.getD (place + 1) null))
          else (some place, some null)
  | .getPrev =>
      match cursor with
      | none => (none, some null)
      | some 0 => (some 0, some null)
      | some (place + 1) => (some place, some (keys.getD place null))
  | .current => (cursor, some ((cursor.map fun place => keys.getD place null).getD null))

def expectedIterRun (keys : List Data) : List IterCall → Option Nat → Option Nat ×
    List (Option Data)
  | [], cursor => (cursor, [])
  | call :: calls, cursor =>
      let (cursor, answer) := expectedIter null keys cursor call
      let (cursor, answers) := expectedIterRun keys calls cursor
      (cursor, answer :: answers)

end IterCalls

/-- The iterator stands on the node at the cursor. -/
def Stands (nodes : List (Nat × Data)) (iter : Iter) (cursor : Option Nat) : Prop :=
  match cursor with
  | none => iter.node = none
  | some place =>
      ∃ early late cell data, nodes = early ++ (cell, data) :: late ∧ early.length = place ∧
      iter.node = some cell

theorem data_read {cell : Nat} {data : Data}
    (content : (head.nodes.read cell).map RbNode.data = some data) :
    ∃ entry, head.nodes.read cell = some entry ∧ entry.data = data := by
  cases read : head.nodes.read cell with
  | none => simp [read] at content
  | some entry => exact ⟨entry, rfl, by simpa [read] using content⟩

theorem iter_on_node {early late : List (Nat × Data)} {cell : Nat} {data : Data} (null : Data)
    (represents : Represents cmp head (early ++ (cell, data) :: late)) :
    Iter.getNext null ⟨some cell⟩ head =
        some ((late.head?.map fun node => (⟨some node.1⟩, node.2)).getD (⟨some cell⟩, null)) ∧
      Iter.getPrev null ⟨some cell⟩ head =
          some ((early.getLast?.map fun node => (⟨some node.1⟩, node.2)).getD (⟨some cell⟩, null)) ∧
        Iter.current null ⟨some cell⟩ head = some data := by
  rcases neighbour_spec represents with ⟨next, prev, content⟩
  refine ⟨?_, ?_, ?_⟩
  · cases late with
    | nil => simp [Iter.getNext, Iter.step, next]
    | cons node late =>
        have again : early ++ (cell, data) :: node :: late = (early ++ [(cell, data)]) ++ (node.1,
          node.2) :: late := by simp
        rcases data_read (neighbour_spec (again ▸ represents)).2.2 with ⟨entry, read, same⟩
        simp [Iter.getNext, Iter.step, next, read, same]
  · cases early using List.reverseRecOn with
    | nil =>
        rw [List.getLast?_nil] at prev
        simp [Iter.getPrev, Iter.step, prev]
    | append_singleton early node =>
        have again : early ++ [node] ++ (cell, data) :: late = early ++ (node.1, node.2) :: (cell,
          data) :: late := by simp
        rcases data_read (neighbour_spec (again ▸ represents)).2.2 with ⟨entry, read, same⟩
        rw [List.getLast?_concat] at prev
        simp [Iter.getPrev, Iter.step, prev, read, same]
  · rcases data_read content with ⟨entry, read, same⟩
    simp [Iter.current, read, same]

theorem perform_iter_spec (represents : Represents cmp head nodes) {iter : Iter}
    {cursor : Option Nat} (stands : Stands nodes iter cursor) (null : Data) (call : IterCall) :
    ∃ next answer place, performIter null head iter call = some (next, answer) ∧
      Stands nodes next place ∧
      expectedIter null (nodes.map Prod.snd) cursor call = (place, answer) := by
  cases call with
  | startMin =>
      have start := minmax_spec represents (-1)
      cases nodes with
      | nil =>
          exact ⟨⟨none⟩, none, none, by simp [performIter, Iter.startMin, start],
            rfl, by simp [expectedIter]⟩
      | cons node nodes =>
          refine ⟨⟨some node.1⟩, none, some 0, by simp [performIter, Iter.startMin, start],
            ?_, by simp [expectedIter]⟩
          exact ⟨[], nodes, node.1, node.2, rfl, rfl, rfl⟩
  | startMax =>
      have start := minmax_spec represents 1
      cases nodes using List.reverseRecOn with
      | nil =>
          exact ⟨⟨none⟩, none, none, by simp [performIter, Iter.startMax, start],
            rfl, by simp [expectedIter]⟩
      | append_singleton nodes node =>
          refine ⟨⟨some node.1⟩, none, some nodes.length, by simp [performIter,
            Iter.startMax, start], ?_,
            by simp [expectedIter]⟩
          exact ⟨nodes, [], node.1, node.2, rfl, rfl, rfl⟩
  | getNext =>
      cases cursor with
      | none =>
          have nowhere : iter.node = none := stands
          exact ⟨iter, some null, none, by simp [performIter, Iter.getNext, Iter.step, nowhere],
            stands, rfl⟩
      | some place =>
          rcases iter with ⟨node⟩
          rcases stands with ⟨early, late, cell, data, shape, length, here⟩
          subst shape length here
          have step := (iter_on_node null represents).1
          cases late with
          | nil =>
              exact ⟨⟨some cell⟩, some null, some early.length, by simp [performIter, step],
                ⟨early, [], cell, data, rfl, rfl, rfl⟩, by simp [expectedIter]⟩
          | cons node late =>
              exact ⟨⟨some node.1⟩, some node.2,
                some (early.length + 1), by simp [performIter, step],
                ⟨early ++ [(cell, data)], late, node.1, node.2, by simp, by simp,
                  rfl⟩, by simp [expectedIter, List.getD]⟩
  | getPrev =>
      cases cursor with
      | none =>
          have nowhere : iter.node = none := stands
          exact ⟨iter, some null, none, by simp [performIter, Iter.getPrev, Iter.step, nowhere],
            stands, rfl⟩
      | some place =>
          rcases iter with ⟨node⟩
          rcases stands with ⟨early, late, cell, data, shape, length, here⟩
          subst shape length here
          have step := (iter_on_node null represents).2.1
          cases early using List.reverseRecOn with
          | nil =>
              rw [List.getLast?_nil] at step
              exact ⟨⟨some cell⟩, some null, some 0, by simp [performIter, step],
                ⟨[], late, cell, data, rfl, rfl, rfl⟩, by simp [expectedIter]⟩
          | append_singleton early node =>
              rw [List.getLast?_concat] at step
              exact ⟨⟨some node.1⟩, some node.2, some early.length, by simp [performIter, step],
                ⟨early, (cell, data) :: late, node.1, node.2, by simp, rfl,
                  rfl⟩, by simp [expectedIter, List.getD]⟩
  | current =>
      cases cursor with
      | none =>
          have nowhere : iter.node = none := stands
          exact ⟨iter, some null, none, by simp [performIter, Iter.current, nowhere], stands, rfl⟩
      | some place =>
          rcases iter with ⟨node⟩
          rcases stands with ⟨early, late, cell, data, shape, length, here⟩
          subst shape length here
          have step := (iter_on_node null represents).2.2
          exact ⟨⟨some cell⟩, some data, some early.length, by simp [performIter, step],
            ⟨early, late, cell, data, rfl, rfl, rfl⟩, by simp [expectedIter, List.getD]⟩

theorem run_iter_spec (represents : Represents cmp head nodes) (null : Data)
    (calls : List IterCall) :
    ∀ {iter : Iter} {cursor : Option Nat}, Stands nodes iter cursor → ∃ next place answers,
      runIter null head calls iter = some (next, answers) ∧ Stands nodes next place ∧
        expectedIterRun null (nodes.map Prod.snd) calls cursor = (place, answers) := by
  induction calls with
  | nil => exact fun stands => ⟨_, _, [], rfl, stands, rfl⟩
  | cons call calls inductionHypothesis =>
      intro iter cursor stands
      rcases perform_iter_spec represents stands null call with ⟨middle, answer, between, ran,
        standsMiddle, agrees⟩
      rcases inductionHypothesis standsMiddle with ⟨next, place, answers, ranRest,
        standsNext, agreesRest⟩
      exact ⟨next, place, answer :: answers, by simp [runIter, ran, ranRest], standsNext,
        by simp [expectedIterRun, agrees, agreesRest]⟩

/-- After any run an iterator answers like a cursor in the sorted list of the keys. -/
theorem rb_tree_iterator_run (lawful : Lawful cmp) (null : Data) (calls : List (Call Data))
    (steps : List IterCall) :
    ∃ head answers iter results, run cmp null calls RbHead.new = some (head, answers) ∧
      runIter null head steps Iter.new = some (iter, results) ∧
        results = (expectedIterRun null (expectedRun cmp null calls []).1 steps none).2 := by
  rcases run_spec null lawful calls (represents_new cmp) accounted_new with
    ⟨head, answers, nodes, lost, ran, represents, -, agrees, -⟩
  have start : Stands nodes Iter.new none := rfl
  rcases run_iter_spec represents null steps start with ⟨iter, place, results, stepped, -, same⟩
  have keys : nodes.map Prod.snd = (expectedRun cmp null calls []).1 := congrArg Prod.fst agrees
  rw [keys] at same
  exact ⟨head, answers, iter, results, ran, stepped, (congrArg Prod.snd same).symm⟩

theorem rb_tree_iterator_run_difference :
    ∃ head answers iter results,
      run (fun a b : Int => a - b) 0 [.insert 4, .insert 2, .insert 6] RbHead.new =
        some (head, answers) ∧
        runIter 0 head [.startMin, .current, .getNext, .getNext, .getNext, .getPrev] Iter.new =
          some (iter, results) ∧
          results = (expectedIterRun 0 (expectedRun (fun a b : Int => a - b) 0 [.insert 4,
            .insert 2, .insert 6] []).1
            [.startMin, .current, .getNext, .getNext, .getNext, .getPrev] none).2 :=
  rb_tree_iterator_run lawful_difference 0 _ _

/-! ## Changes under an iterator -/

def removes (cmp : Data → Data → Int) (data : Data) : Call Data → Bool
  | .remove key => cmp key data == 0
  | _ => false

/-- A node that was given up, whose number is not used again. -/
def Gone (head : RbHead Data) (cell : Nat) : Prop :=
  cell < head.nodes.fresh ∧ head.nodes.read cell = none

theorem gone_of_data {cell : Nat} (gone : Gone head cell)
    (fresh : head.nodes.fresh ≤ next.nodes.fresh) (same : (next.nodes.read cell).map RbNode.data =
      (head.nodes.read cell).map RbNode.data) : Gone next cell := by
  refine ⟨Nat.lt_of_lt_of_le gone.1 fresh, ?_⟩
  rw [gone.2, Option.map_none, Option.map_eq_none_iff] at same
  exact same

theorem perform_tracks (null : Data) (lawful : Lawful cmp) (represents : Represents cmp head nodes)
    (call : Call Data) :
    ∃ next answer after, perform cmp null head call = some (next, answer) ∧
      Represents cmp next after ∧
      (∀ cell, Gone head cell → Gone next cell) ∧
        ∀ cell data, (cell, data) ∈ nodes → if removes cmp data call then Gone next cell
        else (cell, data) ∈ after := by
  have unchanged : ∀ {answer : Answer Data}, (∀ data, removes cmp data call = false) →
        perform cmp null head call = some (head, answer) →
        ∃ next answer after, perform cmp null head call = some (next, answer) ∧
          Represents cmp next after ∧
          (∀ cell, Gone head cell → Gone next cell) ∧
            ∀ cell data, (cell, data) ∈ nodes → if removes cmp data call then Gone next cell
            else (cell, data) ∈ after := by
    intro answer quiet ran
    exact ⟨head, answer, nodes, ran, represents, fun _ gone => gone,
      fun cell data member => by simpa [quiet data] using member⟩
  cases call with
  | insert data =>
      rcases insert_spec lawful represents data with ⟨next, inserted, grown, made, kept, outcome⟩
      have gone : ∀ cell, Gone head cell → Gone next cell :=
        fun cell gone => gone_of_data gone (by omega) (kept cell (Nat.ne_of_lt gone.1))
      rcases outcome with ⟨-, stands⟩ | ⟨early, late, -, shape, -, stands⟩
      · exact ⟨next, .nothing, nodes, by simp [perform, inserted], stands, gone,
            fun cell data member => by
          simpa [removes] using member⟩
      · refine ⟨next, .nothing, _, by simp [perform, inserted], stands, gone,
          fun cell data member => ?_⟩
        rw [shape] at member
        simp only [removes, Bool.false_eq_true, if_false, List.mem_append,
          List.mem_cons] at member ⊢
        tauto
  | remove key =>
      rcases remove_spec lawful represents null key with
        ⟨ran, absent⟩ | ⟨next, cell, result, early, late, ran, equal, shape, present, stands, fresh,
          freed, kept⟩
      · refine ⟨head, .data null, nodes, by simp [perform, ran], represents, fun _ gone => gone, ?_⟩
        intro cell data member
        have apart : cmp key data ≠ 0 := by
          have missing := List.find?_eq_none.mp absent data (List.mem_map_of_mem member)
          simpa using missing
        simpa [removes, apart] using member
      · have order := represents.order
        rw [shape, List.map_append, List.map_cons] at order
        have splits := increasing_splits lawful order equal
        have bound : cell < head.nodes.fresh := by
          by_contra beyond
          have content := (neighbour_spec (shape ▸ represents)).2.2
          rw [read_beyond (Nat.le_of_not_lt beyond)] at content
          cases content
        refine ⟨next, .data result, early ++ late, by simp [perform, ran], stands, ?_, ?_⟩
        · intro other gone
          by_cases here : other = cell
          · exact ⟨by rw [here, fresh]; exact bound, by rw [here, freed]⟩
          · exact gone_of_data gone (Nat.le_of_eq fresh.symm) (kept other here)
        · intro other data member
          rw [shape] at member
          rcases List.mem_append.mp member with front | back
          · have below := splits.below data (List.mem_map_of_mem front)
            have apart : cmp key data ≠ 0 := by omega
            simp [removes, apart, front]
          · rcases List.mem_cons.mp back with here | behind
            · cases here
              simp only [removes, equal, beq_self_eq_true, if_true]
              exact ⟨by rw [fresh]; exact bound, freed⟩
            · have above := splits.above data (List.mem_map_of_mem behind)
              have apart : cmp key data ≠ 0 := by omega
              simp [removes, apart, behind]
  | find data =>
      exact unchanged (fun _ => rfl) (by simp [perform, find_spec lawful represents]; rfl)
  | findFill data fill =>
      exact unchanged (fun _ => rfl) (by simp [perform, find_fill_spec lawful represents]; rfl)
  | isEmpty => exact unchanged (fun _ => rfl) rfl

theorem run_tracks (null : Data) (lawful : Lawful cmp) (calls : List (Call Data)) :
    ∀ {head : RbHead Data}
    {nodes : List (Nat × Data)}, Represents cmp head nodes →
    ∃ next answers after, run cmp null calls head = some (next, answers) ∧
      Represents cmp next after ∧
      (∀ cell, Gone head cell → Gone next cell) ∧
        ∀ cell data, (cell, data) ∈ nodes →
          if calls.any (removes cmp data) then Gone next cell else (cell, data) ∈ after := by
  induction calls with
  | nil =>
      intro head nodes represents
      exact ⟨head, [], nodes, rfl, represents, fun _ gone => gone,
        fun cell data member => by simpa using member⟩
  | cons call calls inductionHypothesis =>
      intro head nodes represents
      rcases perform_tracks null lawful represents call with ⟨middle, answer, between, ran, stands,
        gone, tracked⟩
      rcases inductionHypothesis stands with ⟨next, answers, after, ranRest, standsRest, goneRest,
        trackedRest⟩
      refine ⟨next, answer :: answers, after, by simp [run, ran, ranRest], standsRest,
        fun cell lost => goneRest cell (gone cell lost), ?_⟩
      intro cell data member
      have first := tracked cell data member
      by_cases removed : removes cmp data call = true
      · rw [if_pos removed] at first
        simpa [removed] using goneRest cell first
      · rw [if_neg removed] at first
        simpa [removed] using trackedRest cell data first

/-- An iterator on a node of the tree goes on from it in the tree as it is after any further calls:
to the neighbours of its key there. Only when its key was removed it steps through a freed node. -/
theorem rb_tree_iterator_survives (lawful : Lawful cmp) (null : Data)
    (first second : List (Call Data)) :
    ∃ head answers nodes, run cmp null first RbHead.new = some (head, answers) ∧
      Represents cmp head nodes ∧
      ∃ next results after, run cmp null second head = some (next, results) ∧
        Represents cmp next after ∧
        ∀ cell data, (cell, data) ∈ nodes →
          if second.any (removes cmp data) then
            Iter.getNext null ⟨some cell⟩ next = none ∧ Iter.getPrev null ⟨some cell⟩ next = none ∧
              Iter.current null ⟨some cell⟩ next = none
          else ∃ early late, after = early ++ (cell, data) :: late ∧
            Iter.getNext null ⟨some cell⟩ next =
              some ((late.head?.map fun node => (⟨some node.1⟩, node.2)).getD (⟨some cell⟩, null)) ∧
            Iter.getPrev null ⟨some cell⟩ next =
              some ((early.getLast?.map fun node => (⟨some node.1⟩, node.2)).getD
                (⟨some cell⟩, null)) ∧
            Iter.current null ⟨some cell⟩ next = some data := by
  rcases run_tracks null lawful first (represents_new cmp) with ⟨head, answers, nodes, ran,
    represents, -, -⟩
  rcases run_tracks null lawful second represents with ⟨next, results, after, ranSecond,
    stands, -, tracked⟩
  refine ⟨head, answers, nodes, ran, represents, next, results, after, ranSecond, stands, ?_⟩
  intro cell data member
  have here := tracked cell data member
  by_cases removed : second.any (removes cmp data) = true
  · rw [if_pos removed] at here ⊢
    simp [Iter.getNext, Iter.getPrev, Iter.current, Iter.step, rbNeighbour, rbChild, here.2]
  · rw [if_neg removed] at here ⊢
    rcases List.append_of_mem here with ⟨early, late, shape⟩
    exact ⟨early, late, shape, iter_on_node null (shape ▸ stands)⟩

theorem rb_tree_iterator_survives_difference :
    ∃ head answers nodes, run (fun a b : Int => a - b) 0 [.insert 4, .insert 2,
        .insert 6] RbHead.new =
        some (head, answers) ∧ Represents (fun a b : Int => a - b) head nodes ∧
      ∃ next results after, run (fun a b : Int => a - b) 0 [.insert 5, .remove 2] head =
        some (next, results) ∧
        Represents (fun a b : Int => a - b) next after ∧
        ∀ cell data, (cell, data) ∈ nodes →
          if [Call.insert 5, Call.remove 2].any (removes (fun a b : Int => a - b) data) then
            Iter.getNext 0 ⟨some cell⟩ next = none ∧ Iter.getPrev 0 ⟨some cell⟩ next = none ∧
              Iter.current 0 ⟨some cell⟩ next = none
          else ∃ early late, after = early ++ (cell, data) :: late ∧
            Iter.getNext 0 ⟨some cell⟩ next =
              some ((late.head?.map fun node => (⟨some node.1⟩, node.2)).getD (⟨some cell⟩, 0)) ∧
            Iter.getPrev 0 ⟨some cell⟩ next =
              some ((early.getLast?.map fun node => (⟨some node.1⟩, node.2)).getD
                (⟨some cell⟩, 0)) ∧
            Iter.current 0 ⟨some cell⟩ next = some data :=
  rb_tree_iterator_survives lawful_difference 0 _ _

end TWlib.RbTree
