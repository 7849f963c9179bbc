import Mathlib.Algebra.Order.Ring.Int
import Mathlib.Data.List.Basic
import Mathlib.Data.List.Induction

/-!
# Items with a separator between any two

A node of a search tree with many children is such a row: one item more than separators. `weave` is
the order in which a walk meets them, `splice` a part of the row with what stands to both sides of
it, and the edits of a list by position are those that shift an array.
-/

namespace TWlib.Lib.SeparatedRow

set_option autoImplicit false

/-! ## Edits by position -/

section Edits

variable {Value : Type*}

def insertAt (place : Nat) (value : Value) (list : List Value) : Option (List Value) :=
  if place ≤ list.length then some (list.take place ++ value :: list.drop place) else none

def removeAt (place : Nat) (list : List Value) : Option (List Value) :=
  if place < list.length then some (list.take place ++ list.drop (place + 1)) else none

def replaceAt (place : Nat) (value : Value) (list : List Value) : Option (List Value) :=
  if place < list.length then some (list.set place value) else none

variable {early late : List Value} {value : Value} {place : Nat}

theorem get_at (here : place = early.length) : (early ++ value :: late)[place]? = some value := by
  subst here
  simp

theorem insert_at (here : place = early.length) :
    insertAt place value (early ++ late) = some (early ++ value :: late) := by
  subst here
  simp [insertAt]

theorem remove_at (here : place = early.length) :
    removeAt place (early ++ value :: late) = some (early ++ late) := by
  subst here
  simp [removeAt]

theorem remove_next {other : Value} (here : place = early.length) :
    removeAt (place + 1) (early ++ other :: value :: late) = some (early ++ other :: late) := by
  have moved : removeAt (place + 1) ((early ++ [other]) ++ value :: late) =
      some ((early ++ [other]) ++ late) :=
    remove_at (by simp [here])
  simpa using moved

theorem replace_at {other : Value} (here : place = early.length) :
    replaceAt place other (early ++ value :: late) = some (early ++ other :: late) := by
  subst here
  simp [replaceAt]

end Edits

/-! ## Rows -/

structure Row (Item Sep : Type*) where
  first : Item
  rest : List (Sep × Item)

variable {Item Sep : Type*}

def Row.items (row : Row Item Sep) : List Item := row.first :: row.rest.map Prod.snd

def Row.seps (row : Row Item Sep) : List Sep := row.rest.map Prod.fst

def weaveRights (inside : Item → List Sep) (rights : List (Sep × Item)) : List Sep :=
  rights.flatMap fun entry => entry.1 :: inside entry.2

def weaveLefts (inside : Item → List Sep) (lefts : List (Item × Sep)) : List Sep :=
  lefts.flatMap fun entry => inside entry.1 ++ [entry.2]

def Row.weave (inside : Item → List Sep) (row : Row Item Sep) : List Sep :=
  inside row.first ++ weaveRights inside row.rest

/-- `left`, the separator and `right` in one row. -/
def Row.join (left : Row Item Sep) (sep : Sep) (right : Row Item Sep) : Row Item Sep :=
  ⟨left.first, left.rest ++ (sep, right.first) :: right.rest⟩

def splice (mid : Row Item Sep) (rights : List (Sep × Item)) : List (Item × Sep) → Row Item Sep
  | [] => ⟨mid.first, mid.rest ++ rights⟩
  | entry :: lefts =>
      ⟨entry.1, (entry.2, (splice mid rights lefts).first) :: (splice mid rights lefts).rest⟩

variable {left right mid other row : Row Item Sep} {lefts : List (Item × Sep)}
  {rights : List (Sep × Item)} {item : Item} {sep : Sep} {inside : Item → List Sep}

@[simp] theorem length_items : row.items.length = row.rest.length + 1 := by simp [Row.items]

@[simp] theorem length_seps : row.seps.length = row.rest.length := by simp [Row.seps]

@[simp] theorem items_single : (⟨item, []⟩ : Row Item Sep).items = [item] := rfl

@[simp] theorem seps_single : (⟨item, []⟩ : Row Item Sep).seps = [] := rfl

@[simp] theorem weave_single : (⟨item, []⟩ : Row Item Sep).weave inside = inside item :=
  List.append_nil _

@[simp] theorem items_pair {behind : Item} :
    (⟨item, [(sep, behind)]⟩ : Row Item Sep).items = [item, behind] := rfl

@[simp] theorem seps_pair {behind : Item} : (⟨item, [(sep, behind)]⟩ : Row Item Sep).seps = [sep] :=
  rfl

@[simp] theorem weave_pair {behind : Item} :
    (⟨item, [(sep, behind)]⟩ : Row Item Sep).weave inside = inside item ++ sep ::
    inside behind := by
  simp [Row.weave, weaveRights]

theorem first_mem : row.first ∈ row.items := List.mem_cons_self

/-! ## Joined rows -/

theorem items_join : (left.join sep right).items = left.items ++ right.items := by
  simp [Row.join, Row.items]

theorem seps_join : (left.join sep right).seps = left.seps ++ sep :: right.seps := by
  simp [Row.join, Row.seps]

theorem weave_join : (left.join sep right).weave inside = left.weave inside ++ sep ::
    right.weave inside := by
  simp [Row.join, Row.weave, weaveRights]

theorem exists_join {place : Nat} (bound : place < row.rest.length) :
    ∃ left sep right, row = Row.join left sep right ∧ left.rest.length = place := by
  refine ⟨⟨row.first, row.rest.take place⟩, row.rest[place].1,
    ⟨row.rest[place].2, row.rest.drop (place + 1)⟩, ?_, ?_⟩
  · show row = ⟨row.first, row.rest.take place ++ row.rest[place] :: row.rest.drop (place + 1)⟩
    rw [← List.drop_eq_getElem_cons bound, List.take_append_drop]
  · exact List.length_take_of_le (Nat.le_of_lt bound)

/-! ## Spliced rows -/

theorem items_splice : (splice mid rights lefts).items = lefts.map Prod.fst ++ mid.items ++
    rights.map Prod.snd := by
  induction lefts with
  | nil => simp [splice, Row.items]
  | cons entry lefts inductionHypothesis =>
      simp only [Row.items] at inductionHypothesis
      simp [splice, Row.items, inductionHypothesis]

theorem seps_splice : (splice mid rights lefts).seps = lefts.map Prod.snd ++ mid.seps ++
    rights.map Prod.fst := by
  induction lefts with
  | nil => simp [splice, Row.seps]
  | cons entry lefts inductionHypothesis =>
      simp only [Row.seps] at inductionHypothesis
      simp [splice, Row.seps, inductionHypothesis]

theorem weave_splice : (splice mid rights lefts).weave inside =
    weaveLefts inside lefts ++ mid.weave inside ++ weaveRights inside rights := by
  induction lefts with
  | nil => simp [splice, Row.weave, weaveLefts, weaveRights]
  | cons entry lefts inductionHypothesis =>
      simp only [Row.weave, weaveLefts, weaveRights] at inductionHypothesis
      simp [splice, Row.weave, weaveLefts, weaveRights, inductionHypothesis]

theorem length_splice : (splice mid rights lefts).rest.length = lefts.length + mid.rest.length +
    rights.length := by
  have lengths : (splice mid rights lefts).seps.length =
      (lefts.map Prod.snd ++ mid.seps ++ rights.map Prod.fst).length :=
    congrArg List.length seps_splice
  simpa [Nat.add_assoc] using lengths

theorem mem_items_splice : item ∈ (splice mid rights lefts).items ↔
    item ∈ lefts.map Prod.fst ∨ item ∈ mid.items ∨ item ∈ rights.map Prod.snd := by
  rw [items_splice, List.append_assoc, List.mem_append, List.mem_append]

theorem first_splice {Field : Type*} (field : Item → Field)
    (same : field other.first = field mid.first) :
    field (splice other rights lefts).first = field (splice mid rights lefts).first := by
  cases lefts with
  | nil => exact same
  | cons entry lefts => rfl

theorem splice_next {behind : Item} :
    splice ⟨item, []⟩ ((sep, behind) :: rights) lefts = splice ⟨item,
      [(sep, behind)]⟩ rights lefts := by
  induction lefts with
  | nil => rfl
  | cons first lefts inductionHypothesis => simp [splice, inductionHypothesis]

theorem splice_before {behind : Item} :
    splice ⟨behind, []⟩ rights (lefts ++ [(item, sep)]) = splice ⟨item,
      [(sep, behind)]⟩ rights lefts := by
  induction lefts with
  | nil => rfl
  | cons first lefts inductionHypothesis => simp [splice, inductionHypothesis]

theorem seps_sublist : row.seps.Sublist (row.weave inside) := by
  rcases row with ⟨first, rest⟩
  refine List.Sublist.trans ?_ (List.sublist_append_right _ _)
  induction rest with
  | nil => exact .slnil
  | cons entry rest inductionHypothesis =>
      rw [weaveRights, List.flatMap_cons, List.cons_append]
      exact (inductionHypothesis.trans (List.sublist_append_right _ _)).cons_cons entry.1

/-- Every item counts for one more than it holds, which makes up for the separators. -/
theorem length_weave : (row.weave inside).length + 1 =
    (row.items.map fun item => (inside item).length + 1).sum := by
  rcases row with ⟨first, rest⟩
  rw [Row.weave, List.length_append, Row.items, List.map_cons, List.sum_cons]
  induction rest with
  | nil => rfl
  | cons entry rest inductionHypothesis =>
      simp only [weaveRights, List.flatMap_cons, List.length_append, List.length_cons,
        List.map_cons, List.sum_cons] at *
      omega

theorem getLast_lefts {lefts : List (Item × Sep)} :
    (weaveLefts inside lefts).getLast? = (lefts.map Prod.snd).getLast? := by
  induction lefts using List.reverseRecOn with
  | nil => rfl
  | append_singleton lefts entry _ => simp [weaveLefts, List.flatMap_append]

theorem head_rights {rights : List (Sep × Item)} :
    (weaveRights inside rights).head? = (rights.map Prod.fst).head? := by
  cases rights with
  | nil => rfl
  | cons entry rights => rfl

theorem exists_splice (place : Nat) : ∀ (row : Row Item Sep), place ≤ row.rest.length →
    ∃ lefts item rights, lefts.length = place ∧ row = splice ⟨item, []⟩ rights lefts := by
  induction place with
  | zero => exact fun row _ => ⟨[], row.first, row.rest, rfl, rfl⟩
  | succ place inductionHypothesis =>
      intro row bound
      rcases row with ⟨first, rest⟩
      cases rest with
      | nil => simp at bound
      | cons entry rest =>
          rcases inductionHypothesis ⟨entry.2, rest⟩ (by simpa using bound) with ⟨lefts, item,
            rights, count, same⟩
          refine ⟨(first, entry.1) :: lefts, item, rights, by simp [count], ?_⟩
          simp [splice, ← same]

theorem exists_splice_seps {early late : List Sep} (seps : row.seps = early ++ late) :
    ∃ lefts item rights, row = splice ⟨item, []⟩ rights lefts ∧ lefts.map Prod.snd = early ∧
    rights.map Prod.fst = late := by
  have count : row.rest.length = early.length + late.length := by
    have lengths := congrArg List.length seps
    simpa using lengths
  rcases exists_splice early.length row (by omega) with ⟨lefts, item, rights, place, rfl⟩
  rw [seps_splice, seps_single, List.append_nil] at seps
  rcases List.append_inj seps (by simpa using place) with ⟨front, back⟩
  exact ⟨lefts, item, rights, rfl, front, back⟩

theorem exists_splice_pair (place : Nat) (row : Row Item Sep) (bound : place < row.rest.length) :
    ∃ lefts left sep right rights, lefts.length = place ∧
    row = splice ⟨left, [(sep, right)]⟩ rights lefts := by
  rcases exists_splice place row (Nat.le_of_lt bound) with ⟨lefts, item, rights, count, rfl⟩
  cases rights with
  | nil =>
      rw [length_splice] at bound
      simp [count] at bound
  | cons entry rights =>
      exact ⟨lefts, item, entry.1, entry.2, rights, count, splice_next⟩

theorem exists_splice_pair_seps {early late : List Sep} (seps : row.seps = early ++ sep :: late) :
    ∃ lefts left right rights, row = splice ⟨left, [(sep, right)]⟩ rights lefts ∧
      lefts.map Prod.snd = early ∧
      rights.map Prod.fst = late := by
  rcases exists_splice_seps seps with ⟨lefts, item, rights, shape, front, back⟩
  cases rights with
  | nil => cases back
  | cons entry rights =>
      rcases List.cons_eq_cons.mp back with ⟨rfl, rest⟩
      exact ⟨lefts, item, entry.2, rights, shape.trans splice_next, front, rest⟩

end TWlib.Lib.SeparatedRow
