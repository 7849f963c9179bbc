import Mathlib.Data.List.Forall2
import TWlib.Lib.SortedList

/-!
# Sorted lists in which keys may be equal

What a search structure stands for that does not look for equal keys when it adds one. A key that is
added may stand anywhere among its equals, one that is removed may be any of them; how many equals
of a key there are is told exactly.
-/

namespace TWlib.Lib.SortedBag

open TWlib.Lib.SortedList

set_option autoImplicit false

variable {Key : Type*}

section Definitions

variable (cmp : Key → Key → Int) (key : Key)

def Ascending (keys : List Key) : Prop := keys.Pairwise fun a b => cmp a b ≤ 0

def copies (keys : List Key) : Nat := keys.countP fun other => cmp key other == 0

def Inserted (old new : List Key) : Prop :=
  ∃ early late, old = early ++ late ∧ new = early ++ key :: late ∧
    (∀ other ∈ early, cmp other key ≤ 0) ∧
    ∀ other ∈ late, cmp key other ≤ 0

/-- Some of the equals of the key may have become the key itself. -/
def Renamed (old new : List Key) : Prop :=
  List.Forall₂ (fun was now => now = was ∨ now = key ∧ cmp key was = 0) old new

/-- One of the equals of the key is gone; `result` is that one or the key. -/
def Removed (old : List Key) (result : Key) (new : List Key) : Prop :=
  ∃ early here late, old = early ++ here :: late ∧ cmp key here = 0 ∧
    (result = here ∨ result = key) ∧
    Renamed cmp key (early ++ late) new

/-- The key has no equal, and the one before its place is gone. -/
def Slipped (old : List Key) (result : Key) (new : List Key) : Prop :=
  ∃ early late, old = early ++ result :: late ∧ new = early ++ late ∧
    Splits cmp key (early ++ [result]) late

end Definitions

variable {cmp : Key → Key → Int} {key other result : Key}
    {keys early late old mid new front back : List Key}

theorem below_or_equal (lawful : Lawful cmp) {a b : Key} : cmp a b ≤ 0 ↔ 0 ≤ cmp b a := by
  have swap := lawful.flip b a
  omega

theorem below_flip (lawful : Lawful cmp) {a b : Key} : 0 < cmp b a ↔ cmp a b < 0 :=
  (lawful.flip a b).symm

theorem lt_of_lt_of_le (lawful : Lawful cmp) {a b c : Key} (first : cmp a b < 0)
    (second : cmp b c ≤ 0) :
    cmp a c < 0 := by
  have atMost := lawful.trans a b c (Int.le_of_lt first) second
  by_contra notBelow
  have back : cmp c a ≤ 0 := (below_or_equal lawful).mpr (by omega)
  have round := lawful.trans b c a second back
  have above := (below_flip lawful).mpr first
  omega

/-! ## How many equals there are -/

theorem equal_iff (lawful : Lawful cmp) {one two : Key} (equal : cmp one two = 0) (key : Key) :
    cmp key one = 0 ↔ cmp key two = 0 := by
  have back := zero_symm lawful equal
  constructor
  · intro first
    have atMost := lawful.trans key one two (by omega) (by omega)
    have atLeast := lawful.trans two one key (by omega) (by have := zero_symm lawful first; omega)
    have other := (below_or_equal lawful).mp atLeast
    omega
  · intro first
    have atMost := lawful.trans key two one (by omega) (by omega)
    have atLeast := lawful.trans one two key (by omega) (by have := zero_symm lawful first; omega)
    have other := (below_or_equal lawful).mp atLeast
    omega

theorem copies_append : copies cmp key (early ++ late) = copies cmp key early +
    copies cmp key late :=
  List.countP_append

theorem copies_cons :
    copies cmp key (other :: keys) = copies cmp key keys + if cmp key other = 0 then 1 else 0 := by
  simp [copies, List.countP_cons]

theorem copies_eq_zero : copies cmp key keys = 0 ↔ ∀ other ∈ keys, cmp key other ≠ 0 := by
  simp [copies, List.countP_eq_zero]

/-! ## Adding a key -/

theorem inserted_inside (inserted : Inserted cmp key old new)
    (below : ∀ other ∈ front, cmp other key ≤ 0) (above : ∀ other ∈ back, cmp key other ≤ 0) :
    Inserted cmp key (front ++ old ++ back) (front ++ new ++ back) := by
  rcases inserted with ⟨early, late, rfl, rfl, before, behind⟩
  refine ⟨front ++ early, late ++ back, by simp, by simp, ?_, ?_⟩
  · intro other member
    rcases List.mem_append.mp member with outside | inside
    · exact below other outside
    · exact before other inside
  · intro other member
    rcases List.mem_append.mp member with inside | outside
    · exact behind other inside
    · exact above other outside

theorem ascending_inserted (ascending : Ascending cmp old) (inserted : Inserted cmp key old new) :
    Ascending cmp new := by
  rcases inserted with ⟨early, late, rfl, rfl, before, behind⟩
  rcases List.pairwise_append.mp ascending with ⟨first, second, across⟩
  refine List.pairwise_append.mpr ⟨first, List.pairwise_cons.mpr ⟨behind, second⟩, ?_⟩
  intro one member two later
  rcases List.mem_cons.mp later with rfl | inside
  · exact before one member
  · exact across one member two inside

theorem copies_inserted (inserted : Inserted cmp other old new) :
    copies cmp key new = copies cmp key old + if cmp key other = 0 then 1 else 0 := by
  rcases inserted with ⟨early, late, rfl, rfl, -, -⟩
  rw [copies_append, copies_append, copies_cons]
  omega

theorem length_inserted (inserted : Inserted cmp key old new) : new.length = old.length + 1 := by
  rcases inserted with ⟨early, late, rfl, rfl, -, -⟩
  simp
  omega

theorem inserted_splits (lawful : Lawful cmp) (absent : lookup cmp key old = none)
    (inserted : Inserted cmp key old new) :
    ∃ early late, old = early ++ late ∧ new = early ++ key :: late ∧ Splits cmp key early late := by
  rcases inserted with ⟨early, late, rfl, rfl, before, behind⟩
  have apart : ∀ other ∈ early ++ late, cmp key other ≠ 0 := by
    intro other member
    simpa using List.find?_eq_none.mp absent other member
  refine ⟨early, late, rfl, rfl, ?_, ?_⟩
  · intro other member
    have atMost := (below_or_equal lawful).mp (before other member)
    have differ := apart other (List.mem_append_left _ member)
    omega
  · intro other member
    have atMost := behind other member
    have differ := apart other (List.mem_append_right _ member)
    omega

theorem inserted_add (lawful : Lawful cmp) (absent : lookup cmp key old = none)
    (inserted : Inserted cmp key old new) :
    new = add cmp key old := by
  rcases inserted_splits lawful absent inserted with ⟨early, late, rfl, rfl, splits⟩
  exact (add_absent splits).symm

theorem increasing_inserted (lawful : Lawful cmp) (increasing : Increasing cmp old)
    (absent : lookup cmp key old = none) (inserted : Inserted cmp key old new) :
    Increasing cmp new := by
  rcases inserted_splits lawful absent inserted with ⟨early, late, rfl, rfl, splits⟩
  exact increasing_add lawful increasing splits

/-! ## Taking one away -/

theorem renamed_refl (keys : List Key) : Renamed cmp key keys keys := by
  induction keys with
  | nil => exact .nil
  | cons first rest inductionHypothesis => exact .cons (.inl rfl) inductionHypothesis

theorem renamed_trans (first : Renamed cmp key old mid) (second : Renamed cmp key mid new) :
    Renamed cmp key old new := by
  induction first generalizing new with
  | nil =>
      cases second
      exact .nil
  | cons same _ inductionHypothesis =>
      cases second with
      | cons again rest =>
      refine .cons ?_ (inductionHypothesis rest)
      rcases again with rfl | ⟨rfl, equal⟩
      · exact same
      · rcases same with rfl | ⟨rfl, was⟩
        · exact .inr ⟨rfl, equal⟩
        · exact .inr ⟨rfl, was⟩

theorem renamed_append {more others : List Key} (first : Renamed cmp key old new)
    (second : Renamed cmp key more others) :
    Renamed cmp key (old ++ more) (new ++ others) := List.rel_append first second

theorem renamed_length (renamed : Renamed cmp key old new) : new.length = old.length :=
  (List.Forall₂.length_eq renamed).symm

theorem renamed_absent (apart : ∀ other ∈ old, cmp key other ≠ 0)
    (renamed : Renamed cmp key old new) : new = old := by
  induction renamed with
  | nil => rfl
  | cons same _ inductionHypothesis =>
      rw [inductionHypothesis fun other member => apart other (List.mem_cons_of_mem _ member)]
      rcases same with rfl | ⟨-, equal⟩
      · rfl
      · exact absurd equal (apart _ List.mem_cons_self)

theorem copies_renamed (lawful : Lawful cmp) (renamed : Renamed cmp other old new) :
    copies cmp key new = copies cmp key old := by
  induction renamed with
  | nil => rfl
  | cons same _ inductionHypothesis =>
      rw [copies_cons, copies_cons, inductionHypothesis]
      rcases same with rfl | ⟨rfl, equal⟩
      · rfl
      · simp only [equal_iff lawful equal]

theorem renamed_mem (renamed : Renamed cmp key old new) (member : other ∈ new) :
    other ∈ old ∨ other = key ∧ ∃ was ∈ old, cmp key was = 0 := by
  induction renamed with
  | nil => cases member
  | cons same _ inductionHypothesis =>
      rcases List.mem_cons.mp member with rfl | rest
      · rcases same with rfl | ⟨rfl, equal⟩
        · exact .inl List.mem_cons_self
        · exact .inr ⟨rfl, _, List.mem_cons_self, equal⟩
      · rcases inductionHypothesis rest with inside | ⟨rfl, was, inside, equal⟩
        · exact .inl (List.mem_cons_of_mem _ inside)
        · exact .inr ⟨rfl, was, List.mem_cons_of_mem _ inside, equal⟩

theorem ascending_renamed (lawful : Lawful cmp) (ascending : Ascending cmp old)
    (renamed : Renamed cmp key old new) :
    Ascending cmp new := by
  have replace : ∀ {one two was : Key}, cmp one was = 0 → cmp was two ≤ 0 → cmp one two ≤ 0 :=
    fun equal below => lawful.trans _ _ _ (by omega) below
  induction renamed with
  | nil => exact .nil
  | @cons was now rest others same tail inductionHypothesis =>
      rcases List.pairwise_cons.mp ascending with ⟨first, later⟩
      refine List.pairwise_cons.mpr ⟨?_, inductionHypothesis later⟩
      have below : ∀ two ∈ others, cmp was two ≤ 0 := by
        intro two member
        rcases renamed_mem tail member with inside | ⟨rfl, at', inside, equal⟩
        · exact first two inside
        · exact lawful.trans _ _ _ (first at' inside) (by have := zero_symm lawful equal; omega)
      intro two member
      rcases same with rfl | ⟨rfl, equal⟩
      · exact below two member
      · exact replace equal (below two member)

theorem removed_inside (removed : Removed cmp key old result new) (front back : List Key) :
    Removed cmp key (front ++ old ++ back) result (front ++ new ++ back) := by
  rcases removed with ⟨early, here, late, rfl, equal, answer, rest⟩
  refine ⟨front ++ early, here, late ++ back, by simp, equal, answer, ?_⟩
  have whole := renamed_append (renamed_append (renamed_refl front) rest) (renamed_refl back)
  simpa using whole

/-- Where some equals were the key before, any of these counts as the one that was taken. -/
theorem removed_renamed (renamed : Renamed cmp key old mid)
    (removed : Removed cmp key mid result new) :
    Removed cmp key old result new := by
  rcases removed with ⟨early, here, late, rfl, equal, answer, rest⟩
  have front := List.forall₂_take_append _ _ _ renamed
  have back := List.forall₂_drop_append _ _ _ renamed
  have whole := List.take_append_drop early.length old
  generalize old.take early.length = first at front whole
  generalize old.drop early.length = second at back whole
  subst whole
  cases back with
  | @cons was _ others _ same tail =>
  have stays : Renamed cmp key (first ++ others) new :=
    renamed_trans (renamed_append front tail) rest
  rcases same with rfl | ⟨rfl, before⟩
  · exact ⟨first, here, others, rfl, equal, answer, stays⟩
  · refine ⟨first, was, others, rfl, before, .inr ?_, stays⟩
    rcases answer with rfl | rfl <;> rfl

theorem copies_removed (lawful : Lawful cmp) (removed : Removed cmp other old result new) :
    copies cmp key old = copies cmp key new + if cmp key other = 0 then 1 else 0 := by
  rcases removed with ⟨early, here, late, rfl, equal, -, rest⟩
  rw [copies_renamed lawful rest, copies_append, copies_append, copies_cons]
  simp only [equal_iff lawful equal]
  omega

theorem ascending_removed (lawful : Lawful cmp) (ascending : Ascending cmp old)
    (removed : Removed cmp key old result new) :
    Ascending cmp new := by
  rcases removed with ⟨early, here, late, rfl, -, -, rest⟩
  exact ascending_renamed lawful (ascending.sublist
    ((List.sublist_cons_self here late).append_left early)) rest

theorem removed_drop (lawful : Lawful cmp) (increasing : Increasing cmp old)
    (removed : Removed cmp key old result new) :
    new = drop cmp key old ∧ ∃ stored, lookup cmp key old = some stored ∧
    (result = stored ∨ result = key) := by
  rcases removed with ⟨early, here, late, rfl, equal, answer, rest⟩
  have splits := increasing_splits lawful increasing equal
  refine ⟨?_, here, lookup_present splits equal, answer⟩
  rw [drop_present splits equal]
  refine renamed_absent ?_ rest
  have absent := lookup_absent splits
  intro other member
  simpa using List.find?_eq_none.mp absent other member

theorem slipped_inside (slipped : Slipped cmp key old result new)
    (below : ∀ other ∈ front, 0 < cmp key other) (above : ∀ other ∈ back, cmp key other < 0) :
    Slipped cmp key (front ++ old ++ back) result (front ++ new ++ back) := by
  rcases slipped with ⟨early, late, rfl, rfl, splits⟩
  refine ⟨front ++ early, late ++ back, by simp, by simp, ?_, ?_⟩
  · intro other member
    rw [List.append_assoc] at member
    rcases List.mem_append.mp member with outside | inside
    · exact below other outside
    · exact splits.below other inside
  · intro other member
    rcases List.mem_append.mp member with inside | outside
    · exact splits.above other inside
    · exact above other outside

theorem removed_length (removed : Removed cmp key old result new) :
    old.length = new.length + 1 := by
  rcases removed with ⟨early, here, late, rfl, -, -, rest⟩
  rw [renamed_length rest, List.length_append, List.length_append, List.length_cons]
  omega

theorem slipped_length (slipped : Slipped cmp key old result new) :
    old.length = new.length + 1 := by
  rcases slipped with ⟨early, late, rfl, rfl, -⟩
  rw [List.length_append, List.length_append, List.length_cons]
  omega

theorem ascending_slipped (ascending : Ascending cmp old)
    (slipped : Slipped cmp key old result new) : Ascending cmp new := by
  rcases slipped with ⟨early, late, rfl, rfl, -⟩
  exact ascending.sublist ((List.sublist_cons_self result late).append_left early)

theorem slipped_absent (slipped : Slipped cmp key old result new) : lookup cmp key old = none := by
  rcases slipped with ⟨early, late, rfl, rfl, splits⟩
  have absent := lookup_absent splits
  simpa using absent

end TWlib.Lib.SortedBag
