import Mathlib.Data.List.Basic

/-!
# Sorted lists under a three-way comparison

What a search structure with a comparison function stands for: a list that increases strictly.
`lookup`, `add` and `drop` are defined on any list; the facts about them ask for a list that a key
splits into what is below it and what is above.
-/

namespace TWlib.Lib.SortedList

set_option autoImplicit false

variable {Key : Type*}

/-- The sign of the result orders the keys. -/
structure Lawful (cmp : Key → Key → Int) : Prop where
  flip : ∀ a b, cmp a b < 0 ↔ 0 < cmp b a
  trans : ∀ a b c, cmp a b ≤ 0 → cmp b c ≤ 0 → cmp a c ≤ 0

section Definitions

variable (cmp : Key → Key → Int) (key : Key)

def Increasing (keys : List Key) : Prop := keys.Pairwise fun a b => cmp a b < 0

def lookup (keys : List Key) : Option Key := keys.find? fun other => cmp key other == 0

/-- A key that is there already stays as it is. -/
def add (keys : List Key) : List Key :=
  if (lookup cmp key keys).isSome then keys
  else keys.takeWhile (fun other => 0 < cmp key other) ++ key :: keys.dropWhile fun other =>
    0 < cmp key other

def drop (keys : List Key) : List Key := keys.filter fun other => cmp key other != 0

/-- All of `early` is below the key, all of `late` is above it. -/
structure Splits (early late : List Key) : Prop where
  below : ∀ other ∈ early, 0 < cmp key other
  above : ∀ other ∈ late, cmp key other < 0

end Definitions

variable {cmp : Key → Key → Int} {key here : Key} {keys early late : List Key}

theorem lt_of_le_of_lt (lawful : Lawful cmp) {a b c : Key} (first : cmp a b ≤ 0)
    (second : cmp b c < 0) :
    cmp a c < 0 := by
  have atMost := lawful.trans a b c first (Int.le_of_lt second)
  by_contra notBelow
  have back : cmp c a ≤ 0 := by
    by_contra above
    have contra := (lawful.flip a c).mpr (by omega)
    omega
  have round := lawful.trans c a b back first
  have other := (lawful.flip b c).mp second
  omega

theorem zero_symm (lawful : Lawful cmp) {a b : Key} (equal : cmp a b = 0) : cmp b a = 0 := by
  have one := lawful.flip a b
  have other := lawful.flip b a
  omega

theorem self_zero (lawful : Lawful cmp) (key : Key) : cmp key key = 0 := by
  have one := lawful.flip key key
  omega

/-- Once the key is not above an entry it is below all later ones. -/
theorem increasing_cut (lawful : Lawful cmp) (increasing : Increasing cmp keys) (key : Key) :
    keys.Pairwise fun a b => cmp key a ≤ 0 → cmp key b < 0 :=
  increasing.imp fun {_ _} below notAbove => lt_of_le_of_lt lawful notAbove below

/-! ## A key that is not there -/

theorem lookup_absent (splits : Splits cmp key early late) :
    lookup cmp key (early ++ late) = none := by
  apply List.find?_eq_none.mpr
  intro other member
  rcases List.mem_append.mp member with front | back
  · have below := splits.below other front
    simp only [beq_iff_eq]
    omega
  · have above := splits.above other back
    simp only [beq_iff_eq]
    omega

theorem add_absent (splits : Splits cmp key early late) :
    add cmp key (early ++ late) = early ++ key :: late := by
  have taken : ∀ other ∈ early, decide (0 < cmp key other) = true :=
    fun other member => decide_eq_true (splits.below other member)
  have left : late.takeWhile (fun other => decide (0 < cmp key other)) = [] := by
    cases late with
    | nil => rfl
    | cons first others =>
        have above := splits.above first List.mem_cons_self
        simp [show ¬ 0 < cmp key first by omega]
  have rest : late.dropWhile (fun other => decide (0 < cmp key other)) = late := by
    cases late with
    | nil => rfl
    | cons first others =>
        have above := splits.above first List.mem_cons_self
        simp [show ¬ 0 < cmp key first by omega]
  rw [add, lookup_absent splits]
  simp [List.takeWhile_append_of_pos taken, List.dropWhile_append_of_pos taken, left, rest]

theorem drop_absent (splits : Splits cmp key early late) :
    drop cmp key (early ++ late) = early ++ late := by
  apply List.filter_eq_self.mpr
  intro other member
  rcases List.mem_append.mp member with front | back
  · have below := splits.below other front
    simp only [bne_iff_ne]
    omega
  · have above := splits.above other back
    simp only [bne_iff_ne]
    omega

theorem drop_of_lookup (absent : lookup cmp key keys = none) : drop cmp key keys = keys := by
  apply List.filter_eq_self.mpr
  intro other member
  have apart := List.find?_eq_none.mp absent other member
  simpa using apart

theorem increasing_add (lawful : Lawful cmp) (increasing : Increasing cmp (early ++ late))
    (splits : Splits cmp key early late) : Increasing cmp (early ++ key :: late) := by
  rcases List.pairwise_append.mp increasing with ⟨front, back, across⟩
  refine List.pairwise_append.mpr ⟨front, List.pairwise_cons.mpr ⟨splits.above, back⟩, ?_⟩
  intro one member other behind
  rcases List.mem_cons.mp behind with rfl | later
  · exact (lawful.flip one other).mpr (splits.below one member)
  · exact across one member other later

/-! ## A key that is there -/

theorem lookup_present (splits : Splits cmp key early late) (equal : cmp key here = 0) :
    lookup cmp key (early ++ here :: late) = some here := by
  have passed : early.find? (fun other => cmp key other == 0) = none := by
    apply List.find?_eq_none.mpr
    intro other member
    have below := splits.below other member
    simp only [beq_iff_eq]
    omega
  rw [lookup, List.find?_append, passed, Option.none_or]
  simp [equal]

theorem drop_present (splits : Splits cmp key early late) (equal : cmp key here = 0) :
    drop cmp key (early ++ here :: late) = early ++ late := by
  have rest := drop_absent splits
  simp only [drop, List.filter_append] at rest ⊢
  rw [List.filter_cons_of_neg (by simp [equal]), rest]

theorem increasing_drop (increasing : Increasing cmp (early ++ here :: late)) :
    Increasing cmp (early ++ late) :=
  increasing.sublist ((List.sublist_cons_self here late).append_left early)

theorem increasing_splits (lawful : Lawful cmp)
    (increasing : Increasing cmp (early ++ here :: late)) (equal : cmp key here = 0) :
    Splits cmp key early late := by
  rcases List.pairwise_append.mp increasing with ⟨-, back, across⟩
  constructor
  · intro other member
    have below := across other member here List.mem_cons_self
    have equal' : cmp here key ≤ 0 := Int.le_of_eq (zero_symm lawful equal)
    have back := lawful.flip other key
    by_contra notBelow
    have reached : cmp key here < 0 := lt_of_le_of_lt lawful (by omega) below
    omega
  · exact fun other member => lt_of_le_of_lt lawful (by omega)
      ((List.pairwise_cons.mp back).1 other member)

theorem lookup_mem (lawful : Lawful cmp) (increasing : Increasing cmp keys) (member : here ∈ keys)
    (equal : cmp key here = 0) : lookup cmp key keys = some here := by
  rcases List.append_of_mem member with ⟨early, late, rfl⟩
  exact lookup_present (increasing_splits lawful increasing equal) equal

end TWlib.Lib.SortedList
