import TWlib.Lib.SeparatedRow
import TWlib.Lib.SortedBag

/-!
# Rows that are woven in ascending order

Where a key stands among the separators tells where it stands among all that the row holds.
-/

namespace TWlib.Lib.SortedRow

open TWlib.Lib.SeparatedRow
open TWlib.Lib.SortedList
open TWlib.Lib.SortedBag

set_option autoImplicit false

variable {Item Key : Type*} {cmp : Key → Key → Int} {key other : Key} {inside : Item → List Key}
  {lefts : List (Item × Key)} {rights : List (Key × Item)}

theorem exists_sep_above (lawful : Lawful cmp)
    (ascending : Ascending cmp (weaveLefts inside lefts))
    (member : other ∈ weaveLefts inside lefts) :
    ∃ sep ∈ lefts.map Prod.snd, cmp other sep ≤ 0 := by
  induction lefts with
  | nil => cases member
  | cons entry lefts inductionHypothesis =>
      rw [weaveLefts, List.flatMap_cons] at ascending member
      rcases List.pairwise_append.mp ascending with ⟨first, later, -⟩
      rcases List.mem_append.mp member with here | behind
      · refine ⟨entry.2, by simp, ?_⟩
        rcases List.mem_append.mp here with below | last
        · exact (List.pairwise_append.mp first).2.2 other below entry.2 (by simp)
        · rw [List.mem_singleton.mp last]
          exact Int.le_of_eq (self_zero lawful _)
      · rcases inductionHypothesis later behind with ⟨sep, there, atMost⟩
        exact ⟨sep, List.mem_cons_of_mem _ there, atMost⟩

theorem exists_sep_below (lawful : Lawful cmp)
    (ascending : Ascending cmp (weaveRights inside rights))
    (member : other ∈ weaveRights inside rights) :
    ∃ sep ∈ rights.map Prod.fst, cmp sep other ≤ 0 := by
  induction rights with
  | nil => cases member
  | cons entry rights inductionHypothesis =>
      rw [weaveRights, List.flatMap_cons] at ascending member
      rcases List.pairwise_append.mp ascending with ⟨first, later, -⟩
      rcases List.mem_append.mp member with here | behind
      · refine ⟨entry.1, by simp, ?_⟩
        rcases List.mem_cons.mp here with rfl | above
        · exact Int.le_of_eq (self_zero lawful _)
        · exact (List.pairwise_cons.mp first).1 other above
      · rcases inductionHypothesis later behind with ⟨sep, there, atMost⟩
        exact ⟨sep, List.mem_cons_of_mem _ there, atMost⟩

theorem lefts_below (lawful : Lawful cmp)
    (ascending : Ascending cmp (weaveLefts inside lefts))
    (below : ∀ sep ∈ lefts.map Prod.snd, cmp sep key ≤ 0) :
    ∀ other ∈ weaveLefts inside lefts, cmp other key ≤ 0 := by
  intro other member
  rcases exists_sep_above lawful ascending member with ⟨sep, there, atMost⟩
  exact lawful.trans other sep key atMost (below sep there)

theorem lefts_strictly_below (lawful : Lawful cmp)
    (ascending : Ascending cmp (weaveLefts inside lefts))
    (below : ∀ sep ∈ lefts.map Prod.snd, 0 < cmp key sep) :
    ∀ other ∈ weaveLefts inside lefts, 0 < cmp key other := by
  intro other member
  rcases exists_sep_above lawful ascending member with ⟨sep, there, atMost⟩
  have under := (below_flip lawful).mp (below sep there)
  exact (below_flip lawful).mpr (lt_of_le_of_lt lawful atMost under)

theorem rights_above (lawful : Lawful cmp)
    (ascending : Ascending cmp (weaveRights inside rights))
    (above : ∀ sep ∈ rights.map Prod.fst, cmp key sep ≤ 0) :
    ∀ other ∈ weaveRights inside rights, cmp key other ≤ 0 := by
  intro other member
  rcases exists_sep_below lawful ascending member with ⟨sep, there, atMost⟩
  exact lawful.trans key sep other (above sep there) atMost

theorem rights_strictly_above (lawful : Lawful cmp)
    (ascending : Ascending cmp (weaveRights inside rights))
    (above : ∀ sep ∈ rights.map Prod.fst, cmp key sep < 0) :
    ∀ other ∈ weaveRights inside rights, cmp key other < 0 := by
  intro other member
  rcases exists_sep_below lawful ascending member with ⟨sep, there, atMost⟩
  exact lt_of_lt_of_le lawful (above sep there) atMost

end TWlib.Lib.SortedRow
