import TWlib.LListOwnership

/-!
# What a removal from a doubly linked list returns and deletes

In every run the list is a finite sequence with cursors and answers as that does. `removeHead`,
`removeTail` and `clearAll` free the links of the elements that they remove, and only those; a
removal through an iterator frees none.
-/

namespace TWlib.LListLinks

open TWlib.Lib.CellStore TWlib.Lib.LinkedChain TWlib.Lib.DoublyLinked TWlib.Lib.ValueChain

set_option autoImplicit false

variable {Item : Type*}

/-- The positions of the elements that a call removes. -/
def Sequence.Removes (seq : Sequence Item) : Call Item → Nat → Prop
  | .removeHead, place => place = 0
  | .removeTail, place => place + 1 = seq.items.length
  | .clearAll, _ => True
  | .removeNext i, place | .removePrev i, place => seq.cursors i = some place
  | _, _ => False

/-- The links that the call frees are precisely those of the elements that it removes. -/
def Performed.Deletes (taken : Performed Item) : Prop :=
  ∃ seq cells, Refines taken.before seq cells ∧
    ∀ link, link ∈ givenUp taken.before.links taken.after.links ↔
      ∃ place, seq.Removes taken.call place ∧ cells[place]? = some link

/-! ## What a call frees -/

section Freed

variable {links after : Links Item} {list : LList} {target : Option Nat} {link : Nat}

theorem rewired_frees_none (rewired : Rewired links after) : link ∉ givenUp links after := by
  rw [mem_given_up]
  rintro ⟨present, gone⟩
  have alive := rewired.alive link
  rw [present, gone] at alive
  cases alive

theorem makes_frees_none (makes : Makes list links after) : link ∉ givenUp links after := by
  unfold Makes at makes
  split_ifs at makes
  · rcases makes with ⟨made, rewired⟩
    rw [mem_given_up]
    rintro ⟨present, gone⟩
    have alive := rewired.alive link
    have bound := alive_bound present
    rw [gone, read_push, if_neg (by omega), present] at alive
    cases alive
  · rw [makes]
    exact rewired_frees_none (rewired_refl _)

theorem frees_target (frees : Frees target links after)
    (alive : ∀ link, target = some link → (links.read link).isSome) :
    link ∈ givenUp links after ↔ target = some link := by
  cases target with
  | none =>
      have same : after = links := frees
      rw [same]
      exact ⟨fun freed => absurd freed (rewired_frees_none (rewired_refl _)), nofun⟩
  | some gone =>
      rcases frees with ⟨middle, rewired, rfl⟩
      rw [mem_given_up, read_give_up, ← rewired.alive, Option.some.injEq]
      have present := alive gone rfl
      rw [← rewired.alive] at present
      by_cases same : link = gone
      · subst same
        simp [present]
      · rw [if_neg same]
        constructor
        · rintro ⟨there, missing⟩
          rw [missing] at there
          cases there
        · exact fun impossible => absurd impossible.symm same

end Freed

variable {blank : Item} {world next : World Item} {call : Call Item} {result : Result Item}
  {cells : List Nat} {seq : Sequence Item} {link : Nat}

theorem refines_alive (refines : Refines world seq cells) (member : link ∈ cells) :
    (world.links.read link).isSome := by
  rcases present_of_value (represents_exists refines.represents member) with ⟨content, present⟩
  rw [present]
  rfl

theorem perform_frees_head (refines : Refines world seq cells)
    (performed : perform blank world .removeHead = some (next, result)) :
    link ∈ givenUp world.links next.links ↔ cells[0]? = some link := by
  have head : world.list.head = cells[0]? :=
    (linked_head refines.represents.linked).trans List.head?_eq_getElem?
  rcases Option.map_eq_some_iff.mp performed with ⟨⟨list, links, fill⟩, removed, same⟩
  cases same
  rw [← head]
  apply frees_target (remove_head_frees removed)
  intro first here
  exact refines_alive refines (List.mem_of_getElem? (head.symm.trans here))

theorem perform_frees_tail (refines : Refines world seq cells)
    (performed : perform blank world .removeTail = some (next, result)) :
    link ∈ givenUp world.links next.links ↔ cells.getLast? = some link := by
  have tail : world.list.tail = cells.getLast? := linked_tail refines.represents.linked
  rcases Option.map_eq_some_iff.mp performed with ⟨⟨list, links, fill⟩, removed, same⟩
  cases same
  rw [← tail]
  apply frees_target (remove_tail_frees removed)
  intro last here
  exact refines_alive refines (List.mem_of_getLast? (tail.symm.trans here))

theorem perform_frees_all (refines : Refines world seq cells)
    (performed : perform blank world .clearAll = some (next, result)) :
    link ∈ givenUp world.links next.links ↔ link ∈ cells := by
  rcases Option.map_eq_some_iff.mp performed with ⟨⟨list, links⟩, cleared, same⟩
  cases same
  rcases clear_all_eq refines.represents with ⟨after, clears, -, -, reads⟩
  cases Option.some.inj (clears.symm.trans cleared)
  rw [mem_given_up, reads]
  constructor
  · rintro ⟨present, gone⟩
    by_cases member : link ∈ cells
    · exact member
    · rw [if_neg member] at gone
      rw [gone] at present
      cases present
  · intro member
    rw [if_pos member]
    exact ⟨refines_alive refines member, rfl⟩

theorem perform_frees_none (performed : perform blank world call = some (next, result))
    (head : call ≠ .removeHead) (tail : call ≠ .removeTail) (all : call ≠ .clearAll) :
    link ∉ givenUp world.links next.links := by
  cases call with
  | addToTail theD =>
      rcases Option.map_eq_some_iff.mp performed with ⟨⟨list, links⟩, added, same⟩
      cases same
      exact makes_frees_none (add_to_tail_makes added)
  | addToHead theD =>
      rcases Option.map_eq_some_iff.mp performed with ⟨⟨list, links⟩, added, same⟩
      cases same
      exact makes_frees_none (add_to_head_makes added)
  | addEmptyTail =>
      rcases Option.map_eq_some_iff.mp performed with ⟨⟨list, links, ret⟩, added, same⟩
      cases same
      exact makes_frees_none (add_to_tail_makes (add_empty_tail_same added))
  | setCurrent i fill | setCurrentVal i fill =>
      rcases Option.map_eq_some_iff.mp performed with ⟨⟨links, ret⟩, set, same⟩
      cases same
      exact rewired_frees_none (set_current_rewired set)
  | removeNext i => exact rewired_frees_none (unlinks_rewired (perform_remove_next performed))
  | removePrev i => exact rewired_frees_none (unlinks_rewired (perform_remove_prev performed))
  | getNext i | getPrev i | getCurrent i | peekHead | peekTail =>
      rcases Option.map_eq_some_iff.mp performed with ⟨found, -, same⟩
      cases same
      exact rewired_frees_none (rewired_refl _)
  | enable | disable | newIter i | startIterHead i | startIterTail i | releaseIter i | atEnd i =>
      cases performed
      exact rewired_frees_none (rewired_refl _)
  | removeHead => exact absurd rfl head
  | removeTail => exact absurd rfl tail
  | clearAll => exact absurd rfl all

/-! ## One call and a run -/

theorem cursor_of_look (refines : Refines world seq cells) {i : Nat} :
    (∃ link place, seq.cursors i = some place ∧ cells[place]? = some link) ↔
    (world.iters i).look.isSome = true := by
  have stands := refines.stands i
  constructor
  · rintro ⟨link, place, cursor, here⟩
    rw [cursor] at stands
    generalize world.iters i = iter at stands
    cases stands
    rfl
  · intro on
    generalize world.iters i = iter at stands on
    generalize seq.cursors i = cursor at stands
    cases stands with
    | ended => cases on
    | on here => exact ⟨_, _, rfl, here⟩

/-- A removal through an iterator deletes nothing, and so is right only where there is nothing to
remove. -/
theorem iterator_deletes_iff (refines : Refines world seq cells) {i : Nat}
    (removes : ∀ (seq : Sequence Item) place, seq.Removes call place ↔ seq.cursors i = some place)
    (nothing : ∀ link, link ∉ givenUp world.links next.links) :
    (⟨world, call, result, next⟩ : Performed Item).Deletes ↔
    (world.iters i).look.isSome = false := by
  constructor
  · rintro ⟨other, others, refined, frees⟩
    rw [Bool.eq_false_iff]
    intro stands
    rcases (cursor_of_look refined).mpr stands with ⟨link, place, cursor, here⟩
    exact nothing link ((frees link).mpr ⟨place, (removes other place).mpr cursor, here⟩)
  · intro ended
    refine ⟨seq, cells, refines, fun link => ⟨fun freed => absurd freed (nothing link), ?_⟩⟩
    rintro ⟨place, cursor, here⟩
    have stands := (cursor_of_look refines).mp ⟨link, place, (removes seq place).mp cursor, here⟩
    rw [ended] at stands
    cases stands

theorem perform_deletes_iff (refines : Refines world seq cells)
    (performed : perform blank world call = some (next, result)) :
    (⟨world, call, result, next⟩ : Performed Item).Deletes ↔
      (⟨world, call, result, next⟩ : Performed Item).unlinks = false := by
  have length := represents_length refines.represents
  cases call with
  | removeHead =>
      refine ⟨fun _ => rfl, fun _ => ⟨seq, cells, refines, fun link => ?_⟩⟩
      simp only [perform_frees_head refines performed, Sequence.Removes, exists_eq_left]
  | removeTail =>
      refine ⟨fun _ => rfl, fun _ => ⟨seq, cells, refines, fun link => ?_⟩⟩
      rw [perform_frees_tail refines performed, List.getLast?_eq_getElem?]
      constructor
      · intro here
        have bound := (List.getElem?_eq_some_iff.mp here).1
        exact ⟨cells.length - 1, by simp only [Sequence.Removes]; omega, here⟩
      · rintro ⟨place, last, here⟩
        simp only [Sequence.Removes] at last
        rwa [show cells.length - 1 = place by omega]
  | clearAll =>
      refine ⟨fun _ => rfl, fun _ => ⟨seq, cells, refines, fun link => ?_⟩⟩
      simp only [perform_frees_all refines performed, Sequence.Removes, true_and,
        List.mem_iff_getElem?]
  | removeNext i =>
      exact iterator_deletes_iff refines (fun _ _ => Iff.rfl) fun link =>
        perform_frees_none performed nofun nofun nofun
  | removePrev i =>
      exact iterator_deletes_iff refines (fun _ _ => Iff.rfl) fun link =>
        perform_frees_none performed nofun nofun nofun
  | _ =>
      refine ⟨fun _ => rfl, fun _ => ⟨seq, cells, refines, fun link => ?_⟩⟩
      simp only [Sequence.Removes, false_and, exists_false, iff_false]
      exact perform_frees_none performed nofun nofun nofun

theorem run_deletes_iff {history : List (Performed Item)} (run : Run blank history world) :
    ∀ taken ∈ history, taken.Deletes ↔ taken.unlinks = false := by
  induction run with
  | start => exact fun taken member => absurd member List.not_mem_nil
  | step run performed undisturbed ih =>
      intro taken member
      rcases List.mem_append.mp member with earlier | last
      · exact ih taken earlier
      · rw [List.mem_singleton.mp last]
        rcases run_refines run with ⟨cells, refines, -⟩
        exact perform_deletes_iff refines performed

def two : World Nat :=
  ⟨⟨true, some 0, some 1, 2⟩, ⟨[some ⟨1, some 1, none⟩, some ⟨2, none, some 0⟩]⟩, fun _ => Iter.new⟩

def onFirst : World Nat := two.setIter 0 ⟨some 0, true⟩

/-- The link of the first value is still allocated. -/
def onSecond : World Nat :=
  ({ onFirst with list := ⟨true, some 1, some 1, 1⟩,
                  links := ⟨[some ⟨1, some 1, none⟩, some ⟨2, none, none⟩]⟩ } :
    World Nat).setIter 0 ⟨some 1, true⟩

def ended : World Nat := onSecond.setIter 0 ⟨none, true⟩

def emptied : World Nat :=
  { ended with list := LList.new, links := ⟨[some ⟨1, some 1, none⟩, none]⟩ }

/-- The first of two values is removed by an iteration, the other after its end. -/
def removedWhileIterating : List (Performed Nat) :=
  [⟨World.new, .addToTail 1, .nothing, one⟩, ⟨one, .addToTail 2, .nothing, two⟩,
    ⟨two, .startIterHead 0, .nothing, onFirst⟩, ⟨onFirst, .removeNext 0, .found (some 1), onSecond⟩,
    ⟨onSecond, .getNext 0, .found (some 2), ended⟩, ⟨ended, .removeTail, .found (some 2), emptied⟩]

theorem removed_while_iterating_run : Run 0 removedWhileIterating emptied := by
  have others : Undisturbed onFirst (.removeNext 0) := by
    intro j different
    simp [onFirst, two, World.setIter, different, Iter.new]
  have idle : Undisturbed ended .removeTail := by
    intro j
    by_cases same : j = 0 <;> simp [ended, onSecond, onFirst, two, World.setIter, same, Iter.new]
  have first : perform 0 World.new (.addToTail 1) = some (one, .nothing) := rfl
  have second : perform 0 one (.addToTail 2) = some (two, .nothing) := rfl
  have starts : perform 0 two (.startIterHead 0) = some (onFirst, .nothing) := rfl
  have removes : perform 0 onFirst (.removeNext 0) = some (onSecond, .found (some 1)) := rfl
  have passes : perform 0 onSecond (.getNext 0) = some (ended, .found (some 2)) := rfl
  have empties : perform 0 ended .removeTail = some (emptied, .found (some 2)) := rfl
  exact .step (.step (.step (.step (.step (.step .start first trivial) second trivial)
    starts trivial)
    removes others) passes trivial) empties idle

end TWlib.LListLinks
