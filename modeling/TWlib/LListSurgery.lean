import Mathlib.Data.List.Perm.Subperm
import TWlib.Lib.DoublyLinked
import TWlib.LListLinks

/-!
# What the operations of the doubly linked list do

`Represents` says which links a list has and which values they hold. Each operation is given once,
with the list it leaves; that the two directions still mirror each other is in each case one rule
about doubly linked chains, applied to the fields after the writes.
-/

namespace TWlib.LListLinks

open TWlib.Lib.CellStore TWlib.Lib.LinkedChain TWlib.Lib.DoublyLinked

set_option autoImplicit false

variable {Item : Type*}

def nextOf (links : Links Item) (link : Nat) : Option (Option Nat) :=
  (links.read link).map Link.next

def prevOf (links : Links Item) (link : Nat) : Option (Option Nat) :=
  (links.read link).map Link.prev

def valueOf (links : Links Item) (link : Nat) : Option Item := (links.read link).map Link.d

structure Represents (list : LList) (links : Links Item) (cells : List Nat)
    (items : List Item) : Prop where
  linked : Linked (nextOf links) (prevOf links) list.head list.tail cells
  values : cells.map (valueOf links) = items.map some
  counted : list.remain = items.length

variable {list : LList} {links after : Links Item} {cells front back : List Nat}
  {items before behind : List Item} {link newlink : Nat} {theD item : Item}

/-! ## Fields -/

theorem represents_new : Represents LList.new (Store.empty : Links Item) [] [] :=
  ⟨linked_nothing _ _, rfl, rfl⟩

theorem represents_length (represents : Represents list links cells items) :
    cells.length = items.length := by
  simpa using congrArg List.length represents.values

theorem represents_no_cells (represents : Represents list links cells []) : cells = [] :=
  List.length_eq_zero_iff.mp (represents_length represents)

theorem represents_no_items (represents : Represents list links [] items) : items = [] :=
  List.length_eq_zero_iff.mp (represents_length represents).symm

theorem present_of_value (exists_ : (valueOf links link).isSome) :
    ∃ content, links.read link = some content := by
  rcases Option.isSome_iff_exists.mp exists_ with ⟨item, found⟩
  rcases Option.map_eq_some_iff.mp found with ⟨content, present, -⟩
  exact ⟨content, present⟩

theorem represents_exists (represents : Represents list links cells items) (member : link ∈ cells) :
    (valueOf links link).isSome := by
  have mapped : valueOf links link ∈ cells.map (valueOf links) := List.mem_map_of_mem member
  rw [represents.values] at mapped
  rcases List.mem_map.mp mapped with ⟨item, -, same⟩
  rw [← same]
  rfl

theorem represents_fresh (represents : Represents list links cells items) :
    cells.length ≤ links.fresh := by
  have inside : cells ⊆ List.range links.fresh := by
    intro link member
    rcases present_of_value (represents_exists represents member) with ⟨content, present⟩
    exact List.mem_range.mpr (read_bound present)
  simpa using (List.subperm_of_subset (linked_nodup represents.linked) inside).length_le

/-- One field of one link has changed. -/
structure Hooked (links after : Links Item) (nexts prevs : Nat → Option (Option Nat)) : Prop where
  next : ∀ link, nextOf after link = nexts link
  prev : ∀ link, prevOf after link = prevs link
  value : ∀ link, valueOf after link = valueOf links link

theorem set_next_hooks (exists_ : (valueOf links link).isSome) (next : Option Nat) :
    ∃ after, setNext links link next = some after ∧
      Hooked links after (fun other => if other = link then some next else nextOf links other)
      (prevOf links) := by
  rcases present_of_value exists_ with ⟨content, present⟩
  refine ⟨links.write link { content with next }, by simp [setNext, present], ?_, ?_, ?_⟩
  · exact map_read_write Link.next present { content with next }
  · exact map_read_write_same Link.prev present _ rfl
  · exact map_read_write_same Link.d present _ rfl

theorem set_prev_hooks (exists_ : (valueOf links link).isSome) (prev : Option Nat) :
    ∃ after, setPrev links link prev = some after ∧
      Hooked links after (nextOf links) (fun other => if other = link then some prev
        else prevOf links other) := by
  rcases present_of_value exists_ with ⟨content, present⟩
  refine ⟨links.write link { content with prev }, by simp [setPrev, present], ?_, ?_, ?_⟩
  · exact map_read_write_same Link.next present _ rfl
  · exact map_read_write Link.prev present { content with prev }
  · exact map_read_write_same Link.d present _ rfl

theorem hook_next_hooks {target : Option Nat} (exists_ : ∀ link, target = some link →
    (valueOf links link).isSome)
    (next : Option Nat) :
    ∃ after, hookNext links target next = some after ∧
      Hooked links after (fun other => if target = some other then some next
        else nextOf links other)
        (prevOf links) := by
  cases target with
  | none => exact ⟨links, rfl, fun _ => rfl, fun _ => rfl, fun _ => rfl⟩
  | some link =>
      rcases set_next_hooks (exists_ link rfl) next with ⟨after, set, hooked⟩
      refine ⟨after, set, ?_, hooked.prev, hooked.value⟩
      intro other
      rw [hooked.next]
      simp only [Option.some.injEq, eq_comm]

theorem hook_prev_hooks {target : Option Nat} (exists_ : ∀ link, target = some link →
    (valueOf links link).isSome)
    (prev : Option Nat) :
    ∃ after, hookPrev links target prev = some after ∧
      Hooked links after (nextOf links)
        (fun other => if target = some other then some prev else prevOf links other) := by
  cases target with
  | none => exact ⟨links, rfl, fun _ => rfl, fun _ => rfl, fun _ => rfl⟩
  | some link =>
      rcases set_prev_hooks (exists_ link rfl) prev with ⟨after, set, hooked⟩
      refine ⟨after, set, hooked.next, ?_, hooked.value⟩
      intro other
      rw [hooked.prev]
      simp only [Option.some.injEq, eq_comm]

theorem values_kept (values : cells.map (valueOf links) = items.map some)
    (same : ∀ link ∈ cells, valueOf after link = valueOf links link) :
    cells.map (valueOf after) = items.map some := by
  rw [← values]
  exact List.map_congr_left same

theorem represents_frame (represents : Represents list links cells items)
    (same : ∀ link ∈ cells, after.read link = links.read link) :
    Represents list after cells items := by
  refine ⟨linked_frame represents.linked ?_ ?_, values_kept represents.values ?_,
    represents.counted⟩
  · exact fun link member => congrArg (Option.map Link.next) (same link member)
  · exact fun link member => congrArg (Option.map Link.prev) (same link member)
  · exact fun link member => congrArg (Option.map Link.d) (same link member)

theorem represents_push (represents : Represents list links cells items) (made : Link Item) :
    Represents list (links.push made) cells items ∧ links.fresh ∉ cells := by
  constructor
  · apply represents_frame represents
    intro link member
    rcases present_of_value (represents_exists represents member) with ⟨content, present⟩
    rw [read_push_of_present present, present]
  · intro member
    rcases present_of_value (represents_exists represents member) with ⟨content, present⟩
    exact Nat.lt_irrefl _ (read_bound present)

/-! ## Adding -/

/-- The list with one link more behind the last one. -/
def LList.appended (list : LList) (cells : List Nat) (newlink : Nat) : LList :=
  { list with head := (cells ++ [newlink]).head?, tail := some newlink, remain := list.remain + 1 }

/-- Both pointers between the last link and the new one. -/
theorem hook_tail_hooks {tail : Option Nat} (exists_ : ∀ last, tail = some last →
    (valueOf links last).isSome)
    (first : prevOf links newlink = some none) :
    ∃ after, hookTail links tail newlink = some after ∧
      Hooked links after (fun other => if tail = some other then some (some newlink)
        else nextOf links other)
        (fun other => if other = newlink then some tail else prevOf links other) := by
  cases tail with
  | none =>
      refine ⟨links, rfl, fun _ => rfl, ?_, fun _ => rfl⟩
      intro other
      split_ifs with same
      · rw [same]
        exact first
      · rfl
  | some last =>
      rcases set_next_hooks (exists_ last rfl) (some newlink) with ⟨middle, set, hooked⟩
      have newExists : (valueOf middle newlink).isSome := by
        rcases Option.map_eq_some_iff.mp first with ⟨content, present, -⟩
        rw [hooked.value, valueOf, present]
        rfl
      rcases set_prev_hooks newExists (some last) with ⟨after, setAgain, hookedAgain⟩
      refine ⟨after, by simp [hookTail, set, setAgain], ?_, ?_, ?_⟩
      · intro other
        rw [hookedAgain.next, hooked.next]
        simp only [Option.some.injEq, eq_comm]
      · intro other
        rw [hookedAgain.prev, hooked.prev]
      · intro other
        rw [hookedAgain.value, hooked.value]

theorem append_eq (represents : Represents list links cells items)
    (made : links.read newlink = some ⟨theD, none, none⟩) (outside : newlink ∉ cells) :
    ∃ after, list.append links newlink = some (list.appended cells newlink, after) ∧
      Represents (list.appended cells newlink) after (cells ++ [newlink]) (items ++ [theD]) := by
  have tail := linked_tail represents.linked
  have head := linked_head represents.linked
  have lastExists : ∀ last, list.tail = some last → (valueOf links last).isSome := by
    intro last same
    rw [tail] at same
    exact represents_exists represents (List.mem_of_getLast? same)
  have unhooked : prevOf links newlink = some none := by simp [prevOf, made]
  rcases hook_tail_hooks lastExists unhooked with ⟨after, hooks, hooked⟩
  have first : (if list.head.isNone then some newlink else list.head) =
      (cells ++ [newlink]).head? := by
    rw [head]
    cases cells with
    | nil => rfl
    | cons cell rest => rfl
  have different : ∀ link ∈ cells, link ≠ newlink := fun link member same => outside (same ▸ member)
  refine ⟨after, ?_, ?_, ?_, ?_⟩
  · simp only [LList.append, hooks, first, Option.bind_eq_bind, Option.bind_some, LList.appended]
  · apply linked_push_back represents.linked
    · intro link member
      rw [hooked.next, tail]
    · have fresh : list.tail ≠ some newlink := by
        intro same
        rw [tail] at same
        exact outside (List.mem_of_getLast? same)
      rw [hooked.next, if_neg fresh]
      simp [nextOf, made]
    · intro link member
      rw [hooked.prev, if_neg (different link member)]
    · rw [hooked.prev, if_pos rfl]
  · have kept := values_kept represents.values fun link _ => hooked.value link
    have holds : valueOf after newlink = some theD := by
      rw [hooked.value]
      simp [valueOf, made]
    simp only [List.map_append, kept, List.map_cons, List.map_nil, holds]
  · simp [LList.appended, represents.counted]

theorem add_to_head_eq (represents : Represents list links cells items) (theD : Item)
    (accepts : list.enabled = true) :
    ∃ grown after, list.addToHead links theD = some (grown, after) ∧ grown.enabled = list.enabled ∧
      Represents grown after (links.fresh :: cells) (theD :: items) := by
  have head := linked_head represents.linked
  have tail := linked_tail represents.linked
  rcases represents_push represents (⟨theD, none, none⟩ : Link Item) with ⟨pushed, outside⟩
  have made : (links.push ⟨theD, none, none⟩).read links.fresh = some ⟨theD, none,
    none⟩ := by simp [read_push]
  have newExists :
    (valueOf (links.push ⟨theD, none, none⟩) links.fresh).isSome := by simp [valueOf, made]
  rcases set_next_hooks newExists list.head with ⟨middle, set, hooked⟩
  have headExists : ∀ first, list.head = some first → (valueOf middle first).isSome := by
    intro first same
    rw [head] at same
    rw [hooked.value]
    exact represents_exists pushed (List.mem_of_head? same)
  rcases hook_prev_hooks headExists (some links.fresh) with ⟨after, hooks, hookedAgain⟩
  have last : (if list.tail.isNone then some links.fresh else list.tail) =
      (links.fresh :: cells).getLast? := by
    rw [tail]
    cases cells with
    | nil => rfl
    | cons cell rest => simp [List.getLast?_cons]
  have different : ∀ link ∈ cells, link ≠ links.fresh :=
    fun link member same => outside (same ▸ member)
  refine ⟨{ list with head := some links.fresh, tail := (links.fresh :: cells).getLast?,
                      remain := list.remain + 1 },
    after, ?_, rfl, ?_, ?_, ?_⟩
  · simp only [LList.addToHead, accepts, if_true, set, hooks, last, Option.bind_eq_bind,
      Option.bind_some]
  · apply linked_push_front pushed.linked
    · intro link member
      rw [hookedAgain.prev, hooked.prev, head]
    · have fresh : list.head ≠ some links.fresh := by
        intro same
        rw [head] at same
        exact outside (List.mem_of_head? same)
      rw [hookedAgain.prev, if_neg fresh, hooked.prev]
      simp [prevOf, made]
    · intro link member
      rw [hookedAgain.next, hooked.next, if_neg (different link member)]
    · rw [hookedAgain.next, hooked.next, if_pos rfl]
  · have same : ∀ link, valueOf after link = valueOf (links.push ⟨theD, none, none⟩) link := by
      intro link
      rw [hookedAgain.value, hooked.value]
    have holds : valueOf after links.fresh = some theD := by
      rw [same]
      simp [valueOf, made]
    have kept := values_kept pushed.values fun link _ => same link
    change valueOf after links.fresh :: cells.map (valueOf after) = some theD :: items.map some
    rw [holds, kept]
  · simp [represents.counted]

/-! ## Removing -/

/-- The list that has the links `cells` after a removal. -/
def LList.without (list : LList) (cells : List Nat) : LList :=
  { list with head := cells.head?, tail := cells.getLast?, remain := list.remain - 1 }

theorem represents_split (represents : Represents list links (front ++ link :: back) items) :
    ∃ before item behind, items = before ++ item :: behind ∧ front.length = before.length ∧
      valueOf links link = some item ∧ front.map (valueOf links) = before.map some ∧
      back.map (valueOf links) = behind.map some := by
  have values := represents.values
  rw [List.map_append, List.map_cons] at values
  rcases List.map_eq_append_iff.mp values.symm with ⟨before, rest, rfl, fronts, rests⟩
  rcases List.map_eq_cons_iff.mp rests with ⟨item, behind, rfl, holds, backs⟩
  have length : front.length = before.length := by simpa using (congrArg List.length fronts).symm
  exact ⟨before, item, behind, rfl, length, holds.symm, fronts.symm, backs.symm⟩

theorem represents_without (represents : Represents list links (front ++ link :: back) items)
    (nexts : ∀ other ∈ front ++ back,
      nextOf after other = if front.getLast? = some other then some back.head?
      else nextOf links other)
    (prevs : ∀ other ∈ front ++ back,
      prevOf after other = if back.head? = some other then some front.getLast?
      else prevOf links other)
    (values : ∀ other ∈ front ++ back, valueOf after other = valueOf links other) :
    Represents (list.without (front ++ back)) after (front ++ back)
    (items.eraseIdx front.length) := by
  rcases represents_split represents with ⟨before, item, behind, rfl, length, holds, fronts, backs⟩
  have erased : (before ++ item :: behind).eraseIdx front.length = before ++ behind := by
    rw [length, List.eraseIdx_append_of_length_le (Nat.le_refl _), Nat.sub_self]
    rfl
  rw [erased]
  refine ⟨linked_remove represents.linked nexts prevs, ?_, ?_⟩
  · apply values_kept _ values
    rw [List.map_append, List.map_append, fronts, backs]
  · have counted := represents.counted
    simp only [List.length_append, List.length_cons] at counted
    simp only [LList.without, List.length_append]
    omega

theorem represents_link (represents : Represents list links (front ++ link :: back) items) :
    ∃ content, links.read link = some content ∧ content.next = back.head? ∧
      content.prev = front.getLast? ∧
      items[front.length]? = some content.d ∧ link ∉ front ∧ link ∉ back := by
  rcases represents_split represents with ⟨before, item, behind, rfl, length, holds, -⟩
  rcases Option.map_eq_some_iff.mp holds with ⟨content, present, value⟩
  have next := linked_next represents.linked
  have prev := linked_prev represents.linked
  simp only [nextOf, prevOf, present, Option.map_some, Option.some.injEq] at next prev
  have nodup := linked_nodup represents.linked
  have distinct := List.nodup_append.mp nodup
  refine ⟨content, present, next, prev, ?_, ?_, (List.nodup_cons.mp distinct.2.1).1⟩
  · rw [length, value]
    simp
  · exact fun member => distinct.2.2 link member link (List.mem_cons_self ..) rfl

theorem neighbour_exists (represents : Represents list links (front ++ link :: back) items)
    {other : Nat} (neighbour : back.head? = some other ∨ front.getLast? = some other) :
    (valueOf links other).isSome := by
  apply represents_exists represents
  rcases neighbour with behind | before
  · exact List.mem_append_right _ (List.mem_cons_of_mem _ (List.mem_of_head? behind))
  · exact List.mem_append_left _ (List.mem_of_getLast? before)

theorem remove_link_eq (represents : Represents list links (front ++ link :: back) items) :
    ∃ after, list.removeLink links link = some (list.without (front ++ back), after) ∧
      Represents (list.without (front ++ back)) after (front ++ back)
      (items.eraseIdx front.length) := by
  rcases represents_link represents with ⟨content, present, next, prev, -, notFront, notBack⟩
  have head := linked_head represents.linked
  have tail := linked_tail represents.linked
  have behindExists : ∀ other, back.head? = some other → (valueOf links other).isSome :=
    fun other same =>
    neighbour_exists represents (.inl same)
  rcases hook_prev_hooks behindExists front.getLast? with ⟨middle, hooks, hooked⟩
  have beforeExists : ∀ other, front.getLast? = some other → (valueOf middle other).isSome := by
    intro other same
    rw [hooked.value]
    exact neighbour_exists represents (.inr same)
  rcases hook_next_hooks beforeExists back.head? with ⟨after, hooksAgain, hookedAgain⟩
  have notLast : front.getLast? ≠ some link := fun same => notFront (List.mem_of_getLast? same)
  have notFirst : back.head? ≠ some link := fun same => notBack (List.mem_of_head? same)
  have still : ∃ content, after.read link = some content ∧ content.next = back.head? ∧
      content.prev = front.getLast? := by
    have exists_ : (valueOf after link).isSome := by
      rw [hookedAgain.value, hooked.value]
      exact represents_exists represents (by simp)
    rcases present_of_value exists_ with ⟨now, found⟩
    have nextNow := hookedAgain.next link
    have prevNow := hookedAgain.prev link
    rw [if_neg notLast, hooked.next] at nextNow
    rw [hooked.prev, if_neg notFirst] at prevNow
    simp only [nextOf, prevOf, found, present, Option.map_some,
      Option.some.injEq] at nextNow prevNow
    exact ⟨now, found, nextNow.trans next, prevNow.trans prev⟩
  rcases still with ⟨now, found, nextNow, prevNow⟩
  have first : (if list.head = some link then back.head? else list.head) =
      (front ++ back).head? := by
    rw [head]
    cases front with
    | nil => simp
    | cons cell rest =>
        have different : cell ≠ link := fun same => notFront (by simp [same])
        simp [different]
  have last : (if list.tail = some link then front.getLast? else list.tail) =
      (front ++ back).getLast? := by
    rw [tail]
    cases filled : back.getLast? with
    | none =>
        have empty : back = [] := List.getLast?_eq_none_iff.mp filled
        subst empty
        simp
    | some cell =>
        have member : cell ∈ back := List.mem_of_getLast? filled
        have different : cell ≠ link := fun same => notBack (same ▸ member)
        simp [List.getLast?_append, List.getLast?_cons, filled, different]
  refine ⟨after, ?_, ?_⟩
  · simp only [LList.removeLink, present, next, prev, hooks, hooksAgain, found, nextNow, prevNow,
      first, last,
      Option.bind_eq_bind, Option.bind_some, LList.without]
  · apply represents_without represents
    · intro other _
      rw [hookedAgain.next, hooked.next]
    · intro other _
      rw [hookedAgain.prev, hooked.prev]
    · intro other _
      rw [hookedAgain.value, hooked.value]

theorem represents_freed (represents : Represents list links cells items) (outside : link ∉ cells) :
    Represents list (links.giveUp link) cells items := by
  apply represents_frame represents
  intro other member
  have different : other ≠ link := fun same => outside (same ▸ member)
  rw [read_give_up, if_neg different]

theorem remove_head_empty (represents : Represents list links [] items) :
    list.removeHead links = some (list, links, none) := by
  rcases list with ⟨enabled, first, last, remain⟩
  have head : first = none := linked_head represents.linked
  have tail : last = none := linked_tail represents.linked
  subst head tail
  rfl

theorem remove_tail_empty (represents : Represents list links [] items) :
    list.removeTail links = some (list, links, none) := by
  rcases list with ⟨enabled, first, last, remain⟩
  have head : first = none := linked_head represents.linked
  have tail : last = none := linked_tail represents.linked
  subst head tail
  rfl

theorem remove_head_eq (represents : Represents list links (link :: back) items) :
    ∃ after, list.removeHead links = some (list.without back, after, items[0]?) ∧
      Represents (list.without back) after back (items.eraseIdx 0) := by
  have represents : Represents list links ([] ++ link :: back) items := represents
  rcases represents_link represents with ⟨content, present, next, prev, value, -, outside⟩
  have head : list.head = some link := linked_head represents.linked
  have tail := linked_tail represents.linked
  have behindExists : ∀ other, back.head? = some other → (valueOf links other).isSome :=
    fun other same =>
    neighbour_exists represents (.inl same)
  rcases hook_prev_hooks behindExists none with ⟨after, hooks, hooked⟩
  have last : (if list.head = list.tail then none else list.tail) = back.getLast? := by
    rw [head, tail]
    cases filled : back.getLast? with
    | none =>
        have empty : back = [] := List.getLast?_eq_none_iff.mp filled
        subst empty
        simp
    | some cell =>
        have different : link ≠ cell := fun same => outside (same ▸ List.mem_of_getLast? filled)
        simp [List.getLast?_cons, filled, different]
  refine ⟨after.giveUp link, ?_, ?_⟩
  · simp only [List.length_nil] at value
    unfold LList.removeHead
    rw [last, head]
    simp only [present, next, hooks, value, Option.bind_eq_bind, Option.bind_some, LList.without]
  · apply represents_freed _ outside
    apply represents_without represents
    · exact fun other _ => hooked.next other
    · exact fun other _ => hooked.prev other
    · exact fun other _ => hooked.value other

theorem remove_tail_eq (represents : Represents list links (front ++ [link]) items) :
    ∃ after, list.removeTail links = some (list.without front, after, items[front.length]?) ∧
      Represents (list.without front) after front (items.eraseIdx front.length) := by
  rcases represents_link represents with ⟨content, present, next, prev, value, outside, -⟩
  have head := linked_head represents.linked
  have tail : list.tail = some link := by
    rw [linked_tail represents.linked]
    simp
  have beforeExists : ∀ other, front.getLast? = some other → (valueOf links other).isSome :=
    fun other same =>
    neighbour_exists represents (.inr same)
  rcases hook_next_hooks beforeExists none with ⟨after, hooks, hooked⟩
  have first : (if list.head = list.tail then none else list.head) = front.head? := by
    rw [head, tail]
    cases front with
    | nil => simp
    | cons cell rest =>
        have different : cell ≠ link := fun same => outside (by simp [same])
        simp [different]
  have rest : Represents (list.without (front ++ [])) after (front ++ [])
      (items.eraseIdx front.length) := by
    apply represents_without represents
    · exact fun other _ => hooked.next other
    · exact fun other _ => hooked.prev other
    · exact fun other _ => hooked.value other
  rw [List.append_nil] at rest
  refine ⟨after.giveUp link, ?_, represents_freed rest outside⟩
  unfold LList.removeTail
  rw [first, tail]
  simp only [present, prev, hooks, value, Option.bind_eq_bind, Option.bind_some, LList.without]

/-! ## Looking and clearing -/

theorem peek_head_eq (represents : Represents list links cells items) :
    list.peekHead links = some items.head? := by
  have head := linked_head represents.linked
  cases cells with
  | nil =>
      have empty : items = [] := represents_no_items represents
      simp only [LList.peekHead, head, empty, List.head?_nil]
  | cons link back =>
      have represents : Represents list links ([] ++ link :: back) items := represents
      rcases represents_link represents with ⟨content, present, -, -, value, -⟩
      rw [List.length_nil, ← List.head?_eq_getElem?] at value
      simp only [LList.peekHead, head, List.head?_cons, present, Option.map_some, value]

theorem peek_tail_eq (represents : Represents list links cells items) :
    list.peekTail links = some items.getLast? := by
  have tail := linked_tail represents.linked
  have length := represents_length represents
  cases last : cells.getLast? with
  | none =>
      have empty : cells = [] := List.getLast?_eq_none_iff.mp last
      have nothing : items = [] :=
        List.length_eq_zero_iff.mp (by rw [← length, empty, List.length_nil])
      simp only [LList.peekTail, tail, last, nothing, List.getLast?_nil]
  | some link =>
      rcases List.getLast?_eq_some_iff.mp last with ⟨front, rfl⟩
      rcases represents_link represents with ⟨content, present, -, -, value, -⟩
      have position : items.length - 1 = front.length := by
        rw [← length]
        simp
      rw [← position, ← List.getLast?_eq_getElem?] at value
      simp only [LList.peekTail, tail, last, present, Option.map_some, value]

/-- `clearAll` frees the links of the list and no others. -/
theorem free_links_eq {head : Option Nat} (chain : Chain (nextOf links) head cells) (fuel : Nat)
    (enough : cells.length ≤ fuel) :
    ∃ after, freeLinks fuel head links = some after ∧ after.fresh = links.fresh ∧
      ∀ link, after.read link = if link ∈ cells then none else links.read link := by
  induction cells generalizing head links fuel with
  | nil =>
      have empty : head = none := chain
      subst empty
      exact ⟨links, by cases fuel <;> rfl, rfl, fun link => by simp⟩
  | cons cell rest ih =>
      rcases List.nodup_cons.mp (chain_nodup chain) with ⟨outside, nodup⟩
      rcases chain with ⟨rfl, next, step, tail⟩
      rcases Option.map_eq_some_iff.mp step with ⟨content, present, rfl⟩
      cases fuel with
      | zero => simp at enough
      | succ fuel =>
          have others : Chain (nextOf (links.giveUp cell)) content.next rest := by
            apply chain_frame tail
            intro link member
            have different : link ≠ cell := fun same => outside (same ▸ member)
            simp only [nextOf, read_give_up, if_neg different]
          rcases ih others fuel (by simpa using enough) with ⟨after, freed, fresh, reads⟩
          refine ⟨after, by simp [freeLinks, present, freed], fresh.trans (fresh_give_up _ _),
            fun link => ?_⟩
          rw [reads link, read_give_up]
          by_cases same : link = cell
          · simp [same]
          · simp [same]

theorem clear_all_eq (represents : Represents list links cells items) :
    ∃ after, list.clearAll links = some ({ list with head := none, tail := none, remain := 0 },
      after) ∧
      Represents { list with head := none, tail := none, remain := 0 } after [] [] ∧
      after.fresh = links.fresh ∧
      ∀ link, after.read link = if link ∈ cells then none else links.read link := by
  rcases free_links_eq represents.linked.forward links.fresh (represents_fresh represents) with
    ⟨after, freed, fresh, reads⟩
  exact ⟨after, by simp [LList.clearAll, freed], ⟨linked_nothing _ _, rfl, rfl⟩, fresh, reads⟩

theorem represents_set (represents : Represents list links (front ++ link :: back) items)
    (fill : Item) :
    ∃ content, links.read link = some content ∧
      Represents list (links.write link { content with d := fill }) (front ++ link :: back)
        (items.set front.length fill) := by
  rcases represents_split represents with ⟨before, item, behind, rfl, length, holds, fronts, backs⟩
  rcases represents_link represents with ⟨content, present, next, prev, -, notFront, notBack⟩
  have written := map_read_write Link.d present { content with d := fill }
  have apart : ∀ other ∈ front ++ back,
      valueOf (links.write link { content with d := fill }) other =
      valueOf links other := by
    intro other member
    have different : other ≠ link := by
      rintro rfl
      rcases List.mem_append.mp member with before | behind
      · exact notFront before
      · exact notBack behind
    exact (written other).trans (if_neg different)
  have here : valueOf (links.write link { content with d := fill }) link = some fill :=
    (written link).trans (if_pos rfl)
  have nexts := map_read_write_same Link.next present { content with d := fill } rfl
  have prevs := map_read_write_same Link.prev present { content with d := fill } rfl
  refine ⟨content, present, linked_frame represents.linked ?_ ?_, ?_, ?_⟩
  · exact fun other _ => nexts other
  · exact fun other _ => prevs other
  · have fronts := values_kept fronts fun other member =>
      apart other (List.mem_append_left _ member)
    have backs := values_kept backs fun other member => apart other (List.mem_append_right _ member)
    rw [length, List.set_append_right _ _ (Nat.le_refl _), Nat.sub_self, List.set_cons_zero]
    simp only [List.map_append, List.map_cons, fronts, backs, here]
  · have counted := represents.counted
    rw [List.length_set]
    exact counted

end TWlib.LListLinks
