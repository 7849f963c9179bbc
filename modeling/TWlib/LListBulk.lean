import TWlib.LListSurgery

/-!
# Copying a doubly linked list, and moving one to the end of another

`operator=` makes a link for each link of the source, with the pointer to the link made last in
`prev`. It ends with `tail = prev`, also when there was no link to be made and `prev` was never set.
`transferFrom` hooks the links of the other list behind its own and counts them by following `tail`,
also when there is no link at all and `tail` is NULL.
-/

namespace TWlib.LListLinks

open TWlib.Lib.CellStore TWlib.Lib.LinkedChain TWlib.Lib.DoublyLinked

set_option autoImplicit false

variable {Item : Type*}

/-- Two lists whose links are allocated in one place. -/
structure Pair (Item : Type*) where
  list : LList
  other : LList
  links : Links Item

/-! ## Copying -/

/-- What the loop of `operator=` works on. -/
structure Copying (Item : Type*) where
  links : Links Item
  prev : Nat
  remain : Int

/-- One turn of the loop, with the next value of `look`. -/
def copyLink (copying : Copying Item) (look : Nat) : Option (Copying Item × Option Nat) := do
  let source ← copying.links.read look
  let newlink := copying.links.fresh
  let links := copying.links.push ⟨source.d, none, none⟩
  let links ← setNext links copying.prev (some newlink)
  let links ← setPrev links newlink (some copying.prev)
  let source ← links.read look
  some (⟨links, newlink, copying.remain + 1⟩, source.next)

def copyRest : Nat → Option Nat → Copying Item → Option (Copying Item)
  | _, none, copying => some copying
  | 0, some _, _ => none
  | fuel + 1, some look, copying => do
      let (copying, look) ← copyLink copying look
      copyRest fuel look copying

/-- `operator=`. What `prev` holds before it is set is `unset`. -/
def assign (unset : Option Nat) (list other : LList) (links : Links Item) :
    Option (LList × Links Item) := do
  let (list, links) ← LList.clearAll { list with enabled := other.enabled } links
  match other.head with
  | none => some ({ list with tail := unset }, links)
  | some look =>
      let source ← links.read look
      let newlink := links.fresh
      let links := links.push ⟨source.d, none, none⟩
      let source ← links.read look
      let copying ← copyRest links.fresh source.next ⟨links, newlink, 1⟩
      some ({ list with head := some newlink, tail := some copying.prev, remain := copying.remain },
        copying.links)

def copyConstruct (unset : Option Nat) (other : LList) (links : Links Item) :
    Option (LList × Links Item) :=
  assign unset .new other links

/-! ## Moving -/

/-- `if(other.head) { ... }`, which takes the first link of the other list over. -/
def takeFirst (list : LList) (links : Links Item) (first : Nat) : Option (LList × Links Item) := do
  let links ← hookTail links list.tail first
  some ({ list with tail := some first, remain := list.remain + 1 }, links)

/-- `if(!head) head = tail;` -/
def setHead (list : LList) : LList :=
  if list.head.isNone then { list with head := list.tail } else list

/-- `while(tail->next) { tail = tail->next; remain++; }` -/
def followTail : Nat → LList → Links Item → Option (LList × Links Item)
  | 0, _, _ => none
  | fuel + 1, list, links =>
      match list.tail with
      | none => none
      | some last => do
          let content ← links.read last
          match content.next with
          | none => some (list, links)
          | some next =>
              followTail fuel { list with tail := some next, remain := list.remain + 1 } links

def transferFrom (pair : Pair Item) : Option (Pair Item) :=
  if pair.list.enabled then do
    let (list, links) ← match pair.other.head with
      | some first => takeFirst pair.list pair.links first
      | none => some (pair.list, pair.links)
    let (list, links) ← followTail (links.fresh + 1) (setHead list) links
    some ⟨list, { pair.other with head := none, tail := none, remain := 0 }, links⟩
  else some pair

/-! ## What they are for -/

/-- Two lists that have no link in common. -/
structure StandApart (pair : Pair Item) (cells others : List Nat)
    (items given : List Item) : Prop where
  one : Represents pair.list pair.links cells items
  two : Represents pair.other pair.links others given
  apart : cells.Disjoint others

/-- `a = b`: whatever is in a variable that was not set, no step goes through a pointer that leads
nowhere, `a` holds the values of `b`, and `b` has the links and the values it had. -/
def Assigns (pair : Pair Item) (others : List Nat) (given : List Item) : Prop :=
  ∀ unset, ∃ list links cells, assign unset pair.list pair.other pair.links = some (list, links) ∧
    StandApart ⟨list, pair.other, links⟩ cells others given given

def Constructs (other : LList) (links : Links Item) (others : List Nat)
    (given : List Item) : Prop :=
  ∀ unset, ∃ list after cells, copyConstruct unset other links = some (list, after) ∧
    StandApart ⟨list, other, after⟩ cells others given given

/-- `a.transferFrom(b)`: `a` holds its values and then those of `b`, and `b` is empty. -/
def Transfers (pair : Pair Item) (items given : List Item) : Prop :=
  ∃ after cells, transferFrom pair = some after ∧ StandApart after cells [] (items ++ given) []

variable {list other grown : LList} {links after : Links Item} {pair : Pair Item}
  {copying : Copying Item} {cells others : List Nat} {items given : List Item} {link newlink : Nat}
  {item : Item}

/-! ## Frames -/

theorem set_next_reads {next : Option Nat} (set : setNext links link next = some after)
    {target : Nat} (different : target ≠ link) : after.read target = links.read target := by
  rcases Option.bind_eq_some_iff.mp set with ⟨content, present, same⟩
  cases same
  rw [read_write present, if_neg different]

theorem set_prev_reads {prev : Option Nat} (set : setPrev links link prev = some after)
    {target : Nat} (different : target ≠ link) : after.read target = links.read target := by
  rcases Option.bind_eq_some_iff.mp set with ⟨content, present, same⟩
  cases same
  rw [read_write present, if_neg different]

theorem set_next_fresh {next : Option Nat} (set : setNext links link next = some after) :
    after.fresh = links.fresh := by
  rcases Option.bind_eq_some_iff.mp set with ⟨content, present, same⟩
  cases same
  exact fresh_write _ _ _

theorem set_prev_fresh {prev : Option Nat} (set : setPrev links link prev = some after) :
    after.fresh = links.fresh := by
  rcases Option.bind_eq_some_iff.mp set with ⟨content, present, same⟩
  cases same
  exact fresh_write _ _ _

def Copying.copied (copying : Copying Item) (list : LList) (cells : List Nat) : LList :=
  { list with head := cells.head?, tail := some copying.prev, remain := copying.remain }

/-- The links that were there before the copy, with what they hold. -/
structure Extends (links after : Links Item) (cells now : List Nat) : Prop where
  grows : links.fresh ≤ after.fresh
  kept : ∀ link, link < links.fresh → link ∉ cells → after.read link = links.read link
  made : ∀ link ∈ now, link ∈ cells ∨ links.fresh ≤ link

theorem extends_refl (links : Links Item) (cells : List Nat) : Extends links links cells cells :=
  ⟨Nat.le_refl _, fun _ _ _ => rfl, fun _ member => .inl member⟩

theorem extends_trans {middle : Links Item} {now last : List Nat}
    (first : Extends links middle cells now) (second : Extends middle after now last) :
    Extends links after cells last := by
  refine ⟨Nat.le_trans first.grows second.grows, fun link bound outside => ?_,
    fun link member => ?_⟩
  · have notNow : link ∉ now := by
      intro inside
      rcases first.made link inside with old | new
      · exact outside old
      · omega
    rw [second.kept link (Nat.lt_of_lt_of_le bound first.grows) notNow,
      first.kept link bound outside]
  · rcases second.made link member with before | new
    · exact first.made link before
    · exact .inr (Nat.le_trans first.grows new)

theorem extends_stands {now : List Nat} (grows : Extends links after cells now)
    (two : Represents other links others given) (apart : cells.Disjoint others) :
    Represents other after others given ∧ now.Disjoint others := by
  have bound : ∀ link ∈ others, link < links.fresh := by
    intro link member
    rcases present_of_value (represents_exists two member) with ⟨content, present⟩
    exact read_bound present
  refine ⟨represents_frame two fun link member => ?_, fun link inside member => ?_⟩
  · exact grows.kept link (bound link member) fun inside => apart inside member
  · rcases grows.made link inside with old | new
    · exact apart old member
    · exact Nat.lt_irrefl _ (Nat.lt_of_lt_of_le (bound link member) new)

/-! ## The loop that copies -/

/-- One turn puts a copy of the link that `look` points to at the end of the copied list. -/
theorem copy_link_eq {look : Nat} {source : Link Item}
    (copied : Represents (copying.copied list cells) copying.links cells items)
    (present : copying.links.read look = some source) (outside : look ∉ cells) :
    ∃ next, copyLink copying look = some (next, source.next) ∧
      Represents (next.copied list (cells ++ [next.prev])) next.links (cells ++ [next.prev])
      (items ++ [source.d]) ∧
      Extends copying.links next.links cells (cells ++ [next.prev]) := by
  let newlink := copying.links.fresh
  rcases represents_push copied (⟨source.d, none, none⟩ : Link Item) with ⟨pushed, unmade⟩
  have made : (copying.links.push ⟨source.d, none, none⟩).read newlink = some ⟨source.d,
      none, none⟩ := by
    simp [newlink, read_push]
  rcases append_eq pushed made unmade with ⟨after, appended, represents⟩
  rcases Option.bind_eq_some_iff.mp appended with ⟨hooked, hooks, same⟩
  have same : after = hooked := (Prod.mk.inj (Option.some.inj same)).2.symm
  subst same
  rcases Option.bind_eq_some_iff.mp hooks with ⟨middle, set, setAgain⟩
  have last : copying.prev ∈ cells := by
    have tail : some copying.prev = cells.getLast? := linked_tail copied.linked
    exact List.mem_of_getLast? tail.symm
  have kept : ∀ link, link < copying.links.fresh → link ∉ cells →
      after.read link = copying.links.read link := by
    intro link bound notCopied
    have notNew : link ≠ newlink := Nat.ne_of_lt bound
    have notLast : link ≠ copying.prev := fun same => notCopied (same ▸ last)
    rw [set_prev_reads setAgain notNew, set_next_reads set notLast, read_push, if_neg notNew]
  have still : after.read look = some source :=
    (kept look (read_bound present) outside).trans present
  have grows : after.fresh = copying.links.fresh + 1 := by
    rw [set_prev_fresh setAgain, set_next_fresh set, fresh_push]
  refine ⟨⟨after, newlink, copying.remain + 1⟩, ?_, represents, ⟨grows ▸ Nat.le_succ _, kept, ?_⟩⟩
  · simp only [copyLink, present, Option.bind_eq_bind, Option.bind_some, set, setAgain,
      still, newlink]
  · intro link member
    rcases List.mem_append.mp member with old | new
    · exact .inl old
    · exact .inr (Nat.le_of_eq (List.mem_singleton.mp new).symm)

/-- The loop copies the rest of the source, by induction on it. -/
theorem copy_rest_eq {rest : List Nat} {look : Option Nat} {fuel : Nat}
    (copied : Represents (copying.copied list cells) copying.links cells items)
    (chain : Chain (nextOf copying.links) look rest)
    (values : rest.map (valueOf copying.links) = given.map some) (apart : cells.Disjoint rest)
    (enough : rest.length ≤ fuel) :
    ∃ last now, copyRest fuel look copying = some last ∧
      Represents (last.copied list now) last.links now (items ++ given) ∧
      Extends copying.links last.links cells now ∧ now.head? = cells.head? := by
  induction rest generalizing look fuel copying cells items given with
  | nil =>
      have ended : look = none := chain
      have nothing : given = [] := by simpa using values.symm
      subst ended nothing
      refine ⟨copying, cells, by cases fuel <;> rfl, ?_, extends_refl _ _, rfl⟩
      rwa [List.append_nil]
  | cons first rest ih =>
      rcases chain with ⟨rfl, following, step, onward⟩
      rcases Option.map_eq_some_iff.mp step with ⟨source, present, rfl⟩
      rcases List.map_eq_cons_iff.mp values.symm with ⟨item, later, rfl, holds, rests⟩
      have value : item = source.d := by simpa [valueOf, present] using holds
      subst value
      have outside : first ∉ cells := fun inside => apart inside (by simp)
      rcases copy_link_eq copied present outside with ⟨next, copies, represents, grows⟩
      have restBound : ∀ link ∈ rest, link < copying.links.fresh := by
        intro link member
        have mapped : valueOf copying.links link ∈ later.map some :=
          rests ▸ List.mem_map_of_mem member
        rcases List.mem_map.mp mapped with ⟨held, -, same⟩
        rcases present_of_value (Option.isSome_iff_exists.mpr ⟨held, same.symm⟩) with ⟨content,
          there⟩
        exact read_bound there
      have restApart : cells.Disjoint rest := fun link inside member =>
        apart inside (List.mem_cons_of_mem _ member)
      have same : ∀ link ∈ rest, next.links.read link = copying.links.read link :=
        fun link member =>
        grows.kept link (restBound link member) fun inside => restApart inside member
      have chain : Chain (nextOf next.links) source.next rest :=
        chain_frame onward fun link member => congrArg (Option.map Link.next) (same link member)
      have values : rest.map (valueOf next.links) = later.map some :=
        values_kept rests.symm fun link member => congrArg (Option.map Link.d) (same link member)
      have nowApart : (cells ++ [next.prev]).Disjoint rest := by
        intro link inside member
        rcases grows.made link inside with old | new
        · exact restApart old member
        · exact Nat.lt_irrefl _ (Nat.lt_of_lt_of_le (restBound link member) new)
      cases fuel with
      | zero => simp at enough
      | succ fuel =>
          rcases ih represents chain values nowApart (by simpa using enough) with ⟨last, now, ran,
            ends, more, head⟩
          have filled : cells ≠ [] := by
            rintro rfl
            have tail : some copying.prev = ([] : List Nat).getLast? := linked_tail copied.linked
            cases tail
          refine ⟨last, now, ?_, ?_, extends_trans grows more, ?_⟩
          · simp only [copyRest, copies, Option.bind_eq_bind, Option.bind_some, ran]
          · rwa [List.append_assoc] at ends
          · rw [head, List.head?_append_of_ne_nil _ filled]

/-! ## Copying -/

theorem assign_empty (stands : StandApart pair cells others items []) (unset : Option Nat) :
    ∃ after, assign unset pair.list pair.other pair.links =
      some ({ pair.list with enabled := pair.other.enabled, head := none, tail := unset,
                             remain := 0 }, after) := by
  have representsFlag : Represents { pair.list with enabled := pair.other.enabled } pair.links
      cells items :=
    ⟨stands.one.linked, stands.one.values, stands.one.counted⟩
  rcases clear_all_eq representsFlag with ⟨after, cleared, -⟩
  have noOthers : others = [] := represents_no_cells stands.two
  have ended : pair.other.head = none := by
    rw [linked_head stands.two.linked, noOthers, List.head?_nil]
  refine ⟨after, ?_⟩
  simp only [assign, cleared, Option.bind_eq_bind, Option.bind_some, ended]

theorem assign_eq (stands : StandApart pair cells others items given) (filled : given ≠ [])
    (unset : Option Nat) :
    ∃ list links now, assign unset pair.list pair.other pair.links = some (list, links) ∧
      StandApart ⟨list, pair.other, links⟩ now others given given := by
  let flagged : LList := { pair.list with enabled := pair.other.enabled }
  have representsFlag : Represents flagged pair.links cells items :=
    ⟨stands.one.linked, stands.one.values, stands.one.counted⟩
  rcases clear_all_eq representsFlag with ⟨cleared, clears, empty, fresh, reads⟩
  have two : Represents pair.other cleared others given := by
    apply represents_frame stands.two
    intro link member
    rw [reads, if_neg fun inside => stands.apart inside member]
  cases others with
  | nil => exact absurd (represents_no_items two) filled
  | cons look rest =>
      have head : pair.other.head = some look := linked_head two.linked
      have chain := two.linked.forward
      rw [head] at chain
      rcases chain with ⟨-, following, step, onward⟩
      rcases Option.map_eq_some_iff.mp step with ⟨source, present, rfl⟩
      rcases List.map_eq_cons_iff.mp two.values.symm with ⟨item, later, rfl, holds, rests⟩
      have value : item = source.d := by simpa [valueOf, present] using holds
      subst value
      -- the first link of the copy is the last one so far
      let links := cleared.push ⟨source.d, none, none⟩
      let copying : Copying Item := ⟨links, cleared.fresh, 1⟩
      have made : links.read cleared.fresh = some ⟨source.d, none,
        none⟩ := by simp [links, read_push]
      have copied : Represents (copying.copied flagged [cleared.fresh]) copying.links
          [cleared.fresh] [source.d] := by
        refine ⟨⟨⟨rfl, none, ?_, rfl⟩, ⟨rfl, none, ?_, rfl⟩⟩, ?_, rfl⟩
        · simp [copying, nextOf, made]
        · simp [copying, prevOf, made]
        · simp [copying, valueOf, made]
      rcases represents_push two (⟨source.d, none, none⟩ : Link Item) with ⟨pushed, outside⟩
      have unchanged : ∀ link ∈ look :: rest, links.read link = cleared.read link := by
        intro link member
        rcases present_of_value (represents_exists two member) with ⟨content, there⟩
        rw [there, read_push_of_present there]
      have still : links.read look = some source := (unchanged look (by simp)).trans present
      have restChain : Chain (nextOf links) source.next rest :=
        chain_frame onward fun link member =>
        congrArg (Option.map Link.next) (unchanged link (List.mem_cons_of_mem _ member))
      have restValues : rest.map (valueOf links) = later.map some :=
        values_kept rests.symm fun link member =>
        congrArg (Option.map Link.d) (unchanged link (List.mem_cons_of_mem _ member))
      have apart : [cleared.fresh].Disjoint (look :: rest) := by
        intro link inside member
        cases List.mem_singleton.mp inside
        exact outside member
      have restApart : [cleared.fresh].Disjoint rest := fun link inside member =>
        apart inside (List.mem_cons_of_mem _ member)
      have enough : rest.length ≤ links.fresh := by
        have bound : (look :: rest).length ≤ links.fresh := represents_fresh pushed
        exact Nat.le_of_succ_le bound
      rcases copy_rest_eq copied restChain restValues restApart enough with ⟨last, now, ran, ends,
        grows, first⟩
      rcases extends_stands grows pushed apart with ⟨kept, nowApart⟩
      refine ⟨_, last.links, now, ?_, ends, kept, nowApart⟩
      have ran : copyRest links.fresh source.next ⟨links, cleared.fresh, 1⟩ = some last := ran
      simp only [assign, clears, flagged, Option.bind_eq_bind, Option.bind_some, head, present,
        still, links, ran,
        first, List.head?_cons]

theorem assigns_iff (stands : StandApart pair cells others items given) :
    Assigns pair others given ↔ given ≠ [] := by
  constructor
  · rintro assigns rfl
    -- a pointer that leads to no link of the empty copy
    rcases assigns (some 0) with ⟨list, links, now, assigned, copies⟩
    rcases assign_empty stands (some 0) with ⟨after, empty⟩
    cases Option.some.inj (empty.symm.trans assigned)
    have noLinks : now = [] := represents_no_cells copies.one
    have tail : some 0 = now.getLast? := linked_tail copies.one.linked
    rw [noLinks] at tail
    cases tail
  · exact fun filled => assign_eq stands filled

theorem constructs_iff (represents : Represents other links others given) :
    Constructs other links others given ↔ given ≠ [] := by
  have stands : StandApart ⟨LList.new, other, links⟩ [] others [] given :=
    ⟨⟨linked_nothing _ _, rfl, rfl⟩, represents, List.disjoint_nil_left _⟩
  exact assigns_iff stands

/-! ## Moving -/

/-- Following `tail` ends at the last link, with a count of the links passed. -/
theorem follow_tail_eq {first : Nat} {rest : List Nat}
    (chain : Chain (nextOf links) (some first) (first :: rest)) {fuel : Nat}
      (enough : rest.length < fuel) (starts : list.tail = some first) : followTail fuel list links =
      some ({ list with tail := (first :: rest).getLast?, remain := list.remain + rest.length },
        links) := by
  induction rest generalizing first fuel list with
  | nil =>
      rcases chain with ⟨-, after, step, ends⟩
      cases ends
      rcases Option.map_eq_some_iff.mp step with ⟨content, present, last⟩
      cases fuel with
      | zero => simp at enough
      | succ fuel =>
          have same : { list with tail := some first } = list := by rw [← starts]
          simp [followTail, starts, present, last, same]
  | cons second rest ih =>
      rcases chain with ⟨-, after, step, behind⟩
      rcases Option.map_eq_some_iff.mp step with ⟨content, present, rfl⟩
      have leads : content.next = some second := behind.1
      rw [leads] at behind
      cases fuel with
      | zero => simp at enough
      | succ fuel =>
          have onward : followTail fuel { list with tail := some second, remain := list.remain + 1 }
              links = _ :=
            ih behind (by simpa using enough) rfl
          have total : list.remain + 1 + (rest.length : Int) = list.remain +
              ((second :: rest).length : Int) := by
            simp only [List.length_cons]
            omega
          simp only [followTail, starts, present, Option.bind_eq_bind, Option.bind_some, leads,
            onward, total,
            List.getLast?_cons_cons]

/-- The links of both lists in one chain, of which `tail` is still the first one taken over. -/
theorem take_first_eq {first : Nat} {rest : List Nat}
    (stands : StandApart pair cells (first :: rest) items given) :
    ∃ after, takeFirst pair.list pair.links first =
        some ({ pair.list with tail := some first, remain := pair.list.remain + 1 }, after) ∧
      Linked (nextOf after) (prevOf after) (cells ++ first :: rest).head?
        (cells ++ first :: rest).getLast?
        (cells ++ first :: rest) ∧
      (cells ++ first :: rest).map (valueOf after) = (items ++ given).map some ∧
      Chain (nextOf after) (some first) (first :: rest) := by
  rcases stands with ⟨one, two, apart⟩
  have tail := linked_tail one.linked
  have lastExists : ∀ last, pair.list.tail = some last → (valueOf pair.links last).isSome := by
    intro last same
    rw [tail] at same
    exact represents_exists one (List.mem_of_getLast? same)
  have unhooked : prevOf pair.links first = some none := by
    have two : Represents pair.other pair.links ([] ++ first :: rest) given := two
    exact linked_prev two.linked
  rcases hook_tail_hooks lastExists unhooked with ⟨after, hooks, hooked⟩
  refine ⟨after, ?_, ?_, ?_, ?_⟩
  · simp only [takeFirst, hooks, Option.bind_eq_bind, Option.bind_some]
  · apply linked_splice one.linked two.linked apart
    · intro target _
      rw [hooked.next, tail, List.head?_cons]
    · intro target _
      rw [hooked.prev, tail, List.head?_cons]
      simp only [Option.some.injEq, eq_comm]
  · have kept : ∀ {links : List Nat} {values : List Item}, links.map (valueOf pair.links) =
        values.map some →
        links.map (valueOf after) = values.map some :=
        fun values => values_kept values fun link _ => hooked.value link
    rw [List.map_append, List.map_append, kept one.values, kept two.values]
  · have chain := two.linked.forward
    rw [linked_head two.linked, List.head?_cons] at chain
    apply chain_frame chain
    intro link member
    have notLast : pair.list.tail ≠ some link := by
      intro same
      rw [tail] at same
      exact apart (List.mem_of_getLast? same) member
    rw [hooked.next, if_neg notLast]

theorem represents_emptied (other : LList) (links : Links Item) :
    Represents { other with head := none, tail := none, remain := 0 } links [] [] :=
  ⟨linked_nothing _ _, rfl, rfl⟩

theorem transfer_from_nothing (stands : StandApart pair cells others items [])
    (accepts : pair.list.enabled = true) (filled : items ≠ []) : Transfers pair items [] := by
  rcases stands with ⟨one, two, apart⟩
  have noOthers : others = [] := represents_no_cells two
  have nothing : pair.other.head = none := by rw [linked_head two.linked, noOthers, List.head?_nil]
  have tail := linked_tail one.linked
  have head := linked_head one.linked
  cases isLast : cells.getLast? with
  | none =>
      have empty : cells = [] := List.getLast?_eq_none_iff.mp isLast
      subst empty
      exact absurd (represents_no_items one) filled
  | some last =>
      rcases List.getLast?_eq_some_iff.mp isLast with ⟨front, rfl⟩
      have starts : pair.list.tail = some last := tail.trans isLast
      have chain : Chain (nextOf pair.links) (some last) [last] :=
        ((chain_append _ front [last]).mp one.linked.forward).2
      have hasHead : pair.list.head.isNone = false := by
        rw [head]
        cases front with
        | nil => rfl
        | cons cell rest => rfl
      have kept : setHead pair.list = pair.list := by
        simp only [setHead, hasHead, Bool.false_eq_true, if_false]
      have followed : followTail (pair.links.fresh + 1) pair.list pair.links = _ :=
        follow_tail_eq chain (by simp) starts
      have same : { pair.list with tail := [last].getLast?,
                                   remain := pair.list.remain + ([] : List Nat).length } =
          pair.list := by simp [← starts]
      rw [same] at followed
      refine ⟨⟨pair.list, { pair.other with head := none, tail := none, remain := 0 }, pair.links⟩,
        front ++ [last],
        ?_, ⟨?_, represents_emptied pair.other pair.links, List.disjoint_nil_right _⟩⟩
      · simp only [transferFrom, accepts, if_true, nothing, Option.bind_eq_bind, Option.bind_some,
          kept, followed]
      · rwa [List.append_nil]

theorem transfer_from_something (stands : StandApart pair cells others items given)
    (accepts : pair.list.enabled = true) (filled : given ≠ []) : Transfers pair items given := by
  cases others with
  | nil => exact absurd (represents_no_items stands.two) filled
  | cons first rest =>
      rcases take_first_eq stands with ⟨after, took, linked, values, chain⟩
      rcases stands with ⟨one, two, apart⟩
      have head : pair.other.head = some first := linked_head two.linked
      have starts : setHead { pair.list with tail := some first, remain := pair.list.remain + 1 } =
          { pair.list with head := (cells ++ first :: rest).head?, tail := some first,
                           remain := pair.list.remain + 1 } := by
        have front := linked_head one.linked
        cases cells with
        | nil => simp [setHead, front]
        | cons cell others => simp [setHead, front]
      have enough : rest.length < after.fresh + 1 := by
        have inside : first :: rest ⊆ List.range after.fresh := by
          intro link member
          rcases segment_exists chain link member with ⟨next, step⟩
          rcases Option.map_eq_some_iff.mp step with ⟨content, present, -⟩
          exact List.mem_range.mpr (read_bound present)
        have length := (List.subperm_of_subset (chain_nodup chain) inside).length_le
        simp only [List.length_cons, List.length_range] at length
        omega
      let moved : LList := { pair.list with
        head := (cells ++ first :: rest).head?, tail := (first :: rest).getLast?,
        remain := pair.list.remain + 1 + rest.length }
      have followed : followTail (after.fresh + 1)
          { pair.list with head := (cells ++ first :: rest).head?, tail := some first,
                           remain := pair.list.remain + 1 } after = some (moved, after) :=
        follow_tail_eq chain enough rfl
      refine ⟨⟨moved, { pair.other with head := none, tail := none, remain := 0 }, after⟩,
        cells ++ first :: rest, ?_,
        ⟨⟨?_, values, ?_⟩, represents_emptied pair.other after, List.disjoint_nil_right _⟩⟩
      · rw [transferFrom, if_pos accepts]
        simp only [head, took, Option.bind_eq_bind, Option.bind_some, starts, followed]
      · have last : (cells ++ first :: rest).getLast? = (first :: rest).getLast? :=
          List.getLast?_append_of_ne_nil cells (List.cons_ne_nil first rest)
        rw [last] at linked
        exact linked
      · have length := represents_length two
        have counted := one.counted
        simp only [List.length_cons] at length
        simp only [moved, List.length_append, ← length]
        omega

/-- With both lists empty the loop follows `tail`, which is NULL. -/
theorem transfer_from_both_empty (stands : StandApart pair cells others items given)
    (accepts : pair.list.enabled = true)
    (nothing : items = [] ∧ given = []) : transferFrom pair = none := by
  rcases nothing with ⟨rfl, rfl⟩
  have noCells : cells = [] := represents_no_cells stands.one
  have noOthers : others = [] := represents_no_cells stands.two
  subst noCells noOthers
  have head : pair.list.head = none := linked_head stands.one.linked
  have tail : pair.list.tail = none := linked_tail stands.one.linked
  have otherHead : pair.other.head = none := linked_head stands.two.linked
  simp [transferFrom, accepts, otherHead, setHead, head, followTail, tail]

theorem transfers_iff (stands : StandApart pair cells others items given) :
    Transfers pair items given ↔
      if pair.list.enabled then items ≠ [] ∨ given ≠ [] else given = [] := by
  cases accepts : pair.list.enabled with
  | true =>
      rw [if_pos rfl]
      constructor
      · rintro ⟨after, now, transferred, -⟩
        by_contra empty
        have nothing : items = [] ∧ given = [] := by simpa using empty
        rw [transfer_from_both_empty stands accepts nothing] at transferred
        cases transferred
      · intro filled
        by_cases something : given = []
        · subst something
          exact transfer_from_nothing stands accepts (filled.resolve_right (by simp))
        · exact transfer_from_something stands accepts something
  | false =>
      have unchanged : transferFrom pair = some pair := by
        simp only [transferFrom, accepts, Bool.false_eq_true, if_false]
      rw [if_neg Bool.false_ne_true]
      constructor
      · rintro ⟨after, now, transferred, moved⟩
        cases Option.some.inj (unchanged.symm.trans transferred)
        have noHead : pair.other.head = none := linked_head moved.two.linked
        have noOthers : others = [] :=
          List.head?_eq_none_iff.mp ((linked_head stands.two.linked).symm.trans noHead)
        exact represents_no_items (noOthers ▸ stands.two)
      · rintro rfl
        have noOthers : others = [] := represents_no_cells stands.two
        refine ⟨pair, cells, unchanged, ?_⟩
        rw [List.append_nil]
        exact noOthers ▸ stands

def twoEach (enabled : Bool) : Pair Nat where
  list := ⟨enabled, some 0, some 1, 2⟩
  other := ⟨true, some 2, some 3, 2⟩
  links := ⟨[some ⟨7, some 1, none⟩, some ⟨9, none, some 0⟩, some ⟨8, some 3, none⟩,
    some ⟨6, none, some 2⟩]⟩

theorem two_each_stands (enabled : Bool) : StandApart (twoEach enabled) [0, 1] [2, 3] [7, 9]
    [8, 6] where
  one := ⟨⟨⟨rfl, some 1, rfl, rfl, none, rfl, rfl⟩, ⟨rfl, some 0, rfl, rfl, none, rfl, rfl⟩⟩, rfl,
    rfl⟩
  two := ⟨⟨⟨rfl, some 3, rfl, rfl, none, rfl, rfl⟩, ⟨rfl, some 2, rfl, rfl, none, rfl, rfl⟩⟩, rfl,
    rfl⟩
  apart := by simp

def newPair : Pair Nat := ⟨LList.new, LList.new, Store.empty⟩

theorem new_pair_stands : StandApart newPair [] [] [] [] :=
  ⟨represents_new, represents_new, by simp⟩

end TWlib.LListLinks
