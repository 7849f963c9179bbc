import TWlib.LListSequence

/-!
# Who owns the links of a doubly linked list

The list owns each link from the `malloc` of an adding call to the `free` of the call that takes it
out; where a link is given up here, the code calls `destroy()` and then `ALLOC::free`. The log of a
run has the links that were freed, in order. `removeNext` and `removePrev` of an iterator take a
link out of the list and leave it allocated.
-/

namespace TWlib.LListLinks

open TWlib.Lib.CellStore TWlib.Lib.LinkedChain TWlib.Lib.DoublyLinked

set_option autoImplicit false

variable {Item : Type*}

/-! ## Runs -/

def destruct (world : World Item) : Option (World Item) :=
  (world.list.clearAll world.links).map fun (list, links) => { world with list, links }

/-- Any calls, in any order, from a new list on. -/
inductive Life (blank : Item) : List (Performed Item) → World Item → Prop where
  | start : Life blank [] World.new
  | step {history : List (Performed Item)} {call : Call Item} {result : Result Item}
      {world next : World Item}
      (life : Life blank history world)
      (performed : perform blank world call = some (next, result)) :
      Life blank (history ++ [⟨world, call, result, next⟩]) next

def freedIn (history : List (Performed Item)) : List Nat :=
  history.flatMap fun taken => givenUp taken.before.links taken.after.links

/-- The allocated links are those that are reached from `head`. -/
def OwnsLinks (world : World Item) : Prop :=
  ∀ link, (world.links.read link).isSome ↔ Reachable (nextOf world.links) world.list.head link

/-- The destructor ends, and then each link that was ever made has been freed once. -/
def FreesOnce (history : List (Performed Item)) (world : World Item) : Prop :=
  ∃ last, destruct world = some last ∧ (∀ link, last.links.read link = none) ∧
    (freedIn history ++ givenUp world.links last.links).Nodup ∧
    ∀ link, link ∈ freedIn history ++ givenUp world.links last.links ↔ link < last.links.fresh

/-- A link is removed through the iterator that stands on it. -/
def Performed.unlinks (taken : Performed Item) : Bool :=
  match taken.call with
  | .removeNext i | .removePrev i => (taken.before.iters i).look.isSome
  | _ => false

/-! ## Which links there are after an operation -/

section Operations

variable {list grown : LList} {links after : Links Item} {newlink link : Nat}
  {target next prev : Option Nat} {fill : Option Item}

theorem set_next_rewired (set : setNext links link next = some after) : Rewired links after := by
  rcases Option.bind_eq_some_iff.mp set with ⟨content, present, same⟩
  cases same
  exact rewired_write present _

theorem set_prev_rewired (set : setPrev links link prev = some after) : Rewired links after := by
  rcases Option.bind_eq_some_iff.mp set with ⟨content, present, same⟩
  cases same
  exact rewired_write present _

theorem hook_next_rewired (hooks : hookNext links target next = some after) :
    Rewired links after := by
  cases target with
  | none =>
      cases hooks
      exact rewired_refl _
  | some link => exact set_next_rewired hooks

theorem hook_prev_rewired (hooks : hookPrev links target prev = some after) :
    Rewired links after := by
  cases target with
  | none =>
      cases hooks
      exact rewired_refl _
  | some link => exact set_prev_rewired hooks

theorem hook_tail_rewired (hooks : hookTail links target newlink = some after) :
    Rewired links after := by
  cases target with
  | none =>
      cases hooks
      exact rewired_refl _
  | some tail =>
      rcases Option.bind_eq_some_iff.mp hooks with ⟨middle, set, setAgain⟩
      exact rewired_trans (set_next_rewired set) (set_prev_rewired setAgain)

theorem append_rewired (appended : list.append links newlink = some (grown, after)) :
    Rewired links after := by
  rcases Option.bind_eq_some_iff.mp appended with ⟨hooked, hooks, same⟩
  cases same
  exact hook_tail_rewired hooks

/-- An adding operation makes one link, or none when the list is disabled. -/
def Makes (list : LList) (links after : Links Item) : Prop :=
  if list.enabled then ∃ made, Rewired (links.push made) after else after = links

theorem add_to_tail_makes {theD : Item} (added : list.addToTail links theD = some (grown, after)) :
    Makes list links after := by
  unfold LList.addToTail at added
  unfold Makes
  split_ifs at added ⊢ with accepts
  · exact ⟨_, append_rewired added⟩
  · cases added
    rfl

theorem add_empty_tail_same {blank : Item} {ret : Option Nat}
    (added : list.addEmptyTail blank links = some (grown, after, ret)) :
    list.addToTail links blank = some (grown, after) := by
  unfold LList.addEmptyTail at added
  unfold LList.addToTail
  split_ifs at added ⊢ with accepts
  · rcases Option.bind_eq_some_iff.mp added with ⟨⟨longer, appended⟩, ran, same⟩
    cases same
    exact ran
  · cases added
    rfl

theorem add_to_head_makes {theD : Item} (added : list.addToHead links theD = some (grown, after)) :
    Makes list links after := by
  unfold LList.addToHead at added
  unfold Makes
  cases accepts : list.enabled with
  | true =>
      rw [accepts, if_pos rfl] at added
      rcases Option.bind_eq_some_iff.mp added with ⟨middle, set, rest⟩
      rcases Option.bind_eq_some_iff.mp rest with ⟨hooked, hooks, same⟩
      cases same
      exact ⟨_, rewired_trans (set_next_rewired set) (hook_prev_rewired hooks)⟩
  | false =>
      simp only [accepts, Bool.false_eq_true, if_false] at added
      cases added
      rfl

/-- A removal at an end frees the link there. -/
def Frees (target : Option Nat) (links after : Links Item) : Prop :=
  match target with
  | none => after = links
  | some link => ∃ middle, Rewired links middle ∧ after = middle.giveUp link

theorem remove_head_frees (removed : list.removeHead links = some (grown, after, fill)) :
    Frees list.head links after := by
  unfold LList.removeHead at removed
  cases head : list.head with
  | none =>
      simp only [head, Option.some.injEq, Prod.mk.injEq] at removed
      exact removed.2.1.symm
  | some oldout =>
      simp only [head] at removed
      rcases Option.bind_eq_some_iff.mp removed with ⟨content, present, rest⟩
      rcases Option.bind_eq_some_iff.mp rest with ⟨middle, hooks, same⟩
      cases same
      exact ⟨middle, hook_prev_rewired hooks, rfl⟩

theorem remove_tail_frees (removed : list.removeTail links = some (grown, after, fill)) :
    Frees list.tail links after := by
  unfold LList.removeTail at removed
  cases tail : list.tail with
  | none =>
      simp only [tail, Option.some.injEq, Prod.mk.injEq] at removed
      exact removed.2.1.symm
  | some oldout =>
      simp only [tail] at removed
      rcases Option.bind_eq_some_iff.mp removed with ⟨content, present, rest⟩
      rcases Option.bind_eq_some_iff.mp rest with ⟨middle, hooks, same⟩
      cases same
      exact ⟨middle, hook_next_rewired hooks, rfl⟩

/-- The link taken out stays allocated. -/
theorem remove_link_rewired (removed : list.removeLink links link = some (grown, after)) :
    Rewired links after := by
  rcases Option.bind_eq_some_iff.mp removed with ⟨oldout, present, rest⟩
  rcases Option.bind_eq_some_iff.mp rest with ⟨middle, hooks, rest⟩
  rcases Option.bind_eq_some_iff.mp rest with ⟨hooked, hooksAgain, rest⟩
  rcases Option.bind_eq_some_iff.mp rest with ⟨content, still, same⟩
  cases same
  exact rewired_trans (hook_prev_rewired hooks) (hook_next_rewired hooksAgain)

theorem free_links_exchange {fuel : Nat} {head : Option Nat}
    (freed : freeLinks fuel head links = some after) :
    after.fresh = links.fresh ∧ ∀ link, links.read link = none → after.read link = none := by
  induction fuel generalizing head links with
  | zero =>
      cases head with
      | none =>
          cases freed
          exact ⟨rfl, fun _ missing => missing⟩
      | some link => cases freed
  | succ fuel ih =>
      cases head with
      | none =>
          cases freed
          exact ⟨rfl, fun _ missing => missing⟩
      | some link =>
          rcases Option.bind_eq_some_iff.mp freed with ⟨content, present, onward⟩
          rcases ih onward with ⟨fresh, gone⟩
          refine ⟨fresh.trans (fresh_give_up _ _), fun other missing => gone other ?_⟩
          rw [read_give_up]
          split_ifs
          · rfl
          · exact missing

theorem makes_exchange (makes : Makes list links after) : Exchange links after := by
  unfold Makes at makes
  split_ifs at makes
  · rcases makes with ⟨made, rewired⟩
    exact exchange_make rewired
  · rw [makes]
    exact exchange_rewired (rewired_refl _)

theorem frees_exchange (frees : Frees target links after) : Exchange links after := by
  cases target with
  | none =>
      have same : after = links := frees
      rw [same]
      exact exchange_rewired (rewired_refl _)
  | some link =>
      rcases frees with ⟨middle, rewired, rfl⟩
      exact exchange_free rewired link

theorem clear_all_exchange (cleared : list.clearAll links = some (grown, after)) :
    Exchange links after := by
  rcases Option.bind_eq_some_iff.mp cleared with ⟨freed, ran, same⟩
  cases same
  rcases free_links_exchange ran with ⟨fresh, gone⟩
  refine ⟨Nat.le_of_eq fresh.symm, fun link _ missing => gone link missing, ?_⟩
  intro link beyond bound
  rw [fresh] at bound
  omega

theorem set_current_rewired {iter : Iter} {theD : Item} {ret : Bool}
    (set : iter.setCurrent links theD = some (after, ret)) : Rewired links after := by
  cases look : iter.look with
  | none =>
      simp only [Iter.setCurrent, look, Option.some.injEq, Prod.mk.injEq] at set
      rw [← set.1]
      exact rewired_refl _
  | some link =>
      simp only [Iter.setCurrent, look] at set
      rcases Option.map_eq_some_iff.mp set with ⟨content, present, same⟩
      cases same
      exact rewired_write present _

/-- What `removeNext` and `removePrev` do to the list: at an end nothing, and otherwise they take
out the link that the iterator stands on. -/
def Unlinks (iter : Iter) (list grown : LList) (links after : Links Item) : Prop :=
  match iter.look with
  | none => grown = list ∧ after = links
  | some link => (links.read link).isSome ∧ list.removeLink links link = some (grown, after)

theorem iter_remove_link_eq {iter : Iter}
    (removed : iter.removeLink list links link = some (grown, after)) :
    list.removeLink links link = some (grown, after) := by
  unfold Iter.removeLink at removed
  split_ifs at removed
  exact removed

theorem remove_next_unlinks {iter onward : Iter}
    (removed : iter.removeNext list links = some (onward, grown, after, fill)) :
    Unlinks iter list grown links after := by
  unfold Unlinks
  cases look : iter.look with
  | none =>
      simp only [Iter.removeNext, look, Option.some.injEq, Prod.mk.injEq] at removed
      exact ⟨removed.2.1.symm, removed.2.2.1.symm⟩
  | some link =>
      simp only [Iter.removeNext, look] at removed
      rcases Option.bind_eq_some_iff.mp removed with ⟨content, present, rest⟩
      rcases Option.bind_eq_some_iff.mp rest with ⟨⟨shorter, middle⟩, unlinks, same⟩
      cases same
      exact ⟨by rw [present]; rfl, iter_remove_link_eq unlinks⟩

theorem remove_prev_unlinks {iter onward : Iter}
    (removed : iter.removePrev list links = some (onward, grown, after, fill)) :
    Unlinks iter list grown links after := by
  unfold Unlinks
  cases look : iter.look with
  | none =>
      simp only [Iter.removePrev, look, Option.some.injEq, Prod.mk.injEq] at removed
      exact ⟨removed.2.1.symm, removed.2.2.1.symm⟩
  | some link =>
      simp only [Iter.removePrev, look] at removed
      rcases Option.bind_eq_some_iff.mp removed with ⟨content, present, rest⟩
      rcases Option.bind_eq_some_iff.mp rest with ⟨⟨shorter, middle⟩, unlinks, same⟩
      cases same
      exact ⟨by rw [present]; rfl, iter_remove_link_eq unlinks⟩

theorem unlinks_rewired {iter : Iter} (unlinks : Unlinks iter list grown links after) :
    Rewired links after := by
  unfold Unlinks at unlinks
  cases look : iter.look with
  | none =>
      rw [look] at unlinks
      rw [unlinks.2]
      exact rewired_refl _
  | some link =>
      rw [look] at unlinks
      exact remove_link_rewired unlinks.2

end Operations

/-! ## The log -/

variable {blank : Item} {world next : World Item} {call : Call Item} {result : Result Item}
  {history : List (Performed Item)}

theorem perform_remove_next {i : Nat}
    (performed : perform blank world (.removeNext i) = some (next, result)) :
    Unlinks (world.iters i) world.list next.list world.links next.links := by
  rcases Option.map_eq_some_iff.mp performed with ⟨⟨iter, list, links, fill⟩, removed, same⟩
  cases same
  exact remove_next_unlinks removed

theorem perform_remove_prev {i : Nat}
    (performed : perform blank world (.removePrev i) = some (next, result)) :
    Unlinks (world.iters i) world.list next.list world.links next.links := by
  rcases Option.map_eq_some_iff.mp performed with ⟨⟨iter, list, links, fill⟩, removed, same⟩
  cases same
  exact remove_prev_unlinks removed

theorem perform_exchange (performed : perform blank world call = some (next, result)) :
    Exchange world.links next.links := by
  have stays : Exchange world.links world.links := exchange_rewired (rewired_refl _)
  cases call with
  | addToTail theD =>
      rcases Option.map_eq_some_iff.mp performed with ⟨⟨list, links⟩, added, same⟩
      cases same
      exact makes_exchange (add_to_tail_makes added)
  | addToHead theD =>
      rcases Option.map_eq_some_iff.mp performed with ⟨⟨list, links⟩, added, same⟩
      cases same
      exact makes_exchange (add_to_head_makes added)
  | addEmptyTail =>
      rcases Option.map_eq_some_iff.mp performed with ⟨⟨list, links, ret⟩, added, same⟩
      cases same
      exact makes_exchange (add_to_tail_makes (add_empty_tail_same added))
  | removeHead =>
      rcases Option.map_eq_some_iff.mp performed with ⟨⟨list, links, fill⟩, removed, same⟩
      cases same
      exact frees_exchange (remove_head_frees removed)
  | removeTail =>
      rcases Option.map_eq_some_iff.mp performed with ⟨⟨list, links, fill⟩, removed, same⟩
      cases same
      exact frees_exchange (remove_tail_frees removed)
  | clearAll =>
      rcases Option.map_eq_some_iff.mp performed with ⟨⟨list, links⟩, cleared, same⟩
      cases same
      exact clear_all_exchange cleared
  | setCurrent i fill | setCurrentVal i fill =>
      rcases Option.map_eq_some_iff.mp performed with ⟨⟨links, ret⟩, set, same⟩
      cases same
      exact exchange_rewired (set_current_rewired set)
  | removeNext i => exact exchange_rewired (unlinks_rewired (perform_remove_next performed))
  | removePrev i => exact exchange_rewired (unlinks_rewired (perform_remove_prev performed))
  | getNext i | getPrev i | getCurrent i | peekHead | peekTail =>
      rcases Option.map_eq_some_iff.mp performed with ⟨found, -, same⟩
      cases same
      exact stays
  | enable | disable | newIter i | startIterHead i | startIterTail i | releaseIter i | atEnd i =>
      cases performed
      exact stays

theorem life_account (life : Life blank history world) : Account (freedIn history) world.links := by
  induction life with
  | start => exact account_empty
  | step life performed ih =>
      have account := account_exchange ih (perform_exchange performed)
      rw [freedIn, List.flatMap_append, List.flatMap_singleton]
      exact account

/-! ## The links of the list -/

structure Owned (world : World Item) (cells : List Nat) (items : List Item) : Prop where
  represents : Represents world.list world.links cells items
  only : ∀ link, (world.links.read link).isSome → link ∈ cells

variable {cells : List Nat} {items : List Item}

theorem owned_new : Owned (World.new : World Item) [] [] :=
  ⟨represents_new, fun link present => by simp [World.new] at present⟩

theorem owned_alive (owned : Owned world cells items) (link : Nat) :
    (world.links.read link).isSome ↔ link ∈ cells := by
  refine ⟨owned.only link, fun member => ?_⟩
  rcases present_of_value (represents_exists owned.represents member) with ⟨content, present⟩
  rw [present]
  rfl

theorem owned_owns (owned : Owned world cells items) : OwnsLinks world := by
  intro link
  rw [owned_alive owned, reachable_iff_mem owned.represents.linked.forward]

theorem owned_same (owned : Owned world cells items) (list : next.list = world.list)
    (links : next.links = world.links) : Owned next cells items := by
  refine ⟨?_, ?_⟩
  · rw [list, links]
    exact owned.represents
  · rw [links]
    exact owned.only

theorem owned_flag (owned : Owned world cells items) (enabled : Bool) :
    Owned { world with list := { world.list with enabled } } cells items :=
  ⟨⟨owned.represents.linked, owned.represents.values, owned.represents.counted⟩, owned.only⟩

theorem owned_made {list : LList} {links : Links Item} {now : List Nat} {values : List Item}
    {made : Link Item} (owned : Owned world cells items)
    (rewired : Rewired (world.links.push made) links)
    (represents : Represents list links now values)
    (more : ∀ link, link ∈ cells ∨ link = world.links.fresh → link ∈ now) :
    Owned { world with list, links } now values := by
  refine ⟨represents, fun link present => more link ?_⟩
  rw [rewired.alive, read_push] at present
  split_ifs at present with new
  · exact .inr new
  · exact .inl (owned.only link present)

theorem owned_freed {list : LList} {links : Links Item} {now : List Nat} {values : List Item}
    {link : Nat} (owned : Owned world cells items) (frees : Frees (some link) world.links links)
    (represents : Represents list links now values) (others : ∀ other ∈ cells, other ≠ link →
      other ∈ now) :
    Owned { world with list, links } now values := by
  rcases frees with ⟨middle, rewired, rfl⟩
  refine ⟨represents, fun other present => ?_⟩
  have read := read_give_up middle link other
  have different : other ≠ link := by
    rintro rfl
    rw [if_pos rfl] at read
    rw [read] at present
    cases present
  rw [read, if_neg different, rewired.alive] at present
  exact others other (owned.only other present) different

/-! ## One call -/

theorem add_to_tail_owned (owned : Owned world cells items) {theD : Item} {list : LList}
    {links : Links Item} (added : world.list.addToTail world.links theD = some (list, links)) :
    ∃ now values, Owned { world with list, links } now values := by
  have makes := add_to_tail_makes added
  cases accepts : world.list.enabled with
  | false =>
      simp only [LList.addToTail, accepts, Bool.false_eq_true, if_false] at added
      cases added
      exact ⟨cells, items, owned⟩
  | true =>
      rw [Makes, if_pos accepts] at makes
      rcases makes with ⟨made, rewired⟩
      rcases represents_push owned.represents (⟨theD, none, none⟩ : Link Item) with ⟨pushed,
        outside⟩
      have new : (world.links.push ⟨theD, none, none⟩).read world.links.fresh = some ⟨theD,
          none, none⟩ := by
        simp [read_push]
      rcases append_eq pushed new outside with ⟨after, appended, represents⟩
      simp only [LList.addToTail, if_pos accepts, appended] at added
      cases added
      refine ⟨_, _, owned_made owned rewired represents ?_⟩
      intro link member
      simpa using member

theorem add_to_head_owned (owned : Owned world cells items) {theD : Item} {list : LList}
    {links : Links Item} (added : world.list.addToHead world.links theD = some (list, links)) :
    ∃ now values, Owned { world with list, links } now values := by
  have makes := add_to_head_makes added
  cases accepts : world.list.enabled with
  | false =>
      simp only [LList.addToHead, accepts, Bool.false_eq_true, if_false] at added
      cases added
      exact ⟨cells, items, owned⟩
  | true =>
      rw [Makes, if_pos accepts] at makes
      rcases makes with ⟨made, rewired⟩
      rcases add_to_head_eq owned.represents theD accepts with ⟨grown, after, adds, -, represents⟩
      cases Option.some.inj (adds.symm.trans added)
      refine ⟨_, _, owned_made owned rewired represents ?_⟩
      intro link member
      simpa [or_comm] using member

theorem remove_head_owned (owned : Owned world cells items) {list : LList} {links : Links Item}
    {fill : Option Item} (removed : world.list.removeHead world.links = some (list, links, fill)) :
    ∃ now values, Owned { world with list, links } now values := by
  have frees := remove_head_frees removed
  cases cells with
  | nil =>
      cases Option.some.inj ((remove_head_empty owned.represents).symm.trans removed)
      exact ⟨_, _, owned⟩
  | cons link back =>
      have head : world.list.head = some link := linked_head owned.represents.linked
      rw [head] at frees
      rcases remove_head_eq owned.represents with ⟨after, removes, represents⟩
      cases Option.some.inj (removes.symm.trans removed)
      refine ⟨back, _, owned_freed owned frees represents ?_⟩
      exact fun other member different => (List.mem_cons.mp member).resolve_left different

theorem remove_tail_owned (owned : Owned world cells items) {list : LList} {links : Links Item}
    {fill : Option Item} (removed : world.list.removeTail world.links = some (list, links, fill)) :
    ∃ now values, Owned { world with list, links } now values := by
  have frees := remove_tail_frees removed
  have tail := linked_tail owned.represents.linked
  cases last : cells.getLast? with
  | none =>
      have empty : cells = [] := List.getLast?_eq_none_iff.mp last
      subst empty
      cases Option.some.inj ((remove_tail_empty owned.represents).symm.trans removed)
      exact ⟨_, _, owned⟩
  | some link =>
      rcases List.getLast?_eq_some_iff.mp last with ⟨front, rfl⟩
      rw [tail, last] at frees
      rcases remove_tail_eq owned.represents with ⟨after, removes, represents⟩
      cases Option.some.inj (removes.symm.trans removed)
      refine ⟨front, _, owned_freed owned frees represents ?_⟩
      intro other member different
      exact (List.mem_append.mp member).resolve_right fun same =>
        different (List.mem_singleton.mp same)

/-- What `clearAll`, and thereby the destructor, leaves: no link at all. -/
theorem clear_all_owned (owned : Owned world cells items) :
    ∃ list links, world.list.clearAll world.links = some (list, links) ∧
      Owned { world with list, links } [] [] ∧
      links.fresh = world.links.fresh := by
  rcases clear_all_eq owned.represents with ⟨after, cleared, empty, fresh, reads⟩
  refine ⟨_, after, cleared, ⟨empty, fun link present => ?_⟩, fresh⟩
  have read := reads link
  split_ifs at read with member
  · rw [read] at present
    cases present
  · rw [read] at present
    exact absurd (owned.only link present) member

theorem set_current_owned (owned : Owned world cells items) {iter : Iter} {theD : Item}
    {links : Links Item} {ret : Bool} (set : iter.setCurrent world.links theD = some (links, ret)) :
    ∃ values, Owned { world with links } cells values := by
  cases look : iter.look with
  | none =>
      simp only [Iter.setCurrent, look, Option.some.injEq, Prod.mk.injEq] at set
      rcases set with ⟨rfl, -⟩
      exact ⟨items, owned⟩
  | some link =>
      simp only [Iter.setCurrent, look] at set
      rcases Option.map_eq_some_iff.mp set with ⟨content, present, same⟩
      cases same
      have member : link ∈ cells := owned.only link (by rw [present]; rfl)
      rcases List.append_of_mem member with ⟨front, back, rfl⟩
      rcases represents_set owned.represents theD with ⟨found, read, represents⟩
      cases Option.some.inj (present.symm.trans read)
      refine ⟨_, represents, fun other there => ?_⟩
      apply owned.only other
      rw [← (rewired_write present _).alive other]
      exact there

theorem unlinks_nothing (owned : Owned world cells items) {i : Nat}
    (ended : (world.iters i).look.isSome = false)
    (unlinks : Unlinks (world.iters i) world.list next.list world.links next.links) :
    Owned next cells items := by
  rw [Unlinks, Option.not_isSome_iff_eq_none.mp (Bool.eq_false_iff.mp ended)] at unlinks
  exact owned_same owned unlinks.1 unlinks.2

theorem perform_owned (owned : Owned world cells items)
    (performed : perform blank world call = some (next, result))
    (keeps : (⟨world, call, result, next⟩ : Performed Item).unlinks = false) :
    ∃ now values, Owned next now values := by
  cases call with
  | addToTail theD =>
      rcases Option.map_eq_some_iff.mp performed with ⟨⟨list, links⟩, added, same⟩
      cases same
      exact add_to_tail_owned owned added
  | addToHead theD =>
      rcases Option.map_eq_some_iff.mp performed with ⟨⟨list, links⟩, added, same⟩
      cases same
      exact add_to_head_owned owned added
  | addEmptyTail =>
      rcases Option.map_eq_some_iff.mp performed with ⟨⟨list, links, ret⟩, added, same⟩
      cases same
      exact add_to_tail_owned owned (add_empty_tail_same added)
  | removeHead =>
      rcases Option.map_eq_some_iff.mp performed with ⟨⟨list, links, fill⟩, removed, same⟩
      cases same
      exact remove_head_owned owned removed
  | removeTail =>
      rcases Option.map_eq_some_iff.mp performed with ⟨⟨list, links, fill⟩, removed, same⟩
      cases same
      exact remove_tail_owned owned removed
  | clearAll =>
      rcases Option.map_eq_some_iff.mp performed with ⟨⟨list, links⟩, cleared, same⟩
      cases same
      rcases clear_all_owned owned with ⟨_, _, clears, empty, -⟩
      cases Option.some.inj (clears.symm.trans cleared)
      exact ⟨[], [], empty⟩
  | setCurrent i fill | setCurrentVal i fill =>
      rcases Option.map_eq_some_iff.mp performed with ⟨⟨links, ret⟩, set, same⟩
      cases same
      rcases set_current_owned owned set with ⟨values, still⟩
      exact ⟨cells, values, still⟩
  | removeNext i =>
      exact ⟨cells, items, unlinks_nothing owned keeps (perform_remove_next performed)⟩
  | removePrev i =>
      exact ⟨cells, items, unlinks_nothing owned keeps (perform_remove_prev performed)⟩
  | getNext i | getPrev i | getCurrent i | peekHead | peekTail =>
      rcases Option.map_eq_some_iff.mp performed with ⟨found, -, same⟩
      cases same
      exact ⟨cells, items, owned_same owned rfl rfl⟩
  | enable | disable =>
      cases performed
      exact ⟨cells, items, owned_flag owned _⟩
  | newIter i | startIterHead i | startIterTail i | releaseIter i | atEnd i =>
      cases performed
      exact ⟨cells, items, owned_same owned rfl rfl⟩

/-- `removeLink` leaves the link allocated, and it is reached no more. -/
theorem remove_link_orphans (owned : Owned world cells items) {list : LList} {links : Links Item}
    {link : Nat} (present : (world.links.read link).isSome)
    (removed : world.list.removeLink world.links link = some (list, links)) :
    (links.read link).isSome ∧ ¬ Reachable (nextOf links) list.head link := by
  rcases List.append_of_mem (owned.only link present) with ⟨front, back, rfl⟩
  rcases remove_link_eq owned.represents with ⟨after, removes, represents⟩
  rcases represents_link owned.represents with ⟨-, -, -, -, -, notFront, notBack⟩
  cases Option.some.inj (removes.symm.trans removed)
  refine ⟨by rw [(remove_link_rewired removed).alive, present], ?_⟩
  rw [reachable_iff_mem represents.linked.forward]
  simp [notFront, notBack]

/-- So the list does not own its links any more when an iterator that stands on one has taken it
out. -/
theorem unlinks_not_owns (owned : Owned world cells items) {i : Nat}
    (stands : (world.iters i).look.isSome = true)
    (unlinks : Unlinks (world.iters i) world.list next.list world.links next.links) :
    ¬ OwnsLinks next := by
  rcases Option.isSome_iff_exists.mp stands with ⟨link, look⟩
  rw [Unlinks, look] at unlinks
  rcases remove_link_orphans owned unlinks.1 unlinks.2 with ⟨still, unreached⟩
  exact fun owns => unreached ((owns link).mp still)

theorem perform_not_owns (owned : Owned world cells items)
    (performed : perform blank world call = some (next, result))
    (removes : (⟨world, call, result, next⟩ : Performed Item).unlinks = true) :
    ¬ OwnsLinks next := by
  cases call with
  | removeNext i => exact unlinks_not_owns owned removes (perform_remove_next performed)
  | removePrev i => exact unlinks_not_owns owned removes (perform_remove_prev performed)
  | _ => cases removes

/-! ## Every run -/

theorem life_owned (life : Life blank history world)
    (keeps : ∀ taken ∈ history, taken.unlinks = false) :
    ∃ cells items, Owned world cells items := by
  induction life with
  | start => exact ⟨[], [], owned_new⟩
  | step life performed ih =>
      rcases ih fun taken member => keeps taken (List.mem_append_left _ member) with ⟨cells,
        items, owned⟩
      exact perform_owned owned performed (keeps _ (by simp))

theorem life_owns (life : Life blank history world)
    (keeps : ∀ taken ∈ history, taken.unlinks = false) :
    ∀ taken ∈ history, OwnsLinks taken.after := by
  induction life with
  | start => exact fun taken member => absurd member List.not_mem_nil
  | step life performed ih =>
      intro taken member
      rcases List.mem_append.mp member with before | last
      · exact ih (fun other early => keeps other (List.mem_append_left _ early)) taken before
      · rw [List.mem_singleton.mp last]
        rcases life_owned (.step life performed) keeps with ⟨cells, items, owned⟩
        exact owned_owns owned

theorem owned_frees_once (life : Life blank history world) (owned : Owned world cells items) :
    FreesOnce history world := by
  rcases clear_all_owned owned with ⟨list, links, cleared, empty, fresh⟩
  have account := account_exchange (life_account life) (clear_all_exchange cleared)
  have gone : ∀ link, links.read link = none := by
    intro link
    have missing : ¬ (links.read link).isSome :=
      fun present => by simpa using empty.only link present
    exact Option.not_isSome_iff_eq_none.mp missing
  refine ⟨{ world with list, links }, by rw [destruct, cleared, Option.map_some], gone,
    account.once, ?_⟩
  intro link
  rw [account.gone]
  exact and_iff_left (gone link)

theorem life_keeps (life : Life blank history world)
    (owns : ∀ taken ∈ history, OwnsLinks taken.after) :
    ∀ taken ∈ history, taken.unlinks = false := by
  induction life with
  | start => exact fun taken member => absurd member List.not_mem_nil
  | step life performed ih =>
      have earlier := ih fun taken member => owns taken (List.mem_append_left _ member)
      rcases life_owned life earlier with ⟨cells, items, owned⟩
      intro taken member
      rcases List.mem_append.mp member with before | last
      · exact earlier taken before
      · rw [List.mem_singleton.mp last]
        apply Bool.eq_false_iff.mpr
        intro removes
        have now := owns _ (List.mem_append_right _ (List.mem_singleton_self _))
        exact perform_not_owns owned performed removes now

/-- The allocated links are those of the list after every operation, and all links are freed once
when it is destroyed, exactly if no link is removed through an iterator. -/
theorem list_owns_links_iff (life : Life blank history world) :
    ((∀ taken ∈ history, OwnsLinks taken.after) ∧ FreesOnce history world) ↔
      ∀ taken ∈ history, taken.unlinks = false := by
  constructor
  · exact fun holds => life_keeps life holds.1
  · intro keeps
    rcases life_owned life keeps with ⟨cells, items, owned⟩
    exact ⟨life_owns life keeps, owned_frees_once life owned⟩

def one : World Nat := ⟨⟨true, some 0, some 0, 1⟩, ⟨[some ⟨1, none, none⟩]⟩, fun _ => Iter.new⟩

def oneRemoved : World Nat := { one with list := LList.new, links := ⟨[none]⟩ }

def removedAtHead : List (Performed Nat) :=
  [⟨World.new, .addToTail 1, .nothing, one⟩, ⟨one, .removeHead, .found (some 1), oneRemoved⟩]

theorem removed_at_head_life : Life 0 removedAtHead oneRemoved := by
  have adds : perform 0 World.new (.addToTail 1) = some (one, .nothing) := rfl
  have removes : perform 0 one .removeHead = some (oneRemoved, .found (some 1)) := rfl
  exact .step (.step .start adds) removes

theorem list_owns_links_removed_at_head :
    (∀ taken ∈ removedAtHead, OwnsLinks taken.after) ∧ FreesOnce removedAtHead oneRemoved :=
  (list_owns_links_iff removed_at_head_life).mpr (by decide)

def onOnly : World Nat := one.setIter 0 ⟨some 0, true⟩

def oneLeft : World Nat := ({ onOnly with list := LList.new } : World Nat).setIter 0 ⟨none, true⟩

def removedByIterator : List (Performed Nat) :=
  [⟨World.new, .addToTail 1, .nothing, one⟩, ⟨one, .startIterHead 0, .nothing, onOnly⟩,
    ⟨onOnly, .removeNext 0, .found (some 1), oneLeft⟩]

theorem removed_by_iterator_life : Life 0 removedByIterator oneLeft := by
  have adds : perform 0 World.new (.addToTail 1) = some (one, .nothing) := rfl
  have starts : perform 0 one (.startIterHead 0) = some (onOnly, .nothing) := rfl
  have removes : perform 0 onOnly (.removeNext 0) = some (oneLeft, .found (some 1)) := rfl
  exact .step (.step (.step .start adds) starts) removes

/-- A removal through an iterator leaves a link that is never freed. -/
theorem list_not_always_owns_links :
    ¬ ∀ history world, Life (0 : Nat) history world →
      (∀ taken ∈ history, OwnsLinks taken.after) ∧ FreesOnce history world := by
  intro claim
  rcases claim _ _ removed_by_iterator_life with ⟨-, last, destructed, gone, -⟩
  have same : destruct oneLeft = some oneLeft := rfl
  cases Option.some.inj (same.symm.trans destructed)
  exact absurd (gone 0) (by decide)

end TWlib.LListLinks
