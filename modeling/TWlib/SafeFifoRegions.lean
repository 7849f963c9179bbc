import Mathlib.Data.List.Perm.Subperm
import TWlib.SafeFifo

/-!
# What the regions of a thread-safe FIFO do

`Represents` says which links a queue has and which values they hold. A region works on the
links of the queue, on the one it was given, or on new ones: `Keeps` says that the other links
that exist, which belong to calls in progress, stay as they are and outside of the queue.
-/

namespace TWlib.SafeFifoRegions

open TWlib.Lib.CellStore TWlib.Lib.LinkedChain TWlib.Lib.ValueChain TWlib.SafeFifo

set_option autoImplicit false

variable {Item : Type*}

def nextOf (links : Links Item) (link : Nat) : Option (Option Nat) :=
  (links.read link).map Link.next

def valueOf (links : Links Item) (link : Nat) : Option Item := (links.read link).map Link.d

structure Represents (fifo : Fifo) (links : Links Item) (cells : List Nat)
    (items : List Item) : Prop where
  carried : Carries (nextOf links) (valueOf links) fifo.out cells items
  last : fifo.inn = cells.getLast?
  counted : fifo.remain = items.length

def Keeps (links : Links Item) (cells : List Nat) (own : Option Nat) (after : Links Item)
    (now : List Nat) : Prop :=
  ∀ link content, link ∉ cells → own ≠ some link → links.read link = some content →
    after.read link = some content ∧ link ∉ now

variable {fifo : Fifo} {links after : Links Item} {cells now : List Nat} {items : List Item}
  {own : Option Nat} {newlink : Nat} {theD : Item} {left : Item → Item}

/-! ## Links -/

theorem keeps_refl (links : Links Item) (cells : List Nat) (own : Option Nat) :
    Keeps links cells own links cells :=
  fun _ _ outside _ present => ⟨present, outside⟩

theorem represents_new : Represents Fifo.new (Store.empty : Links Item) [] [] :=
  ⟨carries_nothing _ _, rfl, rfl⟩

theorem represents_exists (represents : Represents fifo links cells items) {link : Nat}
    (member : link ∈ cells) :
    ∃ content, links.read link = some content := by
  rcases segment_exists represents.carried.chain link member with ⟨next, found⟩
  rcases Option.map_eq_some_iff.mp found with ⟨content, present, -⟩
  exact ⟨content, present⟩

theorem represents_out (represents : Represents fifo links cells items) : fifo.out = cells.head? :=
  carries_head represents.carried

theorem represents_fresh (represents : Represents fifo links cells items) :
    cells.length ≤ links.fresh := by
  have nodup : cells.Nodup := chain_nodup represents.carried.chain
  have inside : cells ⊆ List.range links.fresh := by
    intro link member
    rcases represents_exists represents member with ⟨content, present⟩
    exact List.mem_range.mpr (read_bound present)
  simpa using (List.subperm_of_subset nodup inside).length_le

theorem represents_unique {others : List Nat} {values : List Item}
    (left : Represents fifo links cells items) (right : Represents fifo links others values) :
    items = values := by
  have same : cells = others := chain_unique left.carried.chain right.carried.chain
  subst same
  have contents : items.map some = values.map some :=
    left.carried.values.symm.trans right.carried.values
  exact List.map_inj_right (fun _ _ same => Option.some.inj same) |>.mp contents

theorem represents_frame (represents : Represents fifo links cells items)
    (same : ∀ link ∈ cells, after.read link = links.read link) :
    Represents fifo after cells items := by
  refine ⟨carries_frame represents.carried ?_ ?_, represents.last, represents.counted⟩
  · intro link member
    simp only [nextOf, same link member]
  · intro link member
    simp only [valueOf, same link member]

theorem represents_flags (represents : Represents fifo links cells items) (enabled : Bool)
    (blockCnt : Int) :
    Represents { fifo with enabled, blockCnt } links cells items :=
  ⟨represents.carried, represents.last, represents.counted⟩

theorem unblock_eq (fifo : Fifo) (links : Links Item) :
    ∃ blockCnt, (fifo.unblock links).fifo = { fifo with blockCnt } ∧
    (fifo.unblock links).links = links := by
  unfold Fifo.unblock
  split_ifs
  · exact ⟨_, rfl, rfl⟩
  · exact ⟨fifo.blockCnt, rfl, rfl⟩

theorem unblock_all_eq (fifo : Fifo) (links : Links Item) (assigning : Bool) :
    ∃ blockCnt, (fifo.unblockAll links assigning).fifo = { fifo with blockCnt } ∧
      (fifo.unblockAll links assigning).links = links := by
  by_cases someone : fifo.blockCnt > 0
  · exact ⟨0, by simp [Fifo.unblockAll, someone], by simp [Fifo.unblockAll, someone]⟩
  · exact ⟨fifo.blockCnt, by simp [Fifo.unblockAll, someone], by simp [Fifo.unblockAll, someone]⟩

theorem represents_unblock (represents : Represents fifo links cells items) :
    Represents (fifo.unblock links).fifo (fifo.unblock links).links cells items := by
  rcases unblock_eq fifo links with ⟨blockCnt, inner, same⟩
  rw [inner, same]
  exact represents_flags represents fifo.enabled blockCnt

theorem represents_unblock_all (represents : Represents fifo links cells items) (assigning : Bool) :
    Represents (fifo.unblockAll links assigning).fifo (fifo.unblockAll links assigning).links
    cells items := by
  rcases unblock_all_eq fifo links assigning with ⟨blockCnt, inner, same⟩
  rw [inner, same]
  exact represents_flags represents fifo.enabled blockCnt

theorem set_next_eq {content : Link Item} {link : Nat} (present : links.read link = some content)
    (next : Option Nat) : setNext links link next =
    some (links.write link { content with next }) := by
  simp [setNext, present]

theorem free_links_eq {out : Option Nat} (chain : Chain (nextOf links) out cells) (fuel : Nat)
    (enough : cells.length ≤ fuel) :
    ∃ after, freeLinks fuel out links = some after ∧
      ∀ link, after.read link = if link ∈ cells then none else links.read link := by
  induction cells generalizing out links fuel with
  | nil =>
      have empty : out = none := chain
      subst empty
      exact ⟨links, by cases fuel <;> rfl, fun link => by simp⟩
  | cons cell rest ih =>
      rcases List.nodup_cons.mp (chain_nodup chain) with ⟨outside, nodup⟩
      rcases chain with ⟨rfl, next, step, tail⟩
      rcases Option.map_eq_some_iff.mp step with ⟨content, present, rfl⟩
      cases fuel with
      | zero => simp at enough
      | succ fuel =>
          have others : Chain (nextOf (links.giveUp cell)) content.next rest := by
            apply chain_frame tail
            intro link member
            have different : link ≠ cell := fun same => outside (same ▸ member)
            simp only [nextOf, read_give_up, if_neg different]
          rcases ih others fuel (by simpa using enough) with ⟨after, freed, reads⟩
          refine ⟨after, by simp [freeLinks, present, freed], fun link => ?_⟩
          rw [reads link, read_give_up]
          by_cases same : link = cell
          · simp [same]
          · simp [same]

/-! ## Adding -/

theorem append_eq (represents : Represents fifo links cells items)
    (made : links.read newlink = some ⟨theD, none⟩) (outside : newlink ∉ cells) :
    ∃ after, fifo.append links newlink =
        some ({ fifo with inn := some newlink, out := (cells ++ [newlink]).head?,
                          remain := fifo.remain + 1 },
          after) ∧
      Represents { fifo with inn := some newlink, out := (cells ++ [newlink]).head?,
                             remain := fifo.remain + 1 }
        after (cells ++ [newlink]) (items ++ [theD]) ∧
      Keeps links cells (some newlink) after (cells ++ [newlink]) := by
  have first := represents_out represents
  have last := represents.last
  have counted : fifo.remain + 1 = ((items ++ [theD]).length : Int) := by
    simp [represents.counted]
  have keptOutside : ∀ link, link ∉ cells → some newlink ≠ some link →
      link ∉ cells ++ [newlink] := by
    intro link notIn different
    simpa [notIn] using fun same => different (congrArg some same.symm)
  cases filled : cells.getLast? with
  | none =>
      have empty : cells = [] := List.getLast?_eq_none_iff.mp filled
      subst empty
      have none_held : items = [] := carries_no_items represents.carried
      subst none_held
      have inn : fifo.inn = none := last
      have out : fifo.out = none := first
      refine ⟨links, by simp [Fifo.append, inn, out], ⟨?_, rfl, counted⟩, ?_⟩
      · have alone := carries_push_front (carries_nothing (nextOf links) (valueOf links))
          (show nextOf links newlink = some none by simp [nextOf, made])
          (show valueOf links newlink = some theD by simp [valueOf, made])
        exact alone
      · exact fun link content notIn different present =>
          ⟨present, keptOutside link notIn different⟩
  | some tail =>
      have member : tail ∈ cells := List.mem_of_getLast? filled
      have nonempty : cells ≠ [] := List.ne_nil_of_mem member
      have different : newlink ≠ tail := fun same => outside (same ▸ member)
      rcases represents_exists represents member with ⟨content, present⟩
      have inn : fifo.inn = some tail := last.trans filled
      have reads := read_write present { content with next := some newlink }
      have head : (cells ++ [newlink]).head? = fifo.out := by
        rw [first, List.head?_append_of_ne_nil _ nonempty]
      have some_out : fifo.out.isNone = false := by
        cases cells with
        | nil => exact absurd rfl nonempty
        | cons cell rest => simp [first]
      refine ⟨links.write tail { content with next := some newlink }, ?_, ⟨?_, ?_, counted⟩, ?_⟩
      · simp [Fifo.append, inn, set_next_eq present, head, some_out]
      · rw [head]
        apply carries_push_back represents.carried nonempty
        · intro cell isLast
          cases Option.some.inj (isLast.symm.trans filled)
          simp [nextOf, reads]
        · intro cell cellMember notLast
          have apart : cell ≠ tail := fun same => notLast (same ▸ filled)
          simp [nextOf, reads, apart]
        · intro cell cellMember
          by_cases same : cell = tail
          · simp [valueOf, reads, same, present]
          · simp [valueOf, reads, same]
        · simp [nextOf, reads, different, made]
        · simp [valueOf, reads, different, made]
      · simp
      · intro link other notIn notOwn found
        have apart : link ≠ tail := fun same => notIn (same ▸ member)
        exact ⟨by rw [reads, if_neg apart, found], keptOutside link notIn notOwn⟩

theorem append_hooks {last : Nat} {grown : Fifo} (inn : fifo.inn = some last)
    (appended : fifo.append links newlink = some (grown, after)) :
    setNext links last (some newlink) = some after := by
  have hooked := congrArg (Option.map Prod.snd) appended
  simp only [Fifo.append, inn] at hooked
  cases set : setNext links last (some newlink) with
  | none => simp [set] at hooked
  | some result => simpa [set] using hooked

/-- A link in front, which holds what the second assignment found in the argument. -/
theorem add_to_head_eq (left : Item → Item) (represents : Represents fifo links cells items)
    (theD : Item) (accepts : fifo.enabled = true) :
    ∃ grown after now, fifo.addToHead left links theD = some ⟨grown, after, .nobody,
      .goes .unblock⟩ ∧
      Represents grown after now (left theD :: items) ∧ Keeps links cells none after now ∧
      grown.enabled = fifo.enabled ∧ grown.blockCnt = fifo.blockCnt := by
  let newlink := links.fresh
  let made := links.push ⟨theD, none⟩
  have first := represents_out represents
  have present : made.read newlink = some ⟨theD, none⟩ := by simp [made, newlink, read_push]
  let assigned := made.write newlink ⟨left theD, none⟩
  have assignedAt : assigned.read newlink = some ⟨left theD,
    none⟩ := by simp [assigned, read_write present]
  have fresh : ∀ link, (∃ content, links.read link = some content) → link ≠ newlink := by
    intro link exists_
    rcases exists_ with ⟨content, found⟩
    exact Nat.ne_of_lt (read_bound found)
  have assignedOther : ∀ link, link ≠ newlink → assigned.read link = links.read link := by
    intro link different
    simp only [assigned, read_write present, if_neg different, made, read_push]
    exact if_neg different
  have counted : fifo.remain + 1 = ((left theD :: items).length : Int) := by
    simp [represents.counted]
  have keeps : ∀ after : Links Item, (∀ link, link ≠ newlink → after.read link = links.read link) →
      Keeps links cells none after (newlink :: cells) := by
    intro after same link content notIn _ found
    have different := fresh link ⟨content, found⟩
    exact ⟨by rw [same link different, found], by simp [different, notIn]⟩
  cases out : fifo.out with
  | none =>
      have empty : cells = [] ∧ items = [] := carries_none (out ▸ represents.carried)
      rcases empty with ⟨rfl, rfl⟩
      have inn : fifo.inn = none := represents.last
      refine ⟨{ fifo with out := some newlink, inn := some newlink, remain := fifo.remain + 1 },
        assigned,
        [newlink], ?_, ⟨?_, rfl, counted⟩, keeps assigned assignedOther, rfl, rfl⟩
      · simp [Fifo.addToHead, accepts, initLink, made, newlink, assigned, out, inn, read_push]
      · exact carries_push_front (carries_nothing _ _) (by simp [nextOf, assignedAt])
          (by simp [valueOf, assignedAt])
  | some cell =>
      let linked := assigned.write newlink ⟨left theD, some cell⟩
      have linkedAt : linked.read newlink = some ⟨left theD, some cell⟩ := by
        simp [linked, read_write assignedAt]
      have linkedOther : ∀ link, link ≠ newlink → linked.read link = links.read link := by
        intro link different
        rw [read_write assignedAt, if_neg different, assignedOther link different]
      have nonempty : cells ≠ [] := by
        rintro rfl
        simp [out] at first
      have some_inn : fifo.inn.isNone = false := by
        rw [represents.last]
        cases cells with
        | nil => exact absurd rfl nonempty
        | cons head rest => simp [List.getLast?_cons]
      refine ⟨{ fifo with out := some newlink, remain := fifo.remain + 1 }, linked,
        newlink :: cells, ?_,
        ⟨?_, ?_, counted⟩, keeps linked linkedOther, rfl, rfl⟩
      · have hooked : setNext assigned newlink (some cell) = some linked :=
          set_next_eq assignedAt (some cell)
        simp only [newlink, made, assigned] at hooked
        simp [Fifo.addToHead, accepts, initLink, out, some_inn, read_push, hooked, newlink]
      · have framed : Carries (nextOf linked) (valueOf linked) (some cell) cells items := by
          rw [← out]
          apply (represents_frame represents ?_).carried
          intro link member
          exact linkedOther link (fresh link (represents_exists represents member))
        exact carries_push_front framed (by simp [nextOf, linkedAt]) (by simp [valueOf, linkedAt])
      · rw [represents.last]
        cases cells with
        | nil => exact absurd rfl nonempty
        | cons head rest => simp [List.getLast?_cons]

/-- What `addEmpty` links in is a blank value. -/
theorem add_empty_eq (represents : Represents fifo links cells items) (blank : Item)
    (accepts : fifo.enabled = true) :
    ∃ grown after now, fifo.addEmpty blank links =
        some (⟨grown, after, .nobody, .goes .unblock⟩, some links.fresh) ∧
      Represents grown after now (items ++ [blank]) ∧ grown.enabled = fifo.enabled := by
  let made := links.push ⟨blank, none⟩
  have present : made.read links.fresh = some ⟨blank, none⟩ := by simp [made, read_push]
  have outside : links.fresh ∉ cells := by
    intro member
    rcases represents_exists represents member with ⟨content, found⟩
    exact Nat.lt_irrefl _ (read_bound found)
  have framed : Represents fifo made cells items := by
    apply represents_frame represents
    intro link member
    have different : link ≠ links.fresh := fun same => outside (same ▸ member)
    rw [read_push, if_neg different]
  rcases append_eq framed present outside with ⟨after, appended, grown, -⟩
  refine ⟨_, after, _, ?_, grown, rfl⟩
  simp only [made] at appended
  simp [Fifo.addEmpty, accepts, appended]

/-! ## Removing -/

theorem drop_in_twice (fifo : Fifo) : fifo.dropIn.dropIn = fifo.dropIn := by
  unfold Fifo.dropIn
  split_ifs <;> simp_all

@[simp] theorem drop_in_out (fifo : Fifo) : fifo.dropIn.out = fifo.out := by
  unfold Fifo.dropIn
  split_ifs <;> rfl

theorem drop_in_empty (represents : Represents fifo links [] items) : fifo.dropIn = fifo := by
  have inn : fifo.inn = none := represents.last
  unfold Fifo.dropIn
  split_ifs
  · rw [← inn]
  · rfl

/-- Every removal: it delivers the first value and gives up its link, or finds nothing. -/
theorem take_out_eq (represents : Represents fifo links cells items) :
    (items = [] ∧ fifo.dropIn.takeOut links = some ⟨fifo, links, .nobody, .returns false none⟩) ∨
    ∃ item others shorter after now, items = item :: others ∧
      fifo.dropIn.takeOut links = some ⟨shorter, after, .nobody, .returns true (some item)⟩ ∧
      Represents shorter after now others ∧ Keeps links cells none after now ∧
      shorter.enabled = fifo.enabled ∧ shorter.blockCnt = fifo.blockCnt := by
  have nodup : cells.Nodup := chain_nodup represents.carried.chain
  cases out : fifo.out with
  | none =>
      have empty := carries_none (out ▸ represents.carried)
      refine .inl ⟨empty.2, ?_⟩
      rw [drop_in_empty (empty.1 ▸ represents)]
      simp [Fifo.takeOut, out]
  | some first =>
      have carried := represents.carried
      rw [out] at carried
      rcases carries_first carried with ⟨rest, item, others, next, rfl, rfl, step, holds, tail⟩
      rcases Option.map_eq_some_iff.mp step with ⟨content, present, rfl⟩
      have value : content.d = item := by simpa [valueOf, present] using holds
      rcases List.nodup_cons.mp nodup with ⟨outside, nodupRest⟩
      have reads := read_give_up links first
      let shorter : Fifo :=
        { fifo.dropIn with out := content.next, remain := fifo.dropIn.remain - 1 }
      have same : fifo.dropIn.enabled = fifo.enabled ∧ fifo.dropIn.blockCnt = fifo.blockCnt ∧
          fifo.dropIn.remain = fifo.remain := by
        unfold Fifo.dropIn
        split_ifs <;> exact ⟨rfl, rfl, rfl⟩
      have last : fifo.dropIn.inn = rest.getLast? := by
        have inn := represents.last
        unfold Fifo.dropIn
        cases rest with
        | nil =>
            have both : fifo.inn = fifo.out := by rw [inn, out, List.getLast?_singleton]
            simp [both]
        | cons second more =>
            have lastSame : (first :: second :: more).getLast? = (second :: more).getLast? :=
              List.getLast?_cons_cons
            have different : fifo.inn ≠ fifo.out := by
              rw [inn, out, lastSame]
              exact fun equal => outside (List.mem_of_getLast? equal)
            rw [if_neg different, inn, lastSame]
      refine .inr ⟨item, others, shorter, links.giveUp first, rest, rfl, ?_, ⟨?_, last, ?_⟩, ?_,
        same.1, same.2.1⟩
      · simp [Fifo.takeOut, out, present, shorter, value]
      · apply carries_frame tail
        · intro link member
          have different : link ≠ first := fun equal => outside (equal ▸ member)
          simp only [nextOf, reads, if_neg different]
        · intro link member
          have different : link ≠ first := fun equal => outside (equal ▸ member)
          simp only [valueOf, reads, if_neg different]
      · have counted := represents.counted
        simp only [List.length_cons] at counted
        change fifo.dropIn.remain - 1 = others.length
        omega
      · intro link other notIn _ found
        have different : link ≠ first := fun equal => notIn (equal ▸ List.mem_cons_self ..)
        exact ⟨by rw [reads, if_neg different, found],
          fun member => notIn (List.mem_cons_of_mem _ member)⟩

theorem peek_eq (represents : Represents fifo links cells items) :
    fifo.peek links = some ⟨fifo, links, .nobody, .returns items.head?.isSome items.head?⟩ := by
  cases out : fifo.out with
  | none =>
      have empty := carries_none (out ▸ represents.carried)
      simp [Fifo.peek, out, empty.2]
  | some first =>
      have carried := represents.carried
      rw [out] at carried
      rcases carries_first carried with ⟨rest, item, others, next, rfl, rfl, step, holds, tail⟩
      rcases Option.map_eq_some_iff.mp holds with ⟨content, present, rfl⟩
      simp [Fifo.peek, out, present]

theorem out_is_none_iff (represents : Represents fifo links cells items) :
    fifo.out.isNone = items.isEmpty := by
  cases out : fifo.out with
  | none =>
      have empty := carries_none (out ▸ represents.carried)
      simp [empty.2]
  | some first =>
      have carried := represents.carried
      rw [out] at carried
      rcases carries_first carried with ⟨rest, item, others, next, rfl, rfl, -⟩
      rfl

theorem clear_all_eq (represents : Represents fifo links cells items) (assigning : Bool) :
    ∃ after, fifo.clearAll links assigning =
        some ⟨{ fifo with out := none, inn := none, remain := 0 }, after, .nobody,
          .goes (.unblockAll assigning)⟩ ∧
      Represents { fifo with out := none, inn := none, remain := 0 } after [] [] ∧
      Keeps links cells none after [] := by
  rcases free_links_eq represents.carried.chain links.fresh (represents_fresh represents) with
    ⟨after, freed, reads⟩
  refine ⟨after, by simp [Fifo.clearAll, freed], ⟨carries_nothing _ _, rfl, rfl⟩, ?_⟩
  intro link content notIn _ found
  exact ⟨by rw [reads, if_neg notIn, found], List.not_mem_nil⟩

/-! ## Copying -/

theorem init_link_eq (left : Item → Item) {copying : Copying Item} {look : Nat}
    {content : Link Item} (present : copying.source.read look = some content) :
    copying.initLink left look =
      some ({ copying with
          links := copying.links.push ⟨content.d, none⟩
          source := copying.source.write look { content with d := left content.d } },
        copying.links.fresh, content.next) := by
  simp [Copying.initLink, present, initLink]

theorem keeps_trans {middle : Links Item} {between : List Nat}
    (first : Keeps links cells none middle between) (second : Keeps middle between none after now) :
    Keeps links cells none after now := by
  intro link content outside _ present
  rcases first link content outside (by simp) present with ⟨still, apart⟩
  exact second link content apart (by simp) still

theorem represents_push (represents : Represents fifo links cells items) (made : Link Item) :
    Represents fifo (links.push made) cells items ∧ links.fresh ∉ cells ∧
      Keeps links cells none (links.push made) cells := by
  refine ⟨represents_frame represents ?_, ?_, ?_⟩
  · intro link member
    rcases represents_exists represents member with ⟨content, found⟩
    rw [read_push_of_present found, found]
  · intro member
    rcases represents_exists represents member with ⟨content, found⟩
    exact Nat.lt_irrefl _ (read_bound found)
  · exact fun link content outside _ found => ⟨read_push_of_present found made, outside⟩

/-- The links behind `look` are not changed when the value of an earlier one is moved out. -/
theorem carries_write_outside {content written : Link Item} {look : Nat} {start : Option Nat}
    (carries : Carries (nextOf links) (valueOf links) start cells items)
    (present : links.read look = some content) (outside : look ∉ cells) :
    Carries (nextOf (links.write look written)) (valueOf (links.write look written)) start
    cells items := by
  have same : ∀ link ∈ cells, (links.write look written).read link = links.read link := by
    intro link member
    have different : link ≠ look := fun equal => outside (equal ▸ member)
    rw [read_write present, if_neg different]
  refine carries_frame carries ?_ ?_
  · intro link member
    simp only [nextOf, same link member]
  · intro link member
    simp only [valueOf, same link member]

theorem copy_one_eq {prev : Nat} (represents : Represents fifo links cells items)
    (filled : cells ≠ []) (inn : fifo.inn = some prev) (value : Item) :
    ∃ hooked, setNext (links.push ⟨value, none⟩) prev (some links.fresh) = some hooked ∧
      Represents { fifo with inn := some links.fresh, remain := fifo.remain + 1 } hooked
        (cells ++ [links.fresh])
        (items ++ [value]) ∧
      Keeps links cells none hooked (cells ++ [links.fresh]) := by
  rcases represents_push represents (⟨value, none⟩ : Link Item) with ⟨pushed, apart, keepsPush⟩
  have made : (links.push ⟨value, none⟩).read links.fresh = some ⟨value,
    none⟩ := by simp [read_push]
  rcases append_eq pushed made apart with ⟨hooked, appended, grown, keepsAppend⟩
  have head : (cells ++ [links.fresh]).head? = fifo.out := by
    rw [represents_out represents, List.head?_append_of_ne_nil _ filled]
  rw [head] at grown
  refine ⟨hooked, append_hooks inn appended, grown, ?_⟩
  intro link other notIn _ found
  rcases keepsPush link other notIn (by simp) found with ⟨still, _⟩
  have different : some links.fresh ≠ some link := by
    intro equal
    cases equal
    exact Nat.lt_irrefl _ (read_bound found)
  exact keepsAppend link other notIn different still

/-- The loop of an assignment. Induction on the links still to be copied; what is copied already
is a queue of its own. -/
theorem copy_rest_eq (left : Item → Item) {rest : List Nat} {others : List Item} :
    ∀ {fuel : Nat} {look : Option Nat} {copying : Copying Item} {fifo : Fifo} {cells : List Nat}
      {items : List Item}, Represents fifo copying.links cells items → cells ≠ [] →
      fifo.inn = copying.prev → fifo.remain = copying.remain →
      Carries (nextOf copying.source) (valueOf copying.source) look rest others →
      rest.length ≤ fuel →
      ∃ result now, copyRest left fuel look copying = some result ∧
        Represents { fifo with inn := result.prev, remain := result.remain } result.links now
          (items ++ others) ∧
        Keeps copying.links cells none result.links now := by
  induction rest generalizing others with
  | nil =>
      intro fuel look copying fifo cells items represents filled inn remain carries enough
      have ended : look = none := carries.chain
      have nothing : others = [] := carries_no_items carries
      subst ended nothing
      refine ⟨copying, cells, by cases fuel <;> rfl, ?_, keeps_refl _ _ _⟩
      rw [← inn, ← remain, List.append_nil]
      exact represents
  | cons cell rest ih =>
      intro fuel look copying fifo cells items represents filled inn remain carries enough
      have chain := carries.chain
      rcases List.nodup_cons.mp (chain_nodup chain) with ⟨outside, nodup⟩
      have starts : look = some cell := chain.1
      subst starts
      rcases carries_first carries with ⟨_, item, later, next, same, rfl, step, holds, tail⟩
      cases same
      rcases Option.map_eq_some_iff.mp step with ⟨content, present, rfl⟩
      have value : content.d = item := by simpa [valueOf, present] using holds
      cases fuel with
      | zero => simp at enough
      | succ fuel =>
          have prevSome : ∃ prev, copying.prev = some prev := by
            rw [← inn, represents.last]
            exact Option.isSome_iff_exists.mp (by simpa using filled)
          rcases prevSome with ⟨prev, prevIs⟩
          rcases copy_one_eq represents filled (inn.trans prevIs) content.d with ⟨hooked, linked,
            grown, keepsOne⟩
          let moved := copying.source.write cell { content with d := left content.d }
          let onward : Copying Item :=
            ⟨hooked, moved, some copying.links.fresh, copying.remain + 1⟩
          have onwardRep : Represents
              { fifo with inn := some copying.links.fresh, remain := fifo.remain + 1 }
              onward.links (cells ++ [copying.links.fresh]) (items ++ [content.d]) := grown
          have onwardCarries : Carries (nextOf onward.source) (valueOf onward.source) content.next
              rest later :=
            carries_write_outside tail present outside
          have remains : fifo.remain + 1 = onward.remain := by
            simp [onward, remain]
          rcases ih onwardRep (by simp) rfl remains onwardCarries (by simpa using enough) with
            ⟨result, now, copied, represented, keepsRest⟩
          refine ⟨result, now, ?_, ?_, ?_⟩
          · simp only [copyRest, init_link_eq left present, Option.bind_eq_bind, Option.bind_some,
              prevIs, linked]
            exact copied
          · rw [List.append_assoc, List.singleton_append, value] at represented
            exact represented
          · exact keeps_trans keepsOne keepsRest

theorem assign_eq (left : Item → Item) (fifo : Fifo) (links : Links Item) {source : Source Item}
    {sourceCells : List Nat} {given : List Item} (filled : given ≠ [])
    (whole : Represents source.fifo source.links sourceCells given) :
    ∃ region sources now, fifo.assign left links source = some (region, sources) ∧
      Represents region.fifo region.links now given ∧ Keeps links [] none region.links now ∧
      region.fifo.enabled = source.fifo.enabled ∧ region.fifo.blockCnt = fifo.blockCnt ∧
      region.wake = .nobody ∧ region.outcome = .returns true none := by
  have carried := whole.carried
  have enough := represents_fresh whole
  cases out : source.fifo.out with
  | none =>
      have empty := carries_none (out ▸ carried)
      exact absurd empty.2 filled
  | some look =>
      rw [out] at carried
      rcases carried with ⟨chain, values⟩
      rcases carries_first ⟨chain, values⟩ with ⟨rest, item, others, next, rfl, rfl, step,
        holds, tail⟩
      rcases List.nodup_cons.mp (chain_nodup chain) with ⟨outside, nodup⟩
      rcases Option.map_eq_some_iff.mp step with ⟨content, present, rfl⟩
      have value : content.d = item := by simpa [valueOf, present] using holds
      let made := links.push ⟨content.d, none⟩
      let moved := source.links.write look { content with d := left content.d }
      let begun : Copying Item := ⟨made, moved, some links.fresh, 1⟩
      let target : Fifo := ⟨source.fifo.enabled, some links.fresh, some links.fresh, 1,
        fifo.blockCnt⟩
      have present' : made.read links.fresh = some ⟨content.d, none⟩ := by simp [made, read_push]
      have alone : Represents target begun.links [links.fresh] [item] := by
        refine ⟨?_, rfl, rfl⟩
        exact carries_push_front (carries_nothing _ _) (by simp [nextOf, begun, present'])
          (by simp [valueOf, begun, present', value])
      have tailKept : Carries (nextOf begun.source) (valueOf begun.source) content.next
          rest others :=
        carries_write_outside tail present outside
      have fuel : rest.length ≤ source.links.fresh := by
        simp only [List.length_cons] at enough
        omega
      rcases copy_rest_eq left alone (by simp) rfl rfl tailKept fuel with ⟨result, now, copied,
        grown, keeps⟩
      refine ⟨⟨{ target with inn := result.prev, remain := result.remain }, result.links, .nobody,
        .returns true none⟩, result.source, now, ?_, grown, ?_, rfl, rfl, rfl, rfl⟩
      · have first : (⟨links, source.links, source.prev, 0⟩ : Copying Item).initLink left look =
            some (⟨made, moved, source.prev, 0⟩, links.fresh, content.next) :=
            init_link_eq left present
        simp only [Fifo.assign, out, first, Option.bind_eq_bind, Option.bind_some]
        simp only [begun] at copied
        simp only [copied, Option.bind_some]
        rfl
      · intro link other _ _ found
        have different : link ≠ links.fresh := Nat.ne_of_lt (read_bound found)
        have still : made.read link = some other := read_push_of_present found _
        exact keeps link other (by simpa using different) (by simp) still

end TWlib.SafeFifoRegions
