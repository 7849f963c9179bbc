import TWlib.BufBlkEatShared

/-!
# `operator=` from a block of the own chain

The assignment releases what follows the target and the target's MemBlk before it looks at the
source. A source behind the target is deleted by then. The target itself is still there, but its
successor is cleared before it is copied, and its MemBlk has lost a reference. Behind its last
statement the function has no return.
-/

namespace TWlib.BufBlkAssign

open TWlib.Lib.CellStore TWlib.Lib.LinkedChain TWlib.BufBlkHeap TWlib.BufBlkChain TWlib.BufBlkCount
open TWlib.BufBlkView TWlib.BufBlkCopy TWlib.BufBlkEatShared

set_option autoImplicit false

/-- What `*this = *o` should leave: the content of the chain from `o` on, over objects that exist,
and each block of `tail`, which followed `this`, deleted once. -/
structure SafelyAssigned (before after : Heap) (this o : BufId) (tail : List BufId) : Prop where
  content : ∃ content, before.contents (some o) = some content ∧
    after.contents (some this) = some content
  alive : ∃ ids, Chain after.next (some this) ids ∧
    ∀ c ∈ ids, ∀ m, after.memOf c = some m → (after.mems.read m).isSome
  deleted : ∃ log, after.deleted = before.deleted ++ log ∧ log.Perm tail

def alone (blk : BufBlk) : BufBlk := { blk with nextblk := none }

variable {before heap after : Heap} {this o : BufId} {tail ids : List BufId} {blk : BufBlk}
    {m : MemId} {mem : MemBlk}

/-! ## What is released first -/

theorem release_opt_mem_keeps {owner : Option MemId}
    (released : heap.releaseOptMem owner = some after) :
    after.bufs = heap.bufs ∧ after.deleted = heap.deleted := by
  cases owner with
  | none =>
      cases released
      exact ⟨rfl, rfl⟩
  | some m =>
      obtain ⟨mem, present, -⟩ := Option.bind_eq_some_iff.mp released
      obtain ⟨again, done, sameBufs, sameDeleted, -⟩ := release_mem_eq present
      cases done.symm.trans released
      exact ⟨sameBufs, sameDeleted⟩

/-- The blocks behind `this` are gone, and the MemBlks have lost the references of the whole
chain. -/
theorem release_replaced (present : before.bufs.read this = some blk)
    (chain : Chain before.next (some this) (this :: tail))
    (backed : Backed before (this :: tail)) :
    ∃ middle, (before.releaseOpt blk.nextblk).bind (fun heap => heap.releaseOptMem blk.blk) =
      some middle ∧
      (∀ c, middle.bufs.read c = if c ∈ tail then none else before.bufs.read c) ∧
      (∀ m, middle.mems.read m = (before.mems.read m).bind
        (dropped (users before (this :: tail) m))) ∧
      middle.deleted = before.deleted ++ tail.reverse := by
  obtain ⟨-, follow, step, behind⟩ := chain
  cases step.symm.trans (next_of_read present)
  obtain ⟨cut, cutStep, released⟩ := release_opt_chain behind (backed_tail backed)
  obtain ⟨middle, done, whole⟩ := release_own_mem released present backed
  obtain ⟨sameBufs, sameDeleted⟩ := release_opt_mem_keeps done
  refine ⟨middle, ?_, fun c => ?_, fun m => ?_, ?_⟩
  · rw [cutStep, Option.bind_some, done]
  · rw [sameBufs, released.bufs]
  · exact whole.mems m
  · rw [sameDeleted, released.deleted]

theorem assign_body_eq (present : before.bufs.read this = some blk) :
    assignBody before this o = ((before.releaseOpt blk.nextblk).bind fun heap =>
      heap.releaseOptMem blk.blk).bind
      fun heap => assignFromBlk heap this o := by
  simp only [assignBody, present, Option.bind_eq_bind, Option.bind_some, Option.bind_assoc]

/-! ## The source is behind the target -/

theorem assign_from_deleted (gone : heap.bufs.read o = none) :
    assignFromBlk heap this o = none := by
  simp only [assignFromBlk, gone, Option.bind_eq_bind, Option.bind_none]

/-! ## The source is the target -/

theorem copy_chain_none (fuel : Nat) (heap : Heap) (walk : BufId) :
    copyChain fuel heap walk none = some heap := by
  cases fuel <;> rfl

theorem assign_from_self {counted : Heap} (present : heap.bufs.read this = some blk)
    (checkedOut : checkoutOpt heap blk.blk = some counted) (sameBufs : counted.bufs = heap.bufs) :
    assignFromBlk heap this this = some (counted.putBuf this (alone blk)) := by
  have mine : counted.bufs.read this = some blk := by rw [sameBufs, present]
  have taken : (counted.putBuf this (alone blk)).bufs.read this = some (alone blk) := by
    rw [read_put_buf mine, if_pos rfl]
  simp only [assignFromBlk, present, checkedOut, mine, Option.bind_eq_bind, Option.bind_some]
  change ((counted.putBuf this (alone blk)).bufs.read this).bind _ = _
  rw [taken, Option.bind_some]
  exact copy_chain_none _ _ _

theorem assign_from_self_gone (present : heap.bufs.read this = some blk) (owner : blk.blk = some m)
    (gone : heap.mems.read m = none) : assignFromBlk heap this this = none := by
  simp only [assignFromBlk, present, owner, checkoutOpt, Heap.checkout, gone, Option.bind_eq_bind,
    Option.bind_some,
    Option.bind_none]

theorem outside_user_iff (counted : Counted before fun _ => 0) (nodup : ids.Nodup)
    (alive : ∀ c ∈ ids, c < before.bufs.fresh) (present : before.mems.read m = some mem) :
    (users before ids m : Int) < mem.refCount ↔ ∃ c, c ∉ ids ∧ before.memOf c = some m := by
  have count : mem.refCount = liveUsers before m := by
    rw [(counted_some counted present).1, Int.add_zero]
  have apart := count_apart (fun blk : BufBlk => decide (blk.blk = some m)) before.bufs nodup alive
  rw [← users_eq_count] at apart
  rw [show liveUsers before m = before.bufs.count fun blk =>
    decide (blk.blk = some m) from rfl] at count
  have more : (users before ids m : Int) < mem.refCount ↔
      0 < before.bufs.count (fun blk => decide (blk.blk = some m)) - users before ids m := by omega
  rw [more, apart, Nat.add_sub_cancel_left, List.countP_pos_iff]
  constructor
  · rintro ⟨c, -, holds⟩
    rw [Bool.and_eq_true, decide_eq_true_eq, Option.any_eq_true] at holds
    obtain ⟨outside, blk, read, owner⟩ := holds
    refine ⟨c, outside, ?_⟩
    rw [Heap.memOf, read, Option.bind_some]
    exact of_decide_eq_true owner
  · rintro ⟨c, outside, owner⟩
    obtain ⟨blk, read, owns⟩ := Option.bind_eq_some_iff.mp owner
    refine ⟨c, List.mem_range.mpr (read_bound read), ?_⟩
    simp [outside, read, owns]

section Alone

variable {counted : Heap} (ok : ChainOk before (some this) (this :: tail))
  (present : before.bufs.read this = some blk) (still : counted.bufs.read this = some blk)
  (sameMem : ∀ m mem, blk.blk = some m → before.mems.read m = some mem →
    ∃ now, counted.mems.read m = some now ∧ now.base = mem.base ∧ now.bytes = mem.bytes)

include ok present still sameMem

theorem alone_ok : ChainOk (counted.putBuf this (alone blk)) (some this) [this] := by
  obtain ⟨known, knownRead, inside⟩ := ok.inside this (by simp)
  cases knownRead.symm.trans present
  have aloneRead : (counted.putBuf this (alone blk)).bufs.read this = some (alone blk) := by
    rw [read_put_buf still, if_pos rfl]
  refine ⟨⟨rfl, none, next_of_read aloneRead, rfl⟩, fun c member => ?_⟩
  rw [List.mem_singleton.mp member]
  refine ⟨alone blk, aloneRead, ?_⟩
  cases owner : blk.blk with
  | none =>
      rw [owner] at inside
      simpa [alone, owner] using inside
  | some m =>
      rw [owner] at inside
      obtain ⟨mem, memRead, low, order, high⟩ := inside
      obtain ⟨now, nowRead, sameBase, sameBytes⟩ := sameMem m mem owner memRead
      have sameSize : now.size = mem.size := congrArg (fun bytes => (bytes.length : Int)) sameBytes
      simp only [alone, owner]
      exact ⟨now, nowRead, by omega, order, by omega⟩

theorem alone_bytes : bytesOf (counted.putBuf this (alone blk)) this = bytesOf before this := by
  obtain ⟨known, knownRead, inside⟩ := ok.inside this (by simp)
  cases knownRead.symm.trans present
  have aloneRead : (counted.putBuf this (alone blk)).bufs.read this = some (alone blk) := by
    rw [read_put_buf still, if_pos rfl]
  simp only [bytesOf, Heap.blockBytes, aloneRead, present, Option.bind_eq_bind, Option.bind_some,
    Heap.readable]
  cases owner : blk.blk with
  | none =>
      rw [owner] at inside
      have zero : blk.wrPtr - blk.rdPtr = 0 := by omega
      simp [alone, owner, BufBlk.length, zero]
  | some m =>
      rw [owner] at inside
      obtain ⟨mem, memRead, -⟩ := inside
      obtain ⟨now, nowRead, sameBase, sameBytes⟩ := sameMem m mem owner memRead
      simp only [alone, owner, put_buf_mems, nowRead, memRead, Option.bind_some, BufBlk.length,
        load_congr sameBase sameBytes]

/-- What `*this = *this` leaves is right exactly if nothing was to be read behind the block. -/
theorem self_safely_iff (logged : counted.deleted = before.deleted ++ tail.reverse) :
    SafelyAssigned before (counted.putBuf this (alone blk)) this this tail ↔
    (lengthsOf before tail).sum = 0 := by
  have okAfter := alone_ok ok present still sameMem
  have sameRead := alone_bytes ok present still sameMem
  have contentBefore := contents_of_chain ok
  have contentAfter := contents_of_chain okAfter
  constructor
  · intro safely
    obtain ⟨content, sourceContent, finalContent⟩ := safely.content
    have same := Option.some.inj (contentAfter.symm.trans
      (finalContent.trans (sourceContent.symm.trans contentBefore)))
    have lengths := congrArg List.length same
    rw [List.flatMap_cons, List.flatMap_cons, sameRead, List.flatMap_nil, List.append_nil,
      List.length_append,
      ← lengths_sum] at lengths
    omega
  · intro nothing
    refine ⟨⟨_, contentBefore, ?_⟩, ⟨[this], okAfter.linked, fun c member m owns => ?_⟩,
      ⟨tail.reverse, logged, List.reverse_perm tail⟩⟩
    · have empty : tail.flatMap (bytesOf before) = [] := by
        rw [← List.length_eq_zero_iff, ← lengths_sum, nothing]
      rw [contentAfter, List.flatMap_cons, List.flatMap_cons, sameRead, empty, List.flatMap_nil]
    · obtain ⟨found, read, inside⟩ := okAfter.inside c member
      rw [Heap.memOf, read, Option.bind_some] at owns
      rw [owns] at inside
      obtain ⟨now, nowRead, -⟩ := inside
      exact Option.isSome_iff_exists.mpr ⟨now, nowRead⟩

end Alone

theorem assign_body_overlapping (ok : ChainOk before (some this) (this :: tail))
    (counted : Counted before fun _ => 0) (member : o ∈ this :: tail) :
    (∃ after, assignBody before this o = some after ∧ SafelyAssigned before after this o tail) ↔
      o = this ∧ (lengthsOf before tail).sum = 0 ∧
        ∀ m, before.memOf this = some m → ∃ c, c ∉ this :: tail ∧ before.memOf c = some m := by
  have nodup := chain_nodup ok.linked
  have alive : ∀ c ∈ this :: tail, c < before.bufs.fresh := by
    intro c inside
    obtain ⟨blk, present⟩ := chain_read ok.linked inside
    exact read_bound present
  obtain ⟨blk, present, inside⟩ := ok.inside this (by simp)
  obtain ⟨middle, released, reads, mems, deleted⟩ :=
    release_replaced present ok.linked (counted_backed nodup alive counted)
  have assigned : assignBody before this o = assignFromBlk middle this o := by
    rw [assign_body_eq present, released, Option.bind_some]
  rcases List.mem_cons.mp member with rfl | behind
  · have still : middle.bufs.read o = some blk := by
      rw [reads, if_neg (List.nodup_cons.mp nodup).1, present]
    have owned : before.memOf o = blk.blk := by rw [Heap.memOf, present, Option.bind_some]
    cases owner : blk.blk with
    | none =>
        have safely := self_safely_iff ok present still
          (fun m mem owns => by simp [owner] at owns) deleted
        rw [assigned, assign_from_self still (by rw [owner]; rfl) rfl]
        constructor
        · rintro ⟨after, same, safe⟩
          cases same
          exact ⟨rfl, safely.mp safe, fun m owns => by simp [owned, owner] at owns⟩
        · rintro ⟨-, nothing, -⟩
          exact ⟨_, rfl, safely.mpr nothing⟩
    | some m =>
        rw [owner] at inside owned
        obtain ⟨mem, memRead, -⟩ := inside
        have middleRead : middle.mems.read m = dropped (users before (o :: tail) m) mem := by
          rw [mems, memRead, Option.bind_some]
        have outside := outside_user_iff counted nodup alive memRead
        have used : users before (o :: tail) m ≠ 0 := by
          rw [users_cons, if_pos owned]
          exact Nat.succ_ne_zero _
        by_cases more : (users before (o :: tail) m : Int) < mem.refCount
        · rw [dropped, if_neg used, if_neg (Int.not_le.mpr more)] at middleRead
          let shared := middle.putMem m
            { mem with refCount := mem.refCount - users before (o :: tail) m + 1 }
          have checkedOut : checkoutOpt middle blk.blk = some shared := by
            rw [owner]
            exact checkout_eq middleRead
          have sameMem (n : MemId) (found : MemBlk) (owns : blk.blk = some n)
              (read : before.mems.read n = some found) :
              ∃ now, shared.mems.read n = some now ∧ now.base = found.base ∧
              now.bytes = found.bytes := by
            cases owner.symm.trans owns
            cases memRead.symm.trans read
            exact ⟨_, (read_write middleRead _ m).trans (if_pos rfl), rfl, rfl⟩
          have safely := self_safely_iff ok present (show shared.bufs.read o = some blk from still)
            sameMem deleted
          rw [assigned, assign_from_self still checkedOut rfl]
          constructor
          · rintro ⟨after, same, safe⟩
            cases same
            refine ⟨rfl, safely.mp safe, fun n owns => ?_⟩
            cases owned.symm.trans owns
            exact outside.mp more
          · rintro ⟨-, nothing, -⟩
            exact ⟨_, rfl, safely.mpr nothing⟩
        · rw [dropped, if_neg used, if_pos (Int.not_lt.mp more)] at middleRead
          rw [assigned, assign_from_self_gone still owner middleRead]
          refine iff_of_false (by simp) ?_
          rintro ⟨-, -, others⟩
          exact more (outside.mpr (others m owned))
  · have gone : middle.bufs.read o = none := by rw [reads, if_pos behind]
    have different : o ≠ this := fun same => (List.nodup_cons.mp nodup).1 (same ▸ behind)
    rw [assigned, assign_from_deleted gone]
    exact iff_of_false (by simp) fun safe => different safe.1

/-- No `*this = *o` comes to an end. Up to there it is safe in few cases: `o` is `this`, nothing is
to be read from the blocks behind it, and its MemBlk, if it has one, is referred to by a block
outside of the chain. -/
theorem assign_overlapping_never (ok : ChainOk before (some this) (this :: tail))
    (counted : Counted before fun _ => 0) (member : o ∈ this :: tail) :
    (¬ ∃ after, assign before this o = some after ∧ SafelyAssigned before after this o tail) ∧
    ((∃ after, assignBody before this o = some after ∧ SafelyAssigned before after this o tail) ↔
      o = this ∧ (lengthsOf before tail).sum = 0 ∧
        ∀ m, before.memOf this = some m → ∃ c, c ∉ this :: tail ∧ before.memOf c = some m) := by
  refine ⟨?_, assign_body_overlapping ok counted member⟩
  rintro ⟨after, done, -⟩
  simp at done

/-- A block of which there is a duplicate is assigned to itself. -/
theorem assign_overlapping_never_duplicated :
    (¬ ∃ after, assign fourBytesTwice 0 0 = some after ∧
      SafelyAssigned fourBytesTwice after 0 0 []) ∧
    ((∃ after, assignBody fourBytesTwice 0 0 = some after ∧
      SafelyAssigned fourBytesTwice after 0 0 []) ↔
      0 = 0 ∧ (lengthsOf fourBytesTwice []).sum = 0 ∧
        ∀ m, fourBytesTwice.memOf 0 = some m → ∃ c, c ∉ [0] ∧ fourBytesTwice.memOf c = some m) := by
  obtain ⟨ids, counted, -⟩ := pair_chains four_bytes_pair
  refine assign_overlapping_never ⟨⟨rfl, none, rfl, rfl⟩, fun b member => ?_⟩ counted (by simp)
  rw [List.mem_singleton.mp member]
  exact ⟨_, rfl, _, rfl, by decide, by decide, by decide⟩

/-- Three blocks of two bytes. The first is assigned to itself: its MemBlk is gone when it is
checked out. The second is assigned to the first: it is deleted before it is read. With a duplicate
of the three the statements of the first assignment go through, and the second and the third block
are lost. -/
theorem assign_not_always_safe :
    ((∃ middle, ((threeBlocks.releaseOpt (some 1)).bind fun heap => heap.releaseOptMem (some 0)) =
        some middle ∧
        middle.memOf 0 = some 0 ∧ middle.mems.read 0 = none ∧ middle.bufs.read 1 = none) ∧
      assignBody threeBlocks 0 0 = none ∧ assignBody threeBlocks 0 1 = none) ∧
    (∃ shared after, duplicate threeBlocks 0 = some (shared, 3) ∧
      assignBody shared 0 0 = some after ∧
      shared.contents (some 0) = some [1, 2, 3, 4, 5, 6] ∧ after.contents (some 0) = some [1, 2]) ∧
    ¬ ∃ after, assign threeBlocks 0 0 = some after ∧
    SafelyAssigned threeBlocks after 0 0 [1, 2] := by
  refine ⟨⟨⟨_, rfl, rfl, rfl, rfl⟩, rfl, rfl⟩, ⟨_, _, rfl, rfl, rfl, rfl⟩, ?_⟩
  rintro ⟨after, done, -⟩
  simp at done

end TWlib.BufBlkAssign
