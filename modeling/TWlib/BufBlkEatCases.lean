import TWlib.BufBlkEat
import TWlib.BufBlkUnlink

/-!
# The ways through `eatBytes`

Each way is followed to the chain it leaves, the bytes on it and the blocks it
deletes. All of them start from the block `mid` in which the slice begins, `rest`
bytes behind the block's first one.
-/

namespace TWlib.BufBlkEatCases

open TWlib.Lib.CellStore TWlib.Lib.LinkedChain TWlib.Lib.ListSlice
open TWlib.BufBlkHeap TWlib.BufBlkChain TWlib.BufBlkSeek TWlib.BufBlkUnlink TWlib.BufBlkEat

set_option autoImplicit false

/-! ## One block changed, the links as before -/

section OneBlock

variable {heap : Heap} {b : BufId} {old blk : BufBlk}

theorem unshared_put {ids : List BufId} (unshared : Unshared heap ids)
    (present : heap.bufs.read b = some old) (sameBlk : blk.blk = old.blk) :
    Unshared (heap.putBuf b blk) ids := by
  have owner : ∀ other, (heap.putBuf b blk).memOf other = heap.memOf other := by
    intro other
    by_cases same : other = b
    · simp [Heap.memOf, read_write present, same, present, sameBlk]
    · simp [Heap.memOf, read_write present, same]
  intro left leftMember right rightMember m
  rw [owner, owner]
  exact unshared left leftMember right rightMember m

theorem flat_bytes_congr {before after : Heap} {ids : List BufId}
    (same : ∀ b ∈ ids, bytesOf after b = bytesOf before b) :
    ids.flatMap (bytesOf after) = ids.flatMap (bytesOf before) := by
  exact List.flatMap_congr same

theorem chain_ok_update {before after : Heap} {start : Option BufId} {pre post : List BufId}
    {mid : BufId} (ok : ChainOk before start (pre ++ mid :: post))
    (nextSame : after.next mid = before.next mid) (midOk : BlockOk after mid)
    (others : ∀ other ∈ pre ++ post, Agree before after other) :
    ChainOk after start (pre ++ mid :: post) ∧
      (pre ++ mid :: post).flatMap (bytesOf after) =
        pre.flatMap (bytesOf before) ++ (bytesOf after mid ++ post.flatMap (bytesOf before)) := by
  have elsewhere : ∀ other ∈ pre ++ mid :: post, other = mid ∨ Agree before after other := by
    intro other member
    rcases List.mem_append.mp member with left | right
    · exact .inr (others other (List.mem_append_left _ left))
    · rcases List.mem_cons.mp right with same | behind
      · exact .inl same
      · exact .inr (others other (List.mem_append_right _ behind))
  refine ⟨⟨chain_frame ok.linked fun other member => ?_, fun other member => ?_⟩, ?_⟩
  · rcases elsewhere other member with same | agree
    · exact same ▸ nextSame
    · exact agree_next agree
  · rcases elsewhere other member with same | agree
    · exact same ▸ midOk
    · exact agree_block_ok agree (ok.inside other member)
  · rw [List.flatMap_append, List.flatMap_cons,
      flat_bytes_congr fun other member =>
      agree_bytes_of (others other (List.mem_append_left _ member)),
      flat_bytes_congr fun other member =>
      agree_bytes_of (others other (List.mem_append_right _ member))]

theorem chain_ok_put {start : Option BufId} {pre post : List BufId}
    (ok : ChainOk heap start (pre ++ b :: post)) (present : heap.bufs.read b = some old)
    (sameNext : blk.nextblk = old.nextblk) (blockOk : BlockOk (heap.putBuf b blk) b) :
    ChainOk (heap.putBuf b blk) start (pre ++ b :: post) ∧
      (pre ++ b :: post).flatMap (bytesOf (heap.putBuf b blk)) =
        pre.flatMap (bytesOf heap) ++ (bytesOf (heap.putBuf b blk) b ++ post.flatMap
          (bytesOf heap)) := by
  apply chain_ok_update ok
  · rw [put_buf_next present, next_of_read present, sameNext]
  · exact blockOk
  · intro other member
    have nodup := List.nodup_middle.mp (chain_nodup ok.linked)
    exact put_buf_agree present blk (fun same => (List.nodup_cons.mp nodup).1 (same ▸ member))

end OneBlock

/-! ## The loop over the blocks behind the first one -/

/-- The loop stops behind a nonempty block, with nothing left to eat. -/
def StopsBetween (heap : Heap) (ids : List BufId) (size : Nat) (whole behind : List BufId) : Prop :=
  ids = whole ++ behind ∧ (lengthsOf heap whole).sum = size ∧
    ∃ last, whole.getLast? = some last ∧ 0 < (bytesOf heap last).length

/-- The loop stops at `part`, whose first `excess` bytes are eaten. -/
def StopsInside (heap : Heap) (ids : List BufId) (size : Nat) (whole : List BufId) (part : BufId)
    (behind : List BufId) (excess : Nat) : Prop :=
  ids = whole ++ part :: behind ∧ (lengthsOf heap whole).sum + excess = size ∧
    0 < excess ∧ excess < (bytesOf heap part).length

theorem eat_loop_chain {heap : Heap} {ids : List BufId} {start : Option BufId} (fuel size : Nat)
    (back : Option BufId) (ok : ChainOk heap start ids) (enough : ids.length ≤ fuel)
    (positive : 0 < size) (fits : size ≤ (lengthsOf heap ids).sum) :
    (∃ whole behind, StopsBetween heap ids size whole behind ∧
      eatLoop fuel heap size start back = some (heap, 0, behind.head?, whole.getLast?.or back)) ∨
    (∃ whole part behind excess blk, StopsInside heap ids size whole part behind excess ∧
      heap.bufs.read part = some blk ∧
      eatLoop fuel heap size start back =
        some (heap.putBuf part { blk with rdPtr := blk.rdPtr + excess }, (excess : Int), some part,
          whole.getLast?.or back)) := by
  induction ids generalizing start fuel size back with
  | nil => simp [lengthsOf] at fits; omega
  | cons b rest ih =>
      rcases chain_ok_cons ok with ⟨first, blk, present, -, length, tail⟩
      subst first
      rw [lengths_cons] at fits
      cases fuel with
      | zero => simp at enough
      | succ fuel =>
          simp only [List.length_cons, Nat.add_le_add_iff_right] at enough
          simp only [eatLoop, present, Option.bind_eq_bind, Option.bind_some, length]
          rw [if_pos (by omega)]
          by_cases inside : size < (bytesOf heap b).length
          · right
            refine ⟨[], b, rest, size, blk, ⟨rfl, by simp [lengthsOf], positive, inside⟩,
              present, ?_⟩
            rw [if_pos (by omega)]
            rfl
          · have left : (size : Int) - (bytesOf heap b).length =
                ((size - (bytesOf heap b).length : Nat) : Int) := by omega
            rw [if_neg (by omega), left]
            by_cases done : size = (bytesOf heap b).length
            · left
              refine ⟨[b], rest, ⟨rfl, by simp [lengthsOf, done], b, rfl, by omega⟩, ?_⟩
              have zero : size - (bytesOf heap b).length = 0 := by omega
              rw [zero, chain_start tail.linked]
              cases rest with
              | nil => cases fuel <;> rfl
              | cons following others =>
                  cases fuel with
                  | zero => simp at enough
                  | succ fuel => rfl
            · rcases ih fuel (size - (bytesOf heap b).length) (some b) tail enough (by omega)
                (by omega) with
                ⟨whole, behind, ⟨split, sum, last, isLast, nonempty⟩, found⟩ |
                ⟨whole, part, behind, excess, partBlk, ⟨split, sum, some_over, within⟩,
                  partRead, found⟩
              · left
                refine ⟨b :: whole, behind, ⟨by rw [split, List.cons_append], ?_, last, ?_,
                  nonempty⟩, ?_⟩
                · rw [lengths_cons]
                  omega
                · rw [List.getLast?_cons, isLast]
                  rfl
                · rw [found, last_seen_cons]
              · right
                refine ⟨b :: whole, part, behind, excess, partBlk,
                  ⟨by rw [split, List.cons_append], ?_, some_over, within⟩, partRead, ?_⟩
                · rw [lengths_cons]
                  omega
                · rw [found, last_seen_cons]

/-! ## Unlinking in either order -/

section TwoLinks

variable {heap : Heap} {prev last : BufId} {prevBlk lastBlk : BufBlk} {after : Option BufId}

theorem detach_then_relink (different : prev ≠ last) (prevRead : heap.bufs.read prev = some prevBlk)
    (lastRead : heap.bufs.read last = some lastBlk) {pre gone post : List BufId}
    (preLast : pre.getLast? = some prev) (goneLast : gone.getLast? = some last)
    (postHead : post.head? = after) :
    ∃ unlinked, (heap.setNexblk last none).bind (fun detached => detached.setNexblk prev after) =
        some unlinked ∧ Unlinked heap unlinked pre gone post := by
  have prevStill : (heap.putBuf last { lastBlk with nextblk := none }).bufs.read prev =
      some prevBlk := by
    simp [read_write lastRead, different, prevRead]
  refine ⟨(heap.putBuf last { lastBlk with nextblk := none }).putBuf prev
    { prevBlk with nextblk := after }, ?_, ?_, rfl, rfl⟩
  · rw [set_nexblk_eq lastRead, Option.bind_some, set_nexblk_eq prevStill]
  intro b
  simp only [read_put_buf prevStill, read_put_buf lastRead, preLast, goneLast, postHead,
    Option.some.injEq]
  by_cases isPrev : b = prev
  · subst isPrev
    simp [prevRead]
  · by_cases isLast : b = last
    · subst isLast
      simp [isPrev, lastRead, Ne.symm isPrev]
    · simp only [isPrev, isLast, if_false, Ne.symm isPrev, Ne.symm isLast]
      cases heap.bufs.read b <;> rfl

theorem relink_then_detach {pre : List BufId} (prevRead : ∀ b, pre.getLast? = some b →
      b ≠ last ∧ ∃ blk, heap.bufs.read b = some blk)
    (lastRead : heap.bufs.read last = some lastBlk) {post : List BufId}
    (postHead : post.head? = after) :
    ∃ unlinked, (relinkPrev heap pre.getLast? after).bind (fun linked =>
        linked.setNexblk last none) =
        some unlinked ∧ Unlinked heap unlinked pre [last] post := by
  cases preLast : pre.getLast? with
  | none =>
      refine ⟨heap.putBuf last { lastBlk with nextblk := none }, ?_, ?_, rfl, rfl⟩
      · rw [relinkPrev, Option.bind_some, set_nexblk_eq lastRead]
      intro b
      simp only [read_put_buf lastRead, preLast, List.getLast?_singleton,
        Option.some.injEq]
      by_cases isLast : b = last
      · simp [isLast, lastRead]
      · simp only [isLast, Ne.symm isLast, if_false]
        cases heap.bufs.read b <;> rfl
  | some p =>
      rcases prevRead p preLast with ⟨different, blk, present⟩
      have lastStill : (heap.putBuf p { blk with nextblk := after }).bufs.read last =
          some lastBlk := by
        simp [read_write present, Ne.symm different, lastRead]
      refine ⟨(heap.putBuf p { blk with nextblk := after }).putBuf last
        { lastBlk with nextblk := none }, ?_, ?_, rfl, rfl⟩
      · rw [relinkPrev, set_nexblk_eq present, Option.bind_some, set_nexblk_eq lastStill]
      intro b
      simp only [read_put_buf lastStill, read_put_buf present, preLast, postHead,
        List.getLast?_singleton, Option.some.injEq]
      by_cases isPrev : b = p
      · subst isPrev
        simp [present, different]
      · by_cases isLast : b = last
        · subst isLast
          simp [lastRead, Ne.symm isPrev]
        · simp only [isPrev, isLast, if_false, Ne.symm isPrev, Ne.symm isLast]
          cases heap.bufs.read b <;> rfl

end TwoLinks

/-! ## The release that follows -/

section Steps

variable {heap : Heap} {start head : Option BufId} {pre gone post : List BufId}
    {prev first mid : BufId}

/-- A run that begins behind `prev` is unlinked before it is released. -/
theorem drop_eaten_run_eq (size : Int)
    (ok : ChainOk heap start ((pre ++ [prev]) ++ ((first :: gone) ++ post)))
    (headOther : head ≠ some first) :
    ∃ last detached unlinked, (first :: gone).getLast? = some last ∧
      heap.setNexblk last none = some detached ∧ detached.setNexblk prev post.head? =
      some unlinked ∧
      Unlinked heap unlinked (pre ++ [prev]) (first :: gone) post ∧
      dropEaten heap head prev (some first) (first :: gone).getLast? post.head? size =
        (unlinked.release first).map fun final => (final, head) := by
  have nodup := chain_nodup ok.linked
  have prevOutside : ∀ b ∈ (first :: gone) ++ post, prev ≠ b := by
    intro b member same
    exact List.disjoint_of_nodup_append nodup (by simp) (same ▸ member)
  have firstOther : post.head? ≠ some first := by
    intro isHead
    exact List.disjoint_of_nodup_append (List.nodup_append.mp nodup).2.1
      (List.mem_cons_self) (List.mem_of_head? isHead)
  obtain ⟨last, isLast⟩ : ∃ last, (first :: gone).getLast? = some last := by
    rw [List.getLast?_cons]
    exact ⟨_, rfl⟩
  have lastMember : last ∈ first :: gone := List.mem_of_getLast? isLast
  rcases ok.inside prev (by simp) with ⟨prevBlk, prevRead, -⟩
  rcases ok.inside last (List.mem_append_right _ (List.mem_append_left post lastMember)) with
    ⟨lastBlk, lastRead, -⟩
  have preLast : (pre ++ [prev]).getLast? = some prev := by simp
  rcases detach_then_relink (prevOutside last (List.mem_append_left post lastMember))
    prevRead lastRead
    preLast isLast (rfl : post.head? = _) with ⟨unlinkedHeap, done, unlinked⟩
  rcases Option.bind_eq_some_iff.mp done with ⟨detached, stepOne, stepTwo⟩
  refine ⟨last, detached, unlinkedHeap, isLast, stepOne, stepTwo, unlinked, ?_⟩
  have headSame : (if some first = head then post.head? else head) = head :=
    if_neg (Ne.symm headOther)
  simp only [dropEaten, headSame, isLast, Option.bind_eq_bind, Option.bind_some, Option.map_eq_bind]
  by_cases alone : last = first
  · subst alone
    have prevOther : prev ≠ last := prevOutside last (by simp)
    simp only [ne_eq, not_true_eq_false, if_false, prevOther, not_false_eq_true,
      if_true, firstOther,
      false_and, stepOne, stepTwo, Option.bind_some]
    rfl
  · have backOther : some last ≠ some first := fun same => alone (Option.some.inj same)
    simp only [ne_eq, backOther, not_false_eq_true, if_true, stepOne, stepTwo, Option.bind_some]
    rfl

/-- Where the slice begins with the first byte of `mid`, those eaten whole are unlinked, and `mid`
is released with what stays behind it. -/
theorem drop_eaten_first_eq {whole : List BufId} (size : Int)
    (ok : ChainOk heap start (pre ++ mid :: (whole ++ post))) (filled : whole ≠ []) :
    ∃ last detached unlinked, whole.getLast? = some last ∧
      heap.setNexblk last none = some detached ∧ detached.setNexblk mid post.head? = some unlinked ∧
      Unlinked heap unlinked [mid] whole post ∧
      dropEaten heap head mid (some mid) whole.getLast? post.head? size =
        (unlinked.release mid).map fun final =>
        (final, if some mid = head then post.head? else head) := by
  have nodup := (List.nodup_append.mp (chain_nodup ok.linked)).2.1
  obtain ⟨last, isLast⟩ : ∃ last, whole.getLast? = some last :=
    ⟨whole.getLast filled, List.getLast?_eq_getLast_of_ne_nil filled⟩
  have lastMember : last ∈ whole := List.mem_of_getLast? isLast
  have midOther : mid ≠ last := by
    intro same
    exact (List.nodup_cons.mp nodup).1 (List.mem_append_left post (same ▸ lastMember))
  rcases ok.inside mid (by simp) with ⟨midBlk, midRead, -⟩
  rcases ok.inside last (by simp [lastMember]) with ⟨lastBlk, lastRead, -⟩
  rcases detach_then_relink midOther midRead lastRead (rfl : [mid].getLast? = some mid) isLast
    (rfl : post.head? = _) with ⟨unlinkedHeap, done, unlinked⟩
  rcases Option.bind_eq_some_iff.mp done with ⟨detached, stepOne, stepTwo⟩
  refine ⟨last, detached, unlinkedHeap, isLast, stepOne, stepTwo, unlinked, ?_⟩
  have backOther : some last ≠ some mid := fun same => midOther (Option.some.inj same).symm
  simp only [dropEaten, isLast, Option.bind_eq_bind, Option.bind_some, Option.map_eq_bind,
    ne_eq, backOther,
    not_false_eq_true, if_true, stepOne, stepTwo]
  rfl

theorem eat_exact_eq {blk : BufBlk} (ok : ChainOk heap start (pre ++ mid :: post))
    (present : heap.bufs.read mid = some blk) (midNext : blk.nextblk = post.head?) :
    ∃ linked unlinked, relinkPrev heap pre.getLast? post.head? = some linked ∧
      linked.setNexblk mid none = some unlinked ∧ Unlinked heap unlinked pre [mid] post ∧
      eatExact heap head pre.getLast? mid blk 0 =
        (unlinked.release mid).map fun final =>
        (final, if head = some mid then post.head? else head) := by
  have nodup := chain_nodup ok.linked
  have prevRead : ∀ b, pre.getLast? = some b → b ≠ mid ∧ ∃ blk, heap.bufs.read b = some blk := by
    intro b isLast
    have member : b ∈ pre := List.mem_of_getLast? isLast
    refine ⟨fun same => last_not_mem nodup (List.mem_cons_self) (same ▸ isLast), ?_⟩
    rcases ok.inside b (List.mem_append_left _ member) with ⟨other, otherPresent, -⟩
    exact ⟨other, otherPresent⟩
  rcases relink_then_detach prevRead present (rfl : post.head? = _) with ⟨unlinkedHeap,
    done, unlinked⟩
  rcases Option.bind_eq_some_iff.mp done with ⟨linked, stepOne, stepTwo⟩
  refine ⟨linked, unlinkedHeap, stepOne, stepTwo, unlinked, ?_⟩
  have notPositive : ¬(0 : Int) > 0 := Int.lt_irrefl 0
  simp only [eatExact, if_neg notPositive, midNext, stepOne, stepTwo, Option.bind_eq_bind,
    Option.bind_some,
    Option.map_eq_bind]
  rfl

end Steps

theorem drop_eaten_run {heap : Heap} {start head : Option BufId} {pre gone post : List BufId}
    {prev first : BufId} (size : Int)
    (ok : ChainOk heap start ((pre ++ [prev]) ++ ((first :: gone) ++ post)))
    (unshared : Unshared heap ((pre ++ [prev]) ++ ((first :: gone) ++ post)))
    (headOther : head ≠ some first) :
    ∃ final, dropEaten heap head prev (some first) (first :: gone).getLast? post.head? size =
        some (final, head) ∧
      ChainOk final start ((pre ++ [prev]) ++ post) ∧
      (∀ b ∈ (pre ++ [prev]) ++ post, bytesOf final b = bytesOf heap b) ∧
      final.deleted = heap.deleted ++ (first :: gone).reverse := by
  rcases drop_eaten_run_eq size ok headOther with ⟨last, detached, unlinkedHeap, -, -, -,
    unlinked, dropped⟩
  rcases release_unlinked ok unshared unlinked with ⟨final, released, chain, bytes, deleted⟩
  rw [if_neg (by simp)] at chain
  refine ⟨final, ?_, chain, bytes, deleted⟩
  rw [dropped, released, Option.map_some]

end TWlib.BufBlkEatCases
