import TWlib.BufBlkChain

/-!
# The block in which an offset lies

`getContigBlock` and `eatBytes` begin with one and the same loop. It skips the
blocks that end at or before the offset, the empty ones among them, so the block
it stops at always has a byte at the offset.
-/

namespace TWlib.BufBlkSeek

open TWlib.Lib.CellStore TWlib.Lib.LinkedChain TWlib.BufBlkHeap TWlib.BufBlkChain

set_option autoImplicit false

/-- `while((need >= 0) && look) { if(look->length() > need) break; need -= look->length(); .. }`,
with the `prev` that only `eatBytes` keeps. -/
def seek : Nat → Heap → Int → Option BufId → Option BufId →
    Option (Int × Option BufId × Option BufId)
  | _, _, need, none, prev => some (need, none, prev)
  | 0, _, _, some _, _ => none
  | fuel + 1, heap, need, some look, prev =>
      if 0 ≤ need then do
        let blk ← heap.bufs.read look
        if blk.length > need then some (need, some look, prev)
        else seek fuel heap (need - blk.length) blk.nextblk (some look)
      else some (need, some look, prev)

/-- The offset lies `rest` bytes into `mid`. -/
structure Located (heap : Heap) (ids : List BufId) (off : Nat)
    (pre : List BufId) (mid : BufId) (post : List BufId) (rest : Nat) : Prop where
  split : ids = pre ++ mid :: post
  offset : off = (lengthsOf heap pre).sum + rest
  inside : rest < (bytesOf heap mid).length

theorem lengths_cons (heap : Heap) (b : BufId) (rest : List BufId) :
    (lengthsOf heap (b :: rest)).sum = (bytesOf heap b).length + (lengthsOf heap rest).sum := by
  simp [lengthsOf]

theorem lengths_append (heap : Heap) (front back : List BufId) :
    (lengthsOf heap (front ++ back)).sum = (lengthsOf heap front).sum +
    (lengthsOf heap back).sum := by
  simp [lengthsOf]

theorem last_seen_cons (passed : List BufId) (b : BufId) (prev : Option BufId) :
    (b :: passed).getLast?.or prev = passed.getLast?.or (some b) := by
  rw [List.getLast?_cons]
  cases passed.getLast? <;> rfl

theorem seek_chain {heap : Heap} {ids : List BufId} {start : Option BufId} (fuel off : Nat)
    (prev : Option BufId) (ok : ChainOk heap start ids) (enough : ids.length ≤ fuel) :
    (∃ pre mid post rest, Located heap ids off pre mid post rest ∧
      seek fuel heap off start prev = some ((rest : Int), some mid, pre.getLast?.or prev)) ∨
    ((lengthsOf heap ids).sum ≤ off ∧
      ∃ need last, seek fuel heap off start prev = some (need, none, last)) := by
  induction ids generalizing start fuel off prev with
  | nil =>
      have empty : start = none := ok.linked
      subst empty
      exact .inr ⟨by simp [lengthsOf], off, prev, by cases fuel <;> rfl⟩
  | cons b behind ih =>
      rcases chain_ok_cons ok with ⟨first, blk, present, -, length, tail⟩
      subst first
      cases fuel with
      | zero => simp at enough
      | succ fuel =>
          simp only [List.length_cons, Nat.add_le_add_iff_right] at enough
          simp only [seek, Int.natCast_nonneg, if_true, present, Option.bind_eq_bind,
            Option.bind_some, length]
          by_cases here : off < (bytesOf heap b).length
          · left
            refine ⟨[], b, behind, off, ⟨rfl, by simp [lengthsOf], here⟩, ?_⟩
            rw [if_pos (by omega)]
            rfl
          · have shorter : (off : Int) - (bytesOf heap b).length =
                ((off - (bytesOf heap b).length : Nat) : Int) := by omega
            rw [if_neg (by omega), shorter]
            rcases ih fuel (off - (bytesOf heap b).length) (some b) tail enough with
              ⟨pre, mid, post, rest, located, found⟩ | ⟨short, need, last, found⟩
            · left
              refine ⟨b :: pre, mid, post, rest, ⟨?_, ?_, located.inside⟩, ?_⟩
              · rw [located.split, List.cons_append]
              · have offset := located.offset
                rw [lengths_cons]
                omega
              · rw [found, last_seen_cons]
            · right
              refine ⟨?_, need, last, found⟩
              rw [lengths_cons]
              omega

theorem seek_inside {heap : Heap} {ids : List BufId} {this : BufId} (off : Nat)
    (ok : ChainOk heap (some this) ids) (inside : off < (lengthsOf heap ids).sum) :
    ∃ pre mid post rest, Located heap ids off pre mid post rest ∧
      seek heap.bufs.fresh heap off (some this) none = some ((rest : Int), some mid,
        pre.getLast?) := by
  rcases seek_chain heap.bufs.fresh off none ok (chain_bound ok.linked) with
    ⟨pre, mid, post, rest, located, found⟩ | ⟨short, -⟩
  · exact ⟨pre, mid, post, rest, located, by simpa using found⟩
  · omega

section Positions

variable {heap : Heap} {ids pre post : List BufId} {mid : BufId} {off rest : Nat}

theorem located_total (located : Located heap ids off pre mid post rest) :
    (lengthsOf heap ids).sum =
      (lengthsOf heap pre).sum + (bytesOf heap mid).length + (lengthsOf heap post).sum := by
  rw [located.split, lengths_append, lengths_cons, Nat.add_assoc]

theorem located_unique {otherPre otherPost : List BufId} {otherMid : BufId} {otherRest : Nat}
    (left : Located heap ids off pre mid post rest)
    (right : Located heap ids off otherPre otherMid otherPost otherRest) :
    otherPre = pre ∧ otherMid = mid ∧ otherPost = post ∧ otherRest = rest := by
  induction pre generalizing ids off otherPre with
  | nil =>
      have split := left.split.symm.trans right.split
      have leftOffset := left.offset
      have rightOffset := right.offset
      have leftInside := left.inside
      cases otherPre with
      | nil =>
          simp only [List.nil_append, List.cons.injEq] at split
          simp only [lengthsOf, List.map_nil, List.sum_nil] at leftOffset rightOffset
          exact ⟨rfl, split.1.symm, split.2.symm, by omega⟩
      | cons b behind =>
          simp only [List.nil_append, List.cons_append, List.cons.injEq] at split
          rw [lengths_cons, ← split.1] at rightOffset
          simp only [lengthsOf, List.map_nil, List.sum_nil] at leftOffset
          omega
  | cons b behind ih =>
      have split := left.split.symm.trans right.split
      have leftOffset := left.offset
      have rightOffset := right.offset
      have rightInside := right.inside
      rw [lengths_cons] at leftOffset
      cases otherPre with
      | nil =>
          simp only [List.nil_append, List.cons_append, List.cons.injEq] at split
          rw [← split.1] at rightInside
          simp only [lengthsOf, List.map_nil, List.sum_nil] at rightOffset
          omega
      | cons other others =>
          simp only [List.cons_append, List.cons.injEq] at split
          rw [lengths_cons, ← split.1] at rightOffset
          have leftTail : Located heap (behind ++ mid :: post) (off - (bytesOf heap b).length)
              behind mid post rest := ⟨rfl, by omega, left.inside⟩
          have rightTail : Located heap (behind ++ mid :: post) (off - (bytesOf heap b).length)
              others otherMid otherPost otherRest := ⟨split.2, by omega, right.inside⟩
          rcases ih leftTail rightTail with ⟨samePre, sameMid, samePost, sameRest⟩
          exact ⟨by rw [samePre, split.1], sameMid, samePost, sameRest⟩

end Positions

end TWlib.BufBlkSeek
