import TWlib.BufBlkEatCases

/-!
# What `eatBytes` comes to

`Erased` is the intended outcome: a chain with the slice removed, every block
either on it or deleted. A slice that begins behind the first byte of a block, or
that ends within the block it begins in, always has it. A slice that begins at
the first byte of a block and crosses its end has one of the two outcomes of the
last section instead.
-/

namespace TWlib.BufBlkEatOutcomes

open TWlib.Lib.CellStore TWlib.Lib.LinkedChain TWlib.Lib.ListSlice
open TWlib.BufBlkHeap TWlib.BufBlkChain TWlib.BufBlkSeek TWlib.BufBlkUnlink TWlib.BufBlkEat
open TWlib.BufBlkEatCases

set_option autoImplicit false

/-- The blocks `kept` carry the content without the slice, and the others were deleted once. -/
structure Erased (before : Heap) (ids : List BufId) (off size : Nat) (after : Heap)
    (head : Option BufId) (kept gone : List BufId) : Prop where
  chain : ChainOk after head kept
  content : kept.flatMap (bytesOf after) = eraseSlice off size (ids.flatMap (bytesOf before))
  deleted : after.deleted = before.deleted ++ gone
  parted : ids.Perm (kept ++ gone)

variable {heap : Heap} {this : BufId} {ids pre post : List BufId} {mid : BufId} {off rest : Nat}

/-! ## Where the slice begins -/

theorem located_erase (located : Located heap ids off pre mid post rest) (size : Nat) :
    eraseSlice off size (ids.flatMap (bytesOf heap)) =
      pre.flatMap (bytesOf heap) ++
        eraseSlice rest size (bytesOf heap mid ++ post.flatMap (bytesOf heap)) := by
  rw [located.split, List.flatMap_append, List.flatMap_cons, located.offset, lengths_sum,
    erase_slice_behind]

theorem head_is_mid (ok : ChainOk heap (some this) (pre ++ mid :: post)) :
    mid = this ↔ pre = [] := by
  have nodup := chain_nodup ok.linked
  have start := chain_start ok.linked
  cases pre with
  | nil =>
      have same : this = mid := by simpa using start
      simp [same]
  | cons b behind =>
      have same : this = b := by simpa using start
      have different : mid ≠ b := by
        intro equal
        exact List.disjoint_of_nodup_append nodup List.mem_cons_self (by simp [equal])
      simp [same, different]

theorem follows_mid {start : Option BufId} {blk : BufBlk}
    (ok : ChainOk heap start (pre ++ mid :: post)) (present : heap.bufs.read mid = some blk) :
    blk.nextblk = post.head? := by
  rcases (chain_append _ _ _).mp ok.linked with ⟨-, tail⟩
  rcases tail with ⟨-, follow, step, behind⟩
  rw [next_of_read present] at step
  exact (Option.some.inj step).trans (chain_start behind)

theorem behind_mid (ok : ChainOk heap (some this) (pre ++ mid :: post)) {b : BufId}
    (member : b ∈ post) : b ≠ mid ∧ b ≠ this := by
  have regroup : pre ++ mid :: post = (pre ++ [mid]) ++ post := by simp
  have nodup := chain_nodup ok.linked
  rw [regroup] at nodup
  have apart := List.disjoint_of_nodup_append nodup
  have thisFront : this ∈ pre ++ [mid] := by
    have start := chain_start ok.linked
    cases pre <;> simp_all
  exact ⟨fun same => apart (by simp) (same ▸ member), fun same => apart thisFront (same ▸ member)⟩

/-- The three ways of `eatBytes`, from the block that the loop has found. -/
theorem eat_bytes_at {blk : BufBlk} (size : Int) (ok : ChainOk heap (some this) ids)
    (located : Located heap ids off pre mid post rest) (present : heap.bufs.read mid = some blk) :
    eatBytes heap this off size =
      if blk.length - rest - size > 0 then
        (eatWithin heap mid blk rest size).map fun after => (after, some this)
      else if blk.length - rest - size = 0 then eatExact heap (some this) pre.getLast? mid blk rest
      else eatAcross heap (some this) mid blk rest size := by
  have inside := located.inside
  have total := located_total located
  have offset := located.offset
  rcases seek_inside off ok (by omega) with ⟨pre', mid', post', rest', found, sought⟩
  rcases located_unique found located with ⟨rfl, rfl, rfl, rfl⟩
  have midMember : mid ∈ ids := by simp [located.split]
  rcases block_ok_bytes (ok.inside mid midMember) with ⟨same, again, -, length⟩
  cases Option.some.inj (present.symm.trans again)
  simp only [eatBytes, sought, Option.bind_eq_bind, Option.bind_some, present]
  rw [if_pos (by omega)]
  split_ifs
  · cases eatWithin heap mid blk rest size <;> rfl
  · rfl
  · rfl

/-! ## The slice ends in the block it begins in -/

/-- The rest of the block is moved, or its `rd_ptr` advanced; no block goes. -/
theorem eat_within {size : Nat} (ok : ChainOk heap (some this) ids) (unshared : Unshared heap ids)
    (located : Located heap ids off pre mid post rest)
    (fits : rest + size < (bytesOf heap mid).length) :
    ∃ after, eatBytes heap this off size = some (after, some this) ∧
      Erased heap ids off size after (some this) ids [] := by
  have split := located.split
  subst split
  have midMember : mid ∈ pre ++ mid :: post := by simp
  have midOk := ok.inside mid midMember
  rcases block_ok_bytes midOk with ⟨blk, present, -, length⟩
  rw [eat_bytes_at size ok located present, if_pos (by omega)]
  have erase := located_erase located size
  rw [erase_slice_before rest size _ _ (by omega)] at erase
  by_cases first : rest = 0
  · subst first
    rcases drop_block size present midOk (by omega) with ⟨blockOk, bytes⟩
    rcases chain_ok_put ok present (by rfl) blockOk with ⟨chain, content⟩
    have dropped : eraseSlice 0 size (bytesOf heap mid) = (bytesOf heap mid).drop size := by
      simp [eraseSlice]
    refine ⟨heap.putBuf mid { blk with rdPtr := blk.rdPtr + size }, by simp [eatWithin],
      chain, ?_, by simp, by simp⟩
    rw [content, erase, bytes, dropped]
  · rcases move_block rest size present midOk fits with
      ⟨m, mem, moved, owner, memPresent, -, -, -, done, blockOk, bytes⟩
    have nodup := List.nodup_middle.mp (chain_nodup ok.linked)
    have others : ∀ other ∈ pre ++ post, Agree heap
        ((heap.putMem m moved).putBuf mid { blk with wrPtr := blk.wrPtr - size }) other := by
      intro other member
      have different : other ≠ mid := fun same => (List.nodup_cons.mp nodup).1 (same ▸ member)
      have otherMember : other ∈ pre ++ mid :: post := by
        rcases List.mem_append.mp member with left | right
        · exact List.mem_append_left _ left
        · exact List.mem_append_right _ (List.mem_cons_of_mem _ right)
      refine ⟨by simp [read_write present, different], fun other_m held => ?_⟩
      have otherMem : other_m ≠ m := by
        intro same
        have midOwner : heap.memOf mid = some m := by simp [Heap.memOf, present, owner]
        exact different (unshared other otherMember mid midMember m (same ▸ held) midOwner)
      simp [read_write memPresent, otherMem]
    have nextSame : ((heap.putMem m moved).putBuf mid { blk with wrPtr := blk.wrPtr - size }).next
        mid =
        heap.next mid := by
      simp [Heap.next, read_write present, present]
    rcases chain_ok_update ok nextSame blockOk others with ⟨chain, content⟩
    refine ⟨(heap.putMem m moved).putBuf mid { blk with wrPtr := blk.wrPtr - size }, ?_,
      chain, ?_, by simp, by simp⟩
    · have positive : (rest : Int) > 0 := by omega
      rw [eatWithin, if_pos positive, done]
      rfl
    · rw [content, erase, bytes]

theorem eat_exact {size : Nat} (ok : ChainOk heap (some this) ids) (unshared : Unshared heap ids)
    (located : Located heap ids off pre mid post rest)
    (fits : rest + size = (bytesOf heap mid).length) :
    ∃ after head kept gone, eatBytes heap this off size = some (after, head) ∧
      Erased heap ids off size after head kept gone := by
  have split := located.split
  subst split
  have midMember : mid ∈ pre ++ mid :: post := by simp
  have midOk := ok.inside mid midMember
  rcases block_ok_bytes midOk with ⟨blk, present, -, length⟩
  rw [eat_bytes_at size ok located present, if_neg (by omega), if_pos (by omega)]
  have erase := located_erase located size
  rw [erase_slice_before rest size _ _ (by omega), erase_slice_tail rest size _ fits] at erase
  by_cases first : rest = 0
  · subst first
    have midNext := follows_mid ok present
    rcases eat_exact_eq ok present midNext with ⟨linked, unlinkedHeap, -, -, unlinked, eaten⟩
    have whole : ChainOk heap (some this) (pre ++ ([mid] ++ post)) := ok
    rcases release_unlinked whole unshared unlinked with
      ⟨final, released, chain, bytes, deleted⟩
    have newHead : (if some this = some mid then post.head? else some this) =
        if pre = [] then post.head? else some this := by
      simp only [Option.some.injEq, @eq_comm _ this, head_is_mid ok]
    refine ⟨final, if pre = [] then post.head? else some this, pre ++ post, [mid], ?_, chain, ?_,
      deleted, List.perm_middle.trans (List.perm_append_singleton mid (pre ++ post)).symm⟩
    · rw [Int.natCast_zero, eaten, released, Option.map_some, newHead]
    · rw [flat_bytes_congr bytes, List.flatMap_append, erase]
      simp
  · rcases take_block rest present midOk (by omega) with ⟨blockOk, bytes⟩
    rcases chain_ok_put ok present (by rfl) blockOk with ⟨chain, content⟩
    have positive : (rest : Int) > 0 := by omega
    refine ⟨heap.putBuf mid { blk with wrPtr := blk.rdPtr + rest }, some this,
      pre ++ mid :: post, [],
      by rw [eatExact, if_pos positive], chain, ?_, by simp, by simp⟩
    rw [content, erase, bytes]

/-! ## The slice goes on behind the block it begins in -/

/-- The loop has eaten the blocks `whole` and stands before `survivors`. -/
structure LoopDone (before after : Heap) (start : Option BufId) (pre : List BufId) (mid : BufId)
    (post : List BufId) (size : Nat) (left : Int) (whole survivors : List BufId) : Prop where
  split : post = whole ++ survivors
  chain : ChainOk after start (pre ++ mid :: post)
  unshared : Unshared after (pre ++ mid :: post)
  front : ∀ b ∈ pre ++ [mid], bytesOf after b = bytesOf before b
  content : survivors.flatMap (bytesOf after) = (post.flatMap (bytesOf before)).drop size
  deleted : after.deleted = before.deleted
  remains : whole = [] → left ≠ 0
  partly : whole = [] ↔ ∃ part behind, post = part :: behind ∧ size < (bytesOf before part).length
  finished : survivors = [] ↔ (size = (lengthsOf before post).sum ∧
    ∃ last, post.getLast? = some last ∧ 0 < (bytesOf before last).length)

theorem stops_between_done {start : Option BufId} {size : Nat} {whole behind : List BufId}
    (ok : ChainOk heap start (pre ++ mid :: post)) (unshared : Unshared heap (pre ++ mid :: post))
    (stops : StopsBetween heap post size whole behind) :
    LoopDone heap heap start pre mid post size 0 whole behind := by
  rcases stops with ⟨split, sum, last, isLast, nonempty⟩
  have notEmpty : whole ≠ [] := fun empty => by simp [empty] at isLast
  refine ⟨split, ok, unshared, fun _ _ => rfl, ?_, rfl, fun empty => absurd empty notEmpty, ?_, ?_⟩
  · rw [split, List.flatMap_append, ← sum, lengths_sum, List.drop_left]
  · refine ⟨fun empty => absurd empty notEmpty, ?_⟩
    rintro ⟨part, others, isFirst, short⟩
    cases whole with
    | nil => rfl
    | cons b eaten =>
        rw [split, List.cons_append, List.cons.injEq] at isFirst
        rw [lengths_cons, isFirst.1] at sum
        omega
  · constructor
    · intro empty
      subst empty
      rw [List.append_nil] at split
      exact ⟨by rw [split, sum], last, by rw [split, isLast], nonempty⟩
    · rintro ⟨total, final, isFinal, positive⟩
      by_contra filled
      rw [split, lengths_append] at total
      have member : final ∈ behind := by
        rw [split, List.getLast?_append_of_ne_nil _ filled] at isFinal
        exact List.mem_of_getLast? isFinal
      have someBytes : 0 < (lengthsOf heap behind).sum :=
        List.sum_pos_iff_exists_pos_nat.mpr ⟨_, List.mem_map_of_mem member, positive⟩
      omega

theorem stops_inside_done {start : Option BufId} {size excess : Nat} {whole behind : List BufId}
    {part : BufId} {blk : BufBlk}
    (ok : ChainOk heap start (pre ++ mid :: post)) (unshared : Unshared heap (pre ++ mid :: post))
    (stops : StopsInside heap post size whole part behind excess)
    (present : heap.bufs.read part = some blk) :
    LoopDone heap (heap.putBuf part { blk with rdPtr := blk.rdPtr + excess }) start pre
      mid post size
      excess whole (part :: behind) := by
  rcases stops with ⟨split, sum, positive, inside⟩
  have regroup : pre ++ mid :: post = (pre ++ mid :: whole) ++ part :: behind := by
    simp [split]
  have partOk := ok.inside part (by simp [split])
  rcases drop_block excess present partOk (Nat.le_of_lt inside) with ⟨blockOk, bytes⟩
  have nodup := List.nodup_middle.mp (regroup ▸ chain_nodup ok.linked)
  have others : ∀ b ∈ (pre ++ mid :: whole) ++ behind,
      bytesOf (heap.putBuf part { blk with rdPtr := blk.rdPtr + excess }) b = bytesOf heap b := by
    intro b member
    have different : b ≠ part := fun same => (List.nodup_cons.mp nodup).1 (same ▸ member)
    exact agree_bytes_of (put_buf_agree present _ different)
  rcases chain_ok_put (regroup ▸ ok) present (by rfl) blockOk with ⟨chain, -⟩
  refine ⟨split, regroup ▸ chain, unshared_put unshared present rfl, ?_, ?_, rfl, ?_, ?_, ?_⟩
  · intro b member
    apply others
    simp only [List.mem_append, List.mem_cons] at member ⊢
    tauto
  · rw [List.flatMap_cons, bytes, flat_bytes_congr fun b member =>
      others b (List.mem_append_right _ member),
      split, List.flatMap_append, List.flatMap_cons, ← sum, lengths_sum,
        List.drop_length_add_append,
      List.drop_append_of_le_length (Nat.le_of_lt inside)]
  · intro _
    omega
  · constructor
    · intro empty
      subst empty
      have onlyPart : excess = size := by simpa [lengthsOf] using sum
      exact ⟨part, behind, split, by omega⟩
    · rintro ⟨first, rest, isFirst, short⟩
      cases whole with
      | nil => rfl
      | cons b eaten =>
          rw [split, List.cons_append, List.cons.injEq] at isFirst
          rw [lengths_cons, isFirst.1] at sum
          omega
  · constructor
    · intro empty
      exact absurd empty (List.cons_ne_nil _ _)
    · rintro ⟨total, -⟩
      rw [split, lengths_append, lengths_cons] at total
      omega

/-- The loop over the blocks behind `mid`, in either way it can end. -/
theorem eat_loop_done {start : Option BufId} {size : Nat} (fuel : Nat) (back : Option BufId)
    (ok : ChainOk heap start (pre ++ mid :: post)) (unshared : Unshared heap (pre ++ mid :: post))
    (enough : post.length ≤ fuel) (positive : 0 < size) (fits : size ≤ (lengthsOf heap post).sum) :
    ∃ after left whole survivors,
      eatLoop fuel heap size post.head? back =
        some (after, left, survivors.head?, whole.getLast?.or back) ∧
      LoopDone heap after start pre mid post size left whole survivors := by
  have regroup : pre ++ mid :: post = (pre ++ [mid]) ++ post := by simp
  have behindOk : ChainOk heap post.head? post := (chain_ok_append.mp (regroup ▸ ok)).2.2
  rcases eat_loop_chain fuel size back behindOk enough positive fits with
    ⟨whole, behind, stops, found⟩ | ⟨whole, part, behind, excess, blk, stops, present, found⟩
  · exact ⟨heap, 0, whole, behind, found, stops_between_done ok unshared stops⟩
  · exact ⟨_, excess, whole, part :: behind, found, stops_inside_done ok unshared stops present⟩

theorem located_erase_across (located : Located heap ids off pre mid post rest) {size : Nat}
    (excess : Nat) (reaches : rest + size = (bytesOf heap mid).length + excess) :
    eraseSlice off size (ids.flatMap (bytesOf heap)) =
      pre.flatMap (bytesOf heap) ++
        ((bytesOf heap mid).take rest ++ (post.flatMap (bytesOf heap)).drop excess) := by
  have inside := located.inside
  have sizeEq : size = (bytesOf heap mid).length - rest + excess := by omega
  rw [located_erase located, sizeEq, erase_slice_across rest excess _ _ (by omega)]

/-- What is eaten of the blocks behind `mid`, and then unlinked and released. -/
def eatBehind (heap : Heap) (this mid : BufId) (size : Int) (follow front : Option BufId) :
    Option (Heap × Option BufId) :=
  (eatLoop heap.bufs.fresh heap size follow front).bind fun (loop, left, look, back) =>
    dropEaten loop (some this) mid front back look left

theorem eat_across_first_eq {size few : Nat} {blk : BufBlk}
    (ok : ChainOk heap (some this) (pre ++ mid :: post))
    (located : Located heap (pre ++ mid :: post) off pre mid post 0)
    (present : heap.bufs.read mid = some blk)
    (reaches : size = (bytesOf heap mid).length + (few + 1)) :
    eatBytes heap this off size = eatBehind heap this mid ((few + 1 : Nat) : Int) post.head?
    (some mid) := by
  rcases block_ok_bytes (ok.inside mid (by simp)) with ⟨same, again, -, length⟩
  cases Option.some.inj (present.symm.trans again)
  have notPositive : ¬((0 : Nat) : Int) > 0 := by omega
  have excess : (size : Int) - (blk.length - (0 : Nat)) = ((few + 1 : Nat) : Int) := by omega
  rw [eat_bytes_at size ok located present, if_neg (by omega), if_neg (by omega)]
  simp only [eatAcross, if_neg notPositive, excess, follows_mid ok present]
  rfl

theorem eat_across_later_eq {size few : Nat} {blk : BufBlk}
    (ok : ChainOk heap (some this) (pre ++ mid :: post))
    (located : Located heap (pre ++ mid :: post) off pre mid post rest) (later : 0 < rest)
    (present : heap.bufs.read mid = some blk)
    (reaches : rest + size = (bytesOf heap mid).length + (few + 1)) :
    eatBytes heap this off size = eatBehind (heap.putBuf mid { blk with wrPtr := blk.rdPtr + rest })
      this mid
      ((few + 1 : Nat) : Int) post.head? post.head? := by
  rcases block_ok_bytes (ok.inside mid (by simp)) with ⟨same, again, -, length⟩
  cases Option.some.inj (present.symm.trans again)
  have positive : (rest : Int) > 0 := by omega
  have excess : (size : Int) - (blk.length - rest) = ((few + 1 : Nat) : Int) := by omega
  have cut : { blk with wrPtr := blk.wrPtr - (blk.length - rest) } =
      { blk with wrPtr := blk.rdPtr + rest } := by
    simp only [BufBlk.length, BufBlk.mk.injEq, true_and, and_true]
    omega
  rw [eat_bytes_at size ok located present, if_neg (by omega), if_neg (by omega),
    ← follows_mid ok present]
  simp only [eatAcross, if_pos positive, cut, excess, eatBehind, put_buf_bufs, fresh_write]
  rfl

theorem drop_eaten_done {loop : Heap} {size : Nat} {left : Int} {whole survivors : List BufId}
    (done : LoopDone heap loop (some this) pre mid post size left whole survivors) :
    ∃ after kept gone, dropEaten loop (some this) mid post.head? (whole.getLast?.or post.head?)
        survivors.head? left = some (after, some this) ∧ ChainOk after (some this) kept ∧
      kept.flatMap (bytesOf after) = ((pre ++ [mid]) ++ survivors).flatMap (bytesOf loop) ∧
      after.deleted = heap.deleted ++ gone ∧ (pre ++ mid :: post).Perm (kept ++ gone) := by
  cases whole with
  | nil =>
      have survive : post = survivors := done.split
      subst survive
      rcases done.partly.mp rfl with ⟨part, behind, isFirst, -⟩
      subst isFirst
      rcases behind_mid done.chain (List.mem_cons_self : part ∈ part :: behind) with ⟨notMid,
        notHead⟩
      refine ⟨loop, pre ++ mid :: part :: behind, [], ?_, done.chain, by simp, ?_, by simp⟩
      · simp [dropEaten, notHead, Ne.symm notMid, done.remains rfl]
      · rw [done.deleted, List.append_nil]
  | cons first gone =>
      have regroup : pre ++ mid :: post = (pre ++ [mid]) ++ ((first :: gone) ++ survivors) := by
        simp [done.split]
      have headOther : some this ≠ some first := by
        have firstBehind : first ∈ post := by simp [done.split]
        simpa using Ne.symm (behind_mid done.chain firstBehind).2
      have postHead : post.head? = some first := by simp [done.split]
      have orLast : (first :: gone).getLast?.or (some first) = (first :: gone).getLast? := by
        rw [List.getLast?_cons]
        rfl
      rcases drop_eaten_run left (regroup ▸ done.chain) (regroup ▸ done.unshared) headOther with
        ⟨final, dropped, finalChain, finalBytes, deleted⟩
      refine ⟨final, (pre ++ [mid]) ++ survivors, (first :: gone).reverse, ?_, finalChain,
        flat_bytes_congr finalBytes, ?_, ?_⟩
      · rw [postHead, orLast]
        exact dropped
      · rw [deleted, done.deleted]
      · rw [regroup, List.append_assoc (pre ++ [mid])]
        exact (List.perm_append_comm.trans
          ((List.reverse_perm (first :: gone)).symm.append_left survivors)).append_left
          (pre ++ [mid])

/-- Behind the first byte of its block, the slice has the block cut off there, and the blocks
eaten whole are released. -/
theorem eat_across_later {size : Nat} (ok : ChainOk heap (some this) ids)
    (unshared : Unshared heap ids) (located : Located heap ids off pre mid post rest)
    (later : 0 < rest) (crosses : (bytesOf heap mid).length < rest + size)
    (bounded : off + size ≤ (lengthsOf heap ids).sum) :
    ∃ after head kept gone, eatBytes heap this off size = some (after, head) ∧
      Erased heap ids off size after head kept gone := by
  have total := located_total located
  have offset := located.offset
  have inside := located.inside
  have split := located.split
  subst split
  have enough := chain_bound ok.linked
  simp only [List.length_append, List.length_cons] at enough
  have midOk := ok.inside mid (by simp)
  rcases block_ok_bytes midOk with ⟨blk, present, -, length⟩
  rcases Nat.exists_eq_add_of_lt crosses with ⟨few, reaches⟩
  have erase := located_erase_across located (few + 1) (by omega)
  rcases take_block rest present midOk (Nat.le_of_lt inside) with ⟨blockOk, bytes⟩
  rcases chain_ok_put ok present (by rfl) blockOk with ⟨chain, -⟩
  have others : ∀ b ∈ pre ++ post,
      bytesOf (heap.putBuf mid { blk with wrPtr := blk.rdPtr + rest }) b = bytesOf heap b := by
    intro b member
    have nodup := List.nodup_middle.mp (chain_nodup ok.linked)
    have different : b ≠ mid := fun same => (List.nodup_cons.mp nodup).1 (same ▸ member)
    exact agree_bytes_of (put_buf_agree present _ different)
  have preBytes := flat_bytes_congr fun b member => others b (List.mem_append_left post member)
  have postBytes := flat_bytes_congr fun b member => others b (List.mem_append_right pre member)
  have fits : few + 1 ≤
      (lengthsOf (heap.putBuf mid { blk with wrPtr := blk.rdPtr + rest }) post).sum := by
    rw [lengths_sum, postBytes, ← lengths_sum]
    omega
  rcases eat_loop_done heap.bufs.fresh post.head? chain
    (unshared_put unshared present rfl) (by omega)
    (Nat.succ_pos few) fits with ⟨loop, left, whole, survivors, found, done⟩
  rcases drop_eaten_done done with ⟨after, kept, gone, dropped, afterChain, afterBytes,
    deleted, parted⟩
  refine ⟨after, some this, kept, gone, ?_, afterChain, ?_, deleted, parted⟩
  · rw [eat_across_later_eq ok located later present (by omega), eatBehind, put_buf_bufs,
      fresh_write]
    simp only [found, dropped, Option.bind_some]
  · rw [afterBytes, List.flatMap_append, flat_bytes_congr done.front, List.flatMap_append, preBytes,
      List.flatMap_singleton, bytes, done.content, postBytes, erase, List.append_assoc]

/-! ## The slice begins with the block's first byte and goes on behind it -/

/-- Here `prev` and `front` are both the block itself. -/
theorem eat_first_loop {size : Nat} (ok : ChainOk heap (some this) ids)
    (unshared : Unshared heap ids) (located : Located heap ids off pre mid post 0)
    (crosses : (bytesOf heap mid).length < size) (bounded : off + size ≤ (lengthsOf heap ids).sum) :
    ∃ loop left whole survivors,
      LoopDone heap loop (some this) pre mid post (size - (bytesOf heap mid).length) left whole
        survivors ∧
      eatBytes heap this off size =
        dropEaten loop (some this) mid (some mid) (whole.getLast?.or (some mid))
        survivors.head? left := by
  have total := located_total located
  have offset := located.offset
  have split := located.split
  subst split
  have enough := chain_bound ok.linked
  simp only [List.length_append, List.length_cons] at enough
  rcases block_ok_bytes (ok.inside mid (by simp)) with ⟨blk, present, -, length⟩
  rcases eat_loop_done heap.bufs.fresh (some mid) ok unshared (by omega)
    (Nat.sub_pos_of_lt crosses) (by omega) with ⟨loop, left, whole, survivors, found, done⟩
  refine ⟨loop, left, whole, survivors, done, ?_⟩
  rcases Nat.exists_eq_add_of_lt crosses with ⟨few, reaches⟩
  have excess : size - (bytesOf heap mid).length = few + 1 := by omega
  rw [excess] at found
  rw [eat_across_first_eq ok located present (by omega : size = _ + (few + 1)), eatBehind]
  simp only [found, Option.bind_some]

theorem eat_first_partly {size : Nat} (ok : ChainOk heap (some this) ids)
    (unshared : Unshared heap ids) (located : Located heap ids off pre mid post 0)
    (crosses : (bytesOf heap mid).length < size) (bounded : off + size ≤ (lengthsOf heap ids).sum)
    (partly : ∃ part behind, post = part :: behind ∧
      size < (bytesOf heap mid).length + (bytesOf heap part).length) :
    ∃ after left, eatBytes heap this off size =
        some (after, if pre = [] then post.head? else some this) ∧
      LoopDone heap after (some this) pre mid post (size - (bytesOf heap mid).length) left
      [] post := by
  rcases eat_first_loop ok unshared located crosses bounded with
    ⟨loop, left, whole, survivors, done, reduced⟩
  have none_whole : whole = [] := by
    rcases partly with ⟨part, behind, isFirst, short⟩
    exact done.partly.mpr ⟨part, behind, isFirst, by omega⟩
  subst none_whole
  have survive : post = survivors := done.split
  subst survive
  have split := located.split
  subst split
  refine ⟨loop, left, ?_, done⟩
  rw [reduced]
  simp [dropEaten, head_is_mid ok]

/-- The next block is eaten whole: `mid` and the blocks that should survive are released, and
those eaten whole are not. -/
theorem eat_first_wholly {size : Nat} (ok : ChainOk heap (some this) ids)
    (unshared : Unshared heap ids) (located : Located heap ids off pre mid post 0)
    (crosses : (bytesOf heap mid).length < size) (bounded : off + size ≤ (lengthsOf heap ids).sum)
    (wholly : ¬∃ part behind, post = part :: behind ∧
      size < (bytesOf heap mid).length + (bytesOf heap part).length) :
    ∃ after whole survivors last, post = whole ++ survivors ∧ whole.getLast? = some last ∧
      eatBytes heap this off size = some (after, if pre = [] then survivors.head? else some this) ∧
      (∀ b ∈ mid :: survivors, after.bufs.read b = none) ∧
      Segment after.next (some this) pre (some mid) ∧
      after.deleted = heap.deleted ++ (mid :: survivors).reverse ∧
      (survivors = [] ↔ (off + size = (lengthsOf heap ids).sum ∧
        ∃ final, post.getLast? = some final ∧ 0 < (bytesOf heap final).length)) := by
  have total := located_total located
  have offset := located.offset
  rcases eat_first_loop ok unshared located crosses bounded with
    ⟨loop, left, whole, survivors, done, reduced⟩
  have filled : whole ≠ [] := by
    intro empty
    rcases done.partly.mp empty with ⟨part, behind, isFirst, short⟩
    exact wholly ⟨part, behind, isFirst, by omega⟩
  have split := located.split
  subst split
  have nodup := chain_nodup done.chain.linked
  have midLast : [mid].getLast? = some mid := rfl
  have loopOk := done.chain
  rw [done.split] at loopOk
  rcases drop_eaten_first_eq left loopOk filled with
    ⟨last, detached, unlinkedHeap, isLast, -, -, unlinked, dropped⟩
  have lastMember : last ∈ whole := List.mem_of_getLast? isLast
  have fromMid : ChainOk loop (some mid) ([mid] ++ (whole ++ survivors)) :=
    (chain_ok_append.mp loopOk).2.2
  have keptOk := unlinked_kept fromMid unlinked
  rw [if_neg (List.cons_ne_nil mid [])] at keptOk
  have inWhole : pre ++ ([mid] ++ survivors) ⊆ pre ++ mid :: post := by
    intro b member
    simp only [List.mem_append, List.mem_cons, done.split] at member ⊢
    tauto
  have apart : ∀ b ∈ pre, b ∉ [mid] ++ survivors := by
    intro b member also
    refine List.disjoint_of_nodup_append nodup member ?_
    simp only [List.mem_append, List.mem_cons, done.split] at also ⊢
    tauto
  rcases release_beside keptOk (unshared_subset inWhole (unlinked_unshared unlinked done.unshared))
    apart
    with ⟨final, released, effect, agree⟩
  refine ⟨final, whole, survivors, last, done.split, isLast, ?_, ?_, ?_, ?_, ?_⟩
  · have back : whole.getLast?.or (some mid) = whole.getLast? := by
      rw [isLast]
      rfl
    rw [reduced, back, dropped, released, Option.map_some]
    simp only [Option.some.injEq, head_is_mid ok]
  · intro b member
    rw [effect.bufs]
    simp only [List.mem_append, List.mem_cons, List.not_mem_nil, or_false] at member ⊢
    rw [if_pos member]
  · have preSegment := (chain_ok_append.mp done.chain).1
    apply segment_frame preSegment
    intro b member
    have notMid : b ≠ mid := fun same => apart b member (by simp [same])
    have notLast : b ≠ last := by
      intro same
      exact List.disjoint_of_nodup_append nodup member (by simp [done.split, same, lastMember])
    rw [agree_next (agree b member), unlinked_next unlinked]
    simp only [midLast, isLast, Option.some.injEq, Ne.symm notMid, Ne.symm notLast, if_false,
      Option.map_id_fun', id_eq]
  · rw [effect.deleted, unlinked.deleted, done.deleted]
    rfl
  · rw [done.finished]
    have sameTotal : size - (bytesOf heap mid).length = (lengthsOf heap post).sum ↔
        off + size = (lengthsOf heap (pre ++ mid :: post)).sum := by omega
    rw [sameTotal]

end TWlib.BufBlkEatOutcomes
