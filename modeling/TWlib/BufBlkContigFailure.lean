import TWlib.BufBlkContig

/-!
# A `BufBlk::getContigBlock` that fails

Whether the slice fits is found out while it is copied, and by then `outblk` is a new block
already. A failure leaves everything as it was only where nothing is copied: the offset is in
the last block or behind it.
-/

namespace TWlib.BufBlkContigFailure

open TWlib.Lib.CellStore TWlib.Lib.LinkedChain TWlib.BufBlkHeap TWlib.BufBlkChain TWlib.BufBlkSeek
  TWlib.BufBlkView TWlib.BufBlkContig

set_option autoImplicit false

/-- The MemBlk and the positions that an out-parameter refers to. -/
def refersTo (heap : Heap) (out : Option BufId) : Option (Option MemId × Int × Int) :=
  (out.bind heap.bufs.read).map fun blk => (blk.blk, blk.rdPtr, blk.wrPtr)

/-- The out-parameter, which was `prior` and is `now`, refers to what it did, and the same MemBlks
exist with the same counts. -/
structure Untouched (before after : Heap) (prior now : Option BufId) : Prop where
  out : refersTo after now = refersTo before prior
  counts : ∀ m, (after.mems.read m).map MemBlk.refCount = (before.mems.read m).map MemBlk.refCount

variable {before heap after : Heap} {alloc : Alloc} {this mid : BufId} {ids pre post : List BufId}
  {off size : Int} {prior out : Option BufId}

/-! ## Where the slice starts -/

/-- A negative offset is taken to be in the first block. -/
theorem seek_cases (off : Int) (ok : ChainOk before (some this) ids) :
    (∃ need last, seek before.bufs.fresh before off (some this) none = some (need, none, last) ∧
      ((lengthsOf before ids).sum : Int) ≤ off) ∨
    ∃ pre mid post need last, seek before.bufs.fresh before off (some this) none = some (need,
      some mid, last) ∧
      ids = pre ++ mid :: post ∧ need < (bytesOf before mid).length ∧
      (pre = [] ∧ off < 0 ∨ ((lengthsOf before pre).sum : Int) ≤ off ∧
        off < (lengthsOf before pre).sum + (bytesOf before mid).length) := by
  have bound := chain_bound ok.linked
  by_cases nonneg : 0 ≤ off
  · have natural : ((off.toNat : Nat) : Int) = off := Int.toNat_of_nonneg nonneg
    rcases seek_chain before.bufs.fresh off.toNat none ok bound with
      ⟨pre, mid, post, rest, located, found⟩ | ⟨short, need, last, found⟩
    · rw [natural] at found
      have offset := located.offset
      have inside := located.inside
      exact .inr ⟨pre, mid, post, rest, _, found, located.split, by omega, .inr (by omega)⟩
    · rw [natural] at found
      exact .inl ⟨need, last, found, by omega⟩
  · cases ids with
    | nil => cases ok.linked
    | cons first rest =>
        have same : this = first := Option.some.inj ok.linked.1
        subst same
        refine .inr ⟨[], this, rest, off, none, ?_, rfl, by omega, .inl ⟨rfl, by omega⟩⟩
        cases fresh : before.bufs.fresh with
        | zero =>
            rw [fresh] at bound
            cases bound
        | succ fuel => rw [seek, if_neg nonneg]

theorem last_block_iff (split : ids = pre ++ mid :: post)
    (offset : pre = [] ∧ off < 0 ∨ ((lengthsOf before pre).sum : Int) ≤ off ∧
      off < (lengthsOf before pre).sum + (bytesOf before mid).length) :
    post = [] ↔ ids.length = 1 ∨ ((lengthsOf before ids.dropLast).sum : Int) ≤ off := by
  subst split
  cases post with
  | nil =>
      have others : (pre ++ [mid]).dropLast = pre := List.dropLast_concat
      simp only [true_iff, others]
      rcases offset with ⟨rfl, -⟩ | ⟨low, -⟩
      · exact .inl rfl
      · exact .inr low
  | cons following behind =>
      have others : (pre ++ mid :: following :: behind).dropLast = pre ++ mid ::
          (following :: behind).dropLast := by
        rw [List.dropLast_append_of_ne_nil (List.cons_ne_nil _ _),
          List.dropLast_cons_of_ne_nil (List.cons_ne_nil _ _)]
      have total : (lengthsOf before (pre ++ mid :: (following :: behind).dropLast)).sum =
          (lengthsOf before pre).sum + ((bytesOf before mid).length +
            (lengthsOf before (following :: behind).dropLast).sum) := by
        rw [lengths_append, lengths_cons]
      rw [others, total]
      constructor
      · intro same
        cases same
      · rintro (single | beyond)
        · simp only [List.length_append, List.length_cons] at single
          omega
        · rw [Int.natCast_add] at beyond
          rcases offset with ⟨rfl, negative⟩ | ⟨low, high⟩ <;> omega

/-! ## What the copying leaves -/

theorem copy_from_alive {b : BufId} {data : List Byte} {count : Int}
    (copied : heap.copyFrom b data = some (after, count)) (m : MemId) :
    (after.mems.read m).isSome = (heap.mems.read m).isSome := by
  rcases Option.bind_eq_some_iff.mp copied with ⟨blk, present, onMem⟩
  rcases Option.bind_eq_some_iff.mp onMem with ⟨own, owner, onRead⟩
  rcases Option.bind_eq_some_iff.mp onRead with ⟨mem, memPresent, written⟩
  simp only [Option.bind_eq_bind] at written
  split_ifs at written with enough fits <;> first
    | cases written
    | (rcases Option.bind_eq_some_iff.mp written with ⟨full, stored, same⟩
       cases same
       simp only [put_buf_mems, put_mem_mems, read_write memPresent]
       by_cases here : m = own
       · simp [here, memPresent]
       · simp [here])

theorem copy_loop_alive {outblk : BufId} {fuel : Nat} {total left : Int} {look : Option BufId}
    (looped : copyLoop fuel heap outblk total look = some (after, left)) (m : MemId) :
    (after.mems.read m).isSome = (heap.mems.read m).isSome := by
  induction fuel generalizing heap total look with
  | zero =>
      cases look with
      | none =>
          cases looped
          rfl
      | some b => cases looped
  | succ fuel ih =>
      cases look with
      | none =>
          cases looped
          rfl
      | some b =>
          simp only [copyLoop] at looped
          split_ifs at looped with positive
          · rcases Option.bind_eq_some_iff.mp looped with ⟨blk, present, onData⟩
            rcases Option.bind_eq_some_iff.mp onData with ⟨data, read, onCopy⟩
            rcases Option.bind_eq_some_iff.mp onCopy with ⟨⟨middle, count⟩, copied, rest⟩
            rw [ih rest, copy_from_alive copied]
          · cases looped
            rfl

/-! ## The failure -/

theorem failure_cases (ok : ChainOk before (some this) ids)
    (failed : getContigBlock alloc before this off size = some (after, false, out)) :
    (after = before ∧ out = none ∧ (ids.length = 1 ∨
      ((lengthsOf before ids.dropLast).sum : Int) ≤ off)) ∨
    ((after.mems.read before.mems.fresh).isSome ∧
      ¬ (ids.length = 1 ∨ ((lengthsOf before ids.dropLast).sum : Int) ≤ off)) := by
  rcases seek_cases off ok with ⟨need, last, found, beyond⟩ | ⟨pre, mid, post, need, last, found,
    split, inside, offset⟩
  · simp only [getContigBlock, found, Option.bind_eq_bind, Option.bind_some, Option.some.injEq,
      Prod.mk.injEq,
      true_and] at failed
    refine .inl ⟨failed.1.symm, failed.2.symm, .inr ?_⟩
    rcases List.eq_nil_or_concat ids with rfl | ⟨front, final, rfl⟩
    · cases ok.linked
    · rw [List.concat_eq_append, lengths_append] at beyond
      rw [List.concat_eq_append, List.dropLast_concat]
      rw [Int.natCast_add] at beyond
      omega
  · rw [← last_block_iff split offset]
    have behind := (chain_ok_append.mp (split ▸ ok)).2.2
    rcases chain_ok_cons behind with ⟨-, blk, present, -, length, tail⟩
    have follow : blk.nextblk = post.head? := chain_start tail.linked
    have reaches : blk.length > need := by omega
    simp only [getContigBlock, found, Option.bind_eq_bind, Option.bind_some, present,
      if_pos reaches] at failed
    split_ifs at failed with fits
    · rcases Option.bind_eq_some_iff.mp failed with ⟨made, -, onRead⟩
      rcases Option.bind_eq_some_iff.mp onRead with ⟨_, -, same⟩
      cases same
    · cases post with
      | nil =>
          rw [follow] at failed
          cases failed
          exact .inl ⟨rfl, rfl, rfl⟩
      | cons following others =>
          rw [follow] at failed
          simp only [List.head?_cons] at failed
          rcases Option.bind_eq_some_iff.mp failed with ⟨data, -, onCopy⟩
          rcases Option.bind_eq_some_iff.mp onCopy with ⟨⟨middle, count⟩, copied, onLoop⟩
          rcases Option.bind_eq_some_iff.mp onLoop with ⟨⟨final, left⟩, looped, same⟩
          simp only [Option.some.injEq, Prod.mk.injEq] at same
          rcases same with ⟨rfl, -, -⟩
          refine .inr ⟨?_, by simp⟩
          rw [copy_loop_alive looped, copy_from_alive copied]
          rcases new_mem_blk_read alloc before size with ⟨mem, made, -⟩
          rw [Heap.newBufBlkSize, made, new_buf_blk_over_eq]
          exact Option.isSome_iff_exists.mpr ⟨mem, push_mem_read before mem⟩

/-- A failing `getContigBlock` leaves `outblk` and all MemBlks as they were exactly if the slice
starts in the last block, or behind the readable bytes. -/
theorem get_contig_block_failure_iff (ok : ChainOk before (some this) ids)
    (failed : getContigBlock alloc before this off size = some (after, false, out)) :
    Untouched before after prior (out.or prior) ↔
      ids.length = 1 ∨ ((lengthsOf before ids.dropLast).sum : Int) ≤ off := by
  rcases failure_cases ok failed with ⟨rfl, rfl, atEnd⟩ | ⟨made, notAtEnd⟩
  · exact ⟨fun _ => atEnd, fun _ => ⟨rfl, fun m => rfl⟩⟩
  · constructor
    · intro untouched
      rcases Option.isSome_iff_exists.mp made with ⟨mem, present⟩
      have count := untouched.counts before.mems.fresh
      rw [present, read_beyond (Nat.le_refl _)] at count
      cases count
    · exact fun atEnd => absurd atEnd notAtEnd

/-- The third block of two bytes is asked for three. -/
theorem get_contig_block_failure_iff_last : Untouched threeBlocks threeBlocks (some 1) (some 1) ↔
    [0, 1, 2].length = 1 ∨ ((lengthsOf threeBlocks [0, 1, 2].dropLast).sum : Int) ≤ 4 := by
  have failed : getContigBlock zeroAlloc threeBlocks 0 4 3 = some (threeBlocks, false, none) := rfl
  exact get_contig_block_failure_iff three_blocks_ok failed

/-- Ten bytes from the second of six on: the call fails, the out-parameter, which was the third
block, is a new block of ten bytes with five of them written, and there is one more MemBlk. -/
theorem get_contig_block_failure_not_always_untouched :
    ∃ after, getContigBlock zeroAlloc threeBlocks 0 1 10 = some (after, false, some 3) ∧
      refersTo threeBlocks (some 2) = some (some 2, 300, 302) ∧
      refersTo after (some 3) = some (some 3, 4000, 4005) ∧
      threeBlocks.mems.read 3 = none ∧ (after.mems.read 3).map MemBlk.refCount = some 1 ∧
      ¬ Untouched threeBlocks after (some 2) (some 3) := by
  refine ⟨_, rfl, rfl, rfl, rfl, rfl, fun untouched => ?_⟩
  have out := untouched.out
  cases out

end TWlib.BufBlkContigFailure
