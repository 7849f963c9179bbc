import TWlib.BufBlkEatOutcomes

/-!
# When `eatBytes` deletes a slice

The content and the ownership of the blocks are two questions. Both are answered
for every slice of every chain; only a slice that begins with the first byte of a
block and crosses the block's end depends on what lies around the block.
-/

namespace TWlib.BufBlkEatBytes

open TWlib.Lib.CellStore TWlib.Lib.LinkedChain TWlib.Lib.ListSlice
open TWlib.BufBlkHeap TWlib.BufBlkChain TWlib.BufBlkSeek TWlib.BufBlkUnlink TWlib.BufBlkEat
open TWlib.BufBlkEatCases TWlib.BufBlkEatOutcomes

set_option autoImplicit false

/-! ## The two properties -/

/-- The chain returned reads as the chain given without the bytes `off .. off + size - 1`. -/
def EatsSlice (heap : Heap) (this : BufId) (off size : Nat) : Prop :=
  ∃ before after head, heap.contents (some this) = some before ∧
    eatBytes heap this off size = some (after, head) ∧
      after.contents head = some (eraseSlice off size before)

/-- Every block is reachable from the head returned or was deleted once, and what is
reachable is alive, with its MemBlk. `log` lists the deletes of this call. -/
def KeepsOrDeletes (heap : Heap) (this : BufId) (ids : List BufId) (off size : Nat) : Prop :=
  ∃ after head log, eatBytes heap this off size = some (after, head) ∧
    after.deleted = heap.deleted ++ log ∧
      (∀ b ∈ ids, (Reachable after.next head b ∧ log.count b = 0) ∨
        (¬Reachable after.next head b ∧ log.count b = 1)) ∧
          ∀ b, Reachable after.next head b → BlockOk after b

/-! ## The slices in question -/

/-- The block after `mid` outlasts a slice that begins with the first byte of `mid`. -/
def EndsInNext (heap : Heap) (mid : BufId) (post : List BufId) (size : Nat) : Prop :=
  ∃ following behind, post = following :: behind ∧
    size < (bytesOf heap mid).length + (bytesOf heap following).length

/-- The slice takes the rest of the chain, and the chain does not end in an empty block. -/
def TakesAll (heap : Heap) (ids post : List BufId) (off size : Nat) : Prop :=
  off + size = (lengthsOf heap ids).sum ∧
    ∃ last, post.getLast? = some last ∧ 0 < (bytesOf heap last).length

/-- A slice from the first byte of a block to beyond its last must begin in the first block
with bytes, and reach into the next block only or to the end of the chain. -/
def ContentSafe (heap : Heap) (ids : List BufId) (off size : Nat) : Prop :=
  ∀ pre mid post, Located heap ids off pre mid post 0 → (bytesOf heap mid).length < size →
    pre = [] ∧ (EndsInNext heap mid post size ∨ TakesAll heap ids post off size)

/-- Such a slice must begin behind the head of the chain and reach into the next block only. -/
def OwnershipSafe (heap : Heap) (ids : List BufId) (off size : Nat) : Prop :=
  ∀ pre mid post, Located heap ids off pre mid post 0 → (bytesOf heap mid).length < size →
    pre ≠ [] ∧ EndsInNext heap mid post size

section Outcomes

variable {heap : Heap} {this : BufId} {ids pre post : List BufId} {mid : BufId}
    {off rest size : Nat}

theorem eat_elsewhere (ok : ChainOk heap (some this) ids) (unshared : Unshared heap ids)
    (located : Located heap ids off pre mid post rest)
    (bounded : off + size ≤ (lengthsOf heap ids).sum)
    (elsewhere : rest = 0 → size ≤ (bytesOf heap mid).length) :
    ∃ after head kept gone, eatBytes heap this off size = some (after, head) ∧
      Erased heap ids off size after head kept gone := by
  rcases Nat.lt_trichotomy (rest + size) (bytesOf heap mid).length with within | exactly | across
  · rcases eat_within ok unshared located within with ⟨after, done, erased⟩
    exact ⟨after, some this, ids, [], done, erased⟩
  · exact eat_exact ok unshared located exactly
  · have later : 0 < rest := by omega
    exact eat_across_later ok unshared located later across bounded

theorem erased_eats_slice {after : Heap} {head : Option BufId} {kept gone : List BufId}
    (ok : ChainOk heap (some this) ids) (done : eatBytes heap this off size = some (after, head))
    (erased : Erased heap ids off size after head kept gone) : EatsSlice heap this off size := by
  refine ⟨_, after, head, contents_of_chain ok, done, ?_⟩
  rw [contents_of_chain erased.chain, erased.content]

theorem erased_keeps_or_deletes {after : Heap} {head : Option BufId} {kept gone : List BufId}
    (ok : ChainOk heap (some this) ids) (done : eatBytes heap this off size = some (after, head))
    (erased : Erased heap ids off size after head kept gone) :
    KeepsOrDeletes heap this ids off size := by
  have nodup : (kept ++ gone).Nodup := erased.parted.nodup_iff.mp (chain_nodup ok.linked)
  have apart := List.disjoint_of_nodup_append nodup
  have reach := reachable_iff_mem erased.chain.linked
  refine ⟨after, head, gone, done, erased.deleted, fun b member => ?_, fun b reachable => ?_⟩
  · rcases List.mem_append.mp (erased.parted.mem_iff.mp member) with inKept | inGone
    · exact .inl ⟨(reach b).mpr inKept, List.count_eq_zero.mpr (apart inKept)⟩
    · refine .inr ⟨fun reachable => apart ((reach b).mp reachable) inGone, ?_⟩
      exact List.count_eq_one_of_mem (List.nodup_append.mp nodup).2.1 inGone
  · exact erased.chain.inside b ((reach b).mp reachable)

/-! ## The next block is eaten in part -/

/-- With `mid` first, it is dropped from the chain and the next block becomes the head. -/
theorem partly_first_eats_slice (ok : ChainOk heap (some this) ids) (unshared : Unshared heap ids)
    (located : Located heap ids off [] mid post 0) (crosses : (bytesOf heap mid).length < size)
    (bounded : off + size ≤ (lengthsOf heap ids).sum) (partly : EndsInNext heap mid post size) :
    EatsSlice heap this off size := by
  rcases eat_first_partly ok unshared located crosses bounded partly with ⟨after, left, done, loop⟩
  have behind : ChainOk after post.head? post := by
    have whole : ChainOk after (some this) ([mid] ++ post) := loop.chain
    exact (chain_ok_append.mp whole).2.2
  refine ⟨_, after, _, contents_of_chain ok, done, ?_⟩
  rw [if_pos rfl, contents_of_chain behind, loop.content,
    located_erase_across located (size - (bytesOf heap mid).length) (by omega)]
  simp

theorem partly_later_not_eats_slice (ok : ChainOk heap (some this) ids)
    (unshared : Unshared heap ids) (located : Located heap ids off pre mid post 0)
    (crosses : (bytesOf heap mid).length < size) (bounded : off + size ≤ (lengthsOf heap ids).sum)
    (partly : EndsInNext heap mid post size) (behindHead : pre ≠ []) :
    ¬EatsSlice heap this off size := by
  rintro ⟨before, after, head, read, done, result⟩
  rcases eat_first_partly ok unshared located crosses bounded partly with ⟨found, left, again, loop⟩
  rw [if_neg behindHead, done, Option.some.injEq, Prod.mk.injEq] at again
  rcases again with ⟨rfl, rfl⟩
  rw [contents_of_chain ok, Option.some.injEq] at read
  rw [contents_of_chain loop.chain, Option.some.injEq, ← read] at result
  have total := located_total located
  have lengthEq := congrArg List.length result
  have front := flat_bytes_congr loop.front
  have midInside : 0 < (bytesOf heap mid).length := located.inside
  have erased := erase_slice_length off size (ids.flatMap (bytesOf heap))
    (by rw [← lengths_sum]; exact bounded)
  have regroup : pre ++ mid :: post = (pre ++ [mid]) ++ post := by simp
  rw [regroup, List.flatMap_append, front, loop.content] at lengthEq
  simp only [List.length_append, List.flatMap_append, List.flatMap_singleton, List.length_drop,
    ← lengths_sum] at lengthEq erased
  omega

theorem partly_later_keeps_or_deletes (ok : ChainOk heap (some this) ids)
    (unshared : Unshared heap ids) (located : Located heap ids off pre mid post 0)
    (crosses : (bytesOf heap mid).length < size) (bounded : off + size ≤ (lengthsOf heap ids).sum)
    (partly : EndsInNext heap mid post size) (behindHead : pre ≠ []) :
    KeepsOrDeletes heap this ids off size := by
  rcases eat_first_partly ok unshared located crosses bounded partly with ⟨after, left, done, loop⟩
  rw [if_neg behindHead] at done
  have reach := reachable_iff_mem loop.chain.linked
  rw [← located.split] at reach
  refine ⟨after, some this, [], done, by simp [loop.deleted], fun b member => ?_,
    fun b reachable => ?_⟩
  · exact .inl ⟨(reach b).mpr member, by simp⟩
  · apply loop.chain.inside
    rw [← located.split]
    exact (reach b).mp reachable

theorem partly_first_not_keeps_or_deletes (ok : ChainOk heap (some this) ids)
    (unshared : Unshared heap ids)
    (located : Located heap ids off [] mid post 0) (crosses : (bytesOf heap mid).length < size)
    (bounded : off + size ≤ (lengthsOf heap ids).sum) (partly : EndsInNext heap mid post size) :
    ¬KeepsOrDeletes heap this ids off size := by
  rintro ⟨after, head, log, done, deleted, parted, -⟩
  rcases eat_first_partly ok unshared located crosses bounded partly with ⟨found, left, again, loop⟩
  rw [if_pos rfl, done, Option.some.injEq, Prod.mk.injEq] at again
  rcases again with ⟨rfl, rfl⟩
  have nothing : log = [] := by simpa [loop.deleted] using deleted
  have whole : Chain after.next (some this) ([mid] ++ post) := loop.chain.linked
  have behind := ((chain_append _ _ _).mp whole).2
  have apart : mid ∉ post := (List.nodup_cons.mp (chain_nodup whole)).1
  have member : mid ∈ ids := by simp [located.split]
  rcases parted mid member with ⟨reachable, -⟩ | ⟨-, once⟩
  · exact apart ((reachable_iff_mem behind mid).mp reachable)
  · simp [nothing] at once

/-! ## The next block is eaten whole -/

theorem wholly_eats_slice_iff (ok : ChainOk heap (some this) ids) (unshared : Unshared heap ids)
    (located : Located heap ids off pre mid post 0) (crosses : (bytesOf heap mid).length < size)
    (bounded : off + size ≤ (lengthsOf heap ids).sum) (wholly : ¬EndsInNext heap mid post size) :
    EatsSlice heap this off size ↔ pre = [] ∧ TakesAll heap ids post off size := by
  rcases eat_first_wholly ok unshared located crosses bounded wholly with
    ⟨after, whole, survivors, last, split, isLast, done, gone, segment, deleted, finished⟩
  constructor
  · rintro ⟨before, found, head, read, again, result⟩
    rw [done, Option.some.injEq, Prod.mk.injEq] at again
    rcases again with ⟨rfl, rfl⟩
    by_cases first : pre = []
    · refine ⟨first, finished.mp ?_⟩
      by_contra filled
      rcases List.exists_cons_of_ne_nil filled with ⟨survivor, others, rfl⟩
      have here : Segment after.next (some survivor) [] (some survivor) := (segment_nil _ _).mpr rfl
      have walk := contents_from_gone after.bufs.fresh here (gone survivor (by simp))
      rw [if_pos first, List.head?_cons, Heap.contents, walk] at result
      cases result
    · have walk := contents_from_gone after.bufs.fresh segment (gone mid (by simp))
      rw [if_neg first, Heap.contents, walk] at result
      cases result
  · rintro ⟨first, takesAll⟩
    have nothing := finished.mpr takesAll
    subst first nothing
    have offset : off = 0 := by simpa [lengthsOf] using located.offset
    have everything := takesAll.1
    rw [offset, Nat.zero_add, lengths_sum] at everything
    refine ⟨_, after, none, contents_of_chain ok, by simpa using done, ?_⟩
    rw [offset, erase_slice_tail 0 size _ (by omega)]
    simp [contents_none]

/-- The last block eaten whole is neither reachable nor deleted. -/
theorem wholly_not_keeps_or_deletes (ok : ChainOk heap (some this) ids)
    (unshared : Unshared heap ids) (located : Located heap ids off pre mid post 0)
    (crosses : (bytesOf heap mid).length < size) (bounded : off + size ≤ (lengthsOf heap ids).sum)
    (wholly : ¬EndsInNext heap mid post size) :
    ¬KeepsOrDeletes heap this ids off size := by
  rintro ⟨found, head, log, again, logged, parted, -⟩
  rcases eat_first_wholly ok unshared located crosses bounded wholly with
    ⟨after, whole, survivors, last, split, isLast, done, gone, segment, deleted, -⟩
  rw [done, Option.some.injEq, Prod.mk.injEq] at again
  rcases again with ⟨rfl, rfl⟩
  have logEq : log = (mid :: survivors).reverse := by simpa [logged] using deleted
  have nodup := chain_nodup ok.linked
  have lastWhole : last ∈ whole := List.mem_of_getLast? isLast
  rw [located.split, split] at nodup
  have lastOutside : last ∉ pre ∧ last ≠ mid ∧ last ∉ survivors := by
    simp only [List.nodup_append, List.nodup_cons, List.mem_append, List.mem_cons] at nodup
    refine ⟨fun inPre => ?_, fun same => ?_, fun inSurvivors => ?_⟩
    · exact nodup.2.2 last inPre last (.inr (.inl lastWhole)) rfl
    · exact nodup.2.1.1 (.inl (same ▸ lastWhole))
    · exact nodup.2.1.2.2.2 last lastWhole last inSurvivors rfl
  have member : last ∈ ids := by simp [located.split, split, lastWhole]
  rcases parted last member with ⟨reachable, -⟩ | ⟨-, once⟩
  · by_cases first : pre = []
    · rw [if_pos first] at reachable
      cases survivors with
      | nil => cases reachable
      | cons survivor others =>
          have survivorGone : after.next survivor = none := by
            simp [Heap.next, gone survivor (by simp)]
          have here : Segment after.next (some survivor) [] (some survivor) :=
            (segment_nil _ _).mpr rfl
          rcases reachable_of_segment_gone here survivorGone reachable with inside | same
          · exact List.not_mem_nil inside
          · exact lastOutside.2.2 (by simp [same])
    · rw [if_neg first] at reachable
      have midGone : after.next mid = none := by simp [Heap.next, gone mid (by simp)]
      rcases reachable_of_segment_gone segment midGone reachable with inPre | same
      · exact lastOutside.1 inPre
      · exact lastOutside.2.1 same
  · have absent : last ∉ log := by
      rw [logEq, List.mem_reverse, List.mem_cons, not_or]
      exact lastOutside.2
    rw [List.count_eq_zero.mpr absent] at once
    cases once

end Outcomes

/-! ## The results -/

theorem eat_bytes_deletes_slice_iff {heap : Heap} {this : BufId} {ids : List BufId} {off size : Nat}
    {content : List Byte} (ok : ChainOk heap (some this) ids) (unshared : Unshared heap ids)
    (positive : 0 < size) (reads : heap.contents (some this) = some content)
    (bounded : off + size ≤ content.length) :
    EatsSlice heap this off size ↔ ContentSafe heap ids off size := by
  have bound : off + size ≤ (lengthsOf heap ids).sum := content_length ok reads ▸ bounded
  constructor
  · intro eats pre mid post located crosses
    by_cases partly : EndsInNext heap mid post size
    · refine ⟨?_, .inl partly⟩
      by_contra behindHead
      exact partly_later_not_eats_slice ok unshared located crosses bound partly behindHead eats
    · rcases (wholly_eats_slice_iff ok unshared located crosses bound partly).mp eats with ⟨first,
        all⟩
      exact ⟨first, .inr all⟩
  · intro safe
    rcases seek_inside off ok (by omega) with ⟨pre, mid, post, rest, located, -⟩
    by_cases crosses : rest = 0 ∧ (bytesOf heap mid).length < size
    · rcases crosses with ⟨rfl, crosses⟩
      rcases safe pre mid post located crosses with ⟨rfl, partly | all⟩
      · exact partly_first_eats_slice ok unshared located crosses bound partly
      · by_cases partly : EndsInNext heap mid post size
        · exact partly_first_eats_slice ok unshared located crosses bound partly
        · exact (wholly_eats_slice_iff ok unshared located crosses bound partly).mpr ⟨rfl, all⟩
    · rcases eat_elsewhere ok unshared located bound (by omega) with
        ⟨after, head, kept, gone, done, erased⟩
      exact erased_eats_slice ok done erased

theorem eat_bytes_deletes_slice_iff_three_blocks :
    EatsSlice threeBlocks 0 1 4 ↔ ContentSafe threeBlocks [0, 1, 2] 1 4 :=
  eat_bytes_deletes_slice_iff three_blocks_ok three_blocks_unshared (by decide)
    (by decide : threeBlocks.contents (some 0) = some [1, 2, 3, 4, 5, 6]) (by decide)

/-- The first two blocks of three: the third, which should be all that is left, is deleted. -/
theorem eat_bytes_not_always_deletes_slice :
    ¬∀ (heap : Heap) (this : BufId) (ids : List BufId) (off size : Nat) (content : List Byte),
      ChainOk heap (some this) ids → Unshared heap ids → 0 < size →
        heap.contents (some this) = some content → off + size ≤ content.length →
          EatsSlice heap this off size := by
  intro always
  rcases always threeBlocks 0 [0, 1, 2] 0 4 [1, 2, 3, 4, 5,
    6] three_blocks_ok three_blocks_unshared (by decide)
    (by decide) (by decide) with ⟨before, after, head, -, done, result⟩
  have walk : (eatBytes threeBlocks 0 (0 : Nat) (4 : Nat)).bind (fun out => out.1.contents out.2) =
      none := by decide
  rw [done, Option.bind_some, result] at walk
  cases walk

theorem eat_bytes_keeps_or_deletes_iff {heap : Heap} {this : BufId} {ids : List BufId}
    {off size : Nat} {content : List Byte} (ok : ChainOk heap (some this) ids)
    (unshared : Unshared heap ids) (positive : 0 < size)
    (reads : heap.contents (some this) = some content) (bounded : off + size ≤ content.length) :
    KeepsOrDeletes heap this ids off size ↔ OwnershipSafe heap ids off size := by
  have bound : off + size ≤ (lengthsOf heap ids).sum := content_length ok reads ▸ bounded
  constructor
  · intro keeps pre mid post located crosses
    by_cases partly : EndsInNext heap mid post size
    · refine ⟨?_, partly⟩
      rintro rfl
      exact partly_first_not_keeps_or_deletes ok unshared located crosses bound partly keeps
    · exact absurd keeps (wholly_not_keeps_or_deletes ok unshared located crosses bound partly)
  · intro safe
    rcases seek_inside off ok (by omega) with ⟨pre, mid, post, rest, located, -⟩
    by_cases crosses : rest = 0 ∧ (bytesOf heap mid).length < size
    · rcases crosses with ⟨rfl, crosses⟩
      rcases safe pre mid post located crosses with ⟨behindHead, partly⟩
      exact partly_later_keeps_or_deletes ok unshared located crosses bound partly behindHead
    · rcases eat_elsewhere ok unshared located bound (by omega) with
        ⟨after, head, kept, gone, done, erased⟩
      exact erased_keeps_or_deletes ok done erased

theorem eat_bytes_keeps_or_deletes_iff_three_blocks :
    KeepsOrDeletes threeBlocks 0 [0, 1, 2] 2 3 ↔ OwnershipSafe threeBlocks [0, 1, 2] 2 3 :=
  eat_bytes_keeps_or_deletes_iff three_blocks_ok three_blocks_unshared (by decide)
    (by decide : threeBlocks.contents (some 0) = some [1, 2, 3, 4, 5, 6]) (by decide)

/-- The head returned is a block that was deleted, and the second block is lost, although
nothing else refers to the MemBlks. -/
theorem eat_bytes_not_always_keeps_or_deletes :
    ¬∀ (heap : Heap) (this : BufId) (ids : List BufId) (off size : Nat) (content : List Byte),
      ChainOk heap (some this) ids → Unshared heap ids →
        (∀ m mem, heap.mems.read m = some mem → mem.refCount = 1) → 0 < size →
          heap.contents (some this) = some content → off + size ≤ content.length →
            KeepsOrDeletes heap this ids off size := by
  intro always
  rcases always threeBlocks 0 [0, 1, 2] 0 4 [1, 2, 3, 4, 5, 6] three_blocks_ok three_blocks_unshared
    three_blocks_single (by decide) (by decide) (by decide) with ⟨after, head, log, done,
      -, -, alive⟩
  have outcome : (eatBytes threeBlocks 0 (0 : Nat) (4 : Nat)).map
      (fun out => (out.2, out.1.bufs.read 2)) = some (some 2, none) := by decide
  simp only [done, Option.map_some, Option.some.injEq, Prod.mk.injEq] at outcome
  rcases outcome with ⟨rfl, gone⟩
  rcases alive 2 (.here 2) with ⟨blk, present, -⟩
  rw [gone] at present
  cases present

end TWlib.BufBlkEatBytes
