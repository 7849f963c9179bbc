import TWlib.BufBlkChain

/-!
# Operations that leave the readable content of the existing blocks alone

Making objects, counting another reference and filling a buffer nobody else knows
change no block that was there before, and of its MemBlk only the count. `Extends`
is the preorder of these changes, and a chain reads the same on both sides of it.
-/

namespace TWlib.BufBlkView

open TWlib.Lib.CellStore TWlib.Lib.LinkedChain TWlib.BufBlkHeap TWlib.BufBlkChain

set_option autoImplicit false

structure Extends (before after : Heap) : Prop where
  bufs : ∀ b blk, before.bufs.read b = some blk → after.bufs.read b = some blk
  mems : ∀ m mem, before.mems.read m = some mem →
    ∃ now, after.mems.read m = some now ∧ now.base = mem.base ∧ now.bytes = mem.bytes

variable {before middle after heap : Heap}

theorem extends_refl (heap : Heap) : Extends heap heap :=
  ⟨fun _ _ present => present, fun _ mem present => ⟨mem, present, rfl, rfl⟩⟩

theorem extends_trans (first : Extends before middle) (second : Extends middle after) :
    Extends before after := by
  refine ⟨fun b blk present => second.bufs b blk (first.bufs b blk present), ?_⟩
  intro m mem present
  rcases first.mems m mem present with ⟨between, betweenPresent, sameBase, sameBytes⟩
  rcases second.mems m between betweenPresent with ⟨now, nowPresent, base, bytes⟩
  exact ⟨now, nowPresent, base.trans sameBase, bytes.trans sameBytes⟩

/-! ## The changes -/

theorem extends_push_buf (ext : Extends before heap) (blk : BufBlk) :
    Extends before (heap.pushBuf blk).1 :=
  ⟨fun b old present => read_push_of_present (ext.bufs b old present) blk, ext.mems⟩

theorem extends_push_mem (ext : Extends before heap) (mem : MemBlk) :
    Extends before (heap.pushMem mem).1 := by
  refine ⟨ext.bufs, fun m old present => ?_⟩
  rcases ext.mems m old present with ⟨now, nowPresent, same⟩
  exact ⟨now, read_push_of_present nowPresent mem, same⟩

theorem extends_put_new_buf {b : BufId} {old : BufBlk} (ext : Extends before heap)
    (new : before.bufs.read b = none) (present : heap.bufs.read b = some old) (blk : BufBlk) :
    Extends before (heap.putBuf b blk) := by
  refine ⟨fun other known knownPresent => ?_, ext.mems⟩
  have different : other ≠ b := by
    rintro rfl
    simp [new] at knownPresent
  rw [read_put_buf present, if_neg different]
  exact ext.bufs other known knownPresent

theorem extends_put_new_mem {m : MemId} {old : MemBlk} (ext : Extends before heap)
    (new : before.mems.read m = none) (present : heap.mems.read m = some old) (mem : MemBlk) :
    Extends before (heap.putMem m mem) := by
  refine ⟨ext.bufs, fun other known knownPresent => ?_⟩
  have different : other ≠ m := by
    rintro rfl
    simp [new] at knownPresent
  rcases ext.mems other known knownPresent with ⟨now, nowPresent, same⟩
  refine ⟨now, ?_, same⟩
  rw [put_mem_mems, read_write present, if_neg different, nowPresent]

theorem checkout_eq {m : MemId} {mem : MemBlk} (present : heap.mems.read m = some mem) :
    heap.checkout m = some (heap.putMem m { mem with refCount := mem.refCount + 1 }) := by
  simp [Heap.checkout, present]

theorem extends_checkout {m : MemId} {mem : MemBlk} (ext : Extends before heap)
    (present : heap.mems.read m = some mem) :
    Extends before (heap.putMem m { mem with refCount := mem.refCount + 1 }) := by
  refine ⟨ext.bufs, fun other known knownPresent => ?_⟩
  rcases ext.mems other known knownPresent with ⟨now, nowPresent, sameBase, sameBytes⟩
  by_cases same : other = m
  · subst same
    cases Option.some.inj (present.symm.trans nowPresent)
    exact ⟨{ mem with refCount := mem.refCount + 1 }, by simp [read_write present], sameBase,
      sameBytes⟩
  · exact ⟨now, by simp [read_write present, same, nowPresent], sameBase, sameBytes⟩

/-! ## What the constructors make -/

section Constructors

variable (alloc : Alloc)

theorem new_mem_blk_read (heap : Heap) (size : Int) :
    ∃ mem, Heap.newMemBlk alloc heap size = heap.pushMem mem ∧ mem.refCount = 1 ∧
      mem.bytes.length ≤ size.toNat := by
  unfold Heap.newMemBlk
  cases given : alloc.malloc heap.mems.fresh size.toNat with
  | none => exact ⟨_, rfl, rfl, Nat.zero_le _⟩
  | some region => exact ⟨_, rfl, rfl, Nat.le_of_eq (alloc.exactSize _ _ _ _ given)⟩

theorem new_mem_blk_succeeds {alloc : Alloc} (succeeds : alloc.Succeeds) (heap : Heap)
    (size : Nat) :
    ∃ mem, Heap.newMemBlk alloc heap size = heap.pushMem mem ∧ mem.bytes.length = size := by
  rcases succeeds heap.mems.fresh size with ⟨base, bytes, given⟩
  refine ⟨⟨1, base, bytes, true⟩, ?_, alloc.exactSize _ _ _ _ given⟩
  simp [Heap.newMemBlk, given]

theorem push_mem_read (heap : Heap) (mem : MemBlk) :
    (heap.pushMem mem).1.mems.read heap.mems.fresh = some mem := by
  simp [Heap.pushMem, read_push]

theorem push_buf_read (heap : Heap) (blk : BufBlk) :
    (heap.pushBuf blk).1.bufs.read heap.bufs.fresh = some blk := by
  simp [Heap.pushBuf, read_push]

theorem new_buf_blk_over_eq (heap : Heap) (mem : MemBlk) (follow : Option BufId) :
    Heap.newBufBlkOver alloc (heap.pushMem mem) follow =
      (heap.pushMem mem).1.pushBuf
        { blk := some heap.mems.fresh, rdPtr := mem.base, wrPtr := mem.base, mark := mem.base,
          nextblk := follow, flags := alloc.staleFlags heap.bufs.fresh } := by
  have read := push_mem_read heap mem
  simp only [Heap.newBufBlkOver]
  rw [show (heap.pushMem mem).2 = heap.mems.fresh from rfl, read]
  rfl

end Constructors

/-! ## What they leave -/

theorem load_congr {left right : MemBlk} (sameBase : left.base = right.base)
    (sameBytes : left.bytes = right.bytes) : left.load = right.load := by
  cases left
  cases right
  cases sameBase
  cases sameBytes
  rfl

section Left

variable (ext : Extends before after)
include ext

theorem extends_next {b : BufId} {follow : Option BufId} (step : before.next b = some follow) :
    after.next b = some follow := by
  rcases read_of_next step with ⟨blk, present, same⟩
  rw [next_of_read (ext.bufs b blk present), same]

theorem extends_block_ok {b : BufId} (ok : BlockOk before b) : BlockOk after b := by
  rcases ok with ⟨blk, present, inside⟩
  refine ⟨blk, ext.bufs b blk present, ?_⟩
  cases owner : blk.blk with
  | none => simpa [owner] using inside
  | some m =>
      rw [owner] at inside
      rcases inside with ⟨mem, memPresent, low, order, high⟩
      rcases ext.mems m mem memPresent with ⟨now, nowPresent, sameBase, sameBytes⟩
      refine ⟨now, nowPresent, ?_⟩
      rw [MemBlk.size, sameBase, sameBytes]
      exact ⟨low, order, high⟩

theorem extends_block_bytes {b : BufId} (ok : BlockOk before b) :
    after.blockBytes b = before.blockBytes b := by
  rcases ok with ⟨blk, present, inside⟩
  simp only [Heap.blockBytes, present, ext.bufs b blk present, Option.bind_eq_bind,
    Option.bind_some, Heap.readable]
  cases owner : blk.blk with
  | none => rfl
  | some m =>
      rw [owner] at inside
      rcases inside with ⟨mem, memPresent, -⟩
      rcases ext.mems m mem memPresent with ⟨now, nowPresent, sameBase, sameBytes⟩
      simp only [memPresent, nowPresent, Option.bind_some, load_congr sameBase sameBytes]

theorem extends_bytes_of {b : BufId} (ok : BlockOk before b) :
    bytesOf after b = bytesOf before b := by
  rw [bytesOf, bytesOf, extends_block_bytes ext ok]

theorem extends_chain_ok {start : Option BufId} {ids : List BufId} (ok : ChainOk before start ids) :
    ChainOk after start ids := by
  refine ⟨chain_frame ok.linked fun b member => ?_, fun b member =>
    extends_block_ok ext (ok.inside b member)⟩
  rcases segment_exists ok.linked b member with ⟨follow, step⟩
  rw [step, extends_next ext step]

end Left

end TWlib.BufBlkView
