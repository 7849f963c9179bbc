import TWlib.BufBlkSeek
import TWlib.Lib.ListSlice

/-!
# `BufBlk::eatBytes`

The function is cut at its three ways of removing the bytes: from inside one
block, up to the end of one block, and across several. What each of them does to
the chain is stated as the chain it leaves and the blocks it releases.
-/

namespace TWlib.BufBlkEat

open TWlib.Lib.CellStore TWlib.Lib.LinkedChain TWlib.Lib.ListSlice
open TWlib.BufBlkHeap TWlib.BufBlkChain TWlib.BufBlkSeek

set_option autoImplicit false

/-! ## The code -/

/-- `ALLOC::memmove` inside the buffer of one block. -/
def moveBytes (heap : Heap) (blk : BufBlk) (dst src count : Int) : Option Heap := do
  let m ← blk.blk
  let mem ← heap.mems.read m
  let data ← mem.load src count
  let moved ← mem.store dst data
  some (heap.putMem m moved)

/-- The slice ends before the block does. -/
def eatWithin (heap : Heap) (look : BufId) (blk : BufBlk) (need size : Int) : Option Heap :=
  if need > 0 then do
    let heap ← moveBytes heap blk (blk.rdPtr + need) (blk.rdPtr + need + size)
      (blk.length - size - need)
    some (heap.putBuf look { blk with wrPtr := blk.wrPtr - size })
  else
    some (heap.putBuf look { blk with rdPtr := blk.rdPtr + size })

/-- `if(prev) prev->_nextblk = after`. -/
def relinkPrev (heap : Heap) (prev : Option BufId) (after : Option BufId) : Option Heap :=
  match prev with
  | none => some heap
  | some prev => heap.setNexblk prev after

/-- The slice ends exactly where the block does. -/
def eatExact (heap : Heap) (head prev : Option BufId) (look : BufId) (blk : BufBlk) (need : Int) :
    Option (Heap × Option BufId) :=
  if need > 0 then
    some (heap.putBuf look { blk with wrPtr := blk.rdPtr + need }, head)
  else do
    let heap ← relinkPrev heap prev blk.nextblk
    let head := if head = some look then blk.nextblk else head
    let heap ← heap.setNexblk look none
    let heap ← heap.release look
    some (heap, head)

/-- `while(look && size > 0)` over the blocks behind the first one. -/
def eatLoop : Nat → Heap → Int → Option BufId → Option BufId →
    Option (Heap × Int × Option BufId × Option BufId)
  | _, heap, size, none, back => some (heap, size, none, back)
  | 0, _, _, some _, _ => none
  | fuel + 1, heap, size, some look, back =>
      if size > 0 then do
        let blk ← heap.bufs.read look
        if size < blk.length then
          some (heap.putBuf look { blk with rdPtr := blk.rdPtr + size }, size, some look, back)
        else eatLoop fuel heap (size - blk.length) blk.nextblk (some look)
      else some (heap, size, some look, back)

/-- `if(front) { .. }`: unlink and release what was eaten whole. -/
def dropEaten (heap : Heap) (head : Option BufId) (prev : BufId) (front back look : Option BufId)
    (size : Int) : Option (Heap × Option BufId) :=
  match front with
  | none => some (heap, head)
  | some front => do
      let head := if some front = head then look else head
      if back ≠ some front then
        let back ← back
        let heap ← heap.setNexblk back none
        let heap ← heap.setNexblk prev look
        let heap ← heap.release front
        some (heap, head)
      else if prev ≠ front then
        if look = some front ∧ size ≠ 0 then some (heap, head)
        else
          let heap ← heap.setNexblk front none
          let heap ← heap.setNexblk prev look
          let heap ← heap.release front
          some (heap, head)
      else some (heap, head)

/-- The slice goes on behind the block. -/
def eatAcross (heap : Heap) (head : Option BufId) (look : BufId) (blk : BufBlk) (need size : Int) :
    Option (Heap × Option BufId) := do
  let frontsz := blk.length - need
  let shortened :=
    if need > 0 then heap.putBuf look { blk with wrPtr := blk.wrPtr - frontsz } else heap
  let front := if need > 0 then blk.nextblk else some look
  let (heap, size, last, back) ← eatLoop heap.bufs.fresh shortened
    (size - frontsz) blk.nextblk front
  dropEaten heap head look front back last size

/-- `BufBlk::eatBytes`: the heap afterwards and the new head. -/
def eatBytes (heap : Heap) (this : BufId) (rdOffset size : Int) : Option (Heap × Option BufId) := do
  let head := some this
  let (need, look, prev) ← seek heap.bufs.fresh heap rdOffset (some this) none
  match look with
  | none => some (heap, head)
  | some look =>
      let blk ← heap.bufs.read look
      if blk.length > need then
        if blk.length - need - size > 0 then
          let heap ← eatWithin heap look blk need size
          some (heap, head)
        else if blk.length - need - size = 0 then
          eatExact heap head prev look blk need
        else
          eatAcross heap head look blk need size
      else some (heap, head)

/-! ## Moving the ends of a block -/

theorem narrow_block {heap : Heap} {b : BufId} {blk : BufBlk} (low high : Nat)
    (present : heap.bufs.read b = some blk) (ok : BlockOk heap b)
    (fits : low + high ≤ (bytesOf heap b).length) :
    BlockOk (heap.putBuf b { blk with rdPtr := blk.rdPtr + low, wrPtr := blk.wrPtr - high }) b ∧
      bytesOf (heap.putBuf b { blk with rdPtr := blk.rdPtr + low, wrPtr := blk.wrPtr - high }) b =
        slice low ((bytesOf heap b).length - low - high) (bytesOf heap b) := by
  let after := heap.putBuf b { blk with rdPtr := blk.rdPtr + low, wrPtr := blk.wrPtr - high }
  change BlockOk after b ∧
    bytesOf after b = slice low ((bytesOf heap b).length - low - high) (bytesOf heap b)
  rcases block_ok_bytes ok with ⟨same, presentAgain, readable, length⟩
  cases Option.some.inj (present.symm.trans presentAgain)
  have now : after.bufs.read b =
      some { blk with rdPtr := blk.rdPtr + low, wrPtr := blk.wrPtr - high } := by
    simp [after, read_write present]
  rcases ok with ⟨same, presentAgain, inside⟩
  cases Option.some.inj (present.symm.trans presentAgain)
  have narrower : blk.wrPtr - high - (blk.rdPtr + low) =
      (((bytesOf heap b).length - low - high : Nat) : Int) := by
    simp only [BufBlk.length] at length
    omega
  cases owner : blk.blk with
  | none =>
      rw [owner] at inside
      have empty : (bytesOf heap b).length = 0 := by
        simp only [BufBlk.length] at length
        omega
      have nothing : bytesOf heap b = [] := List.eq_nil_of_length_eq_zero empty
      refine ⟨⟨_, now, ?_⟩, ?_⟩
      · simp only [owner]
        omega
      · have zero : blk.wrPtr - high - (blk.rdPtr + low) = 0 := by omega
        have gone : bytesOf after b = [] := by
          simp [bytesOf, Heap.blockBytes, now, Heap.readable, owner, BufBlk.length, zero]
        rw [gone, nothing]
        simp [slice]
  | some m =>
      rw [owner] at inside
      rcases inside with ⟨mem, memPresent, lower, order, upper⟩
      have memNow : after.mems.read m = some mem := by simpa [after] using memPresent
      simp only [BufBlk.length] at length
      refine ⟨⟨_, now, ?_⟩, ?_⟩
      · simp only [owner]
        exact ⟨mem, memNow, by omega, by omega, by omega⟩
      · have holds : mem.Holds (blk.rdPtr + low) (blk.wrPtr - high - (blk.rdPtr + low)) := by
          simp only [MemBlk.Holds]
          omega
        have wholeHolds : mem.Holds blk.rdPtr blk.length := by
          simp only [MemBlk.Holds, BufBlk.length]
          omega
        have whole := bytes_of_block present owner memPresent wholeHolds
        have start : (blk.rdPtr + low - mem.base).toNat = (blk.rdPtr - mem.base).toNat + low := by
          omega
        have narrow := bytes_of_block now owner memNow holds
        simp only [BufBlk.length] at narrow
        rw [narrow, narrower, start, Int.toNat_natCast, ← List.drop_drop]
        simp only [slice]
        rw [whole] at fits ⊢
        rw [List.drop_take, List.take_take]
        congr 1
        simp only [List.length_take, List.length_drop] at fits ⊢
        omega

theorem drop_block {heap : Heap} {b : BufId} {blk : BufBlk} (size : Nat)
    (present : heap.bufs.read b = some blk) (ok : BlockOk heap b)
    (fits : size ≤ (bytesOf heap b).length) :
    BlockOk (heap.putBuf b { blk with rdPtr := blk.rdPtr + size }) b ∧
      bytesOf (heap.putBuf b { blk with rdPtr := blk.rdPtr + size }) b =
        (bytesOf heap b).drop size := by
  have narrow := narrow_block size 0 present ok (by omega)
  simp only [Int.natCast_zero, Int.sub_zero, Nat.sub_zero] at narrow
  refine ⟨narrow.1, narrow.2.trans ?_⟩
  simp only [slice]
  rw [← List.length_drop, List.take_length]

theorem take_block {heap : Heap} {b : BufId} {blk : BufBlk} (kept : Nat)
    (present : heap.bufs.read b = some blk) (ok : BlockOk heap b)
    (fits : kept ≤ (bytesOf heap b).length) :
    BlockOk (heap.putBuf b { blk with wrPtr := blk.rdPtr + kept }) b ∧
      bytesOf (heap.putBuf b { blk with wrPtr := blk.rdPtr + kept }) b =
        (bytesOf heap b).take kept := by
  rcases block_ok_bytes ok with ⟨same, presentAgain, -, length⟩
  cases Option.some.inj (present.symm.trans presentAgain)
  have stop : blk.wrPtr - ((bytesOf heap b).length - kept : Nat) = blk.rdPtr + kept := by
    simp only [BufBlk.length] at length
    omega
  have narrow := narrow_block 0 ((bytesOf heap b).length - kept) present ok (by omega)
  rw [stop] at narrow
  simp only [Int.natCast_zero, Int.add_zero, Nat.sub_zero] at narrow
  refine ⟨narrow.1, narrow.2.trans ?_⟩
  have width : (bytesOf heap b).length - ((bytesOf heap b).length - kept) = kept := by omega
  rw [width]
  rfl

def movedMem (mem : MemBlk) (dst src count : Int) : MemBlk :=
  { mem with
    bytes := mem.bytes.take (dst - mem.base).toNat ++ slice (src - mem.base).toNat count.toNat
      mem.bytes ++
      mem.bytes.drop ((dst - mem.base).toNat + count.toNat) }

theorem move_bytes_eq {heap : Heap} {blk : BufBlk} {m : MemId} {mem : MemBlk} {dst src count : Int}
    (owner : blk.blk = some m) (memRead : heap.mems.read m = some mem) (from_ : mem.Holds src count)
    (onto : mem.Holds dst count) :
    moveBytes heap blk dst src count = some (heap.putMem m (movedMem mem dst src count)) ∧
      (movedMem mem dst src count).size = mem.size := by
  have loaded : mem.load src count = some (slice (src - mem.base).toNat count.toNat mem.bytes) := by
    rw [load_of_holds from_, slice]
  have length := load_length loaded
  have stored : mem.store dst (slice (src - mem.base).toNat count.toNat mem.bytes) =
      some (movedMem mem dst src count) := by
    rw [MemBlk.store, length, if_pos onto]
    simp only [movedMem, show (slice (src - mem.base).toNat count.toNat mem.bytes).length =
      count.toNat by omega]
  refine ⟨?_, ?_⟩
  · simp only [moveBytes, owner, memRead, loaded, stored, Option.bind_eq_bind, Option.bind_some]
  · simp only [MemBlk.Holds, MemBlk.size] at onto
    simp only [movedMem, MemBlk.size, List.length_append, List.length_take, List.length_drop]
    omega

/-- `memmove` over the slice and a shorter block. The moved MemBlk is the block's own. -/
theorem move_block {heap : Heap} {b : BufId} {blk : BufBlk} (off size : Nat)
    (present : heap.bufs.read b = some blk) (ok : BlockOk heap b)
    (fits : off + size < (bytesOf heap b).length) :
    ∃ m mem moved, blk.blk = some m ∧ heap.mems.read m = some mem ∧
      moved = movedMem mem (blk.rdPtr + off) (blk.rdPtr + off + size) (blk.length - size - off) ∧
      mem.Holds (blk.rdPtr + off + size) (blk.length - size - off) ∧
      mem.Holds (blk.rdPtr + off) (blk.length - size - off) ∧
      moveBytes heap blk (blk.rdPtr + off) (blk.rdPtr + off + size) (blk.length - size - off) =
        some (heap.putMem m moved) ∧
      BlockOk ((heap.putMem m moved).putBuf b { blk with wrPtr := blk.wrPtr - size }) b ∧
      bytesOf ((heap.putMem m moved).putBuf b { blk with wrPtr := blk.wrPtr - size }) b =
        eraseSlice off size (bytesOf heap b) := by
  rcases block_ok_bytes ok with ⟨same, presentAgain, readable, length⟩
  cases Option.some.inj (present.symm.trans presentAgain)
  rcases ok with ⟨same, presentAgain, inside⟩
  cases Option.some.inj (present.symm.trans presentAgain)
  simp only [BufBlk.length] at length
  rcases Option.eq_none_or_eq_some blk.blk with owner | ⟨m, owner⟩
  · rw [owner] at inside
    simp only at inside
    omega
  · rw [owner] at inside
    rcases inside with ⟨mem, memPresent, lower, order, upper⟩
    have from_ : mem.Holds (blk.rdPtr + off + size) (blk.length - size - off) := by
      simp only [MemBlk.Holds, BufBlk.length]
      omega
    have onto : mem.Holds (blk.rdPtr + off) (blk.length - size - off) := by
      simp only [MemBlk.Holds, BufBlk.length]
      omega
    rcases move_bytes_eq owner memPresent from_ onto with ⟨done, sameSize⟩
    obtain ⟨moved, movedEq⟩ : ∃ moved,
        moved = movedMem mem (blk.rdPtr + off) (blk.rdPtr + off + size) (blk.length - size - off) :=
        ⟨_, rfl⟩
    rw [← movedEq] at done sameSize
    have sameBase : moved.base = mem.base := by rw [movedEq, movedMem]
    have now : ((heap.putMem m moved).putBuf b { blk with wrPtr := blk.wrPtr - size }).bufs.read b =
        some { blk with wrPtr := blk.wrPtr - size } := by
      simp [read_write present]
    have memNow : ((heap.putMem m moved).putBuf b { blk with wrPtr := blk.wrPtr - size }).mems.read
        m =
        some moved := by
      simp [read_write memPresent]
    refine ⟨m, mem, moved, owner, memPresent, movedEq, from_, onto, done, ⟨_, now, ?_⟩, ?_⟩
    · simp only [owner]
      refine ⟨moved, memNow, ?_, ?_, ?_⟩
      · rw [sameBase]
        exact lower
      · omega
      · rw [sameBase, sameSize]
        omega
    · -- the window of the block, in the bytes of its MemBlk before and after
      let start := (blk.rdPtr - mem.base).toNat
      let width := (bytesOf heap b).length
      have startEq : (start : Int) = blk.rdPtr - mem.base := Int.toNat_of_nonneg (by omega)
      have room : start + width ≤ mem.bytes.length := by
        simp only [MemBlk.size] at upper
        omega
      have wholeHolds : mem.Holds blk.rdPtr blk.length := by
        simp only [MemBlk.Holds, BufBlk.length]
        omega
      have whole : bytesOf heap b = slice start width mem.bytes := by
        have count : blk.length.toNat = width := by
          simp only [BufBlk.length]
          omega
        rw [bytes_of_block present owner memPresent wholeHolds, count]
        rfl
      have holds : moved.Holds blk.rdPtr (blk.wrPtr - size - blk.rdPtr) := by
        rw [MemBlk.Holds, sameBase, sameSize]
        omega
      have count : (blk.wrPtr - size - blk.rdPtr).toNat = width - size := by omega
      have read := bytes_of_block now owner memNow holds
      simp only [BufBlk.length, count, sameBase] at read
      have dst : (blk.rdPtr + off - mem.base).toNat = start + off := by omega
      have src : (blk.rdPtr + off + size - mem.base).toNat = start + off + size := by omega
      have rest : (blk.length - size - off).toNat = width - size - off := by
        simp only [BufBlk.length]
        omega
      rw [read, whole, movedEq]
      simp only [movedMem, dst, src, rest]
      exact erase_slice_in_place mem.bytes start width off size room (by omega) _

end TWlib.BufBlkEat
