import TWlib.Lib.CellStore
import TWlib.Lib.LinkedChain
import TWlib.Lib.MachineInt

/-!
# MemBlk and BufBlk objects on the heap

Every object lives in a numbered cell, and deleting it empties the cell for
good. An operation returns `none` where the source would touch a deleted object,
follow a NULL pointer or leave a buffer; a loop along `_nextblk` also returns
`none` when it has followed more links than there are cells, since then the links
form a cycle. Pointers into a buffer are absolute addresses and NULL is address
zero. The lengths and offsets are unbounded integers, but the sum that
`total_length` makes of them is an `int`. The mutex in a MemBlk has a module of
its own and is taken to be tolerant here.
-/

namespace TWlib.BufBlkHeap

open TWlib.Lib.CellStore TWlib.Lib.LinkedChain TWlib.Lib.MachineInt

set_option autoImplicit false

abbrev Byte := UInt8
abbrev MemId := Nat
abbrev BufId := Nat

/-- Pointers into memory are addresses. -/
def null : Int := 0

/-- `bytes` are the `_size` bytes at `_base`. -/
structure MemBlk where
  refCount : Int
  base : Int
  bytes : List Byte
  manage : Bool
deriving DecidableEq

structure BufBlk where
  blk : Option MemId
  rdPtr : Int
  wrPtr : Int
  mark : Int
  nextblk : Option BufId
  flags : UInt32
deriving DecidableEq

/-- The two kinds of objects, and a record of what was given back: the BufBlks
in the order of their `delete`, and the buffers in the order of `ALLOC::free`. -/
structure Heap where
  mems : Store MemBlk
  bufs : Store BufBlk
  deleted : List BufId
  freed : List Int

def emptyHeap : Heap := ⟨.empty, .empty, [], []⟩

/-- The template parameter `ALLOC`. `malloc call size` is NULL or the address and
the arbitrary content of the region, which has the size asked for; `staleFlags`
is what the constructors find in the `_flags` they do not initialise. -/
structure Alloc where
  malloc : Nat → Nat → Option (Int × List Byte)
  exactSize : ∀ call size base bytes, malloc call size = some (base, bytes) → bytes.length = size
  staleFlags : Nat → UInt32

def Alloc.Succeeds (alloc : Alloc) : Prop :=
  ∀ call size, ∃ base bytes, alloc.malloc call size = some (base, bytes)

namespace MemBlk

def size (mem : MemBlk) : Int := mem.bytes.length

def Holds (mem : MemBlk) (start : Int) (count : Int) : Prop :=
  mem.base ≤ start ∧ 0 ≤ count ∧ start + count ≤ mem.base + mem.size

instance (mem : MemBlk) (start : Int) (count : Int) : Decidable (mem.Holds start count) :=
  inferInstanceAs (Decidable (_ ∧ _ ∧ _))

def load (mem : MemBlk) (src : Int) (count : Int) : Option (List Byte) :=
  if mem.Holds src count then some ((mem.bytes.drop (src - mem.base).toNat).take count.toNat)
  else none

def store (mem : MemBlk) (dst : Int) (data : List Byte) : Option MemBlk :=
  if mem.Holds dst data.length then
    let start := (dst - mem.base).toNat
    some { mem with bytes := mem.bytes.take start ++ data ++ mem.bytes.drop (start + data.length) }
  else none

end MemBlk

namespace Heap

def next (heap : Heap) (b : BufId) : Option (Option BufId) := (heap.bufs.read b).map BufBlk.nextblk

def memOf (heap : Heap) (b : BufId) : Option MemId := (heap.bufs.read b).bind BufBlk.blk

def putBuf (heap : Heap) (b : BufId) (blk : BufBlk) : Heap :=
  { heap with bufs := heap.bufs.write b blk }

def putMem (heap : Heap) (m : MemId) (mem : MemBlk) : Heap :=
  { heap with mems := heap.mems.write m mem }

def pushBuf (heap : Heap) (blk : BufBlk) : Heap × BufId :=
  ({ heap with bufs := heap.bufs.push blk }, heap.bufs.fresh)

def pushMem (heap : Heap) (mem : MemBlk) : Heap × MemId :=
  ({ heap with mems := heap.mems.push mem }, heap.mems.fresh)

/-- `b->_nextblk = after`. -/
def setNexblk (heap : Heap) (b : BufId) (after : Option BufId) : Option Heap := do
  let blk ← heap.bufs.read b
  some (heap.putBuf b { blk with nextblk := after })

/-- `delete` of a BufBlk whose destructor has nothing left to release. -/
def deleteBuf (heap : Heap) (b : BufId) : Heap :=
  { heap with bufs := heap.bufs.giveUp b, deleted := heap.deleted ++ [b] }

/-! ## MemBlk -/

/-- `MemBlk::MemBlk(int size)`. -/
def newMemBlk (alloc : Alloc) (heap : Heap) (size : Int) : Heap × MemId :=
  match alloc.malloc heap.mems.fresh size.toNat with
  | some (base, bytes) => heap.pushMem { refCount := 1, base, bytes, manage := true }
  | none => heap.pushMem { refCount := 1, base := null, bytes := [], manage := true }

/-- `MemBlk::MemBlk(void *data, int size, bool manage)`: the `bytes` are those at `data`. -/
def newMemBlkAt (heap : Heap) (data : Int) (bytes : List Byte) (manage : Bool) : Heap × MemId :=
  heap.pushMem { refCount := 1, base := data, bytes, manage }

def checkout (heap : Heap) (m : MemId) : Option Heap := do
  let mem ← heap.mems.read m
  some (heap.putMem m { mem with refCount := mem.refCount + 1 })

def releaseMem (heap : Heap) (m : MemId) : Option Heap := do
  let mem ← heap.mems.read m
  if mem.refCount - 1 < 1 then
    some { heap with
      mems := heap.mems.giveUp m
      freed := if mem.manage then heap.freed ++ [mem.base] else heap.freed }
  else
    some (heap.putMem m { mem with refCount := mem.refCount - 1 })

/-- `MemBlk::deepCopy`. The copied bytes are `_size` many, so the new buffer has to hold them. -/
def deepCopyMem (alloc : Alloc) (heap : Heap) (m : MemId) : Option (Heap × MemId) := do
  let mem ← heap.mems.read m
  let (heap, copy) := newMemBlk alloc heap mem.size
  let fresh ← heap.mems.read copy
  let filled ← fresh.store fresh.base mem.bytes
  some (heap.putMem copy filled, copy)

/-! ## BufBlk: construction and release -/

/-- `BufBlk::BufBlk()`. -/
def newBufBlk (heap : Heap) : Heap × BufId :=
  heap.pushBuf
    { blk := none, rdPtr := null, wrPtr := null, mark := null, nextblk := none, flags := 0 }

/-- What `BufBlk(int size)` and `BufBlk(void *data, int size, bool manage)` share: all positions
are at the base of the new MemBlk, and `_flags` is not set. -/
def newBufBlkOver (alloc : Alloc) (made : Heap × MemId) (after : Option BufId) : Heap × BufId :=
  let base := ((made.1.mems.read made.2).map MemBlk.base).getD null
  made.1.pushBuf
    { blk := some made.2, rdPtr := base, wrPtr := base, mark := base, nextblk := after,
      flags := alloc.staleFlags made.1.bufs.fresh }

/-- `BufBlk::BufBlk(int size)`. -/
def newBufBlkSize (alloc : Alloc) (heap : Heap) (size : Int) : Heap × BufId :=
  newBufBlkOver alloc (newMemBlk alloc heap size) none

/-- `BufBlk::BufBlk(int size, BufBlk *next, ALLOC *a)`. -/
def newBufBlkBefore (alloc : Alloc) (heap : Heap) (size : Int) (after : Option BufId) :
    Heap × BufId :=
  newBufBlkOver alloc (newMemBlk alloc heap size) after

/-- `BufBlk::BufBlk(void *data, int size, bool manage)`. -/
def newBufBlkAt (alloc : Alloc) (heap : Heap) (data : Int) (bytes : List Byte) (manage : Bool) :
    Heap × BufId :=
  newBufBlkOver alloc (newMemBlkAt heap data bytes manage) none

/-- `BufBlk::BufBlk(MemBlk *m)`, the internal constructor: another user of `m`, without a mark. -/
def newBufBlkSharing (heap : Heap) (m : Option MemId) : Option (Heap × BufId) := do
  let m ← m
  let heap ← heap.checkout m
  let mem ← heap.mems.read m
  some (heap.pushBuf
    { blk := some m, rdPtr := mem.base, wrPtr := mem.base, mark := null, nextblk := none,
      flags := 0 })

def releaseOptMem (heap : Heap) : Option MemId → Option Heap
  | none => some heap
  | some m => heap.releaseMem m

/-- `BufBlk::release`: the following blocks first, then the MemBlk, then the block itself. -/
def releaseFrom : Nat → Heap → BufId → Option Heap
  | 0, _, _ => none
  | fuel + 1, heap, b => do
      let blk ← heap.bufs.read b
      let heap ← match blk.nextblk with
        | none => some heap
        | some after => releaseFrom fuel heap after
      let heap ← heap.releaseOptMem blk.blk
      some (heap.deleteBuf b)

def release (heap : Heap) (b : BufId) : Option Heap := releaseFrom heap.bufs.fresh heap b

def releaseOpt (heap : Heap) : Option BufId → Option Heap
  | none => some heap
  | some b => heap.release b

/-- `BufBlk::~BufBlk` and the end of the object. -/
def destroy (heap : Heap) (b : BufId) : Option Heap := do
  let blk ← heap.bufs.read b
  let heap ← heap.releaseOpt blk.nextblk
  let heap ← heap.releaseOptMem blk.blk
  some (heap.deleteBuf b)

/-- The loop of `BufBlk::addToEnd`. -/
def lastFrom : Nat → Heap → BufId → Option BufId
  | 0, _, _ => none
  | fuel + 1, heap, look => do
      let blk ← heap.bufs.read look
      match blk.nextblk with
      | none => some look
      | some after => lastFrom fuel heap after

def addToEnd (heap : Heap) (this : BufId) (b : Option BufId) : Option Heap := do
  let look ← lastFrom heap.bufs.fresh heap this
  heap.setNexblk look b

end Heap

/-! ## Reading a chain -/

def BufBlk.length (blk : BufBlk) : Int := blk.wrPtr - blk.rdPtr

namespace Heap

/-- The loop of `BufBlk::total_length`. -/
def totalLengthFrom : Nat → Heap → Option BufId → Int → Option Int
  | _, _, none, ret => some ret
  | 0, _, some _, _ => none
  | fuel + 1, heap, some look, ret => do
      let blk ← heap.bufs.read look
      totalLengthFrom fuel heap blk.nextblk (asInt (ret + blk.length))

def totalLength (heap : Heap) (this : BufId) : Option Int :=
  totalLengthFrom heap.bufs.fresh heap (some this) 0

/-- The bytes from `rd_ptr` up to `wr_ptr`. A block without a MemBlk has none. -/
def readable (heap : Heap) (blk : BufBlk) : Option (List Byte) :=
  match blk.blk with
  | none => if blk.length = 0 then some [] else none
  | some m => do
      let mem ← heap.mems.read m
      mem.load blk.rdPtr blk.length

def blockBytes (heap : Heap) (b : BufId) : Option (List Byte) := do
  let blk ← heap.bufs.read b
  heap.readable blk

def contentsFrom : Nat → Heap → Option BufId → Option (List Byte)
  | _, _, none => some []
  | 0, _, some _ => none
  | fuel + 1, heap, some b => do
      let blk ← heap.bufs.read b
      let bytes ← heap.readable blk
      let rest ← contentsFrom fuel heap blk.nextblk
      some (bytes ++ rest)

/-- The sequence of readable bytes of the chain from `start` on; `none` when the
chain runs into a block or a MemBlk that is gone. -/
def contents (heap : Heap) (start : Option BufId) : Option (List Byte) :=
  contentsFrom heap.bufs.fresh heap start

/-- `BufBlk::freespace` of a block over `mem`. -/
def freespace (mem : MemBlk) (blk : BufBlk) : Int := mem.size - (blk.wrPtr - mem.base)

/-- `BufBlk::copyFrom`; `src` is the source area of `size` bytes. -/
def copyFrom (heap : Heap) (b : BufId) (src : List Byte) : Option (Heap × Int) := do
  let blk ← heap.bufs.read b
  let m ← blk.blk
  let mem ← heap.mems.read m
  let s : Int := if freespace mem blk < src.length then freespace mem blk else src.length
  if 0 ≤ s then
    let mem ← mem.store blk.wrPtr (src.take s.toNat)
    some ((heap.putMem m mem).putBuf b { blk with wrPtr := blk.wrPtr + s }, s)
  else none

end Heap

end TWlib.BufBlkHeap
