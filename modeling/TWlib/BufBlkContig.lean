import TWlib.BufBlkSeek
import TWlib.BufBlkView
import TWlib.Lib.ListSlice

/-!
# `BufBlk::getContigBlock`

A slice inside one block shares the MemBlk, any other is copied into a block of
its own. `Filled` is the invariant of the copying: the block made for it holds
what was copied so far.
-/

namespace TWlib.BufBlkContig

open TWlib.Lib.CellStore TWlib.Lib.LinkedChain TWlib.Lib.ListSlice TWlib.Lib.MachineInt
open TWlib.BufBlkHeap TWlib.BufBlkChain TWlib.BufBlkSeek TWlib.BufBlkView

set_option autoImplicit false

/-! ## The code -/

/-- What `memcpy` finds at `src` in the buffer of `blk`; nothing is read when `count` is zero. -/
def bytesAt (heap : Heap) (blk : BufBlk) (src count : Int) : Option (List Byte) :=
  if count = 0 then some []
  else do
    let m ← blk.blk
    let mem ← heap.mems.read m
    mem.load src count

/-- `while(look && (total > 0))`. -/
def copyLoop : Nat → Heap → BufId → Int → Option BufId → Option (Heap × Int)
  | _, heap, _, total, none => some (heap, total)
  | 0, _, _, _, some _ => none
  | fuel + 1, heap, outblk, total, some look =>
      if total > 0 then do
        let blk ← heap.bufs.read look
        let need := if blk.length < total then blk.length else total
        let data ← bytesAt heap blk blk.rdPtr need
        let (heap, _) ← heap.copyFrom outblk data
        copyLoop fuel heap outblk (total - need) blk.nextblk
      else some (heap, total)

/-- `BufBlk::getContigBlock`: the heap afterwards, the value returned, and `outblk` where it is
set. -/
def getContigBlock (alloc : Alloc) (heap : Heap) (this : BufId) (rdOffset size : Int) :
    Option (Heap × Bool × Option BufId) := do
  let (need, look, _) ← seek heap.bufs.fresh heap rdOffset (some this) none
  match look with
  | none => some (heap, false, none)
  | some look =>
      let blk ← heap.bufs.read look
      if blk.length > need then
        if blk.length - need - size ≥ 0 then
          let (heap, outblk) ← Heap.newBufBlkSharing heap blk.blk
          let made ← heap.bufs.read outblk
          let start := blk.rdPtr + need
          let heap := heap.putBuf outblk
            { made with rdPtr := start, mark := start, wrPtr := start + size }
          some (heap, true, some outblk)
        else
          match blk.nextblk with
          | none => some (heap, false, none)
          | some after =>
              let steps := heap.bufs.fresh
              let (heap, outblk) := Heap.newBufBlkSize alloc heap size
              let data ← bytesAt heap blk (blk.rdPtr + need) (blk.length - need)
              let (heap, _) ← heap.copyFrom outblk data
              let (heap, total) ← copyLoop steps heap outblk (size - (blk.length - need))
                (some after)
              some (heap, total = 0, some outblk)
      else some (heap, false, none)

/-! ## Copying -/

variable {before heap : Heap}

/-- `outblk` is no block of `before`, has room for `size` bytes and holds `done`. -/
structure Filled (before heap : Heap) (outblk : BufId) (size : Nat) (done : List Byte) : Prop where
  ext : Extends before heap
  newBuf : before.bufs.read outblk = none
  fits : done.length ≤ size
  holds : ∃ blk m mem, heap.bufs.read outblk = some blk ∧ blk.blk = some m ∧
    before.mems.read m = none ∧ heap.mems.read m = some mem ∧ mem.bytes.length = size ∧
      blk.nextblk = none ∧ blk.rdPtr = mem.base ∧ blk.wrPtr = mem.base + done.length ∧
        mem.bytes.take done.length = done

theorem new_block_filled {alloc : Alloc} (succeeds : alloc.Succeeds) (before : Heap) (size : Nat) :
    Filled before (Heap.newBufBlkSize alloc before size).1 (Heap.newBufBlkSize alloc before size).2
      size [] := by
  rcases new_mem_blk_succeeds succeeds before size with ⟨mem, made, length⟩
  rw [Heap.newBufBlkSize, made, new_buf_blk_over_eq]
  refine ⟨extends_push_buf (extends_push_mem (extends_refl before) mem) _,
    read_beyond (Nat.le_refl _), Nat.zero_le _, ?_⟩
  refine ⟨_, before.mems.fresh, mem, push_buf_read (before.pushMem mem).1 _, rfl,
    read_beyond (Nat.le_refl _), push_mem_read before mem, length, rfl, rfl, ?_, rfl⟩
  simp

theorem copy_from_filled {outblk : BufId} {size : Nat} {done : List Byte} (data : List Byte)
    (filled : Filled before heap outblk size done) (room : done.length + data.length ≤ size) :
    ∃ after, heap.copyFrom outblk data = some (after, (data.length : Int)) ∧
      Filled before after outblk size (done ++ data) := by
  rcases filled.holds with
    ⟨blk, m, mem, present, owner, newMem, memPresent, length, last, low, high, kept⟩
  have space : Heap.freespace mem blk = ((size - done.length : Nat) : Int) := by
    simp only [Heap.freespace, MemBlk.size, high, length]
    omega
  have count : (if Heap.freespace mem blk < data.length then Heap.freespace mem blk
      else (data.length : Int)) = data.length := by
    rw [if_neg (by omega)]
  have whole : data.take data.length = data := List.take_length
  have holds : mem.Holds blk.wrPtr data.length := by
    simp only [MemBlk.Holds, MemBlk.size, high, length]
    omega
  have start : (blk.wrPtr - mem.base).toNat = done.length := by omega
  let written : MemBlk :=
    { mem with
      bytes := mem.bytes.take done.length ++ data ++ mem.bytes.drop (done.length + data.length) }
  have stored : mem.store blk.wrPtr data = some written := by
    simp [MemBlk.store, holds, start, written]
  have still : (heap.putMem m written).bufs.read outblk = some blk := present
  refine ⟨(heap.putMem m written).putBuf outblk { blk with wrPtr := blk.wrPtr + data.length }, ?_,
    ?_⟩
  · simp only [Heap.copyFrom, present, owner, memPresent, Option.bind_eq_bind,
      Option.bind_some, count,
      Int.natCast_nonneg, if_true, Int.toNat_natCast, whole, stored]
  refine ⟨extends_put_new_buf (extends_put_new_mem filled.ext newMem memPresent written)
    filled.newBuf still _, filled.newBuf, by simpa using room, ?_⟩
  refine ⟨{ blk with wrPtr := blk.wrPtr + data.length }, m, written, ?_, owner, newMem,
    ?_, ?_, last,
    low, ?_, ?_⟩
  · rw [read_put_buf still, if_pos rfl]
  · simp [read_write memPresent]
  · simp only [written, List.length_append, List.length_take, List.length_drop, length]
    omega
  · simp only [high, List.length_append, written]
    omega
  · simp only [written, kept, ← List.length_append, List.take_left]

theorem bytes_at_block {b : BufId} {blk : BufBlk} (ext : Extends before heap)
    (present : before.bufs.read b = some blk) (ok : BlockOk before b) (skip count : Nat)
    (fits : skip + count ≤ (bytesOf before b).length) :
    bytesAt heap blk (blk.rdPtr + skip) count =
    some (((bytesOf before b).drop skip).take count) := by
  rcases block_ok_bytes ok with ⟨same, again, readable, length⟩
  cases Option.some.inj (present.symm.trans again)
  rcases ok with ⟨same, again, inside⟩
  cases Option.some.inj (present.symm.trans again)
  by_cases nothing : count = 0
  · simp [bytesAt, nothing]
  · cases owner : blk.blk with
    | none =>
        rw [owner] at inside
        simp only [BufBlk.length] at length
        omega
    | some m =>
        rw [owner] at inside
        rcases inside with ⟨mem, memPresent, low, order, high⟩
        rcases ext.mems m mem memPresent with ⟨now, nowPresent, sameBase, sameBytes⟩
        have wholeHolds : mem.Holds blk.rdPtr blk.length := by
          simp only [MemBlk.Holds, BufBlk.length]
          omega
        have holds : mem.Holds (blk.rdPtr + skip) count := by
          simp only [BufBlk.length] at length
          simp only [MemBlk.Holds]
          omega
        have start : (blk.rdPtr + skip - mem.base).toNat = (blk.rdPtr - mem.base).toNat + skip := by
          omega
        have positive : (count : Int) ≠ 0 := by omega
        rw [bytes_of_block present owner memPresent wholeHolds] at fits ⊢
        simp only [bytesAt, if_neg positive, owner, nowPresent, Option.bind_eq_bind,
          Option.bind_some,
          load_congr sameBase sameBytes, load_of_holds holds, start, Int.toNat_natCast]
        rw [List.drop_take, List.take_take, List.drop_drop]
        simp only [List.length_take] at fits
        congr 2
        omega

theorem copy_loop_chain {outblk : BufId} {size : Nat} {done : List Byte} {ids : List BufId}
    {start : Option BufId} (fuel total : Nat) (ok : ChainOk before start ids)
    (enough : ids.length ≤ fuel) (filled : Filled before heap outblk size done)
    (room : done.length + total ≤ size) :
    ∃ after, copyLoop fuel heap outblk total start =
        some (after, ((total - (lengthsOf before ids).sum : Nat) : Int)) ∧
      Filled before after outblk size (done ++ (ids.flatMap (bytesOf before)).take total) := by
  induction ids generalizing start fuel heap total done with
  | nil =>
      have empty : start = none := ok.linked
      subst empty
      exact ⟨heap, by cases fuel <;> simp [copyLoop, lengthsOf], by simpa using filled⟩
  | cons b rest ih =>
      rcases chain_ok_cons ok with ⟨first, blk, present, -, length, tail⟩
      subst first
      cases fuel with
      | zero => simp at enough
      | succ fuel =>
          simp only [List.length_cons, Nat.add_le_add_iff_right] at enough
          by_cases finished : total = 0
          · subst finished
            exact ⟨heap, by simp [copyLoop], by simpa using filled⟩
          · let need := min (bytesOf before b).length total
            have needEq : (if blk.length < total then blk.length else (total : Int)) =
                (need : Int) := by
              rw [length]
              simp only [need]
              split_ifs <;> omega
            have data := bytes_at_block filled.ext present (ok.inside b (by simp)) 0 need
              (by simp only [need]; omega)
            simp only [Int.natCast_zero, Int.add_zero, List.drop_zero] at data
            have dataLength : ((bytesOf before b).take need).length = need := by
              simp only [List.length_take, need]
              omega
            rcases copy_from_filled ((bytesOf before b).take need) filled (by omega) with
              ⟨middle, copied, more⟩
            have left : (total : Int) - need = ((total - need : Nat) : Int) := by
              simp only [need]
              omega
            rcases ih fuel (total - need) tail enough more
              (by simp only [List.length_append, dataLength]; omega) with ⟨after, looped, full⟩
            have positive : (total : Int) > 0 := by omega
            refine ⟨after, ?_, ?_⟩
            · simp only [copyLoop, if_pos positive, filled.ext.bufs b blk present,
                Option.bind_eq_bind,
                Option.bind_some, needEq, data, copied, left, looped, lengths_cons,
                Option.some.injEq,
                Prod.mk.injEq, true_and, Int.natCast_inj]
              simp only [need]
              omega
            · have split : ((b :: rest).flatMap (bytesOf before)).take total =
                  (bytesOf before b).take need ++
                    (rest.flatMap (bytesOf before)).take (total - need) := by
                rw [List.flatMap_cons, List.take_append]
                simp only [need]
                rcases Nat.le_total (bytesOf before b).length total with short | long
                · rw [Nat.min_eq_left short, List.take_of_length_le short, List.take_length]
                · rw [Nat.min_eq_right long, Nat.sub_eq_zero_of_le long, Nat.sub_self]
              rw [split, ← List.append_assoc]
              exact full

/-! ## The two ways -/

variable {this : BufId} {ids pre post : List BufId} {mid : BufId} {off rest : Nat}

structure Holds (before after : Heap) (outblk : BufId) (data : List Byte) : Prop where
  ext : Extends before after
  bytes : after.blockBytes outblk = some data
  single : after.next outblk = some none

theorem filled_holds {outblk : BufId} {size : Nat} {done : List Byte}
    (filled : Filled before heap outblk size done) : Holds before heap outblk done := by
  rcases filled.holds with
    ⟨blk, m, mem, present, owner, -, memPresent, length, last, low, high, kept⟩
  refine ⟨filled.ext, ?_, by rw [next_of_read present, last]⟩
  have fits := filled.fits
  have holds : mem.Holds blk.rdPtr blk.length := by
    simp only [MemBlk.Holds, MemBlk.size, BufBlk.length, low, high, length]
    omega
  have count : blk.length.toNat = done.length := by
    simp only [BufBlk.length, low, high]
    omega
  have start : (blk.rdPtr - mem.base).toNat = 0 := by omega
  simp [Heap.blockBytes, present, Heap.readable, owner, memPresent, load_of_holds holds, count,
    start, kept]

theorem share_block {blk : BufBlk} {size : Nat} (ok : BlockOk before mid)
    (present : before.bufs.read mid = some blk) (nonempty : rest < (bytesOf before mid).length)
    (fits : rest + size ≤ (bytesOf before mid).length) :
    ∃ shared outblk made, Heap.newBufBlkSharing before blk.blk = some (shared, outblk) ∧
      shared.bufs.read outblk = some made ∧
        Holds before (shared.putBuf outblk { made with
          rdPtr := blk.rdPtr + rest, mark := blk.rdPtr + rest, wrPtr := blk.rdPtr + rest + size })
            outblk (((bytesOf before mid).drop rest).take size) := by
  rcases block_ok_bytes ok with ⟨same, again, readable, length⟩
  cases Option.some.inj (present.symm.trans again)
  rcases ok with ⟨same, again, inside⟩
  cases Option.some.inj (present.symm.trans again)
  rcases Option.eq_none_or_eq_some blk.blk with owner | ⟨m, owner⟩
  · rw [owner] at inside
    simp only [BufBlk.length] at length inside
    omega
  · rw [owner] at inside
    rcases inside with ⟨mem, memPresent, low, order, high⟩
    let counted := before.putMem m { mem with refCount := mem.refCount + 1 }
    have countedMem : counted.mems.read m = some { mem with refCount := mem.refCount + 1 } := by
      simp [counted, read_write memPresent]
    let made : BufBlk := ⟨some m, mem.base, mem.base, null, none, 0⟩
    have shared : Heap.newBufBlkSharing before blk.blk = some (counted.pushBuf made) := by
      simp only [Heap.newBufBlkSharing, owner, Option.bind_eq_bind, Option.bind_some,
        checkout_eq memPresent]
      simp only [counted] at countedMem
      rw [countedMem]
      rfl
    have there : (counted.pushBuf made).1.bufs.read counted.bufs.fresh = some made :=
      push_buf_read counted made
    refine ⟨(counted.pushBuf made).1, counted.bufs.fresh, made, shared, there, ?_, ?_, ?_⟩
    · exact extends_put_new_buf (extends_push_buf
        (extends_checkout (extends_refl before) memPresent) made)
        (read_beyond (Nat.le_refl _)) there _
    · have holds : mem.Holds (blk.rdPtr + rest) (blk.rdPtr + rest + size - (blk.rdPtr + rest)) := by
        simp only [BufBlk.length] at length
        simp only [MemBlk.Holds]
        omega
      have wholeHolds : mem.Holds blk.rdPtr blk.length := by
        simp only [MemBlk.Holds, BufBlk.length]
        omega
      have start : (blk.rdPtr + rest - mem.base).toNat = (blk.rdPtr - mem.base).toNat +
        rest := by omega
      have count : (blk.rdPtr + rest + size - (blk.rdPtr + rest)).toNat = size := by omega
      rw [bytes_of_block present owner memPresent wholeHolds] at fits ⊢
      simp only [List.length_take, BufBlk.length] at fits
      have loaded := load_of_holds holds
      rw [start, count] at loaded
      have still : ((counted.pushBuf made).1.putBuf counted.bufs.fresh { made with
          rdPtr := blk.rdPtr + rest, mark := blk.rdPtr + rest,
          wrPtr := blk.rdPtr + rest + size }).mems.read m =
          some { mem with refCount := mem.refCount + 1 } := countedMem
      have sameLoad : ({ mem with refCount := mem.refCount + 1 } : MemBlk).load = mem.load :=
        load_congr rfl rfl
      simp only [Heap.blockBytes, read_put_buf there, if_true, Option.bind_eq_bind,
        Option.bind_some,
        Heap.readable, still, BufBlk.length, sameLoad, loaded, made]
      rw [List.drop_take, List.take_take, List.drop_drop]
      congr 2
      omega
    · rw [next_of_read (read_put_buf there _ _ |>.trans (if_pos rfl))]

/-- The slice is inside one block. -/
theorem get_contig_shared (alloc : Alloc) {size : Nat} (ok : ChainOk before (some this) ids)
    (located : Located before ids off pre mid post rest)
    (sought : seek before.bufs.fresh before off (some this) none = some ((rest : Int), some mid,
      pre.getLast?))
    (fits : rest + size ≤ (bytesOf before mid).length) :
    ∃ after outblk, getContigBlock alloc before this off size = some (after, true, some outblk) ∧
      Holds before after outblk (slice off size (ids.flatMap (bytesOf before))) := by
  have midOk := ok.inside mid (by simp [located.split])
  have inside := located.inside
  rcases block_ok_bytes midOk with ⟨blk, present, -, length⟩
  rcases share_block midOk present inside fits with ⟨shared, outblk, made, done, there, holds⟩
  have bytes : slice off size (ids.flatMap (bytesOf before)) =
      ((bytesOf before mid).drop rest).take size := by
    rw [located.split, List.flatMap_append, List.flatMap_cons, located.offset, lengths_sum,
      slice_behind,
      slice_before rest size _ _ fits]
    rfl
  have reaches : blk.length > (rest : Int) := by omega
  have enough : blk.length - rest - size ≥ 0 := by omega
  rw [bytes]
  refine ⟨_, outblk, ?_, holds⟩
  simp only [getContigBlock, sought, Option.bind_eq_bind, Option.bind_some, present, if_pos reaches,
    if_pos enough, done, there]

/-- The slice goes on behind the block it begins in, or the chain is too short for it. -/
theorem get_contig_copied {alloc : Alloc} (succeeds : alloc.Succeeds) {size : Nat}
    (ok : ChainOk before (some this) ids) (located : Located before ids off pre mid post rest)
    (sought : seek before.bufs.fresh before off (some this) none = some ((rest : Int), some mid,
      pre.getLast?))
    (crosses : (bytesOf before mid).length < rest + size) :
    ∃ after ret out, getContigBlock alloc before this off size = some (after, ret, out) ∧
      Extends before after ∧ (ret = true ↔ off + size ≤ (lengthsOf before ids).sum) ∧
        (ret = true → ∃ outblk, out = some outblk ∧
          Holds before after outblk (slice off size (ids.flatMap (bytesOf before)))) := by
  have split := located.split
  have inside := located.inside
  have offset := located.offset
  have total := located_total located
  have midOk := ok.inside mid (by simp [split])
  rcases block_ok_bytes midOk with ⟨blk, present, -, length⟩
  have behind : ChainOk before blk.nextblk post := by
    have whole := (chain_ok_append.mp (split ▸ ok)).2.2
    rcases chain_ok_cons whole with ⟨-, same, again, -, -, tail⟩
    cases Option.some.inj (present.symm.trans again)
    exact tail
  have reaches : blk.length > (rest : Int) := by omega
  have short : ¬blk.length - rest - size ≥ 0 := by omega
  cases post with
  | nil =>
      have last : blk.nextblk = none := behind.linked
      refine ⟨before, false, none, ?_, extends_refl before, ?_, by simp⟩
      · simp only [getContigBlock, sought, Option.bind_eq_bind, Option.bind_some, present,
          if_pos reaches, if_neg short, last]
      · have nothing : (lengthsOf before []).sum = 0 := rfl
        simp only [Bool.false_eq_true, false_iff]
        omega
  | cons following others =>
      have follow : blk.nextblk = some following := chain_start behind.linked
      rw [follow] at behind
      rcases Nat.exists_eq_add_of_lt crosses with ⟨few, reach⟩
      have sizeEq : size = (bytesOf before mid).length - rest + (few + 1) := by omega
      have filled := new_block_filled succeeds before size
      have restLength :
        blk.length - rest = (((bytesOf before mid).length - rest : Nat) : Int) := by omega
      have data := bytes_at_block filled.ext present midOk rest ((bytesOf before mid).length - rest)
        (by omega)
      have dataEq : ((bytesOf before mid).drop rest).take ((bytesOf before mid).length - rest) =
          (bytesOf before mid).drop rest := by
        rw [← List.length_drop, List.take_length]
      rw [dataEq, ← restLength] at data
      have room : ([] : List Byte).length + ((bytesOf before mid).drop rest).length ≤ size := by
        simp only [List.length_nil, List.length_drop]
        omega
      rcases copy_from_filled _ filled room with ⟨middle, copied, more⟩
      have enough := chain_bound ok.linked
      simp only [split, List.length_append, List.length_cons] at enough
      have left : (size : Int) - (blk.length - rest) = ((few + 1 : Nat) : Int) := by omega
      have roomLeft : ([] ++ (bytesOf before mid).drop rest : List Byte).length +
          (few + 1) ≤ size := by
        simp only [List.nil_append, List.length_drop]
        omega
      rcases copy_loop_chain before.bufs.fresh (few + 1) behind
        (by simp only [List.length_cons]; omega) more roomLeft with ⟨after, looped, full⟩
      refine ⟨after, decide ((few + 1 - (lengthsOf before (following :: others)).sum : Nat) =
        (0 : Int)),
        some (Heap.newBufBlkSize alloc before size).2, ?_, full.ext, ?_, ?_⟩
      · simp only [getContigBlock, sought, Option.bind_eq_bind, Option.bind_some, present,
          if_pos reaches, if_neg short, follow, data, copied, left, looped]
      · rw [decide_eq_true_eq]
        omega
      · intro _
        refine ⟨_, rfl, ?_⟩
        have bytes : slice off size (ids.flatMap (bytesOf before)) =
            [] ++ (bytesOf before mid).drop rest ++
              ((following :: others).flatMap (bytesOf before)).take (few + 1) := by
          rw [split, List.flatMap_append, List.flatMap_cons, offset, lengths_sum,
            slice_behind, sizeEq,
            slice_across rest (few + 1) _ _ (Nat.le_of_lt inside), List.nil_append]
        rw [bytes]
        exact filled_holds full

theorem get_contig_beyond (alloc : Alloc) (size : Int) (ok : ChainOk before (some this) ids)
    (beyond : (lengthsOf before ids).sum ≤ off) :
    getContigBlock alloc before this off size = some (before, false, none) := by
  rcases seek_chain before.bufs.fresh off none ok (chain_bound ok.linked) with
    ⟨pre, mid, post, rest, located, -⟩ | ⟨-, need, last, sought⟩
  · have inside := located.inside
    have offset := located.offset
    have split := located.split
    rw [split, lengths_append, lengths_cons] at beyond
    omega
  · simp only [getContigBlock, sought, Option.bind_eq_bind, Option.bind_some]

/-! ## The result -/

theorem get_contig_spec {alloc : Alloc} (succeeds : alloc.Succeeds) (off size : Nat)
    (ok : ChainOk before (some this) ids) :
    ∃ after ret out, getContigBlock alloc before this off size = some (after, ret, out) ∧
      Extends before after ∧
      (ret = true ↔ off < (lengthsOf before ids).sum ∧ off + size ≤ (lengthsOf before ids).sum) ∧
      (ret = true → ∃ outblk, out = some outblk ∧
        Holds before after outblk (slice off size (ids.flatMap (bytesOf before)))) := by
  by_cases inside : off < (lengthsOf before ids).sum
  · rcases seek_inside off ok inside with ⟨pre, mid, post, rest, located, sought⟩
    have offset := located.offset
    have total := located_total located
    by_cases fits : rest + size ≤ (bytesOf before mid).length
    · rcases get_contig_shared alloc ok located sought fits with ⟨after, outblk, done, holds⟩
      refine ⟨after, true, some outblk, done, holds.ext, ?_, fun _ => ⟨outblk, rfl, holds⟩⟩
      simp only [true_iff]
      omega
    · have crosses : (bytesOf before mid).length < rest + size := by omega
      rcases get_contig_copied succeeds ok located sought crosses with
        ⟨after, ret, out, done, ext, success, delivered⟩
      refine ⟨after, ret, out, done, ext, ?_, delivered⟩
      rw [success]
      simp only [inside, true_and]
  · refine ⟨before, false, none, get_contig_beyond alloc size ok (by omega),
      extends_refl before, ?_, ?_⟩
    · simp only [Bool.false_eq_true, false_iff]
      omega
    · simp

/-- `getContigBlock` returns true for the slices within `total_length()` and no others, delivers
them in one block, and the source chain reads as before. -/
def Slices (alloc : Alloc) (before : Heap) (this : BufId) (ids : List BufId)
    (off size : Nat) : Prop :=
  ∃ total content after ret out, before.totalLength this = some total ∧
    before.contents (some this) = some content ∧
    getContigBlock alloc before this off size = some (after, ret, out) ∧
    (ret = true ↔ (off : Int) < total ∧ (off + size : Int) ≤ total) ∧
    (ret = true → ∃ outblk, out = some outblk ∧
      after.blockBytes outblk = some (slice off size content) ∧ after.next outblk = some none) ∧
    (∀ b ∈ ids, after.blockBytes b = before.blockBytes b) ∧
    after.contents (some this) = some content

/-- The slice lies within `count` bytes. -/
def SliceWithin (off size : Nat) (count : Int) : Prop :=
  (off : Int) < count ∧ (off + size : Int) ≤ count

theorem get_contig_block_slices_iff {alloc : Alloc} (succeeds : alloc.Succeeds) (off size : Nat)
    {content : List Byte} (ok : ChainOk before (some this) ids)
    (reads : before.contents (some this) = some content) :
    Slices alloc before this ids off size ↔
      (SliceWithin off size content.length → SliceWithin off size (asInt content.length)) := by
  have count := content_length ok reads
  have measured := total_length_of_chain ok
  rw [← count] at measured
  have smaller := as_int_le (Int.natCast_nonneg content.length)
  rcases get_contig_spec succeeds off size ok with ⟨after, ret, out, done, ext, success, delivered⟩
  rw [← count] at success
  constructor
  · rintro ⟨total, _, _, _, _, total', _, again, exact', -⟩ within
    cases Option.some.inj (measured.symm.trans total')
    cases Option.some.inj (done.symm.trans again)
    exact exact'.mp (success.mpr (by simp only [SliceWithin] at within; omega))
  · intro sees
    have whole : content = ids.flatMap (bytesOf before) :=
      Option.some.inj (reads.symm.trans (contents_of_chain ok))
    refine ⟨_, content, after, ret, out, measured, reads, done, ?_, ?_, ?_, ?_⟩
    · rw [success]
      constructor
      · intro within
        exact sees (by simp only [SliceWithin]; omega)
      · rintro ⟨starts, ends⟩
        omega
    · intro succeeded
      rcases delivered succeeded with ⟨outblk, isOut, holds⟩
      exact ⟨outblk, isOut, whole ▸ holds.bytes, holds.single⟩
    · intro b member
      exact extends_block_bytes ext (ok.inside b member)
    · rw [contents_of_chain (extends_chain_ok ext ok), whole]
      exact congrArg some (List.flatMap_congr fun b member =>
        extends_bytes_of ext (ok.inside b member))

theorem get_contig_block_slices_three_blocks :
    Slices zeroAlloc threeBlocks 0 [0, 1, 2] 1 4 ↔
    (SliceWithin 1 4 6 → SliceWithin 1 4 (asInt 6)) :=
  get_contig_block_slices_iff zero_alloc_succeeds 1 4 three_blocks_ok
    (by decide : threeBlocks.contents (some 0) = some [1, 2, 3, 4, 5, 6])

/-- Two blocks of `count` readable bytes. -/
def twoLong (count : Nat) : Heap where
  mems := ⟨[some ⟨1, 100, List.replicate count 0, true⟩,
    some ⟨1, 200 + count, List.replicate count 0, true⟩]⟩
  bufs := ⟨[some ⟨some 0, 100, 100 + count, 100, some 1, 0⟩,
    some ⟨some 1, 200 + count, 200 + count + count, 200 + count, none, 0⟩]⟩
  deleted := []
  freed := []

theorem two_long_ok (count : Nat) : ChainOk (twoLong count) (some 0) [0, 1] := by
  refine ⟨⟨rfl, some 1, rfl, rfl, none, rfl, rfl⟩, fun b member => ?_⟩
  simp only [List.mem_cons, List.not_mem_nil, or_false] at member
  rcases member with rfl | rfl
  · refine ⟨_, rfl, _, rfl, ?_⟩
    simp only [MemBlk.size, List.length_replicate]
    omega
  · refine ⟨_, rfl, _, rfl, ?_⟩
    simp only [MemBlk.size, List.length_replicate]
    omega

theorem two_long_length (count : Nat) : (lengthsOf (twoLong count) [0, 1]).sum = count + count := by
  rcases block_ok_bytes ((two_long_ok count).inside 0 (by simp)) with ⟨first, present, -, long⟩
  rcases block_ok_bytes ((two_long_ok count).inside 1 (by simp)) with ⟨second, there, -, alike⟩
  cases Option.some.inj present
  cases Option.some.inj there
  simp only [BufBlk.length] at long alike
  simp only [lengthsOf, List.map_cons, List.map_nil, List.sum_cons, List.sum_nil]
  omega

/-- With 2 ^ 30 readable bytes in each of two blocks `total_length()` is -2147483648, and the first
byte is delivered. -/
theorem get_contig_block_not_always_slices :
    ¬∀ (alloc : Alloc) (before : Heap) (this : BufId) (ids : List BufId) (off size : Nat),
      alloc.Succeeds → ChainOk before (some this) ids → Slices alloc before this ids off size := by
  intro always
  rcases always zeroAlloc (twoLong 1073741824) 0 [0, 1] 0 1 zero_alloc_succeeds (two_long_ok _) with
    ⟨total, content, after, ret, out, total', -, again, claimed, -⟩
  have measured := total_length_of_chain (two_long_ok 1073741824)
  rw [two_long_length] at measured
  cases Option.some.inj (measured.symm.trans total')
  rcases get_contig_spec zero_alloc_succeeds 0 1 (two_long_ok 1073741824) with
    ⟨after', ret', out', done, -, success, -⟩
  cases Option.some.inj (done.symm.trans again)
  rw [two_long_length] at success
  have delivered : ret = true := success.mpr (by omega)
  have negative := (claimed.mp delivered).1
  revert negative
  decide

end TWlib.BufBlkContig
