import Mathlib.Data.List.Forall2
import TWlib.BufBlkSoundCalls

/-!
# The chain that `deepCopy` makes

Block by block the copy has the bytes, the positions and the flags of the source, over MemBlks that
did not exist before. The two chains are regions without a common block or MemBlk, so that no later
call on one of them is seen by the other, as long as each is made on blocks that exist with
positions in order.
-/

namespace TWlib.BufBlkDeepCopy

open TWlib.Lib.CellStore TWlib.Lib.LinkedChain TWlib.Lib.Outcome TWlib.BufBlkHeap TWlib.BufBlkChain
    TWlib.BufBlkView
open TWlib.BufBlkCopy TWlib.BufBlkCount TWlib.BufBlkNavigate TWlib.BufBlkOwnershipCopy
  TWlib.BufBlkRegion
  TWlib.BufBlkSoundCalls

set_option autoImplicit false

/-- The same bytes, flags and offsets of the positions. -/
def SameBlock (before after : Heap) (b c : BufId) : Prop :=
  ∃ source m mem copy n new, before.bufs.read b = some source ∧ source.blk = some m ∧
    before.mems.read m = some mem ∧ after.bufs.read c = some copy ∧ copy.blk = some n ∧
    after.mems.read n = some new ∧ new.bytes = mem.bytes ∧
    copy.rdPtr - new.base = source.rdPtr - mem.base ∧
    copy.wrPtr - new.base = source.wrPtr - mem.base ∧
    copy.mark - new.base = source.mark - mem.base ∧
    copy.flags = source.flags

variable {alloc : Alloc} {before heap linked after : Heap} {b c o walk this : BufId}
  {blk old : BufBlk} {m : MemId} {mem new : MemBlk} {ids source copies : List BufId}

theorem same_block_bytes (same : SameBlock before after b c) :
    after.blockBytes c = before.blockBytes b := by
  obtain ⟨source, m, mem, copy, n, new, sourceRead, owner, memRead, copyRead, copyOwner, newRead,
    bytes, low, high,
    -, -⟩ := same
  have length : copy.length = source.length := by
    simp only [BufBlk.length]
    omega
  have holds : new.Holds copy.rdPtr source.length ↔ mem.Holds source.rdPtr source.length := by
    simp only [MemBlk.Holds, MemBlk.size, bytes]
    omega
  have loaded : new.load copy.rdPtr copy.length = mem.load source.rdPtr source.length := by
    simp only [MemBlk.load, holds, bytes, length, low]
  simp only [Heap.blockBytes, copyRead, sourceRead, Option.bind_eq_bind, Option.bind_some,
    Heap.readable, copyOwner,
    owner, newRead, memRead, loaded]

theorem same_blocks_earlier (sameReads : ∀ b ∈ ids, linked.bufs.read b = heap.bufs.read b)
    (owned : ∀ b ∈ ids, Owned heap b)
    (sameMems : ∀ m mem, heap.mems.read m = some mem → linked.mems.read m = some mem)
    (blocks : List.Forall₂ (SameBlock linked after) ids copies) :
    List.Forall₂ (SameBlock heap after) ids copies := by
  have known : ∀ b ∈ ids, Owned heap b ∧ linked.bufs.read b = heap.bufs.read b :=
    fun b member => ⟨owned b member, sameReads b member⟩
  refine List.Forall₂.imp ?_ ((List.forall₂_and_left ids copies).mpr ⟨known, blocks⟩)
  rintro b c ⟨⟨⟨blk, m, mem, read, owner, memRead⟩, sameRead⟩, source, n, mine, copy, k, new,
    sourceRead, sourceOwner,
    mineRead, rest⟩
  cases (sameRead.symm.trans sourceRead).symm.trans read
  cases sourceOwner.symm.trans owner
  cases mineRead.symm.trans (sameMems _ _ memRead)
  exact ⟨blk, m, mem, copy, k, new, read, owner, memRead, rest⟩

/-! ## One block -/

def deepBlock (old blk : BufBlk) (n : MemId) (mem new : MemBlk) : BufBlk :=
  { old with
    blk := some n
    flags := blk.flags
    rdPtr := new.base + (blk.rdPtr - mem.base)
    wrPtr := new.base + (blk.wrPtr - mem.base)
    mark := new.base + (blk.mark - mem.base) }

theorem same_block_deep (old : BufBlk) {n : MemId} {next : Option BufId}
    (oRead : heap.bufs.read o = some blk) (owner : blk.blk = some m)
    (memRead : heap.mems.read m = some mem)
    (walkRead : after.bufs.read walk = some { deepBlock old blk n mem new with nextblk := next })
    (newRead : after.mems.read n = some new) (bytes : new.bytes = mem.bytes) :
    SameBlock heap after o walk := by
  refine ⟨blk, m, mem, _, n, new, oRead, owner, memRead, walkRead, rfl, newRead, bytes, ?_,
    ?_, ?_, rfl⟩
  · simp only [deepBlock]
    omega
  · simp only [deepBlock]
    omega
  · simp only [deepBlock]
    omega

theorem deep_copy_block_eq (succeeds : alloc.Succeeds) (bareRead : heap.bufs.read walk = some old)
    (oRead : heap.bufs.read o = some blk) (owner : blk.blk = some m)
    (memRead : heap.mems.read m = some mem) :
    ∃ new, new.refCount = 1 ∧ new.bytes = mem.bytes ∧ deepCopyBlock alloc heap walk o =
      some ((heap.pushMem new).1.putBuf walk (deepBlock old blk heap.mems.fresh mem new)) := by
  obtain ⟨copied, made, new, rfl, single, bytes⟩ :=
    yields_exists (deep_copy_mem_yields alloc memRead) succeeds
  have memPushed : (heap.pushMem new).1.mems.read m = some mem := read_push_of_present memRead new
  have newRead : (heap.pushMem new).1.mems.read heap.mems.fresh = some new := push_mem_read heap new
  have barePushed : (heap.pushMem new).1.bufs.read walk = some old := bareRead
  refine ⟨new, single, bytes, ?_⟩
  simp only [deepCopyBlock, oRead, owner, Option.bind_eq_bind, Option.bind_some, made, memPushed,
    newRead, barePushed]
  rfl

theorem filled_counted (blk : BufBlk) (mem : MemBlk) (counted : Counted heap fun _ => 0)
    (bareRead : heap.bufs.read walk = some old) (noBlk : old.blk = none)
    (single : new.refCount = 1) :
    Counted ((heap.pushMem new).1.putBuf walk (deepBlock old blk heap.mems.fresh mem new)) fun _ =>
    0 := by
  have pushed : Counted (heap.pushMem new).1 fun other => reference (some heap.mems.fresh) other :=
    counted_push_mem counted new single fun other => by simp
  apply counted_put_buf (show (heap.pushMem new).1.bufs.read walk = some old from bareRead) _ pushed
  intro other
  simp [deepBlock, noBlk, reference]

/-! ## The loop -/

/-- What was there is as it was, `walk` apart. -/
structure Later (before after : Heap) (walk : BufId) : Prop where
  bufs : ∀ c, c < before.bufs.fresh → c ≠ walk → after.bufs.read c = before.bufs.read c
  mems : ∀ m, m < before.mems.fresh → after.mems.read m = before.mems.read m

/-- The heap in which the next block has been made and linked. -/
def linkedHeap (heap : Heap) (walk : BufId) (made : BufBlk) (new : MemBlk) : Heap :=
  ((Heap.newBufBlk ((heap.pushMem new).1.putBuf walk made)).1).putBuf walk
    { made with nextblk := some heap.bufs.fresh }

theorem linked_fresh (heap : Heap) (walk : BufId) (made : BufBlk) (new : MemBlk) :
    (linkedHeap heap walk made new).bufs.fresh = heap.bufs.fresh + 1 := by
  simp [linkedHeap, Heap.newBufBlk, Heap.pushBuf, Heap.putBuf, Heap.pushMem]

theorem linked_mems (heap : Heap) (walk : BufId) (made : BufBlk) (new : MemBlk) :
    (linkedHeap heap walk made new).mems = heap.mems.push new := rfl

theorem linked_counted {made : BufBlk} (bareRead : heap.bufs.read walk = some old)
    (counted : Counted ((heap.pushMem new).1.putBuf walk made) fun _ => 0) :
    Counted (linkedHeap heap walk made new) fun _ => 0 := by
  have filled : ((heap.pushMem new).1.putBuf walk made).bufs.read walk = some made := by
    rw [read_put_buf (show (heap.pushMem new).1.bufs.read walk = some old from bareRead),
      if_pos rfl]
  have pushed : Counted (Heap.newBufBlk ((heap.pushMem new).1.putBuf walk made)).1 fun _ => 0 :=
    counted_push_buf _ counted fun other => by simp [reference]
  have still : (Heap.newBufBlk ((heap.pushMem new).1.putBuf walk made)).1.bufs.read walk =
      some made :=
    read_push_of_present filled _
  exact counted_put_buf still _ pushed fun other => rfl

section Linked

variable (made : BufBlk) (bareRead : heap.bufs.read walk = some old)

include bareRead

theorem linked_read (new : MemBlk) (c : BufId) : (linkedHeap heap walk made new).bufs.read c =
    if c = walk then some { made with nextblk := some heap.bufs.fresh }
    else if c = heap.bufs.fresh then some ⟨none, null, null, null, none, 0⟩
    else heap.bufs.read c := by
  have filled : ((heap.pushMem new).1.putBuf walk made).bufs.read walk = some made := by
    rw [read_put_buf (show (heap.pushMem new).1.bufs.read walk = some old from bareRead),
      if_pos rfl]
  have sameFresh : ((heap.pushMem new).1.putBuf walk made).bufs.fresh = heap.bufs.fresh :=
    fresh_write _ _ _
  rw [linkedHeap, read_put_buf (read_push_of_present filled _)]
  split_ifs with same fresh
  · rfl
  · rw [fresh, ← sameFresh]
    exact push_buf_read _ _
  · refine (read_push _ _ c).trans ?_
    rw [if_neg (fun here => fresh (here.trans sameFresh)),
      read_put_buf (show (heap.pushMem new).1.bufs.read walk = some old from bareRead), if_neg same]
    rfl

theorem linked_read_other (new : MemBlk) {c : BufId} (other : c ≠ walk)
    (notFresh : c ≠ heap.bufs.fresh) :
    (linkedHeap heap walk made new).bufs.read c = heap.bufs.read c := by
  rw [linked_read made bareRead new, if_neg other, if_neg notFresh]

theorem linked_later (new : MemBlk)
    (kept : Later (linkedHeap heap walk made new) after heap.bufs.fresh) :
    Later heap after walk ∧ after.bufs.read walk =
      some { made with nextblk := some heap.bufs.fresh } ∧
      after.mems.read heap.mems.fresh = some new := by
  have early : ∀ c, c < heap.bufs.fresh → c < (linkedHeap heap walk made new).bufs.fresh := by
    intro c old
    rw [linked_fresh]
    exact Nat.lt_succ_of_lt old
  have oldMems : ∀ n, n ≤ heap.mems.fresh → after.mems.read n = (heap.mems.push new).read n := by
    intro n old
    apply kept.mems
    rw [linked_mems, fresh_push]
    exact Nat.lt_succ_of_le old
  refine ⟨⟨?_, ?_⟩, ?_, ?_⟩
  · intro c old other
    have notFresh : c ≠ heap.bufs.fresh := Nat.ne_of_lt old
    rw [kept.bufs c (early c old) notFresh, linked_read_other made bareRead new other notFresh]
  · intro n old
    rw [oldMems n (Nat.le_of_lt old), read_push, if_neg (Nat.ne_of_lt old)]
  · have walkOld : walk < heap.bufs.fresh := read_bound bareRead
    rw [kept.bufs walk (early walk walkOld) (Nat.ne_of_lt walkOld),
      linked_read made bareRead new, if_pos rfl]
  · exact (oldMems _ (Nat.le_refl _)).trans (push_mem_read heap new)

end Linked

theorem deep_copy_loop_last (fuel : Nat) {filled : Heap}
    (copied : deepCopyBlock alloc heap walk o = some filled) (oRead : filled.bufs.read o = some blk)
    (atEnd : blk.nextblk = none) :
    deepCopyLoop alloc (fuel + 1) heap walk o = some filled := by
  simp only [deepCopyLoop, copied, oRead, atEnd, Option.bind_eq_bind, Option.bind_some]

theorem deep_copy_loop_next (fuel : Nat) {made : BufBlk} {follow : BufId}
    (bareRead : heap.bufs.read walk = some old)
    (copied : deepCopyBlock alloc heap walk o = some ((heap.pushMem new).1.putBuf walk made))
    (oRead : ((heap.pushMem new).1.putBuf walk made).bufs.read o = some blk)
    (next : blk.nextblk = some follow) :
    deepCopyLoop alloc (fuel + 1) heap walk o =
      deepCopyLoop alloc fuel (linkedHeap heap walk made new) heap.bufs.fresh follow := by
  have filled : ((heap.pushMem new).1.putBuf walk made).bufs.read walk = some made := by
    rw [read_put_buf (show (heap.pushMem new).1.bufs.read walk = some old from bareRead),
      if_pos rfl]
  have sameFresh : ((heap.pushMem new).1.putBuf walk made).bufs.fresh = heap.bufs.fresh :=
    fresh_write _ _ _
  have relinked : (Heap.newBufBlk ((heap.pushMem new).1.putBuf walk made)).1.setNexblk walk
      (some heap.bufs.fresh) =
      some (linkedHeap heap walk made new) := set_nexblk_eq (read_push_of_present filled _) _
  simp only [deepCopyLoop, copied, oRead, next, Option.bind_eq_bind, Option.bind_some]
  change ((Heap.newBufBlk ((heap.pushMem new).1.putBuf walk made)).1.setNexblk walk
    (some ((heap.pushMem new).1.putBuf walk made).bufs.fresh)).bind _ = _
  rw [sameFresh, relinked, Option.bind_some]
  exact congrArg (fun made => deepCopyLoop alloc fuel _ made follow) sameFresh

/-- From `walk` on, by induction on the blocks of the source that are still to come. -/
theorem deep_copy_loop_copied (succeeds : alloc.Succeeds) (fuel : Nat)
    (bareRead : heap.bufs.read walk = some old) (bare : old.nextblk = none) (noBlk : old.blk = none)
    (chain : Chain heap.next (some o) source) (apart : walk ∉ source)
    (owned : ∀ b ∈ source, Owned heap b) (counted : Counted heap fun _ => 0)
    (enough : source.length ≤ fuel) :
    ∃ after copies, deepCopyLoop alloc fuel heap walk o = some after ∧ (Counted after fun _ => 0) ∧
      Later heap after walk ∧
      Chain after.next (some walk) (walk :: copies) ∧ (∀ c ∈ copies, heap.bufs.fresh ≤ c) ∧
      (∀ c ∈ walk :: copies, ∀ n, after.memOf c = some n → heap.mems.fresh ≤ n) ∧
      List.Forall₂ (SameBlock heap after) source (walk :: copies) := by
  induction source generalizing fuel heap walk old o with
  | nil => simp at chain
  | cons first rest ih =>
      rcases chain with ⟨same, follow, step, tail⟩
      cases Option.some.inj same
      rcases read_of_next step with ⟨blk, oRead, rfl⟩
      rw [List.mem_cons, not_or] at apart
      obtain ⟨known, m, mem, knownRead, owner, memRead⟩ := owned first (by simp)
      cases oRead.symm.trans knownRead
      obtain ⟨fuel, rfl⟩ : ∃ less, fuel = less + 1 :=
        ⟨fuel - 1, by rw [List.length_cons] at enough; omega⟩
      obtain ⟨new, single, bytes, copied⟩ :=
        deep_copy_block_eq succeeds bareRead oRead owner memRead
      have filledCounted := filled_counted blk mem counted bareRead noBlk single
      have filledRead (c : BufId) : ((heap.pushMem new).1.putBuf walk
          (deepBlock old blk heap.mems.fresh mem new)).bufs.read c =
            if c = walk then some (deepBlock old blk heap.mems.fresh mem new)
            else heap.bufs.read c :=
        read_put_buf (show (heap.pushMem new).1.bufs.read walk = some old from bareRead) _ c
      have oFilled := (filledRead first).trans ((if_neg (Ne.symm apart.1)).trans oRead)
      cases next : blk.nextblk with
      | none =>
          rw [next] at tail
          have restNil : rest = [] := List.head?_eq_none_iff.mp (chain_start tail).symm
          subst restNil
          have walkRead := (filledRead walk).trans (if_pos rfl)
          refine ⟨_, [], deep_copy_loop_last fuel copied oFilled next, filledCounted, ⟨?_, ?_⟩,
            ?_, by simp, ?_, ?_⟩
          · intro c _ other
            rw [filledRead, if_neg other]
          · intro n early
            exact (read_push _ _ n).trans (if_neg (Nat.ne_of_lt early))
          · exact ⟨rfl, none, by rw [next_of_read walkRead]; exact congrArg some bare, rfl⟩
          · intro c member n owns
            rw [List.mem_singleton.mp member, Heap.memOf, walkRead] at owns
            exact Nat.le_of_eq (Option.some.inj owns)
          · exact .cons (same_block_deep old oRead owner memRead walkRead
              (push_mem_read heap new) bytes) .nil
      | some later =>
          rw [next] at tail
          have walkOld : walk < heap.bufs.fresh := read_bound bareRead
          have linkedRead := linked_read (deepBlock old blk heap.mems.fresh mem new) bareRead new
          have newRest : heap.bufs.fresh ∉ rest := chain_not_fresh tail
          have restRead : ∀ c ∈ rest,
              (linkedHeap heap walk (deepBlock old blk heap.mems.fresh mem new) new).bufs.read c =
                heap.bufs.read c := by
            intro c member
            have notWalk : c ≠ walk := fun same => apart.2 (same ▸ member)
            have notFresh : c ≠ heap.bufs.fresh := fun same => newRest (same ▸ member)
            exact linked_read_other _ bareRead new notWalk notFresh
          have freshRead := (linkedRead heap.bufs.fresh).trans
            ((if_neg (Nat.ne_of_gt walkOld)).trans (if_pos rfl))
          have restOwned : ∀ b ∈ rest,
              Owned (linkedHeap heap walk (deepBlock old blk heap.mems.fresh mem new) new) b := by
            intro b member
            obtain ⟨found, n, mine, read, owns, alive⟩ := owned b (by simp [member])
            exact ⟨found, n, mine, (restRead b member).trans read, owns,
              read_push_of_present alive new⟩
          obtain ⟨after, copies, ran, afterCounted, kept, linked, fresh, mems, blocks⟩ :=
            ih fuel freshRead rfl rfl (chain_same tail restRead) newRest restOwned
              (linked_counted bareRead filledCounted) (by rw [List.length_cons] at enough; omega)
          rw [linked_fresh] at fresh
          obtain ⟨keptOld, walkRead, newRead⟩ := linked_later _ bareRead new kept
          refine ⟨after, heap.bufs.fresh :: copies, ?_, afterCounted, keptOld, ?_, ?_, ?_, ?_⟩
          · rw [deep_copy_loop_next fuel bareRead copied oFilled next, ran]
          · exact ⟨rfl, some heap.bufs.fresh, next_of_read walkRead, linked⟩
          · intro c member
            rcases List.mem_cons.mp member with rfl | later
            · exact Nat.le_refl _
            · exact Nat.le_of_succ_le (fresh c later)
          · intro c member n owns
            rcases List.mem_cons.mp member with rfl | later
            · rw [Heap.memOf, walkRead] at owns
              exact Nat.le_of_eq (Option.some.inj owns)
            · have late := mems c later n owns
              rw [linked_mems, fresh_push] at late
              exact Nat.le_of_succ_le late
          · refine .cons (same_block_deep old oRead owner memRead walkRead newRead bytes) ?_
            exact same_blocks_earlier restRead (fun b member => owned b (by simp [member]))
              (fun n mine alive => read_push_of_present alive new) blocks

/-! ## The two chains afterwards -/

/-- An equal chain over other MemBlks. -/
structure DeepCopied (before after : Heap) (ids copies : List BufId) : Prop where
  source : ∀ b ∈ ids, after.bufs.read b = before.bufs.read b
  blocks : List.Forall₂ (SameBlock before after) ids copies
  bytes : List.Forall₂ (fun b c => after.blockBytes c = before.blockBytes b) ids copies
  apart : ∀ b ∈ ids, ∀ c ∈ copies, ∀ m, after.memOf b = some m → after.memOf c ≠ some m

def SameBytes (before after : Heap) (b : BufId) : Prop :=
  after.blockBytes b = before.blockBytes b ∧ after.contents (some b) = before.contents (some b)

/-- Sound calls on both chains, and sound calls on one of them behind those: all of them come to an
end, and the later ones leave what can be read from the other chain. -/
def Independent (heap : Heap) (ids copies : List BufId) : Prop :=
  ∀ calls more : List Call, (∀ call ∈ calls, call.block ∈ ids ∨ call.block ∈ copies) →
    SoundCalls heap (calls ++ more) →
      ∃ middle final, runCalls heap calls = some middle ∧ runCalls middle more = some final ∧
        ((∀ call ∈ more, call.block ∈ ids) → ∀ c ∈ copies, SameBytes middle final c) ∧
          ((∀ call ∈ more, call.block ∈ copies) → ∀ b ∈ ids, SameBytes middle final b)

theorem independent_of_apart {left right : Region} (apart : left.Apart right)
    (counted : Counted heap fun _ => 0) (leftClosed : left.Closed heap)
    (rightClosed : right.Closed heap) (leftBufs : ∀ b, left.bufs b ↔ b ∈ ids)
    (rightBufs : ∀ c, right.bufs c ↔ c ∈ copies) : Independent heap ids copies := by
  intro calls more members sound
  obtain ⟨soundCalls, soundMore⟩ := sound_calls_append sound
  obtain ⟨middle, ran, middleCounted⟩ := sound_calls_run calls counted soundCalls
  obtain ⟨final, ranMore, -⟩ := sound_calls_run more middleCounted (soundMore middle ran)
  refine ⟨middle, final, ran, ranMore, ?_⟩
  have both : ∀ call ∈ calls, left.bufs call.block ∨ right.bufs call.block := by
    intro call member
    rw [leftBufs, rightBufs]
    exact members call member
  obtain ⟨leftNow, rightNow⟩ := calls_closed apart calls both leftClosed rightClosed ran
  constructor
  · intro onLeft c member
    have confined := (confined_calls (confined_refl leftNow) more fun call inMore =>
      (leftBufs _).mpr (onLeft call inMore)).2 final ranMore
    have inside := (rightBufs c).mpr member
    refine ⟨block_bytes_outside apart confined rightNow inside,
      contents_outside apart confined rightNow ?_⟩
    rintro b ⟨rfl⟩
    exact inside
  · intro onRight b member
    have confined := (confined_calls (confined_refl rightNow) more fun call inMore =>
      (rightBufs _).mpr (onRight call inMore)).2 final ranMore
    have inside := (leftBufs b).mpr member
    refine ⟨block_bytes_outside (apart_symm apart) confined leftNow inside,
      contents_outside (apart_symm apart) confined leftNow ?_⟩
    rintro c ⟨rfl⟩
    exact inside

theorem three_blocks_counted : Counted threeBlocks fun _ => 0 := by
  intro m
  match m with
  | 0 => exact ⟨by decide, by decide⟩
  | 1 => exact ⟨by decide, by decide⟩
  | 2 => exact ⟨by decide, by decide⟩
  | m + 3 => simp [threeBlocks, liveUsers, Store.read, Store.count]

def copiedBlocks : Heap where
  mems := ⟨threeBlocks.mems.cells ++ [some ⟨1, 4000, [1, 2], true⟩, some ⟨1, 5000, [3, 4], true⟩,
    some ⟨1, 6000, [5, 6], true⟩]⟩
  bufs := ⟨threeBlocks.bufs.cells ++ [some ⟨some 3, 4000, 4002, 4000, some 4, 0⟩,
    some ⟨some 4, 5000, 5002, 5000, some 5, 0⟩, some ⟨some 5, 6000, 6002, 6000, none, 0⟩]⟩
  deleted := []
  freed := []

end TWlib.BufBlkDeepCopy
