import TWlib.BufBlkView

/-!
# Copying chains: `duplicate`, `operator=` and `deepCopy`

A duplicated chain has new blocks over the old MemBlks, a deep copy new MemBlks
as well. `duplicate_chain` says that the blocks made by `duplicate` read as those
of the chain, while nothing that was there before is disturbed.
-/

namespace TWlib.BufBlkCopy

open TWlib.Lib.CellStore TWlib.Lib.LinkedChain TWlib.BufBlkHeap TWlib.BufBlkChain TWlib.BufBlkView

set_option autoImplicit false

/-! ## The code -/

def checkoutOpt (heap : Heap) : Option MemId → Option Heap
  | none => some heap
  | some m => heap.checkout m

/-- `while(walko)`: a block over the same MemBlk behind `walk`. -/
def copyChain : Nat → Heap → BufId → Option BufId → Option Heap
  | _, heap, _, none => some heap
  | 0, _, _, some _ => none
  | fuel + 1, heap, walk, some walko => do
      let o ← heap.bufs.read walko
      let (heap, copy) ← Heap.newBufBlkSharing heap o.blk
      let heap ← heap.setNexblk walk (some copy)
      let made ← heap.bufs.read copy
      let heap := heap.putBuf copy { made with rdPtr := o.rdPtr, wrPtr := o.wrPtr }
      copyChain fuel heap copy o.nextblk

/-- `BufBlk::assignFromBlk`. The link of `o` is read after that of `this` was cleared. -/
def assignFromBlk (heap : Heap) (this o : BufId) : Option Heap := do
  let steps := heap.bufs.fresh
  let source ← heap.bufs.read o
  let heap ← checkoutOpt heap source.blk
  let mine ← heap.bufs.read this
  let heap := heap.putBuf this { mine with
    blk := source.blk, nextblk := none, rdPtr := source.rdPtr, wrPtr := source.wrPtr, mark :=
      source.mark }
  let source ← heap.bufs.read o
  copyChain steps heap this source.nextblk

/-- `BufBlk::BufBlk(BufBlk &o)`. -/
def newBufBlkCopy (heap : Heap) (o : BufId) : Option (Heap × BufId) := do
  let source ← heap.bufs.read o
  let (heap, this) := heap.pushBuf { source with nextblk := none, flags := 0 }
  let heap ← assignFromBlk heap this o
  some (heap, this)

def duplicate (heap : Heap) (this : BufId) : Option (Heap × BufId) := newBufBlkCopy heap this

/-- The statements of `BufBlk::operator=`. -/
def assignBody (heap : Heap) (this o : BufId) : Option Heap := do
  let mine ← heap.bufs.read this
  let heap ← heap.releaseOpt mine.nextblk
  let heap ← heap.releaseOptMem mine.blk
  assignFromBlk heap this o

/-- `BufBlk::operator=`. Behind its statements control flows off the end of a function that has to
return a reference, so that no call of it is defined. -/
def assign (heap : Heap) (this o : BufId) : Option Heap := do
  let _ ← assignBody heap this o
  none

@[simp] theorem assign_eq_none (heap : Heap) (this o : BufId) : assign heap this o = none := by
  simp [assign]

/-- One turn of the loop of `deepCopy`: the MemBlk of `walk` is copied for `walknew`. -/
def deepCopyBlock (alloc : Alloc) (heap : Heap) (walknew walk : BufId) : Option Heap := do
  let source ← heap.bufs.read walk
  match source.blk with
  | none => some heap
  | some m =>
      let (heap, copy) ← Heap.deepCopyMem alloc heap m
      let old ← heap.mems.read m
      let new ← heap.mems.read copy
      let made ← heap.bufs.read walknew
      some (heap.putBuf walknew { made with
        blk := some copy, flags := source.flags,
        rdPtr := new.base + (source.rdPtr - old.base),
        wrPtr := new.base + (source.wrPtr - old.base),
        mark := new.base + (source.mark - old.base) })

/-- `while(walk)`. -/
def deepCopyLoop (alloc : Alloc) : Nat → Heap → BufId → BufId → Option Heap
  | 0, _, _, _ => none
  | fuel + 1, heap, walknew, walk => do
      let heap ← deepCopyBlock alloc heap walknew walk
      let source ← heap.bufs.read walk
      match source.nextblk with
      | none => some heap
      | some after =>
          let (heap, made) := Heap.newBufBlk heap
          let heap ← heap.setNexblk walknew (some made)
          deepCopyLoop alloc fuel heap made after

def deepCopy (alloc : Alloc) (heap : Heap) (this : BufId) : Option (Heap × BufId) := do
  let steps := heap.bufs.fresh
  let (heap, ret) := Heap.newBufBlk heap
  let heap ← deepCopyLoop alloc steps heap ret this
  some (heap, ret)

/-! ## Duplicating a chain -/

variable {before after heap : Heap}

theorem extends_delete (heap : Heap) (b : BufId) : Extends (heap.deleteBuf b) heap := by
  refine ⟨fun other blk present => ?_, fun m mem present => ⟨mem, present, rfl, rfl⟩⟩
  rw [delete_buf_bufs, read_give_up] at present
  split_ifs at present
  exact present

theorem extends_delete_new {b : BufId} (ext : Extends before heap)
    (new : before.bufs.read b = none) :
    Extends before (heap.deleteBuf b) := by
  refine ⟨fun other blk present => ?_, ext.mems⟩
  have different : other ≠ b := by
    rintro rfl
    simp [new] at present
  rw [delete_buf_bufs, read_give_up, if_neg different]
  exact ext.bufs other blk present

theorem same_place_reads {b c : BufId} {source made : BufBlk} (ext : Extends before after)
    (present : before.bufs.read b = some source) (ok : BlockOk before b)
    (copied : after.bufs.read c = some made) (owner : made.blk = source.blk)
    (low : made.rdPtr = source.rdPtr) (high : made.wrPtr = source.wrPtr) :
    BlockOk after c ∧ bytesOf after c = bytesOf before b := by
  have sameReadable : after.readable made = after.readable source := by
    cases made
    cases source
    cases owner
    cases low
    cases high
    rfl
  have sameBytes : after.blockBytes c = after.blockBytes b := by
    simp only [Heap.blockBytes, copied, ext.bufs b source present, Option.bind_eq_bind,
      Option.bind_some, sameReadable]
  refine ⟨?_, by rw [bytesOf, sameBytes, extends_block_bytes ext ok, bytesOf]⟩
  rcases extends_block_ok ext ok with ⟨same, again, inside⟩
  cases Option.some.inj ((ext.bufs b source present).symm.trans again)
  refine ⟨made, copied, ?_⟩
  rw [owner, low, high]
  exact inside

theorem sharing_eq {m : MemId} {mem : MemBlk} (present : heap.mems.read m = some mem) :
    Heap.newBufBlkSharing heap (some m) =
      some ((heap.putMem m { mem with refCount := mem.refCount + 1 }).pushBuf
        ⟨some m, mem.base, mem.base, null, none, 0⟩) := by
  have now : (heap.putMem m { mem with refCount := mem.refCount + 1 }).mems.read m =
      some { mem with refCount := mem.refCount + 1 } := by
    simp [read_write present]
  simp only [Heap.newBufBlkSharing, Option.bind_eq_bind, Option.bind_some, checkout_eq present, now]

/-- A turn of the loop of `assignFromBlk` up to the link: a new block over `m` behind `walk`. -/
def copyLinked (heap : Heap) (walk : BufId) (blk : BufBlk) (m : MemId) (mem : MemBlk) : Heap :=
  ((heap.putMem m { mem with refCount := mem.refCount + 1 }).pushBuf
    ⟨some m, mem.base, mem.base, null, none,
      0⟩).1.putBuf walk { blk with nextblk := some heap.bufs.fresh }

def copyTurn (heap : Heap) (walk : BufId) (blk o : BufBlk) (m : MemId) (mem : MemBlk) : Heap :=
  (copyLinked heap walk blk m mem).putBuf heap.bufs.fresh ⟨some m, o.rdPtr, o.wrPtr, null, none, 0⟩

section Turn

variable {walk b : BufId} {blk o : BufBlk} {m : MemId} {mem : MemBlk}

theorem copy_linked_read (present : heap.bufs.read walk = some blk) (other : BufId) :
    (copyLinked heap walk blk m mem).bufs.read other =
      if other = heap.bufs.fresh then some ⟨some m, mem.base, mem.base, null, none, 0⟩
      else if other = walk then some { blk with nextblk := some heap.bufs.fresh }
      else heap.bufs.read other := by
  have apart : heap.bufs.fresh ≠ walk := Ne.symm (Nat.ne_of_lt (read_bound present))
  have pushed := read_push heap.bufs ⟨some m, mem.base, mem.base, null, none, 0⟩ other
  rw [copyLinked, read_put_buf (read_push_of_present present _)]
  by_cases new : other = heap.bufs.fresh
  · rw [if_pos new] at pushed ⊢
    rw [if_neg (new ▸ apart)]
    exact pushed
  · rw [if_neg new] at pushed ⊢
    split_ifs
    · rfl
    · exact pushed

theorem copy_linked_copy (present : heap.bufs.read walk = some blk) :
    (copyLinked heap walk blk m mem).bufs.read heap.bufs.fresh =
      some ⟨some m, mem.base, mem.base, null, none, 0⟩ := by
  rw [copy_linked_read present, if_pos rfl]

theorem copy_turn_read (present : heap.bufs.read walk = some blk) (other : BufId) :
    (copyTurn heap walk blk o m mem).bufs.read other =
      if other = heap.bufs.fresh then some ⟨some m, o.rdPtr, o.wrPtr, null, none, 0⟩
      else if other = walk then some { blk with nextblk := some heap.bufs.fresh }
      else heap.bufs.read other := by
  rw [copyTurn, read_put_buf (copy_linked_copy present), copy_linked_read present]
  by_cases new : other = heap.bufs.fresh
  · rw [if_pos new, if_pos new]
  · rw [if_neg new, if_neg new, if_neg new]

theorem copy_turn_copy (present : heap.bufs.read walk = some blk) :
    (copyTurn heap walk blk o m mem).bufs.read heap.bufs.fresh =
      some ⟨some m, o.rdPtr, o.wrPtr, null, none, 0⟩ := by
  rw [copy_turn_read present, if_pos rfl]

theorem copy_turn_walk (present : heap.bufs.read walk = some blk) :
    (copyTurn heap walk blk o m mem).bufs.read walk =
    some { blk with nextblk := some heap.bufs.fresh } := by
  rw [copy_turn_read present, if_neg (Nat.ne_of_lt (read_bound present)), if_pos rfl]

theorem copy_turn_eq (fuel : Nat) (oRead : heap.bufs.read b = some o) (owner : o.blk = some m)
    (memRead : heap.mems.read m = some mem) (present : heap.bufs.read walk = some blk) :
    copyChain (fuel + 1) heap walk (some b) =
      copyChain fuel (copyTurn heap walk blk o m mem) heap.bufs.fresh o.nextblk := by
  let shared := ((heap.putMem m { mem with refCount := mem.refCount + 1 }).pushBuf
    ⟨some m, mem.base, mem.base, null, none, 0⟩).1
  have sharing : Heap.newBufBlkSharing heap o.blk = some (shared, heap.bufs.fresh) := by
    rw [owner]
    exact sharing_eq memRead
  have relinked : shared.setNexblk walk (some heap.bufs.fresh) =
      some (copyLinked heap walk blk m mem) :=
    set_nexblk_eq (read_push_of_present present _) _
  simp only [copyChain, oRead, sharing, relinked, copy_linked_copy present, Option.bind_eq_bind,
    Option.bind_some]
  rfl

theorem extends_fresh (ext : Extends before heap) : before.bufs.read heap.bufs.fresh = none := by
  by_contra there
  rcases Option.ne_none_iff_exists'.mp there with ⟨known, knownRead⟩
  exact Nat.lt_irrefl _ (read_bound (ext.bufs _ known knownRead))

theorem extends_copy_turn (ext : Extends before heap) (new : before.bufs.read walk = none)
    (memRead : heap.mems.read m = some mem) (present : heap.bufs.read walk = some blk) :
    Extends before (copyTurn heap walk blk o m mem) := by
  have shared := extends_push_buf (extends_checkout ext memRead) ⟨some m, mem.base, mem.base,
    null, none, 0⟩
  have linked := extends_put_new_buf shared new (read_push_of_present present _)
    { blk with nextblk := some heap.bufs.fresh }
  exact extends_put_new_buf linked (extends_fresh ext) (copy_linked_copy present) _

end Turn

theorem assign_from_blk_eq {this o : BufId} {source mine : BufBlk} {counted : Heap}
    (sourceRead : heap.bufs.read o = some source)
    (checkedOut : checkoutOpt heap source.blk = some counted)
    (mineRead : counted.bufs.read this = some mine)
    (sourceCounted : counted.bufs.read o = some source) (apart : o ≠ this) :
    assignFromBlk heap this o = copyChain heap.bufs.fresh
      (counted.putBuf this { mine with
        blk := source.blk, nextblk := none, rdPtr := source.rdPtr, wrPtr := source.wrPtr, mark :=
          source.mark })
      this source.nextblk := by
  simp only [assignFromBlk, sourceRead, checkedOut, mineRead, Option.bind_eq_bind, Option.bind_some]
  rw [read_put_buf mineRead, if_neg apart, sourceCounted, Option.bind_some]

/-- The copy is made with the fields of `b` and has them assigned once more. -/
theorem new_buf_blk_copy_eq {b : BufId} {source : BufBlk} {m : MemId} {mem : MemBlk}
    (present : heap.bufs.read b = some source) (owner : source.blk = some m)
    (memRead : heap.mems.read m = some mem) :
    newBufBlkCopy heap b = (copyChain (heap.bufs.fresh + 1)
      ((heap.putMem m { mem with refCount := mem.refCount + 1 }).pushBuf
        { source with nextblk := none, flags := 0 }).1 heap.bufs.fresh source.nextblk).map
      fun after => (after, heap.bufs.fresh) := by
  let copied : BufBlk := { source with nextblk := none, flags := 0 }
  let pushed := (heap.pushBuf copied).1
  let counted := pushed.putMem m { mem with refCount := mem.refCount + 1 }
  have sourcePushed : pushed.bufs.read b = some source := read_push_of_present present copied
  have checkedOut : checkoutOpt pushed source.blk = some counted := by
    rw [owner]
    exact checkout_eq (show pushed.mems.read m = some mem from memRead)
  have assigned := assign_from_blk_eq sourcePushed checkedOut (push_buf_read heap copied)
    sourcePushed
    (Nat.ne_of_lt (read_bound present))
  have placed : counted.putBuf heap.bufs.fresh copied =
      ((heap.putMem m { mem with refCount := mem.refCount + 1 }).pushBuf copied).1 := by
    simp only [counted, pushed, Heap.putBuf, Heap.putMem, Heap.pushBuf, push_write]
  change (heap.bufs.read b).bind _ = _
  rw [present, Option.bind_some]
  change (assignFromBlk pushed heap.bufs.fresh b).bind _ = _
  rw [assigned, Option.map_eq_bind]
  change (copyChain pushed.bufs.fresh (counted.putBuf heap.bufs.fresh copied) _ _).bind _ = _
  rw [placed, show pushed.bufs.fresh = heap.bufs.fresh + 1 from fresh_push _ _]
  rfl

def AllBacked (heap : Heap) (ids : List BufId) : Prop := ∀ b ∈ ids, ∃ m, heap.memOf b = some m

/-- The blocks `copies` were added behind `walk`. -/
structure Copied (before heap after : Heap) (walk : BufId) (source copies : List BufId) : Prop where
  kept : Extends (heap.deleteBuf walk) after
  linked : ∀ blk, heap.bufs.read walk = some blk →
    after.bufs.read walk = some { blk with nextblk := copies.head? }
  chain : ChainOk after copies.head? copies
  bytes : copies.map (bytesOf after) = source.map (bytesOf before)

theorem copy_chain_copied {ids : List BufId} {start : Option BufId} {walk : BufId} {blk : BufBlk}
    (fuel : Nat) (ok : ChainOk before start ids) (backed : AllBacked before ids)
    (enough : ids.length ≤ fuel) (ext : Extends before heap) (new : before.bufs.read walk = none)
    (present : heap.bufs.read walk = some blk) (last : blk.nextblk = none) :
    ∃ after copies, copyChain fuel heap walk start = some after ∧
      Copied before heap after walk ids copies := by
  induction ids generalizing start fuel heap walk blk with
  | nil =>
      have empty : start = none := ok.linked
      subst empty
      refine ⟨heap, [], by cases fuel <;> rfl, extends_delete heap walk, ?_, ⟨rfl, by simp⟩, rfl⟩
      intro found foundPresent
      cases Option.some.inj (present.symm.trans foundPresent)
      rw [present, Option.some.injEq]
      cases blk
      cases last
      rfl
  | cons b rest ih =>
      rcases chain_ok_cons ok with ⟨first, o, oRead, -, -, tail⟩
      subst first
      cases fuel with
      | zero => simp at enough
      | succ fuel =>
          simp only [List.length_cons, Nat.add_le_add_iff_right] at enough
          rcases backed b (by simp) with ⟨m, owner⟩
          have ownerEq : o.blk = some m := by simpa [Heap.memOf, oRead] using owner
          rcases block_ok_mem (ok.inside b (by simp)) owner with ⟨old, oldRead⟩
          rcases ext.mems m old oldRead with ⟨mem, memRead, -⟩
          let copy := heap.bufs.fresh
          let placed := copyTurn heap walk blk o m mem
          have copyOther : walk ≠ copy := Nat.ne_of_lt (read_bound present)
          have copyPlaced : placed.bufs.read copy = some ⟨some m, o.rdPtr, o.wrPtr,
              null, none, 0⟩ :=
            copy_turn_copy present
          have walkGone : (heap.deleteBuf walk).bufs.read walk = none := by
            rw [delete_buf_bufs, read_give_up, if_pos rfl]
          rcases ih fuel tail (fun other member => backed other
            (List.mem_cons_of_mem _ member)) enough
            (extends_copy_turn ext new memRead present) (extends_fresh ext) copyPlaced rfl with
            ⟨after, copies, copied, done⟩
          have step : copyChain (fuel + 1) heap walk (some b) =
              copyChain fuel placed copy o.nextblk :=
            copy_turn_eq fuel (ext.bufs b o oRead) ownerEq memRead present
          have kept : Extends (heap.deleteBuf walk) after := by
            have untilCopy := extends_delete heap walk
            apply extends_trans _ done.kept
            exact extends_delete_new (extends_copy_turn untilCopy walkGone memRead present)
              (extends_fresh untilCopy)
          have extAfter : Extends before after :=
            extends_trans (extends_delete_new ext new) kept
          have copyAfter := done.linked _ copyPlaced
          rcases same_place_reads extAfter oRead (ok.inside b (by simp)) copyAfter ownerEq.symm
              rfl rfl with
            ⟨copyOk, copyBytes⟩
          refine ⟨after, copy :: copies, step.trans copied, kept, ?_,
            ⟨⟨rfl, copies.head?, ?_, ?_⟩, ?_⟩, ?_⟩
          · intro found foundPresent
            cases Option.some.inj (present.symm.trans foundPresent)
            apply done.kept.bufs
            rw [delete_buf_bufs, read_give_up, if_neg copyOther]
            exact copy_turn_walk present
          · rw [next_of_read copyAfter]
          · exact done.chain.linked
          · intro other member
            rcases List.mem_cons.mp member with same | behind
            · exact same ▸ copyOk
            · exact done.chain.inside other behind
          · rw [List.map_cons, List.map_cons, copyBytes, done.bytes]

theorem duplicate_chain {this : BufId} {ids : List BufId} (ok : ChainOk before (some this) ids)
    (backed : AllBacked before ids) :
    ∃ after copy copies, duplicate before this = some (after, copy) ∧ Extends before after ∧
      ChainOk after (some copy) copies ∧ copies.map (bytesOf after) = ids.map (bytesOf before) := by
  cases ids with
  | nil => cases ok.linked
  | cons b rest =>
      rcases chain_ok_cons ok with ⟨first, source, sourceRead, -, -, tail⟩
      cases Option.some.inj first
      rcases backed this (by simp) with ⟨m, owner⟩
      have ownerEq : source.blk = some m := by simpa [Heap.memOf, sourceRead] using owner
      rcases block_ok_mem (ok.inside this (by simp)) owner with ⟨mem, memRead⟩
      let fresh : BufBlk := { source with nextblk := none, flags := 0 }
      let copy := before.bufs.fresh
      let placed := ((before.putMem m { mem with refCount := mem.refCount + 1 }).pushBuf fresh).1
      have newCopy : before.bufs.read copy = none := read_beyond (Nat.le_refl _)
      have ext : Extends before placed :=
        extends_push_buf (extends_checkout (extends_refl before) memRead) fresh
      have copyPlaced : placed.bufs.read copy = some fresh := push_buf_read _ fresh
      have enough : rest.length ≤ before.bufs.fresh + 1 := by
        have bound := chain_bound ok.linked
        simp only [List.length_cons] at bound
        omega
      rcases copy_chain_copied (before.bufs.fresh + 1) tail
        (fun other member => backed other (List.mem_cons_of_mem _ member)) enough ext newCopy
        copyPlaced rfl with ⟨after, copies, copied, done⟩
      have extAfter : Extends before after :=
        extends_trans (extends_delete_new ext newCopy) done.kept
      have copyAfter := done.linked _ copyPlaced
      rcases same_place_reads extAfter sourceRead (ok.inside this (by simp)) copyAfter rfl
          rfl rfl with
        ⟨copyOk, copyBytes⟩
      refine ⟨after, copy, copy :: copies, ?_, extAfter, ⟨⟨rfl, copies.head?, ?_, ?_⟩, ?_⟩, ?_⟩
      · rw [duplicate, new_buf_blk_copy_eq sourceRead ownerEq memRead, copied, Option.map_some]
      · rw [next_of_read copyAfter]
      · exact done.chain.linked
      · intro other member
        rcases List.mem_cons.mp member with same | behind
        · exact same ▸ copyOk
        · exact done.chain.inside other behind
      · rw [List.map_cons, List.map_cons, copyBytes, done.bytes]

end TWlib.BufBlkCopy
