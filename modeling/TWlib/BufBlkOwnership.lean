import TWlib.BufBlkCopy
import TWlib.BufBlkContig
import TWlib.BufBlkCount
import TWlib.Lib.ChainForest

/-!
# Blocks owned through their chains

`Good` is the invariant of the reference counting: every count is the number of
live blocks that refer to the MemBlk, the live blocks are divided into chains, and
every block is over a live MemBlk with its positions in order. The functions of
BufBlk are followed through it one by one; what they may be given is stated in
terms of the chains.
-/

namespace TWlib.BufBlkOwnership

open TWlib.Lib.CellStore TWlib.Lib.LinkedChain TWlib.Lib.ChainForest
open TWlib.BufBlkHeap TWlib.BufBlkChain TWlib.BufBlkView TWlib.BufBlkCount TWlib.BufBlkCopy
open TWlib.BufBlkContig TWlib.BufBlkSeek

set_option autoImplicit false

/-- `bare` is the one block that may still be without a MemBlk. The counting does not depend on
where the positions of the blocks are; `tidy` says that they have been kept in order. -/
structure Good (tidy : Prop) (heap : Heap) (chains : List (List BufId))
    (bare : Option BufId) : Prop where
  counted : Counted heap fun _ => 0
  forest : Forest heap.next chains
  inside : ∀ b blk, heap.bufs.read b = some blk →
    (tidy → BlockOk heap b) ∧ (bare ≠ some b → ∃ m, blk.blk = some m)

variable {tidy : Prop} {heap after : Heap} {chains others : List (List BufId)}
  {ids pre tail : List BufId} {bare : Option BufId} {b this target : BufId} {blk old : BufBlk}
  {m : MemId} {mem : MemBlk}

theorem good_empty : Good tidy emptyHeap [] none := by
  refine ⟨counted_intro (fun m mem present => ?_) (fun m _ => ?_), forest_empty fun b => rfl, ?_⟩
  · simp [emptyHeap] at present
  · simp [liveUsers, emptyHeap]
  · intro b blk present
    simp [emptyHeap] at present

theorem good_perm {again : List (List BufId)} (good : Good tidy heap chains bare)
    (perm : chains.Perm again) :
    Good tidy heap again bare := ⟨good.counted, forest_perm good.forest perm, good.inside⟩

/-! ## The successors after elementary changes -/

theorem next_put_buf (present : heap.bufs.read b = some old) (blk : BufBlk) (c : BufId) :
    (heap.putBuf b blk).next c = if c = b then some blk.nextblk else heap.next c := by
  simp only [Heap.next, read_put_buf present]
  split_ifs <;> rfl

theorem next_push_buf (heap : Heap) (blk : BufBlk) (c : BufId) :
    (heap.pushBuf blk).1.next c = if c = heap.bufs.fresh then some blk.nextblk
    else heap.next c := by
  simp only [Heap.next, Heap.pushBuf, read_push]
  split_ifs <;> rfl

theorem next_fresh (heap : Heap) : heap.next heap.bufs.fresh = none := by
  simp [Heap.next, read_beyond (Nat.le_refl heap.bufs.fresh)]

/-! ## Positions that stay in order -/

theorem block_ok_put_mem (present : heap.mems.read m = some mem) (now : MemBlk)
    (sameBase : now.base = mem.base) (sameSize : now.size = mem.size) (ok : BlockOk heap b) :
    BlockOk (heap.putMem m now) b := by
  rcases ok with ⟨blk, read, inside⟩
  refine ⟨blk, read, ?_⟩
  cases owner : blk.blk with
  | none => simpa [owner] using inside
  | some other =>
      rw [owner] at inside
      rcases inside with ⟨known, knownRead, bounds⟩
      by_cases same : other = m
      · subst same
        cases Option.some.inj (present.symm.trans knownRead)
        refine ⟨now, by simp [read_write present], ?_⟩
        rw [sameBase, sameSize]
        exact bounds
      · exact ⟨known, by simp [read_write present, same, knownRead], bounds⟩

theorem block_ok_put_buf (present : heap.bufs.read b = some old) (blk : BufBlk) {c : BufId}
    (different : c ≠ b) (ok : BlockOk heap c) : BlockOk (heap.putBuf b blk) c :=
  agree_block_ok (put_buf_agree present blk different) ok

theorem block_ok_relink (present : heap.bufs.read b = some old) (follow : Option BufId)
    (ok : BlockOk heap b) : BlockOk (heap.putBuf b { old with nextblk := follow }) b := by
  rcases ok with ⟨same, again, inside⟩
  cases Option.some.inj (present.symm.trans again)
  exact ⟨{ old with nextblk := follow }, by rw [read_put_buf present, if_pos rfl], inside⟩

/-! ## Elementary steps -/

theorem good_put_mem (good : Good tidy heap chains bare) (present : heap.mems.read m = some mem)
    (now : MemBlk) (sameCount : now.refCount = mem.refCount) (sameBase : now.base = mem.base)
    (sameSize : now.size = mem.size) : Good tidy (heap.putMem m now) chains bare := by
  refine ⟨counted_put_mem present now sameCount good.counted,
    forest_frame good.forest fun _ => rfl, ?_⟩
  intro b blk read
  rcases good.inside b blk read with ⟨ok, backed⟩
  exact ⟨fun kept => block_ok_put_mem present now sameBase sameSize (ok kept), backed⟩

theorem good_put_buf (good : Good tidy heap chains bare) (present : heap.bufs.read b = some old)
    (blk : BufBlk) (sameBlk : blk.blk = old.blk) (sameNext : blk.nextblk = old.nextblk)
    (ok : tidy → BlockOk (heap.putBuf b blk) b) : Good tidy (heap.putBuf b blk) chains bare := by
  refine ⟨counted_put_buf present blk good.counted fun m => by rw [sameBlk], ?_, ?_⟩
  · apply forest_frame good.forest
    intro c
    rw [next_put_buf present]
    split_ifs with same
    · rw [same, next_of_read present, sameNext]
    · rfl
  · intro c now read
    by_cases same : c = b
    · subst same
      rw [read_put_buf present, if_pos rfl] at read
      cases read
      refine ⟨ok, fun notBare => ?_⟩
      rw [sameBlk]
      exact (good.inside c old present).2 notBare
    · rw [read_put_buf present, if_neg same] at read
      rcases good.inside c now read with ⟨known, backed⟩
      exact ⟨fun kept => block_ok_put_buf present blk same (known kept), backed⟩

theorem good_link (good : Good tidy heap ((pre ++ [target]) :: (b :: tail) :: others) bare) :
    ∃ after, heap.setNexblk target (some b) = some after ∧
      Good tidy after ((pre ++ target :: b :: tail) :: others) bare ∧
      (∀ c, c ≠ target → after.bufs.read c = heap.bufs.read c) ∧ after.mems = heap.mems := by
  rcases forest_alive good.forest (show target ∈ pre ++ [target] by simp) with ⟨follow, step⟩
  rcases read_of_next step with ⟨old, present, -⟩
  refine ⟨heap.putBuf target { old with nextblk := some b }, set_nexblk_eq present _, ?_, ?_, rfl⟩
  · refine ⟨counted_put_buf present _ good.counted fun m => rfl, ?_, ?_⟩
    · apply forest_link good.forest
      · rw [next_put_buf present, if_pos rfl]
      · intro c different
        rw [next_put_buf present, if_neg different]
    · intro c now read
      by_cases same : c = target
      · subst same
        rw [read_put_buf present, if_pos rfl] at read
        cases read
        rcases good.inside c old present with ⟨ok, backed⟩
        exact ⟨fun kept => block_ok_relink present _ (ok kept), backed⟩
      · rw [read_put_buf present, if_neg same] at read
        rcases good.inside c now read with ⟨ok, backed⟩
        exact ⟨fun kept => block_ok_put_buf present _ same (ok kept), backed⟩
  · intro c different
    rw [read_put_buf present, if_neg different]

theorem good_block (good : Good tidy heap chains bare) (present : heap.bufs.read b = some blk)
    (notBare : bare ≠ some b) : ∃ m mem, blk.blk = some m ∧ heap.mems.read m = some mem ∧
      (tidy → mem.base ≤ blk.rdPtr ∧ blk.rdPtr ≤ blk.wrPtr ∧ blk.wrPtr ≤ mem.base + mem.size) := by
  rcases (good.inside b blk present).2 notBare with ⟨m, owner⟩
  cases memRead : heap.mems.read m with
  | none =>
      have used : 0 < liveUsers heap m :=
        count_pos_of_read (fun blk : BufBlk => decide (blk.blk = some m)) present (by simp [owner])
      have unused := counted_none good.counted memRead
      omega
  | some mem =>
      refine ⟨m, mem, owner, memRead, fun kept => ?_⟩
      rcases (good.inside b blk present).1 kept with ⟨same, again, inside⟩
      cases Option.some.inj (present.symm.trans again)
      rw [owner] at inside
      rcases inside with ⟨known, knownRead, bounds⟩
      cases Option.some.inj (memRead.symm.trans knownRead)
      exact bounds

/-! ## Construction -/

theorem good_construct {gone : List (List BufId)} (alloc : Alloc) (mem : MemBlk)
    (single : mem.refCount = 1) (good : Good tidy heap (gone ++ others) bare)
    (flat : gone.flatten = ids) (chain : Chain heap.next ids.head? ids) :
    Good tidy (Heap.newBufBlkOver alloc (heap.pushMem mem) ids.head?).1
      ((heap.bufs.fresh :: ids) :: others)
      bare := by
  rw [new_buf_blk_over_eq]
  have ext : Extends heap (heap.pushMem mem).1 := extends_push_mem (extends_refl heap) mem
  have pushed : Counted (heap.pushMem mem).1 fun m => reference (some heap.mems.fresh) m :=
    counted_push_mem good.counted mem single fun m => by simp
  refine ⟨counted_push_buf _ pushed fun m => by simp, ?_, ?_⟩
  · apply forest_make good.forest flat chain (next_fresh heap)
    · exact (next_push_buf _ _ heap.bufs.fresh).trans (if_pos rfl)
    · intro c different
      exact (next_push_buf _ _ c).trans (if_neg different)
  · intro c now read
    have extBuf : Extends heap ((heap.pushMem mem).1.pushBuf
        { blk := some heap.mems.fresh, rdPtr := mem.base, wrPtr := mem.base, mark := mem.base,
          nextblk := ids.head?, flags := alloc.staleFlags heap.bufs.fresh }).1 :=
          extends_push_buf ext _
    by_cases same : c = heap.bufs.fresh
    · subst same
      have made := push_buf_read (heap.pushMem mem).1
        { blk := some heap.mems.fresh, rdPtr := mem.base, wrPtr := mem.base, mark := mem.base,
          nextblk := ids.head?, flags := alloc.staleFlags heap.bufs.fresh }
      cases Option.some.inj (read.symm.trans made)
      refine ⟨fun _ => ⟨_, made, mem, push_mem_read heap mem, Int.le_refl _, Int.le_refl _, ?_⟩,
        fun _ => ⟨_, rfl⟩⟩
      simp only [MemBlk.size]
      omega
    · have known : heap.bufs.read c = some now := by
        have before := read
        simp only [Heap.pushBuf, Heap.pushMem, read_push, if_neg same] at before
        exact before
      rcases good.inside c now known with ⟨ok, backed⟩
      exact ⟨fun kept => extends_block_ok extBuf (ok kept), backed⟩

theorem good_share_block (good : Good tidy heap chains bare) (present : heap.mems.read m = some mem)
    (owner : blk.blk = some m) (last : blk.nextblk = none)
    (bounds : tidy → mem.base ≤ blk.rdPtr ∧ blk.rdPtr ≤ blk.wrPtr ∧
      blk.wrPtr ≤ mem.base + mem.size) :
    Good tidy ((heap.putMem m { mem with refCount := mem.refCount + 1 }).pushBuf blk).1
      ([heap.bufs.fresh] :: chains) bare := by
  let shared := ((heap.putMem m { mem with refCount := mem.refCount + 1 }).pushBuf blk).1
  have made : shared.bufs.read heap.bufs.fresh = some blk :=
    push_buf_read (heap.putMem m { mem with refCount := mem.refCount + 1 }) blk
  have counted : Counted (heap.putMem m { mem with refCount := mem.refCount + 1 })
      fun other => reference (some m) other :=
    counted_checkout present good.counted fun other => by simp
  have ext : Extends heap shared :=
    extends_push_buf (extends_checkout (extends_refl heap) present) blk
  refine ⟨counted_push_buf blk counted fun other => by simp [owner], ?_, ?_⟩
  · have forest : Forest heap.next ([] ++ chains) := good.forest
    apply forest_make forest rfl rfl (next_fresh heap)
    · refine (next_push_buf _ _ heap.bufs.fresh).trans ((if_pos rfl).trans ?_)
      rw [last]
      rfl
    · intro c different
      exact (next_push_buf _ _ c).trans (if_neg different)
  · intro c now read
    by_cases same : c = heap.bufs.fresh
    · subst same
      cases Option.some.inj (read.symm.trans made)
      refine ⟨fun kept => ⟨blk, made, ?_⟩, fun _ => ⟨m, owner⟩⟩
      rw [owner]
      exact ⟨{ mem with refCount := mem.refCount + 1 }, by simp [Heap.pushBuf, read_write present],
        bounds kept⟩
    · have known : heap.bufs.read c = some now :=
        ((read_push _ _ c).trans (if_neg same)).symm.trans read
      rcases good.inside c now known with ⟨ok, backed⟩
      exact ⟨fun kept => extends_block_ok ext (ok kept), backed⟩

/-- `BufBlk::BufBlk(MemBlk *m)`. -/
theorem good_share (good : Good tidy heap chains bare) (present : heap.mems.read m = some mem) :
    ∃ shared, Heap.newBufBlkSharing heap (some m) = some (shared, heap.bufs.fresh) ∧
      Good tidy shared ([heap.bufs.fresh] :: chains) bare ∧
      shared.bufs.read heap.bufs.fresh = some ⟨some m, mem.base, mem.base, null, none, 0⟩ ∧
      (∀ c, c ≠ heap.bufs.fresh → shared.bufs.read c = heap.bufs.read c) ∧
      shared.mems.read m = some { mem with refCount := mem.refCount + 1 } := by
  refine ⟨_, sharing_eq present, ?_, push_buf_read _ _, ?_, ?_⟩
  · apply good_share_block good present rfl rfl
    intro _
    simp only [MemBlk.size]
    omega
  · intro c different
    exact (read_push _ _ c).trans (if_neg different)
  · simp [read_write present]

/-! ## Release -/

theorem good_alive (good : Good tidy heap (ids :: others) bare) :
    ∀ b ∈ ids, b < heap.bufs.fresh := by
  intro b member
  rcases forest_alive good.forest member with ⟨follow, step⟩
  rcases read_of_next step with ⟨blk, present, -⟩
  exact read_bound present

def SamePlaces (before after : Heap) : Prop :=
  ∀ m now, after.mems.read m = some now →
    ∃ mem, before.mems.read m = some mem ∧ now.base = mem.base ∧ now.bytes = mem.bytes

theorem same_places_trans {middle : Heap} (first : SamePlaces heap middle)
    (second : SamePlaces middle after) : SamePlaces heap after := by
  intro m now left
  rcases second m now left with ⟨between, known, sameBase, sameBytes⟩
  rcases first m between known with ⟨mem, present, base, bytes⟩
  exact ⟨mem, present, sameBase.trans base, sameBytes.trans bytes⟩

/-- A block that is still there keeps its MemBlk, which it is still counted for. -/
theorem kept_inside (counted : Counted after fun _ => 0) (places : SamePlaces heap after)
    (kept : after.bufs.read b = heap.bufs.read b) (ok : BlockOk heap b) : BlockOk after b := by
  rcases ok with ⟨blk, present, inside⟩
  have now : after.bufs.read b = some blk := kept.trans present
  refine ⟨blk, now, ?_⟩
  cases owner : blk.blk with
  | none => simpa [owner] using inside
  | some m =>
      rw [owner] at inside
      rcases inside with ⟨mem, memRead, bounds⟩
      have used : 0 < liveUsers after m :=
        count_pos_of_read (fun blk : BufBlk => decide (blk.blk = some m)) now (by simp [owner])
      cases left : after.mems.read m with
      | none =>
          have none_left := counted_none counted left
          omega
      | some mem' =>
          rcases places m mem' left with ⟨same, sameRead, sameBase, sameBytes⟩
          cases Option.some.inj (memRead.symm.trans sameRead)
          refine ⟨mem', left, ?_⟩
          rw [MemBlk.size, sameBase, sameBytes]
          exact bounds

theorem released_places {released : List BufId} (effect : Released heap released after) :
    SamePlaces heap after := by
  intro m now left
  rw [effect.mems] at left
  cases before : heap.mems.read m with
  | none => simp [before] at left
  | some mem =>
      rw [before, Option.bind_some, dropped] at left
      refine ⟨mem, rfl, ?_⟩
      split_ifs at left <;> cases left <;> exact ⟨rfl, rfl⟩

theorem good_released (good : Good tidy heap (ids :: others) none)
    (effect : Released heap ids after) :
    Good tidy after others none := by
  have chain := good.forest.linked ids (by simp)
  have counted := counted_released (chain_nodup chain) (good_alive good) effect good.counted
  refine ⟨counted, ?_, ?_⟩
  · apply forest_drop good.forest
    · intro c member
      simp [Heap.next, effect.bufs, member]
    · intro c outside
      simp only [Heap.next, effect.bufs, if_neg outside]
  · intro c now read
    have outside : c ∉ ids := by
      intro member
      rw [effect.bufs, if_pos member] at read
      cases read
    have kept : after.bufs.read c = heap.bufs.read c := by rw [effect.bufs, if_neg outside]
    rcases good.inside c now (kept.symm.trans read) with ⟨ok, backed⟩
    exact ⟨fun inOrder => kept_inside counted (released_places effect) kept (ok inOrder), backed⟩

theorem good_release (good : Good tidy heap ((b :: tail) :: others) none) :
    ∃ after, heap.release b = some after ∧ Good tidy after others none := by
  have chain : Chain heap.next (some b) (b :: tail) := good.forest.linked (b :: tail) (by simp)
  rcases release_chain chain (counted_backed (chain_nodup chain)
      (good_alive good) good.counted) with
    ⟨after, released, effect⟩
  exact ⟨after, released, good_released good effect⟩

theorem good_destroy (good : Good tidy heap ((b :: tail) :: others) none) :
    ∃ after, heap.destroy b = some after ∧ Good tidy after others none := by
  have chain : Chain heap.next (some b) (b :: tail) := good.forest.linked (b :: tail) (by simp)
  rcases destroy_chain chain (counted_backed (chain_nodup chain)
      (good_alive good) good.counted) with
    ⟨after, destroyed, effect⟩
  exact ⟨after, destroyed, good_released good effect⟩

end TWlib.BufBlkOwnership
