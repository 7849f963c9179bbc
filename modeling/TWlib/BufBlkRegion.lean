import TWlib.BufBlkEat
import TWlib.BufBlkNavigate
import TWlib.BufBlkResize

/-!
# Calls that stay in a region of the heap

A region is a set of blocks and of MemBlks. Where no block of it is linked to or refers to anything
outside, the calls on its blocks change nothing outside either, whatever the positions of the blocks
are and whatever MemBlks they share. A call that would leave a buffer or touch a deleted object has
no result, and ends the run.
-/

namespace TWlib.BufBlkRegion

open TWlib.Lib.CellStore TWlib.Lib.LinkedChain TWlib.Lib.Outcome TWlib.BufBlkHeap TWlib.BufBlkChain
  TWlib.BufBlkSeek
  TWlib.BufBlkEat

set_option autoImplicit false

/-! ## The calls -/

/-- `setMark`, `rewind` and the other functions that move a position of one block. -/
def moveIn (heap : Heap) (b : BufId) (move : BufBlkNavigate.Move) : Option Heap := do
  let blk ← heap.bufs.read b
  let (moved, _) ← BufBlkNavigate.moveBlock (blk.blk.bind heap.mems.read) blk move
  some (heap.putBuf b moved)

inductive Call where
  | copyFrom (b : BufId) (src : List Byte)
  | setPosition (b : BufId) (move : BufBlkNavigate.Move)
  | eatBytes (b : BufId) (rdOffset size : Int)
  | resize (b : BufId) (realloc : BufBlkResize.Realloc) (size : Int)
  | release (b : BufId)

def Call.block : Call → BufId
  | .copyFrom b _ | .setPosition b _ | .eatBytes b _ _ | .resize b _ _ | .release b => b

def Call.run (heap : Heap) : Call → Option Heap
  | .copyFrom b src => (heap.copyFrom b src).map Prod.fst
  | .setPosition b move => moveIn heap b move
  | .eatBytes b rdOffset size => (BufBlkEat.eatBytes heap b rdOffset size).map Prod.fst
  | .resize b realloc size => (BufBlkResize.resize realloc heap b size).map Prod.fst
  | .release b => heap.release b

def runCalls : Heap → List Call → Option Heap
  | heap, [] => some heap
  | heap, call :: calls => do
      let heap ← call.run heap
      runCalls heap calls

/-! ## Regions -/

structure Region where
  bufs : BufId → Prop
  mems : MemId → Prop

/-- A block that is linked to blocks of the region only, and refers to a MemBlk of it. -/
def Region.Owns (region : Region) (blk : BufBlk) : Prop :=
  (∀ c, blk.nextblk = some c → region.bufs c) ∧ ∀ m, blk.blk = some m → region.mems m

def Region.Closed (region : Region) (heap : Heap) : Prop :=
  ∀ b blk, region.bufs b → heap.bufs.read b = some blk → region.Owns blk

/-- The changes are inside of the region, which is still closed. -/
structure Confined (region : Region) (before after : Heap) : Prop where
  closed : region.Closed after
  bufs : ∀ b, ¬ region.bufs b → after.bufs.read b = before.bufs.read b
  mems : ∀ m, ¬ region.mems m → after.mems.read m = before.mems.read m
  fresh : after.bufs.fresh = before.bufs.fresh

variable {region : Region} {before heap after : Heap} {b : BufId} {blk : BufBlk} {m : MemId}
    {mem : MemBlk}

theorem confined_refl (closed : region.Closed heap) : Confined region heap heap :=
  ⟨closed, fun _ _ => rfl, fun _ _ => rfl, rfl⟩

theorem move_block_owns {moved : BufBlk} {found : Option MemBlk} {move : BufBlkNavigate.Move}
    {ret : Option Int} (owns : region.Owns blk)
    (ran : BufBlkNavigate.moveBlock found blk move = some (moved, ret)) :
    region.Owns moved := by
  cases move with
  | reset | freespace =>
      obtain ⟨mem, -, same⟩ := Option.map_eq_some_iff.mp ran
      cases same
      exact owns
  | rewind _ | setMark | setRdPtr _ | setWrPtr _ | incRdPtr _ | incWrPtr _ | decRdPtr _ | decWrPtr _
  | rdPtr | wrPtr | mark | length =>
      cases ran
      exact owns

section Elementary

variable (confined : Confined region before heap)

include confined

theorem confined_put_buf {old : BufBlk} (member : region.bufs b)
    (present : heap.bufs.read b = some old) (owns : region.Owns blk) :
    Confined region before (heap.putBuf b blk) where
  closed := by
    intro c found inside read
    rw [read_put_buf present] at read
    split_ifs at read with same
    · cases read
      exact owns
    · exact confined.closed c found inside read
  bufs := by
    intro c outside
    have different : c ≠ b := fun same => outside (same ▸ member)
    rw [read_put_buf present, if_neg different]
    exact confined.bufs c outside
  mems := confined.mems
  fresh := (fresh_write _ _ _).trans confined.fresh

theorem confined_put_mem (member : region.mems m) (present : heap.mems.read m = some mem)
    (now : MemBlk) :
    Confined region before (heap.putMem m now) where
  closed := confined.closed
  bufs := confined.bufs
  mems := by
    intro n outside
    have different : n ≠ m := fun same => outside (same ▸ member)
    rw [put_mem_mems, read_write present, if_neg different]
    exact confined.mems n outside
  fresh := confined.fresh

theorem confined_delete_buf (member : region.bufs b) :
    Confined region before (heap.deleteBuf b) where
  closed := by
    intro c found inside read
    rw [delete_buf_bufs, read_give_up] at read
    split_ifs at read with same
    exact confined.closed c found inside read
  bufs := by
    intro c outside
    have different : c ≠ b := fun same => outside (same ▸ member)
    rw [delete_buf_bufs, read_give_up, if_neg different]
    exact confined.bufs c outside
  mems := confined.mems
  fresh := (fresh_give_up _ _).trans confined.fresh

theorem confined_release_mem (member : region.mems m) :
    Yields False (heap.releaseMem m) (Confined region before) := by
  refine ⟨False.elim, fun after released => ?_⟩
  obtain ⟨mem, present, done⟩ := Option.bind_eq_some_iff.mp released
  by_cases last : mem.refCount - 1 < 1
  · rw [if_pos last] at done
    cases done
    refine ⟨confined.closed, confined.bufs, fun n outside => ?_, confined.fresh⟩
    have different : n ≠ m := fun same => outside (same ▸ member)
    rw [read_give_up, if_neg different]
    exact confined.mems n outside
  · rw [if_neg last] at done
    cases done
    exact confined_put_mem confined member present _

theorem confined_set_nexblk {follow : Option BufId} (member : region.bufs b)
    (inside : ∀ c, follow = some c → region.bufs c) :
    Yields False (heap.setNexblk b follow) (Confined region before) := by
  refine ⟨False.elim, fun after relinked => ?_⟩
  obtain ⟨blk, present, done⟩ := Option.bind_eq_some_iff.mp relinked
  cases done
  exact confined_put_buf confined member present ⟨inside, (confined.closed b blk member present).2⟩

/-! ## Release -/

theorem confined_release_from (fuel : Nat) (member : region.bufs b) :
    Yields False (Heap.releaseFrom fuel heap b) (Confined region before) := by
  induction fuel generalizing heap b with
  | zero => exact yields_none id
  | succ fuel ih =>
      refine ⟨False.elim, fun after released => ?_⟩
      obtain ⟨blk, present, done⟩ := Option.bind_eq_some_iff.mp released
      have owns := confined.closed b blk member present
      have tail {middle : Heap} (afterNext : Confined region before middle)
          (ran : ((middle.releaseOptMem blk.blk).bind fun final => some (final.deleteBuf b)) =
            some after) :
          Confined region before after := by
        obtain ⟨final, given, same⟩ := Option.bind_eq_some_iff.mp ran
        cases same
        cases owner : blk.blk with
        | none =>
            rw [owner] at given
            cases given
            exact confined_delete_buf afterNext member
        | some m =>
            rw [owner] at given
            exact confined_delete_buf ((confined_release_mem afterNext (owns.2 m owner)).2 final
              given) member
      cases next : blk.nextblk with
      | none =>
          rw [next] at done
          exact tail confined done
      | some c =>
          rw [next] at done
          obtain ⟨middle, following, done⟩ := Option.bind_eq_some_iff.mp done
          exact tail ((ih confined (owns.1 c next)).2 middle following) done

/-! ## `eatBytes` -/

theorem seek_in_region (fuel : Nat) {need found : Int} {start prev look back : Option BufId}
    (startIn : ∀ c, start = some c → region.bufs c) (prevIn : ∀ c, prev = some c → region.bufs c)
    (sought : seek fuel heap need start prev = some (found, look, back)) :
    (∀ c, look = some c → region.bufs c) ∧ ∀ c, back = some c → region.bufs c := by
  induction fuel generalizing need start prev with
  | zero =>
      cases start with
      | none =>
          cases sought
          exact ⟨startIn, prevIn⟩
      | some b => cases sought
  | succ fuel ih =>
      cases start with
      | none =>
          cases sought
          exact ⟨startIn, prevIn⟩
      | some b =>
          rw [seek] at sought
          split_ifs at sought with nonneg
          · obtain ⟨blk, present, done⟩ := Option.bind_eq_some_iff.mp sought
            split_ifs at done with reaches
            · cases done
              exact ⟨startIn, prevIn⟩
            · exact ih (confined.closed b blk (startIn b rfl) present).1 startIn done
          · cases sought
            exact ⟨startIn, prevIn⟩

theorem confined_move_bytes {dst src count : Int} (owns : region.Owns blk) :
    Yields False (moveBytes heap blk dst src count) fun after =>
      Confined region before after ∧ after.bufs = heap.bufs := by
  refine ⟨False.elim, fun after moved => ?_⟩
  obtain ⟨m, owner, done⟩ := Option.bind_eq_some_iff.mp moved
  obtain ⟨mem, present, done⟩ := Option.bind_eq_some_iff.mp done
  obtain ⟨data, -, done⟩ := Option.bind_eq_some_iff.mp done
  obtain ⟨now, -, done⟩ := Option.bind_eq_some_iff.mp done
  cases done
  exact ⟨confined_put_mem confined (owns.2 m owner) present now, rfl⟩

theorem confined_eat_within {look : BufId} (need size : Int) (member : region.bufs look)
    (present : heap.bufs.read look = some blk) :
    Yields False (eatWithin heap look blk need size) (Confined region before) := by
  have owns := confined.closed look blk member present
  unfold eatWithin
  split_ifs with later
  · refine yields_bind (confined_move_bytes confined owns) ?_
    rintro moved ⟨movedConfined, sameBufs⟩
    have still : moved.bufs.read look = some blk := by rw [sameBufs, present]
    exact yields_some (confined_put_buf movedConfined member still owns)
  · exact yields_some (confined_put_buf confined member present owns)

theorem confined_relink_prev {prev follow : Option BufId}
    (prevIn : ∀ c, prev = some c → region.bufs c) (followIn : ∀ c, follow = some c →
      region.bufs c) :
    Yields False (relinkPrev heap prev follow) (Confined region before) := by
  cases prev with
  | none => exact yields_some confined
  | some prev => exact confined_set_nexblk confined (prevIn prev rfl) followIn

theorem confined_release (member : region.bufs b) : Yields False (heap.release b)
    (Confined region before) :=
  confined_release_from confined heap.bufs.fresh member

theorem confined_eat_exact {head prev : Option BufId} {look : BufId} (need : Int)
    (member : region.bufs look) (present : heap.bufs.read look = some blk)
    (prevIn : ∀ c, prev = some c → region.bufs c) :
    Yields False (eatExact heap head prev look blk need) fun done =>
    Confined region before done.1 := by
  have owns := confined.closed look blk member present
  unfold eatExact
  by_cases later : need > 0
  · rw [if_pos later]
    exact yields_some (confined_put_buf confined member present owns)
  · rw [if_neg later]
    refine yields_bind (confined_relink_prev confined prevIn owns.1) fun linked linkedConfined => ?_
    refine yields_bind (confined_set_nexblk linkedConfined member (by simp))
      fun alone aloneConfined => ?_
    refine yields_bind (confined_release aloneConfined member) fun final finalConfined => ?_
    exact yields_some finalConfined

theorem confined_eat_loop (fuel : Nat) {size : Int} {look back : Option BufId}
    (lookIn : ∀ c, look = some c → region.bufs c) (backIn : ∀ c, back = some c → region.bufs c) :
    Yields False (eatLoop fuel heap size look back) fun done => Confined region before done.1 ∧
      (∀ c, done.2.2.1 = some c → region.bufs c) ∧ ∀ c, done.2.2.2 = some c → region.bufs c := by
  induction fuel generalizing size look back with
  | zero =>
      cases look with
      | none => exact yields_some ⟨confined, lookIn, backIn⟩
      | some look => exact yields_none id
  | succ fuel ih =>
      cases look with
      | none => exact yields_some ⟨confined, lookIn, backIn⟩
      | some look =>
          have member := lookIn look rfl
          rw [eatLoop]
          split_ifs with more
          · refine ⟨False.elim, fun done ran => ?_⟩
            obtain ⟨blk, present, ran⟩ := Option.bind_eq_some_iff.mp ran
            have owns := confined.closed look blk member present
            split_ifs at ran with within
            · cases ran
              exact ⟨confined_put_buf confined member present owns, lookIn, backIn⟩
            · exact (ih owns.1 lookIn).2 done ran
          · exact yields_some ⟨confined, lookIn, backIn⟩

theorem confined_drop_eaten {head front back look : Option BufId} {prev : BufId} (size : Int)
    (prevIn : region.bufs prev) (frontIn : ∀ c, front = some c → region.bufs c)
    (backIn : ∀ c, back = some c → region.bufs c) (lookIn : ∀ c, look = some c → region.bufs c) :
    Yields False (dropEaten heap head prev front back look size) fun done =>
    Confined region before done.1 := by
  have unlink {last first : BufId} {newHead : Option BufId} (lastIn : region.bufs last)
      (firstIn : region.bufs first) :
      Yields False (do
        let heap ← heap.setNexblk last none
        let heap ← heap.setNexblk prev look
        let heap ← heap.release first
        some (heap, newHead)) fun done => Confined region before done.1 := by
    refine yields_bind (confined_set_nexblk confined lastIn (by simp)) fun cut cutConfined => ?_
    refine yields_bind (confined_set_nexblk cutConfined prevIn lookIn) fun linked linkedConfined =>
      ?_
    refine yields_bind (confined_release linkedConfined firstIn) fun final finalConfined => ?_
    exact yields_some finalConfined
  cases front with
  | none => exact yields_some confined
  | some front =>
      have firstIn := frontIn front rfl
      simp only [dropEaten]
      generalize (if some front = head then look else head) = newHead
      split_ifs with several other stuck
      · cases back with
        | none => exact yields_none id
        | some back => exact unlink (backIn back rfl) firstIn
      · exact yields_some confined
      · exact unlink firstIn firstIn
      · exact yields_some confined

theorem confined_eat_across {head : Option BufId} {look : BufId} (need size : Int)
    (member : region.bufs look) (present : heap.bufs.read look = some blk) :
    Yields False (eatAcross heap head look blk need size) fun done =>
    Confined region before done.1 := by
  have owns := confined.closed look blk member present
  have shortened : Confined region before
      (if need > 0 then heap.putBuf look { blk with wrPtr := blk.wrPtr - (blk.length - need) }
        else heap) := by
    split_ifs with later
    · exact confined_put_buf confined member present owns
    · exact confined
  have frontIn : ∀ c, (if need > 0 then blk.nextblk else some look) = some c → region.bufs c := by
    intro c same
    split_ifs at same with later
    · exact owns.1 c same
    · cases same
      exact member
  refine yields_bind (confined_eat_loop shortened heap.bufs.fresh owns.1 frontIn) ?_
  rintro ⟨looped, left, last, back⟩ ⟨loopedConfined, lastIn, backIn⟩
  exact confined_drop_eaten loopedConfined left member frontIn backIn lastIn

theorem confined_eat_bytes (rdOffset size : Int) (member : region.bufs b) :
    Yields False (eatBytes heap b rdOffset size) fun done => Confined region before done.1 := by
  refine ⟨False.elim, fun done eaten => ?_⟩
  obtain ⟨⟨need, look, prev⟩, sought, ran⟩ := Option.bind_eq_some_iff.mp eaten
  have startIn : ∀ c, some b = some c → region.bufs c := by
    intro c same
    cases same
    exact member
  obtain ⟨lookIn, prevIn⟩ := seek_in_region confined heap.bufs.fresh startIn (by simp) sought
  cases look with
  | none =>
      cases ran
      exact confined
  | some look =>
      have lookMember := lookIn look rfl
      obtain ⟨blk, present, ran⟩ := Option.bind_eq_some_iff.mp ran
      split_ifs at ran with reaches within exact_
      · obtain ⟨final, gone, same⟩ := Option.bind_eq_some_iff.mp ran
        cases same
        exact (confined_eat_within confined need size lookMember present).2 final gone
      · exact (confined_eat_exact confined need lookMember present prevIn).2 done ran
      · exact (confined_eat_across confined need size lookMember present).2 done ran
      · cases ran
        exact confined

/-! ## The other calls -/

theorem confined_copy_from (src : List Byte) (member : region.bufs b) :
    Yields False (heap.copyFrom b src) fun done => Confined region before done.1 := by
  refine ⟨False.elim, fun done copied => ?_⟩
  obtain ⟨blk, present, ran⟩ := Option.bind_eq_some_iff.mp copied
  obtain ⟨m, owner, ran⟩ := Option.bind_eq_some_iff.mp ran
  obtain ⟨mem, memPresent, ran⟩ := Option.bind_eq_some_iff.mp ran
  have owns := confined.closed b blk member present
  generalize (if Heap.freespace mem blk < src.length then Heap.freespace mem blk
    else (src.length : Int)) = s at ran
  by_cases nonneg : 0 ≤ s
  · rw [if_pos nonneg] at ran
    obtain ⟨now, -, same⟩ := Option.bind_eq_some_iff.mp ran
    cases same
    have stored := confined_put_mem confined (owns.2 m owner) memPresent now
    exact confined_put_buf stored member present owns
  · rw [if_neg nonneg] at ran
    cases ran

theorem confined_move_in (move : BufBlkNavigate.Move) (member : region.bufs b) :
    Yields False (moveIn heap b move) (Confined region before) := by
  refine ⟨False.elim, fun after ran => ?_⟩
  obtain ⟨blk, present, ran⟩ := Option.bind_eq_some_iff.mp ran
  obtain ⟨⟨moved, ret⟩, found, same⟩ := Option.bind_eq_some_iff.mp ran
  cases same
  exact confined_put_buf confined member present
    (move_block_owns (confined.closed b blk member present) found)

theorem confined_resize_mem (realloc : BufBlkResize.Realloc) (size : Int) (member : region.mems m) :
    Yields False (BufBlkResize.resizeMem realloc heap m size) fun done =>
      Confined region before done.1 ∧ done.1.bufs = heap.bufs := by
  refine ⟨False.elim, fun done ran => ?_⟩
  obtain ⟨mem, present, ran⟩ := Option.bind_eq_some_iff.mp ran
  cases answered : realloc.answer mem size with
  | none =>
      rw [answered] at ran
      cases ran
      exact ⟨confined, rfl⟩
  | some answer =>
      rw [answered] at ran
      cases ran
      exact ⟨confined_put_mem confined member present _, rfl⟩

theorem confined_resize (realloc : BufBlkResize.Realloc) (size : Int) (member : region.bufs b) :
    Yields False (BufBlkResize.resize realloc heap b size) fun done =>
    Confined region before done.1 := by
  refine ⟨False.elim, fun done ran => ?_⟩
  obtain ⟨blk, present, ran⟩ := Option.bind_eq_some_iff.mp ran
  have owns := confined.closed b blk member present
  cases owner : blk.blk with
  | none =>
      rw [owner] at ran
      cases ran
      exact confined
  | some m =>
      rw [owner] at ran
      obtain ⟨old, oldRead, ran⟩ := Option.bind_eq_some_iff.mp ran
      obtain ⟨⟨middle, resized⟩, memResized, ran⟩ := Option.bind_eq_some_iff.mp ran
      obtain ⟨middleConfined, sameBufs⟩ :=
        (confined_resize_mem confined realloc size (owns.2 m owner)).2 (middle, resized) memResized
      cases resized with
      | false =>
          cases ran
          exact middleConfined
      | true =>
          obtain ⟨mem, -, same⟩ := Option.bind_eq_some_iff.mp ran
          cases same
          have still : middle.bufs.read b = some blk := by rw [sameBufs, present]
          exact confined_put_buf middleConfined member still ⟨owns.1,
            fun n here => owns.2 n (owner.trans here)⟩

end Elementary

theorem confined_call {call : Call} (confined : Confined region before heap)
    (member : region.bufs call.block) :
    Yields False (call.run heap) (Confined region before) := by
  cases call with
  | copyFrom b src => exact yields_map (confined_copy_from confined src member)
  | setPosition b move => exact confined_move_in confined move member
  | eatBytes b rdOffset size => exact yields_map (confined_eat_bytes confined rdOffset size member)
  | resize b realloc size => exact yields_map (confined_resize confined realloc size member)
  | release b => exact confined_release confined member

theorem confined_calls (confined : Confined region before heap) (calls : List Call)
    (members : ∀ call ∈ calls, region.bufs call.block) :
    Yields False (runCalls heap calls) (Confined region before) := by
  induction calls generalizing heap with
  | nil => exact yields_some confined
  | cons call calls ih =>
      refine yields_bind (confined_call confined (members call (by simp)))
        fun middle middleConfined => ?_
      exact ih middleConfined fun later member => members later (by simp [member])

/-! ## Two regions -/

/-- No block and no MemBlk is in both. -/
def Region.Apart (left right : Region) : Prop :=
  (∀ b, left.bufs b → ¬ right.bufs b) ∧ ∀ m, left.mems m → ¬ right.mems m

theorem apart_symm {left right : Region} (apart : left.Apart right) : right.Apart left :=
  ⟨fun b inRight inLeft => apart.1 b inLeft inRight,
    fun m inRight inLeft => apart.2 m inLeft inRight⟩

section Two

variable {left right : Region} (apart : left.Apart right) (confined : Confined left before after)
  (closed : right.Closed before)

include apart confined closed

theorem closed_outside : right.Closed after := by
  intro b blk inside read
  have same := confined.bufs b fun inLeft => apart.1 b inLeft inside
  exact closed b blk inside (same.symm.trans read)

theorem block_bytes_outside (inside : right.bufs b) : after.blockBytes b = before.blockBytes b := by
  have sameBlock := confined.bufs b fun inLeft => apart.1 b inLeft inside
  cases present : before.bufs.read b with
  | none => simp [Heap.blockBytes, sameBlock, present]
  | some blk =>
      have owns := closed b blk inside present
      cases owner : blk.blk with
      | none => simp [Heap.blockBytes, sameBlock, present, Heap.readable, owner]
      | some m =>
          have sameMem := confined.mems m fun inLeft => apart.2 m inLeft (owns.2 m owner)
          simp [Heap.blockBytes, sameBlock, present, Heap.readable, owner, sameMem]

theorem contents_outside {start : Option BufId} (inside : ∀ b, start = some b → right.bufs b) :
    after.contents start = before.contents start := by
  have same (fuel : Nat) : Heap.contentsFrom fuel after start =
      Heap.contentsFrom fuel before start := by
    induction fuel generalizing start with
    | zero => cases start <;> rfl
    | succ fuel ih =>
        cases start with
        | none => rfl
        | some b =>
            have bIn := inside b rfl
            have sameBlock := confined.bufs b fun inLeft => apart.1 b inLeft bIn
            have sameBytes := block_bytes_outside apart confined closed bIn
            cases present : before.bufs.read b with
            | none => simp [Heap.contentsFrom, sameBlock, present]
            | some blk =>
                have owns := closed b blk bIn present
                simp only [Heap.blockBytes, sameBlock, present, Option.bind_eq_bind,
                  Option.bind_some] at sameBytes
                simp only [Heap.contentsFrom, sameBlock, present, Option.bind_eq_bind,
                  Option.bind_some, sameBytes,
                  ih owns.1]
  rw [Heap.contents, Heap.contents, confined.fresh, same]

end Two

theorem calls_closed {left right : Region} (apart : left.Apart right) (calls : List Call)
    (members : ∀ call ∈ calls, left.bufs call.block ∨ right.bufs call.block)
    (leftClosed : left.Closed heap) (rightClosed : right.Closed heap)
    (ran : runCalls heap calls = some after) :
    left.Closed after ∧ right.Closed after := by
  induction calls generalizing heap with
  | nil =>
      cases ran
      exact ⟨leftClosed, rightClosed⟩
  | cons call calls ih =>
      obtain ⟨middle, called, ran⟩ := Option.bind_eq_some_iff.mp ran
      have later : ∀ other ∈ calls, left.bufs other.block ∨ right.bufs other.block :=
        fun other member => members other (by simp [member])
      rcases members call (by simp) with inLeft | inRight
      · have confined := (confined_call (confined_refl leftClosed) inLeft).2 middle called
        exact ih later confined.closed (closed_outside apart confined rightClosed) ran
      · have confined := (confined_call (confined_refl rightClosed) inRight).2 middle called
        exact ih later (closed_outside (apart_symm apart) confined leftClosed) confined.closed ran

def chainRegion (heap : Heap) (ids : List BufId) : Region where
  bufs b := b ∈ ids
  mems m := ∃ b ∈ ids, heap.memOf b = some m

theorem chain_next_mem {start : Option BufId} {ids : List BufId} {c : BufId}
    (chain : Chain heap.next start ids) (member : b ∈ ids) (step : heap.next b = some (some c)) :
    c ∈ ids := by
  induction ids generalizing start with
  | nil => cases member
  | cons id ids ih =>
      obtain ⟨-, after, idNext, tail⟩ := chain
      rcases List.mem_cons.mp member with rfl | later
      · rw [step] at idNext
        cases idNext
        exact List.mem_cons_of_mem _ (List.mem_of_mem_head? (chain_start tail).symm)
      · exact List.mem_cons_of_mem _ (ih tail later)

theorem chain_region_closed {start : Option BufId} {ids : List BufId}
    (chain : Chain heap.next start ids) :
    (chainRegion heap ids).Closed heap := by
  intro b blk member present
  refine ⟨fun c follow => chain_next_mem chain member ?_, fun m owner => ⟨b, member, ?_⟩⟩
  · rw [next_of_read present, follow]
  · rw [Heap.memOf, present, Option.bind_some, owner]

end TWlib.BufBlkRegion
