import TWlib.BufBlkEatShared
import TWlib.BufBlkRegion

/-!
# When the calls on a chain come to an end

A call is sound where the objects that it works on exist and the positions that it reads lie in
their buffers. With exact reference counts a sound call has a result and leaves exact counts, so
that only the state before each call has to be looked at.
-/

namespace TWlib.BufBlkSoundCalls

open TWlib.Lib.CellStore TWlib.Lib.LinkedChain TWlib.BufBlkHeap TWlib.BufBlkChain TWlib.BufBlkSeek
    TWlib.BufBlkCount
open TWlib.BufBlkEat TWlib.BufBlkEatShared TWlib.BufBlkNavigate TWlib.BufBlkRegion

set_option autoImplicit false

/-- `copyFrom` wants the write position in the buffer, `eatBytes` a slice without negative numbers
and the positions of all blocks from `b` on in order, and `release` blocks that exist from `b`
on. -/
def Sound (heap : Heap) : Call → Prop
  | .copyFrom b _ =>
      ∃ blk m mem, heap.bufs.read b = some blk ∧ blk.blk = some m ∧ heap.mems.read m = some mem ∧
      mem.base ≤ blk.wrPtr ∧ blk.wrPtr ≤ mem.base + mem.size
  | .setPosition b _ => Owned heap b
  | .eatBytes b rdOffset size => 0 ≤ rdOffset ∧ 0 ≤ size ∧ ∃ ids, ChainOk heap (some b) ids
  | .resize b _ _ => Owned heap b
  | .release b => ∃ ids, Chain heap.next (some b) ids

def SoundCalls : Heap → List Call → Prop
  | _, [] => True
  | heap, call :: calls =>
      Sound heap call ∧ ∀ after, call.run heap = some after → SoundCalls after calls

variable {heap after : Heap} {b : BufId} {ids : List BufId}

theorem copy_from_counted {src : List Byte} (counted : Counted heap fun _ => 0)
    (sound : Sound heap (.copyFrom b src)) :
    ∃ done, heap.copyFrom b src = some done ∧ Counted done.1 fun _ => 0 := by
  obtain ⟨blk, m, mem, present, owner, memRead, low, high⟩ := sound
  have defined := (BufBlkResize.copy_from_defined_iff present owner memRead src).mpr ⟨low, high⟩
  obtain ⟨done, copied⟩ := Option.isSome_iff_exists.mp defined
  refine ⟨done, copied, ?_⟩
  simp only [Heap.copyFrom, present, owner, memRead, Option.bind_eq_bind,
    Option.bind_some] at copied
  generalize (if Heap.freespace mem blk < src.length then Heap.freespace mem blk
    else (src.length : Int)) = s at copied
  split_ifs at copied with room
  · obtain ⟨now, stored, same⟩ := Option.bind_eq_some_iff.mp copied
    cases same
    have sameCount : now.refCount = mem.refCount := by
      rw [MemBlk.store] at stored
      split_ifs at stored
      cases stored
      rfl
    exact counted_put_buf (show (heap.putMem m now).bufs.read b = some blk from present) _
      (counted_put_mem memRead now sameCount counted) fun other => by rw [owner]

theorem move_in_counted (move : Move) (counted : Counted heap fun _ => 0) (owned : Owned heap b) :
    ∃ after, moveIn heap b move = some after ∧ Counted after fun _ => 0 := by
  obtain ⟨blk, m, mem, present, owner, memRead⟩ := owned
  obtain ⟨moved, ret, done, same⟩ : ∃ moved ret, moveBlock (some mem) blk move = some (moved, ret) ∧
      moved.blk = blk.blk := by
    cases move <;> exact ⟨_, _, rfl, rfl⟩
  refine ⟨heap.putBuf b moved, ?_, counted_put_buf present _ counted fun other => by rw [same]⟩
  simp only [moveIn, present, owner, memRead, Option.bind_eq_bind, Option.bind_some, done]

theorem resize_counted (realloc : BufBlkResize.Realloc) (size : Int)
    (counted : Counted heap fun _ => 0) (owned : Owned heap b) :
    ∃ done, BufBlkResize.resize realloc heap b size = some done ∧ Counted done.1 fun _ => 0 := by
  obtain ⟨blk, m, mem, present, owner, memRead⟩ := owned
  cases answered : realloc.answer mem size with
  | none =>
      refine ⟨(heap, false), ?_, counted⟩
      simp only [BufBlkResize.resize, BufBlkResize.resizeMem, present, owner, memRead, answered,
        Option.bind_eq_bind,
        Option.bind_some]
      rfl
  | some answer =>
      refine ⟨_, BufBlkResize.resize_eq present owner memRead answered, ?_⟩
      exact counted_put_buf (show (heap.putMem m _).bufs.read b = some blk from present) _
        (counted_put_mem memRead _ rfl counted) fun other => rfl

theorem eat_bytes_counted (off size : Nat) (counted : Counted heap fun _ => 0)
    (ok : ChainOk heap (some b) ids) :
    ∃ done, eatBytes heap b off size = some done ∧ Counted done.1 fun _ => 0 := by
  rcases seek_chain heap.bufs.fresh off none ok (chain_bound ok.linked) with
    ⟨pre, mid, post, rest, located, -⟩ | ⟨beyond, need, last, sought⟩
  · by_cases moves : 0 < rest ∧ rest + size < (bytesOf heap mid).length
    · obtain ⟨after, done, kept, -⟩ := eat_within_moves ok located moves.1 moves.2
      exact ⟨_, done, kept counted⟩
    · have noMove : rest = 0 ∨ (bytesOf heap mid).length ≤ rest + size := by omega
      obtain ⟨after, head, done, spared⟩ := eat_spared counted ok located noMove
      exact ⟨_, done, spared.counted⟩
  · refine ⟨(heap, some b), ?_, counted⟩
    simp only [eatBytes, sought, Option.bind_eq_bind, Option.bind_some]

/-- Step: a sound call has a result. -/
theorem sound_call_runs {call : Call} (counted : Counted heap fun _ => 0)
    (sound : Sound heap call) :
    ∃ after, call.run heap = some after ∧ Counted after fun _ => 0 := by
  cases call with
  | copyFrom b src =>
      obtain ⟨done, copied, now⟩ := copy_from_counted counted sound
      exact ⟨done.1, by rw [Call.run, copied, Option.map_some], now⟩
  | setPosition b move => exact move_in_counted move counted sound
  | eatBytes b rdOffset size =>
      obtain ⟨offNonneg, sizeNonneg, ids, ok⟩ := sound
      obtain ⟨off, rfl⟩ := Int.eq_ofNat_of_zero_le offNonneg
      obtain ⟨size, rfl⟩ := Int.eq_ofNat_of_zero_le sizeNonneg
      obtain ⟨done, eaten, now⟩ := eat_bytes_counted off size counted ok
      exact ⟨done.1, by rw [Call.run, eaten, Option.map_some], now⟩
  | resize b realloc size =>
      obtain ⟨done, resized, now⟩ := resize_counted realloc size counted sound
      exact ⟨done.1, by rw [Call.run, resized, Option.map_some], now⟩
  | release b =>
      obtain ⟨ids, chain⟩ := sound
      obtain ⟨after, released, spared⟩ :=
        spared_release (spared_refl counted ids) chain (List.Subset.refl ids)
      exact ⟨after, released, spared.counted⟩

/-- Run: a sequence of sound calls comes to its end. -/
theorem sound_calls_run (calls : List Call) (counted : Counted heap fun _ => 0)
    (sound : SoundCalls heap calls) :
    ∃ after, runCalls heap calls = some after ∧ Counted after fun _ => 0 := by
  induction calls generalizing heap with
  | nil => exact ⟨heap, rfl, counted⟩
  | cons call calls ih =>
      obtain ⟨middle, called, middleCounted⟩ := sound_call_runs counted sound.1
      obtain ⟨after, ran, now⟩ := ih middleCounted (sound.2 middle called)
      exact ⟨after, by rw [runCalls, called]; exact ran, now⟩

theorem sound_calls_append {calls more : List Call} (sound : SoundCalls heap (calls ++ more)) :
    SoundCalls heap calls ∧ ∀ after, runCalls heap calls = some after → SoundCalls after more := by
  induction calls generalizing heap with
  | nil =>
      refine ⟨trivial, fun after ran => ?_⟩
      cases ran
      exact sound
  | cons call calls ih =>
      refine ⟨⟨sound.1, fun after called => (ih (sound.2 after called)).1⟩, fun final ran => ?_⟩
      obtain ⟨middle, called, ran⟩ := Option.bind_eq_some_iff.mp ran
      exact (ih (sound.2 middle called)).2 final ran

end TWlib.BufBlkSoundCalls
