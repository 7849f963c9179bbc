import Mathlib.Algebra.GroupWithZero.Nat
import Mathlib.Data.List.Perm.Subperm
import TWlib.BufBlkHeap

/-!
# Chains of blocks: what they hold and how they are released

`ChainOk` is what the operations on a chain rely on. The content of a block
depends on the block and its MemBlk only, so an operation on other blocks is
followed through a chain with the frame lemmas here. `release_chain` says once
what a release does to every object on the heap, whatever shares the MemBlks.
-/

namespace TWlib.BufBlkChain

open TWlib.Lib.CellStore TWlib.Lib.LinkedChain TWlib.Lib.MachineInt TWlib.BufBlkHeap

set_option autoImplicit false

/-! ## Elementary updates -/

section Updates

variable (heap : Heap) (b : BufId) (blk : BufBlk) (m : MemId) (mem : MemBlk)

@[simp] theorem put_buf_mems : (heap.putBuf b blk).mems = heap.mems := rfl
@[simp] theorem put_buf_deleted : (heap.putBuf b blk).deleted = heap.deleted := rfl
@[simp] theorem put_buf_bufs : (heap.putBuf b blk).bufs = heap.bufs.write b blk := rfl
@[simp] theorem put_mem_bufs : (heap.putMem m mem).bufs = heap.bufs := rfl
@[simp] theorem put_mem_deleted : (heap.putMem m mem).deleted = heap.deleted := rfl
@[simp] theorem put_mem_mems : (heap.putMem m mem).mems = heap.mems.write m mem := rfl
@[simp] theorem delete_buf_mems : (heap.deleteBuf b).mems = heap.mems := rfl
@[simp] theorem delete_buf_bufs : (heap.deleteBuf b).bufs = heap.bufs.giveUp b := rfl
@[simp] theorem delete_buf_deleted : (heap.deleteBuf b).deleted = heap.deleted ++ [b] := rfl

end Updates

theorem read_put_buf {heap : Heap} {b : BufId} {old : BufBlk}
    (present : heap.bufs.read b = some old) (blk : BufBlk) (other : BufId) :
    (heap.putBuf b blk).bufs.read other = if other = b then some blk else heap.bufs.read other :=
  read_write present blk other

theorem next_of_read {heap : Heap} {b : BufId} {blk : BufBlk}
    (present : heap.bufs.read b = some blk) :
    heap.next b = some blk.nextblk := by
  simp [Heap.next, present]

theorem read_of_next {heap : Heap} {b : BufId} {after : Option BufId}
    (step : heap.next b = some after) :
    ∃ blk, heap.bufs.read b = some blk ∧ blk.nextblk = after := by
  simpa [Heap.next] using step

theorem set_nexblk_eq {heap : Heap} {b : BufId} {blk : BufBlk}
    (present : heap.bufs.read b = some blk) (after : Option BufId) :
    heap.setNexblk b after = some (heap.putBuf b { blk with nextblk := after }) := by
  simp [Heap.setNexblk, present]

/-! ## The content of one block -/

/-- The positions of a block are in order and inside the buffer of its MemBlk. -/
def BlockOk (heap : Heap) (b : BufId) : Prop :=
  ∃ blk, heap.bufs.read b = some blk ∧
    match blk.blk with
    | none => blk.rdPtr = blk.wrPtr
    | some m => ∃ mem, heap.mems.read m = some mem ∧
        mem.base ≤ blk.rdPtr ∧ blk.rdPtr ≤ blk.wrPtr ∧ blk.wrPtr ≤ mem.base + mem.size

def bytesOf (heap : Heap) (b : BufId) : List Byte := (heap.blockBytes b).getD []

def lengthsOf (heap : Heap) (ids : List BufId) : List Nat :=
  ids.map fun b => (bytesOf heap b).length

theorem load_of_holds {mem : MemBlk} {src : Int} {count : Int} (holds : mem.Holds src count) :
    mem.load src count = some ((mem.bytes.drop (src - mem.base).toNat).take count.toNat) := by
  simp [MemBlk.load, holds]

theorem load_length {mem : MemBlk} {src : Int} {count : Int} {data : List Byte}
    (loaded : mem.load src count = some data) : (data.length : Int) = count := by
  unfold MemBlk.load at loaded
  split at loaded
  · rename_i holds
    obtain ⟨low, nonneg, high⟩ := holds
    cases loaded
    simp only [MemBlk.size] at high
    simp only [List.length_take, List.length_drop]
    omega
  · cases loaded

theorem bytes_of_block {heap : Heap} {b : BufId} {blk : BufBlk} {m : MemId} {mem : MemBlk}
    (present : heap.bufs.read b = some blk) (owner : blk.blk = some m)
    (memPresent : heap.mems.read m = some mem) (holds : mem.Holds blk.rdPtr blk.length) :
    bytesOf heap b = (mem.bytes.drop (blk.rdPtr - mem.base).toNat).take blk.length.toNat := by
  simp [bytesOf, Heap.blockBytes, present, Heap.readable, owner, memPresent, load_of_holds holds]

theorem block_ok_bytes {heap : Heap} {b : BufId} (ok : BlockOk heap b) :
    ∃ blk, heap.bufs.read b = some blk ∧ heap.readable blk = some (bytesOf heap b) ∧
      blk.length = (bytesOf heap b).length := by
  obtain ⟨blk, present, inside⟩ := ok
  suffices found : ∃ bytes, heap.readable blk = some bytes ∧ blk.length = bytes.length by
    obtain ⟨bytes, read, length⟩ := found
    have same : bytesOf heap b = bytes := by simp [bytesOf, Heap.blockBytes, present, read]
    exact ⟨blk, present, same ▸ read, same ▸ length⟩
  cases owner : blk.blk with
  | none =>
      rw [owner] at inside
      have empty : blk.length = 0 := by simp only [BufBlk.length]; omega
      exact ⟨[], by simp [Heap.readable, owner, empty], by simp [empty]⟩
  | some m =>
      rw [owner] at inside
      obtain ⟨mem, memPresent, low, order, high⟩ := inside
      have holds : mem.Holds blk.rdPtr blk.length := by
        simp only [MemBlk.Holds, BufBlk.length]
        omega
      have loaded := load_of_holds holds
      exact ⟨_, by simp [Heap.readable, owner, memPresent, loaded], (load_length loaded).symm⟩

/-- Two heaps agree on a block up to its successor, and on the MemBlk it refers to. -/
def Alike (before after : Heap) (b : BufId) : Prop :=
  (after.bufs.read b).map (fun blk => { blk with nextblk := none }) =
      (before.bufs.read b).map (fun blk => { blk with nextblk := none }) ∧
    ∀ m, before.memOf b = some m → after.mems.read m = before.mems.read m

/-- Two heaps agree on a block and on the MemBlk it refers to. -/
def Agree (before after : Heap) (b : BufId) : Prop :=
  after.bufs.read b = before.bufs.read b ∧
    ∀ m, before.memOf b = some m → after.mems.read m = before.mems.read m

theorem agree_alike {before after : Heap} {b : BufId} (agree : Agree before after b) :
    Alike before after b := ⟨by rw [agree.1], agree.2⟩

theorem alike_read {before after : Heap} {b : BufId} {blk : BufBlk} (alike : Alike before after b)
    (present : before.bufs.read b = some blk) :
    ∃ now, after.bufs.read b = some now ∧ now.blk = blk.blk ∧ now.rdPtr = blk.rdPtr ∧
      now.wrPtr = blk.wrPtr := by
  have same := alike.1
  cases found : after.bufs.read b with
  | none => simp [found, present] at same
  | some now =>
      simp only [found, present, Option.map_some, Option.some.injEq, BufBlk.mk.injEq] at same
      exact ⟨now, rfl, same.1, same.2.1, same.2.2.1⟩

theorem alike_mem_of {before after : Heap} {b : BufId} (alike : Alike before after b) :
    after.memOf b = before.memOf b := by
  have same := congrArg (fun cell => cell.bind BufBlk.blk) alike.1
  simpa [Heap.memOf, Option.bind_map, Function.comp_def] using same

theorem alike_block_bytes {before after : Heap} {b : BufId} (alike : Alike before after b) :
    after.blockBytes b = before.blockBytes b := by
  cases present : before.bufs.read b with
  | none =>
      have same := alike.1
      rw [present, Option.map_none, Option.map_eq_none_iff] at same
      simp [Heap.blockBytes, present, same]
  | some blk =>
      rcases alike_read alike present with ⟨now, found, owner, low, high⟩
      simp only [Heap.blockBytes, present, found, Option.bind_eq_bind, Option.bind_some,
        Heap.readable, BufBlk.length, owner, low, high]
      cases own : blk.blk with
      | none => rfl
      | some m =>
          have held : before.memOf b = some m := by simp [Heap.memOf, present, own]
          simp [alike.2 m held]

theorem alike_bytes_of {before after : Heap} {b : BufId} (alike : Alike before after b) :
    bytesOf after b = bytesOf before b := by
  simp [bytesOf, alike_block_bytes alike]

theorem alike_block_ok {before after : Heap} {b : BufId} (alike : Alike before after b)
    (ok : BlockOk before b) : BlockOk after b := by
  rcases ok with ⟨blk, present, inside⟩
  rcases alike_read alike present with ⟨now, found, owner, low, high⟩
  refine ⟨now, found, ?_⟩
  rw [owner, low, high]
  cases own : blk.blk with
  | none => simpa [own] using inside
  | some m =>
      have held : before.memOf b = some m := by simp [Heap.memOf, present, own]
      simpa [own, alike.2 m held] using inside

theorem agree_bytes_of {before after : Heap} {b : BufId} (agree : Agree before after b) :
    bytesOf after b = bytesOf before b := alike_bytes_of (agree_alike agree)

theorem agree_next {before after : Heap} {b : BufId} (agree : Agree before after b) :
    after.next b = before.next b := by
  simp [Heap.next, agree.1]

theorem agree_block_ok {before after : Heap} {b : BufId} (agree : Agree before after b)
    (ok : BlockOk before b) : BlockOk after b := alike_block_ok (agree_alike agree) ok

/-! ## The content of a chain -/

theorem put_buf_agree {heap : Heap} {b other : BufId} {old : BufBlk}
    (present : heap.bufs.read b = some old) (blk : BufBlk) (different : other ≠ b) :
    Agree heap (heap.putBuf b blk) other := by
  constructor
  · simp [read_write present, different]
  · intro m owner
    rfl

theorem put_buf_next {heap : Heap} {b : BufId} {old : BufBlk}
    (present : heap.bufs.read b = some old) (blk : BufBlk) :
    (heap.putBuf b blk).next b = some blk.nextblk := by
  simp [Heap.next, read_write present]

structure ChainOk (heap : Heap) (start : Option BufId) (ids : List BufId) : Prop where
  linked : Chain heap.next start ids
  inside : ∀ b ∈ ids, BlockOk heap b

theorem chain_read {heap : Heap} {start : Option BufId} {ids : List BufId}
    (chain : Chain heap.next start ids) {b : BufId} (member : b ∈ ids) :
    ∃ blk, heap.bufs.read b = some blk := by
  obtain ⟨after, step⟩ := segment_exists chain b member
  obtain ⟨blk, present, -⟩ := read_of_next step
  exact ⟨blk, present⟩

theorem chain_bound {heap : Heap} {start : Option BufId} {ids : List BufId}
    (chain : Chain heap.next start ids) : ids.length ≤ heap.bufs.fresh := by
  have subset : ids ⊆ List.range heap.bufs.fresh := by
    intro b member
    obtain ⟨blk, present⟩ := chain_read chain member
    exact List.mem_range.mpr (read_bound present)
  simpa using (List.subperm_of_subset (chain_nodup chain) subset).length_le

theorem chain_ok_frame {before after : Heap} {start : Option BufId} {ids : List BufId}
    (ok : ChainOk before start ids) (agree : ∀ b ∈ ids, Agree before after b) :
    ChainOk after start ids :=
  ⟨chain_frame ok.linked (fun b member => agree_next (agree b member)),
    fun b member => agree_block_ok (agree b member) (ok.inside b member)⟩

theorem chain_ok_append {heap : Heap} {start : Option BufId} {front back : List BufId} :
    ChainOk heap start (front ++ back) ↔
      Segment heap.next start front back.head? ∧ (∀ b ∈ front, BlockOk heap b) ∧
        ChainOk heap back.head? back := by
  constructor
  · intro ok
    obtain ⟨left, right⟩ := (chain_append _ _ _).mp ok.linked
    exact ⟨left, fun b member => ok.inside b (by simp [member]),
      right, fun b member => ok.inside b (by simp [member])⟩
  · rintro ⟨left, insideLeft, right⟩
    refine ⟨(chain_append _ _ _).mpr ⟨left, right.linked⟩, fun b member => ?_⟩
    rcases List.mem_append.mp member with inFront | inBack
    · exact insideLeft b inFront
    · exact right.inside b inBack

theorem chain_ok_cons {heap : Heap} {start : Option BufId} {b : BufId} {rest : List BufId}
    (ok : ChainOk heap start (b :: rest)) :
    start = some b ∧ ∃ blk, heap.bufs.read b = some blk ∧
      heap.readable blk = some (bytesOf heap b) ∧ blk.length = (bytesOf heap b).length ∧
        ChainOk heap blk.nextblk rest := by
  obtain ⟨first, after, step, tail⟩ := ok.linked
  obtain ⟨blk, present, read, length⟩ := block_ok_bytes (ok.inside b (by simp))
  have same : after = blk.nextblk := Option.some.inj (step.symm.trans (next_of_read present))
  exact ⟨first, blk, present, read, length, same ▸ tail,
    fun other member => ok.inside other (List.mem_cons_of_mem _ member)⟩

theorem contents_from_chain {heap : Heap} {ids : List BufId} {start : Option BufId} (fuel : Nat)
    (ok : ChainOk heap start ids) (enough : ids.length ≤ fuel) :
    Heap.contentsFrom fuel heap start = some (ids.flatMap (bytesOf heap)) := by
  induction ids generalizing start fuel with
  | nil =>
      have empty : start = none := ok.linked
      subst empty
      cases fuel <;> rfl
  | cons b rest ih =>
      obtain ⟨first, blk, present, read, -, tail⟩ := chain_ok_cons ok
      subst first
      cases fuel with
      | zero => simp at enough
      | succ fuel =>
          have later := ih fuel tail (by simpa using enough)
          simp [Heap.contentsFrom, present, read, later]

theorem contents_of_chain {heap : Heap} {start : Option BufId} {ids : List BufId}
    (ok : ChainOk heap start ids) : heap.contents start = some (ids.flatMap (bytesOf heap)) :=
  contents_from_chain _ ok (chain_bound ok.linked)

theorem contents_none (heap : Heap) : heap.contents none = some [] := by
  unfold Heap.contents
  cases heap.bufs.fresh <;> rfl

theorem total_length_from_chain {heap : Heap} {ids : List BufId} {start : Option BufId} (fuel : Nat)
    (ret : Int) (ok : ChainOk heap start ids) (enough : ids.length ≤ fuel)
    (fits : asInt ret = ret) :
    Heap.totalLengthFrom fuel heap start ret =
    some (asInt (ret + ((lengthsOf heap ids).sum : Nat))) := by
  induction ids generalizing start fuel ret with
  | nil =>
      have empty : start = none := ok.linked
      subst empty
      cases fuel <;> simp [Heap.totalLengthFrom, lengthsOf, fits]
  | cons b rest ih =>
      obtain ⟨first, blk, present, -, length, tail⟩ := chain_ok_cons ok
      subst first
      cases fuel with
      | zero => simp at enough
      | succ fuel =>
          have later := ih fuel (asInt (ret + blk.length)) tail (by simpa using enough)
            (as_int_of_is_int (as_int_is_int _))
          have lengths : ret + blk.length + ((lengthsOf heap rest).sum : Nat) =
              ret + ((lengthsOf heap (b :: rest)).sum : Nat) := by
            simp only [lengthsOf, List.map_cons, List.sum_cons, length]
            omega
          simp only [Heap.totalLengthFrom, present, Option.bind_eq_bind, Option.bind_some, later,
            as_int_add_as_int, lengths]

theorem total_length_of_chain {heap : Heap} {this : BufId} {ids : List BufId}
    (ok : ChainOk heap (some this) ids) :
    heap.totalLength this = some (asInt ((lengthsOf heap ids).sum : Nat)) := by
  simpa [Heap.totalLength] using total_length_from_chain heap.bufs.fresh 0 ok
    (chain_bound ok.linked) rfl

theorem lengths_sum {heap : Heap} (ids : List BufId) :
    (lengthsOf heap ids).sum = (ids.flatMap (bytesOf heap)).length := by
  simp [lengthsOf, List.length_flatMap]

theorem content_length {heap : Heap} {start : Option BufId} {ids : List BufId} {content : List Byte}
    (ok : ChainOk heap start ids) (reads : heap.contents start = some content) :
    content.length = (lengthsOf heap ids).sum := by
  have same := Option.some.inj (reads.symm.trans (contents_of_chain ok))
  rw [same, lengths_sum]

theorem contents_from_gone {heap : Heap} {ids : List BufId} {start : Option BufId} {stop : BufId}
    (fuel : Nat) (segment : Segment heap.next start ids (some stop))
    (gone : heap.bufs.read stop = none) : Heap.contentsFrom fuel heap start = none := by
  induction ids generalizing start fuel with
  | nil =>
      have same : start = some stop := segment
      subst same
      cases fuel with
      | zero => rfl
      | succ fuel => simp [Heap.contentsFrom, gone]
  | cons b rest ih =>
      obtain ⟨first, after, step, tail⟩ := segment
      subst first
      obtain ⟨blk, present, same⟩ := read_of_next step
      cases fuel with
      | zero => rfl
      | succ fuel =>
          subst same
          simp [Heap.contentsFrom, present, ih fuel tail]

/-! ## Releasing a chain -/

/-- How many of the blocks refer to `m`. -/
def users (heap : Heap) (ids : List BufId) (m : MemId) : Nat :=
  ids.countP fun b => heap.memOf b = some m

def dropped (count : Nat) (mem : MemBlk) : Option MemBlk :=
  if count = 0 then some mem
  else if mem.refCount ≤ count then none
  else some { mem with refCount := mem.refCount - count }

structure Released (before : Heap) (ids : List BufId) (after : Heap) : Prop where
  bufs : ∀ b, after.bufs.read b = if b ∈ ids then none else before.bufs.read b
  mems : ∀ m, after.mems.read m = (before.mems.read m).bind (dropped (users before ids m))
  deleted : after.deleted = before.deleted ++ ids.reverse
  freshBufs : after.bufs.fresh = before.bufs.fresh
  freshMems : after.mems.fresh = before.mems.fresh

/-- The references of `ids` are covered by the counts. One reference may be given up whatever
the count says, since the MemBlk goes as soon as the count falls below one. -/
def Backed (heap : Heap) (ids : List BufId) : Prop :=
  ∀ m, 0 < users heap ids m → ∃ mem, heap.mems.read m = some mem ∧
    (users heap ids m ≤ 1 ∨ (users heap ids m : Int) ≤ mem.refCount)

theorem users_cons (heap : Heap) (b : BufId) (rest : List BufId) (m : MemId) :
    users heap (b :: rest) m = users heap rest m + if heap.memOf b = some m then 1 else 0 := by
  simp [users, List.countP_cons]

theorem backed_tail {heap : Heap} {b : BufId} {rest : List BufId}
    (backed : Backed heap (b :: rest)) :
    Backed heap rest := by
  intro m positive
  obtain ⟨mem, present, covered⟩ := backed m (by rw [users_cons]; omega)
  rw [users_cons] at covered
  exact ⟨mem, present, by omega⟩

theorem release_mem_eq {heap : Heap} {m : MemId} {mem : MemBlk}
    (present : heap.mems.read m = some mem) :
    ∃ after, heap.releaseMem m = some after ∧ after.bufs = heap.bufs ∧
      after.deleted = heap.deleted ∧
      after.mems.fresh = heap.mems.fresh ∧
      ∀ other, after.mems.read other =
        if other = m then dropped 1 mem else heap.mems.read other := by
  unfold Heap.releaseMem
  simp only [present, Option.bind_eq_bind, Option.bind_some]
  by_cases last : mem.refCount - 1 < 1
  · refine ⟨_, if_pos last, rfl, rfl, by simp, fun other => ?_⟩
    have gone : dropped 1 mem = none := by
      simp only [dropped, Nat.one_ne_zero, if_false]
      rw [if_pos (by omega)]
    simp [read_give_up, gone]
  · refine ⟨_, if_neg last, rfl, rfl, by simp, fun other => ?_⟩
    have kept : dropped 1 mem = some { mem with refCount := mem.refCount - 1 } := by
      simp only [dropped, Nat.one_ne_zero, if_false]
      rw [if_neg (by omega)]
      rfl
    simp [read_write present, kept]

theorem dropped_succ {mem kept : MemBlk} {count : Nat} (some_left : dropped count mem = some kept) :
    dropped 1 kept = dropped (count + 1) mem := by
  unfold dropped at some_left
  split_ifs at some_left with none_yet low
  · cases some_left
    simp [none_yet]
  · cases some_left
    simp only [dropped, if_false, Nat.succ_ne_zero]
    by_cases last : mem.refCount ≤ (count + 1 : Nat)
    · rw [if_pos last, if_pos (by push_cast at last ⊢; omega)]
    · rw [if_neg last, if_neg (by push_cast at last ⊢; omega)]
      simp only [Option.some.injEq, MemBlk.mk.injEq, and_true]
      push_cast
      omega

theorem dropped_isSome {mem : MemBlk} {count : Nat}
    (covered : count + 1 ≤ 1 ∨ ((count + 1 : Nat) : Int) ≤ mem.refCount) :
    ∃ kept, dropped count mem = some kept := by
  unfold dropped
  split_ifs with none_yet low
  · exact ⟨_, rfl⟩
  · push_cast at covered
    omega
  · exact ⟨_, rfl⟩

theorem release_own_mem {before heap : Heap} {b : BufId} {rest : List BufId} {blk : BufBlk}
    (released : Released before rest heap)
    (present : before.bufs.read b = some blk) (backed : Backed before (b :: rest)) :
    ∃ after, heap.releaseOptMem blk.blk = some after ∧
      Released before (b :: rest) (after.deleteBuf b) := by
  have owner : before.memOf b = blk.blk := by simp [Heap.memOf, present]
  cases own : blk.blk with
  | none =>
      refine ⟨heap, rfl, ?_, ?_, ?_, by simpa using released.freshBufs, released.freshMems⟩
      · intro other
        simp only [delete_buf_bufs, read_give_up, released.bufs, List.mem_cons]
        by_cases same : other = b <;> simp [same]
      · intro m
        have count : users before (b :: rest) m = users before rest m := by
          simp [users_cons, owner, own]
        rw [count]
        exact released.mems m
      · simp [released.deleted]
  | some m =>
      have count : ∀ other, users before (b :: rest) other =
          users before rest other + if other = m then 1 else 0 := by
        intro other
        rw [users_cons, owner, own]
        simp only [Option.some.injEq, eq_comm]
      obtain ⟨mem, memPresent, covered⟩ := backed m (by rw [count]; simp)
      rw [count, if_pos rfl] at covered
      obtain ⟨kept, left⟩ := dropped_isSome covered
      have now : heap.mems.read m = some kept := by
        rw [released.mems, memPresent]
        exact left
      obtain ⟨after, done, sameBufs, sameDeleted, sameFresh, reads⟩ := release_mem_eq now
      refine ⟨after, done, ?_, ?_, ?_, ?_, ?_⟩
      · intro other
        simp only [delete_buf_bufs, sameBufs, read_give_up, released.bufs, List.mem_cons]
        by_cases same : other = b <;> simp [same]
      · intro other
        rw [delete_buf_mems, reads, count]
        by_cases same : other = m
        · subst same
          simp only [if_true, memPresent, Option.bind_some]
          exact dropped_succ left
        · simp only [same, if_false, Nat.add_zero]
          exact released.mems other
      · simp [sameDeleted, released.deleted]
      · simp [sameBufs, released.freshBufs]
      · simp [sameFresh, released.freshMems]

theorem released_nothing (heap : Heap) : Released heap [] heap :=
  ⟨by simp, fun m => by cases heap.mems.read m <;> simp [users, dropped], by simp, rfl, rfl⟩

theorem release_from_chain {heap : Heap} {ids : List BufId} {b : BufId} (fuel : Nat)
    (chain : Chain heap.next (some b) ids) (enough : ids.length ≤ fuel) (backed : Backed heap ids) :
    ∃ after, Heap.releaseFrom fuel heap b = some after ∧ Released heap ids after := by
  induction ids generalizing b fuel with
  | nil => simp at chain
  | cons first rest ih =>
      obtain ⟨same, after, step, tail⟩ := chain
      cases Option.some.inj same
      obtain ⟨blk, present, follows⟩ := read_of_next step
      subst follows
      cases fuel with
      | zero => simp at enough
      | succ fuel =>
          simp only [List.length_cons, Nat.add_le_add_iff_right] at enough
          simp only [Heap.releaseFrom, present, Option.bind_eq_bind, Option.bind_some]
          cases follow : blk.nextblk with
          | none =>
              have last : rest = [] := by
                rw [follow] at tail
                exact chain_unique tail rfl
              subst last
              obtain ⟨done, own, released⟩ := release_own_mem (released_nothing heap) present backed
              exact ⟨_, by simp [own], released⟩
          | some later =>
              rw [follow] at tail
              obtain ⟨middle, first_part, released⟩ := ih fuel tail enough (backed_tail backed)
              obtain ⟨done, own, final⟩ := release_own_mem released present backed
              exact ⟨_, by simp [first_part, own], final⟩

theorem release_chain {heap : Heap} {ids : List BufId} {b : BufId}
    (chain : Chain heap.next (some b) ids) (backed : Backed heap ids) :
    ∃ after, heap.release b = some after ∧ Released heap ids after :=
  release_from_chain _ chain (chain_bound chain) backed

theorem release_opt_chain {heap : Heap} {ids : List BufId} {start : Option BufId}
    (chain : Chain heap.next start ids) (backed : Backed heap ids) :
    ∃ after, heap.releaseOpt start = some after ∧ Released heap ids after := by
  cases start with
  | none =>
      have empty : ids = [] := chain_unique chain rfl
      subst empty
      exact ⟨heap, rfl, released_nothing heap⟩
  | some b => exact release_chain chain backed

theorem destroy_chain {heap : Heap} {ids : List BufId} {b : BufId}
    (chain : Chain heap.next (some b) ids) (backed : Backed heap ids) :
    ∃ after, heap.destroy b = some after ∧ Released heap ids after := by
  cases ids with
  | nil => simp at chain
  | cons first rest =>
      rcases chain with ⟨same, follow, step, tail⟩
      cases Option.some.inj same
      rcases read_of_next step with ⟨blk, present, rfl⟩
      rcases release_opt_chain tail (backed_tail backed) with ⟨middle, first_part, released⟩
      rcases release_own_mem released present backed with ⟨done, own, final⟩
      refine ⟨_, ?_, final⟩
      simp only [Heap.destroy, present, first_part, own, Option.bind_eq_bind, Option.bind_some]

/-- A block that neither goes itself nor shares its MemBlk with one that goes stays as it is. -/
theorem released_agree {before after : Heap} {ids : List BufId}
    (released : Released before ids after) {b : BufId} (outside : b ∉ ids)
    (unshared : ∀ other ∈ ids, ∀ m, before.memOf b = some m → before.memOf other ≠ some m) :
    Agree before after b := by
  refine ⟨by rw [released.bufs, if_neg outside], fun m owner => ?_⟩
  have unused : users before ids m = 0 := by
    simp only [users, List.countP_eq_zero, decide_eq_true_eq]
    exact fun other member => unshared other member m owner
  rw [released.mems, unused]
  cases before.mems.read m <;> simp [dropped]

/-! ## Chains that share no MemBlk -/

/-- No MemBlk is referred to by two of the blocks. -/
def Unshared (heap : Heap) (ids : List BufId) : Prop :=
  ∀ left ∈ ids, ∀ right ∈ ids, ∀ m, heap.memOf left = some m → heap.memOf right = some m →
    left = right

theorem unshared_users {heap : Heap} {ids : List BufId} (nodup : ids.Nodup)
    (unshared : Unshared heap ids) (m : MemId) : users heap ids m ≤ 1 := by
  induction ids with
  | nil => simp [users]
  | cons b rest ih =>
      obtain ⟨outside, nodupRest⟩ := List.nodup_cons.mp nodup
      have later := ih nodupRest (fun left leftMember right rightMember =>
        unshared left (by simp [leftMember]) right (by simp [rightMember]))
      rw [users_cons]
      split_ifs with own
      · have unused : users heap rest m = 0 := by
          simp only [users, List.countP_eq_zero, decide_eq_true_eq]
          intro other member also
          exact outside (unshared b (by simp) other (by simp [member]) m own also ▸ member)
        omega
      · omega

theorem block_ok_mem {heap : Heap} {b : BufId} (ok : BlockOk heap b) {m : MemId}
    (owner : heap.memOf b = some m) : ∃ mem, heap.mems.read m = some mem := by
  obtain ⟨blk, present, inside⟩ := ok
  have own : blk.blk = some m := by simpa [Heap.memOf, present] using owner
  rw [own] at inside
  obtain ⟨mem, memPresent, -⟩ := inside
  exact ⟨mem, memPresent⟩

theorem unshared_backed {heap : Heap} {ids : List BufId} (nodup : ids.Nodup)
    (inside : ∀ b ∈ ids, BlockOk heap b) (unshared : Unshared heap ids) : Backed heap ids := by
  intro m positive
  obtain ⟨b, member, owner⟩ := List.countP_pos_iff.mp positive
  obtain ⟨mem, present⟩ := block_ok_mem (inside b member) (by simpa using owner)
  exact ⟨mem, present, .inl (unshared_users nodup unshared m)⟩

/-! ## A chain to evaluate on -/

/-- Three blocks of two bytes, each over a MemBlk of its own. -/
def threeBlocks : Heap where
  mems := ⟨[some ⟨1, 100, [1, 2], true⟩, some ⟨1, 200, [3, 4], true⟩, some ⟨1, 300, [5, 6], true⟩]⟩
  bufs := ⟨[some ⟨some 0, 100, 102, 100, some 1, 0⟩, some ⟨some 1, 200, 202, 200, some 2, 0⟩,
    some ⟨some 2, 300, 302, 300, none, 0⟩]⟩
  deleted := []
  freed := []

theorem three_blocks_ok : ChainOk threeBlocks (some 0) [0, 1, 2] := by
  refine ⟨⟨rfl, some 1, rfl, rfl, some 2, rfl, rfl, none, rfl, rfl⟩, fun b member => ?_⟩
  simp only [List.mem_cons, List.not_mem_nil, or_false] at member
  rcases member with rfl | rfl | rfl
  · exact ⟨_, rfl, _, rfl, by decide, by decide, by decide⟩
  · exact ⟨_, rfl, _, rfl, by decide, by decide, by decide⟩
  · exact ⟨_, rfl, _, rfl, by decide, by decide, by decide⟩

theorem three_blocks_unshared : Unshared threeBlocks [0, 1, 2] := by
  have own : ∀ b ∈ [0, 1, 2], threeBlocks.memOf b = some b := by decide
  intro left leftMember right rightMember m leftOwner rightOwner
  rw [own left leftMember] at leftOwner
  rw [own right rightMember] at rightOwner
  exact Option.some.inj (leftOwner.trans rightOwner.symm)

theorem three_blocks_single (m : MemId) (mem : MemBlk)
    (present : threeBlocks.mems.read m = some mem) :
    mem.refCount = 1 := by
  have bound : m < 3 := read_bound present
  have counts : ∀ n < 3, (threeBlocks.mems.read n).map MemBlk.refCount = some 1 := by decide
  have count := counts m bound
  rw [present] at count
  exact Option.some.inj count

def zeroAlloc : Alloc where
  malloc call size := some (1000 * (call + 1), List.replicate size 0)
  exactSize := by
    intro call size base bytes given
    cases given
    simp
  staleFlags _ := 0

theorem zero_alloc_succeeds : zeroAlloc.Succeeds := fun _ _ => ⟨_, _, rfl⟩

end TWlib.BufBlkChain
