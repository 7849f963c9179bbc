import TWlib.BufBlkView

/-!
# Reference counts against live blocks

A function of the source counts a reference and makes or drops the block that
holds it in two steps. `Counted` allows for the difference: `owed` is how many
references each MemBlk counts beyond the live blocks that refer to it. Every
elementary step changes `owed` by one reference or not at all.
-/

namespace TWlib.BufBlkCount

open TWlib.Lib.CellStore TWlib.Lib.LinkedChain TWlib.BufBlkHeap TWlib.BufBlkChain TWlib.BufBlkView

set_option autoImplicit false

def liveUsers (heap : Heap) (m : MemId) : Nat := heap.bufs.count fun blk => blk.blk = some m

def reference (blk : Option MemId) (m : MemId) : Int := if blk = some m then 1 else 0

def Counted (heap : Heap) (owed : MemId → Int) : Prop :=
  ∀ m, match heap.mems.read m with
    | some mem => mem.refCount = liveUsers heap m + owed m ∧ 0 < mem.refCount
    | none => liveUsers heap m + owed m = 0

variable {heap after : Heap} {owed left : MemId → Int} {b : BufId} {old blk : BufBlk} {m : MemId}
  {mem : MemBlk}

theorem counted_some (counted : Counted heap owed) (present : heap.mems.read m = some mem) :
    mem.refCount = liveUsers heap m + owed m ∧ 0 < mem.refCount := by
  have here := counted m
  rw [present] at here
  exact here

theorem counted_none (counted : Counted heap owed) (gone : heap.mems.read m = none) :
    liveUsers heap m + owed m = 0 := by
  have here := counted m
  rw [gone] at here
  exact here

theorem counted_intro (alive : ∀ m mem, heap.mems.read m = some mem →
      mem.refCount = liveUsers heap m + owed m ∧ 0 < mem.refCount)
    (gone : ∀ m, heap.mems.read m = none → liveUsers heap m + owed m = 0) : Counted heap owed := by
  intro m
  cases present : heap.mems.read m with
  | none => exact gone m present
  | some mem => exact alive m mem present

/-! ## Changes of the blocks -/

theorem counted_bufs (counted : Counted heap owed) (sameMems : after.mems = heap.mems)
    (shift : ∀ m, (liveUsers after m : Int) + left m = liveUsers heap m + owed m) :
    Counted after left := by
  refine counted_intro (fun m mem present => ?_) (fun m gone => ?_)
  · rw [sameMems] at present
    rw [shift]
    exact counted_some counted present
  · rw [sameMems] at gone
    rw [shift]
    exact counted_none counted gone

theorem counted_push_buf (blk : BufBlk) (counted : Counted heap owed)
    (shift : ∀ m, left m + reference blk.blk m = owed m) : Counted (heap.pushBuf blk).1 left := by
  refine counted_bufs counted (by rfl) fun m => ?_
  have pushed : liveUsers (heap.pushBuf blk).1 m = liveUsers heap m + if blk.blk = some m then 1
      else 0 := by
    simp [liveUsers, Heap.pushBuf]
  have here := shift m
  rw [pushed]
  simp only [reference] at here
  split_ifs at here ⊢ <;> omega

theorem counted_put_buf (present : heap.bufs.read b = some old) (blk : BufBlk)
    (counted : Counted heap owed)
    (shift : ∀ m, left m + reference blk.blk m = owed m + reference old.blk m) :
    Counted (heap.putBuf b blk) left := by
  refine counted_bufs counted (by rfl) fun m => ?_
  have put := count_write (fun blk : BufBlk => decide (blk.blk = some m)) present blk
  have here := shift m
  simp only [reference, liveUsers, put_buf_bufs, decide_eq_true_eq] at here put ⊢
  split_ifs at here put <;> omega

/-! ## Changes of the MemBlks -/

theorem counted_checkout (present : heap.mems.read m = some mem) (counted : Counted heap owed)
    (shift : ∀ other, left other = owed other + reference (some m) other) :
    Counted (heap.putMem m { mem with refCount := mem.refCount + 1 }) left := by
  have users : ∀ other, liveUsers (heap.putMem m { mem with refCount := mem.refCount + 1 }) other =
      liveUsers heap other := fun _ => rfl
  have read := read_write present { mem with refCount := mem.refCount + 1 }
  have here := counted_some counted present
  refine counted_intro (fun other now present => ?_) (fun other gone => ?_)
  · rw [put_mem_mems, read] at present
    rw [users, shift]
    simp only [reference, Option.some.injEq]
    split_ifs at present with same
    · cases present
      subst same
      simp only [if_true]
      omega
    · rw [if_neg (Ne.symm same)]
      have there := counted_some counted present
      omega
  · rw [put_mem_mems, read] at gone
    rw [users, shift]
    simp only [reference, Option.some.injEq]
    split_ifs at gone with same
    rw [if_neg (Ne.symm same)]
    have there := counted_none counted gone
    omega

theorem counted_release_mem (present : heap.mems.read m = some mem) (counted : Counted heap owed)
    (shift : ∀ other, left other + reference (some m) other = owed other) :
    ∃ after, heap.releaseMem m = some after ∧ after.bufs = heap.bufs ∧
      (∀ other, other ≠ m → after.mems.read other = heap.mems.read other) ∧
      (∀ now, after.mems.read m = some now → now = { mem with refCount := mem.refCount - 1 }) ∧
      Counted after left := by
  rcases release_mem_eq present with ⟨after, released, sameBufs, -, -, reads⟩
  have users : ∀ other, liveUsers after other = liveUsers heap other := by
    intro other
    rw [liveUsers, liveUsers, sameBufs]
  have here := counted_some counted present
  have ownShift := shift m
  simp only [reference, if_true] at ownShift
  refine ⟨after, released, sameBufs, fun other different => ?_, fun now present => ?_, ?_⟩
  · rw [reads, if_neg different]
  · rw [reads, if_pos rfl] at present
    simp only [dropped, Nat.one_ne_zero, if_false] at present
    split_ifs at present
    cases present
    rfl
  · intro other
    rw [users, reads]
    by_cases same : other = m
    · subst same
      simp only [if_true, dropped, Nat.one_ne_zero, if_false]
      by_cases last : mem.refCount ≤ (1 : Nat)
      · rw [if_pos last]
        simp only
        omega
      · rw [if_neg last]
        simp only
        omega
    · have otherShift := shift other
      simp only [reference, Option.some.injEq, if_neg (Ne.symm same)] at otherShift
      have there := counted other
      rw [if_neg same]
      cases known : heap.mems.read other with
      | none =>
          rw [known] at there
          simp only at there ⊢
          omega
      | some now =>
          rw [known] at there
          simp only at there ⊢
          omega

theorem counted_push_mem (counted : Counted heap owed) (mem : MemBlk) (single : mem.refCount = 1)
    (shift : ∀ m, left m = owed m + reference (some heap.mems.fresh) m) :
    Counted (heap.pushMem mem).1 left := by
  have users : ∀ m, liveUsers (heap.pushMem mem).1 m = liveUsers heap m := fun _ => rfl
  have read := read_push heap.mems mem
  have unborn := counted_none counted (read_beyond (Nat.le_refl heap.mems.fresh))
  refine counted_intro (fun m now present => ?_) (fun m gone => ?_)
  · change (heap.mems.push mem).read m = some now at present
    rw [read] at present
    rw [users, shift]
    simp only [reference, Option.some.injEq]
    split_ifs at present with same
    · cases present
      subst same
      simp only [if_true]
      omega
    · rw [if_neg (Ne.symm same)]
      have there := counted_some counted present
      omega
  · change (heap.mems.push mem).read m = none at gone
    rw [read] at gone
    rw [users, shift]
    simp only [reference, Option.some.injEq]
    split_ifs at gone with same
    rw [if_neg (Ne.symm same)]
    have there := counted_none counted gone
    omega

theorem counted_put_mem (present : heap.mems.read m = some mem) (now : MemBlk)
    (sameCount : now.refCount = mem.refCount) (counted : Counted heap owed) :
    Counted (heap.putMem m now) owed := by
  have users : ∀ other, liveUsers (heap.putMem m now) other = liveUsers heap other := fun _ => rfl
  have read := read_write present now
  have here := counted_some counted present
  intro other
  rw [users, put_mem_mems, read]
  by_cases same : other = m
  · subst same
    simp only [if_true, sameCount]
    exact here
  · simp only [if_neg same]
    exact counted other

/-! ## Releasing a chain -/

theorem users_eq_count (heap : Heap) (ids : List BufId) (m : MemId) : users heap ids m =
    ids.countP fun b => (heap.bufs.read b).any fun blk => decide (blk.blk = some m) := by
  apply List.countP_congr
  intro b _
  cases present : heap.bufs.read b <;> simp [Heap.memOf, present]

theorem users_le_live (heap : Heap) {ids : List BufId} (nodup : ids.Nodup)
    (alive : ∀ b ∈ ids, b < heap.bufs.fresh) (m : MemId) : users heap ids m ≤ liveUsers heap m := by
  have apart := count_apart (fun blk : BufBlk => decide (blk.blk = some m)) heap.bufs nodup alive
  rw [liveUsers, apart, ← users_eq_count]
  exact Nat.le_add_right _ _

theorem live_users_released {ids : List BufId} (nodup : ids.Nodup)
    (alive : ∀ b ∈ ids, b < heap.bufs.fresh) (released : Released heap ids after) (m : MemId) :
    liveUsers after m + users heap ids m = liveUsers heap m := by
  have apart := count_apart (fun blk : BufBlk => decide (blk.blk = some m)) heap.bufs nodup alive
  have left : liveUsers after m = (List.range heap.bufs.fresh).countP fun b =>
      decide (b ∉ ids) && (heap.bufs.read b).any fun blk => decide (blk.blk = some m) := by
    rw [liveUsers, count_eq_range, released.freshBufs]
    apply List.countP_congr
    intro b _
    rw [released.bufs]
    by_cases member : b ∈ ids <;> simp [member]
  have whole : liveUsers heap m = heap.bufs.count fun blk => decide (blk.blk = some m) := rfl
  rw [left, users_eq_count, whole, apart, Nat.add_comm]

theorem counted_released {ids : List BufId} (nodup : ids.Nodup)
    (alive : ∀ b ∈ ids, b < heap.bufs.fresh) (released : Released heap ids after)
    (counted : Counted heap fun _ => 0) : Counted after fun _ => 0 := by
  intro m
  have users := live_users_released nodup alive released m
  have here := counted m
  rw [released.mems]
  cases present : heap.mems.read m with
  | none =>
      rw [present] at here
      simp only [Option.bind_none] at here ⊢
      omega
  | some mem =>
      rw [present] at here
      simp only [Option.bind_some, dropped] at here ⊢
      split_ifs with unused low
      · simp only
        omega
      · simp only
        omega
      · simp only
        omega

theorem counted_backed {ids : List BufId} (nodup : ids.Nodup)
    (alive : ∀ b ∈ ids, b < heap.bufs.fresh) (counted : Counted heap fun _ => 0) :
    Backed heap ids := by
  intro m positive
  have bound := users_le_live heap nodup alive m
  cases present : heap.mems.read m with
  | none =>
      have here := counted_none counted present
      omega
  | some mem =>
      have here := counted_some counted present
      exact ⟨mem, rfl, .inr (by omega)⟩

end TWlib.BufBlkCount
