import TWlib.BufBlkOwnershipCopy

/-!
# `BufBlk::resize` and the positions of the blocks over one buffer

The MemBlk gets the address and the size that `realloc` gives it. The block it is called for takes
its three positions along; the other blocks over the MemBlk keep the addresses they have.
-/

namespace TWlib.BufBlkResize

open TWlib.Lib.CellStore TWlib.BufBlkHeap TWlib.BufBlkChain TWlib.BufBlkOwnershipCopy

set_option autoImplicit false

/-! ## The code -/

/-- `ALLOC::realloc`: NULL, or the address of `size` bytes that begin with those of the old
buffer. -/
structure Realloc where
  answer : MemBlk → Int → Option (Int × List Byte)
  exactSize : ∀ mem size base bytes, answer mem size = some (base, bytes) →
    (bytes.length : Int) = size
  keeps : ∀ mem size base bytes, answer mem size = some (base, bytes) →
    bytes.take mem.bytes.length = mem.bytes.take size.toNat

/-- `MemBlk::resize`. -/
def resizeMem (realloc : Realloc) (heap : Heap) (m : MemId) (size : Int) :
    Option (Heap × Bool) := do
  let mem ← heap.mems.read m
  match realloc.answer mem size with
  | some (base, bytes) => some (heap.putMem m { mem with base, bytes }, true)
  | none => some (heap, false)

def resize (realloc : Realloc) (heap : Heap) (this : BufId) (size : Int) :
    Option (Heap × Bool) := do
  let blk ← heap.bufs.read this
  match blk.blk with
  | none => some (heap, false)
  | some m =>
      let oldb ← heap.mems.read m
      let (heap, resized) ← resizeMem realloc heap m size
      if resized then
        let mem ← heap.mems.read m
        some (heap.putBuf this { blk with
          rdPtr := mem.base + (blk.rdPtr - oldb.base)
          wrPtr := mem.base + (blk.wrPtr - oldb.base)
          mark := mem.base + (blk.mark - oldb.base) }, true)
      else some (heap, false)

def copyEach : Heap → List (BufId × List Byte) → Option Heap
  | heap, [] => some heap
  | heap, (b, src) :: calls => do
      let (heap, _) ← heap.copyFrom b src
      copyEach heap calls

/-! ## Positions inside a buffer -/

/-- The positions of a block are in order inside the `size` bytes at `base`. -/
structure Inside (base size : Int) (blk : BufBlk) : Prop where
  markLow : base ≤ blk.mark
  markHigh : blk.mark ≤ blk.wrPtr
  low : base ≤ blk.rdPtr
  order : blk.rdPtr ≤ blk.wrPtr
  high : blk.wrPtr ≤ base + size

def AllInside (heap : Heap) (m : MemId) : Prop :=
  ∃ mem, heap.mems.read m = some mem ∧
    ∀ b blk, heap.bufs.read b = some blk → blk.blk = some m → Inside mem.base mem.size blk

variable {heap before after : Heap} {m : MemId} {mem : MemBlk} {this b : BufId} {blk : BufBlk}
  {size base : Int} {bytes : List Byte} {realloc : Realloc}

theorem store_from_inside {src : List Byte} (inside : Inside mem.base mem.size blk)
    (fits : (src.length : Int) ≤ Heap.freespace mem blk) :
    ∃ now, mem.store blk.wrPtr src = some now ∧ now.base = mem.base ∧ now.size = mem.size := by
  have holds : mem.Holds blk.wrPtr src.length := by
    have low := inside.low
    have order := inside.order
    simp only [Heap.freespace, MemBlk.Holds] at fits ⊢
    omega
  obtain ⟨now, stored⟩ : ∃ now, mem.store blk.wrPtr src = some now :=
    ⟨_, by rw [MemBlk.store, if_pos holds]⟩
  obtain ⟨-, sameBase, sameSize, -⟩ := store_kept stored
  exact ⟨now, stored, sameBase, sameSize⟩

theorem copy_from_defined_iff (present : heap.bufs.read b = some blk) (owner : blk.blk = some m)
    (memPresent : heap.mems.read m = some mem) (src : List Byte) :
    (heap.copyFrom b src).isSome ↔ mem.base ≤ blk.wrPtr ∧ blk.wrPtr ≤ mem.base + mem.size := by
  obtain ⟨s, sEq⟩ : ∃ s, s = (if Heap.freespace mem blk < src.length then Heap.freespace mem blk
    else (src.length : Int)) := ⟨_, rfl⟩
  have nonneg : 0 ≤ s ↔ blk.wrPtr ≤ mem.base + mem.size := by
    simp only [Heap.freespace] at sEq
    split_ifs at sEq <;> omega
  simp only [Heap.copyFrom, present, owner, memPresent, Option.bind_eq_bind,
    Option.bind_some, ← sEq]
  by_cases room : 0 ≤ s
  · have count : ((src.take s.toNat).length : Int) = s := by
      rw [List.length_take]
      split_ifs at sEq <;> omega
    have holds : mem.Holds blk.wrPtr (src.take s.toNat).length ↔ mem.base ≤ blk.wrPtr := by
      rw [count]
      simp only [MemBlk.Holds, Heap.freespace] at sEq ⊢
      split_ifs at sEq <;> omega
    rw [if_pos room]
    by_cases low : mem.base ≤ blk.wrPtr
    · rw [MemBlk.store, if_pos (holds.mpr low)]
      exact iff_of_true rfl ⟨low, nonneg.mp room⟩
    · rw [MemBlk.store, if_neg fun inside => low (holds.mp inside)]
      exact iff_of_false Bool.false_ne_true fun inside => low inside.1
  · rw [if_neg room]
    exact iff_of_false Bool.false_ne_true fun inside => room (nonneg.mpr inside.2)

theorem copy_from_inside (inside : AllInside heap m) (member : heap.memOf b = some m)
    (src : List Byte) :
    ∃ after count, heap.copyFrom b src = some (after, count) ∧ AllInside after m ∧
      ∀ c, after.memOf c = heap.memOf c := by
  obtain ⟨mem, memPresent, positions⟩ := inside
  obtain ⟨blk, present, owner⟩ := Option.bind_eq_some_iff.mp member
  have here := positions b blk present owner
  have high := here.high
  obtain ⟨s, sEq⟩ : ∃ s, s = (if Heap.freespace mem blk < src.length then Heap.freespace mem blk
    else (src.length : Int)) := ⟨_, rfl⟩
  have room : 0 ≤ Heap.freespace mem blk := by
    simp only [Heap.freespace]
    omega
  have bounds : 0 ≤ s ∧ s ≤ Heap.freespace mem blk ∧ s ≤ src.length := by split_ifs at sEq <;> omega
  obtain ⟨now, stored, sameBase, sameSize⟩ := @store_from_inside mem blk (src.take s.toNat) here
    (by simp only [List.length_take]; omega)
  let moved : BufBlk := { blk with wrPtr := blk.wrPtr + s }
  have reads (c : BufId) : ((heap.putMem m now).putBuf b moved).bufs.read c =
      if c = b then some moved else heap.bufs.read c := read_put_buf present moved c
  refine ⟨(heap.putMem m now).putBuf b moved, s, ?_, ⟨now, ?_, ?_⟩, ?_⟩
  · simp only [Heap.copyFrom, present, owner, memPresent, Option.bind_eq_bind,
      Option.bind_some, ← sEq,
      bounds.1, if_true, stored, moved]
  · exact (read_write memPresent now m).trans (if_pos rfl)
  · intro c found cRead cOwner
    rw [sameBase, sameSize]
    rw [reads] at cRead
    split_ifs at cRead with same
    · cases cRead
      refine ⟨here.markLow, ?_, here.low, ?_, ?_⟩
      · exact Int.le_trans here.markHigh (by simp only [moved]; omega)
      · exact Int.le_trans here.order (by simp only [moved]; omega)
      · simp only [Heap.freespace, moved] at bounds ⊢
        omega
    · exact positions c found cRead cOwner
  · intro c
    simp only [Heap.memOf, reads]
    split_ifs with same
    · rw [same, present]
      rfl
    · rfl

theorem copy_each_inside (inside : AllInside heap m) (calls : List (BufId × List Byte))
    (members : ∀ call ∈ calls, heap.memOf call.1 = some m) :
    ∃ after, copyEach heap calls = some after := by
  induction calls generalizing heap with
  | nil => exact ⟨heap, rfl⟩
  | cons call rest ih =>
      obtain ⟨middle, count, copied, stillInside, owners⟩ :=
        copy_from_inside inside (members call (by simp)) call.2
      have others : ∀ later ∈ rest, middle.memOf later.1 = some m := by
        intro later member
        rw [owners]
        exact members later (by simp [member])
      obtain ⟨after, ran⟩ := ih stillInside others
      exact ⟨after, by simp [copyEach, copied, ran]⟩

/-! ## What a resize leaves -/

/-- What a resize to `size` should leave of the MemBlk that was `mem`, and of the blocks over it. -/
structure Keeps (after : Heap) (m : MemId) (mem : MemBlk) (size : Int) : Prop where
  inside : AllInside after m
  resized : ∀ now, after.mems.read m = some now → now.size = size
  bytes : ∀ now, after.mems.read m = some now →
    now.bytes.take mem.bytes.length = mem.bytes.take size.toNat
  room : ∀ now, after.mems.read m = some now → ∀ b blk, after.bufs.read b = some blk →
    blk.blk = some m →
    0 ≤ Heap.freespace now blk ∧ 0 ≤ blk.length
  copies : ∀ calls : List (BufId × List Byte), (∀ call ∈ calls, after.memOf call.1 = some m) →
    ∃ final, copyEach after calls = some final

/-- What the block needs: that its write position is within the new size. Every other block over the
MemBlk stays where it is, so that it has to be inside of the new buffer already. -/
def Fitting (before : Heap) (this : BufId) (m : MemId) (oldBase base size : Int) : Prop :=
  ∀ b blk, before.bufs.read b = some blk → blk.blk = some m →
    if b = this then blk.wrPtr - oldBase ≤ size
    else base ≤ blk.mark ∧ base ≤ blk.rdPtr ∧ blk.wrPtr ≤ base + size

theorem fitting_in_place_iff (inside : ∀ b blk, before.bufs.read b = some blk → blk.blk = some m →
    Inside base mem.size blk) : Fitting before this m base base size ↔
      ∀ b blk, before.bufs.read b = some blk → blk.blk = some m → blk.wrPtr - base ≤ size := by
  constructor
  · intro fitting b blk present owner
    have fits := fitting b blk present owner
    split_ifs at fits with same
    · exact fits
    · omega
  · intro written b blk present owner
    have fits := written b blk present owner
    have here := inside b blk present owner
    split_ifs with same
    · exact fits
    · exact ⟨here.markLow, here.low, by omega⟩

def translated (blk : BufBlk) (oldBase base : Int) : BufBlk :=
  { blk with
    rdPtr := base + (blk.rdPtr - oldBase)
    wrPtr := base + (blk.wrPtr - oldBase)
    mark := base + (blk.mark - oldBase) }

theorem resize_eq (present : before.bufs.read this = some blk) (owner : blk.blk = some m)
    (memPresent : before.mems.read m = some mem)
    (answered : realloc.answer mem size = some (base, bytes)) :
    resize realloc before this size =
      some ((before.putMem m { mem with base, bytes }).putBuf this (translated blk mem.base base),
        true) := by
  have now : (before.putMem m { mem with base, bytes }).mems.read m =
      some { mem with base, bytes } :=
    (read_write memPresent _ m).trans (if_pos rfl)
  simp only [resize, resizeMem, present, owner, memPresent, answered, Option.bind_eq_bind,
    Option.bind_some,
    if_true, now, translated]

theorem keeps_of_inside (newMem : after.mems.read m = some { mem with base, bytes })
    (answered : realloc.answer mem size = some (base, bytes)) (allInside : AllInside after m) :
    Keeps after m mem size := by
  have same (now : MemBlk) (read : after.mems.read m = some now) :
      now = { mem with base, bytes } := by
    rw [newMem] at read
    exact (Option.some.inj read).symm
  refine ⟨allInside, fun now read => ?_, fun now read => ?_,
    fun now read b found bRead bOwner => ?_,
    fun calls members => copy_each_inside allInside calls members⟩
  · rw [same now read]
    exact realloc.exactSize mem size base bytes answered
  · rw [same now read]
    exact realloc.keeps mem size base bytes answered
  · obtain ⟨known, knownRead, positions⟩ := allInside
    have here := positions b found bRead bOwner
    rw [read] at knownRead
    cases knownRead
    have order := here.order
    have high := here.high
    simp only [Heap.freespace, BufBlk.length]
    omega

theorem resized_inside_iff (present : before.bufs.read this = some blk) (owner : blk.blk = some m)
    (inside : ∀ b blk, before.bufs.read b = some blk → blk.blk = some m →
      Inside mem.base mem.size blk)
    (newMem : after.mems.read m = some { mem with base, bytes })
    (length : (bytes.length : Int) = size) (reads : ∀ c, after.bufs.read c =
      if c = this then some (translated blk mem.base base) else before.bufs.read c) :
    AllInside after m ↔ Fitting before this m mem.base base size := by
  constructor
  · rintro ⟨now, nowRead, positions⟩ b found bRead bOwner
    rw [newMem] at nowRead
    cases nowRead
    split_ifs with same
    · subst same
      rw [present] at bRead
      cases bRead
      have high := (positions b _ ((reads b).trans (if_pos rfl)) owner).high
      simp only [translated, MemBlk.size, length] at high
      omega
    · have here := positions b found ((reads b).trans ((if_neg same).trans bRead)) bOwner
      have high := here.high
      simp only [MemBlk.size, length] at high
      exact ⟨here.markLow, here.low, high⟩
  · intro fitting
    refine ⟨_, newMem, fun b found bRead bOwner => ?_⟩
    rw [reads] at bRead
    split_ifs at bRead with same
    · cases bRead
      have fits := fitting this blk present owner
      have here := inside this blk present owner
      rw [if_pos rfl] at fits
      have markLow := here.markLow
      have markHigh := here.markHigh
      have low := here.low
      have order := here.order
      constructor <;> simp only [translated, MemBlk.size, length] <;> omega
    · have fits := fitting b found bRead bOwner
      have here := inside b found bRead bOwner
      rw [if_neg same] at fits
      refine ⟨fits.1, here.markHigh, fits.2.1, here.order, ?_⟩
      simp only [MemBlk.size, length]
      exact fits.2.2

/-- A `resize` that succeeds keeps what it should exactly if the block's own write position is
within the new size and the positions of every other block over the MemBlk are within the buffer
that `realloc` gave. -/
theorem resize_keeps_iff (present : before.bufs.read this = some blk) (owner : blk.blk = some m)
    (memPresent : before.mems.read m = some mem)
    (inside : ∀ b blk, before.bufs.read b = some blk → blk.blk = some m →
      Inside mem.base mem.size blk)
    (answered : realloc.answer mem size = some (base, bytes)) :
    ∃ after, resize realloc before this size = some (after, true) ∧
      (Keeps after m mem size ↔ Fitting before this m mem.base base size) := by
  refine ⟨_, resize_eq present owner memPresent answered, ?_⟩
  have newMem : ((before.putMem m { mem with base, bytes }).putBuf this
      (translated blk mem.base base)).mems.read m = some { mem with base, bytes } :=
    (read_write memPresent _ m).trans (if_pos rfl)
  have length := realloc.exactSize mem size base bytes answered
  have iff := resized_inside_iff present owner inside newMem length fun c =>
    read_put_buf present _ c
  constructor
  · intro keeps
    exact iff.mp keeps.inside
  · intro fitting
    exact keeps_of_inside newMem answered (iff.mpr fitting)

/-- A `realloc` that fills up with zeros and moves a buffer as told. -/
def zeroRealloc (place : Int → Int) : Realloc where
  answer mem size :=
    if 0 ≤ size then
      some (place mem.base, mem.bytes.take size.toNat ++ List.replicate
        (size.toNat - mem.bytes.length) 0)
    else none
  exactSize mem size base bytes answered := by
    split_ifs at answered with nonneg
    cases answered
    simp only [List.length_append, List.length_take, List.length_replicate]
    omega
  keeps mem size base bytes answered := by
    split_ifs at answered with nonneg
    cases answered
    by_cases more : mem.bytes.length ≤ size.toNat
    · rw [List.take_of_length_le more]
      exact List.take_left' rfl
    · have nothing : size.toNat - mem.bytes.length = 0 := by omega
      rw [nothing, List.replicate_zero, List.append_nil]
      exact List.take_of_length_le (by rw [List.length_take]; omega)

/-- The first of three blocks is made larger and is moved. -/
theorem resize_keeps_iff_larger : ∃ after, resize (zeroRealloc (· + 1000)) threeBlocks 0 4 =
    some (after, true) ∧
    (Keeps after 0 ⟨1, 100, [1, 2], true⟩ 4 ↔ Fitting threeBlocks 0 0 100 1100 4) := by
  have present : threeBlocks.bufs.read 0 = some ⟨some 0, 100, 102, 100, some 1, 0⟩ := rfl
  refine resize_keeps_iff present rfl rfl (fun b blk found owner => ?_) rfl
  have bound : b < 3 := read_bound found
  have own : ∀ c < 3, threeBlocks.memOf c = some c := by decide
  have first : b = 0 := by
    have member := own b bound
    simp only [Heap.memOf, found, Option.bind_some, owner, Option.some.injEq] at member
    exact member.symm
  subst first
  cases found
  constructor <;> decide

/-- Two bytes are written, and the block is made smaller by one: there is less than no room in it,
and a `copyFrom` of one byte leaves the buffer. A block that shares the buffer of one that is moved
has its positions in the old one. -/
theorem resize_not_always_keeps :
    (∃ after, resize (zeroRealloc id) threeBlocks 0 1 = some (after, true) ∧
      (after.bufs.read 0).map (Heap.freespace ⟨1, 100, [1], true⟩) = some (-1) ∧
      after.copyFrom 0 [7] = none ∧ ¬ Keeps after 0 ⟨1, 100, [1, 2], true⟩ 1) ∧
    ∃ shared after, BufBlkCopy.duplicate threeBlocks 2 = some (shared, 3) ∧
      resize (zeroRealloc (· + 1000)) shared 2 4 = some (after, true) ∧
      (after.bufs.read 3).map BufBlk.rdPtr = some 300 ∧ after.blockBytes 3 = none ∧
      ¬ Keeps after 2 ⟨2, 300, [5, 6], true⟩ 4 := by
  refine ⟨⟨_, rfl, rfl, rfl, fun keeps => ?_⟩, ⟨_, _, rfl, rfl, rfl, rfl, fun keeps => ?_⟩⟩
  · have room := (keeps.room _ rfl 0 _ rfl rfl).1
    exact absurd room (by decide)
  · obtain ⟨now, read, positions⟩ := keeps.inside
    cases read
    have low := (positions 3 _ rfl rfl).low
    exact absurd low (by decide)

end TWlib.BufBlkResize
