import TWlib.BufBlkCopy
import TWlib.BufBlkContig

/-!
# `BufBlkIter`

The three readers share one position: a block and an offset in it. What lies
behind the position is `unread`, and every call either takes a front part of it or
leaves it as it is. A run of calls is then followed by induction on the calls.
-/

namespace TWlib.BufBlkIterator

open TWlib.Lib.CellStore TWlib.Lib.LinkedChain
open TWlib.BufBlkHeap TWlib.BufBlkChain TWlib.BufBlkView TWlib.BufBlkCopy TWlib.BufBlkContig

set_option autoImplicit false

/-! ## The code -/

structure BufBlkIter where
  cur : Option BufId
  start : Option BufId
  rdOffset : Int
deriving DecidableEq

/-- The `start` and `size` handed out, with the block whose buffer `start` points into. -/
structure Chunk where
  block : BufId
  start : Int
  size : Int
deriving DecidableEq

def newBufBlkIter (heap : Heap) (b : BufId) : Option (Heap × BufBlkIter) := do
  let (heap, start) ← duplicate heap b
  some (heap, ⟨some start, some start, 0⟩)

/-- `BufBlkIter::getNextChunk`; no chunk where the source returns false. -/
def getNextChunk (heap : Heap) (iter : BufBlkIter) (max : Int) :
    Option (BufBlkIter × Option Chunk) :=
  match iter.cur with
  | none => some (iter, none)
  | some cur => do
      let blk ← heap.bufs.read cur
      let start := blk.rdPtr + iter.rdOffset
      let left := blk.length - iter.rdOffset
      if max = -1 then
        some ({ iter with rdOffset := 0, cur := blk.nextblk }, some ⟨cur, start, left⟩)
      else if max ≥ left then
        some ({ iter with rdOffset := 0, cur := blk.nextblk }, some ⟨cur, start, left⟩)
      else
        let rdOffset := iter.rdOffset + max
        some ({ iter with rdOffset,
                          cur := if rdOffset ≥ blk.length then blk.nextblk else some cur },
          some ⟨cur, start, max⟩)

def previewNextChunk (heap : Heap) (iter : BufBlkIter) (max : Int) :
    Option (BufBlkIter × Option Chunk) :=
  match iter.cur with
  | none => some (iter, none)
  | some cur => do
      let blk ← heap.bufs.read cur
      let start := blk.rdPtr + iter.rdOffset
      let left := blk.length - iter.rdOffset
      if max = -1 then some (iter, some ⟨cur, start, left⟩)
      else if max > left then some (iter, some ⟨cur, start, left⟩)
      else some (iter, some ⟨cur, start, max⟩)

/-- `while((remain > 0) && _cur)`: the position and `remain` afterwards, and the bytes copied. -/
def copyChunks : Nat → Heap → Option BufId → Int → Int →
    Option (Option BufId × Int × Int × List Byte)
  | _, _, none, rdOffset, remain => some (none, rdOffset, remain, [])
  | 0, _, some _, _, _ => none
  | fuel + 1, heap, some cur, rdOffset, remain =>
      if remain > 0 then do
        let blk ← heap.bufs.read cur
        let left := blk.length - rdOffset
        if left ≤ remain then
          let data ← bytesAt heap blk (blk.rdPtr + rdOffset) left
          let (cur, rdOffset, remain, more) ← copyChunks fuel heap blk.nextblk 0 (remain - left)
          some (cur, rdOffset, remain, data ++ more)
        else
          let data ← bytesAt heap blk (blk.rdPtr + rdOffset) remain
          some (some cur, rdOffset + remain, 0, data)
      else some (some cur, rdOffset, remain, [])

/-- `BufBlkIter::copyNextChunks`: the bytes written to `t` and `copied`. -/
def copyNextChunks (heap : Heap) (iter : BufBlkIter) (space : Int) :
    Option (BufBlkIter × Option (List Byte × Int)) :=
  match iter.cur with
  | none => some (iter, none)
  | some cur => do
      let (cur, rdOffset, remain, data) ← copyChunks heap.bufs.fresh heap
        (some cur) iter.rdOffset space
      some ({ iter with cur, rdOffset }, some (data, space - remain))

def chunkBytes (heap : Heap) (chunk : Chunk) : Option (List Byte) := do
  let blk ← heap.bufs.read chunk.block
  bytesAt heap blk chunk.start chunk.size

/-! ## Runs of calls -/

inductive Call where
  | getNextChunk (max : Int)
  | copyNextChunks (space : Int)
  | previewNextChunk (max : Int)

def Call.Sensible : Call → Prop
  | .getNextChunk max => 1 ≤ max ∨ max = -1
  | .copyNextChunks space => 1 ≤ space
  | .previewNextChunk max => 1 ≤ max ∨ max = -1

def Call.reads : Call → Bool
  | .previewNextChunk _ => false
  | _ => true

instance : DecidablePred Call.Sensible
  | .getNextChunk max => inferInstanceAs (Decidable (1 ≤ max ∨ max = -1))
  | .copyNextChunks space => inferInstanceAs (Decidable (1 ≤ space))
  | .previewNextChunk max => inferInstanceAs (Decidable (1 ≤ max ∨ max = -1))

/-- One call; the reply is the bytes delivered, and nothing when the call returns false. -/
def perform (heap : Heap) (iter : BufBlkIter) : Call → Option (BufBlkIter × Option (List Byte))
  | .getNextChunk max => do
      let (iter, chunk) ← getNextChunk heap iter max
      match chunk with
      | none => some (iter, none)
      | some chunk => do
          let data ← chunkBytes heap chunk
          some (iter, some data)
  | .copyNextChunks space => do
      let (iter, copied) ← copyNextChunks heap iter space
      some (iter, copied.map Prod.fst)
  | .previewNextChunk max => do
      let (iter, chunk) ← previewNextChunk heap iter max
      match chunk with
      | none => some (iter, none)
      | some chunk => do
          let data ← chunkBytes heap chunk
          some (iter, some data)

def performAll (heap : Heap) :
    BufBlkIter → List Call → Option (BufBlkIter × List (Call × Option (List Byte)))
  | iter, [] => some (iter, [])
  | iter, call :: calls => do
      let (iter, reply) ← perform heap iter call
      let (iter, replies) ← performAll heap iter calls
      some (iter, (call, reply) :: replies)

/-- The chunks delivered by the calls that move the iterator, one after the other. -/
def delivered (replies : List (Call × Option (List Byte))) : List Byte :=
  replies.flatMap fun (call, reply) => if call.reads then reply.getD [] else []

/-! ## The position -/

/-- The iterator stands `off` bytes into the first block of `ids`. -/
structure Positioned (heap : Heap) (iter : BufBlkIter) (ids : List BufId) (off : Nat) : Prop where
  chain : ChainOk heap iter.cur ids
  offset : iter.rdOffset = off
  inside : ∀ b, ids.head? = some b → off ≤ (bytesOf heap b).length

def unread (heap : Heap) (ids : List BufId) (off : Nat) : List Byte :=
  (ids.flatMap (bytesOf heap)).drop off

/-- What every call that delivers something makes smaller. -/
def distance (heap : Heap) (ids : List BufId) (off : Nat) : Nat :=
  ids.length + (unread heap ids off).length

variable {heap : Heap} {iter : BufBlkIter} {ids rest : List BufId} {b : BufId} {off : Nat}

theorem unread_cons (rest : List BufId) (inside : off ≤ (bytesOf heap b).length) :
    unread heap (b :: rest) off = (bytesOf heap b).drop off ++ rest.flatMap (bytesOf heap) := by
  rw [unread, List.flatMap_cons, List.drop_append_of_le_length inside]

theorem unread_start (ids : List BufId) : unread heap ids 0 = ids.flatMap (bytesOf heap) := rfl

theorem positioned_cons (position : Positioned heap iter (b :: rest) off) :
    iter.cur = some b ∧ off ≤ (bytesOf heap b).length ∧ BlockOk heap b ∧
      ∃ blk, heap.bufs.read b = some blk ∧ blk.length = (bytesOf heap b).length ∧
        ChainOk heap blk.nextblk rest := by
  rcases chain_ok_cons position.chain with ⟨first, blk, present, -, length, tail⟩
  exact ⟨first, position.inside b rfl, position.chain.inside b (by simp), blk, present,
    length, tail⟩

theorem positioned_next {blk : BufBlk} (start : Option BufId)
    (tail : ChainOk heap blk.nextblk rest) :
    Positioned heap ⟨blk.nextblk, start, 0⟩ rest 0 :=
  ⟨tail, rfl, fun _ _ => Nat.zero_le _⟩

/-! ## `getNextChunk` and `previewNextChunk` -/

/-- A chunk is the front of what is unread, at most `bound` bytes long. -/
structure Takes (heap : Heap) (ids : List BufId) (off : Nat) (chunk : Chunk) (max : Int)
    (data : List Byte) (later : BufBlkIter) (laterIds : List BufId) (laterOff : Nat) : Prop where
  bytes : chunkBytes heap chunk = some data
  size : chunk.size = data.length
  bound : max ≠ -1 → chunk.size ≤ max
  position : Positioned heap later laterIds laterOff
  front : unread heap ids off = data ++ unread heap laterIds laterOff
  nearer : distance heap laterIds laterOff < distance heap ids off

theorem chunk_front {blk : BufBlk} (present : heap.bufs.read b = some blk) (ok : BlockOk heap b)
    (count : Nat) (fits : off + count ≤ (bytesOf heap b).length) :
    chunkBytes heap ⟨b, blk.rdPtr + off, count⟩ =
    some (((bytesOf heap b).drop off).take count) := by
  simp only [chunkBytes, present, Option.bind_eq_bind, Option.bind_some]
  exact bytes_at_block (extends_refl heap) present ok off count fits

theorem takes_block {max : Int} {blk : BufBlk} (position : Positioned heap iter (b :: rest) off)
    (present : heap.bufs.read b = some blk)
    (bound : max ≠ -1 → blk.length - iter.rdOffset ≤ max) :
    Takes heap (b :: rest) off ⟨b, blk.rdPtr + iter.rdOffset, blk.length - iter.rdOffset⟩ max
      ((bytesOf heap b).drop off) { iter with rdOffset := 0, cur := blk.nextblk } rest 0 := by
  rcases positioned_cons position with ⟨-, inside, ok, same, again, length, tail⟩
  cases Option.some.inj (present.symm.trans again)
  have offset := position.offset
  have size : blk.length - iter.rdOffset = (((bytesOf heap b).length - off : Nat) : Int) := by omega
  have front := unread_cons rest inside
  refine ⟨?_, ?_, bound, positioned_next iter.start tail, front, ?_⟩
  · have fits : off + ((bytesOf heap b).length - off) ≤ (bytesOf heap b).length := by omega
    have whole := chunk_front present ok ((bytesOf heap b).length - off) fits
    rw [← List.length_drop, List.take_length] at whole
    rw [size, offset, ← List.length_drop]
    exact whole
  · rw [size, List.length_drop]
  · simp only [distance, front, unread_start, List.length_cons, List.length_append]
    omega

theorem takes_part {max : Int} {blk : BufBlk} (position : Positioned heap iter (b :: rest) off)
    (present : heap.bufs.read b = some blk) (positive : 1 ≤ max)
    (short : max < blk.length - iter.rdOffset) :
    Takes heap (b :: rest) off ⟨b, blk.rdPtr + iter.rdOffset, max⟩ max
      (((bytesOf heap b).drop off).take max.toNat) { iter with rdOffset := iter.rdOffset + max }
      (b :: rest) (off + max.toNat) := by
  rcases positioned_cons position with ⟨first, inside, ok, same, again, length, tail⟩
  cases Option.some.inj (present.symm.trans again)
  have offset := position.offset
  have count : ((max.toNat : Nat) : Int) = max := Int.toNat_of_nonneg (by omega)
  have fits : off + max.toNat ≤ (bytesOf heap b).length := by omega
  have taken : (((bytesOf heap b).drop off).take max.toNat).length = max.toNat := by
    simp only [List.length_take, List.length_drop]
    omega
  have before := unread_cons rest inside
  have after := unread_cons rest fits
  have front : unread heap (b :: rest) off =
      ((bytesOf heap b).drop off).take max.toNat ++ unread heap (b :: rest) (off + max.toNat) := by
    rw [before, after, ← List.drop_drop, ← List.append_assoc, List.take_append_drop]
  refine ⟨?_, ?_, fun _ => Int.le_refl max, ⟨position.chain, ?_, ?_⟩, front, ?_⟩
  · have part := chunk_front present ok max.toNat fits
    rw [count, ← offset] at part
    exact part
  · rw [taken, count]
  · simp only [offset]
    omega
  · intro other isHead
    cases isHead
    exact fits
  · simp only [distance, front, List.length_append, taken]
    omega

theorem get_next_chunk_end (max : Int) (atEnd : iter.cur = none) :
    getNextChunk heap iter max = some (iter, none) := by
  simp only [getNextChunk, atEnd]

theorem get_next_chunk_takes (max : Int) (sensible : 1 ≤ max ∨ max = -1)
    (position : Positioned heap iter (b :: rest) off) :
    ∃ later chunk data laterIds laterOff, getNextChunk heap iter max = some (later, some chunk) ∧
      Takes heap (b :: rest) off chunk max data later laterIds laterOff := by
  rcases positioned_cons position with ⟨first, inside, ok, blk, present, length, tail⟩
  simp only [getNextChunk, first, present, Option.bind_eq_bind, Option.bind_some]
  by_cases everything : max = -1
  · rw [if_pos everything]
    exact ⟨_, _, _, rest, 0, rfl, takes_block position present
      (fun other => absurd everything other)⟩
  · rw [if_neg everything]
    by_cases whole : max ≥ blk.length - iter.rdOffset
    · rw [if_pos whole]
      exact ⟨_, _, _, rest, 0, rfl, takes_block position present (fun _ => whole)⟩
    · rw [if_neg whole]
      have stays : ¬iter.rdOffset + max ≥ blk.length := by omega
      have positive : 1 ≤ max := by omega
      have part := takes_part position present positive (by omega)
      rw [first] at part
      rw [if_neg stays]
      exact ⟨_, _, _, b :: rest, off + max.toNat, rfl, part⟩

theorem preview_next_chunk_same (heap : Heap) (iter : BufBlkIter) (max : Int) :
    previewNextChunk heap iter max =
      (getNextChunk heap iter max).map fun (_, chunk) => (iter, chunk) := by
  unfold previewNextChunk getNextChunk
  cases iter.cur with
  | none => rfl
  | some cur =>
      cases present : heap.bufs.read cur with
      | none => simp [present]
      | some blk =>
          simp only [present, Option.bind_eq_bind, Option.bind_some]
          by_cases everything : max = -1
          · simp only [everything, if_true, Option.map_some]
          · simp only [if_neg everything]
            rcases Int.lt_trichotomy max (blk.length - iter.rdOffset) with short | exact_ | long
            · rw [if_neg (by omega), if_neg (by omega), Option.map_some]
            · rw [if_neg (by omega), if_pos (by omega), Option.map_some, exact_]
            · rw [if_pos (by omega), if_pos (by omega), Option.map_some]

/-! ## `copyNextChunks` -/

/-- Where a copy of at most `remain` bytes ends. -/
structure CopiesTo (heap : Heap) (ids : List BufId) (off remain : Nat) (data : List Byte)
    (later : BufBlkIter) (laterIds : List BufId) (laterOff : Nat) : Prop where
  position : Positioned heap later laterIds laterOff
  front : unread heap ids off = data ++ unread heap laterIds laterOff
  bound : data.length ≤ remain
  short : data.length < remain → laterIds = []
  onward : distance heap laterIds laterOff ≤ distance heap ids off
  nearer : 0 < remain → ids ≠ [] → distance heap laterIds laterOff < distance heap ids off

theorem copies_nothing {remain : Nat} (position : Positioned heap iter ids off)
    (done : remain = 0 ∨ ids = []) : CopiesTo heap ids off remain [] iter ids off := by
  refine ⟨position, rfl, Nat.zero_le _, fun short => ?_, Nat.le_refl _, fun positive filled => ?_⟩
  · rcases done with zero | empty
    · simp [zero] at short
    · exact empty
  · rcases done with zero | empty
    · omega
    · exact absurd empty filled

theorem copy_chunks_copies (fuel remain : Nat) (position : Positioned heap iter ids off)
    (enough : ids.length ≤ fuel) :
    ∃ later data laterIds laterOff, later.start = iter.start ∧
      copyChunks fuel heap iter.cur iter.rdOffset remain =
        some (later.cur, later.rdOffset, ((remain - data.length : Nat) : Int), data) ∧
      CopiesTo heap ids off remain data later laterIds laterOff := by
  induction ids generalizing iter off fuel remain with
  | nil =>
      have atEnd : iter.cur = none := position.chain.linked
      refine ⟨iter, [], [], off, rfl, ?_, copies_nothing position (.inr rfl)⟩
      rw [atEnd]
      cases fuel <;> rfl
  | cons b rest ih =>
      rcases positioned_cons position with ⟨first, inside, ok, blk, present, length, tail⟩
      have offset := position.offset
      cases fuel with
      | zero => simp at enough
      | succ fuel =>
          simp only [List.length_cons, Nat.add_le_add_iff_right] at enough
          by_cases done : remain = 0
          · subst done
            exact ⟨iter, [], b :: rest, off, rfl, by simp [first, copyChunks],
              copies_nothing position (.inl rfl)⟩
          have positive : (remain : Int) > 0 := by omega
          have leftEq : blk.length - iter.rdOffset =
              (((bytesOf heap b).length - off : Nat) : Int) := by
            omega
          simp only [first, copyChunks, if_pos positive, present, Option.bind_eq_bind,
            Option.bind_some]
          by_cases whole : blk.length - iter.rdOffset ≤ remain
          · have block := takes_block position present (fun _ => whole)
            have fits : off + ((bytesOf heap b).length - off) ≤ (bytesOf heap b).length := by omega
            have read := bytes_at_block (extends_refl heap) present ok off _ fits
            rw [← List.length_drop, List.take_length, List.length_drop, ← leftEq, ← offset] at read
            have remainEq : (remain : Int) - (blk.length - iter.rdOffset) =
                ((remain - ((bytesOf heap b).length - off) : Nat) : Int) := by omega
            rcases ih fuel (remain - ((bytesOf heap b).length - off)) block.position enough with
              ⟨later, data, laterIds, laterOff, start, copied, reached⟩
            have nearer := Nat.lt_of_le_of_lt reached.onward block.nearer
            have bound := reached.bound
            refine ⟨later, (bytesOf heap b).drop off ++ data, laterIds, laterOff, start, ?_,
              reached.position, ?_, ?_, ?_, Nat.le_of_lt nearer, fun _ _ => nearer⟩
            · rw [if_pos whole, read, Option.bind_some, remainEq]
              simp only at copied
              rw [copied, Option.bind_some]
              simp only [List.length_append, List.length_drop, Nat.sub_add_eq]
            · rw [block.front, reached.front, List.append_assoc]
            · simp only [List.length_append, List.length_drop]
              omega
            · intro short
              simp only [List.length_append, List.length_drop] at short
              exact reached.short (by omega)
          · have part := takes_part position present (by omega : (1 : Int) ≤ remain) (by omega)
            have fits : off + remain ≤ (bytesOf heap b).length := by omega
            have read := bytes_at_block (extends_refl heap) present ok off remain fits
            have taken : (((bytesOf heap b).drop off).take remain).length = remain := by
              simp only [List.length_take, List.length_drop]
              omega
            rw [Int.toNat_natCast] at part
            refine ⟨{ iter with rdOffset := iter.rdOffset + remain },
              ((bytesOf heap b).drop off).take remain,
              b :: rest, off + remain, rfl, ?_, part.position, part.front, Nat.le_of_eq taken, ?_,
              Nat.le_of_lt part.nearer, fun _ _ => part.nearer⟩
            · rw [if_neg whole, offset, read, Option.bind_some, taken, Nat.sub_self, first]
              rfl
            · intro short
              omega

theorem copy_next_chunks_copies (space : Nat) (position : Positioned heap iter (b :: rest) off) :
    ∃ later data laterIds laterOff,
      copyNextChunks heap iter space = some (later, some (data, (data.length : Int))) ∧
      CopiesTo heap (b :: rest) off space data later laterIds laterOff := by
  have first := (positioned_cons position).1
  rcases copy_chunks_copies heap.bufs.fresh space position (chain_bound position.chain.linked) with
    ⟨later, data, laterIds, laterOff, start, copied, reached⟩
  have bound := reached.bound
  refine ⟨later, data, laterIds, laterOff, ?_, reached⟩
  simp only [copyNextChunks, first]
  rw [← first, copied]
  simp only [Option.bind_eq_bind, Option.bind_some, Option.some.injEq, Prod.mk.injEq, true_and]
  refine ⟨?_, by omega⟩
  cases later
  cases start
  rfl

/-! ## Any call, and any run of calls -/

structure Performed (heap : Heap) (ids : List BufId) (off : Nat) (call : Call)
    (reply : Option (List Byte)) (later : BufBlkIter) (laterIds : List BufId)
    (laterOff : Nat) : Prop where
  position : Positioned heap later laterIds laterOff
  front : unread heap ids off = delivered [(call, reply)] ++ unread heap laterIds laterOff
  ended : reply = none → laterIds = []
  remains : ids = [] → laterIds = []
  onward : distance heap laterIds laterOff ≤ distance heap ids off
  nearer : call.reads = true → reply ≠ none → distance heap laterIds laterOff <
    distance heap ids off

theorem perform_end (call : Call) (position : Positioned heap iter [] off) :
    perform heap iter call = some (iter, none) ∧
      Performed heap [] off call none iter [] off := by
  have atEnd : iter.cur = none := position.chain.linked
  constructor
  · cases call <;>
      simp [perform, getNextChunk, copyNextChunks, previewNextChunk, atEnd]
  · refine ⟨position, ?_, fun _ => rfl, fun _ => rfl, Nat.le_refl _,
      fun _ other => absurd rfl other⟩
    simp [delivered]

theorem perform_block (call : Call) (sensible : call.Sensible)
    (position : Positioned heap iter (b :: rest) off) :
    ∃ later reply laterIds laterOff, perform heap iter call = some (later, reply) ∧
      Performed heap (b :: rest) off call reply later laterIds laterOff := by
  cases call with
  | getNextChunk max =>
      rcases get_next_chunk_takes max sensible position with
        ⟨later, chunk, data, laterIds, laterOff, got, takes⟩
      refine ⟨later, some data, laterIds, laterOff, ?_, takes.position, ?_, by simp, by simp,
        Nat.le_of_lt takes.nearer, fun _ _ => takes.nearer⟩
      · simp only [perform, got, Option.bind_eq_bind, Option.bind_some, takes.bytes]
      · simpa [delivered, Call.reads] using takes.front
  | previewNextChunk max =>
      rcases get_next_chunk_takes max sensible position with
        ⟨later, chunk, data, laterIds, laterOff, got, takes⟩
      refine ⟨iter, some data, b :: rest, off, ?_, position, ?_, by simp, by simp,
        Nat.le_refl _, ?_⟩
      · simp only [perform, preview_next_chunk_same, got, Option.map_some, Option.bind_eq_bind,
          Option.bind_some, takes.bytes]
      · simp [delivered, Call.reads]
      · simp [Call.reads]
  | copyNextChunks space =>
      have positive : 1 ≤ space := sensible
      have count : ((space.toNat : Nat) : Int) = space := Int.toNat_of_nonneg (by omega)
      rcases copy_next_chunks_copies space.toNat position with
        ⟨later, data, laterIds, laterOff, copied, reached⟩
      rw [count] at copied
      refine ⟨later, some data, laterIds, laterOff, ?_, reached.position, ?_, by simp, by simp,
        reached.onward, fun _ _ => reached.nearer (by omega) (by simp)⟩
      · simp only [perform, copied, Option.bind_eq_bind, Option.bind_some, Option.map_some]
      · simpa [delivered, Call.reads] using reached.front

theorem perform_performed (call : Call) (sensible : call.Sensible)
    (position : Positioned heap iter ids off) :
    ∃ later reply laterIds laterOff, perform heap iter call = some (later, reply) ∧
      Performed heap ids off call reply later laterIds laterOff := by
  cases ids with
  | nil => exact ⟨iter, none, [], off, perform_end call position⟩
  | cons b rest => exact perform_block call sensible position

theorem delivered_cons (entry : Call × Option (List Byte))
    (replies : List (Call × Option (List Byte))) :
    delivered (entry :: replies) = delivered [entry] ++ delivered replies := by
  simp [delivered]

/-- What a run leaves. The calls that delivered something are counted against the distance. -/
structure RunPerformed (heap : Heap) (ids : List BufId) (off : Nat) (calls : List Call)
    (replies : List (Call × Option (List Byte))) (last : BufBlkIter) (lastIds : List BufId)
    (lastOff : Nat) : Prop where
  position : Positioned heap last lastIds lastOff
  replied : replies.map Prod.fst = calls
  front : unread heap ids off = delivered replies ++ unread heap lastIds lastOff
  ended : ∀ call, (call, none) ∈ replies → lastIds = []
  remains : ids = [] → lastIds = []
  spent : (replies.countP fun (call, reply) => call.reads && reply.isSome) +
    distance heap lastIds lastOff ≤ distance heap ids off

theorem perform_all_performed (calls : List Call) (sensible : ∀ call ∈ calls, call.Sensible)
    (position : Positioned heap iter ids off) :
    ∃ last replies lastIds lastOff, performAll heap iter calls = some (last, replies) ∧
      RunPerformed heap ids off calls replies last lastIds lastOff := by
  induction calls generalizing iter ids off with
  | nil =>
      refine ⟨iter, [], ids, off, rfl, position, rfl, rfl, by simp, id, ?_⟩
      simp
  | cons call calls ih =>
      rcases perform_performed call (sensible call (by simp)) position with
        ⟨middle, reply, middleIds, middleOff, done, step⟩
      rcases ih (fun later member => sensible later (List.mem_cons_of_mem _ member))
          step.position with
        ⟨last, replies, lastIds, lastOff, rest, run⟩
      refine ⟨last, (call, reply) :: replies, lastIds, lastOff, ?_, run.position, ?_,
        ?_, ?_, ?_, ?_⟩
      · simp only [performAll, done, rest, Option.bind_eq_bind, Option.bind_some]
      · rw [List.map_cons, run.replied]
      · rw [step.front, run.front, delivered_cons (call, reply) replies, List.append_assoc]
      · intro ended member
        rcases List.mem_cons.mp member with same | later
        · cases same
          exact run.remains (step.ended rfl)
        · exact run.ended ended later
      · exact fun empty => run.remains (step.remains empty)
      · have spent := run.spent
        have onward := step.onward
        rw [List.countP_cons]
        split_ifs with counted
        · rw [Bool.and_eq_true] at counted
          have nearer := step.nearer counted.1 (by rintro rfl; simp at counted)
          omega
        · omega

/-! ## The result -/

/-- What a fresh iterator delivers over `calls` is the content of the chain from its front on,
all of it once the end is reported, and the end is reported sooner or later. The bounds and
the preview are stated for the iterator that the run leaves. -/
def ReadsBack (heap : Heap) (this : BufId) (ids : List BufId) (calls : List Call) : Prop :=
  ∃ content opened fresh last replies, heap.contents (some this) = some content ∧
    newBufBlkIter heap this = some (opened, fresh) ∧
    performAll opened fresh calls = some (last, replies) ∧ replies.map Prod.fst = calls ∧
    delivered replies <+: content ∧
    ((∃ call, (call, none) ∈ replies) → delivered replies = content) ∧
    (ids.length + content.length < calls.countP Call.reads → ∃ call, (call, none) ∈ replies) ∧
    (∀ max, 1 ≤ max ∨ max = -1 → ∃ later chunk, getNextChunk opened last max = some (later, chunk) ∧
      previewNextChunk opened last max = some (last, chunk) ∧
      ∀ given, chunk = some given → max ≠ -1 → given.size ≤ max) ∧
    ∀ space, 1 ≤ space → ∃ later copied, copyNextChunks opened last space = some (later, copied) ∧
      ∀ data count, copied = some (data, count) → count = data.length ∧ count ≤ space ∧
        (count < space → later.cur = none ∧ delivered replies ++ data = content)

theorem iterator_reads_chain {this : BufId} (ok : ChainOk heap (some this) ids)
    (backed : AllBacked heap ids) (calls : List Call) (sensible : ∀ call ∈ calls, call.Sensible) :
    ReadsBack heap this ids calls := by
  rcases duplicate_chain ok backed with ⟨opened, copy, copies, duplicated, -, copyOk, sameBytes⟩
  have sameContent : copies.flatMap (bytesOf opened) = ids.flatMap (bytesOf heap) := by
    rw [List.flatMap_def, List.flatMap_def, sameBytes]
  have sameCount : copies.length = ids.length := by
    simpa using congrArg List.length sameBytes
  let fresh : BufBlkIter := ⟨some copy, some copy, 0⟩
  have start : Positioned opened fresh copies 0 := ⟨copyOk, rfl, fun _ _ => Nat.zero_le _⟩
  rcases perform_all_performed calls sensible start with ⟨last, replies, lastIds, lastOff,
    performed, run⟩
  have front := run.front
  rw [unread_start, sameContent] at front
  refine ⟨_, opened, fresh, last, replies, contents_of_chain ok, ?_, performed,
    run.replied, ?_, ?_, ?_,
    ?_, ?_⟩
  · simp only [newBufBlkIter, duplicated, Option.bind_eq_bind, Option.bind_some]
    rfl
  · exact ⟨_, front.symm⟩
  · rintro ⟨call, member⟩
    have atEnd := run.ended call member
    simpa [atEnd, unread] using front.symm
  · intro long
    by_contra never
    have spent := run.spent
    have all : (replies.countP fun (call, reply) => call.reads && reply.isSome) =
        calls.countP Call.reads := by
      rw [← run.replied, List.countP_map]
      apply List.countP_congr
      intro entry member
      rcases entry with ⟨call, reply⟩
      cases reply with
      | none => exact absurd ⟨call, member⟩ never
      | some data => simp
    have total : distance opened copies 0 = ids.length + (ids.flatMap (bytesOf heap)).length := by
      rw [distance, unread_start, sameContent, sameCount]
    omega
  · intro max sensibleMax
    rw [preview_next_chunk_same]
    cases lastIds with
    | nil =>
        have atEnd : last.cur = none := run.position.chain.linked
        refine ⟨last, none, get_next_chunk_end max atEnd, ?_, by simp⟩
        rw [get_next_chunk_end max atEnd, Option.map_some]
    | cons b rest =>
        rcases get_next_chunk_takes max sensibleMax run.position with
          ⟨later, chunk, data, laterIds, laterOff, got, takes⟩
        refine ⟨later, some chunk, got, by rw [got, Option.map_some], ?_⟩
        intro given same
        cases same
        exact takes.bound
  · intro space positive
    have count : ((space.toNat : Nat) : Int) = space := Int.toNat_of_nonneg (by omega)
    cases lastIds with
    | nil =>
        have atEnd : last.cur = none := run.position.chain.linked
        exact ⟨last, none, by simp [copyNextChunks, atEnd], by simp⟩
    | cons b rest =>
        rcases copy_next_chunks_copies space.toNat run.position with
          ⟨later, data, laterIds, laterOff, copied, reached⟩
        rw [count] at copied
        refine ⟨later, _, copied, ?_⟩
        rintro found size ⟨rfl, rfl⟩
        have bound := reached.bound
        refine ⟨rfl, by omega, fun short => ?_⟩
        have nothing := reached.short (by omega)
        subst nothing
        refine ⟨reached.position.chain.linked, ?_⟩
        rw [front, reached.front]
        simp [unread]

theorem iterator_reads_chain_three_blocks :
    ReadsBack threeBlocks 0 [0, 1, 2]
      [.getNextChunk 1, .previewNextChunk (-1), .copyNextChunks 3, .getNextChunk (-1)] := by
  apply iterator_reads_chain three_blocks_ok
  · have own : ∀ b ∈ [0, 1, 2], threeBlocks.memOf b = some b := by decide
    exact fun b member => ⟨b, own b member⟩
  · decide

end TWlib.BufBlkIterator
