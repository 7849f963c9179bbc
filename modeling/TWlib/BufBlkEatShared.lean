import TWlib.BufBlkEatBytes
import TWlib.BufBlkRefCount

/-!
# `eatBytes` beside other chains over the same MemBlks

Of what other chains refer to, `eatBytes` gives up references, which the counts
cover, and in one way through it moves bytes. `Spared` is what all the other ways
keep. The move is followed byte by byte, and another block reads the same after it
just when no byte that it reads was replaced by a different one.
-/

namespace TWlib.BufBlkEatShared

open TWlib.Lib.CellStore TWlib.Lib.LinkedChain TWlib.Lib.ChainForest TWlib.Lib.ListSlice
    TWlib.Lib.Outcome
open TWlib.BufBlkHeap TWlib.BufBlkChain TWlib.BufBlkView TWlib.BufBlkCount TWlib.BufBlkCopy
open TWlib.BufBlkContig TWlib.BufBlkSeek TWlib.BufBlkUnlink TWlib.BufBlkEat TWlib.BufBlkEatCases
open TWlib.BufBlkEatOutcomes TWlib.BufBlkOwnership TWlib.BufBlkOwnershipCopy
    TWlib.BufBlkOwnershipSlice
open TWlib.BufBlkRefCount

set_option autoImplicit false

/-! ## What is kept when no byte is moved -/

/-- The blocks outside of `ids` are as they were, the counts are exact, and a MemBlk that is left
has the bytes it had. -/
structure Spared (before after : Heap) (ids : List BufId) : Prop where
  counted : Counted after fun _ => 0
  places : SamePlaces before after
  outside : ∀ b, b ∉ ids → after.bufs.read b = before.bufs.read b

variable {before heap after : Heap} {ids gone pre post whole survivors : List BufId}
  {b mid this : BufId} {start follow : Option BufId} {old blk : BufBlk} {m : MemId} {mem : MemBlk}
  {off rest size : Nat}

theorem spared_refl (counted : Counted heap fun _ => 0) (ids : List BufId) : Spared heap heap ids :=
  ⟨counted, fun _ now left => ⟨now, left, rfl, rfl⟩, fun _ _ => rfl⟩

theorem spared_put_buf (spared : Spared before heap ids) (member : b ∈ ids)
    (present : heap.bufs.read b = some old) (sameBlk : blk.blk = old.blk) :
    Spared before (heap.putBuf b blk) ids := by
  refine ⟨counted_put_buf present blk spared.counted fun m => by rw [sameBlk], spared.places, ?_⟩
  intro c outside
  have different : c ≠ b := fun same => outside (same ▸ member)
  rw [read_put_buf present, if_neg different]
  exact spared.outside c outside

theorem spared_set_nexblk (spared : Spared before heap ids) (member : b ∈ ids)
    (done : heap.setNexblk b follow = some after) : Spared before after ids := by
  rcases Option.bind_eq_some_iff.mp done with ⟨blk, present, relinked⟩
  cases Option.some.inj relinked
  exact spared_put_buf spared member present (by rfl)

theorem spared_relink_prev {prev : Option BufId} (spared : Spared before heap ids)
    (onIds : ∀ p, prev = some p → p ∈ ids) (done : relinkPrev heap prev follow = some after) :
    Spared before after ids := by
  cases prev with
  | none =>
      cases Option.some.inj done
      exact spared
  | some p => exact spared_set_nexblk spared (onIds p rfl) done

theorem spared_release (spared : Spared before heap ids) (chain : Chain heap.next (some b) gone)
    (inside : gone ⊆ ids) : ∃ after, heap.release b = some after ∧ Spared before after ids := by
  have nodup := chain_nodup chain
  have alive : ∀ c ∈ gone, c < heap.bufs.fresh := by
    intro c member
    obtain ⟨blk, present⟩ := chain_read chain member
    exact read_bound present
  rcases release_chain chain (counted_backed nodup alive spared.counted) with ⟨after,
    released, effect⟩
  refine ⟨after, released, counted_released nodup alive effect spared.counted,
    same_places_trans spared.places (released_places effect), fun c outside => ?_⟩
  rw [effect.bufs, if_neg fun member => outside (inside member)]
  exact spared.outside c outside

theorem spared_block_bytes (spared : Spared before after ids) (outside : b ∉ ids)
    (ok : BlockOk before b) :
    after.blockBytes b = before.blockBytes b := by
  have kept := spared.outside b outside
  rcases kept_inside spared.counted spared.places kept ok with ⟨blk, present, inside⟩
  have presentBefore : before.bufs.read b = some blk := kept.symm.trans present
  simp only [Heap.blockBytes, present, presentBefore, Option.bind_eq_bind, Option.bind_some,
    Heap.readable]
  cases owner : blk.blk with
  | none => rfl
  | some m =>
      rw [owner] at inside
      rcases inside with ⟨now, left, -⟩
      rcases spared.places m now left with ⟨mem, known, sameBase, sameBytes⟩
      simp only [left, known, Option.bind_some, load_congr sameBase sameBytes]

/-! ## The ways that move no byte -/

theorem eat_exact_spared (spared : Spared before heap ids)
    (ok : ChainOk heap start (pre ++ mid :: post)) (onIds : pre ++ mid :: post ⊆ ids)
    (present : heap.bufs.read mid = some blk) (midNext : blk.nextblk = post.head?)
    (head : Option BufId) :
    ∃ after newHead, eatExact heap head pre.getLast? mid blk rest = some (after, newHead) ∧
      Spared before after ids := by
  have midOn : mid ∈ ids := onIds (by simp)
  by_cases first : rest = 0
  · subst first
    rcases eat_exact_eq ok present midNext with ⟨linked, unlinkedHeap, stepOne, stepTwo,
      unlinked, eaten⟩
    have prevOn : ∀ p, pre.getLast? = some p → p ∈ ids := fun p isLast =>
      onIds (List.mem_append_left _ (List.mem_of_getLast? isLast))
    have relinked := spared_set_nexblk (spared_relink_prev spared prevOn stepOne) midOn stepTwo
    have alone : ChainOk unlinkedHeap (some mid) [mid] :=
      unlinked_gone (List.cons_ne_nil mid []) (show ChainOk heap start (pre ++ ([mid] ++ post)) from
        ok) unlinked
    rcases spared_release relinked alone.linked (by simpa using midOn) with ⟨after, released,
      afterSpared⟩
    exact ⟨after, _, by rw [Int.natCast_zero, eaten, released, Option.map_some], afterSpared⟩
  · have positive : (rest : Int) > 0 := by omega
    exact ⟨_, head, by rw [eatExact, if_pos positive], spared_put_buf spared midOn present (by rfl)⟩

theorem eat_loop_beyond (fuel : Nat) (back : Option BufId) (ok : ChainOk heap start post)
    (enough : post.length ≤ fuel) (beyond : (lengthsOf heap post).sum < size) :
    eatLoop fuel heap size start back =
      some (heap, ((size - (lengthsOf heap post).sum : Nat) : Int), none,
        post.getLast?.or back) := by
  induction post generalizing start fuel size back with
  | nil =>
      have empty : start = none := ok.linked
      subst empty
      cases fuel <;> rfl
  | cons b rest ih =>
      rcases chain_ok_cons ok with ⟨first, blk, present, -, length, tail⟩
      subst first
      rw [lengths_cons] at beyond ⊢
      obtain ⟨fuel, rfl⟩ : ∃ less, fuel = less + 1 :=
        ⟨fuel - 1, by rw [List.length_cons] at enough; omega⟩
      have left : (size : Int) - (bytesOf heap b).length =
        ((size - (bytesOf heap b).length : Nat) : Int) := by omega
      have less : (lengthsOf heap rest).sum < size - (bytesOf heap b).length := by omega
      have later := ih fuel (some b) tail (by simpa using enough) less
      simp only [eatLoop, present, Option.bind_eq_bind, Option.bind_some, length]
      rw [if_pos (by omega), if_neg (by omega), left, later, List.getLast?_cons, Nat.sub_sub]
      cases rest.getLast? <;> rfl

theorem eat_loop_spared (fuel : Nat) (back : Option BufId) (spared : Spared before heap ids)
    (ok : ChainOk heap start (pre ++ mid :: post)) (onIds : pre ++ mid :: post ⊆ ids)
    (enough : post.length ≤ fuel) (positive : 0 < size) :
    ∃ loop left whole survivors,
      eatLoop fuel heap size post.head? back = some (loop, left, survivors.head?,
        whole.getLast?.or back) ∧
      post = whole ++ survivors ∧ (whole = [] → left ≠ 0) ∧
      ChainOk loop start (pre ++ mid :: post) ∧ Spared before loop ids := by
  have regroup : pre ++ mid :: post = (pre ++ [mid]) ++ post := by simp
  have behindOk : ChainOk heap post.head? post := (chain_ok_append.mp (regroup ▸ ok)).2.2
  by_cases fits : size ≤ (lengthsOf heap post).sum
  · rcases eat_loop_chain fuel size back behindOk enough positive fits with
      ⟨whole, behind, stops, found⟩ | ⟨whole, part, behind, excess, partBlk, stops, present, found⟩
    · rcases stops with ⟨split, -, last, isLast, -⟩
      have filled : whole ≠ [] := fun empty => by simp [empty] at isLast
      exact ⟨heap, 0, whole, behind, found, split, fun empty => absurd empty filled, ok, spared⟩
    · rcases stops with ⟨split, -, partly, inside⟩
      have partMember : part ∈ pre ++ mid :: post := by simp [split]
      have around : pre ++ mid :: post = (pre ++ mid :: whole) ++ part :: behind := by simp [split]
      rcases drop_block excess present (ok.inside part partMember)
        (Nat.le_of_lt inside) with ⟨partOk, -⟩
      rcases chain_ok_put (around ▸ ok) present (by rfl) partOk with ⟨chain, -⟩
      refine ⟨_, excess, whole, part :: behind, found, split, fun _ => by omega, around ▸ chain, ?_⟩
      exact spared_put_buf spared (onIds partMember) present (by rfl)
  · refine ⟨heap, _, post, [], eat_loop_beyond fuel back behindOk enough (by omega), by simp,
      ?_, ok, spared⟩
    intro _
    omega

theorem drop_eaten_later_spared (left : Int) (spared : Spared before heap ids)
    (ok : ChainOk heap start (pre ++ mid :: (whole ++ survivors)))
    (onIds : pre ++ mid :: (whole ++ survivors) ⊆ ids) (remains : whole = [] → left ≠ 0)
    {head : Option BufId} (headFront : ∀ b ∈ whole ++ survivors, head ≠ some b) :
    ∃ after newHead, dropEaten heap head mid (whole ++ survivors).head?
        (whole.getLast?.or (whole ++ survivors).head?) survivors.head? left =
        some (after, newHead) ∧
      Spared before after ids := by
  cases whole with
  | nil =>
      cases survivors with
      | nil => exact ⟨heap, head, rfl, spared⟩
      | cons part behind =>
          have apart : mid ≠ part := by
            rintro rfl
            have nodup := (List.nodup_append.mp (chain_nodup ok.linked)).2.1
            exact (List.nodup_cons.mp nodup).1 (by simp)
          refine ⟨heap, head, ?_, spared⟩
          simp [dropEaten, Ne.symm (headFront part (by simp)), apart, remains rfl]
  | cons first gone =>
      have regroup : pre ++ mid :: (first :: gone ++ survivors) =
          (pre ++ [mid]) ++ ((first :: gone) ++ survivors) := by simp
      have orLast : (first :: gone).getLast?.or (first :: gone ++ survivors).head? =
          (first :: gone).getLast? := by
        rw [List.getLast?_cons]
        rfl
      rw [regroup] at ok
      rcases drop_eaten_run_eq left ok (headFront first (by simp)) with
        ⟨last, detached, unlinkedHeap, isLast, stepOne, stepTwo, unlinked, dropped⟩
      have lastMember : last ∈ first :: gone := List.mem_of_getLast? isLast
      have midOn : mid ∈ ids := onIds (by simp)
      have goneOn : first :: gone ⊆ ids := by
        intro c member
        exact onIds (List.mem_append_right _ (List.mem_cons_of_mem _
          (List.mem_append_left _ member)))
      have relinked := spared_set_nexblk (spared_set_nexblk spared (goneOn lastMember) stepOne)
        midOn stepTwo
      have goneOk := unlinked_gone (List.cons_ne_nil first gone) ok unlinked
      rcases spared_release relinked goneOk.linked goneOn with ⟨after, released, afterSpared⟩
      refine ⟨after, head, ?_, afterSpared⟩
      rw [orLast]
      exact dropped.trans (by rw [released, Option.map_some])

theorem drop_eaten_first_spared (left : Int) (head : Option BufId) (spared : Spared before heap ids)
    (ok : ChainOk heap start (pre ++ mid :: (whole ++ survivors)))
    (onIds : pre ++ mid :: (whole ++ survivors) ⊆ ids) :
    ∃ after newHead, dropEaten heap head mid (some mid) (whole.getLast?.or (some mid))
        survivors.head? left =
        some (after, newHead) ∧ Spared before after ids := by
  by_cases empty : whole = []
  · subst empty
    refine ⟨heap, if some mid = head then survivors.head? else head, ?_, spared⟩
    simp [dropEaten]
  · rcases drop_eaten_first_eq left ok empty with
      ⟨last, detached, unlinkedHeap, isLast, stepOne, stepTwo, unlinked, dropped⟩
    have back : whole.getLast?.or (some mid) = whole.getLast? := by
      rw [isLast]
      rfl
    have lastMember : last ∈ whole := List.mem_of_getLast? isLast
    have lastOn : last ∈ ids := onIds (by simp [lastMember])
    have midOn : mid ∈ ids := onIds (by simp)
    have relinked := spared_set_nexblk (spared_set_nexblk spared lastOn stepOne) midOn stepTwo
    have fromMid : ChainOk heap (some mid) ([] ++ ([mid] ++ (whole ++ survivors))) :=
      (chain_ok_append.mp ok).2.2
    have kept := unlinked_kept (show ChainOk heap (some mid) ([mid] ++ (whole ++ survivors)) from
      fromMid) unlinked
    rw [if_neg (List.cons_ne_nil mid [])] at kept
    have keptOn : [mid] ++ survivors ⊆ ids := by
      intro c member
      apply onIds
      simp only [List.mem_append, List.mem_cons, List.not_mem_nil, or_false] at member ⊢
      tauto
    rcases spared_release relinked kept.linked keptOn with ⟨after, released, afterSpared⟩
    exact ⟨after, _, by rw [back, dropped, released, Option.map_some], afterSpared⟩

theorem eat_across_first_spared {few : Nat} (spared : Spared heap heap ids)
    (ok : ChainOk heap (some this) (pre ++ mid :: post)) (onIds : pre ++ mid :: post ⊆ ids) :
    ∃ after head, eatBehind heap this mid ((few + 1 : Nat) : Int) post.head? (some mid) =
      some (after, head) ∧
      Spared heap after ids := by
  have enough := chain_bound ok.linked
  simp only [List.length_append, List.length_cons] at enough
  rcases eat_loop_spared heap.bufs.fresh (some mid) spared ok onIds (by omega)
      (show 0 < few + 1 by omega) with
    ⟨loop, left, whole, survivors, found, parts, -, loopOk, loopSpared⟩
  rw [parts] at loopOk onIds
  rcases drop_eaten_first_spared left (some this) loopSpared loopOk onIds with ⟨after, head,
    dropped, afterSpared⟩
  refine ⟨after, head, ?_, afterSpared⟩
  simp only [eatBehind, found, dropped, Option.bind_some]

theorem eat_across_later_spared {few : Nat} (spared : Spared heap heap ids)
    (ok : ChainOk heap (some this) (pre ++ mid :: post)) (onIds : pre ++ mid :: post ⊆ ids)
    (present : heap.bufs.read mid = some blk) (inside : rest < (bytesOf heap mid).length) :
    ∃ after head, eatBehind (heap.putBuf mid { blk with wrPtr := blk.rdPtr + rest }) this mid
        ((few + 1 : Nat) : Int) post.head? post.head? = some (after, head) ∧
        Spared heap after ids := by
  have enough := chain_bound ok.linked
  simp only [List.length_append, List.length_cons] at enough
  rcases take_block rest present (ok.inside mid (by simp)) (Nat.le_of_lt inside) with ⟨shortOk, -⟩
  rcases chain_ok_put ok present (by rfl) shortOk with ⟨shortChain, -⟩
  have shortSpared : Spared heap (heap.putBuf mid { blk with wrPtr := blk.rdPtr + rest }) ids :=
    spared_put_buf spared (onIds (by simp)) present (by rfl)
  rcases eat_loop_spared heap.bufs.fresh post.head? shortSpared shortChain onIds (by omega)
    (show 0 < few + 1 by omega) with
    ⟨loop, left, whole, survivors, found, parts, remains, loopOk, loopSpared⟩
  have headFront : ∀ b ∈ whole ++ survivors, some this ≠ some b := by
    intro b member same
    exact (behind_mid ok (parts ▸ member)).2 (Option.some.inj same).symm
  rw [parts] at loopOk onIds
  rcases drop_eaten_later_spared left loopSpared loopOk onIds remains headFront with
    ⟨after, head, dropped, afterSpared⟩
  rw [← parts] at dropped
  refine ⟨after, head, ?_, afterSpared⟩
  simp only [eatBehind, put_buf_bufs, fresh_write, found, dropped, Option.bind_some]

/-- The slice does not end inside the block that it begins in, unless it begins with the block. -/
theorem eat_spared (counted : Counted heap fun _ => 0) (ok : ChainOk heap (some this) ids)
    (located : Located heap ids off pre mid post rest)
    (noMove : rest = 0 ∨ (bytesOf heap mid).length ≤ rest + size) :
    ∃ after head, eatBytes heap this off size = some (after, head) ∧ Spared heap after ids := by
  have spared := spared_refl counted ids
  have total := located_total located
  have offset := located.offset
  have inside := located.inside
  have split := located.split
  have onIds : pre ++ mid :: post ⊆ ids := fun c member => split ▸ member
  have midOn : mid ∈ ids := onIds (by simp)
  have whole : ChainOk heap (some this) (pre ++ mid :: post) := split ▸ ok
  rcases block_ok_bytes (ok.inside mid midOn) with ⟨blk, present, -, length⟩
  rcases Nat.lt_trichotomy (rest + size) (bytesOf heap mid).length with within | exactly | across
  · have first : rest = 0 := by omega
    subst first
    refine ⟨heap.putBuf mid { blk with rdPtr := blk.rdPtr + size }, some this, ?_,
      spared_put_buf spared midOn present (by rfl)⟩
    rw [eat_bytes_at size ok located present, if_pos (by omega)]
    simp [eatWithin]
  · have eaten : ∃ after head, eatExact heap (some this) pre.getLast? mid blk rest =
        some (after, head) ∧
        Spared heap after ids :=
      eat_exact_spared spared whole onIds present (follows_mid whole present) (some this)
    rcases eaten with ⟨after, head, done, afterSpared⟩
    refine ⟨after, head, ?_, afterSpared⟩
    rw [eat_bytes_at size ok located present, if_neg (by omega), if_pos (by omega), done]
  · rcases Nat.exists_eq_add_of_lt across with ⟨few, reaches⟩
    have reaches' : rest + size = (bytesOf heap mid).length + (few + 1) := by omega
    by_cases first : rest = 0
    · subst first
      rw [eat_across_first_eq whole (split ▸ located) present (by omega : size = _ + (few + 1))]
      exact eat_across_first_spared spared whole onIds
    · rw [eat_across_later_eq whole (split ▸ located) (Nat.pos_of_ne_zero first) present reaches']
      exact eat_across_later_spared spared whole onIds present inside

/-! ## The move, byte by byte -/

def byteAt (mem : MemBlk) (address : Int) : Option Byte := mem.bytes[(address - mem.base).toNat]?

theorem moved_byte_at {dst src count address : Int} (canLoad : mem.Holds src count)
    (canStore : mem.Holds dst count) (low : mem.base ≤ address) :
      byteAt (movedMem mem dst src count) address =
      if dst ≤ address ∧ address < dst + count then byteAt mem (address + (src - dst))
      else byteAt mem address := by
  simp only [MemBlk.Holds, MemBlk.size] at canLoad canStore
  simp only [byteAt, movedMem]
  rw [copied_in_place_get mem.bytes _ _ _ _ (by omega) (by omega)]
  by_cases inside : dst ≤ address ∧ address < dst + count
  · rw [if_pos inside, if_pos (by omega)]
    congr 1
    omega
  · rw [if_neg inside, if_neg (by omega)]

theorem block_bytes_eq_iff {now : MemBlk} (read : heap.bufs.read b = some blk)
    (same : after.bufs.read b = some blk) (owner : blk.blk = some m)
    (memRead : heap.mems.read m = some mem) (nowRead : after.mems.read m = some now)
    (sameBase : now.base = mem.base) (sameSize : now.size = mem.size)
    (inside : mem.base ≤ blk.rdPtr ∧ blk.rdPtr ≤ blk.wrPtr ∧ blk.wrPtr ≤ mem.base + mem.size) :
    after.blockBytes b = heap.blockBytes b ↔
      ∀ address, blk.rdPtr ≤ address → address < blk.wrPtr →
      byteAt now address = byteAt mem address := by
  have holds : mem.Holds blk.rdPtr blk.length := by
    simp only [MemBlk.Holds, BufBlk.length]
    omega
  have holdsNow : now.Holds blk.rdPtr blk.length := by
    rw [MemBlk.Holds, sameBase, sameSize]
    exact holds
  have before : heap.blockBytes b = some (slice (blk.rdPtr - mem.base).toNat blk.length.toNat
      mem.bytes) := by
    simp [Heap.blockBytes, read, Heap.readable, owner, memRead, load_of_holds holds, slice]
  have behind : after.blockBytes b = some (slice (blk.rdPtr - mem.base).toNat blk.length.toNat
      now.bytes) := by
    simp [Heap.blockBytes, same, Heap.readable, owner, nowRead, load_of_holds holdsNow,
      slice, sameBase]
  rw [before, behind, Option.some.injEq, List.ext_getElem?_iff]
  simp only [slice, List.getElem?_take, List.getElem?_drop, byteAt, sameBase, BufBlk.length]
  constructor
  · intro bytes address low high
    have here := bytes (address - blk.rdPtr).toNat
    rw [if_pos (by omega), if_pos (by omega)] at here
    have place : (blk.rdPtr - mem.base).toNat + (address - blk.rdPtr).toNat =
      (address - mem.base).toNat := by omega
    rwa [place] at here
  · intro bytes i
    by_cases within : i < (blk.wrPtr - blk.rdPtr).toNat
    · rw [if_pos within, if_pos within]
      have here := bytes (blk.rdPtr + i) (by omega) (by omega)
      have place : (blk.rdPtr + i - mem.base).toNat = (blk.rdPtr - mem.base).toNat + i := by omega
      rwa [place] at here
    · rw [if_neg within, if_neg within]

/-- Every byte of `b` that is overwritten when what lies behind the slice is moved over it, is
replaced by an equal one. -/
def MoveUnseen (heap : Heap) (mid : BufId) (rest size : Nat) (b : BufId) : Prop :=
  ∀ m mem blk other, heap.mems.read m = some mem → heap.bufs.read mid = some blk →
    blk.blk = some m →
    heap.bufs.read b = some other → other.blk = some m →
      ∀ address, blk.rdPtr + rest ≤ address → address + size < blk.wrPtr →
        other.rdPtr ≤ address → address < other.wrPtr →
        byteAt mem (address + size) = byteAt mem address

section Moved

variable {other : BufBlk}

theorem move_unseen_iff (memRead : heap.mems.read m = some mem)
    (midRead : heap.bufs.read mid = some blk) (owner : blk.blk = some m)
    (otherRead : heap.bufs.read b = some other) (shared : other.blk = some m) :
    MoveUnseen heap mid rest size b ↔ ∀ address, blk.rdPtr + rest ≤ address →
      address + size < blk.wrPtr →
      other.rdPtr ≤ address → address < other.wrPtr →
      byteAt mem (address + size) = byteAt mem address := by
  constructor
  · intro unseen
    exact unseen m mem blk other memRead midRead owner otherRead shared
  · intro bytes m' mem' blk' other' memRead' midRead' owner' otherRead' _
    cases Option.some.inj (midRead.symm.trans midRead')
    cases Option.some.inj (owner.symm.trans owner')
    cases Option.some.inj (memRead.symm.trans memRead')
    cases Option.some.inj (otherRead.symm.trans otherRead')
    exact bytes

theorem move_unseen_apart (midRead : heap.bufs.read mid = some blk) (owner : blk.blk = some m)
    (otherRead : heap.bufs.read b = some other) (apart : other.blk ≠ some m) :
    MoveUnseen heap mid rest size b := by
  intro m' mem' blk' other' _ midRead' owner' otherRead' shared'
  cases Option.some.inj (midRead.symm.trans midRead')
  cases Option.some.inj (owner.symm.trans owner')
  cases Option.some.inj (otherRead.symm.trans otherRead')
  exact absurd shared' apart

theorem moved_window_iff (canLoad : mem.Holds (blk.rdPtr + rest + size) (blk.length - size - rest))
    (canStore : mem.Holds (blk.rdPtr + rest) (blk.length - size - rest))
    (low : mem.base ≤ other.rdPtr) :
    (∀ address, other.rdPtr ≤ address → address < other.wrPtr →
      byteAt (movedMem mem (blk.rdPtr + rest) (blk.rdPtr + rest + size)
        (blk.length - size - rest)) address =
        byteAt mem address) ↔
    ∀ address, blk.rdPtr + rest ≤ address → address + size < blk.wrPtr →
      other.rdPtr ≤ address → address < other.wrPtr →
      byteAt mem (address + size) = byteAt mem address := by
  have shift : blk.rdPtr + rest + size - (blk.rdPtr + rest) = size := by omega
  have stop : blk.rdPtr + rest + (blk.length - size - rest) = blk.wrPtr - size := by
    simp only [BufBlk.length]
    omega
  constructor
  · intro bytes address start fits windowLow windowHigh
    have byte := bytes address windowLow windowHigh
    rw [moved_byte_at canLoad canStore (by omega), shift, stop, if_pos ⟨start, by omega⟩] at byte
    exact byte
  · intro unseen address windowLow windowHigh
    rw [moved_byte_at canLoad canStore (by omega), shift, stop]
    split_ifs with written
    · exact unseen address written.1 (by omega) windowLow windowHigh
    · rfl

end Moved

theorem eat_within_moves (ok : ChainOk heap (some this) ids)
    (located : Located heap ids off pre mid post rest) (later : 0 < rest)
    (fits : rest + size < (bytesOf heap mid).length) :
    ∃ after, eatBytes heap this off size = some (after, some this) ∧
      ((Counted heap fun _ => 0) → Counted after fun _ => 0) ∧ ∀ b, b ≠ mid → BlockOk heap b →
        (after.blockBytes b = heap.blockBytes b ↔ MoveUnseen heap mid rest size b) := by
  have midOk := ok.inside mid (by simp [located.split])
  rcases block_ok_bytes midOk with ⟨blk, present, -, length⟩
  rcases move_block rest size present midOk fits with
    ⟨m, mem, moved, owner, memRead, movedEq, canLoad, canStore, done, -, -⟩
  have sameSize : moved.size = mem.size :=
    movedEq ▸ (move_bytes_eq owner memRead canLoad canStore).2
  have sameBase : moved.base = mem.base := by rw [movedEq, movedMem]
  have still : (heap.putMem m moved).bufs.read mid = some blk := present
  let after := (heap.putMem m moved).putBuf mid { blk with wrPtr := blk.wrPtr - size }
  refine ⟨after, ?_, fun counted => ?_, fun b different bOk => ?_⟩
  · have positive : (rest : Int) > 0 := by omega
    rw [eat_bytes_at size ok located present, if_pos (by omega), eatWithin, if_pos positive, done]
    rfl
  · exact counted_put_buf still _ (counted_put_mem memRead moved (by rw [movedEq, movedMem])
      counted) fun m => rfl
  rcases bOk with ⟨other, otherRead, inside⟩
  have otherStill : after.bufs.read b = some other := by
    rw [read_put_buf still, if_neg different]
    exact otherRead
  have reads : ∀ n, after.mems.read n = if n = m then some moved else heap.mems.read n :=
    read_write memRead moved
  by_cases shared : other.blk = some m
  · rw [shared] at inside
    rcases inside with ⟨known, knownRead, bounds⟩
    cases Option.some.inj (memRead.symm.trans knownRead)
    have movedRead : after.mems.read m = some moved := by rw [reads, if_pos rfl]
    rw [block_bytes_eq_iff otherRead otherStill shared memRead movedRead sameBase sameSize bounds,
      move_unseen_iff memRead present owner otherRead shared, movedEq]
    exact moved_window_iff canLoad canStore bounds.1
  · have agree : Agree heap after b := by
      refine ⟨otherStill.trans otherRead.symm, fun n owned => ?_⟩
      have apart : n ≠ m := by
        rintro rfl
        exact shared (by simpa [Heap.memOf, otherRead] using owned)
      rw [reads, if_neg apart]
    exact iff_of_true (alike_block_bytes (agree_alike agree))
      (move_unseen_apart present owner otherRead shared)

/-! ## Two chains -/

inductive Maker where
  | duplicate
  | copy
  | getContigBlock (rdOffset size : Int)

def Maker.Careful : Maker → Prop
  | .getContigBlock rdOffset size => 0 ≤ rdOffset ∧ 0 ≤ size
  | _ => True

def Maker.make (alloc : Alloc) (heap : Heap) (this : BufId) : Maker → Option (Heap × Option BufId)
  | .duplicate => (BufBlkCopy.duplicate heap this).map fun made => (made.1, some made.2)
  | .copy => (newBufBlkCopy heap this).map fun made => (made.1, some made.2)
  | .getContigBlock rdOffset size =>
      (BufBlkContig.getContigBlock alloc heap this rdOffset size).map fun made => (made.1, made.2.2)

/-- The chain from `second` on was made from the one from `this` on, among any chains that are in
order, and both may have been used since in any way that leaves them two chains. -/
inductive Pair (alloc : Alloc) (this second : BufId) : Heap → Prop where
  | made {heap shared : Heap} {chains : List (List BufId)} {maker : Maker}
      (good : Good True heap chains none)
      (live : Live heap this) (careful : maker.Careful)
      (done : maker.make alloc heap this = some (shared, some second)) :
      Pair alloc this second shared
  | later {heap after : Heap} {op : Op} (pair : Pair alloc this second heap)
      (allowed : Allowed heap op)
      (careful : Careful heap op) (done : perform alloc heap op = some after)
      (live : Live after this)
      (other : Live after second) (apart : DifferentChains after this second) :
      Pair alloc this second after

section Pairs

variable {alloc : Alloc} {second : BufId} {chains : List (List BufId)} {tail copies : List BufId}
    {tidy : Prop}

theorem new_chain_apart (good : Good tidy heap ((second :: copies) :: chains) none)
    (member : pre ++ this :: tail ∈ chains) :
    Live heap this ∧ Live heap second ∧ DifferentChains heap this second := by
  have onChains : ∀ c ∈ this :: tail, c ∈ chains.flatten := fun c inside =>
    List.mem_flatten.mpr ⟨_, member, List.mem_append_right _ inside⟩
  have chain := forest_chain_from good.forest (List.mem_cons_of_mem (second :: copies) member)
  have other : Chain heap.next (some second) (second :: copies) :=
    good.forest.linked (second :: copies) (by simp)
  refine ⟨segment_exists chain this (by simp), segment_exists other second (by simp),
    fun reach => ?_, fun reach => ?_⟩
  · have inside := (reachable_iff_mem chain second).mp reach
    exact forest_apart good.forest (show second ∈ second :: copies by simp) (onChains second inside)
  · have inside := (reachable_iff_mem other this).mp reach
    exact forest_apart good.forest inside (onChains this (by simp))

theorem pair_apart (pair : Pair alloc this second heap) : (∃ chains, Good True heap chains none) ∧
    Live heap this ∧ Live heap second ∧ DifferentChains heap this second := by
  induction pair with
  | @made heap shared chains maker good live careful done =>
      rcases good_find good live with ⟨pre, tail, member⟩
      suffices made : ∃ copies, Good True shared ((second :: copies) :: chains) none by
        rcases made with ⟨copies, sharedGood⟩
        exact ⟨⟨_, sharedGood⟩, new_chain_apart sharedGood member⟩
      cases maker with
      | getContigBlock rdOffset size =>
          rcases Option.map_eq_some_iff.mp done with ⟨given, ran, same⟩
          rcases Prod.mk.inj same with ⟨rfl, out⟩
          have givenGood : Good True given.1 ((given.2.2.toList.map fun out => [out]) ++
              chains) none :=
            (good_get_contig_block alloc good member fun _ => careful).2 given ran
          rw [out] at givenGood
          exact ⟨[], givenGood⟩
      | _ =>
          rcases good_duplicate good member with ⟨after, copies, duplicated, afterGood⟩
          rcases Option.map_eq_some_iff.mp done with ⟨given, ran, same⟩
          cases Option.some.inj (duplicated.symm.trans ran)
          cases same
          exact ⟨copies, afterGood⟩
  | later pair allowed careful done live other apart ih =>
      rcases ih with ⟨⟨chains, good⟩, -⟩
      exact ⟨(perform_good good allowed fun _ => careful).2 _ done, live, other, apart⟩

/-! ## The result -/

/-- `eatBytes` on the chain from `this` on leaves the readable bytes of every block of the one from
`second` on. -/
def Undisturbed (heap : Heap) (this second : BufId) (off size : Nat) : Prop :=
  ∃ after head, eatBytes heap this off size = some (after, head) ∧
    ∀ b, Reachable heap.next (some second) b → after.blockBytes b = heap.blockBytes b

/-- A slice from inside a block is one that the blocks of the other chain cannot see go. -/
def SliceUnseen (heap : Heap) (this second : BufId) (off size : Nat) : Prop :=
  ∀ ids pre mid post rest, Chain heap.next (some this) ids →
    Located heap ids off pre mid post rest →
    0 < rest → rest + size < (bytesOf heap mid).length →
      ∀ b, Reachable heap.next (some second) b → MoveUnseen heap mid rest size b

theorem good_chain_ok {start : Option BufId} (good : Good True heap chains none)
    (chain : Chain heap.next start ids) :
    ChainOk heap start ids := by
  refine ⟨chain, fun b inside => ?_⟩
  obtain ⟨blk, present⟩ := chain_read chain inside
  exact (good.inside b blk present).1 trivial

theorem pair_chains (pair : Pair alloc this second heap) : ∃ ids, Counted heap (fun _ => 0) ∧
    ChainOk heap (some this) ids ∧ ∀ b, Reachable heap.next (some second) b → b ∉ ids ∧
    BlockOk heap b := by
  rcases pair_apart pair with ⟨⟨chains, good⟩, live, other, apart⟩
  rcases good_apart good live other apart with ⟨front, tail, otherFront, behind, others,
    pairGood, member⟩
  have chain := forest_chain_from pairGood.forest (List.mem_cons_self (l := others))
  have otherChain := forest_chain_from pairGood.forest
    (List.mem_cons_of_mem (front ++ this :: tail) member)
  refine ⟨this :: tail, pairGood.counted, good_chain_ok pairGood chain, fun b reach => ?_⟩
  have inside := (reachable_iff_mem otherChain b).mp reach
  have onOthers : b ∈ others.flatten :=
    List.mem_flatten.mpr ⟨_, member, List.mem_append_right _ inside⟩
  refine ⟨fun also => ?_, (good_chain_ok pairGood otherChain).inside b inside⟩
  exact forest_apart pairGood.forest (List.mem_append_right front also) onOthers

theorem slice_unseen_iff (chain : Chain heap.next (some this) ids)
    (located : Located heap ids off pre mid post rest) :
    SliceUnseen heap this second off size ↔ (0 < rest → rest + size < (bytesOf heap mid).length →
      ∀ b, Reachable heap.next (some second) b → MoveUnseen heap mid rest size b) := by
  constructor
  · intro unseen later fits
    exact unseen ids pre mid post rest chain located later fits
  · intro unseen ids' pre' mid' post' rest' chain' located' later fits
    cases chain_unique chain chain'
    rcases located_unique located' located with ⟨-, rfl, -, rfl⟩
    exact unseen later fits

theorem slice_unseen_beyond (chain : Chain heap.next (some this) ids)
    (beyond : (lengthsOf heap ids).sum ≤ off) :
    SliceUnseen heap this second off size := by
  intro ids' pre mid post rest chain' located
  cases chain_unique chain chain'
  have total := located_total located
  have offset := located.offset
  have inside := located.inside
  omega

theorem undisturbed_iff {content : List Byte} (pair : Pair alloc this second heap)
    (reads : heap.contents (some this) = some content) (bounded : off + size ≤ content.length) :
    Undisturbed heap this second off size ↔ SliceUnseen heap this second off size := by
  rcases pair_chains pair with ⟨ids, counted, ok, outside⟩
  have bound : off + size ≤ (lengthsOf heap ids).sum := content_length ok reads ▸ bounded
  rcases seek_chain heap.bufs.fresh off none ok (chain_bound ok.linked) with
    ⟨pre, mid, post, rest, located, -⟩ | ⟨beyond, need, last, sought⟩
  · rw [slice_unseen_iff ok.linked located]
    by_cases moves : 0 < rest ∧ rest + size < (bytesOf heap mid).length
    · rcases eat_within_moves ok located moves.1 moves.2 with ⟨after, done, -, bytes⟩
      have midOn : mid ∈ ids := by simp [located.split]
      have bytesOther : ∀ b, Reachable heap.next (some second) b →
          (after.blockBytes b = heap.blockBytes b ↔ MoveUnseen heap mid rest size b) := by
        intro b reach
        exact bytes b (fun same => (outside b reach).1 (same ▸ midOn)) (outside b reach).2
      constructor
      · rintro ⟨found, head, again, same⟩ - - b reach
        cases Option.some.inj (done.symm.trans again)
        exact (bytesOther b reach).mp (same b reach)
      · intro unseen
        refine ⟨after, some this, done, fun b reach => (bytesOther b reach).mpr ?_⟩
        exact unseen moves.1 moves.2 b reach
    · have noMove : rest = 0 ∨ (bytesOf heap mid).length ≤ rest + size := by omega
      rcases eat_spared counted ok located noMove with ⟨after, head, done, spared⟩
      have undisturbed : Undisturbed heap this second off size :=
        ⟨after, head, done, fun b reach => spared_block_bytes spared (outside b reach).1
          (outside b reach).2⟩
      exact iff_of_true undisturbed fun later fits => absurd ⟨later, fits⟩ moves
  · have undisturbed : Undisturbed heap this second off size := by
      refine ⟨heap, some this, ?_, fun b _ => rfl⟩
      simp only [eatBytes, sought, Option.bind_eq_bind, Option.bind_some]
    exact iff_of_true undisturbed (slice_unseen_beyond ok.linked beyond)

/-! ## Four bytes and their duplicate -/

def fourBytes : Heap :=
  ((perform zeroAlloc emptyHeap (.newSize 4)).bind fun heap =>
    perform zeroAlloc heap (.copyFrom 0 [1, 2, 3, 4])).getD emptyHeap

def fourBytesTwice : Heap := ((BufBlkCopy.duplicate fourBytes 0).map Prod.fst).getD emptyHeap

theorem four_bytes_run : Run zeroAlloc True fourBytes := by
  let one := (Heap.newBufBlkSize zeroAlloc emptyHeap 4).1
  have made : call zeroAlloc emptyHeap (.newSize 4) = some one := rfl
  have filled : call zeroAlloc one (.copyFrom 0 [1, 2, 3, 4]) = some fourBytes := rfl
  have allowed : Allowed one (.copyFrom 0 [1, 2, 3, 4]) := ⟨none, by decide⟩
  have anything : Allowed emptyHeap (.newSize 4) ∧ Careful emptyHeap (.newSize 4) ∧
      Careful one (.copyFrom 0 [1, 2, 3, 4]) := ⟨trivial, trivial, trivial⟩
  have first : Run zeroAlloc True one := .step .start anything.1 (fun _ => anything.2.1) made
  exact .step first allowed (fun _ => anything.2.2) filled

theorem four_bytes_pair : Pair zeroAlloc 0 1 fourBytesTwice := by
  rcases run_good four_bytes_run with ⟨chains, good⟩
  have made : Maker.duplicate.make zeroAlloc fourBytes 0 = some (fourBytesTwice, some 1) := rfl
  have careful : Maker.duplicate.Careful := trivial
  exact .made good ⟨none, by decide⟩ careful made

theorem undisturbed_iff_four_bytes :
    Undisturbed fourBytesTwice 0 1 0 2 ↔ SliceUnseen fourBytesTwice 0 1 0 2 :=
  undisturbed_iff four_bytes_pair (by decide : fourBytesTwice.contents (some 0) = some [1, 2, 3, 4])
    (by decide)

/-- The second byte of four is eaten, and the duplicate reads 1, 3, 4, 4. -/
theorem duplicate_disturbed :
    ¬∀ (alloc : Alloc) (this second : BufId) (heap : Heap) (off size : Nat) (content : List Byte),
      Pair alloc this second heap → heap.contents (some this) = some content →
        off + size ≤ content.length →
        Undisturbed heap this second off size := by
  intro always
  rcases always zeroAlloc 0 1 fourBytesTwice 1 1 [1, 2, 3, 4] four_bytes_pair (by decide)
      (by decide) with
    ⟨after, head, done, same⟩
  have before : fourBytesTwice.blockBytes 1 = some [1, 2, 3, 4] := by decide
  have outcome : (eatBytes fourBytesTwice 0 (1 : Nat) (1 : Nat)).map
      (fun out => out.1.blockBytes 1) =
      some (some [1, 3, 4, 4]) := by decide
  rw [done, Option.map_some, same 1 (.here 1), before] at outcome
  cases outcome

end Pairs

end TWlib.BufBlkEatShared
