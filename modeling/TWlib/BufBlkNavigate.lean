import TWlib.BufBlkCopy

/-!
# Copies that can be navigated like their source

`duplicate`, the copy constructor and `operator=` copy the first block of a chain
field by field, and the blocks behind it by other code, which leaves out the mark;
none of it copies the flags. `copy_indistinguishable_iff` says for which chains
this makes no difference.
-/

namespace TWlib.BufBlkNavigate

open TWlib.Lib.CellStore TWlib.Lib.LinkedChain TWlib.BufBlkHeap TWlib.BufBlkChain TWlib.BufBlkView
  TWlib.BufBlkCopy

set_option autoImplicit false

/-! ## Moving the positions of one block -/

inductive Move where
  | rewind (offset : Int)
  | setMark
  | reset
  | setRdPtr (p : Int)
  | setWrPtr (p : Int)
  | incRdPtr (x : Int)
  | incWrPtr (x : Int)
  | decRdPtr (x : Int)
  | decWrPtr (x : Int)
  | rdPtr
  | wrPtr
  | mark
  | length
  | freespace

/-- `mem` is the MemBlk of the block; the result is what is returned, if anything. -/
def moveBlock (mem : Option MemBlk) (blk : BufBlk) : Move → Option (BufBlk × Option Int)
  | .rewind offset => some ({ blk with rdPtr := blk.mark + offset }, none)
  | .setMark => some ({ blk with mark := blk.rdPtr }, none)
  | .reset =>
      mem.map fun mem => ({ blk with rdPtr := mem.base, wrPtr := mem.base, mark := mem.base }, none)
  | .setRdPtr p => some ({ blk with rdPtr := p }, none)
  | .setWrPtr p => some ({ blk with wrPtr := p }, none)
  | .incRdPtr x => some ({ blk with rdPtr := blk.rdPtr + x }, none)
  | .incWrPtr x => some ({ blk with wrPtr := blk.wrPtr + x }, none)
  | .decRdPtr x => some ({ blk with rdPtr := blk.rdPtr - x }, none)
  | .decWrPtr x => some ({ blk with wrPtr := blk.wrPtr - x }, none)
  | .rdPtr => some (blk, some blk.rdPtr)
  | .wrPtr => some (blk, some blk.wrPtr)
  | .mark => some (blk, some blk.mark)
  | .length => some (blk, some blk.length)
  | .freespace => mem.map fun mem => (blk, some (Heap.freespace mem blk))

/-- What the moves of block `b` return, one after the other. -/
def navigate (heap : Heap) (b : BufId) : List Move → Option (List (Option Int))
  | [] => some []
  | move :: moves => do
      let blk ← heap.bufs.read b
      let (blk, ret) ← moveBlock (blk.blk.bind heap.mems.read) blk move
      let rets ← navigate (heap.putBuf b blk) b moves
      some (ret :: rets)

/-! ## Equal views -/

def SameView (source copy : BufBlk) : Prop :=
  copy.blk = source.blk ∧ copy.rdPtr = source.rdPtr ∧ copy.wrPtr = source.wrPtr ∧
    copy.mark = source.mark

theorem move_block_same {source copy : BufBlk} (same : SameView source copy) (mem : Option MemBlk)
    (move : Move) :
    (moveBlock mem source move = none ∧ moveBlock mem copy move = none) ∨
    ∃ sourceAfter copyAfter ret, moveBlock mem source move = some (sourceAfter, ret) ∧
      moveBlock mem copy move = some (copyAfter, ret) ∧ SameView sourceAfter copyAfter := by
  rcases source with ⟨owner, low, high, back, follow, flags⟩
  rcases copy with ⟨copyOwner, copyLow, copyHigh, copyBack, copyFollow, copyFlags⟩
  rcases same with ⟨ownerSame, lowSame, highSame, backSame⟩
  simp only at ownerSame lowSame highSame backSame
  subst ownerSame lowSame highSame backSame
  cases move with
  | reset | freespace =>
      cases mem with
      | none => exact Or.inl ⟨rfl, rfl⟩
      | some mem => exact Or.inr ⟨_, _, _, rfl, rfl, rfl, rfl, rfl, rfl⟩
  | rewind _ | setMark | setRdPtr _ | setWrPtr _ | incRdPtr _ | incWrPtr _ | decRdPtr _ | decWrPtr _
  | rdPtr | wrPtr | mark | length => exact Or.inr ⟨_, _, _, rfl, rfl, rfl, rfl, rfl, rfl⟩

theorem navigate_same (moves : List Move) {left right : Heap} {b c : BufId} {source copy : BufBlk}
    (sameMems : left.mems = right.mems) (sourceRead : left.bufs.read b = some source)
    (copyRead : right.bufs.read c = some copy) (same : SameView source copy) :
    navigate right c moves = navigate left b moves := by
  induction moves generalizing left right source copy with
  | nil => rfl
  | cons move moves ih =>
      have sameMem : copy.blk.bind right.mems.read = source.blk.bind left.mems.read := by
        rw [same.1, sameMems]
      simp only [navigate, sourceRead, copyRead, Option.bind_eq_bind, Option.bind_some, sameMem]
      rcases move_block_same same (source.blk.bind left.mems.read) move with
        ⟨sourceFails, copyFails⟩ | ⟨sourceAfter, copyAfter, ret, sourceMoved, copyMoved, sameAfter⟩
      · rw [sourceFails, copyFails]
        rfl
      · have sourcePut : (left.putBuf b sourceAfter).bufs.read b = some sourceAfter := by
          rw [read_put_buf sourceRead, if_pos rfl]
        have copyPut : (right.putBuf c copyAfter).bufs.read c = some copyAfter := by
          rw [read_put_buf copyRead, if_pos rfl]
        have later := ih (show (left.putBuf b sourceAfter).mems =
          (right.putBuf c copyAfter).mems from sameMems)
          sourcePut copyPut sameAfter
        rw [sourceMoved, copyMoved]
        simp only [Option.bind_some, later]

/-! ## The fields of a copy -/

def Owned (heap : Heap) (b : BufId) : Prop :=
  ∃ blk m mem, heap.bufs.read b = some blk ∧ blk.blk = some m ∧ heap.mems.read m = some mem

/-- `c` is what the loop of `assignFromBlk` makes of `b`. -/
def LaterCopy (heap : Heap) (b c : BufId) : Prop :=
  ∃ source copy, heap.bufs.read b = some source ∧ heap.bufs.read c = some copy ∧
    copy.blk = source.blk ∧ copy.rdPtr = source.rdPtr ∧ copy.wrPtr = source.wrPtr ∧
    copy.mark = null ∧ copy.flags = 0

/-- Blocks other than `walk` that were there before are as they were. -/
def Untouched (before after : Heap) (walk : BufId) : Prop :=
  ∀ b blk, before.bufs.read b = some blk → b ≠ walk → after.bufs.read b = some blk

variable {heap : Heap} {ids : List BufId}

theorem owned_untouched {after : Heap} {walk b : BufId} (owned : Owned heap b) (other : b ≠ walk)
    (untouched : Untouched heap after walk) (live : ∀ m, (heap.mems.read m).isSome →
      (after.mems.read m).isSome) :
    Owned after b := by
  rcases owned with ⟨blk, m, mem, present, owner, memRead⟩
  have stays := live m (by rw [memRead]; rfl)
  rcases Option.isSome_iff_exists.mp stays with ⟨now, nowRead⟩
  exact ⟨blk, m, now, untouched b blk present other, owner, nowRead⟩

theorem chain_untouched {after : Heap} {walk : BufId} {start : Option BufId}
    (linked : Chain heap.next start ids) (outside : walk ∉ ids)
    (untouched : Untouched heap after walk) :
    Chain after.next start ids := by
  apply chain_frame linked
  intro b member
  rcases segment_exists linked b member with ⟨follow, step⟩
  rcases read_of_next step with ⟨blk, present, rfl⟩
  have other : b ≠ walk := fun same => outside (same ▸ member)
  rw [step, next_of_read (untouched b blk present other)]

theorem live_put_mem {m : MemId} {mem : MemBlk} (present : heap.mems.read m = some mem)
    (now : MemBlk) :
    ∀ other, (heap.mems.read other).isSome → ((heap.putMem m now).mems.read other).isSome := by
  intro other live
  rw [put_mem_mems, read_write present]
  split_ifs
  · rfl
  · exact live

theorem copy_chain_made {start : Option BufId} {walk : BufId} {blk : BufBlk} (fuel : Nat)
    (linked : Chain heap.next start ids) (owned : ∀ b ∈ ids, Owned heap b) (outside : walk ∉ ids)
    (present : heap.bufs.read walk = some blk) (last : blk.nextblk = none)
    (enough : ids.length ≤ fuel) :
    ∃ after copies, copyChain fuel heap walk start = some after ∧ Untouched heap after walk ∧
      after.bufs.read walk = some { blk with nextblk := copies.head? } ∧
      Chain after.next copies.head? copies ∧ List.Forall₂ (LaterCopy after) ids copies := by
  induction ids generalizing start fuel heap walk blk with
  | nil =>
      have empty : start = none := linked
      subst empty
      refine ⟨heap, [], by cases fuel <;> rfl, fun b blk there _ => there, ?_, rfl,
        List.Forall₂.nil⟩
      rw [present, List.head?_nil, ← last]
  | cons b rest ih =>
      rcases linked with ⟨first, follow, step, tail⟩
      subst first
      rcases read_of_next step with ⟨o, oRead, rfl⟩
      rcases owned b List.mem_cons_self with ⟨o', m, mem, oRead', owner, memRead⟩
      cases Option.some.inj (oRead.symm.trans oRead')
      rw [List.mem_cons, not_or] at outside
      cases fuel with
      | zero => simp at enough
      | succ fuel =>
          simp only [List.length_cons, Nat.add_le_add_iff_right] at enough
          let copy := heap.bufs.fresh
          let placed := copyTurn heap walk blk o m mem
          have apart : walk ≠ copy := Nat.ne_of_lt (read_bound present)
          have notCopy : ∀ other known, heap.bufs.read other = some known → other ≠ copy :=
            fun other known there => Nat.ne_of_lt (read_bound there)
          have untouched : Untouched heap placed walk := by
            intro other known there different
            rw [copy_turn_read present, if_neg (notCopy other known there), if_neg different, there]
          have live := live_put_mem memRead { mem with refCount := mem.refCount + 1 }
          have ownedPlaced : ∀ other ∈ rest, Owned placed other := by
            intro other member
            have different : other ≠ walk := fun same => outside.2 (same ▸ member)
            exact owned_untouched (owned other (List.mem_cons_of_mem _ member)) different
              untouched live
          have copyOutside : copy ∉ rest := by
            intro member
            rcases owned copy (List.mem_cons_of_mem _ member) with ⟨known, _, _, there, _, _⟩
            exact notCopy copy known there rfl
          rcases ih fuel (chain_untouched tail outside.2 untouched) ownedPlaced copyOutside
            (copy_turn_copy present) rfl enough with ⟨after, copies, ran, later, copyAfter,
              chain, pairs⟩
          have sourceAfter : after.bufs.read b = some o :=
            later b o (untouched b o oRead (Ne.symm outside.1)) (notCopy b o oRead)
          refine ⟨after, copy :: copies, (copy_turn_eq fuel oRead owner memRead present).trans ran,
            ?_, ?_, ?_, ?_⟩
          · intro other known there different
            exact later other known (untouched other known there different)
              (notCopy other known there)
          · exact later walk _ (copy_turn_walk present) apart
          · exact ⟨rfl, copies.head?, next_of_read copyAfter, chain⟩
          · refine List.Forall₂.cons ⟨o, _, sourceAfter, copyAfter, ?_, rfl, rfl, rfl, rfl⟩ pairs
            exact owner.symm

theorem assign_from_blk_made {this o : BufId} {rest : List BufId} {source mine : BufBlk}
    (linked : Chain heap.next (some o) (o :: rest)) (owned : ∀ b ∈ o :: rest, Owned heap b)
    (outside : this ∉ o :: rest) (sourceRead : heap.bufs.read o = some source)
    (mineRead : heap.bufs.read this = some mine) :
    ∃ after copies, assignFromBlk heap this o = some after ∧ Untouched heap after this ∧
      after.bufs.read this = some { mine with
        blk := source.blk, nextblk := copies.head?, rdPtr := source.rdPtr, wrPtr := source.wrPtr,
        mark := source.mark } ∧
      Chain after.next copies.head? copies ∧ List.Forall₂ (LaterCopy after) rest copies := by
  have bound := chain_bound linked
  rcases linked with ⟨-, follow, step, tail⟩
  rcases read_of_next step with ⟨found, foundRead, rfl⟩
  cases Option.some.inj (sourceRead.symm.trans foundRead)
  rcases owned o List.mem_cons_self with ⟨source', m, mem, sourceRead', owner, memRead⟩
  cases Option.some.inj (sourceRead.symm.trans sourceRead')
  rw [List.mem_cons, not_or] at outside
  let counted := heap.putMem m { mem with refCount := mem.refCount + 1 }
  let taken : BufBlk := { mine with
    blk := source.blk, nextblk := none, rdPtr := source.rdPtr, wrPtr := source.wrPtr, mark :=
      source.mark }
  have mineCounted : counted.bufs.read this = some mine := mineRead
  let placed := counted.putBuf this taken
  have untouched : Untouched heap placed this := by
    intro b blk there different
    rw [read_put_buf mineCounted, if_neg different]
    exact there
  have live := live_put_mem memRead { mem with refCount := mem.refCount + 1 }
  have ownedPlaced : ∀ b ∈ rest, Owned placed b := by
    intro b member
    have different : b ≠ this := fun same => outside.2 (same ▸ member)
    exact owned_untouched (owned b (List.mem_cons_of_mem _ member)) different untouched live
  have thisPlaced : placed.bufs.read this = some taken := by
    rw [read_put_buf mineCounted, if_pos rfl]
  have enough : rest.length ≤ heap.bufs.fresh := by
    rw [List.length_cons] at bound
    omega
  rcases copy_chain_made heap.bufs.fresh (chain_untouched tail outside.2 untouched)
    ownedPlaced outside.2
    thisPlaced rfl enough with ⟨after, copies, ran, later, thisAfter, chain, pairs⟩
  refine ⟨after, copies, ?_, ?_, thisAfter, chain, pairs⟩
  · have checkedOut : checkoutOpt heap source.blk = some counted := by
      rw [owner]
      exact checkout_eq memRead
    rw [assign_from_blk_eq sourceRead checkedOut mineCounted sourceRead (Ne.symm outside.1)]
    exact ran
  · intro b blk there different
    exact later b blk (untouched b blk there different) different

/-! ## The three ways to copy a chain -/

inductive Way where
  | duplicate
  | construct
  | assign (target : BufId)

def Way.isAssign : Way → Bool
  | .assign _ => true
  | _ => false

/-- What the statements of the three ways make: the copy of the chain of `this`, and its first
block. -/
def copyBody (heap : Heap) (this : BufId) : Way → Option (Heap × BufId)
  | .duplicate => BufBlkCopy.duplicate heap this
  | .construct => newBufBlkCopy heap this
  | .assign target => (assignBody heap target this).map fun after => (after, target)

/-- The copy that is there when the call has returned. -/
def copyBy (heap : Heap) (this : BufId) : Way → Option (Heap × BufId)
  | .assign target => (BufBlkCopy.assign heap target this).map fun after => (after, target)
  | way => copyBody heap this way

/-- The chain that is assigned to has no block in common with the source, and the reference counts
cover the references of both. -/
def Unrelated (heap : Heap) (ids : List BufId) : Way → Prop
  | .assign target => ∃ targets, Chain heap.next (some target) targets ∧ targets.Disjoint ids ∧
      Backed heap (targets ++ ids)
  | _ => True

/-- The flags that the first block of the copy has. -/
def headFlags (heap : Heap) : Way → UInt32
  | .assign target => ((heap.bufs.read target).map BufBlk.flags).getD 0
  | _ => 0

/-- What a copy is: the first block keeps the flags of its own. -/
def Made (heap : Heap) (this : BufId) (rest : List BufId) (flags : UInt32) (made : Heap × BufId)
    (copies : List BufId) : Prop :=
  (∀ b ∈ this :: rest, made.1.bufs.read b = heap.bufs.read b) ∧
  Chain made.1.next (some made.2) (made.2 :: copies) ∧
  (∃ source copy, made.1.bufs.read this = some source ∧ made.1.bufs.read made.2 = some copy ∧
    SameView source copy ∧ copy.flags = flags) ∧
  List.Forall₂ (LaterCopy made.1) rest copies

theorem assigned_made {this o : BufId} {rest : List BufId} {mine : BufBlk}
    (linked : Chain heap.next (some o) (o :: rest)) (owned : ∀ b ∈ o :: rest, Owned heap b)
    (outside : this ∉ o :: rest) (mineRead : heap.bufs.read this = some mine) :
    ∃ after copies, assignFromBlk heap this o = some after ∧
    Made heap o rest mine.flags (after, this) copies := by
  rcases owned o List.mem_cons_self with ⟨source, _, _, sourceRead, _, _⟩
  rcases assign_from_blk_made linked owned outside sourceRead mineRead with
    ⟨after, copies, ran, untouched, thisAfter, chain, pairs⟩
  have kept : ∀ b ∈ o :: rest, after.bufs.read b = heap.bufs.read b := by
    intro b member
    rcases owned b member with ⟨blk, _, _, there, _, _⟩
    rw [there]
    exact untouched b blk there fun same => outside (same ▸ member)
  refine ⟨after, copies, ran, kept, ⟨rfl, copies.head?, next_of_read thisAfter, chain⟩, ?_, pairs⟩
  refine ⟨source, _, ?_, thisAfter, ⟨rfl, rfl, rfl, rfl⟩, rfl⟩
  rw [kept o List.mem_cons_self, sourceRead]

theorem constructed_made {o : BufId} {rest : List BufId}
    (linked : Chain heap.next (some o) (o :: rest)) (owned : ∀ b ∈ o :: rest, Owned heap b) :
    ∃ made copies, newBufBlkCopy heap o = some made ∧ Made heap o rest 0 made copies := by
  rcases owned o List.mem_cons_self with ⟨source, _, _, sourceRead, _, _⟩
  let fresh : BufBlk := { source with nextblk := none, flags := 0 }
  let pushed := (heap.pushBuf fresh).1
  have newRead : pushed.bufs.read heap.bufs.fresh = some fresh := push_buf_read heap fresh
  have kept : ∀ b ∈ o :: rest, pushed.bufs.read b = heap.bufs.read b := by
    intro b member
    rcases owned b member with ⟨blk, _, _, there, _, _⟩
    rw [there]
    exact read_push_of_present there fresh
  have outside : heap.bufs.fresh ∉ o :: rest := by
    intro member
    rcases owned _ member with ⟨blk, _, _, there, _, _⟩
    exact Nat.lt_irrefl _ (read_bound there)
  have linkedPushed : Chain pushed.next (some o) (o :: rest) := by
    apply chain_frame linked
    intro b member
    simp only [Heap.next, kept b member]
  have ownedPushed : ∀ b ∈ o :: rest, Owned pushed b := by
    intro b member
    rcases owned b member with ⟨blk, m, mem, there, owner, memRead⟩
    exact ⟨blk, m, mem, (kept b member).trans there, owner, memRead⟩
  rcases assigned_made linkedPushed ownedPushed outside newRead with ⟨after, copies, ran, same,
    chain, head, pairs⟩
  refine ⟨(after, heap.bufs.fresh), copies, ?_, ?_, chain, head, pairs⟩
  · simp only [newBufBlkCopy, sourceRead, Option.bind_eq_bind, Option.bind_some]
    change (assignFromBlk pushed heap.bufs.fresh o).bind _ = _
    rw [ran]
    rfl
  · exact fun b member => (same b member).trans (kept b member)

theorem release_opt_mem_bufs {after : Heap} {owner : Option MemId}
    (released : heap.releaseOptMem owner = some after) : after.bufs = heap.bufs := by
  cases owner with
  | none =>
      cases released
      rfl
  | some m =>
      rcases Option.bind_eq_some_iff.mp (show heap.releaseMem m = some after from released) with
        ⟨mem, present, _⟩
      rcases release_mem_eq present with ⟨same, done, bufs, _⟩
      cases Option.some.inj (done.symm.trans released)
      exact bufs

theorem users_append (heap : Heap) (left right : List BufId) (m : MemId) :
    users heap (left ++ right) m = users heap left m + users heap right m := by
  simp [users, List.countP_append]

theorem backed_left {left right : List BufId} (backed : Backed heap (left ++ right)) :
    Backed heap left := by
  intro m used
  rcases backed m (by rw [users_append]; omega) with ⟨mem, present, covered⟩
  rw [users_append] at covered
  exact ⟨mem, present, by omega⟩

theorem owned_after_release {left right : List BufId} {after : Heap}
    (backed : Backed heap (left ++ right))
    (mems : ∀ m, after.mems.read m = (heap.mems.read m).bind (dropped (users heap left m)))
    {b : BufId} (member : b ∈ right) (same : after.bufs.read b = heap.bufs.read b)
    (owned : Owned heap b) :
    Owned after b := by
  rcases owned with ⟨blk, m, mem, present, owner, memRead⟩
  have used : 0 < users heap right m := by
    refine List.countP_pos_iff.mpr ⟨b, member, ?_⟩
    simp [Heap.memOf, present, owner]
  have kept : ∃ now, dropped (users heap left m) mem = some now := by
    rcases backed m (by rw [users_append]; omega) with ⟨mem', memRead', covered⟩
    cases Option.some.inj (memRead.symm.trans memRead')
    rw [users_append] at covered
    unfold dropped
    by_cases none_ : users heap left m = 0
    · exact ⟨mem, if_pos none_⟩
    · have many : ¬ mem.refCount ≤ (users heap left m : Int) := by omega
      rw [if_neg none_, if_neg many]
      exact ⟨_, rfl⟩
  rcases kept with ⟨now, left⟩
  refine ⟨blk, m, now, same.trans present, owner, ?_⟩
  rw [mems m, memRead, Option.bind_some, left]

theorem overwritten_made {this o : BufId} {rest targets : List BufId}
    (linked : Chain heap.next (some o) (o :: rest)) (owned : ∀ b ∈ o :: rest, Owned heap b)
    (targetLinked : Chain heap.next (some this) targets) (disjoint : targets.Disjoint (o :: rest))
    (backed : Backed heap (targets ++ o :: rest)) :
    ∃ after copies mine, heap.bufs.read this = some mine ∧ assignBody heap this o = some after ∧
      Made heap o rest mine.flags (after, this) copies := by
  cases targets with
  | nil => cases targetLinked
  | cons first trest =>
      have nodup := chain_nodup targetLinked
      rcases targetLinked with ⟨same, follow, step, tail⟩
      cases Option.some.inj same
      rcases read_of_next step with ⟨mine, mineRead, rfl⟩
      rcases release_opt_chain tail (backed_tail (backed_left backed)) with ⟨mid,
        released, midEffect⟩
      rcases release_own_mem midEffect mineRead (backed_left backed) with ⟨cut, cutStep, effect⟩
      have cutBufs : ∀ b, b ∉ trest → cut.bufs.read b = heap.bufs.read b := by
        intro b outside
        rw [release_opt_mem_bufs cutStep, midEffect.bufs, if_neg outside]
      have kept : ∀ b ∈ o :: rest, cut.bufs.read b = heap.bufs.read b :=
        fun b member => cutBufs b fun also => disjoint (List.mem_cons_of_mem _ also) member
      have cutMems : ∀ m, cut.mems.read m =
          (heap.mems.read m).bind (dropped (users heap (this :: trest) m)) := effect.mems
      have ownedCut : ∀ b ∈ o :: rest, Owned cut b :=
        fun b member => owned_after_release backed cutMems member (kept b member) (owned b member)
      have linkedCut : Chain cut.next (some o) (o :: rest) := by
        apply chain_frame linked
        intro b member
        simp only [Heap.next, kept b member]
      have mineCut : cut.bufs.read this = some mine :=
        (cutBufs this (List.nodup_cons.mp nodup).1).trans mineRead
      have outside : this ∉ o :: rest := fun also => disjoint List.mem_cons_self also
      rcases assigned_made linkedCut ownedCut outside mineCut with
        ⟨after, copies, ran, sameSource, chain, head, pairs⟩
      refine ⟨after, copies, mine, mineRead, ?_, ?_, chain, head, pairs⟩
      · simp only [assignBody, mineRead, released, cutStep, Option.bind_eq_bind, Option.bind_some]
        exact ran
      · exact fun b member => (sameSource b member).trans (kept b member)

theorem copy_body_made {this : BufId} {rest : List BufId} (way : Way)
    (linked : Chain heap.next (some this) (this :: rest)) (owned : ∀ b ∈ this :: rest, Owned heap b)
    (unrelated : Unrelated heap (this :: rest) way) :
    ∃ made copies, copyBody heap this way = some made ∧
    Made heap this rest (headFlags heap way) made copies := by
  cases way with
  | duplicate => exact constructed_made linked owned
  | construct => exact constructed_made linked owned
  | assign target =>
      rcases unrelated with ⟨targets, targetLinked, disjoint, backed⟩
      rcases overwritten_made linked owned targetLinked disjoint backed with
        ⟨after, copies, mine, mineRead, assigned, made⟩
      refine ⟨(after, target), copies, ?_, ?_⟩
      · rw [copyBody, assigned, Option.map_some]
      · rw [headFlags, mineRead]
        exact made

/-! ## When a copy cannot be told from its source -/

/-- The read and write position and the mark of a block lie inside its buffer. -/
def Positioned (heap : Heap) (b : BufId) : Prop :=
  ∃ blk m mem, heap.bufs.read b = some blk ∧ blk.blk = some m ∧ heap.mems.read m = some mem ∧
    mem.Holds blk.rdPtr 0 ∧ mem.Holds blk.wrPtr 0 ∧ mem.Holds blk.mark 0

/-- Block `c` shares the MemBlk of `b`, has the same positions and flags, and is navigated alike. -/
def Matches (heap : Heap) (b c : BufId) : Prop :=
  (∃ source copy, heap.bufs.read b = some source ∧ heap.bufs.read c = some copy ∧
    SameView source copy ∧ copy.flags = source.flags) ∧
  ∀ moves, navigate heap c moves = navigate heap b moves

/-- The copy has as many blocks as the source, and each of them matches. -/
def Indistinguishable (ids : List BufId) (made : Heap × BufId) : Prop :=
  ∃ copies, Chain made.1.next (some made.2) copies ∧ List.Forall₂ (Matches made.1) ids copies

/-- The first block has the flags `flags`; every other one has no flags and the mark NULL. -/
def Plain (heap : Heap) (this : BufId) (rest : List BufId) (flags : UInt32) : Prop :=
  (∀ blk, heap.bufs.read this = some blk → blk.flags = flags) ∧
  ∀ b ∈ rest, ∀ blk, heap.bufs.read b = some blk → blk.mark = null ∧ blk.flags = 0

theorem later_matches {b c : BufId} {source : BufBlk} (copied : LaterCopy heap b c)
    (sourceRead : heap.bufs.read b = some source) :
    Matches heap b c ↔ source.mark = null ∧ source.flags = 0 := by
  rcases copied with ⟨source', copy, sourceRead', copyRead, owner, low, high, back, flags⟩
  cases Option.some.inj (sourceRead.symm.trans sourceRead')
  constructor
  · rintro ⟨⟨source', copy', sourceRead', copyRead', same, sameFlags⟩, -⟩
    cases Option.some.inj (sourceRead.symm.trans sourceRead')
    cases Option.some.inj (copyRead.symm.trans copyRead')
    exact ⟨same.2.2.2 ▸ back, sameFlags ▸ flags⟩
  · rintro ⟨noMark, noFlags⟩
    have same : SameView source copy := ⟨owner, low, high, back.trans noMark.symm⟩
    refine ⟨⟨source, copy, sourceRead, copyRead, same, flags.trans noFlags.symm⟩, fun moves => ?_⟩
    exact navigate_same moves rfl sourceRead copyRead same

theorem later_all_match {rest copies : List BufId}
    (pairs : List.Forall₂ (LaterCopy heap) rest copies) :
    List.Forall₂ (Matches heap) rest copies ↔
      ∀ b ∈ rest, ∀ blk, heap.bufs.read b = some blk → blk.mark = null ∧ blk.flags = 0 := by
  induction pairs with
  | nil => simp
  | cons copied _ ih =>
      rcases id copied with ⟨source, _, sourceRead, _⟩
      rw [List.forall₂_cons, later_matches copied sourceRead, ih, List.forall_mem_cons]
      constructor
      · rintro ⟨here, later⟩
        refine ⟨fun blk present => ?_, later⟩
        cases Option.some.inj (sourceRead.symm.trans present)
        exact here
      · rintro ⟨here, later⟩
        exact ⟨here source sourceRead, later⟩

theorem made_indistinguishable_iff {this : BufId} {rest copies : List BufId} {flags : UInt32}
    {made : Heap × BufId} (result : Made heap this rest flags made copies) :
    Indistinguishable (this :: rest) made ↔ Plain heap this rest flags := by
  rcases result with ⟨kept, chain, ⟨source, copy, sourceRead, copyRead, same, copyFlags⟩, pairs⟩
  have first : Matches made.1 this made.2 ↔ source.flags = flags := by
    constructor
    · rintro ⟨⟨source', copy', sourceRead', copyRead', -, sameFlags⟩, -⟩
      cases Option.some.inj (sourceRead.symm.trans sourceRead')
      cases Option.some.inj (copyRead.symm.trans copyRead')
      exact sameFlags ▸ copyFlags
    · intro sourceFlags
      refine ⟨⟨source, copy, sourceRead, copyRead, same, copyFlags.trans sourceFlags.symm⟩,
        fun moves => ?_⟩
      exact navigate_same moves rfl sourceRead copyRead same
  have all : Indistinguishable (this :: rest) made ↔
      List.Forall₂ (Matches made.1) (this :: rest) (made.2 :: copies) := by
    constructor
    · rintro ⟨others, otherChain, matching⟩
      rw [chain_unique otherChain chain] at matching
      exact matching
    · exact fun matching => ⟨_, chain, matching⟩
  rw [all, List.forall₂_cons, first, later_all_match pairs, Plain]
  rw [kept this List.mem_cons_self] at sourceRead
  constructor
  · rintro ⟨here, later⟩
    refine ⟨fun blk present => ?_, fun b member blk present => later b member blk ?_⟩
    · cases Option.some.inj (sourceRead.symm.trans present)
      exact here
    · rw [kept b (List.mem_cons_of_mem _ member), present]
  · rintro ⟨here, later⟩
    refine ⟨here source sourceRead, fun b member blk present => later b member blk ?_⟩
    rw [← kept b (List.mem_cons_of_mem _ member), present]

theorem positioned_owned {ids : List BufId} (positioned : ∀ b ∈ ids, Positioned heap b) :
    ∀ b ∈ ids, Owned heap b := by
  intro b member
  rcases positioned b member with ⟨blk, m, mem, present, owner, memRead, _⟩
  exact ⟨blk, m, mem, present, owner, memRead⟩

/-- A copy is indistinguishable from its source just when the source is plain and `operator=`, which
has no defined end, is not the way it is made. Its statements make such a copy just of a plain
source as well. -/
theorem copy_indistinguishable_iff {this : BufId} {rest : List BufId} (way : Way)
    (linked : Chain heap.next (some this) (this :: rest))
    (positioned : ∀ b ∈ this :: rest, Positioned heap b)
    (unrelated : Unrelated heap (this :: rest) way) :
    ((∃ made, copyBy heap this way = some made ∧ Indistinguishable (this :: rest) made) ↔
      way.isAssign = false ∧ Plain heap this rest (headFlags heap way)) ∧
    ∃ made, copyBody heap this way = some made ∧
      (Indistinguishable (this :: rest) made ↔ Plain heap this rest (headFlags heap way)) := by
  rcases copy_body_made way linked (positioned_owned positioned) unrelated with ⟨made, copies,
    copied, result⟩
  have iff_plain := made_indistinguishable_iff result
  refine ⟨?_, made, copied, iff_plain⟩
  have returned : way.isAssign = false → copyBy heap this way = some made := by
    intro plain
    cases way with
    | duplicate => exact copied
    | construct => exact copied
    | assign target => cases plain
  constructor
  · rintro ⟨other, done, matching⟩
    have plain : way.isAssign = false := by
      cases way with
      | duplicate => rfl
      | construct => rfl
      | assign target => simp [copyBy] at done
    cases Option.some.inj ((returned plain).symm.trans done)
    exact ⟨plain, iff_plain.mp matching⟩
  · rintro ⟨plain, source⟩
    exact ⟨made, returned plain, iff_plain.mpr source⟩

theorem three_blocks_positioned : ∀ b ∈ [0, 1, 2], Positioned threeBlocks b := by
  intro b member
  simp only [List.mem_cons, List.not_mem_nil, or_false] at member
  rcases member with rfl | rfl | rfl
  · exact ⟨_, _, _, rfl, rfl, rfl, by decide, by decide, by decide⟩
  · exact ⟨_, _, _, rfl, rfl, rfl, by decide, by decide, by decide⟩
  · exact ⟨_, _, _, rfl, rfl, rfl, by decide, by decide, by decide⟩

theorem copy_indistinguishable_iff_three_blocks :
    ((∃ made, copyBy threeBlocks 0 .duplicate = some made ∧ Indistinguishable [0, 1, 2] made) ↔
      Way.duplicate.isAssign = false ∧ Plain threeBlocks 0 [1,
        2] (headFlags threeBlocks .duplicate)) ∧
    ∃ made, copyBody threeBlocks 0 .duplicate = some made ∧
      (Indistinguishable [0, 1, 2] made ↔ Plain threeBlocks 0 [1,
        2] (headFlags threeBlocks .duplicate)) :=
  copy_indistinguishable_iff .duplicate three_blocks_ok.linked three_blocks_positioned trivial

/-- The marks of the second and the third block are lost. -/
theorem copy_not_always_indistinguishable :
    ¬ ∀ (heap : Heap) (this : BufId) (rest : List BufId) (way : Way),
      Chain heap.next (some this) (this :: rest) → (∀ b ∈ this :: rest, Positioned heap b) →
      Unrelated heap (this :: rest) way →
      ∃ made, copyBy heap this way = some made ∧ Indistinguishable (this :: rest) made := by
  intro always
  rcases always threeBlocks 0 [1, 2] .duplicate three_blocks_ok.linked three_blocks_positioned
      trivial with
    ⟨made, copied, matching⟩
  rcases copy_body_made .duplicate three_blocks_ok.linked (positioned_owned three_blocks_positioned)
      trivial with
    ⟨other, copies, same, result⟩
  cases Option.some.inj (copied.symm.trans same)
  have plain := (made_indistinguishable_iff result).mp matching
  have lost := (plain.2 1 (by simp) _ rfl).1
  exact absurd lost (by decide)

example : ((BufBlkCopy.duplicate threeBlocks 0).bind fun made =>
    navigate made.1 4 [.rewind 0, .rdPtr]) =
    some [none, some 0] := by decide

example : navigate threeBlocks 1 [.rewind 0, .rdPtr] = some [none, some 200] := by decide

end TWlib.BufBlkNavigate
