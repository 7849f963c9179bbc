import TWlib.BufBlkOwnership
import TWlib.Lib.Outcome

/-!
# Copies and slices of owned chains

`duplicate`, `operator=`, `deepCopy` and `getContigBlock` make new blocks one by
one behind a block that is last on its chain. Each of the loops is followed by
induction over the chain it walks along, with `Good` as the invariant.
-/

namespace TWlib.BufBlkOwnershipCopy

open TWlib.Lib.CellStore TWlib.Lib.LinkedChain TWlib.Lib.ChainForest TWlib.Lib.Outcome
open TWlib.BufBlkHeap TWlib.BufBlkChain TWlib.BufBlkView TWlib.BufBlkCount TWlib.BufBlkCopy
open TWlib.BufBlkContig TWlib.BufBlkSeek TWlib.BufBlkOwnership

set_option autoImplicit false

variable {tidy : Prop} {heap after : Heap} {chains others : List (List BufId)}
  {ids pre tail source : List BufId} {bare start : Option BufId} {b o this walk out : BufId}
  {blk old : BufBlk} {m : MemId} {mem : MemBlk}

/-! ## Sharing: `duplicate` and `operator=` -/

theorem next_of_same {c : BufId} (same : after.bufs.read c = heap.bufs.read c) :
    after.next c = heap.next c := by
  simp only [Heap.next, same]

theorem chain_same (chain : Chain heap.next start source)
    (same : ∀ c ∈ source, after.bufs.read c = heap.bufs.read c) : Chain after.next start source :=
  chain_frame chain fun c member => next_of_same (same c member)

theorem chain_not_fresh (chain : Chain heap.next start source) : heap.bufs.fresh ∉ source := by
  intro member
  rcases segment_exists chain _ member with ⟨follow, step⟩
  rw [next_fresh] at step
  cases step

theorem good_copy_chain (fuel : Nat) (good : Good tidy heap ((pre ++ [walk]) :: others) none)
    (chain : Chain heap.next start source) (apart : walk ∉ source) (enough : source.length ≤ fuel) :
    ∃ after copies, copyChain fuel heap walk start = some after ∧
      Good tidy after ((pre ++ walk :: copies) :: others) none := by
  induction source generalizing fuel heap pre walk start with
  | nil =>
      have empty : start = none := chain
      subst empty
      exact ⟨heap, [], by cases fuel <;> rfl, good⟩
  | cons b rest ih =>
      have fresh := chain_not_fresh chain
      rcases chain with ⟨rfl, follow, step, tail⟩
      rcases read_of_next step with ⟨o, oRead, rfl⟩
      rw [List.mem_cons, not_or] at apart fresh
      cases fuel with
      | zero => simp at enough
      | succ fuel =>
          simp only [List.length_cons, Nat.add_le_add_iff_right] at enough
          rcases good_block good oRead (by simp) with ⟨m, mem, owner, memRead, bounds⟩
          rcases good_share good memRead with ⟨shared, made, sharedGood, copyRead,
            sharedSame, sharedMem⟩
          have walkOld : walk ≠ heap.bufs.fresh :=
            Nat.ne_of_lt (good_alive good walk (by simp))
          rcases good_link (good_perm sharedGood (List.Perm.swap _ _ _)) with
            ⟨linked, linkStep, linkedGood, linkedSame, linkedMems⟩
          have copyLinked := (linkedSame _ (Ne.symm walkOld)).trans copyRead
          let copied : BufBlk := ⟨some m, o.rdPtr, o.wrPtr, null, none, 0⟩
          let placed := linked.putBuf heap.bufs.fresh copied
          have copiedOk : tidy → BlockOk placed heap.bufs.fresh := by
            intro kept
            refine ⟨copied, by rw [read_put_buf copyLinked, if_pos rfl],
              { mem with refCount := mem.refCount + 1 },
              ?_, bounds kept⟩
            rw [put_buf_mems, linkedMems, sharedMem]
          have placedGood := good_put_buf linkedGood copyLinked copied rfl rfl copiedOk
          have regroup : pre ++ walk :: [heap.bufs.fresh] = (pre ++ [walk]) ++
            [heap.bufs.fresh] := by simp
          rw [regroup] at placedGood
          have tailSame : ∀ c ∈ rest, placed.bufs.read c = heap.bufs.read c := by
            intro c member
            have notWalk : c ≠ walk := fun same => apart.2 (same ▸ member)
            have notFresh : c ≠ heap.bufs.fresh := fun same => fresh.2 (same ▸ member)
            rw [read_put_buf copyLinked, if_neg notFresh, linkedSame c notWalk,
              sharedSame c notFresh]
          rcases ih fuel placedGood (chain_same tail tailSame) fresh.2 enough with
            ⟨after, copies, ran, afterGood⟩
          refine ⟨after, heap.bufs.fresh :: copies, ?_, by simpa using afterGood⟩
          simp only [copyChain, oRead, owner, made, linkStep, copyLinked, Option.bind_eq_bind,
            Option.bind_some]
          exact ran

/-- `operator=` before it assigns: what follows `this` is gone, and so is the reference that
`this` still holds. -/
theorem release_held (good : Good tidy heap ((pre ++ this :: tail) :: others) none)
    (mineRead : heap.bufs.read this = some blk) (owner : blk.blk = some m) :
    ∃ after, (heap.releaseOpt blk.nextblk).bind (fun heap => heap.releaseOptMem blk.blk) =
      some after ∧
      Counted after (fun other => -reference (some m) other) ∧ SamePlaces heap after ∧
      ∀ c, after.bufs.read c = if c ∈ tail then none else heap.bufs.read c := by
  have chain := forest_chain_from good.forest (show pre ++ this :: tail ∈ _ by simp)
  have nodup := chain_nodup chain
  rcases chain with ⟨-, follow, step, behind⟩
  cases Option.some.inj (step.symm.trans (next_of_read mineRead))
  have alive : ∀ c ∈ tail, c < heap.bufs.fresh :=
    fun c member => good_alive good c (by simp [member])
  have tailNodup := chain_nodup behind
  rcases release_opt_chain behind (counted_backed tailNodup alive good.counted) with
    ⟨cut, cutStep, effect⟩
  have cutCounted := counted_released tailNodup alive effect good.counted
  have mineCut : cut.bufs.read this = some blk := by
    rw [effect.bufs, if_neg (List.nodup_cons.mp nodup).1, mineRead]
  have used : 0 < liveUsers cut m :=
    count_pos_of_read (fun blk : BufBlk => decide (blk.blk = some m)) mineCut (by simp [owner])
  cases memRead : cut.mems.read m with
  | none =>
      have unused := counted_none cutCounted memRead
      omega
  | some mem =>
      have shift : ∀ other, -reference (some m) other + reference (some m) other = 0 :=
        fun other => by omega
      rcases counted_release_mem memRead cutCounted shift with
        ⟨after, released, sameBufs, otherMems, ownMem, counted⟩
      refine ⟨after, ?_, counted, same_places_trans (released_places effect) ?_, fun c => ?_⟩
      · rw [cutStep, Option.bind_some, owner]
        exact released
      · intro other now left
        by_cases same : other = m
        · subst same
          rw [ownMem now left]
          exact ⟨mem, memRead, rfl, rfl⟩
        · exact ⟨now, (otherMems other same).symm.trans left, rfl, rfl⟩
      · rw [sameBufs, effect.bufs]

theorem same_places_checkout (present : heap.mems.read m = some mem) :
    SamePlaces heap (heap.putMem m { mem with refCount := mem.refCount + 1 }) := by
  intro other now left
  rw [put_mem_mems, read_write present] at left
  split_ifs at left with same
  · cases left
    exact ⟨mem, same ▸ present, rfl, rfl⟩
  · exact ⟨now, left, rfl, rfl⟩

theorem referred_left {mine : BufBlk} {m₀ m₁ : MemId}
    (counted : Counted after fun other => -reference (some m₀) other)
    (mineRead : after.bufs.read this = some mine) (mineBlk : mine.blk = some m₀)
    (oRead : after.bufs.read o = some blk) (oBlk : blk.blk = some m₁) (apart : o ≠ this) :
    ∃ mem, after.mems.read m₁ = some mem := by
  have both : [this, o].Nodup := by simpa using Ne.symm apart
  have alive : ∀ c ∈ [this, o], c < after.bufs.fresh := by
    intro c member
    rcases List.mem_pair.mp member with rfl | rfl
    · exact read_bound mineRead
    · exact read_bound oRead
  have usersLe := users_le_live after both alive m₁
  simp only [users_cons, Heap.memOf, mineRead, oRead, Option.bind_some, mineBlk, oBlk] at usersLe
  cases memRead : after.mems.read m₁ with
  | some mem => exact ⟨mem, rfl⟩
  | none =>
      have unused := counted_none counted memRead
      simp only [reference, if_true, users] at unused usersLe
      split_ifs at unused usersLe <;> omega

/-- `operator=` up to the copied chain: `this` loses what follows it and takes over the fields
of `o`, which is on another chain. -/
theorem good_overwrite (good : Good tidy heap ((pre ++ this :: tail) :: others) none)
    (oRead : heap.bufs.read o = some blk) (outside : o ∈ others.flatten) :
    ∃ mine after counted, heap.bufs.read this = some mine ∧
      (heap.releaseOpt mine.nextblk).bind (fun heap => heap.releaseOptMem mine.blk) = some after ∧
      checkoutOpt after blk.blk = some counted ∧ counted.bufs = after.bufs ∧
      (∀ c, after.bufs.read c = if c ∈ tail then none else heap.bufs.read c) ∧
      Good tidy (counted.putBuf this { mine with
        blk := blk.blk, nextblk := none, rdPtr := blk.rdPtr, wrPtr := blk.wrPtr, mark := blk.mark })
        ((pre ++ [this]) :: others) none := by
  have chain := forest_chain_from good.forest (show pre ++ this :: tail ∈ _ by simp)
  have tailOutside : this ∉ tail := (List.nodup_cons.mp (chain_nodup chain)).1
  have oApart : o ∉ pre ++ this :: tail := fun member => forest_apart good.forest member outside
  simp only [List.mem_append, List.mem_cons, not_or] at oApart
  rcases chain with ⟨-, follow, step, -⟩
  rcases read_of_next step with ⟨mine, mineRead, rfl⟩
  rcases good_block good mineRead (by simp) with ⟨m₀, -, mineBlk, -, -⟩
  rcases good_block good oRead (by simp) with ⟨m₁, -, oBlk, -, -⟩
  rcases release_held good mineRead mineBlk with ⟨after, released, afterCounted, afterPlaces, reads⟩
  have mineAfter : after.bufs.read this = some mine := by rw [reads, if_neg tailOutside, mineRead]
  have oAfter : after.bufs.read o = some blk := by rw [reads, if_neg oApart.2.2, oRead]
  rcases referred_left afterCounted mineAfter mineBlk oAfter oBlk oApart.2.1 with ⟨mem₁, memAfter⟩
  let taken : BufBlk := { mine with
    blk := blk.blk, nextblk := none, rdPtr := blk.rdPtr, wrPtr := blk.wrPtr, mark := blk.mark }
  let counted := after.putMem m₁ { mem₁ with refCount := mem₁.refCount + 1 }
  have countedRead : counted.bufs.read this = some mine := mineAfter
  have countedNow : Counted (counted.putBuf this taken) fun _ => 0 := by
    have shared : Counted counted fun m => -reference (some m₀) m + reference (some m₁) m :=
      counted_checkout memAfter afterCounted fun m => rfl
    apply counted_put_buf countedRead taken shared
    intro m
    simp only [taken, oBlk, mineBlk]
    omega
  have places : SamePlaces heap (counted.putBuf this taken) :=
    same_places_trans afterPlaces (same_places_checkout memAfter)
  have kept : ∀ c, c ≠ this → (counted.putBuf this taken).bufs.read c =
      if c ∈ tail then none else heap.bufs.read c := by
    intro c different
    rw [read_put_buf countedRead, if_neg different]
    exact reads c
  refine ⟨mine, after, counted, mineRead, released, ?_, rfl, reads, countedNow, ?_, ?_⟩
  · rw [oBlk]
    exact checkout_eq memAfter
  · apply forest_cut good.forest
    · intro c member
      have different : c ≠ this := fun equal => tailOutside (equal ▸ member)
      have gone := (kept c different).trans (if_pos member)
      exact congrArg (Option.map BufBlk.nextblk) gone
    · rw [next_put_buf countedRead, if_pos rfl]
    · exact fun c different notTail => next_of_same ((kept c different).trans (if_neg notTail))
  · intro c now read
    by_cases same : c = this
    · subst same
      rw [read_put_buf countedRead, if_pos rfl] at read
      cases read
      have oKept := (kept o oApart.2.1).trans (if_neg oApart.2.2)
      refine ⟨fun inOrder => ?_, fun _ => ⟨m₁, oBlk⟩⟩
      rcases kept_inside countedNow places oKept ((good.inside o blk oRead).1 inOrder) with
        ⟨again, againRead, inside⟩
      cases Option.some.inj (oRead.symm.trans (oKept.symm.trans againRead))
      exact ⟨taken, by rw [read_put_buf countedRead, if_pos rfl], inside⟩
    · have notTail : c ∉ tail := by
        intro member
        rw [kept c same, if_pos member] at read
        cases read
      have known := (kept c same).trans (if_neg notTail)
      rcases good.inside c now (known.symm.trans read) with ⟨ok, backed⟩
      exact ⟨fun inOrder => kept_inside countedNow places known (ok inOrder), backed⟩

theorem good_assign {front rest : List BufId}
    (good : Good tidy heap ((pre ++ this :: tail) :: others) none)
    (member : front ++ o :: rest ∈ others) :
    ∃ after copies, assignBody heap this o = some after ∧
      Good tidy after ((pre ++ this :: copies) :: others) none := by
  have chain := forest_chain_from good.forest (List.mem_cons_of_mem (pre ++ this :: tail) member)
  have onOthers : ∀ c ∈ o :: rest, c ∈ others.flatten := fun c inside =>
    List.mem_flatten.mpr ⟨_, member, List.mem_append_right _ inside⟩
  have apart : ∀ c ∈ o :: rest, c ≠ this ∧ c ∉ tail := by
    intro c inside
    have outside : c ∉ pre ++ this :: tail := fun also =>
      forest_apart good.forest also (onOthers c inside)
    simp only [List.mem_append, List.mem_cons, not_or] at outside
    exact outside.2
  rcases chain with ⟨-, follow, step, behind⟩
  rcases read_of_next step with ⟨source, sourceRead, rfl⟩
  rcases good_overwrite good sourceRead (onOthers o (by simp)) with
    ⟨mine, after, counted, mineRead, released, checkedOut, sameBufs, reads, overwritten⟩
  have afterSame : ∀ c ∈ o :: rest, after.bufs.read c = heap.bufs.read c := by
    intro c inside
    rw [reads, if_neg (apart c inside).2]
  have countedMine : counted.bufs.read this = some mine := by
    have notTail : this ∉ tail := (List.nodup_cons.mp (chain_nodup
      (forest_chain_from good.forest (show pre ++ this :: tail ∈ _ by simp)))).1
    rw [sameBufs, reads, if_neg notTail, mineRead]
  let taken : BufBlk := { mine with
    blk := source.blk, nextblk := none, rdPtr := source.rdPtr, wrPtr := source.wrPtr, mark :=
      source.mark }
  have placedSame : ∀ c ∈ o :: rest, (counted.putBuf this taken).bufs.read c =
      heap.bufs.read c := by
    intro c inside
    rw [read_put_buf countedMine, if_neg (apart c inside).1, sameBufs, afterSame c inside]
  have placedChain : Chain (counted.putBuf this taken).next source.nextblk rest :=
    chain_same behind fun c inside => placedSame c (List.mem_cons_of_mem _ inside)
  have enough : rest.length ≤ after.bufs.fresh := by
    have bound := chain_bound placedChain
    rw [put_buf_bufs, fresh_write, sameBufs] at bound
    exact bound
  have notRest : this ∉ rest := fun inside => (apart this (by simp [inside])).1 rfl
  rcases good_copy_chain after.bufs.fresh overwritten placedChain notRest enough with
    ⟨final, copies, ran, finalGood⟩
  refine ⟨final, copies, ?_, finalGood⟩
  have sourceAfter := (afterSame o (by simp)).trans sourceRead
  have assigned : assignFromBlk after this o = some final := by
    rw [assign_from_blk_eq sourceAfter checkedOut countedMine (sameBufs ▸ sourceAfter)
      (apart o (by simp)).1]
    exact ran
  have unfolded : assignBody heap this o = ((heap.releaseOpt mine.nextblk).bind fun heap =>
      heap.releaseOptMem mine.blk).bind fun heap => assignFromBlk heap this o := by
    simp only [assignBody, mineRead, Option.bind_eq_bind, Option.bind_some, Option.bind_assoc]
  rw [unfolded, released, Option.bind_some, assigned]

theorem good_duplicate (good : Good tidy heap chains none) (member : pre ++ b :: tail ∈ chains) :
    ∃ after copies, duplicate heap b = some (after, heap.bufs.fresh) ∧
      Good tidy after ((heap.bufs.fresh :: copies) :: chains) none := by
  have chain := forest_chain_from good.forest member
  have freshOutside := chain_not_fresh chain
  have enough := chain_bound chain
  rcases chain with ⟨-, follow, step, behind⟩
  rcases read_of_next step with ⟨source, present, rfl⟩
  rw [List.mem_cons, not_or] at freshOutside
  rcases good_block good present (by simp) with ⟨m, mem, owner, memRead, bounds⟩
  let copied : BufBlk := { source with nextblk := none, flags := 0 }
  let placed := ((heap.putMem m { mem with refCount := mem.refCount + 1 }).pushBuf copied).1
  have placedGood : Good tidy placed (([] ++ [heap.bufs.fresh]) :: chains) none :=
    good_share_block good memRead owner rfl bounds
  have placedSame : ∀ c, c ≠ heap.bufs.fresh → placed.bufs.read c = heap.bufs.read c := by
    intro c different
    exact (read_push _ _ c).trans (if_neg different)
  have chainPlaced : Chain placed.next source.nextblk tail :=
    chain_same behind fun c inside => placedSame c fun same => freshOutside.2 (same ▸ inside)
  have length : tail.length ≤ heap.bufs.fresh + 1 := by
    simp only [List.length_cons] at enough
    omega
  rcases good_copy_chain (heap.bufs.fresh + 1) placedGood chainPlaced freshOutside.2 length with
    ⟨after, copies, ran, afterGood⟩
  refine ⟨after, copies, ?_, afterGood⟩
  rw [duplicate, new_buf_blk_copy_eq present owner memRead]
  exact congrArg (Option.map fun after => (after, heap.bufs.fresh)) ran

/-! ## New MemBlks: `deepCopy` -/

theorem store_kept {now : MemBlk} {dst : Int} {data : List Byte}
    (stored : mem.store dst data = some now) :
    now.refCount = mem.refCount ∧ now.base = mem.base ∧ now.size = mem.size ∧
      dst + data.length ≤ mem.base + mem.size := by
  unfold MemBlk.store at stored
  split_ifs at stored with holds
  rcases holds with ⟨low, -, high⟩
  cases stored
  refine ⟨rfl, rfl, ?_, high⟩
  simp only [MemBlk.size] at high ⊢
  simp only [List.length_append, List.length_take, List.length_drop]
  omega

theorem deep_copy_mem_yields (alloc : Alloc) (memRead : heap.mems.read m = some mem) :
    Yields alloc.Succeeds (Heap.deepCopyMem alloc heap m) fun copied =>
      ∃ new, copied = ((heap.pushMem new).1, heap.mems.fresh) ∧ new.refCount = 1 ∧
        new.bytes = mem.bytes := by
  rcases new_mem_blk_read alloc heap mem.size with ⟨fresh, made, single, small⟩
  have freshRead := push_mem_read heap fresh
  have unfolded : Heap.deepCopyMem alloc heap m = (fresh.store fresh.base mem.bytes).bind
      fun filled =>
      some ((heap.pushMem filled).1, heap.mems.fresh) := by
    simp only [Heap.deepCopyMem, memRead, Option.bind_eq_bind, Option.bind_some, made]
    change ((heap.pushMem fresh).1.mems.read heap.mems.fresh).bind _ = _
    rw [freshRead, Option.bind_some]
    congr 1
    funext filled
    have rewritten : (heap.pushMem fresh).1.putMem heap.mems.fresh filled =
        (heap.pushMem filled).1 := by
      simp only [Heap.putMem, Heap.pushMem, push_write]
    exact congrArg (fun heap' => some (heap', heap.mems.fresh)) rewritten
  have filledYields : Yields alloc.Succeeds (fresh.store fresh.base mem.bytes) fun filled =>
      filled.refCount = 1 ∧ filled.bytes = mem.bytes := by
    refine ⟨fun succeeds => ?_, fun filled stored => ?_⟩
    · rcases new_mem_blk_succeeds succeeds heap mem.bytes.length with ⟨known, knownMade, length⟩
      have same : fresh = known := by
        have equal := congrArg (fun pushed => pushed.1.mems.read heap.mems.fresh)
          (made.symm.trans knownMade)
        simpa [push_mem_read] using equal
      subst same
      have holds : fresh.Holds fresh.base mem.bytes.length := by
        simp only [MemBlk.Holds, MemBlk.size]
        omega
      simp [MemBlk.store, holds]
    · rcases store_kept stored with ⟨sameCount, sameBase, sameSize, fits⟩
      refine ⟨sameCount.trans single, ?_⟩
      unfold MemBlk.store at stored
      split_ifs at stored with holds
      cases stored
      simp only [MemBlk.size, Int.toNat_natCast] at small fits
      have exact_ : fresh.bytes.length ≤ mem.bytes.length := small
      simp [exact_]
  rw [unfolded]
  refine yields_bind filledYields ?_
  rintro filled ⟨count, fits⟩
  exact yields_some ⟨filled, rfl, count, fits⟩

theorem good_deep_copy_block (alloc : Alloc)
    (good : Good tidy heap chains (some walk)) (bareRead : heap.bufs.read walk = some old)
    (noBlk : old.blk = none) (oRead : heap.bufs.read o = some blk) (different : o ≠ walk) :
    Yields alloc.Succeeds (deepCopyBlock alloc heap walk o) fun after =>
      Good tidy after chains none ∧ ∀ c, c ≠ walk → after.bufs.read c = heap.bufs.read c := by
  rcases good_block good oRead (by simp [Ne.symm different]) with ⟨m, mem, owner, memRead, bounds⟩
  simp only [deepCopyBlock, oRead, owner, Option.bind_eq_bind, Option.bind_some]
  refine yields_bind (deep_copy_mem_yields alloc memRead) ?_
  rintro copied ⟨new, rfl, single, sameBytes⟩
  let made : BufBlk := { old with
    blk := some heap.mems.fresh, flags := blk.flags, rdPtr := new.base + (blk.rdPtr - mem.base),
    wrPtr := new.base + (blk.wrPtr - mem.base), mark := new.base + (blk.mark - mem.base) }
  let pushed := (heap.pushMem new).1
  have ext : Extends heap pushed := extends_push_mem (extends_refl heap) new
  have memPushed : pushed.mems.read m = some mem := read_push_of_present memRead new
  have newRead : pushed.mems.read heap.mems.fresh = some new := push_mem_read heap new
  have barePushed : pushed.bufs.read walk = some old := bareRead
  change Yields _ ((pushed.mems.read m).bind _) _
  rw [memPushed, Option.bind_some]
  change Yields _ ((pushed.mems.read heap.mems.fresh).bind _) _
  rw [newRead, Option.bind_some]
  change Yields _ ((pushed.bufs.read walk).bind _) _
  rw [barePushed, Option.bind_some]
  have sameReads : ∀ c, c ≠ walk → (pushed.putBuf walk made).bufs.read c = heap.bufs.read c := by
    intro c notWalk
    rw [read_put_buf barePushed, if_neg notWalk]
    rfl
  refine yields_some ⟨⟨?_, ?_, ?_⟩, sameReads⟩
  · have counted : Counted pushed fun other => reference (some heap.mems.fresh) other :=
      counted_push_mem good.counted new single fun other => by simp
    apply counted_put_buf barePushed made counted
    intro other
    simp only [made, noBlk, reference, reduceCtorEq, if_false]
    omega
  · apply forest_frame good.forest
    intro c
    rw [next_put_buf barePushed]
    split_ifs with same
    · rw [same, next_of_read bareRead]
    · rfl
  · intro c now read
    by_cases same : c = walk
    · subst same
      rw [read_put_buf barePushed, if_pos rfl] at read
      cases read
      refine ⟨fun kept => ⟨made, by rw [read_put_buf barePushed, if_pos rfl], new, newRead, ?_⟩,
        fun _ => ⟨_, rfl⟩⟩
      have inside := bounds kept
      have sameSize : new.size = mem.size := congrArg (fun bytes => (bytes.length : Int)) sameBytes
      simp only [made]
      omega
    · have known := (sameReads c same).symm.trans read
      rcases good.inside c now known with ⟨ok, backed⟩
      have agree : Agree pushed (pushed.putBuf walk made) c := put_buf_agree barePushed made same
      exact ⟨fun kept => agree_block_ok agree (extends_block_ok ext (ok kept)),
        fun _ => backed (by simp [Ne.symm same])⟩

/-- `BufBlk::BufBlk()`. -/
theorem good_push_bare (good : Good tidy heap chains none) :
    Good tidy (Heap.newBufBlk heap).1 ([heap.bufs.fresh] :: chains) (some heap.bufs.fresh) := by
  let blank : BufBlk := ⟨none, null, null, null, none, 0⟩
  have made : (heap.pushBuf blank).1.bufs.read heap.bufs.fresh = some blank :=
    push_buf_read heap blank
  have forest : Forest heap.next ([] ++ chains) := good.forest
  refine ⟨counted_push_buf blank good.counted fun m => by simp [blank, reference], ?_, ?_⟩
  · apply forest_make forest rfl rfl (next_fresh heap)
    · exact (next_push_buf _ _ heap.bufs.fresh).trans (if_pos rfl)
    · intro c different
      exact (next_push_buf _ _ c).trans (if_neg different)
  · intro c now read
    by_cases same : c = heap.bufs.fresh
    · subst same
      refine ⟨fun _ => ⟨blank, made, rfl⟩, fun notBare => absurd rfl notBare⟩
    · have known : heap.bufs.read c = some now :=
        ((read_push _ _ c).trans (if_neg same)).symm.trans read
      rcases good.inside c now known with ⟨ok, backed⟩
      exact ⟨fun kept => extends_block_ok (extends_push_buf (extends_refl heap) blank) (ok kept),
        fun _ => backed (by simp)⟩

theorem good_deep_copy_loop (alloc : Alloc) (fuel : Nat)
    (good : Good tidy heap ((pre ++ [walk]) :: others) (some walk))
    (bareRead : heap.bufs.read walk = some old) (noBlk : old.blk = none)
    (chain : Chain heap.next (some o) source) (apart : walk ∉ source)
    (enough : source.length ≤ fuel) :
    Yields alloc.Succeeds (deepCopyLoop alloc fuel heap walk o) fun after =>
      ∃ copies, Good tidy after ((pre ++ walk :: copies) :: others) none := by
  induction source generalizing fuel heap pre walk old o with
  | nil => simp at chain
  | cons first rest ih =>
      rcases chain with ⟨same, follow, step, tail⟩
      cases Option.some.inj same
      rcases read_of_next step with ⟨blk, oRead, rfl⟩
      rw [List.mem_cons, not_or] at apart
      cases fuel with
      | zero => simp at enough
      | succ fuel =>
          simp only [List.length_cons, Nat.add_le_add_iff_right] at enough
          refine yields_bind (good_deep_copy_block alloc good bareRead noBlk oRead
            (Ne.symm apart.1)) ?_
          rintro filled ⟨filledGood, filledSame⟩
          have firstFilled := (filledSame first (Ne.symm apart.1)).trans oRead
          have tailFilled : Chain filled.next blk.nextblk rest :=
            chain_same tail fun c member => filledSame c fun same => apart.2 (same ▸ member)
          rw [firstFilled]
          simp only [Option.bind_eq_bind, Option.bind_some]
          cases follows : blk.nextblk with
          | none => exact yields_some ⟨[], filledGood⟩
          | some later =>
              rw [follows] at tailFilled
              rcases good_link (good_perm (good_push_bare filledGood) (List.Perm.swap _ _ _)) with
                ⟨linked, linkStep, linkedGood, linkedSame, -⟩
              have walkOld : walk ≠ filled.bufs.fresh :=
                Nat.ne_of_lt (good_alive filledGood walk (by simp))
              have fresh := chain_not_fresh tailFilled
              have madeRead := (linkedSame _ (Ne.symm walkOld)).trans
                (push_buf_read filled ⟨none, null, null, null, none, 0⟩)
              have tailLinked : Chain linked.next (some later) rest := by
                apply chain_same tailFilled
                intro c member
                have notWalk : c ≠ walk := fun same => apart.2 (same ▸ member)
                have notFresh : c ≠ filled.bufs.fresh := fun same => fresh (same ▸ member)
                exact (linkedSame c notWalk).trans ((read_push _ _ c).trans (if_neg notFresh))
              have regroup : pre ++ walk :: [filled.bufs.fresh] = (pre ++ [walk]) ++
                  [filled.bufs.fresh] := by
                simp
              rw [regroup] at linkedGood
              change Yields _ ((Heap.setNexblk _ walk (some filled.bufs.fresh)).bind _) _
              rw [linkStep, Option.bind_some]
              apply yields_mono (ih fuel linkedGood madeRead rfl tailLinked fresh enough)
              rintro after ⟨copies, afterGood⟩
              exact ⟨filled.bufs.fresh :: copies, by simpa using afterGood⟩

theorem good_deep_copy (alloc : Alloc) (good : Good tidy heap chains none)
    (member : pre ++ b :: tail ∈ chains) :
    Yields alloc.Succeeds (deepCopy alloc heap b) fun made =>
      ∃ copies, Good tidy made.1 ((heap.bufs.fresh :: copies) :: chains) none := by
  have chain := forest_chain_from good.forest member
  have fresh := chain_not_fresh chain
  have pushed : Good tidy (Heap.newBufBlk heap).1 (([] ++ [heap.bufs.fresh]) :: chains)
      (some heap.bufs.fresh) := good_push_bare good
  have chainPushed : Chain (Heap.newBufBlk heap).1.next (some b) (b :: tail) := by
    apply chain_same chain
    intro c inside
    have notFresh : c ≠ heap.bufs.fresh := fun same => fresh (same ▸ inside)
    exact (read_push _ _ c).trans (if_neg notFresh)
  refine yields_bind (good_deep_copy_loop alloc heap.bufs.fresh pushed
    (push_buf_read heap ⟨none, null, null, null, none, 0⟩) rfl chainPushed fresh
    (chain_bound chain)) ?_
  rintro after ⟨copies, afterGood⟩
  exact yields_some ⟨copies, afterGood⟩

end TWlib.BufBlkOwnershipCopy
