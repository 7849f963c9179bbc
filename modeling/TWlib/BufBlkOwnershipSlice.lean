import TWlib.BufBlkOwnershipCopy

/-!
# Filling blocks and slicing owned chains

`copyFrom` and the setting of positions change one block and the bytes of its
MemBlk. `getContigBlock` makes one more block, over the MemBlk of another one or
over its own; a call it refuses can have made that block already.
-/

namespace TWlib.BufBlkOwnershipSlice

open TWlib.Lib.CellStore TWlib.Lib.LinkedChain TWlib.Lib.ChainForest TWlib.Lib.Outcome
open TWlib.BufBlkHeap TWlib.BufBlkChain TWlib.BufBlkView TWlib.BufBlkCount TWlib.BufBlkContig
open TWlib.BufBlkSeek TWlib.BufBlkOwnership TWlib.BufBlkOwnershipCopy

set_option autoImplicit false

variable {tidy : Prop} {heap after : Heap} {chains others : List (List BufId)}
  {ids pre tail source : List BufId} {start : Option BufId} {b out : BufId} {blk old : BufBlk}
  {m : MemId} {mem : MemBlk}

theorem next_fill {filled : MemBlk} (present : heap.bufs.read b = some blk) (high : Int)
    (c : BufId) :
    ((heap.putMem m filled).putBuf b { blk with wrPtr := high }).next c = heap.next c := by
  have still : (heap.putMem m filled).bufs.read b = some blk := present
  rw [next_put_buf still]
  split_ifs with same
  · rw [same, next_of_read present]
  · rfl

theorem good_copy_from (good : Good tidy heap chains none) (present : heap.bufs.read b = some blk)
    (src : List Byte) : Yields tidy (heap.copyFrom b src) fun done =>
      Good tidy done.1 chains none ∧ ∀ c, done.1.next c = heap.next c := by
  rcases good_block good present (by simp) with ⟨m, mem, owner, memRead, bounds⟩
  simp only [Heap.copyFrom, present, owner, memRead, Option.bind_eq_bind, Option.bind_some]
  obtain ⟨s, sEq⟩ : ∃ s, s = (if Heap.freespace mem blk < src.length then Heap.freespace mem blk
    else (src.length : Int)) := ⟨_, rfl⟩
  rw [← sEq]
  split_ifs with nonneg
  · have filledYields : Yields tidy (mem.store blk.wrPtr (src.take s.toNat)) fun filled =>
        filled.refCount = mem.refCount ∧ filled.base = mem.base ∧ filled.size = mem.size := by
      refine ⟨fun kept => ?_, fun filled stored => ?_⟩
      · have inside := bounds kept
        have holds : mem.Holds blk.wrPtr (src.take s.toNat).length := by
          simp only [Heap.freespace] at sEq
          simp only [MemBlk.Holds, List.length_take]
          split_ifs at sEq <;> omega
        rw [MemBlk.store, if_pos holds]
        rfl
      · rcases store_kept stored with ⟨sameCount, sameBase, sameSize, -⟩
        exact ⟨sameCount, sameBase, sameSize⟩
    refine yields_bind filledYields ?_
    rintro filled ⟨sameCount, sameBase, sameSize⟩
    let moved : BufBlk := { blk with wrPtr := blk.wrPtr + s }
    have still : (heap.putMem m filled).bufs.read b = some blk := present
    have filledGood := good_put_mem good memRead filled sameCount sameBase sameSize
    have movedGood : Good tidy ((heap.putMem m filled).putBuf b moved) chains none := by
      apply good_put_buf filledGood still moved (by rfl) (by rfl)
      intro kept
      have inside := bounds kept
      refine ⟨moved, by rw [read_put_buf still, if_pos rfl], ?_⟩
      simp only [moved, owner]
      refine ⟨filled, by simp [read_write memRead], ?_⟩
      rw [sameBase, sameSize]
      simp only [Heap.freespace] at sEq
      split_ifs at sEq <;> omega
    have same : moved = { blk with blk := some m, wrPtr := blk.wrPtr + s } := by
      simp only [moved, owner]
    rw [← same]
    exact yields_some ⟨movedGood, next_fill present _⟩
  · refine yields_none fun kept => ?_
    have inside := bounds kept
    simp only [Heap.freespace] at sEq
    split_ifs at sEq <;> omega

def setPositions (heap : Heap) (b : BufId) (rdPtr wrPtr mark : Int) : Option Heap := do
  let blk ← heap.bufs.read b
  some (heap.putBuf b { blk with rdPtr, wrPtr, mark })

def Placeable (heap : Heap) (b : BufId) (rdPtr wrPtr : Int) : Prop :=
  ∀ m mem, heap.memOf b = some m → heap.mems.read m = some mem →
    mem.base ≤ rdPtr ∧ rdPtr ≤ wrPtr ∧ wrPtr ≤ mem.base + mem.size

theorem good_set_positions {rdPtr wrPtr : Int} (good : Good tidy heap chains none)
    (present : heap.bufs.read b = some blk) (mark : Int)
    (careful : tidy → Placeable heap b rdPtr wrPtr) :
    ∃ after, setPositions heap b rdPtr wrPtr mark = some after ∧ Good tidy after chains none := by
  rcases good_block good present (by simp) with ⟨m, mem, owner, memRead, -⟩
  let moved : BufBlk := { blk with rdPtr, wrPtr, mark }
  refine ⟨heap.putBuf b moved, by simp [setPositions, present, moved], ?_⟩
  apply good_put_buf good present moved (by rfl) (by rfl)
  intro kept
  refine ⟨moved, by rw [read_put_buf present, if_pos rfl], ?_⟩
  simp only [moved, owner]
  exact ⟨mem, memRead, careful kept m mem (by simp [Heap.memOf, present, owner]) memRead⟩

/-! ## `getContigBlock` -/

theorem bytes_at_yields {skip count : Int} (good : Good tidy heap chains none)
    (present : heap.bufs.read b = some blk) (nonneg : tidy → 0 ≤ skip ∧ 0 ≤ count)
    (fits : skip + count ≤ blk.length) :
    Yields tidy (bytesAt heap blk (blk.rdPtr + skip) count) fun _ => True := by
  refine ⟨fun kept => ?_, fun _ _ => trivial⟩
  have inside := (good.inside b blk present).1 kept
  rcases block_ok_bytes inside with ⟨same, again, -, length⟩
  cases Option.some.inj (present.symm.trans again)
  rcases nonneg kept with ⟨skipNonneg, countNonneg⟩
  rcases Int.eq_ofNat_of_zero_le skipNonneg with ⟨skipped, rfl⟩
  rcases Int.eq_ofNat_of_zero_le countNonneg with ⟨counted, rfl⟩
  have data := bytes_at_block (extends_refl heap) present inside skipped counted (by omega)
  rw [data]
  rfl

theorem good_copy_loop (fuel : Nat) (total : Int) (good : Good tidy heap chains none)
    (outRead : ∃ follow, heap.next out = some follow) (chain : Chain heap.next start source)
    (enough : source.length ≤ fuel) :
    Yields tidy (copyLoop fuel heap out total start) fun done => Good tidy done.1 chains none := by
  induction source generalizing fuel heap start total with
  | nil =>
      have empty : start = none := chain
      subst empty
      cases fuel <;> exact yields_some good
  | cons first rest ih =>
      rcases chain with ⟨rfl, follow, step, behind⟩
      rcases read_of_next step with ⟨blk, present, rfl⟩
      cases fuel with
      | zero => simp at enough
      | succ fuel =>
          simp only [List.length_cons, Nat.add_le_add_iff_right] at enough
          simp only [copyLoop]
          split_ifs with more
          · rw [present]
            simp only [Option.bind_eq_bind, Option.bind_some]
            have fits : 0 + (if blk.length < total then blk.length else total) ≤ blk.length := by
              split_ifs <;> omega
            have data : Yields tidy (bytesAt heap blk blk.rdPtr
                (if blk.length < total then blk.length else total)) fun _ => True := by
              have nonneg : tidy → 0 ≤ (0 : Int) ∧ 0 ≤ (if blk.length < total then blk.length
                  else total) := by
                intro kept
                rcases block_ok_bytes ((good.inside first blk present).1 kept) with
                  ⟨same, again, -, length⟩
                cases Option.some.inj (present.symm.trans again)
                split_ifs <;> omega
              simpa only [Int.add_zero] using bytes_at_yields good present nonneg fits
            refine yields_bind data fun bytes _ => ?_
            rcases outRead with ⟨outFollow, outStep⟩
            rcases read_of_next outStep with ⟨outblk, outPresent, -⟩
            refine yields_bind (good_copy_from good outPresent bytes) ?_
            rintro ⟨copied, count⟩ ⟨copiedGood, sameNext⟩
            have tailCopied : Chain copied.next blk.nextblk rest :=
              chain_frame behind fun c _ => sameNext c
            exact ih fuel _ copiedGood ⟨outFollow, (sameNext out).trans outStep⟩ tailCopied enough
          · exact yields_some good

theorem seek_yields {heap : Heap} (fuel : Nat) (off : Int) (prev : Option BufId)
    (chain : Chain heap.next start source) (enough : source.length ≤ fuel) :
    ∃ need look last, seek fuel heap off start prev = some (need, look, last) ∧
      (0 ≤ off → 0 ≤ need) ∧
      ∀ found, look = some found → found ∈ source := by
  induction source generalizing fuel off start prev with
  | nil =>
      have empty : start = none := chain
      subst empty
      exact ⟨off, none, prev, by cases fuel <;> rfl, id, by simp⟩
  | cons first rest ih =>
      rcases chain with ⟨rfl, follow, step, behind⟩
      rcases read_of_next step with ⟨blk, present, rfl⟩
      cases fuel with
      | zero => simp at enough
      | succ fuel =>
          simp only [List.length_cons, Nat.add_le_add_iff_right] at enough
          simp only [seek, present, Option.bind_eq_bind, Option.bind_some]
          split_ifs with nonneg longer
          · exact ⟨off, some first, prev, rfl, id, by simp⟩
          · rcases ih fuel (off - blk.length) (some first) behind enough with
              ⟨need, look, last, found, needNonneg, onRest⟩
            refine ⟨need, look, last, found, fun _ => needNonneg (by omega), ?_⟩
            intro other same
            exact List.mem_cons_of_mem _ (onRest other same)
          · exact ⟨off, some first, prev, rfl, id, by simp⟩

theorem good_share_slice {start size : Int} (good : Good tidy heap chains none)
    (present : heap.bufs.read b = some blk)
    (careful : tidy → blk.rdPtr ≤ start ∧ 0 ≤ size ∧ start + size ≤ blk.wrPtr) :
    ∃ shared made, Heap.newBufBlkSharing heap blk.blk = some (shared, heap.bufs.fresh) ∧
      shared.bufs.read heap.bufs.fresh = some made ∧
      Good tidy (shared.putBuf heap.bufs.fresh
        { made with rdPtr := start, mark := start, wrPtr := start + size })
        ([heap.bufs.fresh] :: chains) none := by
  rcases good_block good present (by simp) with ⟨m, mem, owner, memRead, bounds⟩
  rcases good_share good memRead with ⟨shared, sharing, sharedGood, madeRead, -, sharedMem⟩
  let moved : BufBlk := ⟨some m, start, start + size, start, none, 0⟩
  refine ⟨shared, _, owner ▸ sharing, madeRead, ?_⟩
  apply good_put_buf sharedGood madeRead moved (by rfl) (by rfl)
  intro kept
  have inside := bounds kept
  have within := careful kept
  refine ⟨moved, by rw [read_put_buf madeRead, if_pos rfl], _, sharedMem, ?_⟩
  simp only [moved, MemBlk.size] at inside ⊢
  omega

theorem good_get_contig_block (alloc : Alloc) {off size : Int} (good : Good tidy heap chains none)
    (member : pre ++ b :: tail ∈ chains) (careful : tidy → 0 ≤ off ∧ 0 ≤ size) :
    Yields tidy (getContigBlock alloc heap b off size) fun done =>
      Good tidy done.1 ((done.2.2.toList.map fun out => [out]) ++ chains) none := by
  have chain := forest_chain_from good.forest member
  rcases seek_yields heap.bufs.fresh off none chain (chain_bound chain) with
    ⟨need, look, last, found, needNonneg, onChain⟩
  simp only [getContigBlock, found, Option.bind_eq_bind, Option.bind_some]
  cases look with
  | none => exact yields_some good
  | some look =>
      rcases List.append_of_mem (onChain look rfl) with ⟨skipped, later, split⟩
      have member' : (pre ++ skipped) ++ look :: later ∈ chains := by
        rw [List.append_assoc, ← split]
        exact member
      rcases forest_chain_from good.forest member' with ⟨-, follow, step, behind⟩
      rcases read_of_next step with ⟨blk, present, rfl⟩
      simp only [present, Option.bind_some]
      split_ifs with longer fits
      · have within : tidy → blk.rdPtr ≤ blk.rdPtr + need ∧ 0 ≤ size ∧
            blk.rdPtr + need + size ≤ blk.wrPtr := by
          intro kept
          rcases careful kept with ⟨offNonneg, sizeNonneg⟩
          have inside := needNonneg offNonneg
          simp only [BufBlk.length] at fits
          omega
        rcases good_share_slice good present within with ⟨shared, made, sharing,
          madeRead, sharedGood⟩
        rw [sharing]
        simp only [Option.bind_some, madeRead]
        exact yields_some sharedGood
      · cases follows : blk.nextblk with
        | none => exact yields_some good
        | some next =>
            rw [follows] at behind
            rcases new_mem_blk_read alloc heap size with ⟨mem, memMade, single, -⟩
            have made : Heap.newBufBlkSize alloc heap size =
                ((Heap.newBufBlkSize alloc heap size).1, heap.bufs.fresh) := by
              rw [Heap.newBufBlkSize, memMade, new_buf_blk_over_eq]
              rfl
            have extended : Extends heap (Heap.newBufBlkSize alloc heap size).1 := by
              rw [Heap.newBufBlkSize, memMade, new_buf_blk_over_eq]
              exact extends_push_buf (extends_push_mem (extends_refl heap) mem) _
            have madeGood : Good tidy (Heap.newBufBlkSize alloc heap size).1
                ([heap.bufs.fresh] :: chains) none := by
              rw [Heap.newBufBlkSize, memMade]
              have split : Good tidy heap ([] ++ chains) none := good
              exact good_construct alloc mem single split rfl rfl
            generalize (Heap.newBufBlkSize alloc heap size).1 = pushed at made extended madeGood
            rw [made]
            simp only
            have stillPresent := extended.bufs look blk present
            have nonneg : tidy → 0 ≤ need ∧ 0 ≤ blk.length - need := fun kept =>
              ⟨needNonneg (careful kept).1, by omega⟩
            have data := bytes_at_yields madeGood stillPresent nonneg (by omega)
            refine yields_bind data fun bytes _ => ?_
            rcases forest_alive madeGood.forest
                (show heap.bufs.fresh ∈ [heap.bufs.fresh] by simp) with
              ⟨outFollow, outStep⟩
            rcases read_of_next outStep with ⟨outblk, outRead, -⟩
            refine yields_bind (good_copy_from madeGood outRead bytes) ?_
            rintro ⟨copied, count⟩ ⟨copiedGood, sameNext⟩
            have chainCopied : Chain copied.next (some next) later := by
              apply chain_frame behind
              intro c inside
              rcases segment_exists behind c inside with ⟨cFollow, cStep⟩
              rw [sameNext, cStep]
              exact extends_next extended cStep
            refine yields_bind (good_copy_loop heap.bufs.fresh _ copiedGood
              ⟨outFollow, (sameNext _).trans outStep⟩ chainCopied (chain_bound behind)) ?_
            rintro ⟨final, total⟩ finalGood
            exact yields_some finalGood
      · exact yields_some good

end TWlib.BufBlkOwnershipSlice
