import TWlib.BufBlkOwnershipSlice

/-!
# The reference counts of MemBlks, over whole runs

`Run` is every sequence of operations on BufBlks from no blocks at all, each of
them allowed by the ownership of the chains: a chain that is handed over, released
or destroyed is named by its first block. What the operations are given is
otherwise arbitrary; a run that keeps the positions inside the buffers is stopped
by no call but that of `operator=`, which has no defined end.
-/

namespace TWlib.BufBlkRefCount

open TWlib.Lib.CellStore TWlib.Lib.LinkedChain TWlib.Lib.ChainForest TWlib.Lib.Outcome
open TWlib.BufBlkHeap TWlib.BufBlkChain TWlib.BufBlkView TWlib.BufBlkCount TWlib.BufBlkCopy
open TWlib.BufBlkContig TWlib.BufBlkOwnership TWlib.BufBlkOwnershipCopy TWlib.BufBlkOwnershipSlice

set_option autoImplicit false

inductive Op where
  | newSize (size : Int)
  | newBefore (size : Int) (next : Option BufId)
  | newAt (data : Int) (bytes : List Byte) (manage : Bool)
  | newCopy (o : BufId)
  | duplicate (b : BufId)
  | assign (this o : BufId)
  | deepCopy (b : BufId)
  | getContigBlock (b : BufId) (rdOffset size : Int)
  | setNexblk (b : BufId) (next : Option BufId)
  | addToEnd (b : BufId) (next : Option BufId)
  | copyFrom (b : BufId) (src : List Byte)
  | setPositions (b : BufId) (rdPtr wrPtr mark : Int)
  | release (b : BufId)
  | destroy (b : BufId)

/-- What the statements of an operation do. -/
def perform (alloc : Alloc) (heap : Heap) : Op → Option Heap
  | .newSize size => some (Heap.newBufBlkSize alloc heap size).1
  | .newBefore size next => some (Heap.newBufBlkBefore alloc heap size next).1
  | .newAt data bytes manage => some (Heap.newBufBlkAt alloc heap data bytes manage).1
  | .newCopy o => (newBufBlkCopy heap o).map Prod.fst
  | .duplicate b => (duplicate heap b).map Prod.fst
  | .assign this o => assignBody heap this o
  | .deepCopy b => (BufBlkCopy.deepCopy alloc heap b).map Prod.fst
  | .getContigBlock b rdOffset size =>
      (BufBlkContig.getContigBlock alloc heap b rdOffset size).map Prod.fst
  | .setNexblk b next => heap.setNexblk b next
  | .addToEnd b next => heap.addToEnd b next
  | .copyFrom b src => (heap.copyFrom b src).map Prod.fst
  | .setPositions b rdPtr wrPtr mark => BufBlkOwnershipSlice.setPositions heap b rdPtr wrPtr mark
  | .release b => heap.release b
  | .destroy b => heap.destroy b

/-- What a call of an operation does, up to its return. -/
def call (alloc : Alloc) (heap : Heap) : Op → Option Heap
  | .assign this o => BufBlkCopy.assign heap this o
  | op => perform alloc heap op

def Op.isAssign : Op → Bool
  | .assign _ _ => true
  | _ => false

theorem call_eq {alloc : Alloc} {heap : Heap} {op : Op} (plain : op.isAssign = false) :
    call alloc heap op = perform alloc heap op := by
  cases op with
  | assign this o => cases plain
  | _ => rfl

theorem call_performs {alloc : Alloc} {heap after : Heap} {op : Op}
    (done : call alloc heap op = some after) :
    op.isAssign = false ∧ perform alloc heap op = some after := by
  cases op with
  | assign this o => simp [call] at done
  | _ => exact ⟨rfl, done⟩

/-! ## What the operations may be given -/

def Live (heap : Heap) (b : BufId) : Prop := ∃ follow, heap.next b = some follow

def DifferentChains (heap : Heap) (b o : BufId) : Prop :=
  ¬ Reachable heap.next (some b) o ∧ ¬ Reachable heap.next (some o) b

/-- A chain that is handed over whole, and has no part of the chain it is added to. -/
def HandedOver (heap : Heap) (next : Option BufId) (taker : BufId) : Prop :=
  ∀ b, next = some b → Head heap.next b ∧ ¬ Reachable heap.next (some b) taker

def Allowed (heap : Heap) : Op → Prop
  | .newSize _ | .newAt _ _ _ => True
  | .newBefore _ next => ∀ b, next = some b → Head heap.next b
  | .newCopy b | .duplicate b | .deepCopy b | .getContigBlock b _ _ | .copyFrom b _
  | .setPositions b _ _ _ => Live heap b
  | .assign this o => Live heap this ∧ Live heap o ∧ DifferentChains heap this o
  | .setNexblk b next => heap.next b = some none ∧ HandedOver heap next b
  | .addToEnd b next => Live heap b ∧ HandedOver heap next b
  | .release b | .destroy b => Head heap.next b

/-- The positions of all blocks stay inside their buffers. -/
def Careful (heap : Heap) : Op → Prop
  | .getContigBlock _ rdOffset size => 0 ≤ rdOffset ∧ 0 ≤ size
  | .setPositions b rdPtr wrPtr _ => Placeable heap b rdPtr wrPtr
  | _ => True

inductive Run (alloc : Alloc) (tidy : Prop) : Heap → Prop where
  | start : Run alloc tidy emptyHeap
  | step {heap after : Heap} {op : Op} (run : Run alloc tidy heap) (allowed : Allowed heap op)
      (careful : tidy → Careful heap op) (done : call alloc heap op = some after) :
      Run alloc tidy after

/-! ## Allowed operations, in terms of the chains -/

variable {tidy : Prop} {heap after : Heap} {chains others : List (List BufId)}
  {pre tail : List BufId} {b o : BufId} {next : Option BufId}

theorem good_forest (good : Good tidy heap chains none) {again : List (List BufId)}
    (forest : Forest heap.next again) : Good tidy heap again none :=
    ⟨good.counted, forest, good.inside⟩

theorem good_find (good : Good tidy heap chains none) (live : Live heap b) :
    ∃ pre tail, pre ++ b :: tail ∈ chains := by
  rcases live with ⟨follow, step⟩
  exact forest_find good.forest step

theorem good_head (good : Good tidy heap chains none) (head : Head heap.next b) :
    ∃ tail others, Good tidy heap ((b :: tail) :: others) none := by
  rcases forest_head good.forest head with ⟨tail, member⟩
  rcases forest_pick good.forest member with ⟨others, picked, -⟩
  exact ⟨tail, others, good_forest good picked⟩

theorem good_apart (good : Good tidy heap chains none) (live : Live heap b) (other : Live heap o)
    (apart : DifferentChains heap b o) : ∃ pre tail front rest others,
      Good tidy heap ((pre ++ b :: tail) :: others) none ∧ front ++ o :: rest ∈ others := by
  rcases good_find good live with ⟨pre, tail, member⟩
  rcases good_find good other with ⟨front, rest, oMember⟩
  have chain := forest_chain_from good.forest member
  have oChain := forest_chain_from good.forest oMember
  rcases forest_pick good.forest member with ⟨others, picked, same⟩
  refine ⟨pre, tail, front, rest, others, good_forest good picked, ?_⟩
  rcases (same _).mp oMember with equal | elsewhere
  · exfalso
    rcases List.append_eq_append_iff.mp equal with ⟨between, -, split⟩ | ⟨between, -, split⟩
    · cases between with
      | nil =>
          cases split
          exact apart.1 (.here _)
      | cons first between =>
          cases split
          exact apart.2 ((reachable_iff_mem oChain b).mpr (by simp))
    · cases between with
      | nil =>
          cases split
          exact apart.1 (.here _)
      | cons first between =>
          cases split
          exact apart.1 ((reachable_iff_mem chain o).mpr (by simp))
  · exact elsewhere

theorem good_handed {last taker : BufId} (good : Good tidy heap chains none)
    (member : pre ++ [last] ∈ chains) (onChain : taker ∈ pre ++ [last])
    (head : Head heap.next b) (apart : ¬ Reachable heap.next (some b) taker) : ∃ tail others,
      Good tidy heap ((pre ++ [last]) :: (b :: tail) :: others) none := by
  rcases forest_head good.forest head with ⟨tail, headMember⟩
  have chain : Chain heap.next (some b) (b :: tail) := good.forest.linked (b :: tail) headMember
  have different : b :: tail ≠ pre ++ [last] := by
    intro equal
    exact apart ((reachable_iff_mem chain taker).mpr (equal ▸ onChain))
  rcases forest_pick_both good.forest member headMember different with ⟨others, picked⟩
  exact ⟨tail, others, good_forest good picked⟩

theorem good_set_nexblk {last taker : BufId} (good : Good tidy heap chains none)
    (member : pre ++ [last] ∈ chains) (onChain : taker ∈ pre ++ [last])
    (handed : HandedOver heap next taker) :
    ∃ after, heap.setNexblk last next = some after ∧ ∃ chains, Good tidy after chains none := by
  cases next with
  | none =>
      have chain := forest_chain_from good.forest member
      rcases chain with ⟨-, follow, step, behind⟩
      have isLast : follow = none := behind
      subst isLast
      rcases read_of_next step with ⟨blk, present, ends⟩
      refine ⟨_, set_nexblk_eq present none, chains, ?_⟩
      have same : { blk with nextblk := none } = blk := by rw [← ends]
      rw [same]
      apply good_put_buf good present blk rfl rfl
      intro kept
      have unchanged : Agree heap (heap.putBuf last blk) last := by
        refine ⟨?_, fun m _ => rfl⟩
        rw [read_put_buf present, if_pos rfl, present]
      exact agree_block_ok unchanged ((good.inside last blk present).1 kept)
  | some b =>
      rcases handed b rfl with ⟨head, apart⟩
      rcases good_handed good member onChain head apart with ⟨tail, others, both⟩
      rcases good_link both with ⟨after, linked, linkedGood, -⟩
      exact ⟨after, linked, _, linkedGood⟩

theorem last_from_chain {ids : List BufId} {start : BufId} (fuel : Nat)
    (chain : Chain heap.next (some start) ids) (enough : ids.length ≤ fuel) :
    ∃ front last, ids = front ++ [last] ∧ Heap.lastFrom fuel heap start = some last := by
  induction ids generalizing fuel start with
  | nil => simp at chain
  | cons b rest ih =>
      rcases chain with ⟨same, follow, step, behind⟩
      cases Option.some.inj same
      rcases read_of_next step with ⟨blk, present, rfl⟩
      cases fuel with
      | zero => simp at enough
      | succ fuel =>
          simp only [List.length_cons, Nat.add_le_add_iff_right] at enough
          simp only [Heap.lastFrom, present, Option.bind_eq_bind, Option.bind_some]
          cases follows : blk.nextblk with
          | none =>
              rw [follows] at behind
              have ends : rest = [] := chain_unique behind rfl
              exact ⟨[], b, by rw [ends]; rfl, rfl⟩
          | some later =>
              rw [follows] at behind
              rcases ih fuel behind enough with ⟨front, last, split, found⟩
              exact ⟨b :: front, last, by rw [split]; rfl, found⟩

theorem good_add_to_end (good : Good tidy heap chains none) (live : Live heap b)
    (handed : HandedOver heap next b) :
    ∃ after, heap.addToEnd b next = some after ∧ ∃ chains, Good tidy after chains none := by
  rcases good_find good live with ⟨pre, tail, member⟩
  have chain := forest_chain_from good.forest member
  rcases last_from_chain heap.bufs.fresh chain (chain_bound chain) with ⟨front, last, split, found⟩
  have onChain : b ∈ (pre ++ front) ++ [last] := by
    rw [List.append_assoc, ← split]
    simp
  rw [split, ← List.append_assoc] at member
  rcases good_set_nexblk good member onChain handed with ⟨after, done, afterGood⟩
  refine ⟨after, ?_, afterGood⟩
  simp only [Heap.addToEnd, found, Option.bind_eq_bind, Option.bind_some, done]

/-! ## Every operation -/

theorem yields_fst {Second : Type} {sure : Prop} {ran : Option (Heap × Second)} {post : Heap → Prop}
    (yields : Yields sure ran fun done => post done.1) : Yields sure (ran.map Prod.fst) post := by
  have unfolded : ran.map Prod.fst = ran.bind fun done => some done.1 := by cases ran <;> rfl
  rw [unfolded]
  exact yields_bind yields fun done holds => yields_some holds

theorem good_construct_size (alloc : Alloc) (size : Int) (good : Good tidy heap chains none)
    (heads : ∀ b, next = some b → Head heap.next b) :
    ∃ chains, Good tidy (Heap.newBufBlkBefore alloc heap size next).1 chains none := by
  rcases new_mem_blk_read alloc heap size with ⟨mem, made, single, -⟩
  rw [Heap.newBufBlkBefore, made]
  cases next with
  | none =>
      have split : Good tidy heap ([] ++ chains) none := good
      exact ⟨_, good_construct alloc mem single split rfl rfl⟩
  | some b =>
      rcases good_head good (heads b rfl) with ⟨tail, others, headGood⟩
      have split : Good tidy heap ([b :: tail] ++ others) none := headGood
      have chain : Chain heap.next (b :: tail).head? (b :: tail) :=
        headGood.forest.linked _ (by simp)
      exact ⟨_, good_construct alloc mem single split (by simp) chain⟩

theorem perform_good {alloc : Alloc} {op : Op} (good : Good tidy heap chains none)
    (allowed : Allowed heap op) (careful : tidy → Careful heap op) :
    Yields (tidy ∧ alloc.Succeeds) (perform alloc heap op) fun after =>
      ∃ chains, Good tidy after chains none := by
  cases op with
  | newSize size =>
      have alone : ∀ b, (none : Option BufId) = some b → Head heap.next b := by simp
      exact yields_some (good_construct_size alloc size good alone)
  | newBefore size next => exact yields_some (good_construct_size alloc size good allowed)
  | newAt data bytes manage =>
      have split : Good tidy heap ([] ++ chains) none := good
      exact yields_some ⟨_, good_construct alloc ⟨1, data, bytes, manage⟩ rfl split rfl rfl⟩
  | newCopy o =>
      rcases good_find good allowed with ⟨pre, tail, member⟩
      rcases good_duplicate good member with ⟨after, copies, made, afterGood⟩
      exact yields_fst (yields_of_exists ⟨_, made, _, afterGood⟩)
  | duplicate b =>
      rcases good_find good allowed with ⟨pre, tail, member⟩
      rcases good_duplicate good member with ⟨after, copies, made, afterGood⟩
      exact yields_fst (yields_of_exists ⟨_, made, _, afterGood⟩)
  | assign this o =>
      rcases allowed with ⟨live, other, apart⟩
      rcases good_apart good live other apart with ⟨pre, tail, front, rest, others,
        apartGood, member⟩
      rcases good_assign apartGood member with ⟨after, copies, assigned, afterGood⟩
      exact yields_of_exists ⟨after, assigned, _, afterGood⟩
  | deepCopy b =>
      rcases good_find good allowed with ⟨pre, tail, member⟩
      apply yields_fst
      apply yields_mono (yields_under (good_deep_copy alloc good member) And.right)
      rintro made ⟨copies, madeGood⟩
      exact ⟨_, madeGood⟩
  | getContigBlock b rdOffset size =>
      rcases good_find good allowed with ⟨pre, tail, member⟩
      apply yields_fst
      apply yields_mono (yields_under (good_get_contig_block alloc good member careful) And.left)
      exact fun made madeGood => ⟨_, madeGood⟩
  | setNexblk b next =>
      rcases allowed with ⟨isLast, handed⟩
      rcases forest_find good.forest isLast with ⟨pre, tail, member⟩
      rcases forest_chain_from good.forest member with ⟨-, follow, step, behind⟩
      cases Option.some.inj (step.symm.trans isLast)
      have ends : tail = [] := chain_unique behind rfl
      subst ends
      exact yields_of_exists (good_set_nexblk good member (by simp) handed)
  | addToEnd b next => exact yields_of_exists (good_add_to_end good allowed.1 allowed.2)
  | copyFrom b src =>
      rcases allowed with ⟨follow, step⟩
      rcases read_of_next step with ⟨blk, present, -⟩
      apply yields_fst
      apply yields_mono (yields_under (good_copy_from good present src) And.left)
      rintro done ⟨doneGood, -⟩
      exact ⟨chains, doneGood⟩
  | setPositions b rdPtr wrPtr mark =>
      rcases allowed with ⟨follow, step⟩
      rcases read_of_next step with ⟨blk, present, -⟩
      rcases good_set_positions good present mark careful with ⟨after, done, afterGood⟩
      exact yields_of_exists ⟨after, done, chains, afterGood⟩
  | release b =>
      rcases good_head good allowed with ⟨tail, others, headGood⟩
      rcases good_release headGood with ⟨after, released, afterGood⟩
      exact yields_of_exists ⟨after, released, others, afterGood⟩
  | destroy b =>
      rcases good_head good allowed with ⟨tail, others, headGood⟩
      rcases good_destroy headGood with ⟨after, destroyed, afterGood⟩
      exact yields_of_exists ⟨after, destroyed, others, afterGood⟩

theorem run_good {alloc : Alloc} (run : Run alloc tidy heap) :
    ∃ chains, Good tidy heap chains none := by
  induction run with
  | start => exact ⟨[], good_empty⟩
  | step run allowed careful done ih =>
      rcases ih with ⟨chains, good⟩
      exact (perform_good good allowed careful).2 _ (call_performs done).2

/-! ## Exact counts -/

/-- Every MemBlk that exists is counted exactly and in use, and no block refers to one that was
freed. -/
structure Exact (heap : Heap) : Prop where
  counts : ∀ m mem, heap.mems.read m = some mem → mem.refCount = liveUsers heap m
  inUse : ∀ m mem, heap.mems.read m = some mem → 0 < liveUsers heap m
  backed : ∀ b blk m, heap.bufs.read b = some blk → blk.blk = some m →
    ∃ mem, heap.mems.read m = some mem

theorem good_exact (good : Good tidy heap chains none) : Exact heap := by
  refine ⟨fun m mem present => ?_, fun m mem present => ?_, fun b blk m present owner => ?_⟩
  · have here := counted_some good.counted present
    omega
  · have here := counted_some good.counted present
    omega
  · rcases good_block good present (by simp) with ⟨known, mem, same, memRead, -⟩
    cases Option.some.inj (owner.symm.trans same)
    exact ⟨mem, memRead⟩

/-- A step leaves exact counts, and frees the MemBlks whose last block goes with it. -/
def KeepsExact (heap after : Heap) : Prop :=
  Exact after ∧ ∀ m mem, heap.mems.read m = some mem →
    (after.mems.read m = none ↔ liveUsers after m = 0)

theorem perform_keeps_exact {alloc : Alloc} {op : Op} (good : Good tidy heap chains none)
    (allowed : Allowed heap op) (careful : tidy → Careful heap op)
    (done : perform alloc heap op = some after) : KeepsExact heap after := by
  rcases (perform_good good allowed careful).2 after done with ⟨next, afterGood⟩
  refine ⟨good_exact afterGood, fun m mem _ => ⟨fun freed => ?_, fun unused => ?_⟩⟩
  · have here := counted_none afterGood.counted freed
    omega
  · cases present : after.mems.read m with
    | none => rfl
    | some mem =>
        have here := counted_some afterGood.counted present
        omega

/-- The `_ref_count` of every MemBlk is the number of live blocks that refer to it, in every state
of every run, and the statements of every step keep it so. A run whose positions are kept in order
is stopped by no call but one of `operator=`, unless an allocation fails. -/
theorem ref_count_exact {alloc : Alloc} (run : Run alloc tidy heap) :
    Exact heap ∧ ∀ op, Allowed heap op → (tidy → Careful heap op) →
      (tidy → alloc.Succeeds → ((∃ after, call alloc heap op = some after) ↔ op.isAssign = false)) ∧
      ∀ after, perform alloc heap op = some after → KeepsExact heap after := by
  rcases run_good run with ⟨chains, good⟩
  refine ⟨good_exact good, fun op allowed careful =>
    ⟨fun inOrder succeeds => ⟨?_, fun plain => ?_⟩, ?_⟩⟩
  · rintro ⟨after, done⟩
    exact (call_performs done).1
  · rcases yields_exists (perform_good good allowed careful) ⟨inOrder,
      succeeds⟩ with ⟨after, done, -⟩
    exact ⟨after, (call_eq plain).trans done⟩
  · exact fun after done => perform_keeps_exact good allowed careful done

def sharedPair : Heap :=
  ((perform zeroAlloc emptyHeap (.newSize 4)).bind fun heap =>
    perform zeroAlloc heap (.duplicate 0)).getD
    emptyHeap

theorem shared_pair_run : Run zeroAlloc True sharedPair := by
  let one := (Heap.newBufBlkSize zeroAlloc emptyHeap 4).1
  have made : call zeroAlloc emptyHeap (.newSize 4) = some one := rfl
  have shared : call zeroAlloc one (.duplicate 0) = some sharedPair := rfl
  have allowed : Allowed one (.duplicate 0) := ⟨none, by decide⟩
  have anything : Allowed emptyHeap (.newSize 4) ∧ Careful emptyHeap (.newSize 4) ∧
      Careful one (.duplicate 0) := ⟨trivial, trivial, trivial⟩
  have first : Run zeroAlloc True one := .step .start anything.1 (fun _ => anything.2.1) made
  exact .step first allowed (fun _ => anything.2.2) shared

theorem ref_count_exact_shared_pair : Exact sharedPair ∧ ∀ op, Allowed sharedPair op →
    (True → Careful sharedPair op) →
      (True → zeroAlloc.Succeeds → ((∃ after, call zeroAlloc sharedPair op = some after) ↔
        op.isAssign = false)) ∧
      ∀ after, perform zeroAlloc sharedPair op = some after → KeepsExact sharedPair after :=
  ref_count_exact shared_pair_run

def twoChains : Heap :=
  ((call zeroAlloc emptyHeap (.newSize 4)).bind fun heap =>
    call zeroAlloc heap (.newSize 4)).getD emptyHeap

/-- With one of two blocks assigned to the other there is no state of which anything could be
said. -/
theorem ref_count_not_always_exact :
    ¬ ∀ (alloc : Alloc) (heap : Heap) (op : Op), Run alloc True heap → Allowed heap op →
      Careful heap op →
      alloc.Succeeds → ∃ after, call alloc heap op = some after ∧ KeepsExact heap after := by
  intro always
  let one := (Heap.newBufBlkSize zeroAlloc emptyHeap 4).1
  have made : call zeroAlloc emptyHeap (.newSize 4) = some one := rfl
  have again : call zeroAlloc one (.newSize 4) = some twoChains := rfl
  have anything : Allowed emptyHeap (.newSize 4) ∧ Careful emptyHeap (.newSize 4) ∧
      Allowed one (.newSize 4) ∧
      Careful one (.newSize 4) := ⟨trivial, trivial, trivial, trivial⟩
  have first : Run zeroAlloc True one := .step .start anything.1 (fun _ => anything.2.1) made
  have second : Run zeroAlloc True twoChains :=
    .step first anything.2.2.1 (fun _ => anything.2.2.2) again
  have apart : DifferentChains twoChains 0 1 := by
    have here : Chain twoChains.next (some 0) [0] := ⟨rfl, none, by decide, rfl⟩
    have there : Chain twoChains.next (some 1) [1] := ⟨rfl, none, by decide, rfl⟩
    refine ⟨fun reach => ?_, fun reach => ?_⟩
    · exact absurd ((reachable_iff_mem here 1).mp reach) (by decide)
    · exact absurd ((reachable_iff_mem there 0).mp reach) (by decide)
  have allowed : Allowed twoChains (.assign 0 1) := ⟨⟨none, by decide⟩, ⟨none, by decide⟩, apart⟩
  rcases always zeroAlloc twoChains (.assign 0 1) second allowed trivial
    zero_alloc_succeeds with ⟨after, done, -⟩
  simp [call] at done

end TWlib.BufBlkRefCount
