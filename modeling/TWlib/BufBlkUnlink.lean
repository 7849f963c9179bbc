import TWlib.BufBlkChain

/-!
# Taking a run of blocks out of a chain and releasing it

The source redirects the block before the run and detaches the last block of the
run in either order. `Unlinked` is what both orders come to, and
`release_unlinked` is the effect of the release that follows.
-/

namespace TWlib.BufBlkUnlink

open TWlib.Lib.CellStore TWlib.Lib.LinkedChain TWlib.BufBlkHeap TWlib.BufBlkChain

set_option autoImplicit false

/-- The block before `gone` points behind it, and the last block of `gone` at nothing. -/
structure Unlinked (before after : Heap) (pre gone post : List BufId) : Prop where
  bufs : ∀ b, after.bufs.read b = (before.bufs.read b).map fun blk =>
    if pre.getLast? = some b then { blk with nextblk := post.head? }
    else if gone.getLast? = some b then { blk with nextblk := none }
    else blk
  mems : after.mems = before.mems
  deleted : after.deleted = before.deleted

variable {before after : Heap} {pre gone post : List BufId}

theorem unlinked_alike (unlinked : Unlinked before after pre gone post) (b : BufId) :
    Alike before after b := by
  refine ⟨?_, fun m _ => by rw [unlinked.mems]⟩
  rw [unlinked.bufs]
  cases before.bufs.read b with
  | none => rfl
  | some blk =>
      simp only [Option.map_some]
      split_ifs <;> rfl

theorem unlinked_next (unlinked : Unlinked before after pre gone post) (b : BufId) :
    after.next b = (before.next b).map fun follow =>
      if pre.getLast? = some b then post.head?
      else if gone.getLast? = some b then none
      else follow := by
  simp only [Heap.next, unlinked.bufs, Option.map_map]
  cases before.bufs.read b with
  | none => rfl
  | some blk =>
      simp only [Option.map_some, Function.comp_apply, Option.some.injEq]
      split_ifs <;> rfl

theorem unlinked_unshared (unlinked : Unlinked before after pre gone post) {ids : List BufId}
    (unshared : Unshared before ids) : Unshared after ids := by
  intro left leftMember right rightMember m
  rw [alike_mem_of (unlinked_alike unlinked left), alike_mem_of (unlinked_alike unlinked right)]
  exact unshared left leftMember right rightMember m

theorem unshared_subset {heap : Heap} {small large : List BufId} (subset : small ⊆ large)
    (unshared : Unshared heap large) : Unshared heap small :=
  fun left leftMember right rightMember =>
    unshared left (subset leftMember) right (subset rightMember)

theorem last_not_mem {front back : List BufId} (nodup : (front ++ back).Nodup) {b : BufId}
    (member : b ∈ back) : front.getLast? ≠ some b := by
  intro isLast
  have disjoint := List.disjoint_of_nodup_append nodup
  exact disjoint (List.mem_of_getLast? isLast) member

theorem unlinked_kept {start : Option BufId} (ok : ChainOk before start (pre ++ (gone ++ post)))
    (unlinked : Unlinked before after pre gone post) :
    ChainOk after (if pre = [] then post.head? else start) (pre ++ post) := by
  have nodup := chain_nodup ok.linked
  have nodupGone : (gone ++ post).Nodup := (List.nodup_append.mp nodup).2.1
  rcases (chain_append _ _ _).mp ok.linked with ⟨preSegment, tail⟩
  rcases (chain_append _ _ _).mp tail with ⟨-, postChain⟩
  have inWhole : ∀ b ∈ pre ++ post, b ∈ pre ++ (gone ++ post) := by
    intro b member
    rcases List.mem_append.mp member with left | right
    · exact List.mem_append_left _ left
    · exact List.mem_append_right _ (List.mem_append_right _ right)
  have keptNext : ∀ b ∈ pre ++ post, after.next b =
      (before.next b).map fun follow => if pre.getLast? = some b then post.head? else follow := by
    intro b member
    have notGone : gone.getLast? ≠ some b := by
      intro isLast
      have also := List.mem_of_getLast? isLast
      rcases List.mem_append.mp member with left | right
      · exact List.disjoint_of_nodup_append nodup left (List.mem_append_left post also)
      · exact List.disjoint_of_nodup_append nodupGone also right
    rw [unlinked_next unlinked]
    simp only [if_neg notGone]
  refine ⟨?_, fun b member =>
    alike_block_ok (unlinked_alike unlinked b) (ok.inside b (inWhole b member))⟩
  have postAfter : Chain after.next post.head? post := by
    apply chain_frame postChain
    intro b member
    have notPre : pre.getLast? ≠ some b := last_not_mem nodup (List.mem_append_right _ member)
    rw [keptNext b (List.mem_append_right pre member)]
    simp only [if_neg notPre, Option.map_id_fun', id_eq]
  by_cases atHead : pre = []
  · subst atHead
    simpa using postAfter
  · rw [if_neg atHead, chain_append]
    refine ⟨?_, postAfter⟩
    apply segment_relink preSegment (List.nodup_append.mp nodup).1 atHead
    · intro b isLast
      have member : b ∈ pre := List.mem_of_getLast? isLast
      rcases segment_exists preSegment b member with ⟨follow, step⟩
      rw [keptNext b (List.mem_append_left post member), step, Option.map_some, if_pos isLast]
    · intro b member notLast
      rw [keptNext b (List.mem_append_left post member)]
      simp only [if_neg notLast, Option.map_id_fun', id_eq]

theorem unlinked_gone {start : Option BufId} (filled : gone ≠ [])
    (ok : ChainOk before start (pre ++ (gone ++ post)))
    (unlinked : Unlinked before after pre gone post) : ChainOk after gone.head? gone := by
  have nodup := chain_nodup ok.linked
  have nodupGone : (gone ++ post).Nodup := (List.nodup_append.mp nodup).2.1
  rcases (chain_append _ _ _).mp ok.linked with ⟨-, tail⟩
  rcases (chain_append _ _ _).mp tail with ⟨goneSegment, -⟩
  have goneHead : (gone ++ post).head? = gone.head? := by
    cases gone with
    | nil => exact absurd rfl filled
    | cons b behind => rfl
  refine ⟨?_, fun b member => alike_block_ok (unlinked_alike unlinked b)
    (ok.inside b (List.mem_append_right pre (List.mem_append_left post member)))⟩
  rw [← goneHead]
  apply segment_relink goneSegment (List.nodup_append.mp nodupGone).1 filled
  · intro b isLast
    have member : b ∈ gone := List.mem_of_getLast? isLast
    rcases segment_exists goneSegment b member with ⟨follow, step⟩
    have notPre := last_not_mem nodup (List.mem_append_left post member)
    rw [unlinked_next unlinked, step, Option.map_some, if_neg notPre, if_pos isLast]
  · intro b member notLast
    rcases segment_exists goneSegment b member with ⟨follow, step⟩
    have notPre := last_not_mem nodup (List.mem_append_left post member)
    rw [unlinked_next unlinked, step, Option.map_some, if_neg notPre, if_neg notLast]

theorem release_beside {heap : Heap} {kept gone : List BufId} {first : BufId}
    (ok : ChainOk heap (some first) gone) (unshared : Unshared heap (kept ++ gone))
    (apart : ∀ b ∈ kept, b ∉ gone) :
    ∃ final, heap.release first = some final ∧ Released heap gone final ∧
      ∀ b ∈ kept, Agree heap final b := by
  have goneUnshared := unshared_subset (List.subset_append_right kept gone) unshared
  rcases release_chain ok.linked (unshared_backed (chain_nodup ok.linked) ok.inside
      goneUnshared) with
    ⟨final, released, effect⟩
  refine ⟨final, released, effect, fun b member => ?_⟩
  apply released_agree effect (apart b member)
  intro other goneMember m owner also
  have same := unshared b (List.mem_append_left _ member) other (List.mem_append_right _ goneMember)
    m owner also
  exact apart b member (same ▸ goneMember)

theorem release_unlinked {start : Option BufId} {first : BufId}
    (ok : ChainOk before start (pre ++ ((first :: gone) ++ post)))
    (unshared : Unshared before (pre ++ ((first :: gone) ++ post)))
    (unlinked : Unlinked before after pre (first :: gone) post) :
    ∃ final, after.release first = some final ∧
      ChainOk final (if pre = [] then post.head? else start) (pre ++ post) ∧
      (∀ b ∈ pre ++ post, bytesOf final b = bytesOf before b) ∧
      final.deleted = before.deleted ++ (first :: gone).reverse := by
  have nodup := chain_nodup ok.linked
  have apart : ∀ b ∈ pre ++ post, b ∉ first :: gone := by
    intro b member also
    rcases List.mem_append.mp member with left | right
    · exact List.disjoint_of_nodup_append nodup left (List.mem_append_left post also)
    · exact List.disjoint_of_nodup_append (List.nodup_append.mp nodup).2.1 also right
  have regrouped : (pre ++ post) ++ (first :: gone) ⊆ pre ++ ((first :: gone) ++ post) := by
    intro b member
    simp only [List.mem_append] at member ⊢
    tauto
  have goneOk := unlinked_gone (List.cons_ne_nil first gone) ok unlinked
  rcases release_beside goneOk (unshared_subset regrouped (unlinked_unshared unlinked unshared))
      apart with
    ⟨final, released, effect, agree⟩
  refine ⟨final, released, chain_ok_frame (unlinked_kept ok unlinked) agree, ?_, ?_⟩
  · intro b member
    exact (agree_bytes_of (agree b member)).trans (alike_bytes_of (unlinked_alike unlinked b))
  · rw [effect.deleted, unlinked.deleted]

end TWlib.BufBlkUnlink
