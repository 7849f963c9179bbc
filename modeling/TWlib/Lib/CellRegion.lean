import Mathlib.Data.List.Perm.Subperm
import TWlib.Lib.CellStore

/-!
# The cells a structure is made of

A change of a structure turns the cells it was made of into others: some are given up, some are new,
and all that belongs to neither is as before. Such changes follow one another, and a change of a
part is one of the whole.
-/

namespace TWlib.Lib.CellRegion

open TWlib.Lib.CellStore

set_option autoImplicit false

variable {Value : Type*}

structure Rebuilt (before after : Store Value) (old new : List Nat) : Prop where
  grows : before.fresh ≤ after.fresh
  kept : ∀ cell, cell ∉ old → cell ∉ new → after.read cell = before.read cell
  made : ∀ cell ∈ new, cell ∈ old ∨ before.fresh ≤ cell
  gone : ∀ cell ∈ old, cell ∉ new → after.read cell = none
  nodup : new.Nodup

variable {before middle after : Store Value} {old new newer early late : List Nat} {cell : Nat}
    {value : Value}

theorem length_le_fresh {store : Store Value} (nodup : old.Nodup)
    (alive : ∀ cell ∈ old, cell < store.fresh) :
    old.length ≤ store.fresh := by
  have few := (List.subperm_of_subset nodup fun cell member =>
    List.mem_range.mpr (alive cell member)).length_le
  rwa [List.length_range] at few

theorem rebuilt_length (rebuilt : Rebuilt before after old new)
    (alive : ∀ cell ∈ new, cell < after.fresh) :
    new.length + before.fresh ≤ old.length + after.fresh := by
  have few : (new.filter (· ∉ old)).length ≤
      ((List.range' before.fresh (after.fresh - before.fresh))).length := by
    apply (List.subperm_of_subset (rebuilt.nodup.filter _) fun cell member => ?_).length_le
    rcases List.mem_filter.mp member with ⟨inside, outside⟩
    have later := (rebuilt.made cell inside).resolve_left (of_decide_eq_true outside)
    have bound := alive cell inside
    rw [List.mem_range'_1]
    omega
  have again : (new.filter (· ∈ old)).length ≤ old.length := by
    apply (List.subperm_of_subset (rebuilt.nodup.filter _) fun cell member => ?_).length_le
    simpa using (List.mem_filter.mp member).2
  have parts := List.length_eq_length_filter_add (l := new) fun cell => decide (cell ∈ old)
  have grows := rebuilt.grows
  simp only [List.length_range'] at few
  simp only [decide_not] at few
  omega

theorem rebuilt_refl (nodup : old.Nodup) : Rebuilt before before old old :=
  ⟨Nat.le_refl _, fun _ _ _ => rfl, fun _ member => .inl member,
    fun _ member apart => absurd member apart, nodup⟩

theorem rebuilt_trans (first : Rebuilt before middle old new)
    (second : Rebuilt middle after new newer) :
    Rebuilt before after old newer where
  grows := Nat.le_trans first.grows second.grows
  kept := by
    intro cell notOld notNewer
    by_cases between : cell ∈ new
    · rcases first.made cell between with member | fresh
      · exact absurd member notOld
      · rw [second.gone cell between notNewer, read_beyond fresh]
    · rw [second.kept cell between notNewer, first.kept cell notOld between]
  made := by
    intro cell member
    rcases second.made cell member with between | fresh
    · exact first.made cell between
    · exact .inr (Nat.le_trans first.grows fresh)
  gone := by
    intro cell member notNewer
    by_cases between : cell ∈ new
    · exact second.gone cell between notNewer
    · rw [second.kept cell between notNewer, first.gone cell member between]
  nodup := second.nodup

theorem rebuilt_inside (rebuilt : Rebuilt before after old new)
    (nodup : (early ++ old ++ late).Nodup) (alive : ∀ cell ∈ early ++ late, cell < before.fresh) :
    Rebuilt before after (early ++ old ++ late) (early ++ new ++ late) := by
  have apart : ∀ cell ∈ early ++ late, cell ∉ new := by
    intro cell member inside
    rcases rebuilt.made cell inside with again | fresh
    · rw [List.append_assoc, List.nodup_append] at nodup
      rcases nodup with ⟨-, tail, differ⟩
      rw [List.nodup_append] at tail
      rcases List.mem_append.mp member with front | back
      · exact differ cell front cell (List.mem_append_left _ again) rfl
      · exact tail.2.2 cell again cell back rfl
    · exact Nat.not_lt.mpr fresh (alive cell member)
  refine ⟨rebuilt.grows, ?_, ?_, ?_, ?_⟩
  · intro cell notOld notNew
    simp only [List.mem_append, not_or] at notOld notNew
    exact rebuilt.kept cell notOld.1.2 notNew.1.2
  · intro cell member
    simp only [List.mem_append] at member ⊢
    rcases member with (front | inside) | back
    · exact .inl (.inl (.inl front))
    · rcases rebuilt.made cell inside with again | fresh
      · exact .inl (.inl (.inr again))
      · exact .inr fresh
    · exact .inl (.inr back)
  · intro cell member notNew
    simp only [List.mem_append, not_or] at member notNew
    rcases member with (front | inside) | back
    · exact absurd front notNew.1.1
    · exact rebuilt.gone cell inside notNew.1.2
    · exact absurd back notNew.2
  · rw [List.append_assoc, List.nodup_append] at nodup ⊢
    rcases nodup with ⟨front, tail, differ⟩
    rw [List.nodup_append] at tail ⊢
    refine ⟨front, ⟨rebuilt.nodup, tail.2.1, ?_⟩, ?_⟩
    · rintro cell inside other back rfl
      exact apart cell (List.mem_append_right _ back) inside
    · rintro cell here other there rfl
      rcases List.mem_append.mp there with inside | back
      · exact apart cell (List.mem_append_left _ here) inside
      · exact differ cell here cell (List.mem_append_right _ back) rfl

theorem rebuilt_perm {other : List Nat} (rebuilt : Rebuilt before after old new)
    (sameOld : old.Perm early) (sameNew : new.Perm other) : Rebuilt before after early other where
  grows := rebuilt.grows
  kept := fun cell notOld notNew =>
    rebuilt.kept cell (fun member => notOld (sameOld.mem_iff.mp member)) fun member =>
      notNew (sameNew.mem_iff.mp member)
  made := by
    intro cell member
    rcases rebuilt.made cell (sameNew.mem_iff.mpr member) with again | fresh
    · exact .inl (sameOld.mem_iff.mp again)
    · exact .inr fresh
  gone := fun cell member notNew =>
    rebuilt.gone cell (sameOld.mem_iff.mpr member) fun inside => notNew (sameNew.mem_iff.mp inside)
  nodup := sameNew.nodup rebuilt.nodup

/-! ## Single steps -/

theorem rebuilt_same (grows : before.fresh ≤ after.fresh)
    (kept : ∀ cell, cell ∉ old → after.read cell = before.read cell) (nodup : old.Nodup) :
    Rebuilt before after old old :=
  ⟨grows, fun cell apart _ => kept cell apart, fun _ member => .inl member,
    fun _ member apart => absurd member apart,
    nodup⟩

theorem rebuilt_write {was : Value} (present : before.read cell = some was) (member : cell ∈ old)
    (nodup : old.Nodup) : Rebuilt before (before.write cell value) old old := by
  refine rebuilt_same (Nat.le_of_eq (fresh_write _ _ _).symm) (fun other outside => ?_) nodup
  have apart : other ≠ cell := fun same => outside (same ▸ member)
  rw [read_write present, if_neg apart]

theorem rebuilt_push (value : Value) (bound : ∀ cell ∈ old, cell < before.fresh)
    (nodup : old.Nodup) :
    Rebuilt before (before.push value) old (before.fresh :: old) where
  grows := by
    rw [fresh_push]
    exact Nat.le_succ _
  kept := by
    intro other _ notNew
    have apart : other ≠ before.fresh := fun same => notNew (same ▸ List.mem_cons_self)
    rw [read_push, if_neg apart]
  made := by
    intro other member
    rcases List.mem_cons.mp member with rfl | again
    · exact .inr (Nat.le_refl _)
    · exact .inl again
  gone := fun other member apart => absurd (List.mem_cons_of_mem _ member) apart
  nodup := List.nodup_cons.mpr ⟨fun member => Nat.lt_irrefl _ (bound _ member), nodup⟩

theorem rebuilt_without (grows : before.fresh ≤ after.fresh)
    (kept : ∀ other, other ∉ cell :: old → after.read other = before.read other)
    (lost : after.read cell = none) (nodup : (cell :: old).Nodup) :
    Rebuilt before after (cell :: old) old where
  grows := grows
  kept := fun other notOld _ => kept other notOld
  made := fun _ member => .inl (List.mem_cons_of_mem _ member)
  gone := by
    intro other member apart
    rcases List.mem_cons.mp member with rfl | inside
    · exact lost
    · exact absurd inside apart
  nodup := (List.nodup_cons.mp nodup).2

theorem rebuilt_give_up (nodup : (cell :: old).Nodup) : Rebuilt before (before.giveUp cell)
    (cell :: old) old := by
  refine rebuilt_without (Nat.le_of_eq (fresh_give_up _ _).symm) (fun other outside => ?_) ?_ nodup
  · have apart : other ≠ cell := fun same => outside (same ▸ List.mem_cons_self)
    rw [read_give_up, if_neg apart]
  · rw [read_give_up, if_pos rfl]

/-! ## A new cell beside two that are rewritten -/

variable {one two : Nat} {was that : Value}

theorem read_beside (first second added : Value) (presentOne : before.read one = some was)
    (presentTwo : before.read two = some that) (cell : Nat) :
    (((before.push added).write two second).write one first).read cell =
      if cell = one then some first else if cell = two then some second else
        if cell = before.fresh then some added else before.read cell := by
  have stays := read_push_of_present presentTwo added
  have alive : (((before.push added).write two second).read one).isSome := by
    rw [read_write stays, read_push_of_present presentOne]
    split_ifs <;> rfl
  rcases Option.isSome_iff_exists.mp alive with ⟨value, present⟩
  rw [read_write present, read_write stays, read_push]

theorem rebuilt_beside (first second added : Value) (presentOne : before.read one = some was)
    (presentTwo : before.read two = some that) (memberOne : one ∈ old) (memberTwo : two ∈ old)
    (bound : ∀ cell ∈ old, cell < before.fresh) (nodup : old.Nodup) :
    Rebuilt before (((before.push added).write two second).write one first) old
    (before.fresh :: old) := by
  have pushed := rebuilt_push added bound nodup
  have stays := read_push_of_present presentTwo added
  have alive : (((before.push added).write two second).read one).isSome := by
    rw [read_write stays, read_push_of_present presentOne]
    split_ifs <;> rfl
  rcases Option.isSome_iff_exists.mp alive with ⟨value, present⟩
  exact rebuilt_trans pushed (rebuilt_trans
    (rebuilt_write stays (List.mem_cons_of_mem _ memberTwo) pushed.nodup)
    (rebuilt_write present (List.mem_cons_of_mem _ memberOne) pushed.nodup))

/-! ## Three cells that are rewritten -/

variable {three : Nat} {other : Value}

theorem present_write (presentOne : before.read one = some was)
    (presentTwo : before.read two = some that) (value : Value) :
    ∃ now, (before.write one value).read two = some now := by
  rw [read_write presentOne]
  split_ifs
  · exact ⟨_, rfl⟩
  · exact ⟨_, presentTwo⟩

theorem read_three (first second third : Value) (presentOne : before.read one = some was)
    (presentTwo : before.read two = some that) (presentThree : before.read three = some other)
    (cell : Nat) :
    (((before.write one first).write two second).write three third).read cell =
      if cell = three then some third else if cell = two then some second else
        if cell = one then some first else before.read cell := by
  rcases present_write presentOne presentTwo first with ⟨nowTwo, readTwo⟩
  rcases present_write presentOne presentThree first with ⟨nowThree, readThree⟩
  rcases present_write readTwo readThree second with ⟨last, readLast⟩
  rw [read_write readLast, read_write readTwo, read_write presentOne]

end TWlib.Lib.CellRegion
