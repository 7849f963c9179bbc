import TWlib.DenseTableCalls

/-!
# Loops with iterators of the dense table

A loop from `begin()` to `end()` meets every value once, also when it erases the
value it stands at: an erased bucket is skipped, and no value moves.
-/

namespace TWlib.DenseTableWalk

open TWlib.Lib.OpenAddressing TWlib.Lib.FiniteMap TWlib.DenseTable TWlib.DenseTable.DenseHashtable
  TWlib.DenseTableSearch TWlib.DenseTableUpdate TWlib.DenseTableCopy TWlib.DenseTableResize
  TWlib.DenseTableCalls

set_option autoImplicit false

variable {Key T : Type}

/-! ## The loops -/

section Loops

variable (equal : Key → Key → Bool) (blank : T)

/-- `for ( ; it != end(); ++it )`, with the values that are met. -/
def walkFrom (h : DenseHashtable Key T) : Nat → Nat → Option (List (Key × T))
  | 0, _ => none
  | fuel + 1, it =>
      if it = h.numBuckets then some []
      else do
        let value ← h.cell it
        let next ← h.following equal it
        let rest ← walkFrom h fuel next
        some (value :: rest)

def walk (h : DenseHashtable Key T) : Option (List (Key × T)) := do
  let it ← h.begin equal
  walkFrom equal h (h.numBuckets + 1) it

/-- `for ( ; it != end(); ++it ) if (drop(it->second)) erase(it);`, with the values that are met. -/
def eraseIfFrom (drop : T → Bool) : Nat → DenseHashtable Key T → Nat →
    Option (DenseHashtable Key T × List (Key × T))
  | 0, _, _ => none
  | fuel + 1, h, it =>
      if it = h.numBuckets then some (h, [])
      else do
        let value ← h.cell it
        let h ← if drop value.2 then h.eraseAt equal blank it else some h
        let next ← h.following equal it
        let (h, rest) ← eraseIfFrom drop fuel h next
        some (h, value :: rest)

def eraseIf (h : DenseHashtable Key T) (drop : T → Bool) :
    Option (DenseHashtable Key T × List (Key × T)) := do
  let it ← h.begin equal
  eraseIfFrom equal blank drop (h.numBuckets + 1) h it

/-- `erase(begin(), end())` -/
def eraseAll (h : DenseHashtable Key T) : Option (DenseHashtable Key T) := do
  let it ← h.begin equal
  h.eraseRange equal blank (h.numBuckets + 1) it h.numBuckets

end Loops

/-! ## What they come to -/

variable {hash : Key → BitVec 64} {equal : Key → Key → Bool} {m : Nat} {h : DenseHashtable Key T}
  {slots : Nat → Slot (Key × T)}

theorem walk_from_eq (sound : Sound hash equal m h slots) (fuel : Nat) {it : Nat}
    (stands : AtValue (2 ^ (m + 2)) slots it) (enough : 2 ^ (m + 2) < it + fuel) :
    walkFrom equal h fuel it = some (entriesFrom (2 ^ (m + 2)) it slots) := by
  induction fuel generalizing it with
  | zero =>
      rcases stands with last | ⟨inside, -⟩
      · omega
      · omega
  | succ fuel ih =>
      rw [walkFrom, sound.buckets]
      rcases stands with last | ⟨inside, entry, slot⟩
      · rw [if_pos last, last, entries_from_end]
      · rcases following_eq sound inside with ⟨next, follows, later, standing, same⟩
        rw [if_neg (by omega), (sound_live sound inside slot).1,
          entries_from_value inside slot, same]
        simp only [Option.bind_eq_bind, Option.bind_some, follows, ih standing (by omega)]

theorem walk_eq (sound : Sound hash equal m h slots) :
    walk equal h = some (entries (2 ^ (m + 2)) slots) := by
  rcases begin_eq sound with ⟨it, began, stands, all⟩
  rw [walk, began, all]
  exact walk_from_eq sound _ stands (by rw [sound.buckets]; omega)

/-- What is left of the values when the loop is done, with `front` what is not reached by it. -/
structure Erased (hash : Key → BitVec 64) (equal : Key → Key → Bool) (m : Nat)
    (h after : DenseHashtable Key T) (slots others : Nat → Slot (Key × T)) (it : Nat)
    (keep : Key × T → Bool) : Prop where
  keeps : Keeps h after
  sound : Sound hash equal m after others
  left : ∀ front, (entries (2 ^ (m + 2)) slots).Perm (front ++ entriesFrom (2 ^ (m + 2)) it slots) →
    (entries (2 ^ (m + 2)) others).Perm (front ++ (entriesFrom (2 ^ (m + 2)) it slots).filter keep)
  deletes : Deletes slots others

theorem erased_kept {after : DenseHashtable Key T} {others : Nat → Slot (Key × T)} {it next : Nat}
    {keep : Key × T → Bool} {entry : Key × T}
    (here : entriesFrom (2 ^ (m + 2)) it slots = entry :: entriesFrom (2 ^ (m + 2)) next slots)
    (kept : keep entry = true) (erased : Erased hash equal m h after slots others next keep) :
    Erased hash equal m h after slots others it keep where
  keeps := erased.keeps
  sound := erased.sound
  left front perm := by
    rw [here] at perm
    rw [here, List.filter_cons_of_pos kept]
    have moved := erased.left (front ++ [entry]) (by rw [List.append_assoc]; exact perm)
    rw [List.append_assoc] at moved
    exact moved
  deletes := erased.deletes

theorem erased_gone {middle after : DenseHashtable Key T} {others : Nat → Slot (Key × T)}
    {it next : Nat} {keep : Key × T → Bool} {entry : Key × T} (keeps : Keeps h middle)
    (out : (entries (2 ^ (m + 2)) slots).Perm
      (entry :: entries (2 ^ (m + 2)) (Function.update slots it .deleted)))
    (here : entriesFrom (2 ^ (m + 2)) it slots =
      entry :: entriesFrom (2 ^ (m + 2)) next (Function.update slots it .deleted))
    (gone : keep entry = false)
    (erased : Erased hash equal m middle after (Function.update slots it .deleted) others
      next keep) :
    Erased hash equal m h after slots others it keep where
  keeps := keeps_trans keeps erased.keeps
  sound := erased.sound
  left front perm := by
    rw [here] at perm
    rw [here, List.filter_cons_of_neg (by rw [gone]; exact Bool.false_ne_true)]
    apply erased.left front
    apply (List.perm_cons entry).mp
    exact out.symm.trans (perm.trans List.perm_middle)
  deletes := deletes_trans (deletes_update slots it) erased.deletes

theorem erased_nothing (sound : Sound hash equal m h slots) (keep : Key × T → Bool) :
    Erased hash equal m h h slots slots (2 ^ (m + 2)) keep where
  keeps := ⟨rfl, rfl, rfl, rfl, rfl, rfl, rfl⟩
  sound := sound
  left front perm := by
    rw [entries_from_end] at perm ⊢
    exact perm
  deletes := deletes_refl slots

theorem erase_if_from_eq (lawful : Lawful hash equal) (blank : T) (drop : T → Bool)
    (fuel : Nat) {it : Nat} (sound : Sound hash equal m h slots)
    (used : h.settings.useDeleted = true) (stands : AtValue (2 ^ (m + 2)) slots it)
    (enough : 2 ^ (m + 2) < it + fuel) :
    ∃ after others,
      eraseIfFrom equal blank drop fuel h it = some (after, entriesFrom (2 ^ (m + 2)) it slots) ∧
      Erased hash equal m h after slots others it fun value => !drop value.2 := by
  induction fuel generalizing it h slots with
  | zero =>
      rcases stands with last | ⟨inside, -⟩
      · omega
      · omega
  | succ fuel ih =>
      rw [eraseIfFrom, sound.buckets]
      rcases stands with last | ⟨inside, entry, slot⟩
      · rw [if_pos last, last, entries_from_end]
        exact ⟨h, slots, rfl, erased_nothing sound _⟩
      · rw [if_neg (by omega), (sound_live sound inside slot).1, entries_from_value inside slot]
        cases dropped : drop entry.2 with
        | false =>
            rcases following_eq sound inside with ⟨next, follows, later, standing, same⟩
            rcases ih sound used standing (by omega) with ⟨after, others, done, erased⟩
            refine ⟨after, others, ?_, erased_kept ?_ (by rw [dropped]; rfl) erased⟩
            · simp only [Option.bind_eq_bind, Option.bind_some, dropped, Bool.false_eq_true,
                if_false, follows, done,
                same]
            · rw [entries_from_value inside slot, same]
        | true =>
            rcases erase_at_eq sound lawful blank inside slot used with ⟨middle, gone, keeps,
              soundness, perm⟩
            rcases following_eq soundness inside with ⟨next, follows, later, standing, same⟩
            rcases ih soundness (keeps.useDeleted.trans used) standing (by omega) with ⟨after,
              others, done, erased⟩
            have behind := entries_from_update (n := 2 ^ (m + 2))
              (Nat.lt_succ_self it) slots .deleted
            refine ⟨after, others, ?_, erased_gone keeps perm ?_ (by rw [dropped]; rfl) erased⟩
            · simp only [Option.bind_eq_bind, Option.bind_some, dropped, if_true, gone, follows,
                done, ← same, behind]
            · rw [entries_from_value inside slot, ← same, behind]

theorem erase_if_eq (sound : Sound hash equal m h slots) (lawful : Lawful hash equal) (blank : T)
    (drop : T → Bool) (used : h.settings.useDeleted = true) :
    ∃ after others, eraseIf equal blank h drop = some (after, entries (2 ^ (m + 2)) slots) ∧
      Keeps h after ∧
      Sound hash equal m after others ∧
      (entries (2 ^ (m + 2)) others).Perm ((entries (2 ^ (m + 2)) slots).filter fun value =>
        !drop value.2) ∧
      Deletes slots others := by
  rcases begin_eq sound with ⟨it, began, stands, all⟩
  have enough : 2 ^ (m + 2) < it + (h.numBuckets + 1) := by
    rw [sound.buckets]
    omega
  rcases erase_if_from_eq lawful blank drop _ sound used stands enough with ⟨after, others,
    done, erased⟩
  have left := erased.left [] (by rw [List.nil_append, all])
  rw [List.nil_append, ← all] at left
  refine ⟨after, others, ?_, erased.keeps, erased.sound, left, erased.deletes⟩
  rw [eraseIf, began, all]
  exact done

theorem erase_range_eq (lawful : Lawful hash equal) (blank : T) (fuel : Nat) {it : Nat}
    (sound : Sound hash equal m h slots) (used : h.settings.useDeleted = true)
    (stands : AtValue (2 ^ (m + 2)) slots it) (enough : 2 ^ (m + 2) < it + fuel) :
    ∃ after others, h.eraseRange equal blank fuel it (2 ^ (m + 2)) = some after ∧
      Erased hash equal m h after slots others it fun _ => false := by
  induction fuel generalizing it h slots with
  | zero =>
      rcases stands with last | ⟨inside, -⟩
      · omega
      · omega
  | succ fuel ih =>
      rw [eraseRange]
      rcases stands with last | ⟨inside, entry, slot⟩
      · rw [if_pos last, last]
        have done := erased_nothing (sound_considering sound true) fun _ => false
        exact ⟨considering h true, slots, rfl,
          ⟨keeps_trans (keeps_considering h true) done.keeps, done.sound, done.left, done.deletes⟩⟩
      · rw [if_neg (by omega), if_pos used]
        rcases erase_at_eq sound lawful blank inside slot used with ⟨middle, gone, keeps,
          soundness, perm⟩
        have filled : slots it ≠ .empty := by rw [slot]; simp
        have notEnd : it ≠ h.numBuckets := by rw [sound.buckets]; omega
        rcases sound.reserved used with ⟨delkey, found, apart⟩
        rcases set_value_eq sound.shows_ inside (delkey, blank) with ⟨cells, length,
          written, stored⟩
        -- The function leaves `consider_shrink` to the end, where the iterator's own `erase` sets
        -- it.
        have almost : middle =
            considering { h with table := some cells, numDeleted := h.numDeleted + 1 } true := by
          rw [eraseAt, if_neg notEnd, if_pos used, sound_test_deleted sound inside filled, slot,
            found] at gone
          simp only [isDeletedSlot, Option.bind_eq_bind, Option.bind_some, stored h rfl,
            Bool.false_eq_true,
            if_false] at gone
          cases gone
          rfl
        have back : considering middle h.settings.considerShrink =
            { h with table := some cells, numDeleted := h.numDeleted + 1 } := by
          rw [almost]
          rfl
        have soundBack := sound_considering soundness h.settings.considerShrink
        have keepsBack := keeps_trans keeps (keeps_considering middle h.settings.considerShrink)
        rw [back] at soundBack keepsBack
        rcases following_eq soundBack inside with ⟨next, follows, later, standing, same⟩
        rcases ih soundBack used standing (by omega) with ⟨after, others, done, erased⟩
        have behind := entries_from_update (n := 2 ^ (m + 2)) (Nat.lt_succ_self it) slots .deleted
        refine ⟨after, others, ?_, erased_gone keepsBack perm ?_ rfl erased⟩
        · rw [sound_test_deleted sound inside filled, slot, found]
          simp only [isDeletedSlot, Option.bind_eq_bind, Option.bind_some, stored h rfl,
            Bool.false_eq_true, if_false,
            follows, done]
        · rw [entries_from_value inside slot, ← same, behind]

theorem erase_all_eq (sound : Sound hash equal m h slots) (lawful : Lawful hash equal) (blank : T)
    (used : h.settings.useDeleted = true) :
    ∃ after others, eraseAll equal blank h = some after ∧ Keeps h after ∧
      Sound hash equal m after others ∧
      entries (2 ^ (m + 2)) others = [] ∧ Deletes slots others := by
  rcases begin_eq sound with ⟨it, began, stands, all⟩
  have enough : 2 ^ (m + 2) < it + (h.numBuckets + 1) := by
    rw [sound.buckets]
    omega
  rcases erase_range_eq lawful blank _ sound used stands enough with ⟨after, others, done, erased⟩
  have left := erased.left [] (by rw [List.nil_append, all])
  rw [List.nil_append, List.filter_false, List.perm_nil] at left
  refine ⟨after, others, ?_, erased.keeps, erased.sound, left, erased.deletes⟩
  rw [eraseAll, began, sound.buckets]
  rw [sound.buckets] at done
  exact done

end TWlib.DenseTableWalk
