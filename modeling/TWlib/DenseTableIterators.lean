import TWlib.DenseTableRuns

/-!
# What erasing does to iterators

An iterator is a position. No call that erases moves a value or gives the table
another array, so that an iterator leads to its value until that one is erased,
and the loops go on in the same order over what is left.
-/

namespace TWlib.DenseTableIterators

open TWlib.Lib.OpenAddressing TWlib.Lib.FiniteMap TWlib.DenseTable TWlib.DenseTable.DenseHashtable
  TWlib.DenseTableSearch TWlib.DenseTableUpdate TWlib.DenseTableWalk TWlib.DenseTableRuns

set_option autoImplicit false

variable {Key T : Type}

def run (equal : Key → Key → Bool) (hash : Key → BitVec 64) (blank : T) :
    DenseHashtable Key T → List (Call Key T) → Option (DenseHashtable Key T)
  | h, [] => some h
  | h, call :: calls =>
      (perform equal hash blank h call).bind fun (h, _) => run equal hash blank h calls

/-- What becomes of the iterators of `h` when `content` is left of its values: those that lead to
one of them, and `end()`, are as they were, and they are met in the order they had. -/
structure IteratorsStay (hash : Key → BitVec 64) (equal : Key → Key → Bool)
    (h after : DenseHashtable Key T) (content : Content Key T) : Prop where
  ends : after.numBuckets = h.numBuckets
  found : ∀ key pos, h.find equal hash key = some pos → (content key).isSome →
    after.find equal hash key = some pos ∧ ∃ value, h.cell pos = some value ∧
    after.cell pos = some value
  order : ∃ values left, walk equal h = some values ∧ walk equal after = some left ∧
    left.Sublist values

variable {hash : Key → BitVec 64} {equal : Key → Key → Bool} {emptykey : Key}
  {h after : DenseHashtable Key T} {spec next : Spec Key T} {m : Nat}
  {slots others : Nat → Slot (Key × T)} {blank : T} {call : Call Key T}

/-! ## One table and a later one -/

theorem find_live (sound : Sound hash equal m h slots) (lawful : Lawful hash equal)
    {key : Key} {pos : Nat} {entry : Key × T} (inside : pos < 2 ^ (m + 2))
    (slot : slots pos = .live entry) (same : SameKey equal entry.1 key) :
    h.find equal hash key = some pos := by
  rcases find_eq sound lawful key with ⟨found, absent⟩ | ⟨there, other, found, bound, held, equals⟩
  · exact absurd same (absent entry (mem_entries.mpr ⟨pos, inside, slot⟩))
  · have both : SameKey equal other.1 entry.1 :=
      lawful.equivalence.trans equals (lawful.equivalence.symm same)
    have here := placed_unique sound.placed (fun _ _ => lawful.equivalence.symm) bound inside
      held slot both
    rw [found, here]

theorem iterators_stay (lawful : Lawful hash equal) (sound : Sound hash equal m h slots)
    (held : Holds hash equal emptykey after next m others) (deletes : Deletes slots others) :
    IteratorsStay hash equal h after next.content where
  ends := held.sound.buckets.trans sound.buckets.symm
  found key pos here left := by
    rcases Option.isSome_iff_exists.mp left with ⟨data, present⟩
    rcases (held.lists.known key data).mp present with ⟨entry, member, same, -⟩
    rcases mem_entries.mp member with ⟨i, inside, slot⟩
    have before := deletes_live deletes slot
    have first := find_live sound lawful inside before same
    rw [here] at first
    cases first
    exact ⟨find_live held.sound lawful inside slot same, entry, (sound_live sound inside before).1,
      (sound_live held.sound inside slot).1⟩
  order := ⟨_, _, walk_eq sound, walk_eq held.sound, entries_sublist deletes _⟩

/-! ## Every run -/

theorem meaning_delkey (erases : call.erases = true) :
    (meaning equal blank spec call).delkey = spec.delkey := by
  cases call with
  | find | count | erase | eraseFound | eraseIf | eraseAll | items | size => rfl
  | insert | index | assign | clear | clearNoResize | resize | setDeletedKey | clearDeletedKey =>
      cases erases

theorem allowed_same (same : next.delkey = spec.delkey) (erases : call.erases = true)
    (allowed : Allowed equal emptykey spec call) : Allowed equal emptykey next call := by
  cases call with
  | find | count | items | size => trivial
  | erase =>
      simp only [Allowed, Storable, same]
      exact allowed
  | eraseFound | eraseIf | eraseAll =>
      simp only [Allowed, same]
      exact allowed
  | insert | index | assign | clear | clearNoResize | resize | setDeletedKey | clearDeletedKey =>
      cases erases

theorem run_stays (lawful : Lawful hash equal) (held : Holds hash equal emptykey h spec m slots)
    (calls : List (Call Key T))
    (erasing : ∀ call ∈ calls, call.erases = true ∧ Allowed equal emptykey spec call) :
    ∃ after others, run equal hash blank h calls = some after ∧
      Holds hash equal emptykey after (calls.foldl (meaning equal blank) spec) m others ∧
      Deletes slots others := by
  induction calls generalizing h spec slots with
  | nil => exact ⟨h, slots, rfl, held, deletes_refl slots⟩
  | cons call calls inductionHypothesis =>
      have here := erasing call List.mem_cons_self
      rcases perform_stays blank lawful held here.2 here.1 with
        ⟨middle, reply, between, performed, -, holds, deletes⟩
      have later : ∀ other ∈ calls, other.erases = true ∧
          Allowed equal emptykey (meaning equal blank spec call) other := by
        intro other member
        have rest := erasing other (List.mem_cons_of_mem _ member)
        exact ⟨rest.1, allowed_same (meaning_delkey here.1) rest.1 rest.2⟩
      rcases inductionHypothesis holds later with ⟨after, others, ran, last, further⟩
      refine ⟨after, others, ?_, last, deletes_trans deletes further⟩
      rw [run, performed]
      exact ran

variable {null emptyval : Key × T}

/-- `erase()` is guaranteed not to invalidate any iterators, however often it is called and in
whichever way. -/
theorem dense_erasures_keep_iterators (lawful : Lawful hash equal)
    (reached : Reached hash equal blank null emptyval h spec) (calls : List (Call Key T))
    (erasing : ∀ call ∈ calls, call.erases = true ∧ Allowed equal emptyval.1 spec call) :
    ∃ after, run equal hash blank h calls = some after ∧
      IteratorsStay hash equal h after (calls.foldl (meaning equal blank) spec).content := by
  rcases reached_holds lawful reached with ⟨m, slots, held⟩
  rcases run_stays lawful held calls erasing with ⟨after, others, ran, last, deletes⟩
  exact ⟨after, ran, iterators_stay lawful held.sound last deletes⟩

/-- Of two keys that collide the first one is erased, and the other is found where it was. -/
theorem dense_erasures_keep_iterators_colliding :
    ∃ h after : DenseHashtable Nat Nat, ∃ spec : Spec Nat Nat,
      h.find (fun left right => left == right) (fun key => BitVec.ofNat 64 (key % 3)) 7 = some 2 ∧
      run (fun left right => left == right) (fun key => BitVec.ofNat 64 (key % 3)) 0 h
        [.erase 4, .eraseIf (· = 50), .items] = some after ∧
      IteratorsStay (fun key => BitVec.ofNat 64 (key % 3)) (fun left right => left == right) h after
        ([.erase 4, .eraseIf (· = 50), .items].foldl (meaning (fun left right => left == right) 0)
          spec).content ∧
      after.find (fun left right => left == right) (fun key => BitVec.ofNat 64 (key % 3)) 7 =
      some 2 := by
  have lawful : Lawful (fun key : Nat => BitVec.ofNat 64 (key % 3)) (fun left right =>
    left == right) := lawful_eq _
  obtain ⟨first, second, third, fourth, made, deleted, four, seven, fewFirst, fewSecond,
      fewThird, there⟩ :
      ∃ first second third fourth : DenseHashtable Nat Nat,
        start (fun left right => left == right) (0, 0) (1000, 0) 0 = some first ∧
        perform (fun left right => left == right) (fun key => BitVec.ofNat 64 (key % 3)) 0 first
          (.setDeletedKey 1001) = some (second, .done) ∧
        perform (fun left right => left == right) (fun key => BitVec.ofNat 64 (key % 3)) 0 second
          (.assign 4 40) = some (third, .done) ∧
        perform (fun left right => left == right) (fun key => BitVec.ofNat 64 (key % 3)) 0 third
          (.assign 7 70) = some (fourth, .done) ∧
        first.numBuckets ≤ 2 ^ 60 ∧ second.numBuckets ≤ 2 ^ 60 ∧ third.numBuckets ≤ 2 ^ 60 ∧
        fourth.find (fun left right => left == right) (fun key => BitVec.ofNat 64 (key % 3))
        7 = some 2 :=
    ⟨_, _, _, _, rfl, rfl, rfl, rfl, by decide, by decide, by decide, rfl⟩
  have fresh : Reached (fun key => BitVec.ofNat 64 (key % 3)) (fun left right => left == right) 0
      (0, 0) (1000, 0)
      first ⟨fun _ => none, none⟩ := .start (show 0 < 2 ^ 62 by decide) made
  have reserved := fresh.call (by simp [Allowed, SameKey]) fewFirst deleted
  have filled := reserved.call (by simp [Allowed, Storable, SameKey, meaning]) fewSecond four
  have reached := filled.call (by simp [Allowed, Storable, SameKey, meaning]) fewThird seven
  rcases dense_erasures_keep_iterators lawful reached [.erase 4, .eraseIf (· = 50), .items]
    (by simp [Call.erases, Allowed, Storable, SameKey, meaning]) with ⟨after, ran, stay⟩
  exact ⟨fourth, after, _, there, ran, stay, (stay.found 7 2 there (by decide)).1⟩

end TWlib.DenseTableIterators
