import TWlib.KHashMap

/-!
# Passing over all buckets

A walk with an iterator visits the entries in the order of their buckets, each
once; `removeAll` deletes the value of each once.
-/

namespace TWlib.KHashWalk

open TWlib.Lib.CellStore TWlib.Lib.OpenAddressing TWlib.Lib.FiniteMap TWlib.KHashTable
  TWlib.KHashSearch
  TWlib.KHashPairs TWlib.KHashMap

set_option autoImplicit false

variable {Key Data : Type} {hash : Key → BitVec 32} {equal : Key → Key → Bool} {m : Nat}
  {h : KhA Key} {table : Nat → Slot (Key × Nat)} {pairs : List (Key × Nat)}

theorem kh_exist_eq (sound : Sound hash equal m h table) {i : Nat} (bound : i < 2 ^ (m + 2)) :
    khExist h i = some (table i).content.isSome := by
  rw [khExist, ac_iseither_eq sound.flags bound, Option.map_some]
  cases table i <;> rfl

theorem skip_eq (sound : Sound hash equal m h table) (fuel : Nat) {i : Nat}
    (inside : i ≤ 2 ^ (m + 2)) (enough : 2 ^ (m + 2) - i ≤ fuel) :
    ∃ j, skip h fuel i = some j ∧ i ≤ j ∧ j ≤ 2 ^ (m + 2) ∧
      entriesFrom (2 ^ (m + 2)) i table = entriesFrom (2 ^ (m + 2)) j table ∧
      (j < 2 ^ (m + 2) → ∃ entry, table j = .live entry) := by
  induction fuel generalizing i with
  | zero =>
      refine ⟨i, ?_, Nat.le_refl i, inside, rfl, fun below => by omega⟩
      rw [skip, if_pos (by rw [sound.buckets]; omega)]
  | succ fuel ih =>
      by_cases atEnd_ : i = 2 ^ (m + 2)
      · refine ⟨i, ?_, Nat.le_refl i, inside, rfl, fun below => by omega⟩
        rw [skip, if_pos (by rw [sound.buckets]; exact atEnd_)]
      · have bound : i < 2 ^ (m + 2) := by omega
        have exist := kh_exist_eq sound bound
        have unfolded : skip h (fuel + 1) i =
            (khExist h i).bind fun exist => if exist then some i else skip h fuel (i + 1) := by
          rw [skip, if_neg (by rw [sound.buckets]; exact atEnd_)]
          rfl
        cases slot : table i with
        | live entry =>
            rw [slot] at exist
            refine ⟨i, ?_, Nat.le_refl i, inside, rfl, fun _ => ⟨entry, slot⟩⟩
            rw [unfolded, exist]
            rfl
        | empty =>
            rcases ih (show i + 1 ≤ 2 ^ (m + 2) by omega) (by omega) with ⟨j, ran, lower,
              upper, same, here⟩
            refine ⟨j, ?_, by omega, upper, ?_, here⟩
            · rw [unfolded, exist, slot]
              exact ran
            · rw [entries_from_step bound, slot]
              exact same
        | deleted =>
            rcases ih (show i + 1 ≤ 2 ^ (m + 2) by omega) (by omega) with ⟨j, ran, lower,
              upper, same, here⟩
            refine ⟨j, ?_, by omega, upper, ?_, here⟩
            · rw [unfolded, exist, slot]
              exact ran
            · rw [entries_from_step bound, slot]
              exact same

theorem walk_from_eq (sound : Sound hash equal m h table) (fuel : Nat) {i : Nat}
    (inside : i ≤ 2 ^ (m + 2)) (enough : 2 ^ (m + 2) - i ≤ fuel)
    (here : i < 2 ^ (m + 2) → ∃ entry, table i = .live entry) :
    walkFrom h fuel i = some (entriesFrom (2 ^ (m + 2)) i table) := by
  induction fuel generalizing i with
  | zero =>
      have last : i = 2 ^ (m + 2) := by omega
      have ended : atEnd h i = true := decide_eq_true (by rw [sound.buckets]; exact last)
      rw [walkFrom, if_pos ended, last, entries_from_end]
  | succ fuel ih =>
      by_cases last : i = 2 ^ (m + 2)
      · have ended : atEnd h i = true := decide_eq_true (by rw [sound.buckets]; exact last)
        rw [walkFrom, if_pos ended, last, entries_from_end]
      · have bound : i < 2 ^ (m + 2) := by omega
        have notEnd : ¬ i = h.nBuckets := by
          rw [sound.buckets]
          exact last
        rcases here bound with ⟨entry, slot⟩
        rcases skip_eq sound h.nBuckets (show i + 1 ≤ 2 ^ (m + 2) by omega)
            (by rw [sound.buckets]; omega) with
          ⟨j, skipped, lower, upper, same, next⟩
        have rest := ih upper (by omega) next
        rw [entries_from_step bound, slot, same]
        simp only [walkFrom, atEnd, getNext, notEnd, decide_false, Bool.false_eq_true, if_false,
          sound.stored.key i entry bound slot, sound.stored.val i entry bound slot, skipped, rest,
          Option.bind_eq_bind, Option.bind_some]
        rfl

theorem walk_eq {map : KHash32 Key Data} (held : Represents hash equal map.khashmap pairs) :
    ∃ visited, walk map = some visited ∧ visited.Perm pairs := by
  rcases held with ⟨fresh, none_⟩ | ⟨m, table, sound, all⟩
  · refine ⟨[], ?_, by rw [none_]⟩
    rw [walk, fresh]
    rfl
  · rcases skip_eq sound map.khashmap.nBuckets (Nat.zero_le (2 ^ (m + 2)))
      (by rw [sound.buckets]; exact Nat.sub_le _ _) with ⟨j, skipped, lower, upper, same, next⟩
    have walked := walk_from_eq sound map.khashmap.nBuckets upper
      (by rw [sound.buckets]; omega) next
    refine ⟨entriesFrom (2 ^ (m + 2)) j table, ?_, ?_⟩
    · simp only [walk, gotoStart, skipped, Option.bind_eq_bind, Option.bind_some, walked]
    · rw [← same, entries_from_zero]
      exact all

/-- The values of the entries in the buckets `ks`. -/
def valuesAt (table : Nat → Slot (Key × Nat)) (ks : List Nat) : List Nat :=
  ks.filterMap fun k => ((table k).content).map Prod.snd

theorem remove_all_from_eq (sound : Sound hash equal m h table) (ks : List Nat)
    (inside : ∀ k ∈ ks, k < 2 ^ (m + 2)) (keys : List (Option Key)) (heap : Store Data)
    (apart : (valuesAt table ks).Nodup)
    (present : ∀ cell ∈ valuesAt table ks, (heap.read cell).isSome) :
    ∃ keysAfter heapAfter, removeAllFrom ks ⟨{ h with keys }, heap⟩ =
        some ⟨{ h with keys := keysAfter }, heapAfter⟩ ∧ keysAfter.length = keys.length ∧
      ∀ cell, heapAfter.read cell = if cell ∈ valuesAt table ks then none else heap.read cell := by
  induction ks generalizing keys heap with
  | nil => exact ⟨keys, heap, rfl, rfl, fun cell => by simp [valuesAt]⟩
  | cons k ks ih =>
      have bound := inside k List.mem_cons_self
      have exist : khExist { h with keys } k = some (table k).content.isSome :=
        kh_exist_eq sound bound
      have insideRest : ∀ j ∈ ks, j < 2 ^ (m + 2) :=
        fun j member => inside j (List.mem_cons_of_mem _ member)
      rcases content_or_live (table k) with dead | ⟨entry, slot⟩
      · have first : valuesAt table (k :: ks) = valuesAt table ks := by
          simp [valuesAt, dead]
        rw [first] at apart present ⊢
        rcases ih insideRest keys heap apart present with ⟨keysAfter, heapAfter, ran, length, reads⟩
        refine ⟨keysAfter, heapAfter, ?_, length, reads⟩
        rw [dead] at exist
        simp only [removeAllFrom, exist, Option.isSome_none, Option.bind_eq_bind, Option.bind_some,
          Bool.false_eq_true, if_false]
        exact ran
      · have first : valuesAt table (k :: ks) = entry.2 :: valuesAt table ks := by
          simp [valuesAt, slot, Slot.content]
        rw [first] at apart present
        rcases Option.isSome_iff_exists.mp (present entry.2 List.mem_cons_self) with ⟨value, read⟩
        have stays : ∀ cell ∈ valuesAt table ks, ((heap.giveUp entry.2).read cell).isSome := by
          intro cell member
          have other : cell ≠ entry.2 := fun same => (List.nodup_cons.mp apart).1 (same ▸ member)
          rw [read_give_up, if_neg other]
          exact present cell (List.mem_cons_of_mem _ member)
        rcases ih insideRest (keys.set k none) (heap.giveUp entry.2)
            (List.nodup_cons.mp apart).2 stays with
          ⟨keysAfter, heapAfter, ran, length, reads⟩
        refine ⟨keysAfter, heapAfter, ?_, by rw [length, List.length_set], fun cell => ?_⟩
        · rw [slot] at exist
          have stored : cellAt h.vals k = some entry.2 := sound.stored.val k entry bound slot
          simp only [removeAllFrom, exist, Slot.content, Option.isSome_some, stored,
            deleteValue, read,
            Option.map_some, Option.bind_eq_bind, Option.bind_some, if_true]
          exact ran
        · rw [reads cell, first, read_give_up]
          by_cases here : cell = entry.2
          · simp [here]
          · simp [here]

theorem values_range (n : Nat) (table : Nat → Slot (Key × Nat)) :
    valuesAt table (List.range n) = (entries n table).map Prod.snd := by
  rw [valuesAt, entries, List.map_filterMap]

/-- `removeAll` deletes the values of all pairs and leaves an empty table. -/
theorem remove_all_eq {map : KHash32 Key Data} (held : Represents hash equal map.khashmap pairs)
    (apart : (pairs.map Prod.snd).Nodup) (present : ∀ pair ∈ pairs, (map.heap.read pair.2).isSome) :
    ∃ after, removeAll map = some (after, .done true none) ∧
      Represents hash equal after.khashmap [] ∧
      ∀ cell, after.heap.read cell = if cell ∈ pairs.map Prod.snd then none
      else map.heap.read cell := by
  rcases held with ⟨fresh, none_⟩ | ⟨m, table, sound, all⟩
  · refine ⟨⟨khClear khInit, map.heap⟩, ?_, ?_, fun cell => by simp [none_]⟩
    · have nothing : removeAllFrom (List.range map.khashmap.nBuckets) map = some map := by
        rw [fresh]
        rfl
      simp only [removeAll, nothing, Option.bind_eq_bind, Option.bind_some]
      rw [fresh]
    · exact Or.inl ⟨rfl, rfl⟩
  · have values : (valuesAt table (List.range (2 ^ (m + 2)))).Perm (pairs.map Prod.snd) := by
      rw [values_range]
      exact all.map Prod.snd
    have live : ∀ cell ∈ valuesAt table (List.range (2 ^ (m + 2))),
        (map.heap.read cell).isSome := by
      intro cell member
      rcases List.mem_map.mp (values.mem_iff.mp member) with ⟨pair, held, same⟩
      exact same ▸ present pair held
    rcases remove_all_from_eq sound (List.range (2 ^ (m + 2))) (fun k => List.mem_range.mp)
      map.khashmap.keys map.heap (values.nodup_iff.mpr apart) live with
      ⟨keysAfter, heapAfter, ran, length, reads⟩
    refine ⟨⟨khClear { map.khashmap with keys := keysAfter }, heapAfter⟩, ?_, ?_, fun cell => ?_⟩
    · have started : removeAllFrom (List.range map.khashmap.nBuckets) map =
          some ⟨{ map.khashmap with keys := keysAfter }, heapAfter⟩ := by
        rw [sound.buckets]
        exact ran
      simp only [removeAll, started, Option.bind_eq_bind, Option.bind_some]
    · exact represents_clear (Or.inr ⟨m, table, sound, all⟩) length
    · rw [reads cell]
      simp only [values.mem_iff]

end TWlib.KHashWalk
