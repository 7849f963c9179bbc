import TWlib.KTreeObservers

/-!
# Runs of a B-tree

A run of `kb_put` and `kb_del` from a tree that `kb_init` made, next to what the same run does to
the number of equals of each key, and to a sorted list where no two keys are equal.
-/

namespace TWlib.KTree

open TWlib.Lib.CellStore
open TWlib.Lib.MachineInt
open TWlib.Lib.SortedList
open TWlib.Lib.SortedBag

set_option autoImplicit false

variable {Key : Type} {cmp : Key → Key → Int} {height : Nat} {piece : Piece Key}
    {b next : KbTree Key}

inductive Call (Key : Type) where
  | put (key : Key)
  | del (key : Key)

section Calls

variable (cmp : Key → Key → Int)

/-- The tree after the calls, and what the calls of `kb_del` returned. -/
def kbRun : List (Call Key) → KbTree Key → Option (KbTree Key × List Key)
  | [], b => some (b, [])
  | .put key :: calls, b => do kbRun calls (← kbPutp cmp b key)
  | .del key :: calls, b => do
      let (b, ret) ← kbDelp cmp b key
      let (b, rets) ← kbRun calls b
      some (b, ret :: rets)

def counted (count : Key → Nat) : Call Key → Key → Nat
  | .put key, other => count other + if cmp other key = 0 then 1 else 0
  | .del key, other => count other - if cmp other key = 0 then 1 else 0

def countAfter : List (Call Key) → (Key → Nat) → Key → Nat
  | [], count => count
  | call :: calls, count => countAfter calls (counted cmp count call)

/-- No key is removed when there is none. -/
def Posed : List (Call Key) → (Key → Nat) → Prop
  | [], _ => True
  | .put key :: calls, count => Posed calls (counted cmp count (.put key))
  | .del key :: calls, count => 0 < count key ∧ Posed calls (counted cmp count (.del key))

instance decidablePosed : ∀ (calls : List (Call Key))
    (count : Key → Nat), Decidable (Posed cmp calls count)
  | [], _ => .isTrue trivial
  | .put _ :: calls, _ => decidablePosed calls _
  | .del _ :: calls, _ => @instDecidableAnd _ _ _ (decidablePosed calls _)

/-- No key is added when there is one, and none is removed when there is none. -/
def Distinct : List (Call Key) → List Key → Prop
  | [], _ => True
  | .put key :: calls, keys => lookup cmp key keys = none ∧ Distinct calls (add cmp key keys)
  | .del key :: calls, keys => (lookup cmp key keys).isSome ∧ Distinct calls (drop cmp key keys)

instance decidableDistinct : ∀ (calls : List (Call Key))
    (keys : List Key), Decidable (Distinct cmp calls keys)
  | [], _ => .isTrue trivial
  | .put _ :: calls, _ =>
      @instDecidableAnd _ _ (decidable_of_iff _ Option.isNone_iff_eq_none)
        (decidableDistinct calls _)
  | .del _ :: calls, _ => @instDecidableAnd _ _ _ (decidableDistinct calls _)

def listAfter : List (Call Key) → List Key → List Key
  | [], keys => keys
  | .put key :: calls, keys => listAfter calls (add cmp key keys)
  | .del key :: calls, keys => listAfter calls (drop cmp key keys)

def removals : List (Call Key) → List Key → List (Key × Option Key)
  | [], _ => []
  | .put key :: calls, keys => removals calls (add cmp key keys)
  | .del key :: calls, keys => (key, lookup cmp key keys) :: removals calls (drop cmp key keys)

end Calls

/-! ## One call after another -/

theorem present_of_count {key : Key} {keys : List Key} (some' : 0 < copies cmp key keys) :
    ¬ ∀ other ∈ keys, cmp key other ≠ 0 := fun apart =>
    Nat.ne_of_gt some' (copies_eq_zero.mpr apart)

theorem absent_of_lookup {key : Key} {keys : List Key} : lookup cmp key keys = none ↔
    ∀ other ∈ keys, cmp key other ≠ 0 := by
  simp [lookup]

theorem delp_present (lawful : Lawful cmp) (represents : Represents cmp b height piece) {key : Key}
    (present : ¬ ∀ other ∈ piece.keys, cmp key other ≠ 0) :
    ∃ next result height' after, kbDelp cmp b key = some (next, result) ∧
      Represents cmp next height' after ∧
      Removed cmp key piece.keys result after.keys := by
  rcases delp_spec lawful represents key with
    ⟨next, result, height', after, -, run, represents', -, removed | slipped, -⟩ | ⟨-, -, absent⟩
  · exact ⟨next, result, height', after, run, represents', removed⟩
  · exact absurd (absent_of_lookup.mp (slipped_absent slipped)) present
  · exact absurd absent present

theorem run_counts (lawful : Lawful cmp) (calls : List (Call Key)) :
    ∀ {b : KbTree Key} {height : Nat} {piece : Piece Key}
    {count : Key → Nat}, Represents cmp b height piece →
    (∀ key, copies cmp key piece.keys = count key) →
    Posed cmp calls count → ∃ next rets height' after, kbRun cmp calls b = some (next, rets) ∧
      Represents cmp next height' after ∧ ∀ key, copies cmp key after.keys =
      countAfter cmp calls count key := by
  induction calls with
  | nil => exact fun represents counts _ => ⟨_, _, _, _, rfl, represents, counts⟩
  | cons call calls inductionHypothesis =>
      intro b height piece count represents counts posed
      cases call with
      | put key =>
          rcases putp_spec lawful represents key with ⟨middle, height', between, put, represents',
            -, inserted, -⟩
          have counts' : ∀ other, copies cmp other between.keys = counted cmp count
              (.put key) other := by
            intro other
            rw [copies_inserted inserted, counts, counted]
          rcases inductionHypothesis represents' counts' posed with ⟨next, rets, height'',
            after, run, rest⟩
          exact ⟨next, rets, height'', after, by simp [kbRun, put, run], rest⟩
      | del key =>
          rcases delp_present lawful represents (present_of_count
              ((counts key).symm ▸ posed.1)) with
            ⟨middle, result, height', between, del, represents', removed⟩
          have counts' : ∀ other, copies cmp other between.keys = counted cmp count
              (.del key) other := by
            intro other
            rw [counted, ← counts, copies_removed lawful removed, Nat.add_sub_cancel]
          rcases inductionHypothesis represents' counts' posed.2 with ⟨next, rets, height'',
            after, run, rest⟩
          exact ⟨next, result :: rets, height'', after, by simp [kbRun, del, run], rest⟩

theorem run_lists (lawful : Lawful cmp) (calls : List (Call Key)) :
    ∀ {b : KbTree Key} {height : Nat} {piece : Piece Key},
    Represents cmp b height piece → Increasing cmp piece.keys → Distinct cmp calls piece.keys →
    ∃ next rets height' after, kbRun cmp calls b = some (next, rets) ∧
      Represents cmp next height' after ∧
      after.keys = listAfter cmp calls piece.keys ∧ Increasing cmp after.keys ∧
      List.Forall₂ (fun due ret => due.2 = some ret ∨ ret = due.1)
      (removals cmp calls piece.keys) rets := by
  induction calls with
  | nil => exact fun represents increasing _ => ⟨_, _, _, _, rfl, represents, rfl, increasing, .nil⟩
  | cons call calls inductionHypothesis =>
      intro b height piece represents increasing distinct
      cases call with
      | put key =>
          rcases putp_spec lawful represents key with ⟨middle, height', between, put, represents',
            -, inserted, -⟩
          have keys := inserted_add lawful distinct.1 inserted
          have order := increasing_inserted lawful increasing distinct.1 inserted
          rcases inductionHypothesis represents' order (keys ▸ distinct.2) with ⟨next, rets,
            height'', after, run, rest⟩
          rw [keys] at rest
          exact ⟨next, rets, height'', after, by simp [kbRun, put, run], rest⟩
      | del key =>
          have present : ¬ ∀ other ∈ piece.keys, cmp key other ≠ 0 := by
            rw [← absent_of_lookup]
            exact Option.isSome_iff_ne_none.mp distinct.1
          rcases delp_present lawful represents present with ⟨middle, result, height', between, del,
            represents', removed⟩
          rcases removed_drop lawful increasing removed with ⟨keys, stored, found, answer⟩
          have order : Increasing cmp between.keys := keys ▸ increasing.filter _
          rcases inductionHypothesis represents' order (keys ▸ distinct.2) with
            ⟨next, rets, height'', after, run, represents'', keys', order', answers⟩
          rw [keys] at keys' answers
          refine ⟨next, result :: rets, height'', after, by simp [kbRun, del, run], represents'',
            keys', order', ?_⟩
          refine .cons ?_ answers
          rcases answer with rfl | rfl
          · exact .inl found
          · exact .inr rfl

/-- Every run that comes to its end, also one that removes keys that are not there. The nodes that
`lost` counts were freed by merges, and `n_nodes` has kept them. -/
theorem run_represents (lawful : Lawful cmp) (calls : List (Call Key)) : ∀ {b next : KbTree Key}
    {rets : List Key} {height : Nat} {piece : Piece Key}, Represents cmp b height piece →
    kbRun cmp calls b = some (next, rets) →
    ∃ height' after lost, Represents cmp next height' after ∧ next.layout = b.layout ∧
      Counts b next piece.cells.length (after.cells.length + lost) ∧
      after.cells.length + lost + b.nodes.fresh ≤ piece.cells.length + next.nodes.fresh ∧
        ((∀ call ∈ calls, ∃ key, call = .put key) → lost = 0) := by
  induction calls with
  | nil =>
      intro b next rets height piece represents run
      cases run
      exact ⟨height, piece, 0, represents, rfl, counts_unchanged rfl _, Nat.le_refl _, fun _ => rfl⟩
  | cons call calls inductionHypothesis =>
      intro b next rets height piece represents run
      cases call with
      | put key =>
          rcases putp_spec lawful represents key with
            ⟨middle, height', between, put, represents', layout', -, counts, made⟩
          simp only [kbRun, put, Option.bind_eq_bind, Option.bind_some] at run
          rcases inductionHypothesis represents' run with
            ⟨height'', after, lost, represents'', layout'', counts', made', exact'⟩
          refine ⟨height'', after, lost, represents'', layout''.trans layout',
            counts_trans counts counts' (by omega),
            by omega, fun puts => ?_⟩
          exact exact' fun call member => puts call (List.mem_cons_of_mem _ member)
      | del key =>
          rcases delp_spec lawful represents key with
            ⟨middle, result, height', between, lost, del, represents', layout', -, counts, made⟩
              | ⟨none', -⟩
          · simp only [kbRun, del, Option.bind_eq_bind, Option.bind_some,
              Option.bind_eq_some_iff] at run
            rcases run with ⟨⟨last, rest⟩, run, same⟩
            obtain ⟨rfl, rfl⟩ : last = next ∧ result :: rest = rets := by simpa using same
            rcases inductionHypothesis represents' run with
              ⟨height'', after, more, represents'', layout'', counts', made', -⟩
            refine ⟨height'', after, lost + more, represents'', layout''.trans layout',
              counts_trans counts counts' (by omega), by omega, fun puts => ?_⟩
            rcases puts _ List.mem_cons_self with ⟨_, impossible⟩
            cases impossible
          · simp [kbRun, none'] at run

theorem traverse_represents (represents : Represents cmp b height piece) :
    kbTraverse b = some piece.keys :=
  traverse_spec represents.formed represents.built represents.top represents.nodup

/-! ## Runs from a new tree -/

theorem exists_init : ∃ b : KbTree Int, kbInit 60 8 8 = some b := ⟨_, rfl⟩

theorem exists_run (calls : List (Call Int)) (test : KbTree Int → Bool)
    (works : (((kbInit 60 8 8).bind (kbRun kbGenericCmp calls)).any fun done =>
      test done.1) = true) :
    ∃ b next rets, kbInit 60 8 8 = some b ∧ kbRun kbGenericCmp calls b = some (next, rets) ∧
    test next = true := by
  rcases (Option.any_eq_true _ _).mp works with ⟨⟨next, rets⟩, done, passed⟩
  rcases Option.bind_eq_some_iff.mp done with ⟨b, made, ran⟩
  exact ⟨b, next, rets, made, ran, passed⟩

variable {size : Int} {counted keySize : Nat} {calls : List (Call Key)} {rets : List Key}

/-- A run that removes only keys that are there comes to its end. The tree then holds its keys in
order, as many equals of each as were added and not removed, and a search finds a key exactly when
there is one. -/
theorem kb_run_counts (lawful : Lawful cmp) (made : kbInit size counted keySize = some b)
    (posed : Posed cmp calls fun _ => 0) :
    ∃ next rets keys, kbRun cmp calls b = some (next, rets) ∧ kbTraverse next = some keys ∧
      Ascending cmp keys ∧
      (∀ key, copies cmp key keys = countAfter cmp calls (fun _ => 0) key) ∧
      next.nKeys = asInt keys.length ∧
      ∀ key, (kbGetp cmp next key = some none ∧ countAfter cmp calls (fun _ => 0) key = 0) ∨
        ∃ place stored, kbGetp cmp next key = some (some place) ∧ keyAt next place = some stored ∧
          cmp key stored = 0 ∧
          0 < countAfter cmp calls (fun _ => 0) key := by
  rcases init_spec cmp made with ⟨piece, represents, keys, -, -⟩
  have start : ∀ key, copies cmp key piece.keys = (fun _ : Key => 0) key :=
    fun key => by rw [keys]; rfl
  rcases run_counts lawful calls represents start posed with
    ⟨next, rets, height, after, run, represents', counts⟩
  refine ⟨next, rets, after.keys, run, traverse_represents represents', represents'.ascending,
    counts, represents'.count,
    fun key => ?_⟩
  rw [← counts key]
  rcases get_spec lawful represents' key with ⟨place, found, lands⟩
  rcases lands with ⟨rfl, apart⟩ | ⟨here, stored, rfl, member, read, equal⟩
  · exact .inl ⟨found, copies_eq_zero.mpr apart⟩
  · refine .inr ⟨here, stored, found, read, equal, Nat.pos_of_ne_zero fun none' => ?_⟩
    exact copies_eq_zero.mp none' stored member equal

theorem kb_run_counts_generic : ∃ b next rets keys, kbInit 60 8 8 = some b ∧
    kbRun kbGenericCmp [.put (5 : Int), .put 3, .put 5, .put 8, .del 5, .del 3] b =
      some (next, rets) ∧
      kbTraverse next = some keys ∧ Ascending kbGenericCmp keys ∧
      copies kbGenericCmp 5 keys = 1 := by
  rcases exists_init with ⟨b, made⟩
  have posed : Posed kbGenericCmp [.put (5 : Int), .put 3, .put 5, .put 8, .del 5, .del 3] fun _ =>
    0 := by decide +kernel
  rcases kb_run_counts lawful_generic_cmp made posed with ⟨next, rets, keys, run, walk,
    order, counts, -⟩
  exact ⟨b, next, rets, keys, made, run, walk, order, counts 5⟩

/-- Where no key is added twice, the tree is a sorted list, and a removal returns the stored key or
the one that it was called with. -/
theorem kb_run_lists (lawful : Lawful cmp) (made : kbInit size counted keySize = some b)
    (distinct : Distinct cmp calls []) :
    ∃ next rets, kbRun cmp calls b = some (next, rets) ∧
      kbTraverse next = some (listAfter cmp calls []) ∧
      next.nKeys = asInt (listAfter cmp calls []).length ∧
      List.Forall₂ (fun due ret => due.2 = some ret ∨ ret = due.1) (removals cmp calls []) rets ∧
      ∀ key, ∃ place, kbGetp cmp next key = some place ∧
        place.map (keyAt next) = (lookup cmp key (listAfter cmp calls [])).map some := by
  rcases init_spec cmp made with ⟨piece, represents, keys, -, -⟩
  rcases run_lists lawful calls represents (keys ▸ .nil) (keys ▸ distinct) with
    ⟨next, rets, height, after, run, represents', same, increasing, answers⟩
  rw [keys] at same answers
  refine ⟨next, rets, run, same ▸ traverse_represents represents', same ▸ represents'.count,
    answers, fun key => ?_⟩
  rcases get_spec lawful represents' key with ⟨place, found, lands⟩
  refine ⟨place, found, ?_⟩
  rw [← same]
  rcases lands with ⟨rfl, apart⟩ | ⟨here, stored, rfl, member, read, equal⟩
  · rw [absent_of_lookup.mpr apart]
    rfl
  · rw [lookup_mem lawful increasing member equal, Option.map_some, Option.map_some, read]

theorem kb_run_lists_generic : ∃ b next rets, kbInit 60 8 8 = some b ∧
    kbRun kbGenericCmp [.put (5 : Int), .put 3, .put 9, .put 8, .del 5, .put 1] b =
      some (next, rets) ∧
      kbTraverse next = some [1, 3, 8, 9] ∧ next.nKeys = 4 := by
  rcases exists_init with ⟨b, made⟩
  have distinct : Distinct kbGenericCmp [.put (5 : Int), .put 3, .put 9, .put 8, .del 5,
    .put 1] [] := by decide +kernel
  rcases kb_run_lists lawful_generic_cmp made distinct with ⟨next, rets, run, keys, count, -⟩
  exact ⟨b, next, rets, made, run, keys, count⟩

/-- `kb_del` for a key that is not there never leaves the tree as it is: it goes out of the keys of
a leaf, or removes and returns the key before the place of that key. -/
theorem kb_del_absent (lawful : Lawful cmp) (made : kbInit size counted keySize = some b)
    (ran : kbRun cmp calls b = some (next, rets)) {key : Key}
    (absent : kbGetp cmp next key = some none) :
    (kbDelp cmp next key = none ∧ BeforeFirst cmp key next next.root) ∨
    ∃ after result early late, kbDelp cmp next key = some (after, result) ∧
      kbTraverse next = some (early ++ result :: late) ∧ kbTraverse after = some (early ++ late) ∧
        Splits cmp key (early ++ [result]) late ∧ after.nKeys = asInt (next.nKeys - 1) := by
  rcases init_spec cmp made with ⟨piece, represents, -⟩
  rcases run_represents lawful calls represents ran with ⟨height, now, -, represents', -⟩
  rcases get_spec lawful represents' key with ⟨place, found, lands⟩
  have apart : ∀ other ∈ now.keys, cmp key other ≠ 0 := by
    rw [found, Option.some.injEq] at absent
    rcases lands with ⟨-, apart⟩ | ⟨here, stored, rfl, -⟩
    · exact apart
    · cases absent
  rcases delp_spec lawful represents' key with
    ⟨after, result, height', then', -, del, represents'', -, removed | slipped, -⟩
      | ⟨none', before, -⟩
  · rcases removed with ⟨early, here, late, same, equal, -⟩
    exact absurd equal (apart here (same ▸ List.mem_append_right _ List.mem_cons_self))
  · have shorter := slipped_length slipped
    rcases slipped with ⟨early, late, before, behind, splits⟩
    refine .inr ⟨after, result, early, late, del, before ▸ traverse_represents represents',
      behind ▸ traverse_represents represents'', splits, ?_⟩
    rw [represents''.count, represents'.count, shorter, Int.sub_eq_add_neg, as_int_add_as_int]
    congr 1
    push_cast
    omega
  · exact .inl ⟨none', before⟩

/-- Below 4 there is the 3, in a leaf whose other keys stay; below 2 there is none. -/
theorem kb_del_absent_generic : ∃ b next rets, kbInit 60 8 8 = some b ∧
    kbRun kbGenericCmp [.put (5 : Int), .put 3, .put 9, .put 8] b = some (next, rets) ∧
      (∃ after early late, kbDelp kbGenericCmp next 4 = some (after, 3) ∧
        kbTraverse next = some (early ++ 3 :: late) ∧ kbTraverse after = some (early ++ late)) ∧
      BeforeFirst kbGenericCmp 2 next next.root := by
  rcases exists_run [.put 5, .put 3, .put 9, .put 8] (fun b => kbGetp kbGenericCmp b 4 ==
    some none &&
    (kbDelp kbGenericCmp b 4).map Prod.snd == some 3 && kbGetp kbGenericCmp b 2 == some none &&
      (kbDelp kbGenericCmp b 2).isNone) (by decide +kernel) with ⟨b, next, rets, made, ran, tests⟩
  simp only [Bool.and_eq_true, beq_iff_eq, Option.isNone_iff_eq_none] at tests
  rcases tests with ⟨⟨⟨absent, gives⟩, below⟩, fails⟩
  refine ⟨b, next, rets, made, ran, ?_, ?_⟩
  · rcases kb_del_absent lawful_generic_cmp made ran absent with
      ⟨none', -⟩ | ⟨after, result, early, late, del, walk, walkAfter, -⟩
    · rw [none'] at gives
      cases gives
    · rw [del] at gives
      cases gives
      exact ⟨after, early, late, del, walk, walkAfter⟩
  · rcases kb_del_absent lawful_generic_cmp made ran below with ⟨-, before⟩ | ⟨after, result,
      -, -, del, -⟩
    · exact before
    · rw [fails] at del
      cases del

/-- All nodes in memory are those of the tree. `n_nodes` is an `int` that counts besides the nodes
that merges have freed, and none when nothing was removed; with at most `INT_MAX` nodes ever made it
is at least their number. `kb_destroy` frees each of them once. -/
theorem kb_run_nodes (lawful : Lawful cmp) (made : kbInit size counted keySize = some b)
    (ran : kbRun cmp calls b = some (next, rets)) :
    ∃ (cells : List Nat) (lost : Nat), cells.Nodup ∧
      (∀ cell, cell ∈ cells ↔ (next.nodes.read cell).isSome) ∧
      next.nNodes = asInt (cells.length + lost) ∧
      (next.nodes.fresh ≤ intMax → next.nNodes = cells.length + lost) ∧
      ((∀ call ∈ calls, ∃ key, call = .put key) → lost = 0) ∧
        ∃ rest, kbDestroy next = some rest ∧ ∀ cell, rest.read cell = none := by
  rcases init_spec cmp made with ⟨piece, represents, -, first, all, -⟩
  rcases run_represents lawful calls represents ran with ⟨height, after, lost, represents', -,
    counts, few, exact'⟩
  have alive := built_cells_alive _ represents'.built
  rcases destroy_spec represents'.built represents'.top represents'.nodup with ⟨rest,
    destroyed, reads⟩
  have held : next.nNodes = asInt (after.cells.length + lost) := by
    have same := as_int_eq_iff.mp counts.same
    rw [← as_int_of_is_int represents'.isInt]
    apply as_int_eq_iff.mpr
    push_cast at same
    omega
  refine ⟨after.cells, lost, represents'.nodup, fun cell => ⟨alive cell, represents'.only cell⟩,
    held, fun fits => ?_,
    exact', rest, destroyed, fun cell => ?_⟩
  · rw [held]
    exact as_int_of_bounds (by omega) (by omega)
  · rw [reads]
    split_ifs with inside
    · rfl
    · by_contra present
      exact inside (represents'.only cell (Option.isSome_iff_ne_none.mpr present))

/-- Here merges have freed nodes that `n_nodes` still counts. -/
theorem kb_run_nodes_generic : ∃ b next rets, kbInit 60 8 8 = some b ∧
    kbRun kbGenericCmp [.put (5 : Int), .put 3, .put 9, .put 8, .put 1, .put 7, .put 10, .put 11,
      .put 12, .put 13,
      .del 1, .del 3] b = some (next, rets) ∧
      ∃ (cells : List Nat) (lost : Nat), cells.Nodup ∧
        (∀ cell, cell ∈ cells ↔ (next.nodes.read cell).isSome) ∧
        next.nNodes = 6 ∧ next.nNodes = cells.length + lost ∧
          ∃ rest, kbDestroy next = some rest ∧ ∀ cell, rest.read cell = none := by
  rcases exists_run [.put 5, .put 3, .put 9, .put 8, .put 1, .put 7, .put 10, .put 11, .put 12,
    .put 13, .del 1, .del 3]
    (fun b => decide (b.nodes.fresh ≤ 10 ∧ b.nNodes = 6)) (by decide +kernel) with ⟨b, next, rets,
      made, ran, tests⟩
  rcases of_decide_eq_true tests with ⟨few, six⟩
  rcases kb_run_nodes lawful_generic_cmp made ran with ⟨cells, lost, nodup, all, -, count,
    -, destroyed⟩
  exact ⟨b, next, rets, made, ran, cells, lost, nodup, all, six,
    count (by simp only [intMax]; omega), destroyed⟩

/-- The leftmost leaf is the node that `kb_init` made, the only leaf whose block has room for the
pointer that `kb_get_first` reads. -/
theorem kb_run_first (lawful : Lawful cmp) (made : kbInit size counted keySize = some b)
    (ran : kbRun cmp calls b = some (next, rets)) :
    ∃ keys, kbTraverse next = some keys ∧ kbGetFirst next = keys.head? ∧
    (0 < next.nKeys → (kbGetFirst next).isSome) := by
  rcases init_spec cmp made with ⟨piece, represents, -⟩
  rcases run_represents lawful calls represents ran with ⟨height, after, -, represents', -⟩
  refine ⟨after.keys, traverse_represents represents', first_spec represents', fun some' => ?_⟩
  rw [first_spec represents']
  cases keys : after.keys with
  | nil =>
      have count : next.nKeys = asInt 0 := by
        rw [represents'.count, keys]
        rfl
      rw [count] at some'
      exact absurd some' (by decide)
  | cons key keys => rfl

theorem kb_run_first_generic : ∃ b next rets, kbInit 60 8 8 = some b ∧
    kbRun kbGenericCmp [.put (5 : Int), .put 3, .put 9, .put 8, .del 3] b = some (next, rets) ∧
      ∃ keys, kbTraverse next = some keys ∧ kbGetFirst next = keys.head? := by
  rcases exists_run [.put 5, .put 3, .put 9, .put 8, .del 3] (fun _ => true)
      (by decide +kernel) with
    ⟨b, next, rets, made, ran, -⟩
  rcases kb_run_first lawful_generic_cmp made ran with ⟨keys, walk, first, -⟩
  exact ⟨b, next, rets, made, ran, keys, walk, first⟩

/-- `kb_interval` gives an equal key twice, or the last key below and the first one above. -/
theorem kb_run_interval (lawful : Lawful cmp) (made : kbInit size counted keySize = some b)
    (ran : kbRun cmp calls b = some (next, rets)) (key : Key) :
    ∃ keys lower upper, kbTraverse next = some keys ∧
      kbIntervalp cmp next key = some (lower, upper) ∧
      ((∃ place stored, lower = some place ∧ upper = some place ∧ keyAt next place = some stored ∧
        stored ∈ keys ∧
        cmp key stored = 0) ∨
      ∃ early late, keys = early ++ late ∧ Splits cmp key early late ∧
        lower.map (keyAt next) = early.getLast?.map some ∧
        upper.map (keyAt next) = late.head?.map some) := by
  rcases init_spec cmp made with ⟨piece, represents, -⟩
  rcases run_represents lawful calls represents ran with ⟨height, after, -, represents', -⟩
  rcases interval_spec lawful represents' key with ⟨⟨lower, upper⟩, run, between⟩
  refine ⟨after.keys, lower, upper, traverse_represents represents', run, ?_⟩
  rcases between with ⟨place, stored, same, member, read, equal⟩ | ⟨early, late, split, splits,
    below, above⟩
  · cases same
    exact .inl ⟨place, stored, rfl, rfl, read, member, equal⟩
  · exact .inr ⟨early, late, split, splits, by simpa using below, by simpa using above⟩

theorem kb_run_interval_generic : ∃ b next rets, kbInit 60 8 8 = some b ∧
    kbRun kbGenericCmp [.put (5 : Int), .put 3, .put 9, .put 8] b = some (next, rets) ∧
      ∃ lower upper, kbIntervalp kbGenericCmp next 6 = some (lower, upper) := by
  rcases exists_run [.put 5, .put 3, .put 9, .put 8] (fun _ => true) (by decide +kernel) with
    ⟨b, next, rets, made, ran, -⟩
  rcases kb_run_interval lawful_generic_cmp made ran 6 with ⟨keys, lower, upper, -, run, -⟩
  exact ⟨b, next, rets, made, ran, lower, upper, run⟩

/-- A search reads no more nodes than there are levels, and with `t` children for each node but the
root there are few of these. -/
theorem kb_run_levels (lawful : Lawful cmp) (made : kbInit size counted keySize = some b)
    (ran : kbRun cmp calls b = some (next, rets)) :
    ∃ keys height, kbTraverse next = some keys ∧
      (0 < height → 2 * b.layout.t ^ height ≤ keys.length + 1) ∧
      ∀ key, ∃ place, getpWalk cmp next key (height + 1) (some next.root) 0 = some place ∧
        kbGetp cmp next key = some place := by
  rcases init_spec cmp made with ⟨piece, represents, -⟩
  rcases run_represents lawful calls represents ran with ⟨height, after, -, represents', layout', -⟩
  refine ⟨after.keys, height, traverse_represents represents', fun internal => ?_,
    search_steps lawful represents'⟩
  rw [← layout']
  exact represents_size represents' internal

theorem kb_run_levels_generic : ∃ b next rets, kbInit 60 8 8 = some b ∧
    kbRun kbGenericCmp [.put (5 : Int), .put 3, .put 9, .put 8] b = some (next, rets) ∧
      ∃ keys height, kbTraverse next = some keys ∧
        (0 < height → 2 * b.layout.t ^ height ≤ keys.length + 1) ∧
        ∀ key, ∃ place, getpWalk kbGenericCmp next key (height + 1) (some next.root) 0 =
        some place := by
  rcases exists_run [.put 5, .put 3, .put 9, .put 8] (fun _ => true) (by decide +kernel) with
    ⟨b, next, rets, made, ran, -⟩
  rcases kb_run_levels lawful_generic_cmp made ran with ⟨keys, height, walk, bound, search⟩
  refine ⟨b, next, rets, made, ran, keys, height, walk, bound, fun key => ?_⟩
  rcases search key with ⟨place, run, -⟩
  exact ⟨place, run⟩

end TWlib.KTree
