import TWlib.GoogleHashRefinement

/-!
# How the wrappers use their mutex

The log of a call shows whether the mutex was acquired before the table was
touched and released behind it, both once. It is so exactly for the calls that
lock at all (`find` and `size` do not) and whose allocations succeed: where one
fails, the operation returns with the mutex held.
-/

namespace TWlib.GoogleHashLocks

open TWlib.Lib.CellStore TWlib.Lib.FiniteMap TWlib.KHashMap TWlib.GoogleHash
    TWlib.GoogleHashRefinement
open TWlib.KHashRefinement (Op)

set_option autoImplicit false

variable {Key Data Table : Type}

/-- The table is touched and then the mutex is released, which ends the log. -/
def endsReleased : List Access → Bool
  | [.release] => true
  | .table :: log => endsReleased log
  | _ => false

/-- The mutex is acquired first and released last. -/
def disciplined : List Access → Bool
  | .acquire :: log => endsReleased log
  | _ => false

/-- What the log makes of the mutex of a thread that starts with or without it. Acquiring a held
mutex blocks, releasing a free one is an error. -/
def replay : Bool → List Access → Option Bool
  | held, [] => some held
  | false, .acquire :: log => replay true log
  | true, .acquire :: _ => none
  | true, .release :: log => replay false log
  | false, .release :: _ => none
  | held, .table :: log => replay held log

theorem ends_released_tables (n : Nat) :
    endsReleased (List.replicate n .table ++ [.release]) = true := by
  induction n with
  | zero => rfl
  | succ n ih => exact ih

theorem replay_ends_released {log : List Access} (ends : endsReleased log) :
    replay true log = some false := by
  fun_induction endsReleased log with
  | case1 => rfl
  | case2 log ih => exact ih ends
  | case3 => cases ends

theorem replay_disciplined {log : List Access} (kept : disciplined log) :
    replay false log = some false := by
  cases log with
  | nil => cases kept
  | cons access log =>
      cases access with
      | acquire => exact replay_ends_released kept
      | release => cases kept
      | table => cases kept

def locks : Op Key Data → Bool
  | .findFill _ | .find _ | .size => false
  | _ => true

/-- The call takes the mutex and no allocation of it fails. -/
def locksRight (google : GoogleMap Key Table) (w : Wrapper Key Data Table) : Call Key Data → Bool
  | .on op memory => locks op && granted (present google w op) memory op
  | .gotoStart | .releaseIter => true

/-! ## The log of one operation -/

section Logs

variable {google : GoogleMap Key Table} {memory : Memory}
  {w after : Wrapper Key Data Table} {key : Key} {answer : Answer Data} (fresh : w.log = [])

theorem delete_data_log {v : Nat} (deleted : w.deleteData v = some after) : after.log = w.log := by
  rcases Option.map_eq_some_iff.mp deleted with ⟨value, _, rfl⟩
  rfl

theorem delete_key_log {k : Nat} (deleted : w.deleteKey k = some after) : after.log = w.log := by
  rcases Option.map_eq_some_iff.mp deleted with ⟨value, _, rfl⟩
  rfl

theorem remove_all_pairs_log {fuel : Nat} (ran : removeAllPairs google fuel w = some after) :
    ∃ n, after.log = w.log ++ List.replicate n .table := by
  induction fuel generalizing w with
  | zero =>
      rw [removeAllPairs] at ran
      cases first : google.begin w.values with
      | none =>
          rw [first] at ran
          cases ran
          exact ⟨1, rfl⟩
      | some it =>
          rw [first] at ran
          cases ran
  | succ fuel ih =>
      rw [removeAllPairs] at ran
      cases first : google.begin w.values with
      | none =>
          rw [first] at ran
          cases ran
          exact ⟨1, rfl⟩
      | some it =>
          rw [first] at ran
          simp only [Option.bind_eq_bind, Option.bind_eq_some_iff] at ran
          rcases ran with ⟨noData, dataDeleted, noKey, keyDeleted, rest⟩
          rcases ih rest with ⟨n, log⟩
          refine ⟨n + 2, ?_⟩
          have early : noData.log = w.log ++ [.table] := delete_data_log dataDeleted
          have late : noKey.log = noData.log ++ [.table] := delete_key_log keyDeleted
          rw [log, late, early, List.append_assoc, List.append_assoc]
          rfl

include fresh

theorem add_replace_log {old : Bool} {made : Key} {dat : Data}
    (performed : addReplaceBody google memory w key old made dat = some (after, answer)) :
    disciplined after.log = (memory.data && ((w.found google key).isSome || memory.key)) := by
  simp only [addReplaceBody, Wrapper.find] at performed
  cases hasData : memory.data with
  | false =>
      simp only [hasData, Bool.false_eq_true, if_false] at performed
      cases performed
      simp [Wrapper.acquire, Wrapper.touch, Wrapper.note, fresh, disciplined, endsReleased]
  | true =>
      simp only [hasData, if_true] at performed
      cases found : w.found google key with
      | none =>
          have missed : w.acquire.found google key = none := found
          rw [missed] at performed
          cases hasKey : memory.key with
          | false =>
              simp only [hasKey, Bool.false_eq_true, if_false] at performed
              cases performed
              simp [Wrapper.acquire, Wrapper.touch, Wrapper.note, Wrapper.newData, fresh,
                disciplined, endsReleased]
          | true =>
              simp only [hasKey, if_true] at performed
              cases performed
              simp [Wrapper.acquire, Wrapper.touch, Wrapper.release, Wrapper.note, Wrapper.newData,
                Wrapper.newKey,
                Wrapper.index, fresh, disciplined, endsReleased]
      | some it =>
          have met : w.acquire.found google key = some it := found
          rw [met] at performed
          obtain ⟨olddat, deletedOld, deleted, same⟩ : ∃ olddat deletedOld,
              (w.acquire.touch.newData dat).2.touch.deleteData it.2 = some deletedOld ∧
              some ((deletedOld.setSecond google it.1 w.datas.fresh).release,
                Answer.done true olddat) =
                some (after, answer) := by
            cases old with
            | true =>
                simp only [if_true, Option.bind_eq_bind, Option.bind_eq_some_iff] at performed
                rcases performed with ⟨olddat, _, deletedOld, deleted, same⟩
                exact ⟨olddat, deletedOld, deleted, same⟩
            | false =>
                simp only [Bool.false_eq_true, if_false, Option.bind_eq_bind, Option.bind_some,
                  Option.bind_eq_some_iff] at performed
                rcases performed with ⟨deletedOld, deleted, same⟩
                exact ⟨none, deletedOld, deleted, same⟩
          have log := delete_data_log deleted
          cases same
          simp [Wrapper.setSecond, Wrapper.acquire, Wrapper.touch, Wrapper.release,
            Wrapper.note, log,
            Wrapper.newData, fresh, disciplined, endsReleased]

theorem add_replace_new_log {blank : Data}
    (performed : addReplaceNewBody google memory w key blank = some (after, answer)) :
    disciplined after.log = (memory.data && ((w.found google key).isSome || memory.key)) := by
  simp only [addReplaceNewBody, Wrapper.find] at performed
  cases hasData : memory.data with
  | false =>
      simp only [hasData, Bool.false_eq_true, if_false] at performed
      cases performed
      simp [Wrapper.acquire, Wrapper.note, fresh, disciplined, endsReleased]
  | true =>
      simp only [hasData, if_true] at performed
      cases found : w.found google key with
      | none =>
          have missed : (w.acquire.newData blank).2.found google key = none := found
          rw [missed] at performed
          cases hasKey : memory.key with
          | false =>
              simp only [hasKey, Bool.false_eq_true, if_false] at performed
              cases performed
              simp [Wrapper.acquire, Wrapper.touch, Wrapper.note, Wrapper.newData, fresh,
                disciplined, endsReleased]
          | true =>
              simp only [hasKey, if_true] at performed
              cases performed
              simp [Wrapper.acquire, Wrapper.touch, Wrapper.release, Wrapper.note, Wrapper.newData,
                Wrapper.newKey,
                Wrapper.index, fresh, disciplined, endsReleased]
      | some it =>
          have met : (w.acquire.newData blank).2.found google key = some it := found
          rw [met] at performed
          simp only [Option.bind_eq_bind, Option.bind_eq_some_iff] at performed
          rcases performed with ⟨deletedOld, deleted, same⟩
          have log := delete_data_log deleted
          cases same
          simp [Wrapper.setSecond, Wrapper.acquire, Wrapper.touch, Wrapper.release,
            Wrapper.note, log,
            Wrapper.newData, fresh, disciplined, endsReleased]

omit fresh in
theorem new_pair_log {dat : Data} {tidy : Bool} {v : Option Nat}
    (made : newPair google memory w key dat tidy = some (after, v)) :
    v.isSome = (memory.data && memory.key) ∧ after.log = w.log ++ if v.isSome then [.table]
    else [] := by
  rw [newPair] at made
  cases hasData : memory.data with
  | false =>
      simp only [hasData, Bool.false_eq_true, if_false] at made
      cases made
      simp
  | true =>
      cases hasKey : memory.key with
      | true =>
          simp only [hasData, hasKey, if_true] at made
          cases made
          exact ⟨rfl, rfl⟩
      | false =>
          simp only [hasData, hasKey, if_true, Bool.false_eq_true, if_false] at made
          cases tidy with
          | true =>
              rcases Option.map_eq_some_iff.mp made with ⟨tidied, deleted, same⟩
              have log := delete_data_log deleted
              cases same
              simp [log, Wrapper.newData]
          | false =>
              cases made
              simp [Wrapper.newData]

theorem new_pair_disciplined {dat : Data} {tidy : Bool} (success : Option Nat → Answer Data)
    (failure : Answer Data)
    (performed : ((newPair google memory w.acquire.touch key dat tidy).map fun (w, v) =>
      if v.isSome then (w.release, success v) else (w, failure)) = some (after, answer)) :
    disciplined after.log = (memory.data && memory.key) := by
  rcases Option.map_eq_some_iff.mp performed with ⟨⟨paired, v⟩, made, same⟩
  rcases new_pair_log made with ⟨both, log⟩
  rw [← both]
  cases v with
  | none =>
      cases same
      simp [log, Wrapper.acquire, Wrapper.touch, Wrapper.note, fresh, disciplined, endsReleased]
  | some cell =>
      cases same
      simp [log, Wrapper.acquire, Wrapper.touch, Wrapper.release, Wrapper.note, fresh, disciplined,
        endsReleased]

theorem add_noreplace_log {stored : Data}
    (performed : addNoreplaceBody google memory w key stored = some (after, answer)) :
    disciplined after.log = ((w.found google key).isSome || (memory.data && memory.key)) := by
  simp only [addNoreplaceBody, Wrapper.find] at performed
  cases found : w.found google key with
  | none =>
      have missed : w.acquire.found google key = none := found
      rw [missed] at performed
      exact new_pair_disciplined fresh (fun _ => .done true none) (.done false none) performed
  | some it =>
      have met : w.acquire.found google key = some it := found
      rw [met] at performed
      cases performed
      simp [Wrapper.acquire, Wrapper.touch, Wrapper.release, Wrapper.note, fresh, disciplined,
        endsReleased]

theorem add_noreplace_new_log {tidy : Bool} {blank : Data}
    (performed : addNoreplaceNewBody google memory w key tidy blank = some (after, answer)) :
    disciplined after.log = ((w.found google key).isSome || (memory.data && memory.key)) := by
  simp only [addNoreplaceNewBody, Wrapper.find] at performed
  cases found : w.found google key with
  | none =>
      have missed : w.acquire.found google key = none := found
      rw [missed] at performed
      exact new_pair_disciplined fresh .pointer (.pointer none) performed
  | some it =>
      have met : w.acquire.found google key = some it := found
      rw [met] at performed
      cases performed
      simp [Wrapper.acquire, Wrapper.touch, Wrapper.release, Wrapper.note, fresh, disciplined,
        endsReleased]

theorem find_or_new_log {blank : Data}
    (performed : findOrNewBody google memory w key blank = some (after, answer)) :
    disciplined after.log = ((w.found google key).isSome || (memory.data && memory.key)) := by
  simp only [findOrNewBody, Wrapper.find] at performed
  cases found : w.found google key with
  | none =>
      have missed : w.acquire.found google key = none := found
      rw [missed] at performed
      exact new_pair_disciplined fresh .pointer (.pointer none) performed
  | some it =>
      have met : w.acquire.found google key = some it := found
      rw [met] at performed
      cases performed
      simp [Wrapper.acquire, Wrapper.touch, Wrapper.release, Wrapper.note, fresh, disciplined,
        endsReleased]

theorem remove_log (performed : removeBody google w key = some (after, answer)) :
    disciplined after.log = true := by
  simp only [removeBody, Wrapper.find] at performed
  cases found : w.found google key with
  | none =>
      have missed : w.acquire.found google key = none := found
      rw [missed] at performed
      cases performed
      simp [Wrapper.acquire, Wrapper.touch, Wrapper.release, Wrapper.note, fresh, disciplined,
        endsReleased]
  | some it =>
      have met : w.acquire.found google key = some it := found
      rw [met] at performed
      simp only [Option.bind_eq_bind, Option.bind_eq_some_iff] at performed
      rcases performed with ⟨noKey, keyDeleted, noData, dataDeleted, same⟩
      have early := delete_key_log keyDeleted
      have late := delete_data_log dataDeleted
      cases same
      simp [late, early, Wrapper.eraseKey, Wrapper.acquire, Wrapper.touch, Wrapper.release,
        Wrapper.note, fresh,
        disciplined, endsReleased]

theorem remove_fill_log (performed : removeFillBody google w key = some (after, answer)) :
    disciplined after.log = true := by
  simp only [removeFillBody, Wrapper.find] at performed
  cases found : w.found google key with
  | none =>
      have missed : w.acquire.found google key = none := found
      rw [missed] at performed
      cases performed
      simp [Wrapper.acquire, Wrapper.touch, Wrapper.release, Wrapper.note, fresh, disciplined,
        endsReleased]
  | some it =>
      have met : w.acquire.found google key = some it := found
      rw [met] at performed
      simp only [Option.bind_eq_bind, Option.bind_eq_some_iff] at performed
      rcases performed with ⟨fill, _, noKey, keyDeleted, noData, dataDeleted, same⟩
      have early := delete_key_log keyDeleted
      have late := delete_data_log dataDeleted
      cases same
      have released : noKey.log =
        (((w.acquire.touch.touch.erase google it.1).compactIfFree google).log ++
        [.release]) := early
      by_cases free : w.iteratorsOut = 0
      · have compacted : (w.acquire.touch.touch.erase google it.1).compactIfFree google =
            (w.acquire.touch.touch.erase google it.1).compact google := if_pos free
        rw [late, released, compacted]
        simp [Wrapper.erase, Wrapper.compact, Wrapper.acquire, Wrapper.touch,
          Wrapper.note, fresh, disciplined, endsReleased]
      · have left : (w.acquire.touch.touch.erase google it.1).compactIfFree google =
            w.acquire.touch.touch.erase google it.1 := if_neg free
        rw [late, released, left]
        simp [Wrapper.erase, Wrapper.acquire, Wrapper.touch, Wrapper.note, fresh, disciplined,
          endsReleased]

theorem find_fill_log (performed : findFillBody google w key = some (after, answer)) :
    disciplined after.log = false := by
  simp only [findFillBody, Wrapper.find] at performed
  cases found : w.found google key with
  | none =>
      rw [found] at performed
      cases performed
      simp [Wrapper.touch, Wrapper.release, Wrapper.note, fresh, disciplined]
  | some it =>
      rw [found] at performed
      simp only [Option.bind_eq_bind, Option.bind_eq_some_iff] at performed
      rcases performed with ⟨fill, _, same⟩
      cases same
      simp [Wrapper.touch, Wrapper.release, Wrapper.note, fresh, disciplined]

theorem find_log (performed : findBody google w key = some (after, answer)) :
    disciplined after.log = false := by
  simp only [findBody, Wrapper.find] at performed
  cases found : w.found google key with
  | none =>
      rw [found] at performed
      cases performed
      simp [Wrapper.touch, Wrapper.release, Wrapper.note, fresh, disciplined]
  | some it =>
      rw [found] at performed
      cases performed
      simp [Wrapper.touch, Wrapper.release, Wrapper.note, fresh, disciplined]

theorem remove_all_log (performed : removeAllBody google w = some (after, answer)) :
    disciplined after.log = true := by
  simp only [removeAllBody, Option.bind_eq_bind, Option.bind_eq_some_iff] at performed
  rcases performed with ⟨emptied, ran, same⟩
  rcases remove_all_pairs_log ran with ⟨n, log⟩
  have started : emptied.log = .acquire :: .table :: List.replicate n .table := by
    rw [log]
    simp [Wrapper.acquire, Wrapper.touch, Wrapper.note, fresh]
  cases same
  have whole : .acquire :: (List.replicate (n + 3) .table ++ [.release]) =
      ((emptied.log ++ [.table]) ++ [.table]) ++ [Access.release] := by
    rw [started, show n + 3 = 1 + n + 2 by omega, List.replicate_add, List.replicate_add]
    simp
  show disciplined (((emptied.log ++ [.table]) ++ [.table]) ++ [.release]) = true
  rw [← whole]
  exact ends_released_tables (n + 3)

theorem perform_log {blank : Data} {variant : Variant Key Data} {op : Op Key Data}
    (performed : performBody google blank variant memory w op = some (after, answer)) :
    disciplined after.log = (locks op && granted (present google w op) memory op) := by
  cases op with
  | addReplace key dat => exact add_replace_log fresh performed
  | addReplaceOld key dat => exact add_replace_log fresh performed
  | addReplaceNew key => exact add_replace_new_log fresh performed
  | addNoreplace key dat => exact add_noreplace_log fresh performed
  | addNoreplaceNew key => exact add_noreplace_new_log fresh performed
  | findOrNew key => exact find_or_new_log fresh performed
  | findFill key => exact find_fill_log fresh performed
  | find key => exact find_log fresh performed
  | remove key => exact remove_log fresh performed
  | removeFill key => exact remove_fill_log fresh performed
  | removeAll => exact remove_all_log fresh performed
  | size =>
      cases performed
      simp [Wrapper.touch, Wrapper.note, fresh, disciplined, locks]

end Logs

/-! ## Every call has a result -/

section Returns

variable {equal : Key → Key → Bool} {reserved : Key → Prop} {google : GoogleMap Key Table}
  {valid : (Nat → Option Key) → Table → Prop} {fitting : Table → Prop}
  {memory : Memory} {pairs : Table → List (Nat × Nat)} {w : Wrapper Key Data Table}
  {content : Content Key Data} {items : List (Item Key Data)} {key : Key}

theorem new_pair_returns (google : GoogleMap Key Table) (memory : Memory)
    (w : Wrapper Key Data Table) (key : Key) (dat : Data) (tidy : Bool) :
    ∃ after v, newPair google memory w key dat tidy = some (after, v) := by
  rw [newPair]
  cases memory.data with
  | false => exact ⟨_, _, rfl⟩
  | true =>
      cases memory.key with
      | true => exact ⟨_, _, rfl⟩
      | false =>
          cases tidy with
          | false => exact ⟨_, _, rfl⟩
          | true =>
              have stored : (w.newData dat).2.datas.read w.datas.fresh = some dat := by
                show (w.datas.push dat).read w.datas.fresh = some dat
                rw [read_push, if_pos rfl]
              refine ⟨{ (w.newData dat).2 with
                datas := (w.newData dat).2.datas.giveUp w.datas.fresh }, none, ?_⟩
              simp only [Bool.false_eq_true, if_true, if_false, Wrapper.deleteData,
                show (w.newData dat).1 = w.datas.fresh from rfl, stored, Option.map_some]

theorem stored_after_new (held : HoldsOn equal reserved valid pairs w.values w.keys w.datas
    content items)
    {item : Item Key Data} {rest : List (Item Key Data)} (perm : items.Perm (item :: rest))
    (dat : Data) :
    (w.datas.push dat).read item.cell = some item.value :=
  read_push_of_present (held.stored item (perm.mem_iff.mpr List.mem_cons_self)) dat

theorem add_replace_returns (finite : IsFiniteMapOn equal reserved google valid fitting pairs)
    (equivalence : Equivalence (SameKey equal))
    (held : HoldsOn equal reserved valid pairs w.values w.keys w.datas content items)
    (allowed : ¬ reserved key) (memory : Memory) (old : Bool) (made : Key) (dat : Data) :
    ∃ after answer, addReplaceBody google memory w key old made dat = some (after, answer) := by
  simp only [addReplaceBody, Wrapper.find]
  cases memory.data with
  | false => exact ⟨_, _, rfl⟩
  | true =>
      rcases search_cases finite equivalence held allowed with
        ⟨missed, _⟩ | ⟨item, rest, found, perm, _, _⟩
      · rw [show w.acquire.found google key = none from missed]
        cases memory.key with
        | false => exact ⟨_, _, rfl⟩
        | true => exact ⟨_, _, rfl⟩
      · rw [show w.acquire.found google key = some item.pair from found]
        have stored := stored_after_new held perm dat
        cases old with
        | true =>
            simp only [if_true, Item.pair, Wrapper.deleteData, Wrapper.touch, Wrapper.acquire,
              Wrapper.note,
              Wrapper.newData, stored, Option.map_some, Option.bind_eq_bind, Option.bind_some]
            exact ⟨_, _, rfl⟩
        | false =>
            simp only [if_true, Bool.false_eq_true, if_false, Item.pair, Wrapper.deleteData,
              Wrapper.touch,
              Wrapper.acquire, Wrapper.note, Wrapper.newData, stored, Option.map_some,
              Option.bind_eq_bind,
              Option.bind_some]
            exact ⟨_, _, rfl⟩

theorem add_replace_new_returns (finite : IsFiniteMapOn equal reserved google valid fitting pairs)
    (equivalence : Equivalence (SameKey equal))
    (held : HoldsOn equal reserved valid pairs w.values w.keys w.datas content items)
    (allowed : ¬ reserved key) (memory : Memory) (blank : Data) :
    ∃ after answer, addReplaceNewBody google memory w key blank = some (after, answer) := by
  simp only [addReplaceNewBody, Wrapper.find]
  cases memory.data with
  | false => exact ⟨_, _, rfl⟩
  | true =>
      rcases search_cases finite equivalence held allowed with
        ⟨missed, _⟩ | ⟨item, rest, found, perm, _, _⟩
      · rw [show (w.acquire.newData blank).2.found google key = none from missed]
        cases memory.key with
        | false => exact ⟨_, _, rfl⟩
        | true => exact ⟨_, _, rfl⟩
      · rw [show (w.acquire.newData blank).2.found google key = some item.pair from found]
        have stored := stored_after_new held perm blank
        simp only [if_true, Item.pair, Wrapper.deleteData, Wrapper.touch, Wrapper.acquire,
          Wrapper.note,
          Wrapper.newData, stored, Option.map_some, Option.bind_eq_bind, Option.bind_some]
        exact ⟨_, _, rfl⟩

/-- On a map that holds its items every operation returns, also when an allocation fails. -/
theorem perform_returns (finite : IsFiniteMapOn equal reserved google valid fitting pairs)
    (equivalence : Equivalence (SameKey equal))
    (held : HoldsOn equal reserved valid pairs w.values w.keys w.datas content items) (blank : Data)
    (variant : Variant Key Data) (op : Op Key Data) (allowed : ∀ key, keyOf op = some key →
      ¬ reserved key) :
    ∃ after answer, performBody google blank variant memory w op = some (after, answer) := by
  have goes : Goes equal reserved valid google pairs blank variant memory w content op →
      ∃ after answer, performBody google blank variant memory w op = some (after, answer) := by
    rintro ⟨after, answer, _, performed, _⟩
    exact ⟨after, answer, performed⟩
  cases op with
  | addReplace key dat =>
      exact add_replace_returns finite equivalence held (allowed key rfl) memory false key dat
  | addReplaceOld key dat =>
      exact add_replace_returns finite equivalence held (allowed key rfl) memory true
        (variant.oldKey key dat) dat
  | addReplaceNew key =>
      exact add_replace_new_returns finite equivalence held (allowed key rfl) memory blank
  | addNoreplace key dat =>
      simp only [performBody, addNoreplaceBody, Wrapper.find]
      cases w.acquire.found google key with
      | none =>
          rcases new_pair_returns google memory w.acquire.touch key
            (variant.stored dat) false with ⟨after, v, made⟩
          rw [made]
          exact ⟨_, _, rfl⟩
      | some it => exact ⟨_, _, rfl⟩
  | addNoreplaceNew key =>
      simp only [performBody, addNoreplaceNewBody, Wrapper.find]
      cases w.acquire.found google key with
      | none =>
          rcases new_pair_returns google memory w.acquire.touch key blank variant.tidy with ⟨after,
            v, made⟩
          rw [made]
          exact ⟨_, _, rfl⟩
      | some it => exact ⟨_, _, rfl⟩
  | findOrNew key =>
      simp only [performBody, findOrNewBody, Wrapper.find]
      cases w.acquire.found google key with
      | none =>
          rcases new_pair_returns google memory w.acquire.touch key blank false with ⟨after, v,
            made⟩
          rw [made]
          exact ⟨_, _, rfl⟩
      | some it => exact ⟨_, _, rfl⟩
  | findFill key =>
      exact goes (find_fill_goes finite equivalence held blank variant memory (allowed key rfl))
  | find key =>
      exact goes (find_goes finite equivalence held blank variant memory (allowed key rfl))
  | remove key =>
      exact goes (remove_goes finite equivalence held blank variant memory (allowed key rfl))
  | removeFill key =>
      exact goes (remove_fill_goes finite equivalence held blank variant memory (allowed key rfl))
  | removeAll => exact goes (remove_all_goes finite equivalence held blank variant memory)
  | size => exact goes (size_goes finite held blank variant memory)

end Returns

/-! ## Every call and every run -/

/-- After every call the mutex is free, as long as the calls lock right. -/
def StaysFree (google : GoogleMap Key Table)
    (call : Wrapper Key Data Table → Call Key Data →
      Option (Wrapper Key Data Table × Option (Answer Data))) :
    Wrapper Key Data Table → List (Call Key Data) → Prop
  | _, [] => True
  | w, next :: calls =>
      locksRight google w next → ∀ after answer, call w next = some (after, answer) →
      replay false after.log = some false ∧ StaysFree google call after calls

section Calls

variable {equal : Key → Key → Bool} {reserved : Key → Prop} {google : GoogleMap Key Table}
  {pairs : Table → List (Nat × Nat)}

theorem call_log {blank : Data} {variant : Variant Key Data} {w after : Wrapper Key Data Table}
    {next : Call Key Data} {answer : Option (Answer Data)}
    (called : callWith (performBody google blank variant) w next = some (after, answer)) :
    disciplined after.log = locksRight google w next := by
  cases next with
  | on op memory =>
      rcases Option.map_eq_some_iff.mp called with ⟨⟨done, given⟩, performed, same⟩
      cases same
      exact perform_log (w := { w with log := [] }) rfl performed
  | gotoStart =>
      cases called
      rfl
  | releaseIter =>
      cases called
      rfl

theorem run_stays_free {blank : Data} {variant : Variant Key Data} (w : Wrapper Key Data Table)
    (calls : List (Call Key Data)) :
    StaysFree google (callWith (performBody google blank variant)) w calls := by
  induction calls generalizing w with
  | nil => trivial
  | cons next calls ih =>
      intro right after answer called
      refine ⟨replay_disciplined ?_, ih after⟩
      rw [call_log called]
      exact right

/-- Both classes: a call follows the discipline exactly when it locks right, and a run of such calls
leaves the mutex free. -/
theorem google_hash_locks_iff (equivalence : Equivalence (SameKey equal))
    (finite : IsFiniteMap equal reserved google pairs) (blank : Data) (asKey : Data → Key) :
    ∀ call ∈ [callWith (TWDenseHash.perform google blank),
      callWith (TWSparseHash.perform google blank asKey)],
      (∀ w content items next, Holds equal reserved pairs w.values w.keys w.datas content items →
        Allowed reserved next → ∃ after answer, call w next = some (after, answer)) ∧
      (∀ w next after answer, call w next = some (after, answer) →
        (disciplined after.log ↔ locksRight google w next)) ∧
      ∀ w calls, StaysFree google call w calls := by
  have body : ∀ variant : Variant Key Data,
      (∀ w content items next, Holds equal reserved pairs w.values w.keys w.datas content items →
        Allowed reserved next →
          ∃ after answer, callWith (performBody google blank variant) w next =
          some (after, answer)) ∧
      (∀ w next after answer, callWith (performBody google blank variant) w next =
        some (after, answer) →
        (disciplined after.log ↔ locksRight google w next)) ∧
      ∀ w calls, StaysFree google (callWith (performBody google blank variant)) w calls := by
    intro variant
    refine ⟨fun w content items next held allowed => ?_, fun w next after answer called => ?_,
      run_stays_free⟩
    · cases next with
      | on op memory =>
          rcases perform_returns (w := { w with log := [] }) finite.toIsFiniteMapOn equivalence
              ⟨held, trivial⟩ blank variant op allowed with
            ⟨after, answer, performed⟩
          exact ⟨after, some answer, by rw [callWith, performed, Option.map_some]⟩
      | gotoStart => exact ⟨_, _, rfl⟩
      | releaseIter => exact ⟨_, _, rfl⟩
    · rw [call_log called]
  intro call member
  rw [dense_call_eq, sparse_call_eq] at member
  rcases List.mem_cons.mp member with rfl | other
  · exact body _
  · rw [List.mem_singleton.mp other]
    exact body _

end Calls

theorem google_hash_locks_iff_list :
    (∀ w content items next, Holds (fun left right : Nat => left == right) (fun key => key = 100)
      (fun table => table) w.values w.keys w.datas content items →
      Allowed (fun key => key = 100) next →
        ∃ after answer, callWith (TWSparseHash.perform (listMap fun left right => left == right) 0
          fun dat : Nat => dat) w next = some (after, answer)) ∧
    (∀ w next after answer, callWith (TWSparseHash.perform (listMap fun left right =>
        left == right) 0
        fun dat : Nat => dat) w next = some (after, answer) →
      (disciplined after.log ↔ locksRight (listMap fun left right => left == right) w next)) ∧
    ∀ w calls, StaysFree (listMap fun left right => left == right)
      (callWith (TWSparseHash.perform (listMap fun left right => left == right) 0 fun dat : Nat =>
        dat)) w calls :=
  google_hash_locks_iff (lawful_eq (BitVec.ofNat 32)).equivalence
    (list_map_finite (lawful_eq (BitVec.ofNat 32)).equivalence _) 0 (fun dat => dat) _
    (List.mem_cons_of_mem _ (List.mem_singleton.mpr rfl))

/-- `find` releases a mutex that it never acquired, and an `addReplace` without memory keeps it. -/
theorem google_hash_locks_wrongly :
    [callWith (TWDenseHash.perform (listMap fun left right : Nat => left == right) 0),
      callWith (TWSparseHash.perform (listMap fun left right => left == right) 0
        fun dat : Nat => dat)].map
        (fun call => [(.on (.find 1) ⟨true, true⟩),
          (.on (.addReplace 1 7) ⟨false, true⟩)].map fun next =>
          (call (TWDenseHash.init (listMap fun left right => left == right) 100 101 0) next).map
            fun done => (disciplined done.1.log, replay false done.1.log)) =
      [[some (false, none), some (false, some true)],
        [some (false, none), some (false, some true)]] := by
  decide

end TWlib.GoogleHashLocks
