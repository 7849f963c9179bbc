import TWlib.AutoPointers

/-!
# The history of a pointer

`Ledger` is what the history says while the pointer has the object `d` and the
entries `cbs`: what was given and registered earlier is done with, each once, and
what the pointer still has is not. Each thing the pointer does to its entries keeps
it.
-/

namespace TWlib.AutoPointerHistory

open TWlib.AutoPointers

set_option autoImplicit false

/-- The callback was called once with the object, before the object was deleted. -/
def CalledBefore (log : List Event) (entry cb obj : Nat) : Prop :=
  log.count (.call entry cb (some obj)) = 1 ∧
    ∃ before after, log = before ++ .delete obj :: after ∧ .call entry cb (some obj) ∈ before

def Below (entries objects : Nat) : Event → Prop
  | .give obj | .delete obj => obj < objects
  | .register entry _ obj => entry < entries ∧ ∀ known, obj = some known → known < objects
  | .call entry _ _ | .free entry => entry < entries

structure Ledger (log : List Event) (d : Option Nat) (cbs : List (Nat × Nat))
    (entries objects : Nat) : Prop where
  given : ∀ obj, .give obj ∈ log → log.count (.delete obj) = if d = some obj then 0 else 1
  freed : ∀ entry cb obj, .register entry cb obj ∈ log →
    log.count (.free entry) = if entry ∈ cbs.map Prod.fst then 0 else 1
  called : ∀ entry cb obj, .register entry cb (some obj) ∈ log →
    d = some obj ∧ (entry, cb) ∈ cbs ∧ log.count (.call entry cb (some obj)) = 0 ∨
      d ≠ some obj ∧ CalledBefore log entry cb obj
  known : ∀ entry cb, (entry, cb) ∈ cbs → ∃ obj, .register entry cb obj ∈ log
  below : ∀ event ∈ log, Below entries objects event

/-- What `destroy` does to the entries, and what `removeAllCallbacks` does. -/
def calls (d : Option Nat) (cbs : List (Nat × Nat)) : List Event :=
  cbs.flatMap fun (entry, cb) => [.call entry cb d, .free entry]

def frees (cbs : List (Nat × Nat)) : List Event := cbs.map fun (entry, _) => .free entry

variable {log more : List Event} {d : Option Nat} {cbs : List (Nat × Nat)}
    {entry cb obj entries objects : Nat}

/-! ## Counting -/

theorem count_frees : (frees cbs).count (.free entry) = (cbs.map Prod.fst).count entry := by
  induction cbs with
  | nil => rfl
  | cons first cbs ih =>
      simp only [frees, List.map_cons, List.count_cons] at ih ⊢
      rw [ih]
      simp

theorem count_calls_free : (calls d cbs).count (.free entry) = (cbs.map Prod.fst).count entry := by
  induction cbs with
  | nil => rfl
  | cons first cbs ih =>
      simp only [calls, List.flatMap_cons, List.count_append, List.map_cons,
        List.count_cons] at ih ⊢
      rw [ih]
      simp [Nat.add_comm]

theorem count_calls_call : (calls (some obj) cbs).count (.call entry cb (some obj)) =
    cbs.count (entry, cb) := by
  induction cbs with
  | nil => rfl
  | cons first cbs ih =>
      rcases first with ⟨firstEntry, firstCb⟩
      simp only [calls, List.flatMap_cons, List.count_append, List.count_cons] at ih ⊢
      rw [ih]
      simp [Nat.add_comm]

theorem count_append_zero {event : Event} (absent : event ∉ more) :
    (log ++ more).count event = log.count event := by
  rw [List.count_append, List.count_eq_zero.mpr absent, Nat.add_zero]

theorem called_before_append (called : CalledBefore log entry cb obj)
    (absent : .call entry cb (some obj) ∉ more) : CalledBefore (log ++ more) entry cb obj := by
  rcases called with ⟨once, before, after, split, member⟩
  refine ⟨?_, before, after ++ more, ?_, member⟩
  · rw [count_append_zero absent]
    exact once
  · rw [split, List.append_assoc, List.cons_append]

theorem below_mono {event : Event} (below : Below entries objects event)
    {moreEntries moreObjects : Nat} (grownEntries : entries ≤ moreEntries)
    (grownObjects : objects ≤ moreObjects) :
    Below moreEntries moreObjects event := by
  cases event with
  | give obj => exact Nat.lt_of_lt_of_le below grownObjects
  | register entry cb obj =>
      exact ⟨Nat.lt_of_lt_of_le below.1 grownEntries,
        fun known same => Nat.lt_of_lt_of_le (below.2 known same) grownObjects⟩
  | call entry cb obj => exact Nat.lt_of_lt_of_le below grownEntries
  | free entry => exact Nat.lt_of_lt_of_le below grownEntries
  | delete obj => exact Nat.lt_of_lt_of_le below grownObjects

/-! ## What is registered and given -/

theorem ledger_start : Ledger [] none [] 0 0 where
  given := fun obj member => by cases member
  freed := fun entry cb obj member => by cases member
  called := fun entry cb obj member => by cases member
  known := fun entry cb member => by cases member
  below := fun event member => by cases member

theorem ledger_register (ledger : Ledger log d cbs entries objects)
    (known : ∀ obj, d = some obj → obj < objects) (cb : Nat) :
    Ledger (log ++ [.register entries cb d]) d (cbs ++ [(entries, cb)]) (entries + 1) objects where
  given := by
    intro obj member
    rw [count_append_zero (by simp)]
    exact ledger.given obj (by simpa using member)
  freed := by
    intro entry other obj member
    rw [count_append_zero (by simp), List.map_append, List.map_singleton]
    rcases List.mem_append.mp member with old | new
    · have bound := (ledger.below _ old).1
      rw [ledger.freed entry other obj old]
      have differ : entry ≠ entries := by omega
      simp only [List.mem_append, List.mem_singleton, differ, or_false]
    · have same := List.mem_singleton.mp new
      cases same
      rw [if_pos (by simp), List.count_eq_zero]
      intro freed
      have bound : entries < entries := ledger.below _ freed
      omega
  called := by
    intro entry other obj member
    rcases List.mem_append.mp member with old | new
    · rcases ledger.called entry other obj old with ⟨here, inside, never⟩ | ⟨gone, called⟩
      · refine Or.inl ⟨here, List.mem_append_left _ inside, ?_⟩
        rw [count_append_zero (by simp)]
        exact never
      · exact Or.inr ⟨gone, called_before_append called (by simp)⟩
    · have same := List.mem_singleton.mp new
      cases same
      refine Or.inl ⟨rfl, List.mem_append_right _ (List.mem_singleton.mpr rfl), ?_⟩
      rw [count_append_zero (by simp), List.count_eq_zero]
      intro called
      have bound : entries < entries := ledger.below _ called
      omega
  known := by
    intro entry other member
    rcases List.mem_append.mp member with old | new
    · rcases ledger.known entry other old with ⟨obj, registered⟩
      exact ⟨obj, List.mem_append_left _ registered⟩
    · have same := List.mem_singleton.mp new
      cases same
      exact ⟨d, List.mem_append_right _ (List.mem_singleton.mpr rfl)⟩
  below := by
    intro event member
    rcases List.mem_append.mp member with old | new
    · exact below_mono (ledger.below event old) (Nat.le_succ _) (Nat.le_refl _)
    · have same := List.mem_singleton.mp new
      cases same
      exact ⟨Nat.lt_succ_self _, known⟩

theorem ledger_give (ledger : Ledger log none cbs entries objects) :
    Ledger (log ++ [.give objects]) (some objects) cbs entries (objects + 1) where
  given := by
    intro obj member
    rw [count_append_zero (by simp)]
    rcases List.mem_append.mp member with old | new
    · have bound : obj < objects := ledger.below _ old
      have differ : (some objects : Option Nat) ≠ some obj := by
        intro same
        have equals := Option.some.inj same
        omega
      rw [ledger.given obj old, if_neg (by simp), if_neg differ]
    · have same := List.mem_singleton.mp new
      cases same
      rw [if_pos rfl, List.count_eq_zero]
      intro deleted
      have bound : objects < objects := ledger.below _ deleted
      omega
  freed := by
    intro entry cb obj member
    rw [count_append_zero (by simp)]
    exact ledger.freed entry cb obj (by simpa using member)
  called := by
    intro entry cb obj member
    have old : .register entry cb (some obj) ∈ log := by simpa using member
    have bound : obj < objects := (ledger.below _ old).2 obj rfl
    rcases ledger.called entry cb obj old with ⟨here, _⟩ | ⟨_, called⟩
    · cases here
    · refine Or.inr ⟨fun same => ?_, called_before_append called (by simp)⟩
      have equals := Option.some.inj same
      omega
  known := by
    intro entry cb member
    rcases ledger.known entry cb member with ⟨obj, registered⟩
    exact ⟨obj, List.mem_append_left _ registered⟩
  below := by
    intro event member
    rcases List.mem_append.mp member with old | new
    · exact below_mono (ledger.below event old) (Nat.le_refl _) (Nat.le_succ _)
    · have same := List.mem_singleton.mp new
      cases same
      exact Nat.lt_succ_self _

/-! ## What is freed -/

/-- The entries are freed once each, possibly after a call each. -/
structure Torn (d : Option Nat) (cbs : List (Nat × Nat)) (more : List Event) : Prop where
  only : ∀ event ∈ more, ∃ entry cb, (entry, cb) ∈ cbs ∧
    (event = .call entry cb d ∨ event = .free entry)
  once : ∀ entry, more.count (.free entry) = (cbs.map Prod.fst).count entry

theorem torn_frees (d : Option Nat) (cbs : List (Nat × Nat)) : Torn d cbs (frees cbs) where
  only := by
    intro event member
    rcases List.mem_map.mp member with ⟨⟨entry, cb⟩, inside, here⟩
    exact ⟨entry, cb, inside, Or.inr here.symm⟩
  once := fun _ => count_frees

theorem torn_calls (d : Option Nat) (cbs : List (Nat × Nat)) : Torn d cbs (calls d cbs) where
  only := by
    intro event member
    rcases List.mem_flatMap.mp member with ⟨⟨entry, cb⟩, inside, here⟩
    refine ⟨entry, cb, inside, ?_⟩
    simpa using here
  once := fun _ => count_calls_free

theorem torn_register (torn : Torn d cbs more) {known : Option Nat} :
    .register entry cb known ∉ more := by
  intro member
  rcases torn.only _ member with ⟨_, _, _, same | same⟩ <;> cases same

theorem torn_give (torn : Torn d cbs more) : .give obj ∉ more := by
  intro member
  rcases torn.only _ member with ⟨_, _, _, same | same⟩ <;> cases same

theorem torn_delete (torn : Torn d cbs more) : .delete obj ∉ more := by
  intro member
  rcases torn.only _ member with ⟨_, _, _, same | same⟩ <;> cases same

theorem torn_call (torn : Torn d cbs more) (other : d ≠ some obj) :
    .call entry cb (some obj) ∉ more := by
  intro member
  rcases torn.only _ member with ⟨_, _, _, same | same⟩
  · cases same
    exact other rfl
  · cases same

theorem mem_old {event : Event} (member : event ∈ log ++ more) (absent : event ∉ more) :
    event ∈ log :=
  (List.mem_append.mp member).resolve_right absent

theorem torn_freed (ledger : Ledger log d cbs entries objects) (nodup : (cbs.map Prod.fst).Nodup)
    (torn : Torn d cbs more) {known : Option Nat} (registered : .register entry cb known ∈ log) :
    (log ++ more).count (.free entry) = 1 := by
  rw [List.count_append, ledger.freed entry cb known registered, torn.once]
  split_ifs with inside
  · rw [List.count_eq_one_of_mem nodup inside]
  · rw [List.count_eq_zero.mpr inside]

theorem torn_below (ledger : Ledger log d cbs entries objects) (torn : Torn d cbs more) :
    ∀ event ∈ log ++ more, Below entries objects event := by
  intro event member
  rcases List.mem_append.mp member with old | inside
  · exact ledger.below event old
  · rcases torn.only event inside with ⟨entry, cb, here, same⟩
    rcases ledger.known entry cb here with ⟨known, registered⟩
    have bound := (ledger.below _ registered).1
    rcases same with same | same
    · rw [same]
      exact bound
    · rw [same]
      exact bound

theorem ledger_tear (ledger : Ledger log d cbs entries objects) (nodup : (cbs.map Prod.fst).Nodup)
    (torn : Torn d cbs more) (unused : ∀ entry cb obj, d = some obj →
      .register entry cb (some obj) ∉ log) :
    Ledger (log ++ more) d [] entries objects where
  given := by
    intro obj member
    rw [count_append_zero (torn_delete torn)]
    exact ledger.given obj (mem_old member (torn_give torn))
  freed := by
    intro entry cb obj member
    rw [torn_freed ledger nodup torn (mem_old member (torn_register torn))]
    rfl
  called := by
    intro entry cb obj member
    have old := mem_old member (torn_register torn)
    rcases ledger.called entry cb obj old with ⟨here, _⟩ | ⟨gone, called⟩
    · exact absurd old (unused entry cb obj here)
    · exact Or.inr ⟨gone, called_before_append called (torn_call torn gone)⟩
  known := fun entry cb member => by cases member
  below := torn_below ledger torn

theorem ledger_delete (ledger : Ledger log (some obj) cbs entries objects)
    (nodup : (cbs.map Prod.fst).Nodup) (made : obj < objects) :
    Ledger (log ++ calls (some obj) cbs ++ [.delete obj]) none [] entries objects where
  given := by
    intro other member
    have torn := torn_calls (some obj) cbs
    have old : .give other ∈ log := mem_old (mem_old member (by simp)) (torn_give torn)
    rw [List.count_append, count_append_zero (torn_delete torn), ledger.given other old]
    by_cases same : obj = other
    · subst same
      simp
    · simp [same]
  freed := by
    intro entry cb known member
    have torn := torn_calls (some obj) cbs
    have old := mem_old (mem_old member (by simp)) (torn_register torn)
    rw [count_append_zero (by simp), torn_freed ledger nodup torn old]
    rfl
  called := by
    intro entry cb other member
    have torn := torn_calls (some obj) cbs
    have old := mem_old (mem_old member (by simp)) (torn_register torn)
    refine Or.inr ⟨by simp, ?_⟩
    rcases ledger.called entry cb other old with ⟨here, inside, never⟩ | ⟨gone, called⟩
    · cases here
      have pairs : cbs.Nodup := nodup.of_map _
      have once : (log ++ calls (some obj) cbs).count (.call entry cb (some obj)) = 1 := by
        rw [List.count_append, never, count_calls_call, List.count_eq_one_of_mem pairs inside]
      refine ⟨?_, log ++ calls (some obj) cbs, [], rfl, ?_⟩
      · rw [count_append_zero (by simp)]
        exact once
      · apply List.count_pos_iff.mp
        rw [once]
        exact Nat.one_pos
    · exact called_before_append (called_before_append called (torn_call torn gone)) (by simp)
  known := fun entry cb member => by cases member
  below := by
    intro event member
    rcases List.mem_append.mp member with old | new
    · exact torn_below ledger (torn_calls (some obj) cbs) event old
    · rw [List.mem_singleton.mp new]
      exact made

end TWlib.AutoPointerHistory
