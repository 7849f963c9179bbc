import Mathlib.Data.List.Perm.Subperm
import TWlib.AutoPointerHistory

/-!
# What a pointer leaves behind

`destroy` frees the callback entries and leaves `firstCallback` as it is, and the
destructor frees none when the pointer is null. The references are counted by an
`int`. So a life ends cleanly and in time exactly if nothing reads `firstCallback`
after a `release` has torn entries down, no callback is left on a null pointer in
the end, and no `release` of another reference than the last finds the count below.
-/

namespace TWlib.AutoPointerCleanup

open TWlib.Lib.CellStore TWlib.Lib.LinkedChain TWlib.Lib.MachineInt TWlib.Lib.ValueChain
  TWlib.AutoPointers
  TWlib.AutoPointers.AutoPointer TWlib.AutoPointerHistory

set_option autoImplicit false

/-! ## The condition -/

/-- What a sequence of operations says about the pointer: whether it has an object, the references
held, the callbacks registered, and whether `firstCallback` was left behind by a `release`. -/
structure Status where
  attached : Bool
  refs : Int
  pending : Nat
  stale : Bool
deriving DecidableEq

def Status.begin : Construction → Status
  | .default => ⟨false, 0, 0, false⟩
  | .null => ⟨false, 1, 0, false⟩
  | .object => ⟨true, 1, 0, false⟩

namespace Status

/-- A release takes the reference for the last one: the `int` that counts the others is below 1. -/
def last (s : Status) : Bool := asInt (s.refs - 1) < 1

def next (s : Status) : Op → Status
  | .registerCallback _ => { s with pending := s.pending + 1 }
  | .dupP => { s with refs := s.refs + 1 }
  | .release =>
      if s.last then ⟨false, s.refs - 1, 0, s.stale || s.pending ≠ 0⟩
        else { s with refs := s.refs - 1 }
  | .reset => ⟨true, 1, 0, false⟩

def reads (s : Status) : Op → Bool
  | .registerCallback _ | .reset => true
  | .release => s.last
  | .dupP => false

end Status

/-- No release beyond the references held, and no reset before the object has gone. -/
def Legal : Status → List Op → Prop
  | _, [] => True
  | s, op :: ops =>
      (op = .release → 1 ≤ s.refs) ∧ (op = .reset → s.attached = false) ∧ Legal (s.next op) ops

/-- Nothing goes along entries that a release has torn down, none are left on a null pointer, and no
reference to an object is taken for the last one while there are others. -/
def Orderly : Status → List Op → Prop
  | s, [] => s.attached = true ∨ s.pending = 0
  | s, op :: ops => (s.stale = true → s.reads op = false) ∧
      (op = .release → s.attached = true → s.last = true → s.refs ≤ 1) ∧ Orderly (s.next op) ops

/-- Every object is deleted once, every callback that was registered for it is called once before
that, and every entry is freed once. -/
structure CleansUp (log : List Event) : Prop where
  deleted : ∀ obj, .give obj ∈ log → log.count (.delete obj) = 1
  called : ∀ entry cb obj, .register entry cb (some obj) ∈ log → CalledBefore log entry cb obj
  freed : ∀ entry cb obj, .register entry cb obj ∈ log → log.count (.free entry) = 1

def references (refs : Int) : Op → Int
  | .registerCallback _ => refs
  | .dupP => refs + 1
  | .release => refs - 1
  | .reset => 1

/-- The release of the last reference deletes the object, and no other does. -/
def OnTime : AutoPointer → Int → List Op → Prop
  | _, _, [] => True
  | p, refs, op :: ops => ∀ after, perform p op = some after →
      (op = .release → after.d = if 1 < refs then p.d else none) ∧
      OnTime after (references refs op) ops

/-! ## The chain of entries -/

def nextOf (entries : Store CallbackEntry) (cell : Nat) : Option (Option Nat) :=
  (entries.read cell).map CallbackEntry.next

def cbOf (entries : Store CallbackEntry) (cell : Nat) : Option Nat :=
  (entries.read cell).map CallbackEntry.cb

variable {entries : Store CallbackEntry} {start : Option Nat} {cells items : List Nat}
    {log : List Event}

/-- The pointer leads along the entries with these callbacks. -/
def Linked (entries : Store CallbackEntry) (start : Option Nat) (cbs : List (Nat × Nat)) : Prop :=
  Carries (nextOf entries) (cbOf entries) start (cbs.map Prod.fst) (cbs.map Prod.snd)

variable {cbs : List (Nat × Nat)}

theorem linked_nodup (linked : Linked entries start cbs) : (cbs.map Prod.fst).Nodup :=
  chain_nodup linked.chain

theorem linked_short (linked : Linked entries start cbs) : cbs.length ≤ entries.fresh := by
  have inside : cbs.map Prod.fst ⊆ List.range entries.fresh := by
    intro cell member
    rcases segment_exists linked.chain cell member with ⟨after, step⟩
    rcases Option.map_eq_some_iff.mp step with ⟨entry, read, _⟩
    exact List.mem_range.mpr (read_bound read)
  simpa using (List.subperm_of_subset (linked_nodup linked) inside).length_le

theorem linked_cons {pair : Nat × Nat} (linked : Linked entries start (pair :: cbs)) :
    ∃ entry, start = some pair.1 ∧ entries.read pair.1 = some entry ∧ entry.cb = pair.2 ∧
      Linked (entries.giveUp pair.1) entry.next cbs := by
  rcases linked.chain with ⟨same, after, step, tail⟩
  rcases Option.map_eq_some_iff.mp step with ⟨entry, read, next⟩
  have values := linked.values
  simp only [List.map_cons, List.cons.injEq] at values
  have cb : entry.cb = pair.2 := by
    have first := values.1
    rw [cbOf, read] at first
    exact Option.some.inj first
  have outside : ∀ cell ∈ cbs.map Prod.fst, (entries.giveUp pair.1).read cell =
      entries.read cell := by
    intro cell member
    rw [read_give_up, if_neg]
    intro equals
    exact (List.nodup_cons.mp (linked_nodup linked)).1 (equals ▸ member)
  refine ⟨entry, same, read, cb, ?_⟩
  rw [next]
  apply carries_frame ⟨tail, values.2⟩
  · intro cell member
    rw [nextOf, nextOf, outside cell member]
  · intro cell member
    rw [cbOf, cbOf, outside cell member]

theorem linked_nil (linked : Linked entries start []) : start = none := linked.chain

theorem remove_from_eq (log : List Event) (linked : Linked entries start cbs) {fuel : Nat}
    (enough : cbs.length ≤ fuel) :
    ∃ after, removeFrom fuel start entries log = some (after, log ++ frees cbs) ∧
    after.fresh = entries.fresh := by
  induction cbs generalizing entries start log fuel with
  | nil =>
      rw [linked_nil linked]
      refine ⟨entries, ?_, rfl⟩
      cases fuel <;> simp [removeFrom, frees]
  | cons pair cbs ih =>
      rcases linked_cons linked with ⟨entry, same, read, _, tail⟩
      cases fuel with
      | zero => simp at enough
      | succ fuel =>
          rcases ih (log ++ [.free pair.1]) tail (Nat.le_of_succ_le_succ enough) with ⟨after, ran,
            fresh⟩
          refine ⟨after, ?_, fresh.trans (fresh_give_up _ _)⟩
          rw [same]
          simp only [removeFrom, read, ran, Option.bind_eq_bind, Option.bind_some, frees,
            List.map_cons,
            List.append_assoc, List.singleton_append]

theorem call_from_eq (d : Option Nat) (log : List Event) (linked : Linked entries start cbs)
    {fuel : Nat} (enough : cbs.length ≤ fuel) :
    ∃ after, callFrom d fuel start entries log = some (after, log ++ calls d cbs) ∧
      after.fresh = entries.fresh ∧
      (∀ cell, entries.read cell = none → after.read cell = none) ∧
      ∀ cell ∈ cbs.map Prod.fst, after.read cell = none := by
  induction cbs generalizing entries start log fuel with
  | nil =>
      rw [linked_nil linked]
      refine ⟨entries, ?_, rfl, fun _ gone => gone, fun cell member => by cases member⟩
      cases fuel <;> simp [callFrom, calls]
  | cons pair cbs ih =>
      rcases linked_cons linked with ⟨entry, same, read, cb, tail⟩
      cases fuel with
      | zero => simp at enough
      | succ fuel =>
          rcases ih (log ++ [.call pair.1 pair.2 d, .free pair.1]) tail
              (Nat.le_of_succ_le_succ enough) with
            ⟨after, ran, fresh, stays, gone⟩
          have first : after.read pair.1 = none := by
            apply stays
            rw [read_give_up, if_pos rfl]
          refine ⟨after, ?_, fresh.trans (fresh_give_up _ _), fun cell missing => ?_,
            fun cell member => ?_⟩
          · rw [same]
            simp only [callFrom, read, cb, ran, Option.bind_eq_bind, Option.bind_some, calls,
              List.flatMap_cons,
              List.append_assoc]
          · apply stays
            rw [read_give_up]
            split_ifs
            · rfl
            · exact missing
          · rcases List.mem_cons.mp member with here | later
            · rw [here]
              exact first
            · exact gone cell later

theorem last_from_eq {nex : Nat} (linked : Linked entries (some nex) cbs) {fuel : Nat}
    (enough : cbs.length ≤ fuel) :
    ∃ last entry, lastFrom entries fuel nex = some last ∧ (cbs.map Prod.fst).getLast? = some last ∧
      entries.read last = some entry ∧ entry.next = none := by
  induction cbs generalizing nex fuel with
  | nil => cases linked_nil linked
  | cons pair cbs ih =>
      rcases linked.chain with ⟨same, after, step, tail⟩
      cases same
      rcases Option.map_eq_some_iff.mp step with ⟨entry, read, next⟩
      have values := (List.cons.inj linked.values).2
      cases fuel with
      | zero => simp at enough
      | succ fuel =>
          cases after with
          | none =>
              have single : cbs = [] := List.map_eq_nil_iff.mp (carries_none ⟨tail, values⟩).1
              subst single
              refine ⟨pair.1, entry, ?_, rfl, read, next⟩
              simp only [lastFrom, read, next, Option.bind_eq_bind, Option.bind_some]
          | some later =>
              rcases ih ⟨tail, values⟩ (Nat.le_of_succ_le_succ enough) with ⟨last, final, found,
                isLast, readLast, ends⟩
              refine ⟨last, final, ?_, ?_, readLast, ends⟩
              · simp only [lastFrom, read, next, found, Option.bind_eq_bind, Option.bind_some]
              · rw [List.map_cons, List.getLast?_cons, isLast]
                rfl

/-! ## What a freed first entry makes fail -/

section Freed

variable {entry : Nat}

theorem remove_from_freed (freed : entries.read entry = none) (fuel : Nat) (log : List Event) :
    removeFrom fuel (some entry) entries log = none := by
  cases fuel with
  | zero => rfl
  | succ fuel => simp only [removeFrom, freed, Option.bind_eq_bind, Option.bind_none]

theorem call_from_freed (freed : entries.read entry = none) (d : Option Nat) (fuel : Nat)
    (log : List Event) :
    callFrom d fuel (some entry) entries log = none := by
  cases fuel with
  | zero => rfl
  | succ fuel => simp only [callFrom, freed, Option.bind_eq_bind, Option.bind_none]

theorem last_from_freed (freed : entries.read entry = none) (fuel : Nat) :
    lastFrom entries fuel entry = none := by
  cases fuel with
  | zero => rfl
  | succ fuel => simp only [lastFrom, freed, Option.bind_eq_bind, Option.bind_none]

end Freed

/-! ## What holds between the operations -/

/-- `firstCallback` leads along the entries that are still owed. -/
structure Tidy (p : AutoPointer) (s : Status) (cbs : List (Nat × Nat)) : Prop where
  attached : p.d.isSome = s.attached
  refs : p.refCount = asInt s.refs
  pending : cbs.length = s.pending
  linked : Linked p.entries p.firstCallback cbs
  alive : ∀ obj, p.d = some obj → p.objects.read obj = some ()
  ledger : Ledger p.log p.d cbs p.entries.fresh p.objects.fresh
  fine : s.stale = false

/-- A release has freed the entry `firstCallback` points to. -/
structure Dangling (p : AutoPointer) (s : Status) : Prop where
  null : p.d = none
  attached : s.attached = false
  refs : p.refCount = asInt s.refs
  pending : s.pending = 0
  freed : ∃ entry, p.firstCallback = some entry ∧ p.entries.read entry = none
  ledger : Ledger p.log none [] p.entries.fresh p.objects.fresh
  stale : s.stale = true

def Holds (p : AutoPointer) (s : Status) : Prop := (∃ cbs, Tidy p s cbs) ∨ Dangling p s

variable {p : AutoPointer} {s : Status}

theorem refs_next (s : Status) (op : Op) : (s.next op).refs = references s.refs op := by
  cases op with
  | release =>
      unfold Status.next
      split_ifs <;> rfl
  | registerCallback cb | dupP | reset => rfl

theorem count_less {count refs : Int} (counts : count = asInt refs) :
    asInt (count - 1) = asInt (refs - 1) := by
  rw [counts]
  exact as_int_add_as_int refs (-1)

theorem count_more {count refs : Int} (counts : count = asInt refs) :
    asInt (count + 1) = asInt (refs + 1) := by
  rw [counts, as_int_add_as_int]

/-! ## The operations on a tidy pointer -/

theorem linked_first (entries : Store CallbackEntry) (cb : Nat) :
    Linked (entries.push ⟨cb, none⟩) (some entries.fresh) [(entries.fresh, cb)] := by
  have read : (entries.push ⟨cb, none⟩).read entries.fresh = some ⟨cb, none⟩ := by
    rw [read_push, if_pos rfl]
  apply carries_push_front (carries_nothing _ _)
  · rw [nextOf, read]
    rfl
  · rw [cbOf, read]
    rfl

theorem linked_push {last : Nat} {entry : CallbackEntry} (linked : Linked entries start cbs)
    (isLast : (cbs.map Prod.fst).getLast? = some last) (read : entries.read last = some entry)
    (cb : Nat) :
    Linked ((entries.push ⟨cb, none⟩).write last { entry with next := some entries.fresh }) start
      (cbs ++ [(entries.fresh, cb)]) := by
  have pushed : (entries.push ⟨cb, none⟩).read last = some entry := read_push_of_present read _
  have bound : last < entries.fresh := read_bound read
  have inside : ∀ cell ∈ cbs.map Prod.fst, (entries.push ⟨cb, none⟩).read cell =
      entries.read cell := by
    intro cell member
    rcases segment_exists linked.chain cell member with ⟨after, step⟩
    rcases Option.map_eq_some_iff.mp step with ⟨old, present, _⟩
    rw [present]
    exact read_push_of_present present _
  have filled : cbs.map Prod.fst ≠ [] := by
    intro empty
    rw [empty] at isLast
    cases isLast
  have new : ((entries.push ⟨cb, none⟩).write last { entry with next := some entries.fresh }).read
      entries.fresh =
      some ⟨cb, none⟩ := by
    rw [read_write pushed, if_neg (by omega), read_push, if_pos rfl]
  rw [Linked, List.map_append, List.map_append]
  apply carries_push_back linked filled
  · intro cell here
    rw [isLast] at here
    cases here
    rw [nextOf, read_write pushed, if_pos rfl]
    rfl
  · intro cell member other
    have differ : cell ≠ last := fun same => other (same ▸ isLast)
    rw [nextOf, nextOf, read_write pushed, if_neg differ, inside cell member]
  · intro cell member
    rw [cbOf, cbOf, map_read_write_same CallbackEntry.cb pushed
      { entry with next := some entries.fresh } rfl,
      inside cell member]
  · rw [nextOf, new]
    rfl
  · rw [cbOf, new]
    rfl

theorem tidy_register (tidy : Tidy p s cbs) (cb : Nat) :
    ∃ after, p.registerCallback cb = some after ∧
      Tidy after (s.next (.registerCallback cb)) (cbs ++ [(p.entries.fresh, cb)]) := by
  have known : ∀ obj, p.d = some obj → obj < p.objects.fresh :=
    fun obj here => read_bound (tidy.alive obj here)
  have ledger := ledger_register tidy.ledger known cb
  have longer : (cbs ++ [(p.entries.fresh, cb)]).length = s.pending + 1 := by
    rw [List.length_append, tidy.pending]
    rfl
  cases first : p.firstCallback with
  | none =>
      have linked := tidy.linked
      rw [first] at linked
      have empty : cbs = [] := List.map_eq_nil_iff.mp (carries_none linked).1
      subst empty
      refine ⟨{ p with
        firstCallback := some p.entries.fresh, entries := p.entries.push ⟨cb, none⟩
        log := p.log ++ [.register p.entries.fresh cb p.d] }, ?_, ?_⟩
      · simp only [registerCallback, addCallback, first]
      exact
        { attached := tidy.attached, refs := tidy.refs, pending := longer,
          linked := linked_first _ _,
          alive := tidy.alive, fine := tidy.fine
          ledger := by rw [fresh_push]; exact ledger }
  | some nex =>
      have linked := tidy.linked
      rw [first] at linked
      rcases last_from_eq linked (linked_short linked) with ⟨last, entry, found, isLast, read, _⟩
      refine ⟨{ p with
        entries := (p.entries.push ⟨cb, none⟩).write last
          { entry with next := some p.entries.fresh }
        log := p.log ++ [.register p.entries.fresh cb p.d] }, ?_, ?_⟩
      · simp only [registerCallback, addCallback, first, found, read, Option.bind_eq_bind,
          Option.bind_some]
      exact
        { attached := tidy.attached, refs := tidy.refs, pending := longer
          linked := linked_push tidy.linked isLast read cb
          alive := tidy.alive, fine := tidy.fine
          ledger := by rw [fresh_write, fresh_push]; exact ledger }

theorem tidy_dup (tidy : Tidy p s cbs) : Tidy p.dupP (s.next .dupP) cbs where
  attached := tidy.attached
  refs := count_more tidy.refs
  pending := tidy.pending
  linked := tidy.linked
  alive := tidy.alive
  ledger := tidy.ledger
  fine := tidy.fine

/-- The entries are freed, each after its call, and `firstCallback` stays. -/
theorem destroy_eq (tidy : Tidy p s cbs) :
    ∃ after, p.destroy = some after ∧ after.d = none ∧ after.refCount = p.refCount ∧
      after.firstCallback = p.firstCallback ∧
      Ledger after.log none [] after.entries.fresh after.objects.fresh ∧
      ∀ cell ∈ cbs.map Prod.fst, after.entries.read cell = none := by
  rcases call_from_eq p.d p.log tidy.linked (linked_short tidy.linked) with ⟨entries, ran,
    fresh, _, gone⟩
  have nodup := linked_nodup tidy.linked
  have ledger := tidy.ledger
  cases object : p.d with
  | none =>
      rw [object] at ran ledger
      refine ⟨{ p with entries, log := p.log ++ calls none cbs }, ?_, object, rfl, rfl, ?_, gone⟩
      · simp only [destroy, object, ran, Option.bind_eq_bind, Option.bind_some, deleteD]
      · rw [fresh]
        exact ledger_tear ledger nodup (torn_calls none cbs)
          (fun entry cb obj here => by cases here)
  | some obj =>
      rw [object] at ran ledger
      have alive := tidy.alive obj object
      refine ⟨{ p with
        d := none, entries, objects := p.objects.giveUp obj, log :=
          p.log ++ calls (some obj) cbs ++ [.delete obj] },
        ?_, rfl, rfl, rfl, ?_, gone⟩
      · simp only [destroy, object, ran, Option.bind_eq_bind, Option.bind_some, deleteD, alive,
          Option.map_some]
      · rw [fresh, fresh_give_up]
        exact ledger_delete ledger nodup (read_bound alive)

theorem tidy_count (tidy : Tidy p s cbs) :
    Tidy { p with refCount := asInt (p.refCount - 1) } { s with refs := s.refs - 1 } cbs where
  attached := tidy.attached
  refs := count_less tidy.refs
  pending := tidy.pending
  linked := tidy.linked
  alive := tidy.alive
  ledger := tidy.ledger
  fine := tidy.fine

theorem tidy_release (tidy : Tidy p s cbs) :
    ∃ after, p.release = some after ∧ Holds after (s.next .release) ∧
      after.d = if s.last = true then none else p.d := by
  have counted := tidy_count tidy
  by_cases last : asInt (s.refs - 1) < 1
  · have isLast : asInt (p.refCount - 1) < 1 := by
      rw [count_less tidy.refs]
      exact last
    have next : s.next .release = ⟨false, s.refs - 1, 0, s.stale || s.pending ≠ 0⟩ := by
      simp only [Status.next, Status.last, last, decide_true, if_true]
    rcases destroy_eq counted with ⟨after, ran, null, refs, first, ledger, gone⟩
    refine ⟨after, by simp only [release, isLast, if_true, ran],
      ?_, by simp [Status.last, last, null]⟩
    rw [next]
    cases cbs with
    | nil =>
        have none : p.firstCallback = none := linked_nil tidy.linked
        have empty : s.pending = 0 := tidy.pending.symm
        refine Or.inl ⟨[], ?_⟩
        exact
          { attached := by rw [null]; rfl
            refs := refs.trans counted.refs
            pending := rfl
            linked := by rw [first, none]; exact carries_nothing _ _
            alive := by rw [null]; intro obj here; cases here
            ledger := by rw [null]; exact ledger
            fine := by rw [tidy.fine, empty]; rfl }
    | cons pair cbs =>
        rcases linked_cons tidy.linked with ⟨entry, start, _, _, _⟩
        have filled : s.pending ≠ 0 := by
          rw [← tidy.pending]
          exact Nat.succ_ne_zero _
        refine Or.inr ?_
        exact
          { null := null, attached := rfl, pending := rfl, ledger := ledger
            refs := refs.trans counted.refs
            freed := ⟨pair.1, first.trans start, gone pair.1 (List.mem_cons_self ..)⟩
            stale := by simp only [filled, ne_eq, not_false_eq_true, decide_true, Bool.or_true] }
  · have notLast : ¬ asInt (p.refCount - 1) < 1 := by
      rw [count_less tidy.refs]
      exact last
    have next : s.next .release = { s with refs := s.refs - 1 } := by
      simp only [Status.next, Status.last, last, decide_false, Bool.false_eq_true, if_false]
    refine ⟨{ p with refCount := asInt (p.refCount - 1) }, ?_, ?_, by simp [Status.last, last]⟩
    · simp only [release, notLast, if_false]
    · rw [next]
      exact Or.inl ⟨cbs, counted⟩

theorem tidy_reset (tidy : Tidy p s cbs) (gone : s.attached = false) :
    ∃ after, p.reset true = some after ∧ Tidy after (s.next .reset) [] := by
  have null : p.d = none := by
    have absent := tidy.attached
    rw [gone] at absent
    exact Option.isNone_iff_eq_none.mp (by simpa using absent)
  have ledger := tidy.ledger
  rw [null] at ledger
  have given := ledger_give ledger
  rcases remove_from_eq (p.log ++ [.give p.objects.fresh]) tidy.linked
      (linked_short tidy.linked) with
    ⟨entries, ran, fresh⟩
  have unused : ∀ entry cb obj, some p.objects.fresh = some obj →
      .register entry cb (some obj) ∉ p.log ++ [.give p.objects.fresh] := by
    intro entry cb obj here member
    cases here
    have old : .register entry cb (some p.objects.fresh) ∈ p.log := by simpa using member
    have bound := (ledger.below _ old).2 p.objects.fresh rfl
    omega
  refine ⟨_, by simp only [reset, point, removeAllCallbacks, ran, Option.bind_eq_bind,
    Option.bind_some]; rfl, ?_⟩
  exact
    { attached := rfl, refs := rfl, pending := rfl, linked := carries_nothing _ _, fine := rfl
      alive := by
        intro obj here
        cases here
        rw [read_push, if_pos rfl]
      ledger := by
        rw [fresh, fresh_push]
        exact ledger_tear given (linked_nodup tidy.linked) (torn_frees _ cbs) unused }

/-! ## The operations on a dangling pointer -/

/-- What goes along the entries uses one that was freed. -/
theorem dangling_fails (dangling : Dangling p s) {op : Op} (reads : s.reads op = true) :
    perform p op = none := by
  rcases dangling.freed with ⟨entry, first, freed⟩
  cases op with
  | registerCallback cb =>
      simp only [perform, registerCallback, addCallback, first, last_from_freed freed,
        Option.bind_eq_bind,
        Option.bind_none]
  | dupP => cases reads
  | release =>
      have last : asInt (p.refCount - 1) < 1 := by
        rw [count_less dangling.refs]
        exact of_decide_eq_true reads
      simp only [perform, release, last, if_true, destroy, first, call_from_freed freed,
        Option.bind_eq_bind,
        Option.bind_none]
  | reset =>
      simp only [perform, reset, point, removeAllCallbacks, first, remove_from_freed freed,
        Option.bind_eq_bind,
        Option.bind_none]

theorem dangling_counts (dangling : Dangling p s) {op : Op} (silent : s.reads op = false) :
    ∃ after, perform p op = some after ∧ Dangling after (s.next op) := by
  cases op with
  | registerCallback cb => cases silent
  | dupP =>
      refine ⟨p.dupP, rfl, ?_⟩
      exact
        { null := dangling.null, attached := dangling.attached, refs := count_more dangling.refs
          pending := dangling.pending, freed := dangling.freed, ledger := dangling.ledger, stale :=
          dangling.stale }
  | release =>
      have more : ¬ asInt (s.refs - 1) < 1 := of_decide_eq_false silent
      have notLast : ¬ asInt (p.refCount - 1) < 1 := by
        rw [count_less dangling.refs]
        exact more
      have next : s.next .release = { s with refs := s.refs - 1 } := by
        simp only [Status.next, Status.last, more, decide_false, Bool.false_eq_true, if_false]
      refine ⟨{ p with refCount := asInt (p.refCount - 1) }, by simp only [perform, release,
        notLast, if_false], ?_⟩
      rw [next]
      exact
        { null := dangling.null, attached := dangling.attached, refs := count_less dangling.refs
          pending := dangling.pending, freed := dangling.freed, ledger := dangling.ledger, stale :=
          dangling.stale }
  | reset => cases silent

/-! ## Whole lives -/

theorem tidy_step (tidy : Tidy p s cbs) {op : Op} (free : op = .reset → s.attached = false) :
    ∃ after, perform p op = some after ∧ Holds after (s.next op) := by
  cases op with
  | registerCallback cb =>
      rcases tidy_register tidy cb with ⟨after, ran, holds⟩
      exact ⟨after, ran, Or.inl ⟨_, holds⟩⟩
  | dupP => exact ⟨p.dupP, rfl, Or.inl ⟨cbs, tidy_dup tidy⟩⟩
  | release =>
      rcases tidy_release tidy with ⟨after, ran, holds, -⟩
      exact ⟨after, ran, holds⟩
  | reset =>
      rcases tidy_reset tidy (free rfl) with ⟨after, ran, holds⟩
      exact ⟨after, ran, Or.inl ⟨[], holds⟩⟩

/-- An operation has a result unless it reads what a release has freed. -/
theorem step (holds : Holds p s) {op : Op} (free : op = .reset → s.attached = false) :
    if s.stale = true → s.reads op = false then ∃ after, perform p op = some after ∧
    Holds after (s.next op)
    else perform p op = none := by
  split_ifs with silent
  · rcases holds with ⟨cbs, tidy⟩ | dangling
    · exact tidy_step tidy free
    · rcases dangling_counts dangling (silent dangling.stale) with ⟨after, ran, stays⟩
      exact ⟨after, ran, Or.inr stays⟩
  · rcases holds with ⟨cbs, tidy⟩ | dangling
    · exact absurd (fun stale => by rw [tidy.fine] at stale; cases stale) silent
    · apply dangling_fails dangling
      by_contra other
      exact silent fun _ => Bool.eq_false_iff.mpr other

theorem cleans_up_of_ledger (ledger : Ledger log none [] p.entries.fresh p.objects.fresh) :
    CleansUp log where
  deleted := by
    intro obj given
    rw [ledger.given obj given, if_neg (by simp)]
  called := by
    intro entry cb obj registered
    rcases ledger.called entry cb obj registered with ⟨here, _⟩ | ⟨_, called⟩
    · cases here
    · exact called
  freed := by
    intro entry cb obj registered
    rw [ledger.freed entry cb obj registered, if_neg (by simp)]

theorem destruct_cleans_up_iff (holds : Holds p s) :
    (∃ final, p.destruct = some final ∧ CleansUp final.log) ↔ s.attached = true ∨
    s.pending = 0 := by
  rcases holds with ⟨cbs, tidy⟩ | dangling
  · cases object : p.d with
    | some obj =>
        have attached : s.attached = true := by rw [← tidy.attached, object]; rfl
        rcases destroy_eq tidy with ⟨after, ran, _, _, _, ledger, _⟩
        refine iff_of_true ⟨after, ?_, cleans_up_of_ledger ledger⟩ (Or.inl attached)
        rw [destruct, object]
        exact ran
    | none =>
        have detached : ¬ s.attached = true := by rw [← tidy.attached, object]; simp
        have same : p.destruct = some p := by rw [destruct, object]; rfl
        have ledger := tidy.ledger
        rw [object] at ledger
        rw [same]
        constructor
        · rintro ⟨final, here, clean⟩
          cases here
          cases cbs with
          | nil => exact Or.inr tidy.pending.symm
          | cons pair cbs =>
              rcases ledger.known pair.1 pair.2 (List.mem_cons_self ..) with ⟨known, registered⟩
              have once := clean.freed pair.1 pair.2 known registered
              rw [ledger.freed pair.1 pair.2 known registered, if_pos (by simp)] at once
              cases once
        · intro empty
          have none := List.length_eq_zero_iff.mp (tidy.pending.trans (empty.resolve_left detached))
          subst none
          exact ⟨p, rfl, cleans_up_of_ledger ledger⟩
  · have same : p.destruct = some p := by rw [destruct, dangling.null]; rfl
    exact iff_of_true ⟨p, same, cleans_up_of_ledger dangling.ledger⟩ (Or.inr dangling.pending)

theorem release_object (holds : Holds p s) {after : AutoPointer} (ran : p.release = some after) :
    after.d = if s.last = true then none else p.d := by
  rcases holds with ⟨cbs, tidy⟩ | dangling
  · rcases tidy_release tidy with ⟨known, same, -, object⟩
    cases Option.some.inj (same.symm.trans ran)
    exact object
  · have silent : s.reads .release = false := by
      rw [Bool.eq_false_iff]
      intro reads
      have fails := dangling_fails dangling reads
      cases fails.symm.trans ran
    rcases dangling_counts dangling silent with ⟨known, same, stays⟩
    cases Option.some.inj (same.symm.trans ran)
    rw [stays.null, dangling.null, ite_self]

theorem attached_eq (holds : Holds p s) : p.d.isSome = s.attached := by
  rcases holds with ⟨cbs, tidy⟩ | dangling
  · exact tidy.attached
  · rw [dangling.null, dangling.attached]
    rfl

/-- The object goes with the last reference exactly if no other reference is taken for it. -/
theorem release_on_time_iff (holds : Holds p s) (held : 1 ≤ s.refs) {after : AutoPointer}
    (ran : p.release = some after) :
    (after.d = if 1 < s.refs then p.d else none) ↔ (s.attached = true → s.last = true →
      s.refs ≤ 1) := by
  rw [release_object holds ran, ← attached_eq holds]
  by_cases more : 1 < s.refs
  · rw [if_pos more]
    cases object : p.d with
    | none => simp
    | some obj =>
        have others : ¬ s.refs ≤ 1 := by omega
        by_cases last : s.last = true <;> simp [last, others]
  · have single : s.refs = 1 := by omega
    have last : s.last = true := by
      rw [Status.last, single]
      decide
    simp [last, single]

theorem run_out_cleans_up_iff (holds : Holds p s) {ops : List Op} (legal : Legal s ops) :
    ((∃ final, runOut p ops = some final ∧ CleansUp final.log) ∧ OnTime p s.refs ops) ↔
    Orderly s ops := by
  induction ops generalizing p s with
  | nil =>
      rw [OnTime, and_true]
      exact destruct_cleans_up_iff holds
  | cons op ops ih =>
      rcases legal with ⟨held, free, later⟩
      have stepped := step holds free
      rw [runOut, Orderly]
      split_ifs at stepped with silent
      · rcases stepped with ⟨after, ran, stays⟩
        have onward := ih stays later
        rw [refs_next] at onward
        have timely : (op = .release → after.d = if 1 < s.refs then p.d else none) ↔
            (op = .release → s.attached = true → s.last = true → s.refs ≤ 1) := by
          apply imp_congr_right
          rintro rfl
          exact release_on_time_iff holds (held rfl) ran
        rw [ran, and_iff_right silent, ← onward, ← timely, OnTime]
        constructor
        · rintro ⟨ends, times⟩
          rcases times after ran with ⟨now, rest⟩
          exact ⟨now, ends, rest⟩
        · rintro ⟨now, ends, rest⟩
          refine ⟨ends, fun other same => ?_⟩
          cases Option.some.inj (ran.symm.trans same)
          exact ⟨now, rest⟩
      · rw [stepped]
        exact iff_of_false (fun ⟨⟨final, here, _⟩, _⟩ => by cases here) fun all => silent all.1

theorem construct_tidy (construction : Construction) :
    ∃ p, construct construction = some p ∧ Tidy p (Status.begin construction) [] := by
  cases construction with
  | default =>
      refine ⟨AutoPointer.null, rfl, ?_⟩
      exact
        { attached := rfl, refs := rfl, pending := rfl, linked := carries_nothing _ _
          alive := fun obj here => by cases here
          ledger := ledger_start, fine := rfl }
  | null =>
      refine ⟨{ AutoPointer.null with refCount := 1 }, rfl, ?_⟩
      exact
        { attached := rfl, refs := rfl, pending := rfl, linked := carries_nothing _ _
          alive := fun obj here => by cases here
          ledger := ledger_start, fine := rfl }
  | object =>
      refine ⟨⟨some 0, 1, none, Store.empty, Store.empty.push (), [.give 0]⟩, rfl, ?_⟩
      exact
        { attached := rfl, refs := rfl, pending := rfl, linked := carries_nothing _ _
          alive := fun obj here => by cases here; rfl
          ledger := ledger_give ledger_start, fine := rfl }

/-- Every legal life cleans up, once and in time, exactly if it is orderly. -/
theorem life_cleans_up_iff (construction : Construction) (ops : List Op)
    (legal : Legal (Status.begin construction) ops) :
    ((∃ final, life construction ops = some final ∧ CleansUp final.log) ∧
      ∀ p, construct construction = some p → OnTime p (Status.begin construction).refs ops) ↔
      Orderly (Status.begin construction) ops := by
  rcases construct_tidy construction with ⟨p, made, tidy⟩
  have runs := run_out_cleans_up_iff (Or.inl ⟨[], tidy⟩) legal
  rw [life, made, ← runs]
  constructor
  · exact fun both => ⟨both.1, both.2 p rfl⟩
  · rintro ⟨ends, times⟩
    refine ⟨ends, fun other same => ?_⟩
    cases Option.some.inj same
    exact times

/-- The first object goes without callbacks; the second has two, and a reference is left. -/
def renewed : List Op := [.release, .reset, .registerCallback 7, .dupP,
    .registerCallback 8, .release]

theorem life_cleans_up_iff_renewed :
    ((∃ final, life .object renewed = some final ∧ CleansUp final.log) ∧
      ∀ p, construct .object = some p → OnTime p (Status.begin .object).refs renewed) ↔
      Orderly (Status.begin .object) renewed := by
  have legal : Legal (Status.begin .object) renewed := by
    have gone : asInt 0 < 1 := by decide
    simp [renewed, Legal, Status.next, Status.last, Status.begin, gone]
  exact life_cleans_up_iff .object renewed legal

/-- A reset after the first object has gone with a callback: the callback entry is freed by
`destroy`, and `removeAllCallbacks` goes along it again. -/
theorem reset_uses_freed_entry :
    Legal (Status.begin .object) [.registerCallback 7, .release, .reset] ∧
      ¬ ∃ final, life .object [.registerCallback 7, .release, .reset] = some final ∧
      CleansUp final.log := by
  constructor
  · have gone : asInt 0 < 1 := by decide
    simp [Legal, Status.begin, Status.next, Status.last, gone]
  · have fails : life .object [.registerCallback 7, .release, .reset] = none := by decide
    rw [fails]
    rintro ⟨final, here, _⟩
    cases here

end TWlib.AutoPointerCleanup
