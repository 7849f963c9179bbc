import TWlib.Lib.LockProgram

/-!
# Copying between two queues

`cloneFrom` and `transferFrom` of a circular queue take the mutex of the queue
itself and then that of the other; the assignment of a FIFO clears the queue and
then takes the mutex of the other one first. Two threads that copy in opposite
directions take the two mutexes in opposite orders.
-/

namespace TWlib.QueueLocks

open TWlib.Lib.LockProgram

set_option autoImplicit false

section Programs

variable {Mutex : Type*} (self other : Mutex)

/-- `sema.lockSemaOnly(); other.sema.lockSemaOnly();`, the copying, and the mutexes in the opposite
order. -/
def lockBoth : List (Instr Mutex) := [.lock self, .lock other, .work, .unlock other, .unlock self]

/-- `tw_safeCircular::cloneFrom` -/
def cloneFrom : List (Instr Mutex) := lockBoth self other

/-- `tw_safeCircular::transferFrom` -/
def transferFrom : List (Instr Mutex) := lockBoth self other

/-- `tw_safeFIFO::unblockAll` -/
def unblockAll : List (Instr Mutex) := [.lock self, .work, .unlock self]

/-- `tw_safeFIFO::clearAll` -/
def clearAll : List (Instr Mutex) := [.lock self, .work, .unlock self] ++ unblockAll self

/-- `tw_safeFIFO::operator=` -/
def assign : List (Instr Mutex) := clearAll self ++ [.lock other, .lock self, .work, .unlock other,
    .unlock self]

end Programs

inductive CircularCopy where
  | cloneFrom
  | transferFrom
deriving DecidableEq

/-- What the two threads run: two copies of circular queues, or two assignments of FIFOs. -/
inductive Pair where
  | circular (first second : CircularCopy)
  | fifo
deriving DecidableEq

section Threads

variable {Mutex : Type*}

def CircularCopy.code (self other : Mutex) : CircularCopy → List (Instr Mutex)
  | .cloneFrom => QueueLocks.cloneFrom self other
  | .transferFrom => QueueLocks.transferFrom self other

/-- The program of the first thread, from `b` to `a`, and that of the second, from `a` to `b`. -/
def Pair.code (a b : Mutex) : Pair → Bool → List (Instr Mutex)
  | .circular first _, false => first.code a b
  | .circular _ second, true => second.code b a
  | .fifo, false => assign a b
  | .fifo, true => assign b a

def Pair.start (pair : Pair) (a b : Mutex) : Threads Bool Mutex := fun i => ⟨pair.code a b i, []⟩

variable [DecidableEq Mutex]

theorem lock_both_pairs (self other : Mutex) : Pairs self other (lockBoth self other) := by
  constructor
  · intro thread member m waits
    rcases waits with ⟨rest, now⟩
    simp only [lockBoth, walk, heldAfter, List.mem_cons, List.not_mem_nil, or_false] at member
    rcases member with rfl | rfl | rfl | rfl | rfl | rfl
    · exact Or.inl rfl
    · cases now
      exact Or.inr ⟨rfl, rfl⟩
    all_goals cases now
  · intro thread member instr m rest now holds
    simp only [lockBoth, walk, heldAfter, List.mem_cons, List.not_mem_nil, or_false] at member
    rcases member with rfl | rfl | rfl | rfl | rfl | rfl
    · cases now
      exact ⟨self, rfl⟩
    all_goals cases now

theorem assign_pairs (self other : Mutex) : Pairs other self (assign self other) := by
  constructor
  · intro thread member m waits
    rcases waits with ⟨rest, now⟩
    simp only [assign, clearAll, unblockAll, List.cons_append, List.nil_append, walk, heldAfter,
      List.mem_cons,
      List.not_mem_nil, or_false, List.erase_cons_head] at member
    rcases member with rfl | rfl | rfl | rfl | rfl | rfl | rfl | rfl | rfl | rfl | rfl | rfl
    · exact Or.inl rfl
    · cases now
    · cases now
    · exact Or.inl rfl
    · cases now
    · cases now
    · exact Or.inl rfl
    · cases now
      exact Or.inr ⟨rfl, rfl⟩
    all_goals cases now
  · intro thread member instr m rest now holds
    simp only [assign, clearAll, unblockAll, List.cons_append, List.nil_append, walk, heldAfter,
      List.mem_cons,
      List.not_mem_nil, or_false, List.erase_cons_head] at member
    rcases member with rfl | rfl | rfl | rfl | rfl | rfl | rfl | rfl | rfl | rfl | rfl | rfl
    · cases now
    · cases now
    · cases now
      simp [heldAfter] at holds
    · cases now
    · cases now
    · cases now
      simp [heldAfter] at holds
    · cases now
      exact ⟨other, rfl⟩
    all_goals cases now

theorem circular_pairs (self other : Mutex) (copy : CircularCopy) :
    Pairs self other (copy.code self other) := by
  cases copy with
  | cloneFrom | transferFrom => exact lock_both_pairs self other

/-- In every interleaving of two copies in opposite directions, no state is reached in which each
thread holds the mutex that the other waits for exactly if neither takes its first mutex of the two
while the other has taken its own first and not yet its second. -/
theorem opposite_copies_deadlock_iff (pair : Pair) (a b : Mutex) {turns : List (Turn Bool Mutex)}
    {last : Threads Bool Mutex} (runs : Runs (pair.start a b) turns last) :
    (∀ turn ∈ turns, ¬ Crossed turn.after false true) ↔ ∀ turn ∈ turns, Apart false true turn := by
  have starts : ∀ j, pair.start a b j = ⟨pair.code a b j, []⟩ := fun _ => rfl
  cases pair with
  | circular first second =>
      exact (runs_crossed_iff Bool.false_ne_true (circular_pairs a b first)
        (circular_pairs b a second) starts runs).2.2
  | fifo =>
      exact (runs_crossed_iff Bool.false_ne_true (assign_pairs a b)
        (assign_pairs b a) starts runs).2.2

end Threads

/-- The threads of a transfer from `1` to `0` and of a clone in the other direction. -/
def opposite : Threads Bool Nat := (Pair.circular .transferFrom .cloneFrom).start 0 1

/-- The first thread has the mutex of `0`. -/
def firstLocked : Threads Bool Nat :=
  Function.update opposite false ⟨[.lock 1, .work, .unlock 1, .unlock 0], [0]⟩

theorem first_locked_step : Step opposite false firstLocked := by
  have can : Can opposite false (.lock 0) := by
    intro j
    cases j with
    | false | true => decide
  exact .next rfl can

theorem opposite_copies_deadlock_iff_first_lock :
    (∀ turn ∈ [(⟨opposite, false, firstLocked⟩ : Turn Bool Nat)], ¬ Crossed turn.after false true) ↔
      ∀ turn ∈ [(⟨opposite, false, firstLocked⟩ : Turn Bool Nat)], Apart false true turn :=
  opposite_copies_deadlock_iff (.circular .transferFrom .cloneFrom) 0 1
    (.turn .start first_locked_step)

/-- Each thread takes the mutex of its own queue, and then neither can go on. -/
theorem opposite_copies_deadlock : ∃ turns last, Runs opposite turns last ∧
    Crossed last false true ∧
    ∀ after, ¬ Step last false after ∧ ¬ Step last true after := by
  have can : Can firstLocked true (.lock 1) := by
    intro j
    cases j with
    | false | true => decide
  have second : Step firstLocked true
      (Function.update firstLocked true ⟨[.lock 0, .work, .unlock 0, .unlock 1], [1]⟩) :=
      .next rfl can
  have crossed : Crossed (Function.update firstLocked true
      ⟨[.lock 0, .work, .unlock 0, .unlock 1], [1]⟩) false true :=
    ⟨1, 0, ⟨_, rfl⟩, by decide, ⟨_, rfl⟩, by decide⟩
  exact ⟨_, _, .turn (.turn .start first_locked_step) second, crossed,
    fun _ => crossed_stuck crossed⟩

end TWlib.QueueLocks
