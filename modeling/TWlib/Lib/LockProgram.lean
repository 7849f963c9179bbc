import Mathlib.Data.List.Basic
import Mathlib.Logic.Function.Basic

/-!
# Threads that take and release mutexes

A thread is the instructions it still has to execute and the mutexes it holds. Two
threads are crossed when each waits for a mutex that the other holds: neither can
take a step then. Programs that hold at most one mutex where they wait, and that
take their two mutexes in opposite orders, get there exactly if one of them takes
the first of its two while the other has the first of its own.
-/

namespace TWlib.Lib.LockProgram

set_option autoImplicit false

inductive Instr (Mutex : Type*) where
  | lock (m : Mutex)
  | unlock (m : Mutex)
  /-- Anything that takes and releases no mutex. -/
  | work
deriving DecidableEq

structure Thread (Mutex : Type*) where
  rest : List (Instr Mutex)
  held : List Mutex

variable {Id Mutex : Type*} [DecidableEq Id] [DecidableEq Mutex]

abbrev Threads (Id Mutex : Type*) := Id → Thread Mutex

def heldAfter (held : List Mutex) : Instr Mutex → List Mutex
  | .lock m => m :: held
  | .unlock m => held.erase m
  | .work => held

/-- A mutex is taken when nobody holds it, not even the thread itself. -/
def Can (threads : Threads Id Mutex) (i : Id) : Instr Mutex → Prop
  | .lock m => ∀ j, m ∉ (threads j).held
  | .unlock m => m ∈ (threads i).held
  | .work => True

inductive Step (threads : Threads Id Mutex) (i : Id) : Threads Id Mutex → Prop where
  | next {instr : Instr Mutex} {rest : List (Instr Mutex)} (now : (threads i).rest = instr :: rest)
      (can : Can threads i instr) :
      Step threads i (Function.update threads i ⟨rest, heldAfter (threads i).held instr⟩)

structure Turn (Id Mutex : Type*) where
  before : Threads Id Mutex
  who : Id
  after : Threads Id Mutex

inductive Runs (first : Threads Id Mutex) : List (Turn Id Mutex) → Threads Id Mutex → Prop where
  | start : Runs first [] first
  | turn {turns : List (Turn Id Mutex)} {before after : Threads Id Mutex} {who : Id}
      (runs : Runs first turns before) (step : Step before who after) :
      Runs first (turns ++ [⟨before, who, after⟩]) after

/-- The next instruction takes the mutex. -/
def Waits (thread : Thread Mutex) (m : Mutex) : Prop := ∃ rest, thread.rest = .lock m :: rest

/-- Each of the two holds the mutex that the other waits for. -/
def Crossed (threads : Threads Id Mutex) (one two : Id) : Prop :=
  ∃ m n, Waits (threads one) m ∧ m ∈ (threads two).held ∧ Waits (threads two) n ∧
    n ∈ (threads one).held

/-- The thread is between the first and the second of two mutexes. -/
def Between (thread : Thread Mutex) : Prop := thread.held ≠ [] ∧ ∃ m, Waits thread m

/-- The next instruction takes a mutex, and the one after it another. -/
def BeginsPair (thread : Thread Mutex) : Prop :=
  ∃ m n rest, thread.rest = .lock m :: .lock n :: rest

/-- Neither of the two takes the first of its mutexes while the other is between its own. -/
def Apart (one two : Id) (turn : Turn Id Mutex) : Prop :=
  (turn.who = one → BeginsPair (turn.before one) → ¬ Between (turn.before two)) ∧
  (turn.who = two → BeginsPair (turn.before two) → ¬ Between (turn.before one))

/-! ## The way of one thread through its program -/

/-- The thread before each of its instructions, and at the end. -/
def walk (held : List Mutex) : List (Instr Mutex) → List (Thread Mutex)
  | [] => [⟨[], held⟩]
  | instr :: rest => ⟨instr :: rest, held⟩ :: walk (heldAfter held instr) rest

theorem walk_head (held : List Mutex) (code : List (Instr Mutex)) :
    ⟨code, held⟩ ∈ walk held code := by
  cases code with
  | nil => exact List.mem_singleton.mpr rfl
  | cons instr rest => exact List.mem_cons_self

theorem walk_next {start held : List Mutex} {code rest : List (Instr Mutex)} {instr : Instr Mutex}
    (here : ⟨instr :: rest, held⟩ ∈ walk start code) :
    ⟨rest, heldAfter held instr⟩ ∈ walk start code := by
  induction code generalizing start with
  | nil =>
      have same := List.mem_singleton.mp here
      cases same
  | cons first code ih =>
      rcases List.mem_cons.mp here with same | later
      · cases same
        exact List.mem_cons_of_mem _ (walk_head _ _)
      · exact List.mem_cons_of_mem _ (ih later)

/-- The program waits with at most the mutex `x`, for `y`, in its hand, and comes to such a wait by
a lock. -/
structure Pairs (x y : Mutex) (code : List (Instr Mutex)) : Prop where
  waits : ∀ thread ∈ walk [] code, ∀ m, Waits thread m → thread.held = [] ∨
    thread.held = [x] ∧ m = y
  enters : ∀ thread ∈ walk [] code, ∀ instr m rest, thread.rest = instr :: .lock m :: rest →
    heldAfter thread.held instr ≠ [] → ∃ n, instr = .lock n

variable {first last threads after : Threads Id Mutex} {turns : List (Turn Id Mutex)}
  {i one two : Id} {x y : Mutex} {code : Id → List (Instr Mutex)}

/-! ## Two threads -/

theorem step_walks (walks : ∀ j, threads j ∈ walk [] (code j)) (step : Step threads i after) :
    ∀ j, after j ∈ walk [] (code j) := by
  cases step with
  | next now can =>
      intro j
      by_cases here : j = i
      · subst here
        rw [Function.update_self]
        have walked := walks j
        rw [show threads j = ⟨_, (threads j).held⟩ from congrArg (Thread.mk · (threads j).held)
          now] at walked
        exact walk_next walked
      · rw [Function.update_of_ne here]
        exact walks j

omit [DecidableEq Id] in
theorem crossed_iff (onePairs : Pairs x y (code one)) (twoPairs : Pairs y x (code two))
    (walks : ∀ j, threads j ∈ walk [] (code j)) :
    Crossed threads one two ↔ Between (threads one) ∧ Between (threads two) := by
  constructor
  · rintro ⟨m, n, waitsOne, heldTwo, waitsTwo, heldOne⟩
    exact ⟨⟨List.ne_nil_of_mem heldOne, m, waitsOne⟩, ⟨List.ne_nil_of_mem heldTwo, n, waitsTwo⟩⟩
  · rintro ⟨⟨oneHolds, m, waitsOne⟩, ⟨twoHolds, n, waitsTwo⟩⟩
    rcases onePairs.waits _ (walks one) m waitsOne with nothing | ⟨oneHeld, oneWaits⟩
    · exact absurd nothing oneHolds
    · rcases twoPairs.waits _ (walks two) n waitsTwo with nothing | ⟨twoHeld, twoWaits⟩
      · exact absurd nothing twoHolds
      · refine ⟨m, n, waitsOne, ?_, waitsTwo, ?_⟩
        · rw [twoHeld, oneWaits]
          exact List.mem_singleton.mpr rfl
        · rw [oneHeld, twoWaits]
          exact List.mem_singleton.mpr rfl

theorem step_begins (step : Step threads i after) (begins : BeginsPair (threads i)) :
    Between (after i) := by
  rcases begins with ⟨m, n, rest, now⟩
  cases step with
  | next known can =>
      rw [now] at known
      cases known
      rw [Function.update_self]
      exact ⟨List.cons_ne_nil _ _, n, rest, rfl⟩

theorem step_enters (pairs : Pairs x y (code i)) (walks : ∀ j, threads j ∈ walk [] (code j))
    (step : Step threads i after) (between : Between (after i)) : BeginsPair (threads i) := by
  rcases between with ⟨holds, m, rest, waits⟩
  cases step with
  | next now can =>
      rename_i instr later
      rw [Function.update_self] at holds waits
      have remains : later = .lock m :: rest := waits
      rw [remains] at now
      rcases pairs.enters _ (walks i) instr m rest now holds with ⟨n, same⟩
      rw [same] at now
      exact ⟨n, m, rest, now⟩

theorem step_other (step : Step threads i after) {j : Id} (other : j ≠ i) :
    after j = threads j := by
  cases step with
  | next now can => rw [Function.update_of_ne other]

theorem step_crossed_iff (different : one ≠ two) (onePairs : Pairs x y (code one))
    (twoPairs : Pairs y x (code two)) (walks : ∀ j, threads j ∈ walk [] (code j))
    (free : ¬ Crossed threads one two) {who : Id} (step : Step threads who after) :
    ¬ Crossed after one two ↔ Apart one two ⟨threads, who, after⟩ := by
  rw [crossed_iff onePairs twoPairs walks] at free
  rw [crossed_iff onePairs twoPairs (step_walks walks step)]
  constructor
  · intro apart
    constructor
    · rintro rfl begins between
      refine apart ⟨step_begins step begins, ?_⟩
      rw [step_other step different.symm]
      exact between
    · rintro rfl begins between
      refine apart ⟨?_, step_begins step begins⟩
      rw [step_other step different]
      exact between
  · rintro ⟨byOne, byTwo⟩ ⟨betweenOne, betweenTwo⟩
    by_cases isOne : who = one
    · subst isOne
      rw [step_other step different.symm] at betweenTwo
      exact byOne rfl (step_enters onePairs walks step betweenOne) betweenTwo
    · rw [step_other step (Ne.symm isOne)] at betweenOne
      by_cases isTwo : who = two
      · subst isTwo
        exact byTwo rfl (step_enters twoPairs walks step betweenTwo) betweenOne
      · rw [step_other step (Ne.symm isTwo)] at betweenTwo
        exact free ⟨betweenOne, betweenTwo⟩

/-- In a run from the beginning of the programs the two never cross exactly if each begins its pair
apart. -/
theorem runs_crossed_iff (different : one ≠ two) (onePairs : Pairs x y (code one))
    (twoPairs : Pairs y x (code two)) (starts : ∀ j, first j = ⟨code j, []⟩)
    (runs : Runs first turns last) :
    (∀ j, last j ∈ walk [] (code j)) ∧ ((∀ turn ∈ turns, ¬ Crossed turn.after one two) →
      ¬ Crossed last one two) ∧
      ((∀ turn ∈ turns, ¬ Crossed turn.after one two) ↔ ∀ turn ∈ turns, Apart one two turn) := by
  induction runs with
  | start =>
      refine ⟨fun j => ?_, fun _ => ?_, ?_⟩
      · rw [starts j]
        exact walk_head _ _
      · rintro ⟨m, n, _, _, _, held⟩
        rw [starts one] at held
        cases held
      · simp only [List.not_mem_nil, false_implies, implies_true]
  | turn runs step ih =>
      rcases ih with ⟨walks, free, iff⟩
      refine ⟨step_walks walks step, fun never => ?_, ?_⟩
      · exact never _ (List.mem_append_right _ (List.mem_singleton.mpr rfl))
      · rw [List.forall_mem_append, List.forall_mem_append, List.forall_mem_singleton,
          List.forall_mem_singleton]
        constructor
        · rintro ⟨never, now⟩
          exact ⟨iff.mp never, (step_crossed_iff different onePairs twoPairs walks
            (free never) step).mp now⟩
        · rintro ⟨apart, now⟩
          have never := iff.mpr apart
          exact ⟨never, (step_crossed_iff different onePairs twoPairs walks
            (free never) step).mpr now⟩

theorem crossed_stuck (crossed : Crossed threads one two) :
    ¬ Step threads one after ∧ ¬ Step threads two after := by
  rcases crossed with ⟨m, n, ⟨restOne, waitsOne⟩, heldTwo, ⟨restTwo, waitsTwo⟩, heldOne⟩
  constructor
  · rintro ⟨now, can⟩
    rw [waitsOne] at now
    cases now
    exact can two heldTwo
  · rintro ⟨now, can⟩
    rw [waitsTwo] at now
    cases now
    exact can one heldOne

end TWlib.Lib.LockProgram
