import Mathlib.Data.List.Basic
import Mathlib.Data.List.Count

/-!
# Threads that wait on the condition variables of a monitor

A thread that is not in the monitor is `none`; one that waits keeps the job it will
go on with, and whether it was signalled. Any waiting thread may resume, signalled
or not. `Covered` is the invariant against lost wake-ups: a thread waits without a
signal on something of which there is some supply only while signals are on their
way for all of the supply.
-/

namespace TWlib.Lib.Monitor

set_option autoImplicit false

structure Waiter (Job : Type*) where
  job : Job
  signalled : Bool

abbrev Threads (Job : Type*) := List (Option (Waiter Job))

variable {Job Cond : Type*} [DecidableEq Cond] (on : Job → Cond)

def waiting (signalled : Bool) (cond : Cond) (threads : Threads Job) : Nat :=
  threads.countP fun thread => thread.any fun waiter =>
    on waiter.job = cond && waiter.signalled == signalled

def standing (cond : Cond) (threads : Threads Job) : Nat :=
  threads.countP fun thread => thread.any fun waiter => on waiter.job = cond

/-- One unsignalled thread that waits on `cond` is marked, if there is one. -/
inductive Signal (cond : Cond) : Threads Job → Threads Job → Prop where
  | marks {threads : Threads Job} {i : Nat} {job : Job}
      (waits : threads[i]? = some (some ⟨job, false⟩))
      (same : on job = cond) : Signal cond threads (threads.set i (some ⟨job, true⟩))
  | nobody {threads : Threads Job} (alone : waiting on false cond threads = 0) :
      Signal cond threads threads

def broadcast (cond : Cond) (threads : Threads Job) : Threads Job :=
  threads.map fun thread => thread.map fun waiter =>
    if on waiter.job = cond then { waiter with signalled := true } else waiter

/-- What a region does to the waiting threads. -/
inductive Wake (Cond : Type*) where
  | nobody
  | signal (cond : Cond)
  | broadcast (cond : Cond)
deriving DecidableEq

/-- The conditions of one object among those of several. -/
def Wake.map {Other : Type*} (place : Cond → Other) : Wake Cond → Wake Other
  | .nobody => .nobody
  | .signal cond => .signal (place cond)
  | .broadcast cond => .broadcast (place cond)

inductive Wakes : Wake Cond → Threads Job → Threads Job → Prop where
  | nobody {threads : Threads Job} : Wakes .nobody threads threads
  | signal {cond : Cond} {threads after : Threads Job} (signalled : Signal on cond threads after) :
      Wakes (.signal cond) threads after
  | broadcast {cond : Cond} {threads : Threads Job} :
      Wakes (.broadcast cond) threads (broadcast on cond threads)

/-- Thread `i`, which is outside, comes to stand before a job, or stays outside. -/
def settle (threads : Threads Job) (i : Nat) : Option Job → Threads Job
  | some job => threads.set i (some ⟨job, false⟩)
  | none => threads

def signalTo (cond : Cond) (threads : Threads Job) : Option Nat → Option (Threads Job)
  | none => if waiting on false cond threads = 0 then some threads else none
  | some j =>
      match threads[j]? with
      | some (some ⟨job, false⟩) =>
          if on job = cond then some (threads.set j (some ⟨job, true⟩)) else none
      | _ => none

def wakeBy (signalled : Option Nat) (threads : Threads Job) : Wake Cond → Option (Threads Job)
  | .nobody => some threads
  | .signal cond => signalTo on cond threads signalled
  | .broadcast cond => some (broadcast on cond threads)

variable {on} {threads after : Threads Job} {cond other : Cond} {i : Nat} {job : Job}
    {signalled : Bool}

/-! ## Counting -/

theorem waiting_set (on : Job → Cond) {thread : Option (Waiter Job)}
    (present : threads[i]? = some thread) (now : Option (Waiter Job)) (signalled : Bool)
    (cond : Cond) :
    waiting on signalled cond (threads.set i now) +
        (if thread.any fun waiter => on waiter.job = cond && waiter.signalled ==
          signalled then 1 else 0) =
      waiting on signalled cond threads +
        (if now.any fun waiter => on waiter.job = cond && waiter.signalled == signalled then 1
          else 0) := by
  rcases List.getElem?_eq_some_iff.mp present with ⟨bound, here⟩
  have counted : (if thread.any fun waiter => on waiter.job = cond && waiter.signalled == signalled
      then 1 else 0) ≤ waiting on signalled cond threads := by
    split_ifs with holds
    · exact List.countP_pos_iff.mpr ⟨thread, here ▸ List.getElem_mem bound, holds⟩
    · exact Nat.zero_le _
  simp only [waiting, List.countP_set bound, here] at counted ⊢
  omega

theorem waiting_leave (on : Job → Cond) (present : threads[i]? = some (some ⟨job, signalled⟩))
    (flag : Bool) (cond : Cond) : waiting on flag cond (threads.set i none) + (if on job = cond ∧
      signalled = flag then 1 else 0) =
      waiting on flag cond threads := by
  have set := waiting_set on present none flag cond
  simpa using set

theorem waiting_join (present : threads[i]? = some none) (job : Job) (flag : Bool) (cond : Cond) :
    waiting on flag cond (threads.set i (some ⟨job, signalled⟩)) =
      waiting on flag cond threads + (if on job = cond ∧ signalled = flag then 1 else 0) := by
  have set := waiting_set on present (some ⟨job, signalled⟩) flag cond
  simpa using set

theorem signal_own (signal : Signal on cond threads after) :
    waiting on false cond after = waiting on false cond threads - 1 ∧
      waiting on true cond after + waiting on false cond after =
        waiting on true cond threads + waiting on false cond threads := by
  cases signal with
  | marks waits same =>
      rename_i i job
      have unmarked := waiting_set on waits (some ⟨job, true⟩) false cond
      have marked := waiting_set on waits (some ⟨job, true⟩) true cond
      simp [same] at unmarked marked
      omega
  | nobody alone =>
      rw [alone]
      omega

theorem signal_other (signal : Signal on cond threads after) (different : other ≠ cond)
    (flag : Bool) :
    waiting on flag other after = waiting on flag other threads := by
  cases signal with
  | marks waits same =>
      rename_i i job
      have set := waiting_set on waits (some ⟨job, true⟩) flag other
      simpa [same, Ne.symm different] using set
  | nobody alone => rfl

theorem signal_outside (signal : Signal on cond threads after) (outside : threads[i]? = some none) :
    after[i]? = some none := by
  cases signal with
  | marks waits same =>
      rename_i j job
      have different : j ≠ i := by
        rintro rfl
        rw [waits] at outside
        cases outside
      rw [List.getElem?_set_ne different, outside]
  | nobody alone => exact outside

theorem signal_elsewhere (signal : Signal on cond threads after)
    (present : threads[i]? = some (some ⟨job, signalled⟩)) (different : on job ≠ cond) :
    after[i]? = some (some ⟨job, signalled⟩) := by
  cases signal with
  | marks waits same =>
      rename_i j other
      have apart : j ≠ i := by
        rintro rfl
        rw [waits] at present
        cases present
        exact different same
      rw [List.getElem?_set_ne apart, present]
  | nobody alone => exact present

theorem broadcast_own : waiting on false cond (broadcast on cond threads) = 0 := by
  simp only [waiting, broadcast, List.countP_map, List.countP_eq_zero]
  intro thread _
  cases thread with
  | none => simp
  | some waiter => by_cases same : on waiter.job = cond <;> simp [same]

theorem broadcast_other (different : other ≠ cond) (flag : Bool) :
    waiting on flag other (broadcast on cond threads) = waiting on flag other threads := by
  simp only [waiting, broadcast, List.countP_map]
  apply List.countP_congr
  intro thread _
  cases thread with
  | none => simp
  | some waiter =>
      by_cases same : on waiter.job = cond
      · simp [same, Ne.symm different]
      · simp [same]

theorem broadcast_outside (outside : threads[i]? = some none) :
    (broadcast on cond threads)[i]? = some none := by
  simp [broadcast, outside]

/-! ## Jobs -/

def jobAt (threads : Threads Job) (i : Nat) : Option Job := (threads[i]?).join.map Waiter.job

theorem job_at_of_present (present : threads[i]? = some (some ⟨job, signalled⟩)) :
    jobAt threads i = some job := by
  simp [jobAt, present]

theorem job_at_of_outside (outside : threads[i]? = some none) : jobAt threads i = none := by
  simp [jobAt, outside]

theorem present_of_job_at (has : jobAt threads i = some job) :
    ∃ signalled, threads[i]? = some (some ⟨job, signalled⟩) := by
  rcases Option.map_eq_some_iff.mp has with ⟨waiter, present, rfl⟩
  exact ⟨waiter.signalled, Option.join_eq_some_iff.mp present⟩

theorem job_at_set {thread : Option (Waiter Job)} (present : threads[i]? = some thread)
    (now : Option (Waiter Job)) (j : Nat) :
    jobAt (threads.set i now) j = if j = i then now.map Waiter.job else jobAt threads j := by
  rcases List.getElem?_eq_some_iff.mp present with ⟨bound, -⟩
  by_cases same : j = i
  · subst same
    simp [jobAt, bound]
  · simp [jobAt, List.getElem?_set_ne (Ne.symm same), same]

theorem job_at_signal (signal : Signal on cond threads after) (j : Nat) :
    jobAt after j = jobAt threads j := by
  cases signal with
  | marks waits same =>
      rename_i i job
      rw [job_at_set waits]
      by_cases own : j = i
      · subst own
        simp [job_at_of_present waits]
      · simp [own]
  | nobody alone => rfl

theorem job_at_broadcast (on : Job → Cond) (cond : Cond) (threads : Threads Job) (j : Nat) :
    jobAt (broadcast on cond threads) j = jobAt threads j := by
  simp only [jobAt, broadcast, List.getElem?_map]
  rcases threads[j]? with _ | _ | waiter
  · rfl
  · rfl
  · by_cases same : on waiter.job = cond <;> simp [same]

/-! ## Regions of one thread -/

theorem set_outside (outside : threads[i]? = some none) : threads.set i none = threads := by
  apply List.ext_getElem?
  intro j
  by_cases same : i = j
  · subst same
    rw [List.getElem?_set_self (List.getElem?_eq_some_iff.mp outside).1, outside]
  · rw [List.getElem?_set_ne same]

theorem left_outside {thread : Option (Waiter Job)} (present : threads[i]? = some thread) :
    (threads.set i none)[i]? = some none :=
  List.getElem?_set_self (List.getElem?_eq_some_iff.mp present).1

theorem nobody_wakes (wakes : Wakes on .nobody threads after) : after = threads := by
  cases wakes
  rfl

theorem wake_by_wakes {chosen : Option Nat} {wake : Wake Cond}
    (woke : wakeBy on chosen threads wake = some after) : Wakes on wake threads after := by
  cases wake with
  | nobody =>
      cases woke
      exact .nobody
  | signal cond =>
      apply Wakes.signal
      simp only [wakeBy, signalTo] at woke
      split at woke
      · split_ifs at woke with alone
        cases woke
        exact .nobody alone
      · split at woke
        · rename_i job present
          split_ifs at woke with waits
          cases woke
          exact .marks present waits
        · cases woke
  | broadcast cond =>
      cases woke
      exact .broadcast

theorem wakes_total (on : Job → Cond) (wake : Wake Cond) (threads : Threads Job) :
    ∃ after, Wakes on wake threads after := by
  cases wake with
  | nobody => exact ⟨threads, .nobody⟩
  | broadcast cond => exact ⟨_, .broadcast⟩
  | signal cond =>
      by_cases alone : waiting on false cond threads = 0
      · exact ⟨threads, .signal (.nobody alone)⟩
      · rcases List.countP_pos_iff.mp (Nat.pos_of_ne_zero alone) with ⟨thread, member, waits⟩
        rcases List.mem_iff_getElem?.mp member with ⟨j, present⟩
        cases thread with
        | none => simp at waits
        | some waiter =>
            rcases waiter with ⟨job, signalled⟩
            simp at waits
            rcases waits with ⟨same, rfl⟩
            exact ⟨_, .signal (.marks present same)⟩

theorem wakes_outside {wake : Wake Cond} (wakes : Wakes on wake threads after)
    (outside : threads[i]? = some none) : after[i]? = some none := by
  cases wakes with
  | nobody => exact outside
  | signal signalled => exact signal_outside signalled outside
  | broadcast => exact broadcast_outside outside

theorem wakes_job {wake : Wake Cond} (wakes : Wakes on wake threads after) (j : Nat) :
    jobAt after j = jobAt threads j := by
  cases wakes with
  | nobody => rfl
  | signal signalled => exact job_at_signal signalled j
  | broadcast =>
      rename_i cond
      exact job_at_broadcast on cond threads j

theorem settle_elsewhere {place : Option Job} {thread : Option (Waiter Job)} {j : Nat}
    (different : i ≠ j) (present : threads[j]? = some thread) :
    (settle threads i place)[j]? = some thread := by
  cases place with
  | none => exact present
  | some job => exact (List.getElem?_set_ne different).trans present

theorem settle_job (outside : threads[i]? = some none) (place : Option Job) (j : Nat) :
    jobAt (settle threads i place) j = if j = i then place else jobAt threads j := by
  cases place with
  | some job => exact job_at_set outside (some ⟨job, false⟩) j
  | none =>
      by_cases same : j = i
      · subst same
        simp [settle, job_at_of_outside outside]
      · simp [settle, same]

theorem standing_set (on : Job → Cond) {thread : Option (Waiter Job)}
    (present : threads[i]? = some thread) (now : Option (Waiter Job)) (cond : Cond) :
    standing on cond (threads.set i now) + (if thread.any fun waiter => on waiter.job =
      cond then 1 else 0) =
      standing on cond threads + (if now.any fun waiter => on waiter.job = cond then 1 else 0) := by
  rcases List.getElem?_eq_some_iff.mp present with ⟨bound, here⟩
  have counted : (if thread.any fun waiter => on waiter.job = cond then 1 else 0) ≤
      standing on cond threads := by
    split_ifs with holds
    · exact List.countP_pos_iff.mpr ⟨thread, here ▸ List.getElem_mem bound, holds⟩
    · exact Nat.zero_le _
  simp only [standing, List.countP_set bound, here] at counted ⊢
  omega

theorem standing_wakes {wake : Wake Cond} (wakes : Wakes on wake threads after) (cond : Cond) :
    standing on cond after = standing on cond threads := by
  cases wakes with
  | nobody => rfl
  | signal signalled =>
      cases signalled with
      | marks waits same =>
          rename_i job
          have set := standing_set on waits (some ⟨job, true⟩) cond
          simpa using set
      | nobody alone => rfl
  | broadcast =>
      rename_i woken
      simp only [standing, broadcast, List.countP_map]
      apply List.countP_congr
      intro thread _
      cases thread with
      | none => simp
      | some waiter => by_cases same : on waiter.job = woken <;> simp [same]

theorem standing_settle (outside : threads[i]? = some none) (place : Option Job) (cond : Cond) :
    standing on cond (settle threads i place) =
      standing on cond threads + if place.any fun job => on job = cond then 1 else 0 := by
  cases place with
  | none => simp [settle]
  | some job =>
      have set := standing_set on outside (some ⟨job, false⟩) cond
      simpa [settle] using set

/-! ## No lost wake-ups -/

def Covered (on : Job → Cond) (cond : Cond) (supply : Int) (threads : Threads Job) : Prop :=
  0 < waiting on false cond threads → supply ≤ waiting on true cond threads

variable {supply less : Int}

theorem covered_less (covered : Covered on cond supply threads) (fewer : less ≤ supply) :
    Covered on cond less threads := fun some_wait =>
  Int.le_trans fewer (covered some_wait)

theorem covered_empty (nothing : supply ≤ 0) : Covered on cond supply threads := fun _ =>
  Int.le_trans nothing (Int.natCast_nonneg _)

theorem covered_signal (covered : Covered on cond supply threads)
    (signal : Signal on cond threads after) :
    Covered on cond (supply + 1) after := by
  intro some_wait
  rcases signal_own signal with ⟨fewer, same⟩
  have before := covered (by omega)
  omega

theorem covered_signal_other (covered : Covered on other supply threads) (different : other ≠ cond)
    (signal : Signal on cond threads after) : Covered on other supply after := by
  unfold Covered
  rw [signal_other signal different, signal_other signal different]
  exact covered

theorem covered_broadcast (covered : Covered on other supply threads) (cond : Cond) :
    Covered on other supply (broadcast on cond threads) := by
  by_cases same : other = cond
  · subst same
    intro some_wait
    rw [broadcast_own] at some_wait
    omega
  · unfold Covered
    rw [broadcast_other same, broadcast_other same]
    exact covered

/-- A thread that resumes takes its signal with it, and can take one of the supply. -/
theorem covered_leave (covered : Covered on cond supply threads)
    (present : threads[i]? = some (some ⟨job, signalled⟩)) :
    Covered on cond (if on job = cond then supply - 1 else supply) (threads.set i none) := by
  intro some_wait
  have unmarked := waiting_leave on present false cond
  have marked := waiting_leave on present true cond
  have before := covered (by omega)
  by_cases same : on job = cond
  · cases signalled <;> simp [same] at unmarked marked ⊢ <;> omega
  · simp [same] at marked ⊢
    omega

/-- A thread that gives up without a signal takes none away. -/
theorem covered_give_up (covered : Covered on cond supply threads)
    (present : threads[i]? = some (some ⟨job, false⟩)) :
    Covered on cond supply (threads.set i none) := by
  intro some_wait
  have unmarked := waiting_leave on present false cond
  have marked := waiting_leave on present true cond
  have before := covered (by omega)
  simp only [Bool.false_eq_true, and_false, if_false, Nat.add_zero] at marked
  rwa [marked]

theorem covered_join (covered : Covered on other supply threads) (present : threads[i]? = some none)
    (different : on job ≠ other) :
    Covered on other supply (threads.set i (some ⟨job, signalled⟩)) := by
  unfold Covered
  rw [waiting_join present, waiting_join present]
  simp only [different, false_and, if_false, Nat.add_zero]
  exact covered

end TWlib.Lib.Monitor
