import TWlib.Lib.Monitor

/-!
# Runs of the threads of a monitor

`Acts` is what a region does to the threads: the one that runs it leaves what it stood
before, the region wakes others, and the thread comes to stand before a place or is
outside. What the region does to the state that the threads share is left open. An
`Execution` is any number of steps, each of them permitted in the world it is made in.
-/

namespace TWlib.Lib.Monitor

set_option autoImplicit false

/-! ## One region -/

section Regions

variable {Job Cond : Type*} [DecidableEq Cond]

/-- Thread `i`, which stood before `thread`, runs a region and comes to stand before `place`. -/
inductive Acts (on : Job → Cond) (threads : Threads Job) (i : Nat) (thread : Option (Waiter Job))
    (wake : Wake Cond) (place : Option Job) : Threads Job → Prop where
  | region {woken : Threads Job} (stands : threads[i]? = some thread)
      (wakes : Wakes on wake (threads.set i none) woken) :
      Acts on threads i thread wake place (settle woken i place)

/-- The same for a chosen thread that a signal goes to. -/
def actBy (on : Job → Cond) (threads : Threads Job) (i : Nat) (chosen : Option Nat)
    (wake : Wake Cond) (place : Option Job) : Option (Threads Job) :=
  (wakeBy on chosen (threads.set i none) wake).map fun woken => settle woken i place

variable {on : Job → Cond} {threads after : Threads Job} {i : Nat} {thread : Option (Waiter Job)}
  {wake : Wake Cond} {place : Option Job}

theorem act_by_acts {chosen : Option Nat} (stands : threads[i]? = some thread)
    (acted : actBy on threads i chosen wake place = some after) :
    Acts on threads i thread wake place after := by
  rcases Option.map_eq_some_iff.mp acted with ⟨woken, woke, rfl⟩
  exact .region stands (wake_by_wakes woke)

theorem job_at_nobody (count i : Nat) :
    jobAt (List.replicate count none : Threads Job) i = none := by
  by_cases bound : i < count <;> simp [jobAt, bound]

theorem waiting_nobody (on : Job → Cond) (count : Nat) (signalled : Bool) (cond : Cond) :
    waiting on signalled cond (List.replicate count none) = 0 := by
  simp [waiting]

theorem acts_stands (acts : Acts on threads i thread wake place after) :
    threads[i]? = some thread := by
  cases acts with
  | region stands wakes => exact stands

/-- A region can always act: its signal goes somewhere, or to nobody. -/
theorem acts_total (on : Job → Cond) (stands : threads[i]? = some thread) (wake : Wake Cond)
    (place : Option Job) :
    ∃ after, Acts on threads i thread wake place after := by
  rcases wakes_total on wake (threads.set i none) with ⟨woken, wakes⟩
  exact ⟨_, .region stands wakes⟩

theorem acts_job (acts : Acts on threads i thread wake place after) (j : Nat) :
    jobAt after j = if j = i then place else jobAt threads j := by
  cases acts with
  | region stands wakes =>
      have outside := wakes_outside wakes (left_outside stands)
      rw [settle_job outside, wakes_job wakes, job_at_set stands]
      split_ifs <;> rfl

theorem acts_standing (acts : Acts on threads i thread wake place after) (cond : Cond) :
    standing on cond after + (if thread.any fun waiter => on waiter.job = cond then 1 else 0) =
      standing on cond threads + (if place.any fun job => on job = cond then 1 else 0) := by
  cases acts with
  | region stands wakes =>
      have outside := wakes_outside wakes (left_outside stands)
      have left := standing_set on stands none cond
      rw [standing_settle outside, standing_wakes wakes]
      simp only [Option.any_none, Bool.false_eq_true, if_false, Nat.add_zero] at left
      omega

end Regions

/-! ## Any number of steps -/

section Executions

variable {World Event Turn : Type*}

/-- The events of a run so far, and the world after it. -/
inductive Execution (steps : World → Event → World → Prop) (permitted : World → Event → Prop)
    (first : World) :
    List Event → World → Prop where
  | start : Execution steps permitted first [] first
  | step {events : List Event} {event : Event} {world next : World}
      (run : Execution steps permitted first events world) (allowed : permitted world event)
      (step : steps world event next) : Execution steps permitted first (events ++ [event]) next

variable {steps : World → Event → World → Prop} {permitted : World → Event → Prop}
  {first world : World} {events : List Event}

theorem execution_keeps {holds : World → Prop} (start : holds first)
    (kept : ∀ world event next, holds world → permitted world event →
      steps world event next → holds next)
    (run : Execution steps permitted first events world) : holds world := by
  induction run with
  | start => exact start
  | step run allowed step ih => exact kept _ _ _ ih allowed step

theorem execution_permitted {permitted : Event → Prop}
    (run : Execution steps (fun _ event => permitted event) first events world) :
    ∀ event ∈ events, permitted event := by
  induction run with
  | start => exact fun event member => absurd member List.not_mem_nil
  | step run allowed step ih =>
      intro event member
      rcases List.mem_append.mp member with earlier | last
      · exact ih event earlier
      · rw [List.mem_singleton.mp last]
        exact allowed

theorem execution_count_eq {mark other : Event → Bool}
    (run : Execution steps permitted first events world)
      (same : ∀ {events world event next}, Execution steps permitted first events world →
        permitted world event →
      steps world event next → mark event = other event) :
    events.countP mark = events.countP other := by
  induction run with
  | start => rfl
  | step run allowed step ih =>
      simp only [List.countP_append, List.countP_singleton, ih, same run allowed step]

/-! ## Playing a schedule -/

variable (play : World → Turn → Option (Event × World))

def playAll : World → List Turn → Option (List Event × World)
  | world, [] => some ([], world)
  | world, turn :: turns => do
      let (event, next) ← play world turn
      let (events, last) ← playAll next turns
      some (event :: events, last)

/-- The worlds in which the turns are taken, with what happens there. -/
def trail : World → List Turn → List (World × Event)
  | _, [] => []
  | world, turn :: turns =>
      match play world turn with
      | none => []
      | some (event, next) => (world, event) :: trail next turns

variable {play}

theorem play_all_trail {turns : List Turn} :
    ∀ {world last : World} {events : List Event}, playAll play world turns = some (events, last) →
      (trail play world turns).map Prod.snd = events := by
  induction turns with
  | nil =>
      intro world last events played
      cases played
      rfl
  | cons turn turns ih =>
      intro world last events played
      rcases Option.bind_eq_some_iff.mp played with ⟨⟨event, next⟩, one, rest⟩
      rcases Option.bind_eq_some_iff.mp rest with ⟨⟨others, final⟩, more, same⟩
      cases same
      simp only [trail, one, List.map_cons, ih more]

/-- A schedule that can be played is a run, if every step of it is permitted where it is made. -/
theorem play_all_executes
    (plays : ∀ world turn event next, play world turn = some (event, next) → steps world event next)
    {turns : List Turn} :
    ∀ {before events : List Event} {world last : World},
      Execution steps permitted first before world →
      playAll play world turns = some (events, last) →
      (∀ act ∈ trail play world turns, permitted act.1 act.2) →
      Execution steps permitted first (before ++ events) last := by
  induction turns with
  | nil =>
      intro before events world last run played allowed
      cases played
      rw [List.append_nil]
      exact run
  | cons turn turns ih =>
      intro before events world last run played allowed
      rcases Option.bind_eq_some_iff.mp played with ⟨⟨event, next⟩, one, rest⟩
      rcases Option.bind_eq_some_iff.mp rest with ⟨⟨others, final⟩, more, same⟩
      cases same
      simp only [trail, one] at allowed
      have stepped : Execution steps permitted first (before ++ [event]) next :=
        .step run (allowed _ (List.mem_cons_self ..)) (plays _ _ _ _ one)
      have onward := ih stepped more fun act member => allowed act (List.mem_cons_of_mem _ member)
      rwa [List.append_assoc] at onward

theorem play_all_run {permitted : Event → Prop}
    (plays : ∀ world turn event next, play world turn = some (event, next) → steps world event next)
    {turns : List Turn} {last : World} (played : playAll play world turns = some (events, last))
    (allowed : ∀ event ∈ events, permitted event) :
    Execution steps (fun _ event => permitted event) world events last := by
  have along : ∀ act ∈ trail play world turns, permitted act.2 := by
    intro act member
    apply allowed
    rw [← play_all_trail played]
    exact List.mem_map_of_mem member
  have run : Execution steps (fun _ event => permitted event) world [] world := .start
  exact play_all_executes plays run played along

end Executions

end TWlib.Lib.Monitor
