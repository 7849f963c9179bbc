import TWlib.SafeFifoThreads

/-!
# Iterating over a thread-safe FIFO

`startIter` reads `out` and then locks `dataMutex`, which it keeps until `releaseIter`. The two
are separate steps here. While the mutex is held, the other threads can only do what `add` does
before it locks it.
-/

namespace TWlib.SafeFifoIterator

open TWlib.Lib.CellStore TWlib.Lib.LinkedChain TWlib.Lib.Monitor TWlib.Lib.ValueChain TWlib.SafeFifo
  TWlib.SafeFifoRegions TWlib.SafeFifoThreads

set_option autoImplicit false

variable {Item : Type*}

/-! ## The model -/

structure Iter where
  look : Option Nat
deriving DecidableEq

/-- What `startIter` does before it locks the mutex. -/
def startIter (fifo : Fifo) : Iter := ⟨fifo.out⟩

/-- `releaseIter`, before it unlocks the mutex. -/
def releaseIter : Iter := ⟨none⟩

/-- `getNext`: the iterator after it, and what it fills its argument with, if it returns true. -/
def Iter.getNext (iter : Iter) (links : Links Item) : Option (Iter × Option Item) :=
  match iter.look with
  | none => some (iter, none)
  | some look => do
      let content ← links.read look
      some (⟨content.next⟩, some content.d)

def Iter.atEnd (iter : Iter) : Bool := iter.look.isNone

/-- How far the iterating thread is; `given` are the values it got since it has the mutex. -/
inductive Phase (Item : Type*) where
  | outside (iter : Iter)
  | started (iter : Iter)
  | locked (iter : Iter) (given : List Item)

structure Walking (Item : Type*) where
  world : World Item
  phase : Phase Item

/-- A step that takes no mutex. -/
def unlocked : Action Item → Bool
  | .enter (.add _) => true
  | _ => false

/-- Runs of the other threads and of one that iterates, again and again. The list is what the queue
held when `startIter` last obtained the mutex, which it did in states that are `permitted`. -/
inductive IterRun (left : Item → Item) (permitted : Fifo → Iter → Prop) (first : World Item) :
    Walking Item → List Item → Prop where
  | start : IterRun left permitted first ⟨first, .outside ⟨none⟩⟩ []
  | others {world next : World Item} {phase : Phase Item} {held : List Item} {event : Event Item}
      (run : IterRun left permitted first ⟨world, phase⟩ held) (step : Step left world event next)
      (filled : event.action ≠ .copy [])
      (free : ∀ iter given, phase = .locked iter given → unlocked event.action = true) :
      IterRun left permitted first ⟨next, phase⟩ held
  | look {world : World Item} {iter : Iter} {held : List Item}
      (run : IterRun left permitted first ⟨world, .outside iter⟩ held) :
      IterRun left permitted first ⟨world, .started (startIter world.fifo)⟩ held
  | lock {world : World Item} {iter : Iter} {held items : List Item} {cells : List Nat}
      (run : IterRun left permitted first ⟨world, .started iter⟩ held)
      (allowed : permitted world.fifo iter)
      (whole : Represents world.fifo world.links cells items) :
      IterRun left permitted first ⟨world, .locked iter []⟩ items
  | getNext {world : World Item} {iter after : Iter} {given held : List Item} {fill : Option Item}
      (run : IterRun left permitted first ⟨world, .locked iter given⟩ held)
      (gives : iter.getNext world.links = some (after, fill)) :
      IterRun left permitted first ⟨world, .locked after (given ++ fill.toList)⟩ held
  | release {world : World Item} {iter : Iter} {given held : List Item}
      (run : IterRun left permitted first ⟨world, .locked iter given⟩ held) :
      IterRun left permitted first ⟨world, .outside releaseIter⟩ held

/-- The values given are the first ones of the queue and at the end all of them, and the next step
follows a link that exists. -/
structure Snapshot (held : List Item) (links : Links Item) (iter : Iter)
    (given : List Item) : Prop where
  begins : given <+: held
  whole : iter.atEnd = true → given = held
  follows : (iter.getNext links).isSome

/-! ## The links still to be visited -/

variable {left : Item → Item} {permitted : Fifo → Iter → Prop} {first world next : World Item}
  {iter after : Iter} {links : Links Item} {given held items : List Item} {cells : List Nat}
  {fill : Option Item} {event : Event Item} {state : Walking Item}

/-- What the iterator has still to visit is what is missing from the values given. -/
def Ahead (held : List Item) (links : Links Item) (iter : Iter) (given : List Item) : Prop :=
  ∃ cells rest, Carries (nextOf links) (valueOf links) iter.look cells rest ∧ held = given ++ rest

theorem ahead_start (represents : Represents world.fifo links cells items)
    (same : world.fifo.out = iter.look) :
    Ahead items links iter [] := by
  refine ⟨cells, items, ?_, rfl⟩
  rw [← same]
  exact represents.carried

theorem ahead_get_next (ahead : Ahead held links iter given)
    (gives : iter.getNext links = some (after, fill)) :
    Ahead held links after (given ++ fill.toList) := by
  rcases ahead with ⟨cells, rest, carries, split⟩
  cases looks : iter.look with
  | none =>
      simp only [Iter.getNext, looks, Option.some.injEq, Prod.mk.injEq] at gives
      rcases gives with ⟨rfl, rfl⟩
      exact ⟨cells, rest, carries, by simpa using split⟩
  | some look =>
      rw [looks] at carries
      rcases carries_first carries with ⟨others, item, later, onward, rfl, rfl, step, holds, tail⟩
      rcases Option.map_eq_some_iff.mp step with ⟨content, present, rfl⟩
      have value : content.d = item := by simpa [valueOf, present] using holds
      simp only [Iter.getNext, looks, present, Option.bind_eq_bind, Option.bind_some,
        Option.some.injEq,
        Prod.mk.injEq] at gives
      rcases gives with ⟨rfl, rfl⟩
      refine ⟨others, later, tail, ?_⟩
      rw [split, value]
      simp

theorem ahead_push (ahead : Ahead held links iter given) (made : Link Item) :
    Ahead held (links.push made) iter given := by
  rcases ahead with ⟨cells, rest, carries, split⟩
  have same : ∀ link ∈ cells, (links.push made).read link = links.read link := by
    intro link member
    rcases segment_exists carries.chain link member with ⟨onward, found⟩
    rcases Option.map_eq_some_iff.mp found with ⟨content, present, -⟩
    rw [read_push_of_present present, present]
  refine ⟨cells, rest, carries_frame carries ?_ ?_, split⟩
  · intro link member
    simp only [nextOf, same link member]
  · intro link member
    simp only [valueOf, same link member]

theorem ahead_snapshot (ahead : Ahead held links iter given) : Snapshot held links iter given := by
  rcases ahead with ⟨cells, rest, carries, rfl⟩
  refine ⟨⟨rest, rfl⟩, ?_, ?_⟩
  · intro ends
    have looks : iter.look = none := Option.isNone_iff_eq_none.mp ends
    rw [looks] at carries
    rw [(carries_none carries).2, List.append_nil]
  · cases looks : iter.look with
    | none => simp [Iter.getNext, looks]
    | some look =>
        rw [looks] at carries
        rcases carries_first carries with ⟨others, item, later, onward, rfl, rfl, step, -, -⟩
        rcases Option.map_eq_some_iff.mp step with ⟨content, present, -⟩
        simp [Iter.getNext, looks, present]

/-! ## Runs -/

/-- All that other threads can do while the mutex is held. -/
theorem unlocked_pushes (step : Step left world event next) (free : unlocked event.action = true) :
    ∃ made, next.links = world.links.push made := by
  cases step with
  | enter ran acts =>
      rename_i call region threads
      cases call with
      | add theD =>
          cases ran
          exact ⟨_, rfl⟩
      | _ => cases free
  | resume ran acts => cases free
  | copy whole ran acts => cases free
  | expire limited ran acts => cases free

theorem iter_run_ahead {count : Nat}
    (run : IterRun left (fun fifo iter => fifo.out = iter.look) (World.new count) state held) :
    (∃ cells items, Sound state.world cells items) ∧
      ∀ iter given, state.phase = .locked iter given → Ahead held state.world.links iter given := by
  induction run with
  | start => exact ⟨⟨[], [], sound_new count⟩, fun iter given same => by cases same⟩
  | others run step filled free ih =>
      rcases ih with ⟨⟨cells, items, sound⟩, ahead⟩
      rcases step_cases sound filled step with ⟨_, _, _, now, after, -, -, -, -, -, sound'⟩
      refine ⟨⟨now, after, sound'⟩, ?_⟩
      intro iter given locked
      rcases unlocked_pushes step (free iter given locked) with ⟨made, pushed⟩
      rw [pushed]
      exact ahead_push (ahead iter given locked) made
  | look run ih => exact ⟨ih.1, fun iter given same => by cases same⟩
  | lock run allowed whole ih =>
      refine ⟨ih.1, ?_⟩
      intro iter given same
      cases same
      exact ahead_start whole allowed
  | getNext run gives ih =>
      refine ⟨ih.1, ?_⟩
      intro iter given same
      cases same
      exact ahead_get_next (ih.2 _ _ rfl) gives
  | release run ih => exact ⟨ih.1, fun iter given same => by cases same⟩

/-- If `out` is still what `startIter` read whenever it obtains the mutex, every iteration delivers
what the queue held then, and follows existing links only. -/
theorem iteration_is_snapshot {count : Nat}
    (run : IterRun left (fun fifo iter => fifo.out = iter.look) (World.new count) ⟨world,
      .locked iter given⟩ held) :
    Snapshot held world.links iter given := ahead_snapshot ((iter_run_ahead run).2 iter given rfl)

theorem iter_run_of_run {events : List (Event Item)}
    (run : Run left (fun _ event => event.action ≠ .copy []) first events world) :
    IterRun left permitted first ⟨world, .outside ⟨none⟩⟩ [] := by
  induction run with
  | start => exact .start
  | step run filled step ih => exact .others ih step filled (fun iter given same => by cases same)

def addTwo : List (Turn Nat) :=
  [.enter 0 (.add 7), .resume 0 none, .resume 0 none, .enter 0 (.add 8), .resume 0 none,
    .resume 0 none]

def addTwoEvents : List (Event Nat) :=
  [⟨0, .enter (.add 7), true, .goes (.add 0 7)⟩, ⟨0, .resume (.add 0 7), true, .goes .unblock⟩,
    ⟨0, .resume .unblock, true, .returns true none⟩, ⟨0, .enter (.add 8), true, .goes (.add 1 8)⟩,
    ⟨0, .resume (.add 1 8), true, .goes .unblock⟩, ⟨0, .resume .unblock, true, .returns true none⟩]

def twoAdded : World Nat :=
  ⟨⟨true, some 0, some 1, 2, 0⟩, ⟨[some ⟨7, some 1⟩, some ⟨8, none⟩]⟩, [none]⟩

def adding : World Nat :=
  ⟨twoAdded.fifo, ⟨[some ⟨7, some 1⟩, some ⟨8, none⟩, some ⟨9, none⟩]⟩, [some ⟨.add 2 9, false⟩]⟩

def oneRemoved : World Nat := ⟨⟨true, some 1, some 1, 1, 0⟩, ⟨[none, some ⟨8, none⟩]⟩, [none]⟩

theorem two_added_run (permitted : Fifo → Iter → Prop) :
    IterRun id permitted (World.new 1) ⟨twoAdded, .outside ⟨none⟩⟩ [] := by
  have played : playAll (play id) (World.new 1) addTwo = some (addTwoEvents, twoAdded) := rfl
  have run : Run id (fun _ event => event.action ≠ .copy []) (World.new 1) addTwoEvents twoAdded :=
    play_all_run play_step played (by simp [addTwoEvents])
  exact iter_run_of_run run

theorem two_added_represents : Represents twoAdded.fifo twoAdded.links [0, 1] [7, 8] :=
  ⟨⟨⟨rfl, some 1, rfl, rfl, none, rfl, rfl⟩, rfl⟩, rfl, rfl⟩

/-- The third `add` begins between the first and the second element. -/
theorem iteration_is_snapshot_two : Snapshot [7, 8] adding.links ⟨none⟩ [7, 8] := by
  have looked : IterRun id (fun fifo iter => fifo.out = iter.look) (World.new 1)
      ⟨twoAdded, .started ⟨some 0⟩⟩ [] := .look (two_added_run _)
  have first : IterRun id (fun fifo iter => fifo.out = iter.look) (World.new 1)
      ⟨twoAdded, .locked ⟨some 1⟩ [7]⟩ [7, 8] :=
      .getNext (.lock looked rfl two_added_represents) (by rfl)
  have begun : IterRun id (fun fifo iter => fifo.out = iter.look) (World.new 1)
      ⟨adding, .locked ⟨some 1⟩ [7]⟩ [7, 8] :=
    .others first (play_step twoAdded (.enter 0 (.add 9)) _ _ rfl) (by simp) fun _ _ _ => rfl
  exact iteration_is_snapshot (.getNext begun (by rfl))

/-- Another thread removes the head after `startIter` has read it: when the mutex is obtained,
`getNext` follows a link that was freed. -/
theorem iteration_not_always_snapshot :
    ∃ iter, IterRun id (fun _ _ => True) (World.new 1) ⟨oneRemoved, .locked iter []⟩ [8] ∧
      iter.getNext oneRemoved.links = none ∧ ¬ Snapshot [8] oneRemoved.links iter [] := by
  have played : play id twoAdded (.enter 0 .remove) =
      some (⟨0, .enter .remove, true, .returns true (some 7)⟩, oneRemoved) := rfl
  have looked : IterRun id (fun _ _ => True) (World.new 1) ⟨twoAdded, .started ⟨some 0⟩⟩ [] :=
    .look (two_added_run _)
  have removed : IterRun id (fun _ _ => True) (World.new 1) ⟨oneRemoved, .started ⟨some 0⟩⟩ [] :=
    .others looked (play_step _ _ _ _ played) (by simp) (fun iter given same => by cases same)
  have whole : Represents oneRemoved.fifo oneRemoved.links [1] [8] :=
    ⟨⟨⟨rfl, none, rfl, rfl⟩, rfl⟩, rfl, rfl⟩
  refine ⟨⟨some 0⟩, .lock removed trivial whole, rfl, fun snapshot => ?_⟩
  have follows := snapshot.follows
  cases follows

end TWlib.SafeFifoIterator
