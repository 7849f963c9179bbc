import TWlib.SafeFifoRegions
import TWlib.Lib.Deque

/-!
# Threads on a thread-safe FIFO

A step is one region of one thread under `dataMutex`, what `add` does before it locks it, or
the end of the time a timed call waits. A wait may end without a signal. `Did` says once what
a step can do to the queue, and every invariant is derived from it.
-/

namespace TWlib.SafeFifoThreads

open TWlib.Lib.CellStore TWlib.Lib.LinkedChain TWlib.Lib.MachineInt TWlib.Lib.Monitor
  TWlib.Lib.Deque TWlib.SafeFifo
  TWlib.SafeFifoRegions

set_option autoImplicit false

variable {Item : Type*}

/-! ## The model -/

inductive Call (Item : Type*) where
  | add (theD : Item)
  | addToHead (theD : Item)
  | remove
  | removeOrBlock (timed : Bool)
  | peek
  | peekOrBlock (timed : Bool)
  | clearAll
  | enable
  | disable
  | assign
  | unblock
  | unblockAll
deriving DecidableEq

def stop : Place Item → Stop
  | .removeOrBlock _ | .peekOrBlock _ => .newdataCond
  | .unblock => .unblock
  | .add _ _ | .unblockAll _ | .copyLinks => .mutex

def timed : Place Item → Bool
  | .removeOrBlock timed | .peekOrBlock timed => timed
  | _ => false

def enter (left : Item → Item) (fifo : Fifo) (links : Links Item) : Call Item → Option (Region Item)
  | .add theD => some (fifo.addOutside left links theD)
  | .addToHead theD => fifo.addToHead left links theD
  | .remove => fifo.remove links
  | .removeOrBlock timed => fifo.removeOrBlock links timed
  | .peek => fifo.peek links
  | .peekOrBlock timed => fifo.peekOrBlock links timed
  | .clearAll => fifo.clearAll links false
  | .enable => some (fifo.enable links)
  | .disable => some (fifo.disable links)
  | .assign => fifo.clearAll links true
  | .unblock => some (fifo.unblock links)
  | .unblockAll => some (fifo.unblockAll links false)

/-- The regions that follow; the copying of an assignment also has the other queue. -/
def resume (fifo : Fifo) (links : Links Item) : Place Item → Option (Region Item)
  | .add newlink _ => fifo.add links newlink
  | .unblock => some (fifo.unblock links)
  | .unblockAll assigning => some (fifo.unblockAll links assigning)
  | .copyLinks => none
  | .removeOrBlock _ => fifo.removeWoken links
  | .peekOrBlock _ => fifo.peek links

structure World (Item : Type*) where
  fifo : Fifo
  links : Links Item
  threads : Threads (Place Item)

/-- The thread that executed a region goes on later, or is not in the queue any more. -/
def placeAfter : Outcome Item → Option (Place Item)
  | .goes place => some place
  | .returns _ _ => none

/-- `given` are the values of the queue assigned. -/
inductive Action (Item : Type*) where
  | enter (call : Call Item)
  | resume (place : Place Item)
  | copy (given : List Item)
  | expire (place : Place Item)

/-- `enabled` is the flag as the step finds it. -/
structure Event (Item : Type*) where
  thread : Nat
  action : Action Item
  enabled : Bool
  outcome : Outcome Item

inductive Step (left : Item → Item) (world : World Item) : Event Item → World Item → Prop where
  | enter {i : Nat} {call : Call Item} {region : Region Item} {threads : Threads (Place Item)}
      (ran : enter left world.fifo world.links call = some region)
      (acts : Acts stop world.threads i none region.wake (placeAfter region.outcome) threads) :
      Step left world ⟨i, .enter call, world.fifo.enabled, region.outcome⟩ ⟨region.fifo,
        region.links, threads⟩
  | resume {i : Nat} {place : Place Item} {signalled : Bool} {region : Region Item}
      {threads : Threads (Place Item)} (ran : resume world.fifo world.links place = some region)
      (acts : Acts stop world.threads i (some ⟨place, signalled⟩) region.wake
        (placeAfter region.outcome) threads) :
      Step left world ⟨i, .resume place, world.fifo.enabled, region.outcome⟩ ⟨region.fifo,
        region.links, threads⟩
  | copy {i : Nat} {signalled : Bool} {source : Source Item} {cells : List Nat} {given : List Item}
      {region : Region Item} {sources : Links Item} {threads : Threads (Place Item)}
      (whole : Represents source.fifo source.links cells given)
      (ran : world.fifo.assign left world.links source = some (region, sources))
      (acts : Acts stop world.threads i (some ⟨.copyLinks, signalled⟩) region.wake
        (placeAfter region.outcome)
        threads) :
      Step left world ⟨i, .copy given, world.fifo.enabled, region.outcome⟩ ⟨region.fifo,
        region.links, threads⟩
  | expire {i : Nat} {place : Place Item} {signalled : Bool} {region : Region Item}
      {threads : Threads (Place Item)} (limited : timed place = true)
      (ran : world.fifo.timedOut world.links = region)
      (acts : Acts stop world.threads i (some ⟨place, signalled⟩) region.wake
        (placeAfter region.outcome) threads) :
      Step left world ⟨i, .expire place, world.fifo.enabled, region.outcome⟩ ⟨region.fifo,
        region.links, threads⟩

def World.new (count : Nat) : World Item := ⟨Fifo.new, Store.empty, List.replicate count none⟩

abbrev Run (left : Item → Item) (permitted : World Item → Event Item → Prop) (first : World Item) :
    List (Event Item) → World Item → Prop := Execution (Step left) permitted first

inductive Turn (Item : Type*) where
  | enter (i : Nat) (call : Call Item)
  | resume (i : Nat) (signalled : Option Nat)
  | expire (i : Nat)

def play (left : Item → Item) (world : World Item) : Turn Item → Option (Event Item × World Item)
  | .enter i call =>
      match world.threads[i]? with
      | some none => do
          let region ← enter left world.fifo world.links call
          let threads ← actBy stop world.threads i none region.wake (placeAfter region.outcome)
          some (⟨i, .enter call, world.fifo.enabled, region.outcome⟩,
            ⟨region.fifo, region.links, threads⟩)
      | _ => none
  | .resume i signalled =>
      match world.threads[i]? with
      | some (some ⟨place, _⟩) => do
          let region ← resume world.fifo world.links place
          let threads ← actBy stop world.threads i signalled region.wake (placeAfter region.outcome)
          some (⟨i, .resume place, world.fifo.enabled, region.outcome⟩,
            ⟨region.fifo, region.links, threads⟩)
      | _ => none
  | .expire i =>
      match world.threads[i]? with
      | some (some ⟨place, _⟩) => do
          let region := world.fifo.timedOut world.links
          let threads ← actBy stop world.threads i none region.wake (placeAfter region.outcome)
          if timed place then
            some (⟨i, .expire place, world.fifo.enabled, region.outcome⟩,
              ⟨region.fifo, region.links, threads⟩)
          else none
      | _ => none

theorem play_step {left : Item → Item} (world : World Item) (turn : Turn Item) (event : Event Item)
    (next : World Item) (played : play left world turn = some (event, next)) :
    Step left world event next := by
  cases turn with
  | enter i call =>
      simp only [play] at played
      split at played
      · rename_i outside
        rcases Option.bind_eq_some_iff.mp played with ⟨region, ran, rest⟩
        rcases Option.bind_eq_some_iff.mp rest with ⟨threads, acted, same⟩
        cases same
        exact .enter ran (act_by_acts outside acted)
      · cases played
  | resume i signalled =>
      simp only [play] at played
      split at played
      · rename_i stands
        rcases Option.bind_eq_some_iff.mp played with ⟨region, ran, rest⟩
        rcases Option.bind_eq_some_iff.mp rest with ⟨threads, acted, same⟩
        cases same
        exact .resume ran (act_by_acts stands acted)
      · cases played
  | expire i =>
      simp only [play] at played
      split at played
      · rename_i stands
        rcases Option.bind_eq_some_iff.mp played with ⟨threads, acted, rest⟩
        split_ifs at rest with limited
        cases rest
        exact .expire limited rfl (act_by_acts stands acted)
      · cases played

/-! ## What happened to the values -/

/-- The operation of a double-ended queue that an adding region stands for; `held` is what becomes
of a value given to `addToHead`. -/
def Action.pushes (held : Item → Item) : Action Item → Option (Op Item)
  | .resume (.add _ theD) => some (.pushBack theD)
  | .enter (.addToHead theD) => some (.pushFront (held theD))
  | _ => none

def Action.replaces : Action Item → Option (List Item)
  | .enter .clearAll | .enter .assign => some []
  | .copy given => some given
  | _ => none

def Action.removes : Action Item → Bool
  | .enter .remove | .enter (.removeOrBlock _) | .resume (.removeOrBlock _) => true
  | _ => false

def Action.peeks : Action Item → Bool
  | .enter .peek | .enter (.peekOrBlock _) | .resume (.peekOrBlock _) => true
  | _ => false

/-- The calls that wait when the queue is empty. -/
def Action.mayWait : Action Item → Bool
  | .enter (.removeOrBlock _) | .enter (.peekOrBlock _) => true
  | _ => false

def Action.assigns : Action Item → Bool
  | .enter .assign | .copy _ => true
  | _ => false

/-- What the event was for the values in the queue. -/
def Event.ops (held : Item → Item) (event : Event Item) : List (Op Item) :=
  match event.action.pushes held, event.action.replaces, event.outcome with
  | some op, _, _ => if event.enabled then [op] else []
  | none, some items, _ => [.replace items]
  | none, none, .returns true (some item) => if event.action.removes then [.popFront item] else []
  | none, none, _ => []

/-! ## What a step does -/

/-- Nothing is changed that the links and the count are not about. -/
structure Same (fifo grown : Fifo) : Prop where
  enabled : grown.enabled = fifo.enabled
  blockCnt : grown.blockCnt = fifo.blockCnt

inductive Did (left : Item → Item) (fifo : Fifo) (links : Links Item) (items : List Item) :
    Action Item → Region Item → List Item → Prop where
  | made {theD : Item} : Did left fifo links items (.enter (.add theD))
      ⟨fifo, links.push ⟨theD, none⟩, .nobody, .goes (.add links.fresh theD)⟩ items
  | put {action : Action Item} {op : Op Item} {grown : Fifo} {after : Links Item} {now : List Item}
      (pushes : action.pushes left = some op) (accepts : fifo.enabled = true)
      (same : Same fifo grown)
      (puts : ∀ delivered cleared, Apply ⟨items, delivered, cleared⟩ op ⟨now, delivered, cleared⟩)
      (longer : now.length = items.length + 1) :
      Did left fifo links items action ⟨grown, after, .nobody, .goes .unblock⟩ now
  | refused {action : Action Item} {op : Op Item} (pushes : action.pushes left = some op)
      (refuses : fifo.enabled = false) :
      Did left fifo links items action ⟨fifo, links, .nobody, .goes .unblock⟩ items
  | took {action : Action Item} {item : Item} {others : List Item} {shorter : Fifo}
      {after : Links Item}
      (removes : action.removes = true) (split : items = item :: others)
      (same : Same fifo shorter) :
      Did left fifo links items action ⟨shorter, after, .nobody, .returns true (some item)⟩ others
  | missed {action : Action Item} (asks : action.removes = true ∨ action.peeks = true)
      (empty : items = []) :
      Did left fifo links items action ⟨fifo, links, .nobody, .returns false none⟩ items
  | waits {call : Call Item} {place : Place Item} (mayWait : (Action.enter call).mayWait = true)
      (blocks : stop place = .newdataCond) (empty : items = []) :
        Did left fifo links items (.enter call)
        ⟨{ fifo with blockCnt := asInt (fifo.blockCnt + 1) }, links, .nobody, .goes place⟩ items
  | peeked {action : Action Item} {item : Item} {others : List Item} (peeks : action.peeks = true)
      (split : items = item :: others) :
      Did left fifo links items action ⟨fifo, links, .nobody, .returns true (some item)⟩ items
  | cleared {call : Call Item} {assigning : Bool} {after : Links Item}
      (replaces : (Action.enter call).replaces = some [])
      (pushes : (Action.enter call).pushes left = none) :
      Did left fifo links items (.enter call)
        ⟨{ fifo with out := none, inn := none, remain := 0 }, after, .nobody,
          .goes (.unblockAll assigning)⟩ []
  | enabled : Did left fifo links items (.enter .enable) (fifo.enable links) items
  | disabled : Did left fifo links items (.enter .disable) (fifo.disable links) items
  | unblocked {action : Action Item}
      (unblocks : action = .enter .unblock ∨ action = .resume .unblock) :
      Did left fifo links items action (fifo.unblock links) items
  | unblockedAll {action : Action Item} {assigning : Bool}
      (unblocks : action = .enter .unblockAll ∨ action = .resume (.unblockAll assigning)) :
      Did left fifo links items action (fifo.unblockAll links assigning) items
  | copied {given : List Item} {grown : Fifo} {after : Links Item} (same : grown.blockCnt =
      fifo.blockCnt) :
      Did left fifo links items (.copy given) ⟨grown, after, .nobody, .returns true none⟩ given
  | expired {place : Place Item} :
      Did left fifo links items (.expire place) (fifo.timedOut links) items

variable {left : Item → Item} {fifo : Fifo} {links : Links Item} {cells : List Nat}
  {items : List Item} {action : Action Item} {place : Place Item}

def ownLink : Place Item → Option Nat
  | .add newlink _ => some newlink
  | _ => none

/-- A region is defined, leaves a queue, and does one of the things listed. -/
def Runs (left : Item → Item) (fifo : Fifo) (links : Links Item) (cells : List Nat)
    (items : List Item) (action : Action Item) (own : Option Nat) (ran : Option (Region Item)) :
    Prop :=
  ∃ region now after, ran = some region ∧ Represents region.fifo region.links now after ∧
    Keeps links cells own region.links now ∧ Did left fifo links items action region after

theorem removes_only (removes : action.removes = true) :
    action.pushes left = none ∧ action.replaces = none := by
  cases action with
  | enter call => cases call <;> first | exact ⟨rfl, rfl⟩ | cases removes
  | resume place => cases place <;> first | exact ⟨rfl, rfl⟩ | cases removes
  | copy given => cases removes
  | expire place => cases removes

theorem may_wait_only (mayWait : action.mayWait = true) :
    action.pushes left = none ∧ action.replaces = none := by
  cases action with
  | enter call => cases call <;> first | exact ⟨rfl, rfl⟩ | cases mayWait
  | resume place => cases mayWait
  | copy given => cases mayWait
  | expire place => cases mayWait

theorem peeks_only (peeks : action.peeks = true) :
    action.pushes left = none ∧ action.replaces = none ∧ action.removes = false := by
  cases action with
  | enter call => cases call <;> first | exact ⟨rfl, rfl, rfl⟩ | cases peeks
  | resume place => cases place <;> first | exact ⟨rfl, rfl, rfl⟩ | cases peeks
  | copy given => cases peeks
  | expire place => cases peeks

theorem take_out_runs (represents : Represents fifo links cells items)
    (removes : action.removes = true) :
    Runs left fifo links cells items action none (fifo.dropIn.takeOut links) := by
  rcases take_out_eq represents with
    ⟨empty, missed⟩ | ⟨item, others, shorter, after, now, split, took, rest, keeps, same⟩
  · exact ⟨_, cells, items, missed, represents, keeps_refl _ _ _, .missed (.inl removes) empty⟩
  · exact ⟨_, now, others, took, rest, keeps, .took removes split ⟨same.1, same.2⟩⟩

theorem peek_runs (represents : Represents fifo links cells items) (peeks : action.peeks = true) :
    Runs left fifo links cells items action none (fifo.peek links) := by
  refine ⟨_, cells, items, peek_eq represents, represents, keeps_refl _ _ _, ?_⟩
  cases items with
  | nil => exact .missed (.inr peeks) rfl
  | cons item others => exact .peeked peeks rfl

/-- A call that may wait does so exactly when the queue is empty. -/
theorem wait_runs {call : Call Item} {go : Option (Region Item)}
    (represents : Represents fifo links cells items) (mayWait : (Action.enter call).mayWait = true)
    (blocks : stop place = .newdataCond)
    (goes : Runs left fifo links cells items (.enter call) none go) :
    Runs left fifo links cells items (.enter call) none
      (if fifo.out.isNone then
        some ⟨{ fifo with blockCnt := asInt (fifo.blockCnt + 1) }, links, .nobody, .goes place⟩
      else go) := by
  rw [out_is_none_iff represents]
  cases items with
  | nil =>
      have still : Represents { fifo with blockCnt := asInt (fifo.blockCnt + 1) } links cells [] :=
        represents_flags represents fifo.enabled _
      exact ⟨_, cells, [], rfl, still, keeps_refl _ _ _, .waits mayWait blocks rfl⟩
  | cons item others => exact goes

theorem unblock_runs (represents : Represents fifo links cells items)
    (unblocks : action = .enter .unblock ∨ action = .resume .unblock) :
    Runs left fifo links cells items action none (some (fifo.unblock links)) := by
  have keeps : Keeps links cells none (fifo.unblock links).links cells := by
    rcases unblock_eq fifo links with ⟨-, -, same⟩
    rw [same]
    exact keeps_refl links cells none
  exact ⟨_, cells, items, rfl, represents_unblock represents, keeps, .unblocked unblocks⟩

theorem unblock_all_runs (represents : Represents fifo links cells items) {assigning : Bool}
    (unblocks : action = .enter .unblockAll ∨ action = .resume (.unblockAll assigning)) :
    Runs left fifo links cells items action none (some (fifo.unblockAll links assigning)) := by
  have keeps : Keeps links cells none (fifo.unblockAll links assigning).links cells := by
    rcases unblock_all_eq fifo links assigning with ⟨-, -, same⟩
    rw [same]
    exact keeps_refl links cells none
  exact ⟨_, cells, items, rfl, represents_unblock_all represents assigning, keeps,
    .unblockedAll unblocks⟩

theorem unblock_outcome (fifo : Fifo) (links : Links Item) :
    (fifo.unblock links).outcome = .returns true none := by
  unfold Fifo.unblock
  split_ifs <;> rfl

theorem unblock_all_outcome (fifo : Fifo) (links : Links Item) (assigning : Bool) :
    (fifo.unblockAll links assigning).outcome = if assigning then .goes .copyLinks
    else .returns true none := by
  unfold Fifo.unblockAll
  split_ifs <;> rfl

theorem clear_all_runs (represents : Represents fifo links cells items) {call : Call Item}
    (assigning : Bool) (replaces : (Action.enter call).replaces = some [])
    (pushes : (Action.enter call).pushes left = none) :
    Runs left fifo links cells items (.enter call) none (fifo.clearAll links assigning) := by
  rcases clear_all_eq represents assigning with ⟨after, cleared, empty, keeps⟩
  exact ⟨_, [], [], cleared, empty, keeps, .cleared replaces pushes⟩

theorem add_to_head_runs (represents : Represents fifo links cells items) (theD : Item) :
    Runs left fifo links cells items (.enter (.addToHead theD)) none
    (fifo.addToHead left links theD) := by
  cases accepts : fifo.enabled with
  | false =>
      have refused : fifo.addToHead left links theD = some ⟨fifo, links, .nobody,
          .goes .unblock⟩ := by
        simp [Fifo.addToHead, accepts]
      exact ⟨_, cells, items, refused, represents, keeps_refl _ _ _, .refused rfl accepts⟩
  | true =>
      rcases add_to_head_eq left represents theD accepts with ⟨grown, after, now, added,
        represented, keeps, same⟩
      exact ⟨_, now, _, added, represented, keeps,
        .put rfl accepts ⟨same.1, same.2⟩ (fun delivered cleared => .pushFront _ _ _ _) rfl⟩

theorem add_runs (represents : Represents fifo links cells items) {newlink : Nat} {theD : Item}
    (made : links.read newlink = some ⟨theD, none⟩) (outside : newlink ∉ cells) :
    Runs left fifo links cells items (.resume (.add newlink theD)) (some newlink)
    (fifo.add links newlink) := by
  cases accepts : fifo.enabled with
  | false =>
      have refused : fifo.add links newlink = some ⟨fifo, links, .nobody, .goes .unblock⟩ := by
        simp [Fifo.add, accepts]
      exact ⟨_, cells, items, refused, represents, keeps_refl _ _ _, .refused rfl accepts⟩
  | true =>
      rcases append_eq represents made outside with ⟨after, appended, represented, keeps⟩
      have added : fifo.add links newlink =
          some ⟨{ fifo with inn := some newlink, out := (cells ++ [newlink]).head?,
                            remain := fifo.remain + 1 },
            after, .nobody, .goes .unblock⟩ := by simp [Fifo.add, accepts, appended]
      exact ⟨_, _, _, added, represented, keeps,
        .put rfl accepts ⟨rfl, rfl⟩ (fun delivered cleared => .pushBack _ _ _ _) (by simp)⟩

theorem enter_runs (represents : Represents fifo links cells items) (call : Call Item) :
    Runs left fifo links cells items (.enter call) none (enter left fifo links call) := by
  cases call with
  | add theD =>
      rcases represents_push represents (⟨theD, none⟩ : Link Item) with ⟨pushed, -, keeps⟩
      exact ⟨_, cells, items, rfl, pushed, keeps, .made⟩
  | addToHead theD => exact add_to_head_runs represents theD
  | remove => exact take_out_runs represents rfl
  | removeOrBlock timed =>
      simp only [enter, Fifo.removeOrBlock, drop_in_twice, drop_in_out]
      by_cases empty : cells = []
      · subst empty
        rw [drop_in_empty represents]
        have goes : Runs left fifo links [] items (.enter (.removeOrBlock timed)) none
            (fifo.dropIn.takeOut links) := take_out_runs represents rfl
        rw [drop_in_empty represents] at goes
        exact wait_runs represents rfl rfl goes
      · have filled : fifo.out.isNone = false := by
          rw [represents_out represents]
          cases cells with
          | nil => exact absurd rfl empty
          | cons cell rest => rfl
        rw [filled]
        exact take_out_runs represents rfl
  | peek => exact peek_runs represents rfl
  | peekOrBlock timed => exact wait_runs represents rfl rfl (peek_runs represents rfl)
  | clearAll => exact clear_all_runs represents false rfl rfl
  | enable =>
      exact ⟨_, cells, items, rfl, represents_flags represents true fifo.blockCnt,
        keeps_refl _ _ _, .enabled⟩
  | disable =>
      exact ⟨_, cells, items, rfl, represents_flags represents false fifo.blockCnt,
        keeps_refl _ _ _, .disabled⟩
  | assign => exact clear_all_runs represents true rfl rfl
  | unblock => exact unblock_runs represents (.inl rfl)
  | unblockAll => exact unblock_all_runs represents (.inl rfl)

theorem resume_runs (represents : Represents fifo links cells items) (region : place ≠ .copyLinks)
    (own : ∀ newlink theD, place = .add newlink theD →
      links.read newlink = some ⟨theD, none⟩ ∧ newlink ∉ cells) :
    Runs left fifo links cells items (.resume place) (ownLink place) (resume fifo links place) := by
  cases place with
  | add newlink theD =>
      rcases own newlink theD rfl with ⟨made, outside⟩
      exact add_runs represents made outside
  | unblock => exact unblock_runs represents (.inr rfl)
  | unblockAll assigning => exact unblock_all_runs represents (.inr rfl)
  | copyLinks => exact absurd rfl region
  | removeOrBlock timed => exact take_out_runs represents rfl
  | peekOrBlock timed => exact peek_runs represents rfl

theorem assign_runs (left : Item → Item) (fifo : Fifo) (links : Links Item) (items : List Item)
    {source : Source Item} {sourceCells : List Nat} {given : List Item} (filled : given ≠ [])
    (whole : Represents source.fifo source.links sourceCells given) :
    ∃ region sources now, fifo.assign left links source = some (region, sources) ∧
      Represents region.fifo region.links now given ∧ Keeps links [] none region.links now ∧
      Did left fifo links items (.copy given) region given ∧ region.wake = .nobody := by
  rcases assign_eq left fifo links filled whole with
    ⟨⟨grown, after, wake, outcome⟩, sources, now, assigned, represents, keeps, -, count, rfl, rfl⟩
  exact ⟨_, sources, now, assigned, represents, keeps, .copied count, rfl⟩

/-! ## The values through a step -/

theorem did_replays {region : Region Item} {after : List Item}
    (did : Did left fifo links items action region after) (i : Nat)
    (delivered cleared : List Item) :
    ∃ delivered' cleared', Replay ⟨items, delivered, cleared⟩
      (Event.ops left ⟨i, action, fifo.enabled, region.outcome⟩) ⟨after, delivered', cleared'⟩ := by
  cases did with
  | made => exact ⟨_, _, .done _⟩
  | put pushes accepts same puts longer =>
      refine ⟨delivered, cleared, ?_⟩
      simp only [Event.ops, pushes, accepts, if_true]
      exact replay_single (puts delivered cleared)
  | refused pushes refuses =>
      refine ⟨delivered, cleared, ?_⟩
      simp only [Event.ops, pushes, refuses, Bool.false_eq_true, if_false]
      exact .done _
  | took removes split same =>
      rename_i item shorter after
      have only : action.pushes left = none ∧ action.replaces = none := removes_only removes
      subst split
      refine ⟨delivered ++ [item], cleared, ?_⟩
      simp only [Event.ops, only.1, only.2, removes, if_true]
      exact replay_single (.popFront _ _ _ _)
  | missed asks empty =>
      have only : action.pushes left = none ∧ action.replaces = none := by
        rcases asks with removes | peeks
        · exact removes_only removes
        · have all : action.pushes left = none ∧ action.replaces = none ∧ action.removes = false :=
            peeks_only peeks
          exact ⟨all.1, all.2.1⟩
      refine ⟨delivered, cleared, ?_⟩
      simp only [Event.ops, only.1, only.2]
      exact .done _
  | waits mayWait blocks empty =>
      rename_i call place
      have only : (Action.enter call).pushes left = none ∧ (Action.enter call).replaces = none :=
        may_wait_only mayWait
      refine ⟨delivered, cleared, ?_⟩
      simp only [Event.ops, only.1, only.2]
      exact .done _
  | peeked peeks split =>
      have only : action.pushes left = none ∧ action.replaces = none ∧ action.removes = false :=
        peeks_only peeks
      refine ⟨delivered, cleared, ?_⟩
      simp only [Event.ops, only.1, only.2.1, only.2.2, Bool.false_eq_true, if_false]
      exact .done _
  | cleared replaces pushes =>
      refine ⟨delivered, cleared ++ items, ?_⟩
      simp only [Event.ops, pushes, replaces]
      exact replay_single (.replace _ _ _ _)
  | enabled => exact ⟨_, _, .done _⟩
  | disabled => exact ⟨_, _, .done _⟩
  | unblocked unblocks =>
      refine ⟨delivered, cleared, ?_⟩
      rw [unblock_outcome]
      rcases unblocks with rfl | rfl <;> exact .done _
  | unblockedAll unblocks =>
      refine ⟨delivered, cleared, ?_⟩
      rw [unblock_all_outcome]
      rcases unblocks with rfl | rfl <;> split_ifs <;> exact .done _
  | copied same => exact ⟨_, _, replay_single (.replace _ _ _ _)⟩
  | expired => exact ⟨_, _, .done _⟩

/-! ## Links of calls in progress -/

structure Sound (world : World Item) (cells : List Nat) (items : List Item) : Prop where
  represents : Represents world.fifo world.links cells items
  apart : ∀ i newlink theD, jobAt world.threads i = some (.add newlink theD) →
    world.links.read newlink = some ⟨theD, none⟩ ∧ newlink ∉ cells
  distinct : ∀ i j newlink theD other, jobAt world.threads i = some (.add newlink theD) →
    jobAt world.threads j = some (.add newlink other) → i = j

variable {world next : World Item} {threads woken : Threads (Place Item)} {i : Nat}
  {thread : Option (Waiter (Place Item))} {region : Region Item} {now : List Nat}
  {after : List Item}

theorem did_makes {newlink : Nat} {theD : Item}
    (did : Did left fifo links items action region after)
    (goes : region.outcome = .goes (.add newlink theD)) :
    newlink = links.fresh ∧ region.links = links.push ⟨theD, none⟩ ∧ region.fifo = fifo := by
  cases did with
  | made =>
      cases goes
      exact ⟨rfl, rfl, rfl⟩
  | waits mayWait blocks empty =>
      cases goes
      cases blocks
  | unblocked unblocks =>
      rw [unblock_outcome] at goes
      cases goes
  | unblockedAll unblocks =>
      rw [unblock_all_outcome] at goes
      split_ifs at goes
      cases goes
  | _ => cases goes

theorem sound_settle {action : Action Item} {made : Option Nat} (sound : Sound world cells items)
    (acts : Acts stop world.threads i thread region.wake (placeAfter region.outcome) threads)
    (own : (thread.map Waiter.job).bind ownLink = made)
    (represents : Represents region.fifo region.links now after)
    (keeps : Keeps world.links cells made region.links now)
    (did : Did left world.fifo world.links items action region after) :
    Sound ⟨region.fifo, region.links, threads⟩ now after := by
  have here : jobAt world.threads i = thread.map Waiter.job := by simp [jobAt, acts_stands acts]
  have jobs : ∀ j, jobAt threads j = if j = i then placeAfter region.outcome
      else jobAt world.threads j :=
    acts_job acts
  have news : ∀ newlink theD, placeAfter region.outcome = some (.add newlink theD) →
      newlink = world.links.fresh ∧ region.links.read newlink = some ⟨theD, none⟩ ∧
      newlink ∉ now := by
    intro newlink theD placed
    have goes : region.outcome = .goes (.add newlink theD) := by
      cases outcome : region.outcome with
      | goes place =>
          rw [outcome] at placed
          exact congrArg Outcome.goes (Option.some.inj placed)
      | returns ret fill =>
          rw [outcome] at placed
          cases placed
    rcases did_makes did goes with ⟨rfl, pushed, sameFifo⟩
    rcases represents_push sound.represents (⟨theD, none⟩ : Link Item) with ⟨grown, fresh, -⟩
    have sameCells : now = cells := by
      apply chain_unique represents.carried.chain
      rw [sameFifo, pushed]
      exact grown.carried.chain
    exact ⟨rfl, by simp [pushed, read_push], sameCells ▸ fresh⟩
  have others : ∀ j newlink theD, j ≠ i → jobAt world.threads j = some (.add newlink theD) →
      region.links.read newlink = some ⟨theD, none⟩ ∧ newlink ∉ now := by
    intro j newlink theD different has
    rcases sound.apart j newlink theD has with ⟨present, apart⟩
    apply keeps newlink _ apart _ present
    intro same
    rw [← own, ← here] at same
    rcases Option.bind_eq_some_iff.mp same with ⟨place, placed, link⟩
    cases place <;> cases link
    exact different (sound.distinct j i newlink theD _ has placed)
  refine ⟨represents, ?_, ?_⟩
  · intro j newlink theD has
    rw [jobs] at has
    by_cases same : j = i
    · rw [if_pos same] at has
      exact (news newlink theD has).2
    · rw [if_neg same] at has
      exact others j newlink theD same has
  · intro j k newlink theD other first second
    rw [jobs] at first second
    have old : ∀ m given, m ≠ i → jobAt world.threads m = some (.add newlink given) →
        newlink ≠ world.links.fresh := by
      intro m given different has
      exact Nat.ne_of_lt (read_bound (sound.apart m newlink given has).1)
    by_cases atFirst : j = i
    · by_cases atSecond : k = i
      · exact atFirst.trans atSecond.symm
      · rw [if_pos atFirst] at first
        rw [if_neg atSecond] at second
        exact absurd (news newlink theD first).1 (old k other atSecond second)
    · rw [if_neg atFirst] at first
      by_cases atSecond : k = i
      · rw [if_pos atSecond] at second
        exact absurd (news newlink other second).1 (old j theD atFirst first)
      · rw [if_neg atSecond] at second
        exact sound.distinct j k newlink theD other first second

/-- What a thread that acts stands before. -/
def Stands : Action Item → Option (Waiter (Place Item)) → Prop
  | .enter _, thread => thread = none
  | .resume place, thread => ∃ signalled, thread = some ⟨place, signalled⟩
  | .copy _, thread => ∃ signalled, thread = some ⟨.copyLinks, signalled⟩
  | .expire place, thread => timed place = true ∧ ∃ signalled, thread = some ⟨place, signalled⟩

theorem step_cases {event : Event Item} (sound : Sound world cells items)
    (filled : event.action ≠ .copy []) (step : Step left world event next) :
    ∃ thread region threads now after, Stands event.action thread ∧
      Did left world.fifo world.links items event.action region after ∧
      Acts stop world.threads event.thread thread region.wake (placeAfter region.outcome) threads ∧
      next = ⟨region.fifo, region.links, threads⟩ ∧
      event = ⟨event.thread, event.action, world.fifo.enabled, region.outcome⟩ ∧
      Sound next now after := by
  cases step with
  | enter ran acts =>
      rename_i i call region threads
      have runs : Runs left world.fifo world.links cells items (.enter call) none
          (enter left world.fifo world.links call) := enter_runs sound.represents call
      rcases runs with ⟨known, now, after, found, represents, keeps, did⟩
      cases Option.some.inj (ran.symm.trans found)
      exact ⟨none, region, threads, now, after, rfl, did, acts, rfl, rfl,
        sound_settle sound acts rfl represents keeps did⟩
  | resume ran acts =>
      rename_i i place signalled region threads
      have notCopying : place ≠ .copyLinks := by
        rintro rfl
        cases ran
      have own : ∀ newlink theD, place = .add newlink theD →
          world.links.read newlink = some ⟨theD, none⟩ ∧ newlink ∉ cells := by
        intro newlink theD same
        exact sound.apart i newlink theD (same ▸ job_at_of_present (acts_stands acts))
      have runs : Runs left world.fifo world.links cells items (.resume place) (ownLink place)
          (resume world.fifo world.links place) := resume_runs sound.represents notCopying own
      rcases runs with ⟨known, now, after, found, represents, keeps, did⟩
      cases Option.some.inj (ran.symm.trans found)
      exact ⟨_, region, threads, now, after, ⟨_, rfl⟩, did, acts, rfl, rfl,
        sound_settle sound acts rfl represents keeps did⟩
  | copy whole ran acts =>
      rename_i i signalled source sourceCells given region sources threads
      have some_given : given ≠ [] := fun same => filled (congrArg Action.copy same)
      rcases assign_runs left world.fifo world.links items some_given whole with
        ⟨known, knownSources, now, found, represents, keeps, did, -⟩
      cases Option.some.inj (ran.symm.trans found)
      have weaker : Keeps world.links cells none region.links now :=
        fun link content _ own present => keeps link content List.not_mem_nil own present
      exact ⟨_, region, threads, now, given, ⟨_, rfl⟩, did, acts, rfl, rfl,
        sound_settle sound acts rfl represents weaker did⟩
  | expire limited ran acts =>
      rename_i i place signalled region threads
      subst ran
      have did : Did left world.fifo world.links items (.expire place)
          (world.fifo.timedOut world.links)
          items := .expired
      exact ⟨_, _, threads, cells, items, ⟨limited, _, rfl⟩, did, acts, rfl, rfl,
        sound_settle sound acts rfl sound.represents (keeps_refl _ _ _) did⟩

/-! ## The values through a run -/

theorem sound_idle {fifo : Fifo} {links : Links Item} {cells : List Nat} {items : List Item}
    (represents : Represents fifo links cells items) (count : Nat) :
    Sound ⟨fifo, links, List.replicate count none⟩ cells items := by
  have nobody : ∀ i, jobAt (List.replicate count none : Threads (Place Item)) i = none :=
    job_at_nobody count
  refine ⟨represents, ?_, ?_⟩
  · intro i newlink theD has
    rw [nobody] at has
    cases has
  · intro i j newlink theD other has
    rw [nobody] at has
    cases has

theorem sound_new (count : Nat) : Sound (World.new count : World Item) [] [] :=
  sound_idle represents_new count

variable {permitted : World Item → Event Item → Prop} {count : Nat} {events : List (Event Item)}

/-- A run from any sound world replays from what the queue holds at its beginning. -/
theorem run_replays_from {first : World Item} {start : List Nat} {held : List Item}
    (whole : Sound first start held) (run : Run left permitted first events world)
    (filled : ∀ event ∈ events, event.action ≠ .copy []) :
    ∃ cells items delivered cleared, Sound world cells items ∧
      Replay ⟨held, [], []⟩ (events.flatMap (Event.ops left)) ⟨items, delivered, cleared⟩ := by
  induction run with
  | start => exact ⟨start, held, [], [], whole, .done _⟩
  | step run allowed step ih =>
      rename_i events event world next
      have before : ∀ earlier ∈ events, earlier.action ≠ .copy [] := fun earlier member =>
        filled earlier (List.mem_append_left _ member)
      rcases ih before with ⟨cells, items, delivered, cleared, sound, replay⟩
      have here : event.action ≠ .copy [] := filled event (by simp)
      rcases step_cases sound here step with
        ⟨thread, region, threads, now, after, -, did, acts, same, label, sound'⟩
      rcases did_replays did event.thread delivered cleared with ⟨delivered', cleared', onward⟩
      refine ⟨now, after, delivered', cleared', sound', ?_⟩
      rw [List.flatMap_append, List.flatMap_singleton]
      rw [← label] at onward
      exact replay_append replay onward

theorem run_replays (run : Run left permitted (World.new count) events world)
    (filled : ∀ event ∈ events, event.action ≠ .copy []) :
    ∃ cells items delivered cleared, Sound world cells items ∧
      Replay .empty (events.flatMap (Event.ops left)) ⟨items, delivered, cleared⟩ :=
  run_replays_from (sound_new count) run filled

theorem sound_defined (left : Item → Item) (sound : Sound world cells items) :
    (∀ call, (enter left world.fifo world.links call).isSome) ∧
      ∀ i place, jobAt world.threads i = some place → place ≠ .copyLinks →
        (resume world.fifo world.links place).isSome := by
  constructor
  · intro call
    have runs : Runs left world.fifo world.links cells items (.enter call) none
        (enter left world.fifo world.links call) := enter_runs sound.represents call
    rcases runs with ⟨region, now, after, found, -⟩
    rw [found]
    rfl
  · intro i place has notCopying
    have own : ∀ newlink theD, place = .add newlink theD →
        world.links.read newlink = some ⟨theD, none⟩ ∧ newlink ∉ cells := by
      intro newlink theD same
      exact sound.apart i newlink theD (same ▸ has)
    have runs : Runs left world.fifo world.links cells items (.resume place) (ownLink place)
        (resume world.fifo world.links place) := resume_runs sound.represents notCopying own
    rcases runs with ⟨region, now, after, found, -⟩
    rw [found]
    rfl

/-- A consumer waits on an empty queue, a producer adds and signals, the consumer resumes. -/
def handOver : List (Turn Nat) :=
  [.enter 0 (.removeOrBlock false), .enter 1 (.add 7), .resume 1 none, .resume 1 (some 0),
    .resume 0 none]

def handOverEvents : List (Event Nat) :=
  [⟨0, .enter (.removeOrBlock false), true, .goes (.removeOrBlock false)⟩,
    ⟨1, .enter (.add 7), true, .goes (.add 0 7)⟩, ⟨1, .resume (.add 0 7), true, .goes .unblock⟩,
    ⟨1, .resume .unblock, true, .returns true none⟩,
    ⟨0, .resume (.removeOrBlock false), true, .returns true (some 7)⟩]

def handedOver : World Nat := ⟨Fifo.new, ⟨[none]⟩, [none, none]⟩

theorem hand_over_run (left : Nat → Nat) {permitted : Event Nat → Prop}
    (allowed : ∀ event ∈ handOverEvents, permitted event) :
    Run left (fun _ event => permitted event) (World.new 2) handOverEvents handedOver := by
  have played : playAll (play left) (World.new 2) handOver = some (handOverEvents, handedOver) :=
    rfl
  exact play_all_run play_step played allowed

end TWlib.SafeFifoThreads
