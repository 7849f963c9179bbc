import TWlib.BndSafeFifoCapacity
import TWlib.PlainFifo

/-!
# Adding to a queue that is disabled

`tw_FIFO` asks whether it is enabled before it makes a link. `tw_safeFIFO` and `tw_safeFIFOmv` have
made it by then in `add`, and in `addEmpty` they return the address of a member of a link that was
never made. The bounded queue takes a permit and does what the inner one does.
-/

namespace TWlib.FifoDisabled

open TWlib.Lib.CellStore TWlib.Lib.MachineInt TWlib.SafeFifo TWlib.SafeFifoRegions
open TWlib.BndSafeFifo (Adding BndFifo)

set_option autoImplicit false

variable {Item : Type*}

/-! ## One adding call on each of the classes -/

/-- `husk` is what an element is moved from into. -/
inductive Queue (Item : Type*) where
  | plain (fifo : Fifo) (links : Links Item)
  | safeFifo (fifo : Fifo) (links : Links Item)
  | safeFifoMv (husk : Item → Item) (fifo : Fifo) (links : Links Item)
  | bndSafeFifo (queue : BndFifo Item)

/-- The pointer that is returned, if the call returns one: `unset` is the address of a member of
what a pointer leads to that was never set. -/
inductive Pointer where
  | nothing
  | null
  | link (link : Nat)
  | unset
deriving DecidableEq

/-- How a call ends when no other is in progress. -/
inductive Ended (Item : Type*) where
  | blocks
  | returns (queue : Queue Item) (pointer : Pointer)

namespace Queue

def inner : Queue Item → Fifo
  | .plain fifo _ | .safeFifo fifo _ | .safeFifoMv _ fifo _ => fifo
  | .bndSafeFifo queue => queue.fifo

def links : Queue Item → Links Item
  | .plain _ links | .safeFifo _ links | .safeFifoMv _ _ links => links
  | .bndSafeFifo queue => queue.links

end Queue

/-- The calls of `tw_FIFO`. -/
def plainAdds (blank : Item) (fifo : Fifo) (links : Links Item) :
    Adding Item → Option (Fifo × Links Item × Pointer)
  | .add theD => (PlainFifo.add fifo links theD).map fun (fifo, links) => (fifo, links, .nothing)
  | .addToHead theD =>
      (PlainFifo.addToHead fifo links theD).map fun (fifo, links) => (fifo, links, .nothing)
  | .addEmpty => (PlainFifo.addEmpty blank fifo links).map fun (fifo, links, ret) =>
      (fifo, links, match ret with
        | none => .null
        | some newlink => .link newlink)

/-- The pointer of an `addEmpty` that returns `&(newlink->d)`. -/
def Pointer.ofNewlink : Option Nat → Pointer
  | none => .unset
  | some newlink => .link newlink

/-- `unblock()`, with which each adding call of the thread-safe classes ends. -/
def unblocked (region : Region Item) (pointer : Pointer) : Fifo × Links Item × Pointer :=
  let last := region.fifo.unblock region.links
  (last.fifo, last.links, pointer)

/-- The calls of `tw_safeFIFO` and `tw_safeFIFOmv`: their regions one after the other. -/
def safeAdds (left : Item → Item) (blank : Item) (fifo : Fifo) (links : Links Item) :
    Adding Item → Option (Fifo × Links Item × Pointer)
  | .add theD =>
      let outside := fifo.addOutside left links theD
      (outside.fifo.add outside.links links.fresh).map fun region => unblocked region .nothing
  | .addToHead theD => (fifo.addToHead left links theD).map fun region => unblocked region .nothing
  | .addEmpty =>
      (fifo.addEmpty blank links).map fun (region, ret) => unblocked region (.ofNewlink ret)

/-- How a call of the bounded queue ends, which blocks if there is no permit. -/
def Ended.ofBnd : BndSafeFifo.Ended Item → Ended Item
  | .blocks => .blocks
  | .returns next (.link ret) => .returns (.bndSafeFifo next) (.ofNewlink ret)
  | .returns next _ => .returns (.bndSafeFifo next) .nothing

def bndAdds (blank : Item) (queue : BndFifo Item) (adding : Adding Item) : Option (Ended Item) :=
  (BndSafeFifo.perform blank queue (.adds adding)).map .ofBnd

/-- A call that has blocked in `acquire()` of `sema` looks at the count again. -/
def bndGoesOn (blank : Item) (queue : BndFifo Item) (sema : Nat) (adding : Adding Item) :
    Option (Ended Item) :=
  ((BndSafeFifo.resume blank queue (.gtZero sema adding)).bind
    (BndSafeFifo.alone blank 5)).map .ofBnd

/-- `unblockAll()`, of which nothing else comes in between. -/
def bndUnblockAll (queue : BndFifo Item) : Option (BndFifo Item) :=
  let inner := queue.fifo.unblockAll queue.links false
  queue.sizeSema.bind fun sema => (queue.semas.read sema).map fun object =>
    { queue with
      fifo := inner.fifo
      links := inner.links
      semas := queue.semas.write sema object.releaseAll.sema }

/-- What other calls make of a queue while one is blocked. -/
inductive Later (blank : Item) (first : BndFifo Item) : BndFifo Item → Prop where
  | start : Later blank first first
  | call {queue next : BndFifo Item} {call : BndSafeFifo.Call Item}
      {result : BndSafeFifo.Result Item}
      (later : Later blank first queue)
      (performed : BndSafeFifo.perform blank queue call = some (.returns next result)) :
      Later blank first next
  | unblockAll {queue next : BndFifo Item} (later : Later blank first queue)
      (unblocked : bndUnblockAll queue = some next) : Later blank first next

def adds (blank : Item) (queue : Queue Item) (adding : Adding Item) : Option (Ended Item) :=
  match queue with
  | .plain fifo links => (plainAdds blank fifo links adding).map fun (fifo, links, pointer) =>
      .returns (.plain fifo links) pointer
  | .safeFifo fifo links => (safeAdds id blank fifo links adding).map fun (fifo, links, pointer) =>
      .returns (.safeFifo fifo links) pointer
  | .safeFifoMv husk fifo links =>
      (safeAdds husk blank fifo links adding).map fun (fifo, links, pointer) =>
      .returns (.safeFifoMv husk fifo links) pointer
  | .bndSafeFifo queue => bndAdds blank queue adding

/-! ## What a disabled queue is to do -/

/-- The same elements in the same links, the same count, and no link that was not there before. -/
structure Unchanged (fifo after : Fifo) (links left : Links Item) (cells : List Nat)
    (items : List Item) : Prop where
  represents : Represents after left cells items
  counted : after.remaining = fifo.remaining
  nothingMade : ∀ link, (left.read link).isSome → (links.read link).isSome

/-- A pointer into a link that is in no queue is not returned. -/
def Pointer.Harmless (pointer : Pointer) : Prop := pointer = .nothing ∨ pointer = .null

/-- A call that has blocked changes nothing either when it goes on, if the queue is disabled
then. -/
def RefusesLater (blank : Item) (queue : BndFifo Item) (adding : Adding Item) : Prop :=
  ∀ sema later cells items, queue.sizeSema = some sema → Later blank queue later →
    Represents later.fifo later.links cells items → later.fifo.enabled = false →
    ∀ next pointer, bndGoesOn blank later sema adding = some (.returns next pointer) →
      Unchanged later.fifo next.inner later.links next.links cells items ∧ pointer.Harmless

/-- The call changes nothing, at once or when it goes on after it has blocked, and returns NULL
where it returns a pointer. -/
def Refuses (blank : Item) (queue : Queue Item) (adding : Adding Item) (cells : List Nat)
    (items : List Item) : Prop :=
  ∃ ended, adds blank queue adding = some ended ∧
    match ended with
    | .blocks => ∀ bounded, queue = .bndSafeFifo bounded → RefusesLater blank bounded adding
    | .returns next pointer =>
        Unchanged queue.inner next.inner queue.links next.links cells items ∧ pointer.Harmless

def isAddToHead : Adding Item → Prop
  | .addToHead _ => True
  | _ => False

def Queue.Refusing (queue : Queue Item) (adding : Adding Item) : Prop :=
  match queue with
  | .plain _ _ => True
  | .safeFifo _ _ | .safeFifoMv _ _ _ => isAddToHead adding
  | .bndSafeFifo queue => queue.permits.isSome ∧ isAddToHead adding

variable {blank : Item} {fifo after : Fifo} {links left : Links Item} {cells : List Nat}
  {items : List Item} {queue : Queue Item} {adding : Adding Item}

/-! ## The classes without a bound -/

theorem unchanged_refl (represents : Represents fifo links cells items) :
    Unchanged fifo fifo links links cells items := ⟨represents, rfl, fun _ present => present⟩

theorem unchanged_unblock (represents : Represents fifo links cells items) :
    Unchanged fifo (fifo.unblock links).fifo links (fifo.unblock links).links cells items := by
  refine ⟨represents_unblock represents, ?_, ?_⟩
  · rcases unblock_eq fifo links with ⟨blockCnt, inner, -⟩
    rw [inner]
    rfl
  · rcases unblock_eq fifo links with ⟨blockCnt, -, same⟩
    rw [same]
    exact fun _ present => present

/-- Every call of `tw_FIFO` returns before it has made anything. -/
theorem plain_adds_disabled (blank : Item) (links : Links Item) (disabled : fifo.enabled = false)
    (adding : Adding Item) :
    ∃ pointer, plainAdds blank fifo links adding = some (fifo, links, pointer) ∧
    pointer.Harmless := by
  cases adding with
  | add theD => exact ⟨.nothing, by simp [plainAdds, PlainFifo.add, disabled], .inl rfl⟩
  | addToHead theD => exact ⟨.nothing, by simp [plainAdds, PlainFifo.addToHead, disabled], .inl rfl⟩
  | addEmpty => exact ⟨.null, by simp [plainAdds, PlainFifo.addEmpty, disabled], .inr rfl⟩

/-- What the thread-safe classes do: `add` leaves its link, `addToHead` nothing, and `addEmpty`
returns a pointer. -/
theorem safe_adds_disabled (left : Item → Item) (blank : Item) (links : Links Item)
    (disabled : fifo.enabled = false) (adding : Adding Item) :
    safeAdds left blank fifo links adding = some (match adding with
      | .add theD => unblocked ⟨fifo, links.push ⟨theD, none⟩, .nobody, .goes .unblock⟩ .nothing
      | .addToHead _ => unblocked ⟨fifo, links, .nobody, .goes .unblock⟩ .nothing
      | .addEmpty => unblocked ⟨fifo, links, .nobody, .goes .unblock⟩ .unset) := by
  cases adding with
  | add theD => simp [safeAdds, Fifo.addOutside, initLink, Fifo.add, disabled]
  | addToHead theD => simp [safeAdds, Fifo.addToHead, disabled]
  | addEmpty => simp [safeAdds, Fifo.addEmpty, disabled, Pointer.ofNewlink]

theorem safe_adds_refuse_iff (left : Item → Item) (blank : Item)
    (represents : Represents fifo links cells items) (disabled : fifo.enabled = false)
    (adding : Adding Item) :
    (∃ after made pointer, safeAdds left blank fifo links adding = some (after, made, pointer) ∧
      Unchanged fifo after links made cells items ∧ pointer.Harmless) ↔ isAddToHead adding := by
  rw [safe_adds_disabled left blank links disabled]
  cases adding with
  | add theD =>
      refine ⟨?_, False.elim⟩
      rintro ⟨after, made, pointer, same, unchanged, -⟩
      cases Option.some.inj same
      -- the link of the call is there, and was not there before
      rcases unblock_eq fifo (links.push ⟨theD, none⟩) with ⟨blockCnt, -, kept⟩
      have there := unchanged.nothingMade links.fresh (by rw [kept, read_push, if_pos rfl]; rfl)
      rw [read_beyond (Nat.le_refl _)] at there
      cases there
  | addToHead theD =>
      refine ⟨fun _ => trivial, fun _ => ?_⟩
      exact ⟨_, _, .nothing, rfl, unchanged_unblock represents, .inl rfl⟩
  | addEmpty =>
      refine ⟨?_, False.elim⟩
      rintro ⟨after, made, pointer, same, -, harmless⟩
      cases Option.some.inj same
      rcases harmless with same | same <;> cases same

/-! ## The bounded queue -/

variable {bounded : BndFifo Item} {permits : Int}

theorem permits_sema (has : bounded.permits = some permits) :
    ∃ sema, bounded.sizeSema = some sema ∧ bounded.semas.read sema = some ⟨permits⟩ := by
  rcases Option.map_eq_some_iff.mp has with ⟨object, found, same⟩
  rcases Option.bind_eq_some_iff.mp found with ⟨sema, inUse, present⟩
  cases object with
  | mk cnt =>
      cases same
      exact ⟨sema, inUse, present⟩

theorem bnd_adds_no_sema (missing : bounded.permits = none) (adding : Adding Item) :
    bndAdds blank bounded adding = none := by
  cases inUse : bounded.sizeSema with
  | none => simp [bndAdds, BndSafeFifo.perform, BndSafeFifo.enter, BndFifo.load, inUse]
  | some sema =>
      have gone : bounded.semas.read sema = none := by
        simpa [BndFifo.permits, inUse] using missing
      simp [bndAdds, BndSafeFifo.perform, BndSafeFifo.enter, BndFifo.load, inUse, BndSafeFifo.alone,
        BndSafeFifo.resume, BndFifo.acquire, BndFifo.withSema, gone]

theorem bnd_adds_blocks (has : bounded.permits = some permits) (short : permits < 1)
    (adding : Adding Item) :
    bndAdds blank bounded adding = some .blocks := by
  rcases permits_sema has with ⟨sema, inUse, present⟩
  rw [bndAdds, BndSafeFifo.perform_adds_blocks inUse present short]
  rfl

theorem add_unblocks {newlink : Nat} {region : Region Item}
    (ran : fifo.add links newlink = some region) :
    region = ⟨region.fifo, region.links, .nobody, .goes .unblock⟩ := by
  unfold Fifo.add at ran
  split_ifs at ran
  · rcases Option.bind_eq_some_iff.mp ran with ⟨longer, -, same⟩
    cases same
    rfl
  · cases ran
    rfl

theorem add_to_head_unblocks {left : Item → Item} {theD : Item} {region : Region Item}
    (ran : fifo.addToHead left links theD = some region) :
    region = ⟨region.fifo, region.links, .nobody, .goes .unblock⟩ := by
  unfold Fifo.addToHead at ran
  cases accepts : fifo.enabled with
  | false =>
      rw [accepts, if_neg Bool.false_ne_true] at ran
      cases ran
      rfl
  | true =>
      rw [accepts, if_pos rfl] at ran
      rcases Option.bind_eq_some_iff.mp ran with ⟨content, -, rest⟩
      cases out : fifo.out with
      | none =>
          simp only [out] at rest
          cases rest
          rfl
      | some first =>
          simp only [out] at rest
          rcases Option.bind_eq_some_iff.mp rest with ⟨hooked, -, same⟩
          cases same
          rfl

theorem add_empty_unblocks {region : Region Item} {ret : Option Nat}
    (ran : fifo.addEmpty blank links = some (region, ret)) :
    region = ⟨region.fifo, region.links, .nobody, .goes .unblock⟩ := by
  unfold Fifo.addEmpty at ran
  split_ifs at ran
  · rcases Option.bind_eq_some_iff.mp ran with ⟨longer, -, same⟩
    cases same
    rfl
  · cases ran
    rfl

theorem alone_unblocks (blank : Item) (bounded : BndFifo Item) (fuel : Nat)
    (caller : BndSafeFifo.Caller) (ran : Option (Region Item)) {result : BndSafeFifo.Result Item}
    (back : caller.back true (none : Option Item) = .returns result)
    (shape : ∀ region, ran = some region → region = ⟨region.fifo, region.links, .nobody,
      .goes .unblock⟩) :
    (ran.map (bounded.inner caller)).bind (BndSafeFifo.alone blank (fuel + 1)) =
    ran.map fun region =>
      .returns { bounded with
        fifo := (region.fifo.unblock region.links).fifo
        links := (region.fifo.unblock region.links).links } result := by
  cases ran with
  | none => rfl
  | some region =>
      have outcome := SafeFifoThreads.unblock_outcome region.fifo region.links
      rw [shape region rfl]
      simp only [Option.map_some, Option.bind_some, BndFifo.inner, BndSafeFifo.alone,
        BndSafeFifo.resume,
        SafeFifoThreads.resume, outcome, back]

/-- What the bounded queue returns when the inner one returns this pointer. -/
def returned : Adding Item → Pointer → BndSafeFifo.Result Item
  | .addEmpty, .link newlink => .link (some newlink)
  | .addEmpty, _ => .link none
  | _, _ => .nothing

theorem go_on_inner {sema : Nat} (present : bounded.semas.read sema = some ⟨permits⟩)
    (enough : ¬ permits < 1) (blank : Item) (adding : Adding Item) :
    (BndSafeFifo.resume blank bounded (.gtZero sema adding)).bind (BndSafeFifo.alone blank 5) =
      (safeAdds id blank bounded.fifo bounded.links adding).map fun (fifo, links, pointer) =>
        .returns
        { bounded with fifo, links, semas := bounded.semas.write sema ⟨asInt (permits - 1)⟩ }
        (returned adding pointer) := by
  rw [BndSafeFifo.go_on_adds present enough]
  let taken : BndFifo Item :=
    { bounded with semas := bounded.semas.write sema ⟨asInt (permits - 1)⟩ }
  cases adding with
  | add theD =>
      let ran := bounded.fifo.add (bounded.links.push ⟨theD, none⟩) bounded.links.fresh
      have steps : BndSafeFifo.alone blank 4 ⟨taken, .nobody, .goes (.adding (.add theD))⟩ =
          (ran.map (taken.inner .nothing)).bind (BndSafeFifo.alone blank 2) := rfl
      have ends := alone_unblocks blank taken 1 .nothing ran rfl fun _ => add_unblocks
      rw [steps, ends, safeAdds, Option.map_map]
      rfl
  | addToHead theD =>
      let ran := bounded.fifo.addToHead id bounded.links theD
      have steps : BndSafeFifo.alone blank 4 ⟨taken, .nobody, .goes (.adding (.addToHead theD))⟩ =
          (ran.map (taken.inner .nothing)).bind (BndSafeFifo.alone blank 3) := rfl
      have ends := alone_unblocks blank taken 2 .nothing ran rfl fun _ => add_to_head_unblocks
      rw [steps, ends, safeAdds, Option.map_map]
      rfl
  | addEmpty =>
      cases ran : bounded.fifo.addEmpty blank bounded.links with
      | none =>
          simp [BndSafeFifo.alone, BndSafeFifo.resume, BndFifo.adds, ran, safeAdds]
      | some made =>
          rcases made with ⟨region, ret⟩
          have steps : BndSafeFifo.alone blank 4 ⟨taken, .nobody, .goes (.adding .addEmpty)⟩ =
              ((some region).map (taken.inner (.addEmpty ret))).bind
              (BndSafeFifo.alone blank 3) := by
            simp only [BndSafeFifo.alone, BndSafeFifo.resume, BndFifo.adds, taken, ran]
            rfl
          have ends := alone_unblocks blank taken 2 (.addEmpty ret) (some region) rfl fun _ same =>
            Option.some.inj same ▸ add_empty_unblocks ran
          rw [steps, ends, safeAdds, ran]
          cases ret <;> rfl

theorem perform_adds_inner {sema : Nat} (inUse : bounded.sizeSema = some sema)
    (present : bounded.semas.read sema = some ⟨permits⟩) (enough : ¬ permits < 1) (blank : Item)
    (adding : Adding Item) :
    BndSafeFifo.perform blank bounded (.adds adding) =
      (safeAdds id blank bounded.fifo bounded.links adding).map
      fun (fifo, links, pointer) => .returns
        { bounded with fifo, links, semas := bounded.semas.write sema ⟨asInt (permits - 1)⟩ }
        (returned adding pointer) :=
  (BndSafeFifo.go_on_again inUse blank adding).symm.trans (go_on_inner present enough blank adding)

theorem goes_on_inner {sema : Nat} (present : bounded.semas.read sema = some ⟨permits⟩)
    (enough : ¬ permits < 1) (blank : Item) (adding : Adding Item) :
    bndGoesOn blank bounded sema adding = (safeAdds id blank bounded.fifo bounded.links adding).map
      fun (fifo, links, pointer) => .returns (.bndSafeFifo
        { bounded with fifo, links, semas := bounded.semas.write sema ⟨asInt (permits - 1)⟩ })
        pointer := by
  rw [bndGoesOn, go_on_inner present enough, Option.map_map]
  cases adding with
  | add theD => simp only [safeAdds, Option.map_map]; rfl
  | addToHead theD => simp only [safeAdds, Option.map_map]; rfl
  | addEmpty =>
      simp only [safeAdds]
      cases bounded.fifo.addEmpty blank bounded.links with
      | none => rfl
      | some made =>
          rcases made with ⟨region, ret⟩
          cases ret <;> rfl

theorem bnd_adds_again {sema : Nat} (inUse : bounded.sizeSema = some sema) (blank : Item)
    (adding : Adding Item) :
    bndAdds blank bounded adding = bndGoesOn blank bounded sema adding := by
  rw [bndAdds, bndGoesOn, BndSafeFifo.go_on_again inUse]

theorem goes_on_returns {sema : Nat} {next : Queue Item} {pointer : Pointer}
    (returns : bndGoesOn blank bounded sema adding = some (.returns next pointer)) :
    ∃ permits fifo links, bounded.semas.read sema = some ⟨permits⟩ ∧ next = .bndSafeFifo
        { bounded with fifo, links, semas := bounded.semas.write sema ⟨asInt (permits - 1)⟩ } ∧
      safeAdds id blank bounded.fifo bounded.links adding = some (fifo, links, pointer) := by
  cases present : bounded.semas.read sema with
  | none => simp [bndGoesOn, BndSafeFifo.go_on_gone present] at returns
  | some object =>
      rcases object with ⟨permits⟩
      by_cases short : permits < 1
      · rw [bndGoesOn, BndSafeFifo.go_on_blocks present short] at returns
        cases returns
      · rw [goes_on_inner present short] at returns
        rcases Option.map_eq_some_iff.mp returns with ⟨⟨fifo, links, given⟩, ran, same⟩
        cases same
        exact ⟨permits, fifo, links, rfl, rfl, ran⟩

/-! ## A call that has blocked -/

theorem unblock_all_releases {sema : Nat} (inUse : bounded.sizeSema = some sema)
    (present : bounded.semas.read sema = some ⟨permits⟩)
    (represents : Represents bounded.fifo bounded.links cells items) :
    ∃ next, bndUnblockAll bounded = some next ∧ next.sizeSema = some sema ∧
      next.semas.read sema = some ⟨asInt (permits + 1)⟩ ∧
      Represents next.fifo next.links cells items ∧
      next.fifo.enabled = bounded.fifo.enabled := by
  let inner := bounded.fifo.unblockAll bounded.links false
  let next : BndFifo Item := { bounded with
    fifo := inner.fifo
    links := inner.links
    semas := bounded.semas.write sema (Semaphore.Sema.releaseAll ⟨permits⟩).sema }
  have unblocked : bndUnblockAll bounded = some next := by
    simp only [bndUnblockAll, inUse, present, Option.bind_some, Option.map_some, next, inner]
  refine ⟨next, unblocked, inUse, ?_, represents_unblock_all represents false, ?_⟩
  · simp [next, read_write present, Semaphore.Sema.releaseAll]
  · rcases unblock_all_eq bounded.fifo bounded.links false with ⟨blockCnt, same, -⟩
    have kept := congrArg Fifo.enabled same
    exact kept

/-- However many permits are missing, so many calls of `unblockAll()` let the call go on. -/
theorem later_permit {first : BndFifo Item} {sema : Nat} (missing : Nat)
    (later : Later blank first bounded) (inUse : bounded.sizeSema = some sema)
    (present : bounded.semas.read sema = some ⟨permits⟩) (isInt : IsInt permits)
    (few : 1 - permits ≤ missing) (represents : Represents bounded.fifo bounded.links cells items) :
    ∃ next free, Later blank first next ∧ next.semas.read sema = some ⟨free⟩ ∧ ¬ free < 1 ∧
      Represents next.fifo next.links cells items ∧ next.fifo.enabled = bounded.fifo.enabled := by
  induction missing generalizing bounded permits with
  | zero => exact ⟨bounded, permits, later, present, by omega, represents, rfl⟩
  | succ missing ih =>
      by_cases short : permits < 1
      · rcases unblock_all_releases inUse present represents with ⟨next, unblocked, used,
          released, held, kept⟩
        have low := isInt.1
        have more : asInt (permits + 1) = permits + 1 :=
          as_int_of_is_int ⟨by omega, by simp only [intMax]; omega⟩
        rw [more] at released
        rcases ih (.unblockAll later unblocked) used released
          ⟨by omega, by simp only [intMax]; omega⟩ (by omega) held
          with ⟨last, free, onward, counts, enough, whole, same⟩
        exact ⟨last, free, onward, counts, enough, whole, same.trans kept⟩
      · exact ⟨bounded, permits, later, present, short, represents, rfl⟩

/-! ## All classes -/

theorem refuses_returns (wrap : Fifo → Links Item → Queue Item)
    {ran : Option (Fifo × Links Item × Pointer)}
    (same : adds blank queue adding = ran.map fun (fifo, links, pointer) =>
      .returns (wrap fifo links) pointer) (inner : ∀ fifo links, (wrap fifo links).inner = fifo)
        (kept : ∀ fifo links, (wrap fifo links).links = links) :
    Refuses blank queue adding cells items ↔ ∃ after left pointer, ran = some (after,
      left, pointer) ∧
      Unchanged queue.inner after queue.links left cells items ∧ pointer.Harmless := by
  unfold Refuses
  rw [same]
  constructor
  · rintro ⟨ended, ran, holds⟩
    rcases Option.map_eq_some_iff.mp ran with ⟨⟨after, left, pointer⟩, found, rfl⟩
    refine ⟨after, left, pointer, found, ?_, holds.2⟩
    have unchanged := holds.1
    rwa [inner, kept] at unchanged
  · rintro ⟨after, left, pointer, found, unchanged, harmless⟩
    refine ⟨.returns (wrap after left) pointer, by rw [found]; rfl, ?_, harmless⟩
    rwa [inner, kept]

/-- A call that has blocked on the bounded queue leaves a link, or returns a pointer, when it goes
on later. -/
theorem refuses_later_iff (blank : Item) {sema : Nat} (inUse : bounded.sizeSema = some sema)
    (present : bounded.semas.read sema = some ⟨permits⟩)
    (represents : Represents bounded.fifo bounded.links cells items)
    (disabled : bounded.fifo.enabled = false) (adding : Adding Item) :
    RefusesLater blank bounded adding ↔ isAddToHead adding := by
  constructor
  · intro refuses
    -- the first release makes the count an `int`, whatever it was
    rcases unblock_all_releases inUse present represents with ⟨next, unblocked, used,
      released, held, kept⟩
    have onward : Later blank bounded next := .unblockAll .start unblocked
    rcases later_permit (1 - asInt (permits + 1)).toNat onward used released (as_int_is_int _)
        (by omega) held with
      ⟨last, free, later, counts, enough, whole, same⟩
    have off : last.fifo.enabled = false := (same.trans kept).trans disabled
    have ran := goes_on_inner counts enough blank adding
    rw [safe_adds_disabled id blank last.links off] at ran
    have refused := refuses sema last cells items inUse later whole off _ _ ran
    exact (safe_adds_refuse_iff id blank whole off adding).mp
      ⟨_, _, _, safe_adds_disabled id blank last.links off adding, refused⟩
  · intro heads sema later cells items _ _ represents disabled next pointer returns
    rcases goes_on_returns returns with ⟨permits, fifo, links, -, rfl, ran⟩
    rcases (safe_adds_refuse_iff id blank represents disabled adding).mpr heads with
      ⟨after, made, given, found, unchanged, harmless⟩
    cases Option.some.inj (ran.symm.trans found)
    exact ⟨unchanged, harmless⟩

def disabledFifo : Fifo := { Fifo.new with enabled := false }

theorem disabled_fifo_represents : Represents disabledFifo (Store.empty : Links Nat) [] [] :=
  represents_flags represents_new false 0

end TWlib.FifoDisabled
