import TWlib.Lib.CellStore
import TWlib.Lib.MachineInt
import TWlib.Lib.MonitorRuns
import TWlib.Lib.ValueChain

/-!
# The links of a thread-safe FIFO

`tw_safeFIFO` and `tw_safeFIFOmv` are one text up to what an assignment leaves in its
source: `left` is the identity for the first and the moved-from state for the second.
Each function here is one region under `dataMutex`, or what a call does outside it.
A read or write through a link that does not exist, and a loop that does not end,
give `none`. `_block_cnt` is an `int`, which timed-out waits only ever raise.
-/

namespace TWlib.SafeFifo

open TWlib.Lib.CellStore TWlib.Lib.MachineInt TWlib.Lib.Monitor

set_option autoImplicit false

/-! ## The model -/

structure Link (Item : Type*) where
  d : Item
  next : Option Nat
deriving DecidableEq

abbrev Links (Item : Type*) := Store (Link Item)

/-- `inn` is the member `in`. -/
structure Fifo where
  enabled : Bool
  out : Option Nat
  inn : Option Nat
  remain : Int
  blockCnt : Int
deriving DecidableEq

/-- Where a call goes on: what it does in its next region under the mutex. A call that waits
for new data does so once it has the mutex back. -/
inductive Place (Item : Type*) where
  | add (newlink : Nat) (theD : Item)
  | unblock
  | unblockAll (assigning : Bool)
  | copyLinks
  | removeOrBlock (timed : Bool)
  | peekOrBlock (timed : Bool)
deriving DecidableEq

/-- `fill` is `none` where the reference argument is not set. -/
inductive Outcome (Item : Type*) where
  | goes (place : Place Item)
  | returns (ret : Bool) (fill : Option Item)
deriving DecidableEq

/-- What a thread inside a call stands before: a region, the region of `unblock()`, or the end of a
wait for new data. -/
inductive Stop where
  | mutex
  | unblock
  | newdataCond
deriving DecidableEq

structure Region (Item : Type*) where
  fifo : Fifo
  links : Links Item
  wake : Wake Stop
  outcome : Outcome Item

variable {Item : Type*}

/-- `ALLOC::malloc` and `init_link(the_d)`: the links, the new one, and what is left in `the_d`. -/
def initLink (left : Item → Item) (links : Links Item) (theD : Item) : Links Item × Nat × Item :=
  (links.push ⟨theD, none⟩, links.fresh, left theD)

def setNext (links : Links Item) (link : Nat) (next : Option Nat) : Option (Links Item) := do
  let content ← links.read link
  some (links.write link { content with next })

def freeLinks : Nat → Option Nat → Links Item → Option (Links Item)
  | _, none, links => some links
  | 0, some _, _ => none
  | fuel + 1, some out, links => do
      let content ← links.read out
      freeLinks fuel content.next (links.giveUp out)

namespace Fifo

def new : Fifo := ⟨true, none, none, 0, 0⟩

def remaining (fifo : Fifo) : Int := fifo.remain

/-- The links are hooked up from `in`, as in `add` and `addEmpty`. -/
def append (fifo : Fifo) (links : Links Item) (newlink : Nat) : Option (Fifo × Links Item) := do
  let links ← match fifo.inn with
    | some last => setNext links last (some newlink)
    | none => some links
  let out := if fifo.out.isNone then some newlink else fifo.out
  some ({ fifo with inn := some newlink, out, remain := fifo.remain + 1 }, links)

/-- `add` before it locks the mutex. -/
def addOutside (left : Item → Item) (fifo : Fifo) (links : Links Item) (theD : Item) :
    Region Item :=
  let (links, newlink, _) := initLink left links theD
  ⟨fifo, links, .nobody, .goes (.add newlink theD)⟩

/-- `add` under the mutex. -/
def add (fifo : Fifo) (links : Links Item) (newlink : Nat) : Option (Region Item) :=
  if fifo.enabled then do
    let (fifo, links) ← fifo.append links newlink
    some ⟨fifo, links, .nobody, .goes .unblock⟩
  else some ⟨fifo, links, .nobody, .goes .unblock⟩

/-- `addToHead`, which assigns `the_d` to the new link once more after `init_link(the_d)`. -/
def addToHead (left : Item → Item) (fifo : Fifo) (links : Links Item) (theD : Item) :
    Option (Region Item) :=
  if fifo.enabled then do
    let (links, newlink, again) := initLink left links theD
    let content ← links.read newlink
    let links := links.write newlink { content with d := again }
    let links ← match fifo.out with
      | none => some links
      | some out => setNext links newlink (some out)
    let inn := if fifo.inn.isNone then some newlink else fifo.inn
    some ⟨{ fifo with out := some newlink, inn, remain := fifo.remain + 1 }, links, .nobody,
      .goes .unblock⟩
  else some ⟨fifo, links, .nobody, .goes .unblock⟩

/-- `addEmpty`; `blank` is what the default constructor makes. The result is the link whose content
the caller gets a pointer to, and none when the pointer is never set. -/
def addEmpty (blank : Item) (fifo : Fifo) (links : Links Item) :
    Option (Region Item × Option Nat) :=
  if fifo.enabled then do
    let newlink := links.fresh
    let (fifo, links) ← fifo.append (links.push ⟨blank, none⟩) newlink
    some (⟨fifo, links, .nobody, .goes .unblock⟩, some newlink)
  else some (⟨fifo, links, .nobody, .goes .unblock⟩, none)

/-- `if(in==out) in = NULL;` -/
def dropIn (fifo : Fifo) : Fifo := if fifo.inn = fifo.out then { fifo with inn := none } else fifo

/-- `if(out) { ... }`, the same in every removal. -/
def takeOut (fifo : Fifo) (links : Links Item) : Option (Region Item) :=
  match fifo.out with
  | none => some ⟨fifo, links, .nobody, .returns false none⟩
  | some oldout => do
      let content ← links.read oldout
      some ⟨{ fifo with out := content.next, remain := fifo.remain - 1 },
        links.giveUp oldout, .nobody,
        .returns true (some content.d)⟩

def remove (fifo : Fifo) (links : Links Item) : Option (Region Item) := fifo.dropIn.takeOut links

/-- `removeOrBlock`, with or without a limit, up to the wait. -/
def removeOrBlock (fifo : Fifo) (links : Links Item) (timed : Bool) : Option (Region Item) :=
  let fifo := fifo.dropIn
  if fifo.out.isNone then
    some ⟨{ fifo with blockCnt := asInt (fifo.blockCnt + 1) }, links, .nobody,
      .goes (.removeOrBlock timed)⟩
  else fifo.dropIn.takeOut links

/-- `removeOrBlock` after the wait. -/
def removeWoken (fifo : Fifo) (links : Links Item) : Option (Region Item) :=
  fifo.dropIn.takeOut links

def peek (fifo : Fifo) (links : Links Item) : Option (Region Item) :=
  match fifo.out with
  | none => some ⟨fifo, links, .nobody, .returns false none⟩
  | some out => do
      let content ← links.read out
      some ⟨fifo, links, .nobody, .returns true (some content.d)⟩

def peekOrBlock (fifo : Fifo) (links : Links Item) (timed : Bool) : Option (Region Item) :=
  if fifo.out.isNone then
    some ⟨{ fifo with blockCnt := asInt (fifo.blockCnt + 1) }, links, .nobody,
      .goes (.peekOrBlock timed)⟩
  else fifo.peek links

/-- Whatever timed call runs into its limit returns false. -/
def timedOut (fifo : Fifo) (links : Links Item) : Region Item :=
  ⟨fifo, links, .nobody, .returns false none⟩

def unblock (fifo : Fifo) (links : Links Item) : Region Item :=
  if fifo.blockCnt > 0 then
    ⟨{ fifo with blockCnt := fifo.blockCnt - 1 }, links, .signal .newdataCond, .returns true none⟩
  else ⟨fifo, links, .nobody, .returns true none⟩

/-- `unblockAll`, which `clearAll` and thereby `operator=` call. -/
def unblockAll (fifo : Fifo) (links : Links Item) (assigning : Bool) : Region Item :=
  let outcome := if assigning then .goes .copyLinks else .returns true none
  if fifo.blockCnt > 0 then ⟨{ fifo with blockCnt := 0 }, links, .broadcast .newdataCond, outcome⟩
  else ⟨fifo, links, .nobody, outcome⟩

/-- `clearAll` up to `unblockAll()`. -/
def clearAll (fifo : Fifo) (links : Links Item) (assigning : Bool) : Option (Region Item) := do
  let links ← freeLinks links.fresh fifo.out links
  some ⟨{ fifo with out := none, inn := none, remain := 0 }, links, .nobody,
    .goes (.unblockAll assigning)⟩

def enable (fifo : Fifo) (links : Links Item) : Region Item :=
  ⟨{ fifo with enabled := true }, links, .nobody, .returns true none⟩

def disable (fifo : Fifo) (links : Links Item) : Region Item :=
  ⟨{ fifo with enabled := false }, links, .nobody, .returns true none⟩

end Fifo

/-- The other queue of an assignment when both mutexes are held, and the value `prev` starts with,
to which nothing is assigned before the first link is copied. -/
structure Source (Item : Type*) where
  fifo : Fifo
  links : Links Item
  prev : Option Nat

/-- The local variables of `operator=`, with the links of both queues. -/
structure Copying (Item : Type*) where
  links : Links Item
  source : Links Item
  prev : Option Nat
  remain : Int

/-- `newlink = malloc(...); newlink->init_link(look->d);` -/
def Copying.initLink (left : Item → Item) (copying : Copying Item) (look : Nat) :
    Option (Copying Item × Nat × Option Nat) := do
  let content ← copying.source.read look
  let (links, newlink, d) := SafeFifo.initLink left copying.links content.d
  let source := copying.source.write look { content with d }
  some ({ copying with links, source }, newlink, content.next)

/-- The loop of `operator=`. -/
def copyRest (left : Item → Item) : Nat → Option Nat → Copying Item → Option (Copying Item)
  | _, none, copying => some copying
  | 0, some _, _ => none
  | fuel + 1, some look, copying => do
      let (copying, newlink, next) ← copying.initLink left look
      let links ← match copying.prev with
        | none => none
        | some prev => setNext copying.links prev (some newlink)
      copyRest left fuel next
        { copying with links, prev := some newlink, remain := copying.remain + 1 }

/-- `operator=` with both mutexes, after `clearAll()`; the result has the links of the source
last. -/
def Fifo.assign (left : Item → Item) (fifo : Fifo) (links : Links Item) (source : Source Item) :
    Option (Region Item × Links Item) :=
  let start : Copying Item := ⟨links, source.links, source.prev, 0⟩
  let fifo := { fifo with enabled := source.fifo.enabled }
  match source.fifo.out with
  | none =>
      some (⟨{ fifo with remain := 0, inn := start.prev }, links, .nobody, .returns true none⟩,
        source.links)
  | some look => do
      let (copying, newlink, next) ← start.initLink left look
      let copying ← copyRest left source.links.fresh next
        { copying with prev := some newlink, remain := 1 }
      some (⟨{ fifo with out := some newlink, inn := copying.prev, remain := copying.remain },
        copying.links,
        .nobody, .returns true none⟩, copying.source)

end TWlib.SafeFifo
