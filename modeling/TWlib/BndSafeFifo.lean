import TWlib.SafeFifoThreads
import TWlib.Semaphore

/-!
# The bounded thread-safe FIFO

`tw_bndSafeFIFO` takes a permit of a `TW_Sema` of its own before it adds and gives one back after it
has removed. The semaphores are objects that `clearAll` makes and deletes, and `_sizeSema` points to
one of them. `enter` and `resume` are again one region, or what a call does between two of them;
`none` is a step through a pointer that does not lead to a semaphore. `perform` is a call of which
nothing else comes in between.
-/

namespace TWlib.BndSafeFifo

open TWlib.Lib.CellStore TWlib.Lib.Monitor
open TWlib.SafeFifo (Fifo Links)
open TWlib.Semaphore (Sema)

set_option autoImplicit false

/-! ## The model -/

structure BndFifo (Item : Type*) where
  fifo : Fifo
  links : Links Item
  semas : Store Sema
  sizeSema : Option Nat
  max : Int

/-- What the calls that acquire a permit then do with it. -/
inductive Adding (Item : Type*) where
  | add (theD : Item)
  | addToHead (theD : Item)
  | addEmpty
deriving DecidableEq

inductive Call (Item : Type*) where
  | adds (adding : Adding Item)
  | remove
  | removeOrBlock
  | clearAll
  | enable
  | disable
deriving DecidableEq

/-- Who called the inner queue, where it matters when that call is over. `addEmpty` has the link it
returns. -/
inductive Caller where
  | nothing
  | addEmpty (ret : Option Nat)
  | removes
  | clearAll
deriving DecidableEq

/-- Where a call goes on: inside `acquire()`, `release()` or `releaseAll()` of a semaphore, inside
the inner queue, or at a statement of its own. -/
inductive Place (Item : Type*) where
  | acquire (sema : Nat) (adding : Adding Item)
  | gtZero (sema : Nat) (adding : Adding Item)
  | decrement (sema : Nat) (adding : Adding Item)
  | adding (adding : Adding Item)
  | fifo (place : SafeFifo.Place Item) (caller : Caller)
  | loadRelease (fill : Option Item)
  | release (sema : Nat) (fill : Option Item)
  | loadReleaseAll
  | releaseAll (sema : Nat)
  | delete
  | construct
deriving DecidableEq

inductive Result (Item : Type*) where
  | nothing
  | link (ret : Option Nat)
  | removed (ret : Bool) (fill : Option Item)
deriving DecidableEq

inductive Outcome (Item : Type*) where
  | goes (place : Place Item)
  | returns (result : Result Item)
deriving DecidableEq

inductive Stop where
  | running
  | newdataCond
  | gtZeroCond (sema : Nat)
deriving DecidableEq

structure Region (Item : Type*) where
  queue : BndFifo Item
  wake : Wake Stop
  outcome : Outcome Item

variable {Item : Type*}

def Stop.ofFifo : SafeFifo.Stop → Stop
  | .newdataCond => .newdataCond
  | _ => .running

def Stop.ofSema (sema : Nat) : Semaphore.Stop → Stop
  | .gtZeroCond => .gtZeroCond sema
  | .decrement => .running

def stop : Place Item → Stop
  | .gtZero sema _ => .gtZeroCond sema
  | .fifo place _ => .ofFifo (SafeFifoThreads.stop place)
  | _ => .running

/-- What follows when the inner queue has returned. -/
def Caller.back (caller : Caller) (ret : Bool) (fill : Option Item) : Outcome Item :=
  match caller with
  | .nothing => .returns .nothing
  | .addEmpty link => .returns (.link link)
  | .removes => if ret then .goes (.loadRelease fill) else .returns (.removed ret fill)
  | .clearAll => .goes .loadReleaseAll

namespace BndFifo

/-- `tw_bndSafeFIFO(int maxsize)`. -/
def new (maxsize : Int) : BndFifo Item :=
  ⟨Fifo.new, Store.empty, Store.empty.push ⟨maxsize⟩, some 0, maxsize⟩

def remaining (queue : BndFifo Item) : Int := queue.fifo.remaining

/-- The count of the semaphore in use. -/
def permits (queue : BndFifo Item) : Option Int :=
  (queue.sizeSema.bind queue.semas.read).map Sema.count

def inner (queue : BndFifo Item) (caller : Caller) (region : SafeFifo.Region Item) : Region Item :=
  ⟨{ queue with fifo := region.fifo, links := region.links }, region.wake.map Stop.ofFifo,
    match region.outcome with
    | .goes place => .goes (.fifo place caller)
    | .returns ret fill => caller.back ret fill⟩

def calls (queue : BndFifo Item) (caller : Caller) (call : SafeFifoThreads.Call Item) :
    Option (Region Item) :=
  (SafeFifoThreads.enter id queue.fifo queue.links call).map (queue.inner caller)

/-- A region, or the decrement, of a semaphore that exists. -/
def withSema (queue : BndFifo Item) (sema : Nat) (region : Sema → Semaphore.Region)
    (next : Semaphore.Outcome → Outcome Item) : Option (Region Item) :=
  (queue.semas.read sema).map fun object =>
    let ran := region object
    ⟨{ queue with semas := queue.semas.write sema ran.sema }, ran.wake.map (Stop.ofSema sema),
      next ran.outcome⟩

/-- `_sizeSema->`, up to the call of the function. -/
def load (queue : BndFifo Item) (place : Nat → Place Item) : Option (Region Item) :=
  queue.sizeSema.map fun sema => ⟨queue, .nobody, .goes (place sema)⟩

/-- What `acquire()` returns is not looked at. -/
def acquire (queue : BndFifo Item) (sema : Nat) (adding : Adding Item) : Option (Region Item) :=
  queue.withSema sema (fun object => object.acquire 0) fun
    | .goes (.decrement _) => .goes (.decrement sema adding)
    | _ => .goes (.gtZero sema adding)

/-- `_fifo.add(the_d)` and its siblings. -/
def adds (blank : Item) (queue : BndFifo Item) : Adding Item → Option (Region Item)
  | .add theD => queue.calls .nothing (.add theD)
  | .addToHead theD => queue.calls .nothing (.addToHead theD)
  | .addEmpty =>
      (queue.fifo.addEmpty blank queue.links).map fun (region, ret) =>
        queue.inner (.addEmpty ret) region

/-- `if(_sizeSema)` and the pointer of `releaseAll()` in `clearAll`. -/
def loadReleaseAll (queue : BndFifo Item) : Region Item :=
  match queue.sizeSema with
  | none => ⟨queue, .nobody, .goes .construct⟩
  | some sema => ⟨queue, .nobody, .goes (.releaseAll sema)⟩

/-- `delete _sizeSema;`, whose destructor wakes those that wait. -/
def delete (queue : BndFifo Item) : Option (Region Item) :=
  match queue.sizeSema with
  | none => some ⟨queue, .nobody, .goes .construct⟩
  | some sema => (queue.semas.read sema).map fun _ =>
      ⟨{ queue with semas := queue.semas.giveUp sema }, .broadcast (.gtZeroCond sema),
        .goes .construct⟩

/-- `_sizeSema = new TW_Sema(_max);` -/
def construct (queue : BndFifo Item) : Region Item :=
  ⟨{ queue with semas := queue.semas.push ⟨queue.max⟩, sizeSema := some queue.semas.fresh },
    .nobody,
    .returns .nothing⟩

end BndFifo

/-- What a call begins with. -/
def enter (queue : BndFifo Item) : Call Item → Option (Region Item)
  | .adds adding => queue.load fun sema => .acquire sema adding
  | .remove => queue.calls .removes .remove
  | .removeOrBlock => queue.calls .removes (.removeOrBlock false)
  | .clearAll => queue.calls .clearAll .clearAll
  | .enable => queue.calls .nothing .enable
  | .disable => queue.calls .nothing .disable

/-- `blank` is what the default constructor makes. -/
def resume (blank : Item) (queue : BndFifo Item) : Place Item → Option (Region Item)
  | .acquire sema adding | .gtZero sema adding => queue.acquire sema adding
  | .decrement sema adding =>
      queue.withSema sema (fun object => object.decrement 0) fun _ => .goes (.adding adding)
  | .adding adding => queue.adds blank adding
  | .fifo place caller =>
      (SafeFifoThreads.resume queue.fifo queue.links place).map (queue.inner caller)
  | .loadRelease fill => queue.load fun sema => .release sema fill
  | .release sema fill => queue.withSema sema Sema.release fun _ => .returns (.removed true fill)
  | .loadReleaseAll => some queue.loadReleaseAll
  | .releaseAll sema => queue.withSema sema Sema.releaseAll fun _ => .goes .delete
  | .delete => queue.delete
  | .construct => some queue.construct

/-! ## One call after the other -/

/-- A call ends, or it blocks because there is no permit. -/
inductive Ended (Item : Type*) where
  | blocks
  | returns (queue : BndFifo Item) (result : Result Item)

/-- The rest of a call when no other is in progress. A wait for new data ends without a signal. -/
def alone (blank : Item) : Nat → Region Item → Option (Ended Item)
  | _, ⟨queue, _, .returns result⟩ => some (.returns queue result)
  | _, ⟨_, _, .goes (.gtZero _ _)⟩ => some .blocks
  | 0, _ => none
  | fuel + 1, ⟨queue, _, .goes place⟩ => (resume blank queue place).bind (alone blank fuel)

/-- No call takes more than six steps. -/
def perform (blank : Item) (queue : BndFifo Item) (call : Call Item) : Option (Ended Item) :=
  (enter queue call).bind (alone blank 6)

end TWlib.BndSafeFifo
