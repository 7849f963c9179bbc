import Mathlib.Logic.Function.Basic
import TWlib.Lib.CellStore

/-!
# The links of the doubly linked list and its iterators

The functions of `LList` and of `LList::iter` as the code computes them, on a store of links. `none`
is a step through a pointer that leads nowhere, or a loop that does not end. What a `bool` function
with a reference argument leaves there is given as an option, which is `none` when it returns false.
-/

namespace TWlib.LListLinks

open TWlib.Lib.CellStore

set_option autoImplicit false

structure Link (Item : Type*) where
  d : Item
  next : Option Nat
  prev : Option Nat
deriving DecidableEq

abbrev Links (Item : Type*) := Store (Link Item)

structure LList where
  enabled : Bool
  head : Option Nat
  tail : Option Nat
  remain : Int
deriving DecidableEq

/-- `owner` says whether the pointer to the list is set. -/
structure Iter where
  look : Option Nat
  owner : Bool
deriving DecidableEq

variable {Item : Type*}

def setNext (links : Links Item) (link : Nat) (next : Option Nat) : Option (Links Item) := do
  let content ← links.read link
  some (links.write link { content with next })

def setPrev (links : Links Item) (link : Nat) (prev : Option Nat) : Option (Links Item) := do
  let content ← links.read link
  some (links.write link { content with prev })

/-- `if(link) link->next = next;` -/
def hookNext (links : Links Item) (link next : Option Nat) : Option (Links Item) :=
  match link with
  | none => some links
  | some link => setNext links link next

/-- `if(link) link->prev = prev;` -/
def hookPrev (links : Links Item) (link prev : Option Nat) : Option (Links Item) :=
  match link with
  | none => some links
  | some link => setPrev links link prev

/-- `if(tail) { tail->next = newlink; newlink->prev = tail; }` -/
def hookTail (links : Links Item) (tail : Option Nat) (newlink : Nat) : Option (Links Item) :=
  match tail with
  | none => some links
  | some tail => do
      let links ← setNext links tail (some newlink)
      setPrev links newlink (some tail)

/-- The loop of `clearAll`. -/
def freeLinks : Nat → Option Nat → Links Item → Option (Links Item)
  | _, none, links => some links
  | 0, some _, _ => none
  | fuel + 1, some head, links => do
      let content ← links.read head
      freeLinks fuel content.next (links.giveUp head)

namespace LList

def new : LList := ⟨true, none, none, 0⟩

def remaining (list : LList) : Int := list.remain

/-- What `addToTail` and `addEmptyTail` do with the link they have made. -/
def append (list : LList) (links : Links Item) (newlink : Nat) : Option (LList × Links Item) := do
  let links ← hookTail links list.tail newlink
  let head := if list.head.isNone then some newlink else list.head
  some ({ list with tail := some newlink, head, remain := list.remain + 1 }, links)

def addToTail (list : LList) (links : Links Item) (theD : Item) : Option (LList × Links Item) :=
  if list.enabled then list.append (links.push ⟨theD, none, none⟩) links.fresh
  else some (list, links)

/-- The result is the link whose content the caller gets a pointer to. -/
def addEmptyTail (blank : Item) (list : LList) (links : Links Item) :
    Option (LList × Links Item × Option Nat) :=
  if list.enabled then do
    let newlink := links.fresh
    let (list, links) ← list.append (links.push ⟨blank, none, none⟩) newlink
    some (list, links, some newlink)
  else some (list, links, none)

def addToHead (list : LList) (links : Links Item) (theD : Item) : Option (LList × Links Item) :=
  if list.enabled then do
    let newlink := links.fresh
    let links ← setNext (links.push ⟨theD, none, none⟩) newlink list.head
    let links ← hookPrev links list.head (some newlink)
    let tail := if list.tail.isNone then some newlink else list.tail
    some ({ list with head := some newlink, tail, remain := list.remain + 1 }, links)
  else some (list, links)

def removeHead (list : LList) (links : Links Item) : Option (LList × Links Item × Option Item) :=
  let tail := if list.head = list.tail then none else list.tail
  match list.head with
  | none => some ({ list with tail }, links, none)
  | some oldout => do
      let content ← links.read oldout
      let links ← hookPrev links content.next none
      some ({ list with head := content.next, tail, remain := list.remain - 1 },
        links.giveUp oldout,
        some content.d)

def removeTail (list : LList) (links : Links Item) : Option (LList × Links Item × Option Item) :=
  let head := if list.head = list.tail then none else list.head
  match list.tail with
  | none => some ({ list with head }, links, none)
  | some oldout => do
      let content ← links.read oldout
      let links ← hookNext links content.prev none
      some ({ list with head, tail := content.prev, remain := list.remain - 1 },
        links.giveUp oldout,
        some content.d)

/-- The link is taken out of the list and stays allocated. -/
def removeLink (list : LList) (links : Links Item) (l : Nat) : Option (LList × Links Item) := do
  let oldout ← links.read l
  let links ← hookPrev links oldout.next oldout.prev
  let links ← hookNext links oldout.prev oldout.next
  let content ← links.read l
  let head := if list.head = some l then content.next else list.head
  let tail := if list.tail = some l then content.prev else list.tail
  some ({ list with head, tail, remain := list.remain - 1 }, links)

def peekHead (list : LList) (links : Links Item) : Option (Option Item) :=
  match list.head with
  | none => some none
  | some head => (links.read head).map fun content => some content.d

def peekTail (list : LList) (links : Links Item) : Option (Option Item) :=
  match list.tail with
  | none => some none
  | some tail => (links.read tail).map fun content => some content.d

def clearAll (list : LList) (links : Links Item) : Option (LList × Links Item) := do
  let links ← freeLinks links.fresh list.head links
  some ({ list with head := none, tail := none, remain := 0 }, links)

end LList

namespace Iter

/-- The constructor, which leaves `owner` unset. -/
def new : Iter := ⟨none, false⟩

def startIterHead (list : LList) : Iter := ⟨list.head, true⟩

def startIterTail (list : LList) : Iter := ⟨list.tail, true⟩

def releaseIter : Iter := ⟨none, false⟩

def getNext (iter : Iter) (links : Links Item) : Option (Iter × Option Item) :=
  match iter.look with
  | none => some (iter, none)
  | some look =>
      (links.read look).map fun content => ({ iter with look := content.next }, some content.d)

def getPrev (iter : Iter) (links : Links Item) : Option (Iter × Option Item) :=
  match iter.look with
  | none => some (iter, none)
  | some look =>
      (links.read look).map fun content => ({ iter with look := content.prev }, some content.d)

def getCurrent (iter : Iter) (links : Links Item) : Option (Option Item) :=
  match iter.look with
  | none => some none
  | some look => (links.read look).map fun content => some content.d

def setCurrent (iter : Iter) (links : Links Item) (fill : Item) : Option (Links Item × Bool) :=
  match iter.look with
  | none => some (links, false)
  | some look =>
      (links.read look).map fun content => (links.write look { content with d := fill }, true)

/-- The argument is passed as a copy. -/
def setCurrentVal (iter : Iter) (links : Links Item) (fill : Item) : Option (Links Item × Bool) :=
  iter.setCurrent links fill

/-- `owner->removeLink(oldlook)`. -/
def removeLink (iter : Iter) (list : LList) (links : Links Item) (oldlook : Nat) :
    Option (LList × Links Item) :=
  if iter.owner then list.removeLink links oldlook else none

def removeNext (iter : Iter) (list : LList) (links : Links Item) :
    Option (Iter × LList × Links Item × Option Item) :=
  match iter.look with
  | none => some (iter, list, links, none)
  | some oldlook => do
      let content ← links.read oldlook
      let (list, links) ← iter.removeLink list links oldlook
      some ({ iter with look := content.next }, list, links, some content.d)

def removePrev (iter : Iter) (list : LList) (links : Links Item) :
    Option (Iter × LList × Links Item × Option Item) :=
  match iter.look with
  | none => some (iter, list, links, none)
  | some oldlook => do
      let content ← links.read oldlook
      let (list, links) ← iter.removeLink list links oldlook
      some ({ iter with look := content.prev }, list, links, some content.d)

def atEnd (iter : Iter) : Bool := iter.look.isNone

end Iter

/-! ## Runs -/

/-- A list, and the iterators there are on it. -/
structure World (Item : Type*) where
  list : LList
  links : Links Item
  iters : Nat → Iter

inductive Call (Item : Type*) where
  | addToTail (theD : Item)
  | addToHead (theD : Item)
  | addEmptyTail
  | removeHead
  | removeTail
  | peekHead
  | peekTail
  | clearAll
  | enable
  | disable
  | newIter (i : Nat)
  | startIterHead (i : Nat)
  | startIterTail (i : Nat)
  | releaseIter (i : Nat)
  | getNext (i : Nat)
  | getPrev (i : Nat)
  | getCurrent (i : Nat)
  | setCurrent (i : Nat) (fill : Item)
  | setCurrentVal (i : Nat) (fill : Item)
  | removeNext (i : Nat)
  | removePrev (i : Nat)
  | atEnd (i : Nat)

inductive Result (Item : Type*) where
  | nothing
  | link (ret : Option Nat)
  | found (fill : Option Item)
  | flag (ret : Bool)
deriving DecidableEq

namespace World

def new : World Item := ⟨LList.new, Store.empty, fun _ => Iter.new⟩

def setIter (world : World Item) (i : Nat) (iter : Iter) : World Item :=
  { world with iters := Function.update world.iters i iter }

end World

def perform (blank : Item) (world : World Item) : Call Item → Option (World Item × Result Item)
  | .addToTail theD => (world.list.addToTail world.links theD).map fun (list, links) =>
      ({ world with list, links }, .nothing)
  | .addToHead theD => (world.list.addToHead world.links theD).map fun (list, links) =>
      ({ world with list, links }, .nothing)
  | .addEmptyTail => (world.list.addEmptyTail blank world.links).map fun (list, links, ret) =>
      ({ world with list, links }, .link ret)
  | .removeHead => (world.list.removeHead world.links).map fun (list, links, fill) =>
      ({ world with list, links }, .found fill)
  | .removeTail => (world.list.removeTail world.links).map fun (list, links, fill) =>
      ({ world with list, links }, .found fill)
  | .peekHead => (world.list.peekHead world.links).map fun fill => (world, .found fill)
  | .peekTail => (world.list.peekTail world.links).map fun fill => (world, .found fill)
  | .clearAll =>
      (world.list.clearAll world.links).map fun (list, links) =>
        ({ world with list, links }, .nothing)
  | .enable => some ({ world with list := { world.list with enabled := true } }, .nothing)
  | .disable => some ({ world with list := { world.list with enabled := false } }, .nothing)
  | .newIter i => some (world.setIter i .new, .nothing)
  | .startIterHead i => some (world.setIter i (.startIterHead world.list), .nothing)
  | .startIterTail i => some (world.setIter i (.startIterTail world.list), .nothing)
  | .releaseIter i => some (world.setIter i .releaseIter, .nothing)
  | .getNext i =>
      ((world.iters i).getNext world.links).map fun (iter, fill) =>
        (world.setIter i iter, .found fill)
  | .getPrev i =>
      ((world.iters i).getPrev world.links).map fun (iter, fill) =>
        (world.setIter i iter, .found fill)
  | .getCurrent i => ((world.iters i).getCurrent world.links).map fun fill => (world, .found fill)
  | .setCurrent i fill => ((world.iters i).setCurrent world.links fill).map fun (links, ret) =>
      ({ world with links }, .flag ret)
  | .setCurrentVal i fill =>
      ((world.iters i).setCurrentVal world.links fill).map fun (links, ret) =>
      ({ world with links }, .flag ret)
  | .removeNext i =>
      ((world.iters i).removeNext world.list world.links).map fun (iter, list, links, fill) =>
      (({ world with list, links } : World Item).setIter i iter, .found fill)
  | .removePrev i =>
      ((world.iters i).removePrev world.list world.links).map fun (iter, list, links, fill) =>
      (({ world with list, links } : World Item).setIter i iter, .found fill)
  | .atEnd i => some (world, .flag (world.iters i).atEnd)

end TWlib.LListLinks
