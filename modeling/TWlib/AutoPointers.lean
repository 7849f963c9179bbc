import TWlib.Lib.CellStore
import TWlib.Lib.MachineInt
import TWlib.Lib.ValueChain

/-!
# `autoPointer`

The objects given to the pointer and the callback entries lie in stores of their
own; using an entry or deleting an object that is gone has no result. The history
tells what was given, registered, called, freed and deleted. The mutex is left
out, since every operation but `reset` is one region under it.
-/

namespace TWlib.AutoPointers

open TWlib.Lib.CellStore TWlib.Lib.MachineInt

set_option autoImplicit false

structure CallbackEntry where
  cb : Nat
  next : Option Nat
deriving DecidableEq

/-- The object is `none` where the pointer is null. -/
inductive Event where
  | give (obj : Nat)
  | register (entry cb : Nat) (obj : Option Nat)
  | call (entry cb : Nat) (obj : Option Nat)
  | free (entry : Nat)
  | delete (obj : Nat)
deriving DecidableEq

structure AutoPointer where
  d : Option Nat
  refCount : Int
  firstCallback : Option Nat
  entries : Store CallbackEntry
  objects : Store Unit
  log : List Event

namespace AutoPointer

/-- `autoPointer()` -/
def null : AutoPointer := ⟨none, 0, none, Store.empty, Store.empty, []⟩

/-- The loop of `removeAllCallbacks`. -/
def removeFrom : Nat → Option Nat → Store CallbackEntry → List Event →
    Option (Store CallbackEntry × List Event)
  | _, none, entries, log => some (entries, log)
  | 0, some _, _, _ => none
  | fuel + 1, some here, entries, log => do
      let entry ← entries.read here
      removeFrom fuel entry.next (entries.giveUp here) (log ++ [.free here])

/-- No chain is longer than the number of entries that were ever made. -/
def removeAllCallbacks (p : AutoPointer) : Option AutoPointer := do
  let (entries, log) ← removeFrom p.entries.fresh p.firstCallback p.entries p.log
  some { p with entries, log }

/-- `while(nex->_next) nex = nex->_next;` -/
def lastFrom (entries : Store CallbackEntry) : Nat → Nat → Option Nat
  | 0, _ => none
  | fuel + 1, nex => do
      let entry ← entries.read nex
      match entry.next with
      | some later => lastFrom entries fuel later
      | none => some nex

def addCallback (p : AutoPointer) (cb : Nat) : Option AutoPointer :=
  let new := p.entries.fresh
  let log := p.log ++ [.register new cb p.d]
  match p.firstCallback with
  | some nex => do
      let last ← lastFrom p.entries p.entries.fresh nex
      let entry ← p.entries.read last
      some { p with
        entries := (p.entries.push ⟨cb, none⟩).write last { entry with next := some new }, log }
  | none => some { p with firstCallback := some new, entries := p.entries.push ⟨cb, none⟩, log }

/-- `D = d;` with a new object or a null pointer. -/
def point (p : AutoPointer) : Bool → AutoPointer
  | true => { p with
      d := some p.objects.fresh, objects := p.objects.push (), log :=
        p.log ++ [.give p.objects.fresh] }
  | false => { p with d := none }

def reset (p : AutoPointer) (object : Bool) : Option AutoPointer := do
  let p ← removeAllCallbacks { p.point object with refCount := 1 }
  some { p with firstCallback := none }

/-- The loop of `destroy`. -/
def callFrom (d : Option Nat) :
    Nat → Option Nat → Store CallbackEntry → List Event → Option (Store CallbackEntry × List Event)
  | _, none, entries, log => some (entries, log)
  | 0, some _, _, _ => none
  | fuel + 1, some walk, entries, log => do
      let entry ← entries.read walk
      callFrom d fuel entry.next (entries.giveUp walk) (log ++ [.call walk entry.cb d, .free walk])

/-- `delete D; D = NULL;` -/
def deleteD (p : AutoPointer) : Option AutoPointer :=
  match p.d with
  | some obj => (p.objects.read obj).map fun _ =>
      { p with d := none, objects := p.objects.giveUp obj, log := p.log ++ [.delete obj] }
  | none => some p

/-- `firstCallback` is left as it is. -/
def destroy (p : AutoPointer) : Option AutoPointer := do
  let (entries, log) ← callFrom p.d p.entries.fresh p.firstCallback p.entries p.log
  deleteD { p with entries, log }

def dupP (p : AutoPointer) : AutoPointer := { p with refCount := asInt (p.refCount + 1) }

def release (p : AutoPointer) : Option AutoPointer :=
  let p := { p with refCount := asInt (p.refCount - 1) }
  if p.refCount < 1 then p.destroy else some p

def registerCallback (p : AutoPointer) (cb : Nat) : Option AutoPointer := p.addCallback cb

/-- `~autoPointer()` -/
def destruct (p : AutoPointer) : Option AutoPointer := if p.d.isSome then p.destroy else some p

end AutoPointer

/-! ## The life of a pointer -/

/-- `autoPointer()`, or `autoPointer(d)` with a null pointer or with an object. -/
inductive Construction where
  | default
  | null
  | object
deriving DecidableEq

inductive Op where
  | registerCallback (cb : Nat)
  | dupP
  | release
  /-- With a new object. -/
  | reset
deriving DecidableEq

def construct : Construction → Option AutoPointer
  | .default => some AutoPointer.null
  | .null => AutoPointer.null.reset false
  | .object => AutoPointer.null.reset true

def perform (p : AutoPointer) : Op → Option AutoPointer
  | .registerCallback cb => p.registerCallback cb
  | .dupP => some p.dupP
  | .release => p.release
  | .reset => p.reset true

/-- The operations and then the destructor. -/
def runOut : AutoPointer → List Op → Option AutoPointer
  | p, [] => p.destruct
  | p, op :: ops => do
      let p ← perform p op
      runOut p ops

def life (construction : Construction) (ops : List Op) : Option AutoPointer := do
  let p ← construct construction
  runOut p ops

end TWlib.AutoPointers
