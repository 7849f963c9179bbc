import TWlib.KHashPairs
import TWlib.Lib.CellStore
import Mathlib.Logic.Function.Basic

/-!
# `TW_KHash_32`

The operations of the map over the hash table. The values live on a heap of
their own, where `TW_NEW_WALLOC` makes a cell and `TW_DELETE_WALLOC` gives one
up; deleting or reading a value that is not there has no result. A `DATA &`
refers to a variable of the caller or to a cell of the heap, and is read and
written where the code does it. The keys are read before anything they could
refer to is changed. The locks are left out, since every operation runs under
the same one.
-/

namespace TWlib.KHashMap

open TWlib.Lib.CellStore TWlib.KHashTable

set_option autoImplicit false

variable {Key Data : Type}

structure KHash32 (Key Data : Type) where
  khashmap : KhA Key
  heap : Store Data

/-- `false` and `true`, with what the reference argument was set to; a pointer; a number. -/
inductive Answer (Data : Type) where
  | done (ret : Bool) (fill : Option Data)
  | pointer (ret : Option Nat)
  | count (ret : Int)
deriving DecidableEq

/-- What a `DATA &` refers to: a variable of the caller, or a value on the heap. -/
inductive Ref where
  | own (n : Nat)
  | stored (cell : Nat)
deriving DecidableEq

/-- A map with the variables of its caller. -/
structure Scope (Map Data : Type) where
  map : Map
  locals : Nat → Data

namespace Scope

variable (scope : Scope (KHash32 Key Data) Data)

def read : Ref → Option Data
  | .own n => some (scope.locals n)
  | .stored cell => scope.map.heap.read cell

/-- `ref = dat;` -/
def assign (dat : Data) : Ref → Option (Scope (KHash32 Key Data) Data)
  | .own n => some { scope with locals := Function.update scope.locals n dat }
  | .stored cell => (scope.map.heap.read cell).map fun _ =>
      { scope with map := { scope.map with heap := scope.map.heap.write cell dat } }

end Scope

/-! ## Values -/

def deleteValue (heap : Store Data) (cell : Nat) : Option (Store Data) :=
  (heap.read cell).map fun _ => heap.giveUp cell

/-- `TW_NEW_WALLOC(kh_value(KHASHMAP, k),DATA,DATA(dat),_alloc)` -/
def newValue (map : KHash32 Key Data) (k : Nat) (dat : Data) : Option (KHash32 Key Data) := do
  let vals ← setCell map.khashmap.vals k map.heap.fresh
  some ⟨{ map.khashmap with vals }, map.heap.push dat⟩

/-- Out with the old value, in with the new one, which is copied when the old one is gone. -/
def Scope.replaceValue (scope : Scope (KHash32 Key Data) Data) (k : Nat) (dat : Ref) :
    Option (Scope (KHash32 Key Data) Data) := do
  let old ← cellAt scope.map.khashmap.vals k
  let heap ← deleteValue scope.map.heap old
  let scope := { scope with map := { scope.map with heap } }
  let value ← scope.read dat
  let map ← newValue scope.map k value
  some { scope with map }

/-- The same when the new one is made from what nobody else refers to, as `DATA()` is. -/
def replaceValue (map : KHash32 Key Data) (k : Nat) (dat : Data) : Option (KHash32 Key Data) := do
  let old ← cellAt map.khashmap.vals k
  let heap ← deleteValue map.heap old
  newValue { map with heap } k dat

section Operations

variable (equal : Key → Key → Bool) (hash : Key → BitVec 32)

/-- `kh_put_A` and the new value; the second result is the bucket. -/
def putValue (map : KHash32 Key Data) (key : Key) (dat : Data) :
    Option (KHash32 Key Data × Nat) := do
  let (khashmap, k, _) ← khPut equal hash map.khashmap key
  let map ← newValue { map with khashmap } k dat
  some (map, k)

def init (items : Int) : Option (KHash32 Key Data) :=
  if items > 0 then (khResize hash khInit items.toNat).map fun khashmap => ⟨khashmap, Store.empty⟩
  else some ⟨khInit, Store.empty⟩

/-- `addReplace( const KEY& key, DATA& dat, DATA& oldref )` -/
def addReplaceOld (scope : Scope (KHash32 Key Data) Data) (key : Key) (dat oldref : Ref) :
    Option (Scope (KHash32 Key Data) Data × Answer Data) := do
  let k ← khGet equal hash scope.map.khashmap key
  if k ≠ scope.map.khashmap.nBuckets then do
    let old ← cellAt scope.map.khashmap.vals k
    let value ← scope.map.heap.read old
    let scope ← scope.assign value oldref
    let scope ← scope.replaceValue k dat
    some (scope, .done true (some value))
  else do
    let value ← scope.read dat
    let (map, _) ← putValue equal hash scope.map key value
    some ({ scope with map }, .done true none)

def addReplace (scope : Scope (KHash32 Key Data) Data) (key : Key) (dat : Ref) :
    Option (Scope (KHash32 Key Data) Data × Answer Data) := do
  let k ← khGet equal hash scope.map.khashmap key
  if k ≠ scope.map.khashmap.nBuckets then do
    let scope ← scope.replaceValue k dat
    some (scope, .done true none)
  else do
    let value ← scope.read dat
    let (map, _) ← putValue equal hash scope.map key value
    some ({ scope with map }, .done true none)

/-- `blank` is what `DATA()` constructs. -/
def addReplaceNew (blank : Data) (map : KHash32 Key Data) (key : Key) :
    Option (KHash32 Key Data × Answer Data) := do
  let k ← khGet equal hash map.khashmap key
  if k ≠ map.khashmap.nBuckets then do
    let map ← replaceValue map k blank
    let ret ← cellAt map.khashmap.vals k
    some (map, .pointer (some ret))
  else do
    let (map, k) ← putValue equal hash map key blank
    let ret ← cellAt map.khashmap.vals k
    some (map, .pointer (some ret))

def addNoreplaceNew (blank : Data) (map : KHash32 Key Data) (key : Key) :
    Option (KHash32 Key Data × Answer Data) := do
  let k ← khGet equal hash map.khashmap key
  if k = map.khashmap.nBuckets then do
    let (map, k) ← putValue equal hash map key blank
    let ret ← cellAt map.khashmap.vals k
    some (map, .pointer (some ret))
  else some (map, .pointer none)

def findOrNew (blank : Data) (map : KHash32 Key Data) (key : Key) :
    Option (KHash32 Key Data × Answer Data) := do
  let k ← khGet equal hash map.khashmap key
  if k ≠ map.khashmap.nBuckets then do
    let ret ← cellAt map.khashmap.vals k
    some (map, .pointer (some ret))
  else do
    let (map, k) ← putValue equal hash map key blank
    let ret ← cellAt map.khashmap.vals k
    some (map, .pointer (some ret))

def addNoreplace (scope : Scope (KHash32 Key Data) Data) (key : Key) (dat : Ref) :
    Option (Scope (KHash32 Key Data) Data × Answer Data) := do
  let k ← khGet equal hash scope.map.khashmap key
  if k = scope.map.khashmap.nBuckets then do
    let value ← scope.read dat
    let (map, _) ← putValue equal hash scope.map key value
    some ({ scope with map }, .done true none)
  else some (scope, .done false none)

/-- `remove( const KEY& key, DATA& fill )` -/
def removeFill (scope : Scope (KHash32 Key Data) Data) (key : Key) (fill : Ref) :
    Option (Scope (KHash32 Key Data) Data × Answer Data) := do
  let k ← khGet equal hash scope.map.khashmap key
  if k ≠ scope.map.khashmap.nBuckets then do
    let d ← cellAt scope.map.khashmap.vals k
    let value ← scope.map.heap.read d
    let scope ← scope.assign value fill
    let heap ← deleteValue scope.map.heap d
    let khashmap ← khDel scope.map.khashmap k
    some ({ scope with map := ⟨khashmap, heap⟩ }, .done true (some value))
  else some (scope, .done false none)

def remove (map : KHash32 Key Data) (key : Key) : Option (KHash32 Key Data × Answer Data) := do
  let k ← khGet equal hash map.khashmap key
  if k ≠ map.khashmap.nBuckets then do
    let d ← cellAt map.khashmap.vals k
    let heap ← deleteValue map.heap d
    let khashmap ← khDel map.khashmap k
    some (⟨khashmap, heap⟩, .done true none)
  else some (map, .done false none)

/-- `find( const KEY& key, DATA& fill )` -/
def findFill (scope : Scope (KHash32 Key Data) Data) (key : Key) (fill : Ref) :
    Option (Scope (KHash32 Key Data) Data × Answer Data) := do
  let k ← khGet equal hash scope.map.khashmap key
  if k ≠ scope.map.khashmap.nBuckets then do
    let d ← cellAt scope.map.khashmap.vals k
    let value ← scope.map.heap.read d
    let scope ← scope.assign value fill
    some (scope, .done true (some value))
  else some (scope, .done false none)

def find (map : KHash32 Key Data) (key : Key) : Option (KHash32 Key Data × Answer Data) := do
  let k ← khGet equal hash map.khashmap key
  if k ≠ map.khashmap.nBuckets then do
    let ret ← cellAt map.khashmap.vals k
    some (map, .pointer (some ret))
  else some (map, .pointer none)

/-! ## By value -/

/-- A call whose reference arguments are variables of their own, `dat` being in them before. -/
def byValue (dat : Data) (map : KHash32 Key Data)
    (call : Scope (KHash32 Key Data) Data → Option (Scope (KHash32 Key Data) Data × Answer Data)) :
    Option (KHash32 Key Data × Answer Data) :=
  (call ⟨map, fun _ => dat⟩).map fun (scope, answer) => (scope.map, answer)

def addReplaceOldByValue (map : KHash32 Key Data) (key : Key) (dat : Data) :
    Option (KHash32 Key Data × Answer Data) :=
  byValue dat map fun scope => addReplaceOld equal hash scope key (.own 0) (.own 1)

def addReplaceByValue (map : KHash32 Key Data) (key : Key) (dat : Data) :
    Option (KHash32 Key Data × Answer Data) :=
  byValue dat map fun scope => addReplace equal hash scope key (.own 0)

def addNoreplaceByValue (map : KHash32 Key Data) (key : Key) (dat : Data) :
    Option (KHash32 Key Data × Answer Data) :=
  byValue dat map fun scope => addNoreplace equal hash scope key (.own 0)

def removeFillByValue (blank : Data) (map : KHash32 Key Data) (key : Key) :
    Option (KHash32 Key Data × Answer Data) :=
  byValue blank map fun scope => removeFill equal hash scope key (.own 0)

def findFillByValue (blank : Data) (map : KHash32 Key Data) (key : Key) :
    Option (KHash32 Key Data × Answer Data) :=
  byValue blank map fun scope => findFill equal hash scope key (.own 0)

variable {equal hash} {map : KHash32 Key Data} {key : Key} {dat blank : Data}

theorem scope_replace_own (locals : Nat → Data) (k n : Nat) :
    (⟨map, locals⟩ : Scope (KHash32 Key Data) Data).replaceValue k (.own n) =
      (replaceValue map k (locals n)).map fun map => ⟨map, locals⟩ := by
  simp only [Scope.replaceValue, replaceValue, Scope.read, Option.bind_eq_bind, Option.bind_some,
    Option.map_bind,
    Function.comp_def]
  congr 1
  funext old
  congr 1
  funext heap
  cases newValue _ k (locals n) <;> rfl

theorem add_replace_by_value_eq : addReplaceByValue equal hash map key dat =
    (khGet equal hash map.khashmap key).bind fun k =>
      if k ≠ map.khashmap.nBuckets then
        (replaceValue map k dat).bind fun map => some (map, .done true none)
      else (putValue equal hash map key dat).bind fun (map, _) => some (map, .done true none) := by
  simp only [addReplaceByValue, byValue, addReplace, Scope.read, scope_replace_own,
    Option.bind_eq_bind,
    Option.bind_some, Option.map_bind, Function.comp_def, apply_ite (Option.map _), Option.bind_map,
    Option.map_some]

theorem add_replace_old_by_value_eq : addReplaceOldByValue equal hash map key dat =
    (khGet equal hash map.khashmap key).bind fun k =>
      if k ≠ map.khashmap.nBuckets then
        (cellAt map.khashmap.vals k).bind fun old => (map.heap.read old).bind fun oldref =>
          (replaceValue map k dat).bind fun map => some (map, .done true (some oldref))
      else (putValue equal hash map key dat).bind fun (map, _) => some (map, .done true none) := by
  simp only [addReplaceOldByValue, byValue, addReplaceOld, Scope.read, Scope.assign,
    scope_replace_own,
    Option.bind_eq_bind, Option.bind_some, Option.map_bind, Function.comp_def,
    apply_ite (Option.map _),
    Option.bind_map, Option.map_some]
  rfl

theorem add_noreplace_by_value_eq : addNoreplaceByValue equal hash map key dat =
    (khGet equal hash map.khashmap key).bind fun k =>
      if k = map.khashmap.nBuckets then
        (putValue equal hash map key dat).bind fun (map, _) => some (map, .done true none)
      else some (map, .done false none) := by
  simp only [addNoreplaceByValue, byValue, addNoreplace, Scope.read, Option.bind_eq_bind,
    Option.bind_some,
    Option.map_bind, Function.comp_def, apply_ite (Option.map _), Option.map_some]

theorem remove_fill_by_value_eq : removeFillByValue equal hash blank map key =
    (khGet equal hash map.khashmap key).bind fun k =>
      if k ≠ map.khashmap.nBuckets then
        (cellAt map.khashmap.vals k).bind fun d => (map.heap.read d).bind fun fill =>
          (deleteValue map.heap d).bind fun heap => (khDel map.khashmap k).bind fun khashmap =>
            some (⟨khashmap, heap⟩, .done true (some fill))
      else some (map, .done false none) := by
  simp only [removeFillByValue, byValue, removeFill, Scope.assign, Option.bind_eq_bind,
    Option.bind_some,
    Option.map_bind, Function.comp_def, apply_ite (Option.map _), Option.map_some]

theorem find_fill_by_value_eq : findFillByValue equal hash blank map key =
    (khGet equal hash map.khashmap key).bind fun k =>
      if k ≠ map.khashmap.nBuckets then
        (cellAt map.khashmap.vals k).bind fun d => (map.heap.read d).bind fun fill =>
          some (map, .done true (some fill))
      else some (map, .done false none) := by
  simp only [findFillByValue, byValue, findFill, Scope.assign, Option.bind_eq_bind,
    Option.bind_some,
    Option.map_bind, Function.comp_def, apply_ite (Option.map _), Option.map_some]

end Operations

def khExist (h : KhA Key) (x : Nat) : Option Bool :=
  (acIseither h.flags x).map fun either => !either

/-- The loop of `removeAll` over the buckets; a destroyed key cannot be read again. -/
def removeAllFrom : List Nat → KHash32 Key Data → Option (KHash32 Key Data)
  | [], map => some map
  | k :: ks, map => do
      let exist ← khExist map.khashmap k
      if exist then do
        let d ← cellAt map.khashmap.vals k
        let heap ← deleteValue map.heap d
        removeAllFrom ks ⟨{ map.khashmap with keys := map.khashmap.keys.set k none }, heap⟩
      else removeAllFrom ks map

def removeAll (map : KHash32 Key Data) : Option (KHash32 Key Data × Answer Data) := do
  let map ← removeAllFrom (List.range map.khashmap.nBuckets) map
  some (⟨khClear map.khashmap, map.heap⟩, .done true none)

def size (map : KHash32 Key Data) : KHash32 Key Data × Answer Data :=
  (map, .count map.khashmap.size)

/-! ## `HashIterator` -/

/-- `while(_iter != kh_end(KHASHMAP) && !kh_exist(KHASHMAP,_iter)) _iter++;` -/
def skip (h : KhA Key) : Nat → Nat → Option Nat
  | 0, iter => if iter = h.nBuckets then some iter else none
  | fuel + 1, iter =>
      if iter = h.nBuckets then some iter
      else do
        let exist ← khExist h iter
        if exist then some iter else skip h fuel (iter + 1)

def gotoStart (h : KhA Key) : Option Nat := skip h h.nBuckets 0

def atEnd (h : KhA Key) (iter : Nat) : Bool := iter = h.nBuckets

def getNext (h : KhA Key) (iter : Nat) : Option (Nat × Bool) :=
  if iter = h.nBuckets then some (iter, false)
  else do
    let iter ← skip h h.nBuckets (iter + 1)
    some (iter, iter ≠ h.nBuckets)

/-- `*key()` and `data()` at every position up to the end. -/
def walkFrom (h : KhA Key) : Nat → Nat → Option (List (Key × Nat))
  | 0, iter => if atEnd h iter then some [] else none
  | fuel + 1, iter =>
      if atEnd h iter then some []
      else do
        let key ← cellAt h.keys iter
        let data ← cellAt h.vals iter
        let (iter, _) ← getNext h iter
        let rest ← walkFrom h fuel iter
        some ((key, data) :: rest)

def walk (map : KHash32 Key Data) : Option (List (Key × Nat)) := do
  let iter ← gotoStart map.khashmap
  walkFrom map.khashmap map.khashmap.nBuckets iter

end TWlib.KHashMap
