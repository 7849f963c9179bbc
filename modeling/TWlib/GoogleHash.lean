import TWlib.KHashRefinement

/-!
# `TWDenseHash` and `TWSparseHash`

Both classes keep pairs of a `KEY *` and a `DATA *` in a table of the library
`google::`, which is a parameter here. They allocate
and delete what the pointers point to. The two texts are the same up to three
functions, so that an operation is written once, with what the classes do
differently as its parameter. Every access to the mutex and to the table is
noted in a log. A delete or a read of an object that is not there has no result.
-/

namespace TWlib.GoogleHash

open TWlib.Lib.CellStore TWlib.Lib.FiniteMap TWlib.KHashMap TWlib.KHashRefinement

set_option autoImplicit false

/-! ## The table of the library -/

/-- The functions of `dense_hash_map<KEY *, DATA *, ..>` and `sparse_hash_map` that are called. Keys
are compared by what the pointers point to, which the first argument reads; an iterator is known by
the `KEY *` in its pair. -/
structure GoogleMap (Key Table : Type) where
  start : Table
  setEmptyKey : Table → Nat → Table
  setDeletedKey : Table → Nat → Table
  find : (Nat → Option Key) → Table → Key → Option (Nat × Nat)
  begin : Table → Option (Nat × Nat)
  setSecond : Table → Nat → Nat → Table
  index : (Nat → Option Key) → Table → Nat → Nat → Table
  erase : Table → Nat → Table
  eraseKey : (Nat → Option Key) → Table → Key → Table
  eraseAll : Table → Table
  resize : (Nat → Option Key) → Table → Nat → Table
  size : Table → Nat

inductive Access where
  | acquire
  | release
  | table
deriving DecidableEq

/-- `deletedkey` is the pointer given to `set_deleted_key`. -/
structure Wrapper (Key Data Table : Type) where
  values : Table
  keys : Store Key
  datas : Store Data
  deletedkey : Nat
  iteratorsOut : Nat
  log : List Access

/-- Whether the allocator has memory for the DATA and for the KEY of a call. -/
structure Memory where
  data : Bool
  key : Bool

variable {Key Data Table : Type}

namespace Wrapper

def note (w : Wrapper Key Data Table) (access : Access) : Wrapper Key Data Table :=
  { w with log := w.log ++ [access] }

def acquire (w : Wrapper Key Data Table) : Wrapper Key Data Table := w.note .acquire

def release (w : Wrapper Key Data Table) : Wrapper Key Data Table := w.note .release

def touch (w : Wrapper Key Data Table) : Wrapper Key Data Table := w.note .table

def found (google : GoogleMap Key Table) (w : Wrapper Key Data Table) (key : Key) :
    Option (Nat × Nat) :=
  google.find w.keys.read w.values key

def find (google : GoogleMap Key Table) (w : Wrapper Key Data Table) (key : Key) :
    Option (Nat × Nat) × Wrapper Key Data Table :=
  (w.found google key, w.touch)

/-- `TW_NEW_WALLOC(v, DATA, DATA(dat), this->_alloc);` -/
def newData (w : Wrapper Key Data Table) (dat : Data) : Nat × Wrapper Key Data Table :=
  (w.datas.fresh, { w with datas := w.datas.push dat })

def newKey (w : Wrapper Key Data Table) (key : Key) : Nat × Wrapper Key Data Table :=
  (w.keys.fresh, { w with keys := w.keys.push key })

def deleteData (w : Wrapper Key Data Table) (v : Nat) : Option (Wrapper Key Data Table) :=
  (w.datas.read v).map fun _ => { w with datas := w.datas.giveUp v }

def deleteKey (w : Wrapper Key Data Table) (k : Nat) : Option (Wrapper Key Data Table) :=
  (w.keys.read k).map fun _ => { w with keys := w.keys.giveUp k }

/-- `values[k] = v;` -/
def index (google : GoogleMap Key Table) (w : Wrapper Key Data Table) (k v : Nat) :
    Wrapper Key Data Table :=
  { w.touch with values := google.index w.keys.read w.values k v }

/-- `it->second = v;` -/
def setSecond (google : GoogleMap Key Table) (w : Wrapper Key Data Table) (first v : Nat) :
    Wrapper Key Data Table :=
  { w.touch with values := google.setSecond w.values first v }

def erase (google : GoogleMap Key Table) (w : Wrapper Key Data Table) (first : Nat) :
    Wrapper Key Data Table :=
  { w.touch with values := google.erase w.values first }

def eraseKey (google : GoogleMap Key Table) (w : Wrapper Key Data Table) (key : Key) :
    Wrapper Key Data Table :=
  { w.touch with values := google.eraseKey w.keys.read w.values key }

/-- `values.resize(0);` -/
def compact (google : GoogleMap Key Table) (w : Wrapper Key Data Table) : Wrapper Key Data Table :=
  { w.touch with values := google.resize w.keys.read w.values 0 }

/-- `if(_iterators_out == 0) values.resize(0);` -/
def compactIfFree (google : GoogleMap Key Table) (w : Wrapper Key Data Table) :
    Wrapper Key Data Table :=
  if w.iteratorsOut = 0 then w.compact google else w

end Wrapper

/-! ## The operations -/

section Operations

variable (google : GoogleMap Key Table) (memory : Memory) (w : Wrapper Key Data Table) (key : Key)

/-- `addReplace`, with `olddat` if `old`; a new key is made from `made`. -/
def addReplaceBody (old : Bool) (made : Key) (dat : Data) :
    Option (Wrapper Key Data Table × Answer Data) :=
  let (it, w) := w.acquire.find google key
  if memory.data then
    let (v, w) := w.newData dat
    match it with
    | none =>
        if memory.key then
          let (k, w) := w.newKey made
          some ((w.index google k v).release, .done true none)
        else some (w, .done false none)
    | some (first, second) => do
        let olddat ← if old then (w.touch.datas.read second).map some else some none
        let w ← w.touch.deleteData second
        some ((w.setSecond google first v).release, .done true olddat)
  else some (w, .done false none)

def addReplaceNewBody (blank : Data) : Option (Wrapper Key Data Table × Answer Data) :=
  let w := w.acquire
  if memory.data then
    let (v, w) := w.newData blank
    let (it, w) := w.find google key
    match it with
    | none =>
        if memory.key then
          let (k, w) := w.newKey key
          some ((w.index google k v).release, .pointer (some v))
        else some (w, .pointer none)
    | some (first, second) => do
        let w ← w.touch.deleteData second
        some ((w.setSecond google first v).release, .pointer (some v))
  else some (w, .pointer none)

/-- The DATA and the KEY for a key that the table does not have, and `values[k] = v;`. If an
allocation fails there is no pointer; the DATA is then deleted if `tidy`. -/
def newPair (dat : Data) (tidy : Bool) : Option (Wrapper Key Data Table × Option Nat) :=
  if memory.data then
    let (v, w) := w.newData dat
    if memory.key then
      let (k, w) := w.newKey key
      some (w.index google k v, some v)
    else if tidy then (w.deleteData v).map fun w => (w, none)
    else some (w, none)
  else some (w, none)

def addNoreplaceNewBody (tidy : Bool) (blank : Data) :
    Option (Wrapper Key Data Table × Answer Data) :=
  let (it, w) := w.acquire.find google key
  match it with
  | none => (newPair google memory w key blank tidy).map fun (w, v) =>
      if v.isSome then (w.release, .pointer v) else (w, .pointer none)
  | some _ => some (w.release, .pointer none)

def findOrNewBody (blank : Data) : Option (Wrapper Key Data Table × Answer Data) :=
  let (it, w) := w.acquire.find google key
  match it with
  | none => (newPair google memory w key blank false).map fun (w, v) =>
      if v.isSome then (w.release, .pointer v) else (w, .pointer none)
  | some (_, second) => some (w.touch.release, .pointer (some second))

/-- `stored` is what the DATA of a new key is made from. -/
def addNoreplaceBody (stored : Data) : Option (Wrapper Key Data Table × Answer Data) :=
  let (it, w) := w.acquire.find google key
  match it with
  | none => (newPair google memory w key stored false).map fun (w, v) =>
      if v.isSome then (w.release, .done true none) else (w, .done false none)
  | some _ => some (w.release, .done false none)

/-- `remove( KEY& key, DATA& fill )`; what was removed is deleted behind the lock. -/
def removeFillBody : Option (Wrapper Key Data Table × Answer Data) :=
  let (it, w) := w.acquire.find google key
  match it with
  | none => some (w.release, .done false none)
  | some (first, second) => do
      let fill ← w.touch.datas.read second
      let w := (w.touch.erase google first).compactIfFree google
      let w ← w.release.deleteKey first
      let w ← w.deleteData second
      some (w, .done true (some fill))

def removeBody : Option (Wrapper Key Data Table × Answer Data) :=
  let (it, w) := w.acquire.find google key
  match it with
  | none => some (w.release, .done false none)
  | some (first, second) => do
      let w := w.touch.eraseKey google key
      let w ← w.release.deleteKey first
      let w ← w.deleteData second
      some (w, .done true none)

/-- `find( KEY& key, DATA& fill )` -/
def findFillBody : Option (Wrapper Key Data Table × Answer Data) :=
  let (it, w) := w.find google key
  match it with
  | none => some (w.release, .done false none)
  | some (_, second) => do
      let w := w.touch.release
      let fill ← w.datas.read second
      some (w, .done true (some fill))

def findBody : Option (Wrapper Key Data Table × Answer Data) :=
  let (it, w) := w.find google key
  match it with
  | none => some (w.release, .pointer none)
  | some (_, second) => some (w.touch.release, .pointer (some second))

/-- The loop of `removeAll`. -/
def removeAllPairs : Nat → Wrapper Key Data Table → Option (Wrapper Key Data Table)
  | fuel, w =>
      match google.begin w.values with
      | none => some w.touch
      | some (first, second) =>
          match fuel with
          | 0 => none
          | fuel + 1 => do
              let w ← w.touch.deleteData second
              let w ← (w.erase google first).deleteKey first
              removeAllPairs fuel w

def removeAllBody : Option (Wrapper Key Data Table × Answer Data) := do
  let w := { w.acquire.touch with values := google.setDeletedKey w.values w.deletedkey }
  let w ← removeAllPairs google (google.size w.values) w
  let w := w.compact google
  let w := { w.touch with values := google.eraseAll w.values }
  some (w.release, .done true none)

def sizeBody : Option (Wrapper Key Data Table × Answer Data) :=
  some (w.touch, .count (google.size w.values))

/-- What the constructor of a `HashIterator` calls. -/
def gotoStart : Wrapper Key Data Table :=
  { w.acquire with iteratorsOut := w.iteratorsOut + 1 }.touch.release

def releaseIter : Wrapper Key Data Table :=
  { w.acquire with
    iteratorsOut := if w.iteratorsOut > 0 then w.iteratorsOut - 1 else w.iteratorsOut }.release

end Operations

/-! ## The classes -/

inductive Call (Key Data : Type) where
  | on (op : Op Key Data) (memory : Memory)
  | gotoStart
  | releaseIter

/-- What the texts of the classes do differently: the key that `addReplace` with `olddat` makes for
a new key, the data that `addNoreplace` makes, and whether `addNoreplaceNew` gives back the DATA. -/
structure Variant (Key Data : Type) where
  oldKey : Key → Data → Key
  stored : Data → Data
  tidy : Bool

section Perform

variable (google : GoogleMap Key Table) (blank : Data)

def performBody (variant : Variant Key Data) (memory : Memory) (w : Wrapper Key Data Table) :
    Op Key Data → Option (Wrapper Key Data Table × Answer Data)
  | .addReplace key dat => addReplaceBody google memory w key false key dat
  | .addReplaceOld key dat => addReplaceBody google memory w key true (variant.oldKey key dat) dat
  | .addReplaceNew key => addReplaceNewBody google memory w key blank
  | .addNoreplace key dat => addNoreplaceBody google memory w key (variant.stored dat)
  | .addNoreplaceNew key => addNoreplaceNewBody google memory w key variant.tidy blank
  | .findOrNew key => findOrNewBody google memory w key blank
  | .findFill key => findFillBody google w key
  | .find key => findBody google w key
  | .remove key => removeBody google w key
  | .removeFill key => removeFillBody google w key
  | .removeAll => removeAllBody google w
  | .size => sizeBody google w

/-- A call, with its own log. -/
def callWith (perform : Memory → Wrapper Key Data Table → Op Key Data →
    Option (Wrapper Key Data Table × Answer Data))
    (w : Wrapper Key Data Table) : Call Key Data →
    Option (Wrapper Key Data Table × Option (Answer Data))
  | .on op memory =>
      (perform memory { w with log := [] } op).map fun (w, answer) => (w, some answer)
  | .gotoStart => some (gotoStart { w with log := [] }, none)
  | .releaseIter => some (releaseIter { w with log := [] }, none)

end Perform

namespace TWDenseHash

variable (google : GoogleMap Key Table) (blank : Data) (memory : Memory)
    (w : Wrapper Key Data Table) (key : Key)

def init (deletekey emptykey : Key) (items : Nat) : Wrapper Key Data Table :=
  let values := if items ≠ 0 then google.resize (fun _ => none) google.start items else google.start
  { values := google.setDeletedKey (google.setEmptyKey values 0) 1
    keys := (Store.empty.push emptykey).push deletekey
    datas := Store.empty, deletedkey := 1, iteratorsOut := 0, log := [] }

def addReplace (dat : Data) := addReplaceBody google memory w key false key dat

def addReplaceOld (dat : Data) := addReplaceBody google memory w key true key dat

def addReplaceNew := addReplaceNewBody google memory w key blank

def addNoreplaceNew := addNoreplaceNewBody google memory w key true blank

def findOrNew := findOrNewBody google memory w key blank

/-- `TW_NEW_WALLOC(v, DATA, DATA(), this->_alloc);`: the parameter `dat` is not read. -/
def addNoreplace (_dat : Data) := addNoreplaceBody google memory w key blank

def removeFill : Option (Wrapper Key Data Table × Answer Data) := removeFillBody google w key

def remove : Option (Wrapper Key Data Table × Answer Data) := removeBody google w key

def findFill : Option (Wrapper Key Data Table × Answer Data) := findFillBody google w key

def find : Option (Wrapper Key Data Table × Answer Data) := findBody google w key

def removeAll : Option (Wrapper Key Data Table × Answer Data) := removeAllBody google w

def size : Option (Wrapper Key Data Table × Answer Data) := sizeBody google w

def perform (memory : Memory) (w : Wrapper Key Data Table) :
    Op Key Data → Option (Wrapper Key Data Table × Answer Data)
  | .addReplace key dat => addReplace google memory w key dat
  | .addReplaceOld key dat => addReplaceOld google memory w key dat
  | .addReplaceNew key => addReplaceNew google blank memory w key
  | .addNoreplace key dat => addNoreplace google blank memory w key dat
  | .addNoreplaceNew key => addNoreplaceNew google blank memory w key
  | .findOrNew key => findOrNew google blank memory w key
  | .findFill key => findFill google w key
  | .find key => find google w key
  | .remove key => remove google w key
  | .removeFill key => removeFill google w key
  | .removeAll => removeAll google w
  | .size => size google w

end TWDenseHash

namespace TWSparseHash

variable (google : GoogleMap Key Table) (blank : Data) (memory : Memory)
    (w : Wrapper Key Data Table) (key : Key)

def init (emptykey : Key) (items : Nat) : Wrapper Key Data Table :=
  let values := if items ≠ 0 then google.resize (fun _ => none) google.start items else google.start
  { values := google.setDeletedKey values 0
    keys := Store.empty.push emptykey
    datas := Store.empty, deletedkey := 0, iteratorsOut := 0, log := [] }

def addReplace (dat : Data) := addReplaceBody google memory w key false key dat

/-- `TW_NEW_WALLOC(k, KEY, KEY(dat), this->_alloc);`: `asKey` is the conversion. -/
def addReplaceOld (asKey : Data → Key) (dat : Data) :=
  addReplaceBody google memory w key true (asKey dat) dat

def addReplaceNew := addReplaceNewBody google memory w key blank

def addNoreplaceNew := addNoreplaceNewBody google memory w key false blank

def findOrNew := findOrNewBody google memory w key blank

def addNoreplace (dat : Data) := addNoreplaceBody google memory w key dat

def removeFill : Option (Wrapper Key Data Table × Answer Data) := removeFillBody google w key

def remove : Option (Wrapper Key Data Table × Answer Data) := removeBody google w key

def findFill : Option (Wrapper Key Data Table × Answer Data) := findFillBody google w key

def find : Option (Wrapper Key Data Table × Answer Data) := findBody google w key

def removeAll : Option (Wrapper Key Data Table × Answer Data) := removeAllBody google w

def size : Option (Wrapper Key Data Table × Answer Data) := sizeBody google w

def perform (asKey : Data → Key) (memory : Memory) (w : Wrapper Key Data Table) :
    Op Key Data → Option (Wrapper Key Data Table × Answer Data)
  | .addReplace key dat => addReplace google memory w key dat
  | .addReplaceOld key dat => addReplaceOld google memory w key asKey dat
  | .addReplaceNew key => addReplaceNew google blank memory w key
  | .addNoreplace key dat => addNoreplace google memory w key dat
  | .addNoreplaceNew key => addNoreplaceNew google blank memory w key
  | .findOrNew key => findOrNew google blank memory w key
  | .findFill key => findFill google w key
  | .find key => find google w key
  | .remove key => remove google w key
  | .removeFill key => removeFill google w key
  | .removeAll => removeAll google w
  | .size => size google w

end TWSparseHash

def dense (blank : Data) : Variant Key Data := ⟨fun key _ => key, fun _ => blank, true⟩

def sparse (asKey : Data → Key) : Variant Key Data :=
  ⟨fun _ dat => asKey dat, fun dat => dat, false⟩

theorem dense_perform_eq (google : GoogleMap Key Table) (blank : Data) (memory : Memory)
    (w : Wrapper Key Data Table) (op : Op Key Data) :
    TWDenseHash.perform google blank memory w op = performBody google blank
    (dense blank) memory w op := by
  cases op <;> rfl

theorem sparse_perform_eq (google : GoogleMap Key Table) (blank : Data) (asKey : Data → Key)
    (memory : Memory) (w : Wrapper Key Data Table) (op : Op Key Data) :
    TWSparseHash.perform google blank asKey memory w op =
      performBody google blank (sparse asKey) memory w op := by
  cases op <;> rfl

end TWlib.GoogleHash
