import TWlib.KHashLifetime

/-!
# `TW_StringStringMap`

The map is a `TW_KHash_32` whose keys and values are holders of C strings. The
strings lie on a heap of their own, together with the buffers of the caller;
reading or freeing a string that is not there has no result. A key that goes into
the table is always a deep copy and no pointer to it is given out, so that the
table shows its text. What the base class does with its DATA objects, their copy
constructor, assignment and destructor, is written out for the holders.
-/

namespace TWlib.StringMap

open TWlib.Lib.CellStore TWlib.KHashMap

set_option autoImplicit false

/-- The text before the terminating null character. -/
abbrev CString := { bytes : List UInt8 // (0 : UInt8) ∉ bytes }

structure CStrCont where
  s : Option Nat
  weak : Bool
deriving DecidableEq

namespace CStrCont

def blank : CStrCont := ⟨none, false⟩

/-- The holder that `wrap` makes. -/
def wrap (s : Nat) : CStrCont := ⟨some s, true⟩

def makeWeak (c : CStrCont) : CStrCont := { c with weak := true }

/-- `copyfrom`, as the copy constructor calls it: a deep copy, also of what is weak. -/
def copyfrom (strings : Store CString) (o : CStrCont) : Option (CStrCont × Store CString) :=
  match o.s with
  | some cell =>
      (strings.read cell).map fun text => (⟨some strings.fresh, false⟩, strings.push text)
  | none => some (⟨none, false⟩, strings)

/-- `~CStrCont()` -/
def destroy (strings : Store CString) (c : CStrCont) : Option (Store CString) :=
  match c.s with
  | some cell =>
      if c.weak then some strings else (strings.read cell).map fun _ => strings.giveUp cell
  | none => some strings

/-- `operator=`: what is weak is not copied. -/
def assign (strings : Store CString) (c o : CStrCont) : Option (CStrCont × Store CString) := do
  let strings ← c.destroy strings
  if o.weak then some (⟨o.s, true⟩, strings) else copyfrom strings o

end CStrCont

structure StrMap where
  map : KHash32 CString CStrCont
  strings : Store CString

/-- The value returned, with the pointer that the reference argument was set to; a `char **`, which
points into a holder. -/
inductive StringAnswer where
  | done (ret : Bool) (fill : Option (Option Nat))
  | pointer (ret : Option Nat)
deriving DecidableEq

/-! ## Comparison and hash -/

/-- `StringMap_eqstrP`: holders are compared by their texts. -/
def eqstr (kt1 kt2 : CString) : Bool := kt1 == kt2

def get16bits (d : List UInt8) : BitVec 32 :=
  (d.getD 0 0).toBitVec.setWidth 32 + (d.getD 1 0).toBitVec.setWidth 32 <<< 8

/-- The main loop of `data_hash_Hsieh`, with what is left of the data. -/
def hashWords : Nat → List UInt8 → BitVec 32 → BitVec 32 × List UInt8
  | 0, data, hash => (hash, data)
  | len + 1, data, hash =>
      let hash := hash + get16bits data
      let tmp := get16bits (data.drop 2) <<< 11 ^^^ hash
      let hash := hash <<< 16 ^^^ tmp
      hashWords len (data.drop 4) (hash + hash >>> 11)

/-- The end cases; a `char` is signed. -/
def hashRest (rem : Nat) (data : List UInt8) (hash : BitVec 32) : BitVec 32 :=
  match rem with
  | 3 =>
      let hash := hash + get16bits data
      let hash := hash ^^^ hash <<< 16
      let hash := hash ^^^ (data.getD 2 0).toBitVec.signExtend 32 <<< 18
      hash + hash >>> 11
  | 2 =>
      let hash := hash + get16bits data
      let hash := hash ^^^ hash <<< 11
      hash + hash >>> 17
  | 1 =>
      let hash := hash + (data.getD 0 0).toBitVec.signExtend 32
      let hash := hash ^^^ hash <<< 10
      hash + hash >>> 1
  | _ => hash

def avalanche (hash : BitVec 32) : BitVec 32 :=
  let hash := hash ^^^ hash <<< 3
  let hash := hash + hash >>> 5
  let hash := hash ^^^ hash <<< 4
  let hash := hash + hash >>> 17
  let hash := hash ^^^ hash <<< 25
  hash + hash >>> 6

/-- `data_hash_Hsieh`; the length is cut to an `int`. -/
def dataHashHsieh (data : List UInt8) : BitVec 32 :=
  let len := BitVec.ofNat 32 data.length
  if len.toInt ≤ 0 then 0
  else
    let (hash, rest) := hashWords (len.toNat / 4) data len
    avalanche (hashRest (len.toNat % 4) rest hash)

def khInt64HashFunc (key : BitVec 64) : BitVec 32 := (key >>> 33 ^^^ key ^^^ key <<< 11).setWidth 32

/-- `__hash_func` of a key where a `size_t` has 64 bits. -/
def strHash (v : CString) : BitVec 32 := khInt64HashFunc ((dataHashHsieh v.1).setWidth 64)

section Operations

variable (hash : CString → BitVec 32) (m : StrMap) (key dat : Nat)

/-- The holder in the table for a key, if it is there. -/
def stored (text : CString) : Option (Option CStrCont) := do
  let (_, answer) ← KHashMap.findFillByValue eqstr hash .blank m.map text
  match answer with
  | .done _ fill => some fill
  | _ => none

def destroyOld (strings : Store CString) : Option CStrCont → Option (Store CString)
  | some old => old.destroy strings
  | none => some strings

/-- `oldref = *old;` and then the destructor of `*old`. -/
def handOver (strings : Store CString) : Option CStrCont → Option (CStrCont × Store CString)
  | some old => do
      let (f, strings) ← CStrCont.blank.assign strings old
      let strings ← old.destroy strings
      some (f, strings)
  | none => some (.blank, strings)

def pointerOf : Answer CStrCont → Option (Option Nat)
  | .pointer ret => some ret
  | _ => none

def addReplace : Option (StrMap × StringAnswer) := do
  let l ← m.strings.read key
  let old ← stored hash m l
  let strings ← destroyOld m.strings old
  let (d, strings) ← CStrCont.copyfrom strings (.wrap dat)
  let (map, _) ← KHashMap.addReplaceByValue eqstr hash m.map l d
  some (⟨map, strings⟩, .done true none)

/-- `addReplace( const char *& key, char *& dat, char *& olddat )` -/
def addReplaceOld : Option (StrMap × StringAnswer) := do
  let l ← m.strings.read key
  let found ← stored hash m l
  let (old, strings) ← handOver m.strings found
  let (d, strings) ← CStrCont.copyfrom strings (.wrap dat)
  let (map, _) ← KHashMap.addReplaceOldByValue eqstr hash m.map l d
  some (⟨map, strings⟩, .done true (some old.s))

def addReplaceNew : Option (StrMap × StringAnswer) := do
  let l ← m.strings.read key
  let old ← stored hash m l
  let strings ← destroyOld m.strings old
  let (map, answer) ← KHashMap.addReplaceNew eqstr hash .blank m.map l
  let d ← pointerOf answer
  some (⟨map, strings⟩, .pointer d)

/-- `&(d->s)` is null when `d` is. -/
def addNoreplaceNew : Option (StrMap × StringAnswer) := do
  let l ← m.strings.read key
  let (map, answer) ← KHashMap.addNoreplaceNew eqstr hash .blank m.map l
  let d ← pointerOf answer
  some ({ m with map }, .pointer d)

def findOrNew : Option (StrMap × StringAnswer) := do
  let l ← m.strings.read key
  let (map, answer) ← KHashMap.findOrNew eqstr hash .blank m.map l
  let r ← pointerOf answer
  some ({ m with map }, .pointer r)

def remove : Option (StrMap × StringAnswer) := do
  let l ← m.strings.read key
  let old ← stored hash m l
  let strings ← destroyOld m.strings old
  let (map, _) ← KHashMap.remove eqstr hash m.map l
  some (⟨map, strings⟩, .done old.isSome none)

/-- `remove( const char*& key, char*& fill )` -/
def removeFill : Option (StrMap × StringAnswer) := do
  let l ← m.strings.read key
  let found ← stored hash m l
  let (f, strings) ← handOver m.strings found
  let (map, _) ← KHashMap.removeFillByValue eqstr hash .blank m.map l
  some (⟨map, strings⟩, .done found.isSome (found.map fun _ => f.s))

/-- `find( const char*& key, char*& fill )` -/
def findFill : Option (StrMap × StringAnswer) := do
  let l ← m.strings.read key
  let found ← stored hash m l
  match found with
  | some value => do
      let (f, strings) ← CStrCont.blank.assign m.strings value
      some ({ m with strings }, .done true (some f.s))
  | none => some (m, .done false none)

/-- `char **find( const char*& key )`: `r->makeWeak();` comes before `r` is compared with null. -/
def find : Option (StrMap × StringAnswer) := do
  let l ← m.strings.read key
  let (map, answer) ← KHashMap.find eqstr hash m.map l
  match answer with
  | .pointer (some r) => do
      let c ← map.heap.read r
      some ({ m with map := { map with heap := map.heap.write r c.makeWeak } }, .pointer (some r))
  | _ => none

/-- The destructors of the holders at `cells`. -/
def destroyAll (heap : Store CStrCont) (strings : Store CString) : List Nat → Option (Store CString)
  | [] => some strings
  | d :: ds => do
      let c ← heap.read d
      let strings ← c.destroy strings
      destroyAll heap strings ds

def removeAll : Option (StrMap × StringAnswer) := do
  let visited ← walk m.map
  let strings ← destroyAll m.map.heap m.strings (visited.map Prod.snd)
  let (map, _) ← KHashMap.removeAll m.map
  some (⟨map, strings⟩, .done true none)

end Operations

/-! ## The map and its caller -/

inductive StrOp where
  | addReplace (key dat : Nat)
  | addReplaceOld (key dat : Nat)
  | addReplaceNew (key : Nat)
  | addNoreplaceNew (key : Nat)
  | findOrNew (key : Nat)
  | findFill (key : Nat)
  | find (key : Nat)
  | remove (key : Nat)
  | removeFill (key : Nat)
  | removeAll
deriving DecidableEq

def perform (hash : CString → BitVec 32) (m : StrMap) : StrOp → Option (StrMap × StringAnswer)
  | .addReplace key dat => addReplace hash m key dat
  | .addReplaceOld key dat => addReplaceOld hash m key dat
  | .addReplaceNew key => addReplaceNew hash m key
  | .addNoreplaceNew key => addNoreplaceNew hash m key
  | .findOrNew key => findOrNew hash m key
  | .findFill key => findFill hash m key
  | .find key => find hash m key
  | .remove key => remove hash m key
  | .removeFill key => removeFill hash m key
  | .removeAll => removeAll m

/-- What happens: a call, or the caller makes, overwrites or frees a string of its own. -/
inductive Event where
  | call (op : StrOp)
  | make (text : CString)
  | overwrite (cell : Nat) (text : CString)
  | free (cell : Nat)
deriving DecidableEq

/-- `owned` are the strings of the caller: its buffers and what was handed to it. -/
structure World where
  m : StrMap
  owned : List Nat

def handed : StringAnswer → List Nat
  | .done _ (some (some cell)) => [cell]
  | _ => []

def happen (hash : CString → BitVec 32) (world : World) :
    Event → Option (World × Option StringAnswer)
  | .call op => (perform hash world.m op).map fun (m, answer) =>
      (⟨m, world.owned ++ handed answer⟩, some answer)
  | .make text => some (⟨{ world.m with strings := world.m.strings.push text },
      world.owned ++ [world.m.strings.fresh]⟩, none)
  | .overwrite cell text => (world.m.strings.read cell).map fun _ =>
      (⟨{ world.m with strings := world.m.strings.write cell text }, world.owned⟩, none)
  | .free cell => (world.m.strings.read cell).map fun _ =>
      (⟨{ world.m with strings := world.m.strings.giveUp cell }, world.owned.filter (· ≠ cell)⟩,
        none)

def init (hash : CString → BitVec 32) (items : Int) : Option World :=
  (KHashMap.init hash items).map fun map => ⟨⟨map, Store.empty⟩, []⟩

def happenAll (hash : CString → BitVec 32) (items : Int) (events : List Event) :
    Option (World × Option StringAnswer) := do
  let first ← init hash items
  events.foldlM (fun (world, _) event => happen hash world event) (first, none)

end TWlib.StringMap
