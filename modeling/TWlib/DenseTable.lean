import TWlib.Lib.OpenAddressing

/-!
# The hash table `dense_hashtable` behind `dense_hash_map`

The functions of the table as the code computes them, with quadratic probing and
the resizing parameters that nobody changes. A bucket is marked empty or deleted
by the key in it. A `size_type` is cut to 64 bits where the code can overflow,
and `ILLEGAL_BUCKET` is `none`. An assertion that fails, a `length_error` and an
access outside the array have no result; nor has a loop that runs out of its fuel.
-/

namespace TWlib.DenseTable

set_option autoImplicit false

def sizeType (value : Nat) : Nat := value % 2 ^ 64

/-! ## `sh_hashtable_settings` -/

def htMinBuckets : Nat := 4

def htDefaultStartingBuckets : Nat := 32

/-- `x * enlarge_factor_` with the factor `0.5f`; for the powers of two that come here it is
exact. -/
def enlargeSize (x : Nat) : Nat := x / 2

/-- `0.2f` is `13421773 / 2 ^ 26`. -/
def shrinkSize (x : Nat) : Nat := x * 13421773 / 2 ^ 26

/-- The `float` next to a `size_type`, ties to even. -/
def toFloat (x : Nat) : Nat :=
  if x < 2 ^ 24 then x
  else
    let unit := 2 ^ (Nat.log2 x - 23)
    let up := unit < 2 * (x % unit) ∨ unit = 2 * (x % unit) ∧ x / unit % 2 = 1
    (if up then x / unit + 1 else x / unit) * unit

/-- `num_remain < sz * shrink_factor` -/
def belowShrink (numRemain sz : Nat) : Bool := toFloat numRemain * 2 ^ 26 < sz * 13421773

/-- The loop of `min_buckets`. -/
def minBucketsFrom (numElts minBucketsWanted : Nat) : Nat → Nat → Option Nat
  | 0, _ => none
  | fuel + 1, sz =>
      if sz < minBucketsWanted ∨ enlargeSize sz ≤ numElts then
        if sizeType (sz * 2) < sz then none
        else minBucketsFrom numElts minBucketsWanted fuel (sizeType (sz * 2))
      else some sz

def minBuckets (numElts minBucketsWanted : Nat) : Option Nat :=
  minBucketsFrom numElts minBucketsWanted 64 htMinBuckets

structure Settings where
  enlargeThreshold : Nat
  shrinkThreshold : Nat
  considerShrink : Bool
  useEmpty : Bool
  useDeleted : Bool
deriving DecidableEq

def Settings.resetThresholds (settings : Settings) (numBuckets : Nat) : Settings :=
  { settings with
    enlargeThreshold := enlargeSize numBuckets
    shrinkThreshold := shrinkSize numBuckets
    considerShrink := false }

/-! ## The table -/

/-- `emptyval` and `delkey` count when `useEmpty` and `useDeleted` say so; no array stands for the
null pointer. -/
structure DenseHashtable (Key T : Type) where
  settings : Settings
  delkey : Option Key
  numDeleted : Nat
  numElements : Nat
  numBuckets : Nat
  emptyval : Key × T
  table : Option (List (Key × T))
deriving DecidableEq

variable {Key T : Type}

namespace DenseHashtable

def size (h : DenseHashtable Key T) : Nat := h.numElements - h.numDeleted

/-- `static_cast<size_type>(-1) / sizeof(value_type)`; a value is a pair of pointers. -/
def maxSize : Nat := (2 ^ 64 - 1) / 16

def cell (h : DenseHashtable Key T) (i : Nat) : Option (Key × T) := h.table.bind (·[i]?)

/-- `set_value(&table[i], src);` -/
def setValue (h : DenseHashtable Key T) (i : Nat) (src : Key × T) : Option (DenseHashtable Key T) :=
  h.table.bind fun cells => if i < cells.length then some { h with table := some (cells.set i src) }
    else none

section Tests

variable (equal : Key → Key → Bool)

def testEmpty (h : DenseHashtable Key T) (bucknum : Nat) : Option Bool :=
  if h.settings.useEmpty then (h.cell bucknum).map fun value => equal h.emptyval.1 value.1 else none

def testDeletedKey (h : DenseHashtable Key T) (key : Key) : Option Bool :=
  if h.settings.useDeleted ∨ h.numDeleted = 0 then
    if 0 < h.numDeleted then h.delkey.map (equal · key) else some false
  else none

def testDeleted (h : DenseHashtable Key T) (bucknum : Nat) : Option Bool :=
  (h.cell bucknum).bind fun value => h.testDeletedKey equal value.1

/-- The assertions about a key that is inserted or erased. -/
def usableKey (h : DenseHashtable Key T) (key : Key) : Option Unit :=
  if (!h.settings.useEmpty || !equal key h.emptyval.1) &&
      (!h.settings.useDeleted || !h.delkey.any (equal key ·)) then some () else none

/-- `while ( pos != end && (ht->test_empty(*this) || ht->test_deleted(*this)) ) ++pos;` -/
def advancePastEmptyAndDeleted (h : DenseHashtable Key T) : Nat → Nat → Option Nat
  | 0, pos => some pos
  | left + 1, pos => do
      let isEmpty ← h.testEmpty equal pos
      let dead ← if isEmpty then some true else h.testDeleted equal pos
      if dead then advancePastEmptyAndDeleted h left (pos + 1) else some pos

/-- An iterator is known by its position; `end()` is the number of buckets. -/
def begin (h : DenseHashtable Key T) : Option Nat :=
  h.advancePastEmptyAndDeleted equal h.numBuckets 0

/-- `operator++` -/
def following (h : DenseHashtable Key T) (pos : Nat) : Option Nat :=
  if pos < h.numBuckets then
    h.advancePastEmptyAndDeleted equal (h.numBuckets - (pos + 1)) (pos + 1)
  else none

end Tests

/-! ## Looking for a place -/

section Search

variable (equal : Key → Key → Bool) (hash : Key → BitVec 64)

/-- `hash(key) & bucket_count_minus_one` -/
def firstBucket (h : DenseHashtable Key T) (key : Key) : Nat :=
  (hash key).toNat &&& (h.numBuckets - 1)

/-- `(bucknum + JUMP_(key, num_probes)) & bucket_count_minus_one` -/
def nextBucket (h : DenseHashtable Key T) (bucknum numProbes : Nat) : Nat :=
  sizeType (bucknum + numProbes) &&& (h.numBuckets - 1)

/-- The loop of `find_position`. -/
def findPositionFrom (h : DenseHashtable Key T) (key : Key) :
    Nat → Nat → Nat → Option Nat → Option (Option Nat × Option Nat)
  | 0, _, _, _ => none
  | fuel + 1, numProbes, bucknum, insertPos => do
      let isEmpty ← h.testEmpty equal bucknum
      if isEmpty then some (none, some (insertPos.getD bucknum))
      else
        let isDeleted ← h.testDeleted equal bucknum
        let value ← h.cell bucknum
        if !isDeleted && equal key value.1 then some (some bucknum, none)
        else
          let insertPos := if isDeleted then some (insertPos.getD bucknum) else insertPos
          let numProbes := numProbes + 1
          let bucknum := h.nextBucket bucknum numProbes
          if numProbes < h.numBuckets then findPositionFrom h key fuel numProbes bucknum insertPos
            else none

def findPosition (h : DenseHashtable Key T) (key : Key) : Option (Option Nat × Option Nat) :=
  h.findPositionFrom equal key h.numBuckets 0 (h.firstBucket hash key) none

def find (h : DenseHashtable Key T) (key : Key) : Option Nat :=
  if h.size = 0 then some h.numBuckets
  else (h.findPosition equal hash key).map fun pos => pos.1.getD h.numBuckets

def count (h : DenseHashtable Key T) (key : Key) : Option Nat :=
  (h.findPosition equal hash key).map fun pos => if pos.1.isSome then 1 else 0

/-- The bucket a key is in, or where it would be put. -/
def bucket (h : DenseHashtable Key T) (key : Key) : Option Nat :=
  (h.findPosition equal hash key).bind fun pos => pos.1.or pos.2

end Search

/-! ## Sizes -/

/-- `explicit dense_hashtable(size_type expected_max_items_in_table)`; `null` is what `emptyval`
starts as. -/
def construct (null : Key × T) (expectedMaxItems : Nat) : Option (DenseHashtable Key T) := do
  let numBuckets ← if expectedMaxItems = 0 then some htDefaultStartingBuckets
    else minBuckets expectedMaxItems 0
  some {
    settings := Settings.resetThresholds ⟨0, 0, false, false, false⟩ numBuckets
    delkey := none, numDeleted := 0, numElements := 0, numBuckets := numBuckets, emptyval :=
    null, table := none }

def resetThresholds (h : DenseHashtable Key T) : DenseHashtable Key T :=
  { h with settings := h.settings.resetThresholds h.numBuckets }

def clearToSize (h : DenseHashtable Key T) (newNumBuckets : Nat) : DenseHashtable Key T :=
  resetThresholds { h with
    table := some (List.replicate newNumBuckets h.emptyval), numElements := 0, numDeleted := 0
    numBuckets := newNumBuckets }

section Copies

variable (equal : Key → Key → Bool) (hash : Key → BitVec 64)

/-- The probes of `copy_from` for one value. -/
def emptyBucketFrom (h : DenseHashtable Key T) : Nat → Nat → Nat → Option Nat
  | 0, _, _ => none
  | fuel + 1, numProbes, bucknum => do
      let isEmpty ← h.testEmpty equal bucknum
      if isEmpty then some bucknum
      else
        let numProbes := numProbes + 1
        if numProbes < h.numBuckets then
          emptyBucketFrom h fuel numProbes (h.nextBucket bucknum numProbes)
        else none

def copyValue (h : DenseHashtable Key T) (value : Key × T) : Option (DenseHashtable Key T) := do
  let bucknum ← h.emptyBucketFrom equal h.numBuckets 0 (h.firstBucket hash value.1)
  let h ← h.setValue bucknum value
  some { h with numElements := h.numElements + 1 }

/-- `for ( const_iterator it = ht.begin(); it != ht.end(); ++it )` -/
def copyAll (ht : DenseHashtable Key T) : Nat → Nat → DenseHashtable Key T →
    Option (DenseHashtable Key T)
  | 0, _, _ => none
  | fuel + 1, it, h =>
      if it = ht.numBuckets then some h
      else do
        let value ← ht.cell it
        let h ← h.copyValue equal hash value
        let it ← ht.following equal it
        copyAll ht fuel it h

def copyFrom (h ht : DenseHashtable Key T) (minBucketsWanted : Nat) :
    Option (DenseHashtable Key T) := do
  let newNumBuckets ← minBuckets ht.size minBucketsWanted
  let h := h.clearToSize newNumBuckets
  if h.numBuckets &&& (h.numBuckets - 1) = 0 then
    let it ← ht.begin equal
    copyAll equal hash ht (ht.numBuckets + 1) it h
  else none

/-- `dense_hashtable(const dense_hashtable& ht, size_type min_buckets_wanted)` -/
def copy (ht : DenseHashtable Key T) (minBucketsWanted : Nat) : Option (DenseHashtable Key T) :=
  let h : DenseHashtable Key T :=
    { ht with numDeleted := 0, numElements := 0, numBuckets := 0, table := none }
  if ht.settings.useEmpty then h.resetThresholds.copyFrom equal hash ht minBucketsWanted
  else if ht.size = 0 then do
    let numBuckets ← minBuckets ht.size minBucketsWanted
    some { h with numBuckets := numBuckets }.resetThresholds
  else none

/-- `dense_hashtable tmp(*this, min_buckets_wanted); swap(tmp);` -/
def rebuild (h : DenseHashtable Key T) (minBucketsWanted : Nat) : Option (DenseHashtable Key T) :=
  (h.copy equal hash minBucketsWanted).map resetThresholds

def squashDeleted (h : DenseHashtable Key T) : Option (DenseHashtable Key T) :=
  if h.numDeleted = 0 then some h else h.rebuild equal hash htDefaultStartingBuckets

/-- `while (sz > HT_DEFAULT_STARTING_BUCKETS && num_remain < sz * shrink_factor) sz /= 2;` -/
def shrinkTo (numRemain : Nat) : Nat → Nat → Nat
  | 0, sz => sz
  | fuel + 1, sz =>
      if htDefaultStartingBuckets < sz && belowShrink numRemain sz then
        shrinkTo numRemain fuel (sz / 2)
      else sz

/-- The answer is whether the table shrunk. -/
def maybeShrink (h : DenseHashtable Key T) : Option (DenseHashtable Key T × Bool) :=
  if h.numDeleted ≤ h.numElements ∧ h.numBuckets &&& (h.numBuckets - 1) = 0 ∧
      htMinBuckets ≤ h.numBuckets then
    let numRemain := h.numElements - h.numDeleted
    let shrinkThreshold := h.settings.shrinkThreshold
    if 0 < shrinkThreshold ∧ numRemain < shrinkThreshold ∧
        htDefaultStartingBuckets < h.numBuckets then do
      let h ← h.rebuild equal hash (shrinkTo numRemain 64 (h.numBuckets / 2))
      some ({ h with settings.considerShrink := false }, true)
    else some ({ h with settings.considerShrink := false }, false)
  else none

/-- The size that `resize_delta` goes to when `needed_size` buckets are not there. -/
def resizeTo (h : DenseHashtable Key T) (delta neededSize : Nat) : Option Nat :=
  (minBuckets (h.numElements - h.numDeleted + delta) h.numBuckets).map fun resizeTo =>
    if resizeTo < neededSize ∧ resizeTo < (2 ^ 64 - 1) / 2 ∧
        shrinkSize (resizeTo * 2) ≤ h.numElements - h.numDeleted + delta then resizeTo * 2
        else resizeTo

/-- `resize_delta` behind its first paragraph. -/
def enlarge (h : DenseHashtable Key T) (didResize : Bool) (delta : Nat) :
    Option (DenseHashtable Key T × Bool) :=
  if 2 ^ 64 - 1 - delta ≤ h.numElements then none
  else if htMinBuckets ≤ h.numBuckets ∧ h.numElements + delta ≤
    h.settings.enlargeThreshold then some (h, didResize)
  else do
    let neededSize ← minBuckets (h.numElements + delta) 0
    if neededSize ≤ h.numBuckets then some (h, didResize)
    else
      let resizeTo ← h.resizeTo delta neededSize
      let h ← h.rebuild equal hash resizeTo
      some (h, true)

def resizeDelta (h : DenseHashtable Key T) (delta : Nat) :
    Option (DenseHashtable Key T × Bool) := do
  let (h, didResize) ← if h.settings.considerShrink then h.maybeShrink equal hash
    else some (h, false)
  h.enlarge equal hash didResize delta

def resize (h : DenseHashtable Key T) (reqElements : Nat) : Option (DenseHashtable Key T) := do
  let h ← if h.settings.considerShrink ∨
    reqElements = 0 then (h.maybeShrink equal hash).map Prod.fst else some h
  if h.numElements < reqElements then
    (h.resizeDelta equal hash (reqElements - h.numElements)).map Prod.fst
  else some h

end Copies

/-! ## The reserved keys -/

section Reserved

variable (equal : Key → Key → Bool) (hash : Key → BitVec 64)

def setEmptyKey (h : DenseHashtable Key T) (val : Key × T) : Option (DenseHashtable Key T) :=
  if h.settings.useEmpty = false ∧ (h.settings.useDeleted = true →
      h.delkey.any (equal val.1 ·) = false) ∧
      h.table = none then
    some { h with
      settings.useEmpty := true, emptyval := val, table := some (List.replicate h.numBuckets val) }
  else none

def setDeletedKey (h : DenseHashtable Key T) (key : Key) : Option (DenseHashtable Key T) :=
  if !h.settings.useEmpty || !equal key h.emptyval.1 then
    (h.squashDeleted equal hash).map fun h =>
      { h with settings.useDeleted := true, delkey := some key }
  else none

def clearDeletedKey (h : DenseHashtable Key T) : Option (DenseHashtable Key T) :=
  (h.squashDeleted equal hash).map fun h => { h with settings.useDeleted := false }

end Reserved

/-! ## Changes -/

section Changes

variable (equal : Key → Key → Bool) (hash : Key → BitVec 64) (blank : T)

def clear (h : DenseHashtable Key T) : Option (DenseHashtable Key T) :=
  (minBuckets 0 0).map fun newNumBuckets =>
    if h.numElements = 0 ∧ newNumBuckets = h.numBuckets then h else h.clearToSize newNumBuckets

def clearNoResize (h : DenseHashtable Key T) : Option (DenseHashtable Key T) :=
  if 0 < h.numElements ∧ h.table = none then none
  else
    let table := if 0 < h.numElements then some (List.replicate h.numBuckets h.emptyval)
      else h.table
    let h := resetThresholds { h with table := table }
    some { h with numElements := 0, numDeleted := 0 }

def insertAt (h : DenseHashtable Key T) (obj : Key × T) (pos : Nat) :
    Option (DenseHashtable Key T) :=
  if maxSize ≤ h.size then none
  else do
    let isDeleted ← h.testDeleted equal pos
    if isDeleted then
      if h.settings.useDeleted ∧ 0 < h.numDeleted then
        let h := { h with numDeleted := h.numDeleted - 1 }
        h.setValue pos obj
      else none
    else
      let h := { h with numElements := h.numElements + 1 }
      h.setValue pos obj

/-- The position of the value with the key of `obj`, and whether it was inserted. -/
def insertNoresize (h : DenseHashtable Key T) (obj : Key × T) :
    Option (DenseHashtable Key T × Nat × Bool) := do
  h.usableKey equal obj.1
  match ← h.findPosition equal hash obj.1 with
  | (some pos, _) => some (h, pos, false)
  | (none, some pos) => (h.insertAt equal obj pos).map fun h => (h, pos, true)
  | (none, none) => none

/-- The pair is not one of the table: it is read after the table has been copied into a larger
one. -/
def insert (h : DenseHashtable Key T) (obj : Key × T) :
    Option (DenseHashtable Key T × Nat × Bool) := do
  let (h, _) ← h.resizeDelta equal hash 1
  h.insertNoresize equal hash obj

/-- The position of the value that is found or inserted. -/
def findOrInsert (h : DenseHashtable Key T) (key : Key) : Option (DenseHashtable Key T × Nat) := do
  h.usableKey equal key
  match ← h.findPosition equal hash key with
  | (some pos, _) => some (h, pos)
  | (none, pos) => do
      let (h, didResize) ← h.resizeDelta equal hash 1
      if didResize then (h.insertNoresize equal hash (key, blank)).map fun (h, pos, _) => (h, pos)
      else pos.bind fun pos => (h.insertAt equal (key, blank) pos).map fun h => (h, pos)

/-- `set_deleted(it)` with the counting behind it; `SetKey` also clears what the key leads to. -/
def eraseAt (h : DenseHashtable Key T) (pos : Nat) : Option (DenseHashtable Key T) :=
  if pos = h.numBuckets then some h
  else if h.settings.useDeleted then do
    let was ← h.testDeleted equal pos
    let delkey ← h.delkey
    let h ← h.setValue pos (delkey, blank)
    some (if was then h else
      { h with numDeleted := h.numDeleted + 1, settings.considerShrink := true })
  else none

/-- `size_type erase(const key_type& key)` -/
def erase (h : DenseHashtable Key T) (key : Key) : Option (DenseHashtable Key T × Nat) := do
  h.usableKey equal key
  let pos ← h.find equal hash key
  if pos = h.numBuckets then some (h, 0)
  else do
    let isDeleted ← h.testDeleted equal pos
    if isDeleted then none else (h.eraseAt equal blank pos).map fun h => (h, 1)

/-- `void erase(iterator f, iterator l)` -/
def eraseRange : Nat → DenseHashtable Key T → Nat → Nat → Option (DenseHashtable Key T)
  | 0, _, _, _ => none
  | fuel + 1, h, f, l =>
      if f = l then some { h with settings.considerShrink := true }
      else if h.settings.useDeleted then do
        let was ← h.testDeleted equal f
        let delkey ← h.delkey
        let h ← h.setValue f (delkey, blank)
        let h := if was then h else { h with numDeleted := h.numDeleted + 1 }
        let f ← h.following equal f
        eraseRange fuel h f l
      else none

end Changes

end DenseHashtable

end TWlib.DenseTable
