import TWlib.Lib.PackedFlags
import Mathlib.Data.Nat.Log

/-!
# The hash table `kh_A_t` behind `TW_KHash_32`

The functions of the table as the code computes them. A `khint_t` is a natural
number that is cut to 32 bits where the code can overflow. An access outside an
array, and a read of a cell that was never written, have no result; nor has a
loop that runs out of its fuel.
-/

namespace TWlib.KHashTable

open TWlib.Lib.PackedFlags

set_option autoImplicit false

variable {Cell Key : Type}

/-! ## Macros of `khash.h` -/

def khint (value : Nat) : Nat := value % 2 ^ 32

/-- `(i&0xfU)<<1` -/
def pairShift (i : Nat) : Nat := (i &&& 0xf) <<< 1

def acIsempty (flag : List (BitVec 32)) (i : Nat) : Option Bool :=
  flag[i >>> 4]?.map fun word : BitVec 32 => (word >>> pairShift i &&& 2#32) != 0#32

def acIsdel (flag : List (BitVec 32)) (i : Nat) : Option Bool :=
  flag[i >>> 4]?.map fun word : BitVec 32 => (word >>> pairShift i &&& 1#32) != 0#32

def acIseither (flag : List (BitVec 32)) (i : Nat) : Option Bool :=
  flag[i >>> 4]?.map fun word : BitVec 32 => (word >>> pairShift i &&& 3#32) != 0#32

def acSetIsemptyFalse (flag : List (BitVec 32)) (i : Nat) : Option (List (BitVec 32)) :=
  flag[i >>> 4]?.map fun word => flag.set (i >>> 4) (word &&& ~~~(2#32 <<< pairShift i))

def acSetIsbothFalse (flag : List (BitVec 32)) (i : Nat) : Option (List (BitVec 32)) :=
  flag[i >>> 4]?.map fun word => flag.set (i >>> 4) (word &&& ~~~(3#32 <<< pairShift i))

def acSetIsdelTrue (flag : List (BitVec 32)) (i : Nat) : Option (List (BitVec 32)) :=
  flag[i >>> 4]?.map fun word => flag.set (i >>> 4) (word ||| 1#32 <<< pairShift i)

def acInc (k m : Nat) : Nat := ((k >>> 3 ^^^ khint (k <<< 3)) ||| 1) &&& m

def acFsize (m : Nat) : Nat := if m < 16 then 1 else m >>> 4

def kroundup32 (x : Nat) : Nat :=
  let x := khint (x + (2 ^ 32 - 1))
  let x := x ||| x >>> 1
  let x := x ||| x >>> 2
  let x := x ||| x >>> 4
  let x := x ||| x >>> 8
  let x := x ||| x >>> 16
  khint (x + 1)

/-- `(khint_t)(n * __ac_HASH_UPPER + 0.5)`. -/
def acHashUpper (n : Nat) : Nat := (77 * n + 50) / 100

/-! ## Arrays -/

def cellAt (cells : List (Option Cell)) (i : Nat) : Option Cell := cells[i]?.join

def setCell (cells : List (Option Cell)) (i : Nat) (value : Cell) : Option (List (Option Cell)) :=
  if i < cells.length then some (cells.set i (some value)) else none

/-- `realloc`: the cells behind the old end are not written yet. -/
def realloc (cells : List (Option Cell)) (count : Nat) : List (Option Cell) :=
  cells.take count ++ List.replicate (count - cells.length) none

/-! ## The table -/

/-- `kh_A_t`. No flags stand for the null pointer; a value is the number of a cell of the heap. -/
structure KhA (Key : Type) where
  nBuckets : Nat
  size : Nat
  nOccupied : Nat
  upperBound : Nat
  flags : List (BitVec 32)
  keys : List (Option Key)
  vals : List (Option Nat)

def khRealloc (h : KhA Key) (count : Nat) : KhA Key :=
  { h with keys := realloc h.keys count, vals := realloc h.vals count }

def khInit : KhA Key := ⟨0, 0, 0, 0, [], [], []⟩

/-- `memset(flags, 0xaa, ..)` -/
def setFlags (flags : List (BitVec 32)) (words : Nat) : List (BitVec 32) :=
  List.replicate words 0xaaaaaaaa#32 ++ flags.drop words

def khClear (h : KhA Key) : KhA Key :=
  if h.flags = [] then h
  else { h with flags := setFlags h.flags (acFsize h.nBuckets), size := 0, nOccupied := 0 }

section Search

variable (equal : Key → Key → Bool)

/-- `!__ac_isempty(h->flags, i) && (__ac_isdel(h->flags, i) || !__hash_equal(h->keys[i], key))` -/
def probesOn (h : KhA Key) (key : Key) (i : Nat) : Option Bool :=
  (acIsempty h.flags i).bind fun isEmpty =>
    if isEmpty then some false
    else (acIsdel h.flags i).bind fun isDel =>
      if isDel then some true else (cellAt h.keys i).map fun stored => !equal stored key

def khGetFrom (h : KhA Key) (key : Key) (mask inc last : Nat) : Nat → Nat → Option Nat
  | 0, _ => none
  | fuel + 1, i => do
      let on ← probesOn equal h key i
      if on then
        let i := khint (i + inc) &&& mask
        if i = last then some h.nBuckets else khGetFrom h key mask inc last fuel i
      else do
        let either ← acIseither h.flags i
        some (if either then h.nBuckets else i)

def khGet (hash : Key → BitVec 32) (h : KhA Key) (key : Key) : Option Nat :=
  if h.nBuckets = 0 then some 0
  else
    let mask := h.nBuckets - 1
    let k := (hash key).toNat
    let i := k &&& mask
    khGetFrom equal h key mask (acInc k mask) i h.nBuckets i

/-- The loop of `kh_put_A`; the result is `x`, `i` and `site` behind it. -/
def khPutFrom (h : KhA Key) (key : Key) (mask inc last : Nat) :
    Nat → Nat → Nat → Option (Nat × Nat × Nat)
  | 0, _, _ => none
  | fuel + 1, i, site => do
      let on ← probesOn equal h key i
      if on then do
        let isDel ← acIsdel h.flags i
        let site := if isDel then i else site
        let i := khint (i + inc) &&& mask
        if i = last then some (site, i, site) else khPutFrom h key mask inc last fuel i site
      else some (h.nBuckets, i, site)

/-- The bucket `x` that `kh_put_A` decides on. -/
def khPutBucket (hash : Key → BitVec 32) (h : KhA Key) (key : Key) : Option Nat := do
  let mask := h.nBuckets - 1
  let k := (hash key).toNat
  let i := k &&& mask
  let isEmpty ← acIsempty h.flags i
  if isEmpty then some i
  else do
    let (x, i, site) ← khPutFrom equal h key mask (acInc k mask) i h.nBuckets i h.nBuckets
    if x = h.nBuckets then do
      let isEmpty ← acIsempty h.flags i
      some (if isEmpty && site != h.nBuckets then site else i)
    else some x

end Search

/-! ## Rehashing -/

section Rehash

variable (hash : Key → BitVec 32)

/-- `while (!__ac_isempty(new_flags, i)) i = (i + inc) & new_mask;` -/
def khPlaceFrom (newFlags : List (BitVec 32)) (newMask inc : Nat) : Nat → Nat → Option Nat
  | 0, _ => none
  | fuel + 1, i => do
      let isEmpty ← acIsempty newFlags i
      if isEmpty then some i
      else khPlaceFrom newFlags newMask inc fuel (khint (i + inc) &&& newMask)

/-- `i < h->n_buckets && __ac_iseither(h->flags, i) == 0` -/
def khHolds (h : KhA Key) (i : Nat) : Option Bool :=
  if i < h.nBuckets then (acIseither h.flags i).map fun either => !either else some false

/-- The kick-out process for one key and its value. -/
def khKickOut (newMask : Nat) : Nat → KhA Key → List (BitVec 32) → Key → Nat →
    Option (KhA Key × List (BitVec 32))
  | 0, _, _, _, _ => none
  | fuel + 1, h, newFlags, key, val => do
      let k := (hash key).toNat
      let i ← khPlaceFrom newFlags newMask (acInc k newMask) (newMask + 1) (k &&& newMask)
      let newFlags ← acSetIsemptyFalse newFlags i
      let held ← khHolds h i
      if held then do
        let tmpKey ← cellAt h.keys i
        let keys ← setCell h.keys i key
        let tmpVal ← cellAt h.vals i
        let vals ← setCell h.vals i val
        let flags ← acSetIsdelTrue h.flags i
        khKickOut newMask fuel { h with keys, vals, flags } newFlags tmpKey tmpVal
      else do
        let keys ← setCell h.keys i key
        let vals ← setCell h.vals i val
        some ({ h with keys, vals }, newFlags)

/-- The pass over the old buckets. -/
def khRehash (newMask : Nat) : List Nat → KhA Key → List (BitVec 32) →
    Option (KhA Key × List (BitVec 32))
  | [], h, newFlags => some (h, newFlags)
  | j :: js, h, newFlags => do
      let either ← acIseither h.flags j
      if either then khRehash newMask js h newFlags
      else do
        let key ← cellAt h.keys j
        let val ← cellAt h.vals j
        let flags ← acSetIsdelTrue h.flags j
        let (h, newFlags) ← khKickOut hash newMask (h.nBuckets + 1) { h with flags }
          newFlags key val
        khRehash newMask js h newFlags

def khResize (h : KhA Key) (newNBuckets : Nat) : Option (KhA Key) :=
  let newNBuckets := kroundup32 newNBuckets
  let newNBuckets := if newNBuckets < 4 then 4 else newNBuckets
  if h.size ≥ acHashUpper newNBuckets then some h
  else do
    let newFlags := List.replicate (acFsize newNBuckets) 0xaaaaaaaa#32
    let h := if h.nBuckets < newNBuckets then khRealloc h newNBuckets else h
    let (h, newFlags) ← khRehash hash (newNBuckets - 1) (List.range h.nBuckets) h newFlags
    let h := if h.nBuckets > newNBuckets then khRealloc h newNBuckets else h
    some { h with flags := newFlags, nBuckets := newNBuckets, nOccupied := h.size,
                  upperBound := acHashUpper newNBuckets }

end Rehash

/-- The resizing at the start of `kh_put_A`. -/
def khMakeRoom (hash : Key → BitVec 32) (h : KhA Key) : Option (KhA Key) :=
  if h.nOccupied ≥ h.upperBound then
    if h.nBuckets > khint (h.size <<< 1) then khResize hash h (khint (h.nBuckets + (2 ^ 32 - 1)))
    else khResize hash h (khint (h.nBuckets + 1))
  else some h

/-- The rest of `kh_put_A` for the bucket `x`; the second result is `*ret`. -/
def khOccupy (h : KhA Key) (x : Nat) (key : Key) : Option (KhA Key × Nat) := do
  let isEmpty ← acIsempty h.flags x
  if isEmpty then do
    let keys ← setCell h.keys x key
    let flags ← acSetIsbothFalse h.flags x
    some ({ h with keys, flags, size := khint (h.size + 1), nOccupied := khint (h.nOccupied + 1) },
      1)
  else do
    let isDel ← acIsdel h.flags x
    if isDel then do
      let keys ← setCell h.keys x key
      let flags ← acSetIsbothFalse h.flags x
      some ({ h with keys, flags, size := khint (h.size + 1) }, 2)
    else some (h, 0)

/-- `kh_put_A`: the table, the bucket and `*ret`. -/
def khPut (equal : Key → Key → Bool) (hash : Key → BitVec 32) (h : KhA Key) (key : Key) :
    Option (KhA Key × Nat × Nat) := do
  let h ← khMakeRoom hash h
  let x ← khPutBucket equal hash h key
  let (h, ret) ← khOccupy h x key
  some (h, x, ret)

def khDel (h : KhA Key) (x : Nat) : Option (KhA Key) :=
  if x = h.nBuckets then some h
  else do
    let either ← acIseither h.flags x
    if either then some h
    else do
      let flags ← acSetIsdelTrue h.flags x
      some { h with flags, size := khint (h.size + (2 ^ 32 - 1)) }

/-! ## The flags as marks -/

section Flags

variable {flags : List (BitVec 32)} {n i : Nat} {mark : Nat → Mark}

theorem ac_isempty_eq (shows_ : Shows flags n mark) (bound : i < n) :
    acIsempty flags i = some (decide (mark i = .empty)) := by
  rcases shows_word shows_ bound with ⟨word, found, high, low⟩
  rw [acIsempty, word_eq, found, Option.map_some, pairShift, shift_eq, and_two_ne_zero, high]
  cases mark i <;> rfl

theorem ac_isdel_eq (shows_ : Shows flags n mark) (bound : i < n) :
    acIsdel flags i = some (decide (mark i = .deleted)) := by
  rcases shows_word shows_ bound with ⟨word, found, high, low⟩
  rw [acIsdel, word_eq, found, Option.map_some, pairShift, shift_eq, and_one_ne_zero, low]
  cases mark i <;> rfl

theorem ac_iseither_eq (shows_ : Shows flags n mark) (bound : i < n) :
    acIseither flags i = some (decide (mark i ≠ .live)) := by
  rcases shows_word shows_ bound with ⟨word, found, high, low⟩
  rw [acIseither, word_eq, found, Option.map_some, pairShift, shift_eq,
    and_three_ne_zero, high, low]
  cases mark i <;> rfl

theorem ac_set_isdel_true_eq (shows_ : Shows flags n mark) (bound : i < n) (live : mark i = .live) :
    ∃ after, acSetIsdelTrue flags i = some after ∧
    Shows after n (Function.update mark i .deleted) := by
  rcases shows_word shows_ bound with ⟨word, found, high, low⟩
  rw [acSetIsdelTrue, word_eq, found, Option.map_some, pairShift, shift_eq]
  refine ⟨_, rfl, shows_set shows_ found ?_ ?_ ?_⟩
  · rw [BitVec.getLsbD_or, get_one_shifted (by omega), high, live]
    simp [Mark.bits]
  · rw [BitVec.getLsbD_or, get_one_shifted (by omega)]
    simp [Mark.bits]
  · intro j notHigh notLow
    rw [BitVec.getLsbD_or, get_one_shifted (by omega)]
    simp [notLow]

private theorem get_and_not (word cleared : BitVec 32) (j : Nat) :
    (word &&& ~~~cleared).getLsbD j = (word.getLsbD j && !cleared.getLsbD j) := by
  rw [BitVec.getLsbD_and, BitVec.getLsbD_not]
  by_cases inside : j < 32
  · simp [inside]
  · rw [BitVec.getLsbD_of_ge word j (by omega)]
    simp

theorem ac_set_isempty_false_eq (shows_ : Shows flags n mark) (bound : i < n)
    (empty : mark i = .empty) :
    ∃ after, acSetIsemptyFalse flags i = some after ∧
    Shows after n (Function.update mark i .live) := by
  rcases shows_word shows_ bound with ⟨word, found, high, low⟩
  rw [acSetIsemptyFalse, word_eq, found, Option.map_some, pairShift, shift_eq]
  refine ⟨_, rfl, shows_set shows_ found ?_ ?_ ?_⟩
  · rw [get_and_not, get_two_shifted (by omega)]
    simp [Mark.bits]
  · rw [get_and_not, get_two_shifted (by omega), low, empty]
    simp [Mark.bits]
  · intro j notHigh notLow
    rw [get_and_not, get_two_shifted (by omega)]
    simp [notHigh]

theorem ac_set_isboth_false_eq (shows_ : Shows flags n mark) (bound : i < n) :
    ∃ after, acSetIsbothFalse flags i = some after ∧
    Shows after n (Function.update mark i .live) := by
  rcases shows_word shows_ bound with ⟨word, found, high, low⟩
  rw [acSetIsbothFalse, word_eq, found, Option.map_some, pairShift, shift_eq]
  refine ⟨_, rfl, shows_set shows_ found ?_ ?_ ?_⟩
  · rw [get_and_not, get_three_shifted (by omega)]
    simp [Mark.bits]
  · rw [get_and_not, get_three_shifted (by omega)]
    simp [Mark.bits]
  · intro j notHigh notLow
    rw [get_and_not, get_three_shifted (by omega)]
    simp [notHigh, notLow]

/-- The words of `__ac_fsize` hold a pair for every bucket. -/
theorem fsize_enough (m : Nat) : 2 ^ m ≤ 16 * acFsize (2 ^ m) := by
  unfold acFsize
  split_ifs with small
  · omega
  · have large : 4 ≤ m := by
      by_contra below
      have few : 2 ^ m ≤ 2 ^ 3 := Nat.pow_le_pow_right (by decide) (by omega)
      omega
    have whole : 2 ^ m = 16 * 2 ^ (m - 4) := by
      rw [show (16 : Nat) = 2 ^ 4 from rfl, ← Nat.pow_add, Nat.add_sub_cancel' large]
    rw [word_eq, whole]
    omega

end Flags

/-! ## Arithmetic -/

/-- The bits of `z` are those of `y` and of all its shifts by less than `d`. -/
private def Smears (y d z : Nat) : Prop := ∀ j, z.testBit j = true ↔ ∃ e, e < d ∧
    y.testBit (j + e) = true

private theorem smears_step {y d z : Nat} (smears : Smears y d z) :
    Smears y (d + d) (z ||| z >>> d) := by
  intro j
  rw [Nat.testBit_or, Nat.testBit_shiftRight, Bool.or_eq_true, smears j, smears (d + j)]
  constructor
  · rintro (⟨e, below, set⟩ | ⟨e, below, set⟩)
    · exact ⟨e, by omega, set⟩
    · exact ⟨d + e, by omega, by rw [← set]; congr 1; omega⟩
  · rintro ⟨e, below, set⟩
    by_cases low : e < d
    · exact Or.inl ⟨e, low, set⟩
    · exact Or.inr ⟨e - d, by omega, by rw [← set]; congr 1; omega⟩

private theorem smears_all {y z : Nat} (small : y < 2 ^ 32) (positive : y ≠ 0)
    (smears : Smears y 32 z) :
    z = 2 ^ (Nat.log2 y + 1) - 1 := by
  apply Nat.eq_of_testBit_eq
  intro j
  have top : y.testBit (Nat.log2 y) = true := Nat.testBit_log2 positive
  have above : y < 2 ^ (Nat.log2 y + 1) := Nat.lt_log2_self
  have topBound : Nat.log2 y < 32 := (Nat.log2_lt positive).mpr small
  rw [Nat.testBit_two_pow_sub_one, Bool.eq_iff_iff, smears j, decide_eq_true_eq]
  constructor
  · rintro ⟨e, below, set⟩
    by_contra outside
    have large : 2 ^ (Nat.log2 y + 1) ≤ 2 ^ (j + e) := Nat.pow_le_pow_right (by decide) (by omega)
    rw [Nat.testBit_lt_two_pow (by omega)] at set
    cases set
  · intro inside
    exact ⟨Nat.log2 y - j, by omega, by rw [Nat.add_sub_cancel' (by omega)]; exact top⟩

private theorem kroundup32_smears {x : Nat} (positive : khint (x + (2 ^ 32 - 1)) ≠ 0) :
    kroundup32 x = khint (2 ^ (Nat.log2 (khint (x + (2 ^ 32 - 1))) + 1)) := by
  have small : khint (x + (2 ^ 32 - 1)) < 2 ^ 32 := Nat.mod_lt _ (by decide)
  have start : Smears (khint (x + (2 ^ 32 - 1))) 1 (khint (x + (2 ^ 32 - 1))) := by
    intro j
    constructor
    · exact fun set => ⟨0, by omega, set⟩
    · rintro ⟨e, below, set⟩
      rw [show e = 0 by omega] at set
      exact set
  have whole := smears_all small positive
    (smears_step (smears_step (smears_step (smears_step (smears_step start)))))
  have pos : 0 < 2 ^ (Nat.log2 (khint (x + (2 ^ 32 - 1))) + 1) := Nat.two_pow_pos _
  simp only [kroundup32]
  rw [whole, Nat.sub_add_cancel pos]

theorem kroundup32_eq {x : Nat} (positive : 1 ≤ x) (bound : x ≤ 2 ^ 31) :
    ∃ m, m ≤ 31 ∧ kroundup32 x = 2 ^ m ∧ x ≤ 2 ^ m := by
  have before : khint (x + (2 ^ 32 - 1)) = x - 1 := by
    unfold khint
    omega
  by_cases one : x = 1
  · subst one
    exact ⟨0, by omega, by decide, by omega⟩
  · have above : x - 1 < 2 ^ (Nat.log2 (x - 1) + 1) := Nat.lt_log2_self
    have topBound : Nat.log2 (x - 1) < 31 := (Nat.log2_lt (by omega)).mpr (by omega)
    have fits : 2 ^ (Nat.log2 (x - 1) + 1) ≤ 2 ^ 31 := Nat.pow_le_pow_right (by decide) (by omega)
    refine ⟨Nat.log2 (x - 1) + 1, by omega, ?_, by omega⟩
    rw [kroundup32_smears (by omega), before, khint, Nat.mod_eq_of_lt (by omega)]

/-- Beyond `2 ^ 31` the power of two does not fit. -/
theorem kroundup32_large {x : Nat} (large : 2 ^ 31 ≤ khint (x + (2 ^ 32 - 1))) :
    kroundup32 x = 0 := by
  have small : khint (x + (2 ^ 32 - 1)) < 2 ^ 32 := Nat.mod_lt _ (by decide)
  have top : Nat.log2 (khint (x + (2 ^ 32 - 1))) = 31 := by
    have upper := (Nat.log2_lt (n := khint (x + (2 ^ 32 - 1))) (by omega)).mpr small
    have lower := (Nat.le_log2 (n := khint (x + (2 ^ 32 - 1))) (by omega)).mpr large
    omega
  rw [kroundup32_smears (by omega), top]
  rfl

theorem kroundup32_congr {x y : Nat} (same : khint (x + (2 ^ 32 - 1)) = khint (y + (2 ^ 32 - 1))) :
    kroundup32 x = kroundup32 y := by
  simp only [kroundup32, same]

/-- The increment is odd, so that the probes reach every bucket. -/
theorem ac_inc_odd (k : Nat) {m : Nat} (positive : 0 < m) : acInc k (2 ^ m - 1) % 2 = 1 := by
  unfold acInc
  rw [Nat.and_two_pow_sub_one_eq_mod, Nat.mod_mod_of_dvd _ (dvd_pow_self 2 (by omega))]
  rw [Nat.mod_two_eq_one_iff_testBit_zero, Nat.testBit_or]
  simp

end TWlib.KHashTable
