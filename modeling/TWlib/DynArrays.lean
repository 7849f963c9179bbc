import Mathlib.Algebra.Order.Ring.Int
import Mathlib.Logic.Function.Basic
import TWlib.Lib.ElementBlocks
import TWlib.Lib.MachineInt

/-!
# The dynamic array

The functions of `DynArray` on arrays whose blocks are allocated in one place. `width` is
`sizeof(T)` and `zero` the element whose bytes are zero. An argument that is an array is given by
its number, and each function reads its fields where the code reads them, so that it may be the
array itself. The allocators of all arrays are of the one class, and are left out.
-/

namespace TWlib.DynArrays

open TWlib.Lib.CellStore TWlib.Lib.ElementBlocks TWlib.Lib.MachineInt

set_option autoImplicit false

structure DynArray where
  array : Option Nat
  size : Int
deriving DecidableEq

structure World (Item : Type*) where
  arrays : Nat → DynArray
  blocks : Blocks Item

variable {Item : Type*}

namespace World

/-- `DynArray(ALLOC *a = NULL)`, for all of them. -/
def new : World Item := ⟨fun _ => ⟨none, 0⟩, Store.empty⟩

def setSize (world : World Item) (a : Nat) (size : Int) : World Item :=
  { world with arrays := Function.update world.arrays a { world.arrays a with size } }

def setArray (world : World Item) (a : Nat) (array : Option Nat) (blocks : Blocks Item) :
    World Item :=
  ⟨Function.update world.arrays a { world.arrays a with array }, blocks⟩

end World

/-- `sizeof(T) * _size`, passed as a `tw_size`, which is an `int`. -/
def request (width : Nat) (size : Int) : Int := asInt (width * size)

def setup (width : Nat) (world : World Item) (a : Nat) : Except Fault (World Item) := do
  let (blocks, array) ← malloc width (request width (world.arrays a).size) world.blocks
  .ok (world.setArray a array blocks)

/-- What `val` is filled with is `none` when false is returned. -/
def get (world : World Item) (a : Nat) (loc : Int) : Except Fault (Option (Option Item)) :=
  if loc < (world.arrays a).size then (load world.blocks (world.arrays a).array loc).map some
  else .ok none

def put (world : World Item) (a : Nat) (loc : Int) (val : Item) :
    Except Fault (World Item × Bool) :=
  if loc < (world.arrays a).size then
    (store world.blocks (world.arrays a).array loc val).map fun blocks =>
      ({ world with blocks }, true)
  else .ok (world, false)

/-- The argument is not changed, and `put` has a copy of it. -/
def putByRef (world : World Item) (a : Nat) (loc : Int) (val : Item) :
    Except Fault (World Item × Bool) :=
  put world a loc val

def resize (width : Nat) (zero : Item) (world : World Item) (a : Nat) (size : Int)
    (zeroout : Bool) :
    Except Fault (World Item) := do
  let olds := (world.arrays a).size
  let world := world.setSize a size
  let (blocks, array) ← realloc width (request width (world.arrays a).size) world.blocks
    (world.arrays a).array
  let world := world.setArray a array blocks
  if olds < (world.arrays a).size ∧ zeroout then
    let blocks ← memset world.blocks (world.arrays a).array olds zero
      ((world.arrays a).size - olds).toNat
    .ok { world with blocks }
  else .ok world

def addToEnd (width : Nat) (zero : Item) (world : World Item) (a : Nat) (val : Item) :
    Except Fault (World Item) := do
  let world := world.setSize a ((world.arrays a).size + 1)
  let world ← resize width zero world a (world.arrays a).size false
  let blocks ← store world.blocks (world.arrays a).array ((world.arrays a).size - 1) val
  .ok { world with blocks }

def addArrayToEnd (width : Nat) (zero : Item) (world : World Item) (a o : Nat) :
    Except Fault (World Item) :=
  if 0 < (world.arrays o).size then do
    let olds := (world.arrays a).size
    let world := world.setSize a ((world.arrays a).size + (world.arrays o).size)
    let world ← resize width zero world a (world.arrays a).size false
    let blocks ← memcpy world.blocks (world.arrays a).array olds (world.arrays o).array 0
      (world.arrays o).size
    .ok { world with blocks }
  else .ok world

def insert (width : Nat) (zero : Item) (world : World Item) (a : Nat) (loc : Int) (o : Nat) :
    Except Fault (World Item) :=
  if 0 < (world.arrays o).size then do
    let olds := (world.arrays a).size
    let world := world.setSize a ((world.arrays a).size + (world.arrays o).size)
    let world ← resize width zero world a (world.arrays a).size false
    let blocks ← memmove world.blocks (world.arrays a).array (loc + (world.arrays o).size)
      (world.arrays a).array loc (olds - loc)
    let blocks ← memcpy blocks (world.arrays a).array loc (world.arrays o).array 0
      (world.arrays o).size
    .ok { world with blocks }
  else .ok world

/-- `operator=`. -/
def assign (width : Nat) (world : World Item) (a o : Nat) : Except Fault (World Item) := do
  let blocks ← free world.blocks (world.arrays a).array
  let world := ({ world with blocks } : World Item).setSize a (world.arrays o).size
  let world ← setup width world a
  let blocks ← memcpy world.blocks (world.arrays a).array 0 (world.arrays o).array 0
    (world.arrays o).size
  .ok { world with blocks }

/-! ## What becomes of an array -/

/-- The array `a` holds `seq` after the step, and nothing else that was there has changed. -/
structure Becomes (world next : World Item) (a : Nat) (seq : List (Option Item)) : Prop where
  others : ∀ b, b ≠ a → next.arrays b = world.arrays b
  size : (next.arrays a).size = seq.length
  holds : contents next.blocks (next.arrays a).array = some seq
  own : ∀ block, (next.arrays a).array = some block →
    (world.arrays a).array = some block ∨ world.blocks.fresh ≤ block
  kept : KeepsBut world.blocks next.blocks (world.arrays a).array

variable {width : Nat} {world next : World Item} {a o : Nat} {seq other : List (Option Item)}

theorem keeps_but_trans {first middle last : Blocks Item} {array : Option Nat} {new : Nat}
    (before : KeepsBut first middle array) (behind : KeepsBut middle last (some new))
    (fresh : first.fresh ≤ new) :
    KeepsBut first last array := by
  intro block content present different
  apply behind block content (before block content present different)
  intro same
  cases same
  exact absurd (read_bound present) (Nat.not_lt.mpr fresh)

theorem request_fits {size : Nat} (fits : width * size < 2 ^ 31) :
    request width size = ((width * size : Nat) : Int) := by
  rw [request, ← Int.natCast_mul]
  apply as_int_of_bounds
  · omega
  · simp only [intMax]
    omega

theorem request_room {size : Nat} (positive : 0 < width) (fits : width * size < 2 ^ 31) :
    (request width size).toNat / width = size := by
  rw [request_fits fits, Int.toNat_natCast, Nat.mul_div_cancel_left _ positive]

/-- The new size is set already, or not: the block is what it was, resized. -/
theorem realloc_resized {array : Option Nat} {blocks : Blocks Item} {size : Nat}
    (holds : contents blocks array = some seq) (positive : 0 < width)
    (fits : width * size < 2 ^ 31) :
    ∃ after, realloc width (request width size) blocks array = .ok (after, some blocks.fresh) ∧
      after.read blocks.fresh = some (resized size seq) ∧ KeepsBut blocks after array := by
  have asked : 0 ≤ request width size := by
    rw [request_fits fits]
    exact Int.natCast_nonneg _
  rcases realloc_eq width holds asked with ⟨after, ran, reads, keeps⟩
  rw [request_room positive fits] at reads
  exact ⟨after, ran, reads, keeps⟩

structure Grown (world next : World Item) (a : Nat) (size : Nat) (seq : List (Option Item)) :
    Prop where
  arrays : next.arrays = Function.update world.arrays a ⟨some world.blocks.fresh, size⟩
  reads : next.blocks.read world.blocks.fresh = some seq
  kept : KeepsBut world.blocks next.blocks (world.arrays a).array

theorem set_size_same (world : World Item) (a : Nat) (size : Int) :
    ((world.setSize a size).arrays a).size = size := by
  simp only [World.setSize, Function.update_self]

theorem grown_here {size : Nat} (grown : Grown world next a size seq) :
    next.arrays a = ⟨some world.blocks.fresh, size⟩ := by
  rw [grown.arrays, Function.update_self]

theorem grown_there {size : Nat} (grown : Grown world next a size seq) (different : o ≠ a) :
    next.arrays o = world.arrays o := by
  rw [grown.arrays, Function.update_of_ne different]

theorem grown_becomes (grown : Grown world next a seq.length seq) : Becomes world next a seq where
  others _ different := grown_there grown different
  size := by rw [grown_here grown]
  holds := by
    rw [grown_here grown]
    exact grown.reads
  own := by
    rw [grown_here grown]
    intro block same
    cases same
    exact .inr (Nat.le_refl _)
  kept := grown.kept

theorem resize_plain (zero : Item) {size : Nat}
    (holds : contents world.blocks (world.arrays a).array = some seq) (positive : 0 < width)
    (fits : width * size < 2 ^ 31) (zeroout : Bool)
    (plain : ¬ ((world.arrays a).size < size ∧ zeroout = true)) :
    ∃ next, resize width zero world a size zeroout = .ok next ∧
    Grown world next a size (resized size seq) := by
  rcases realloc_resized holds positive fits with ⟨after, ran, reads, keeps⟩
  refine ⟨⟨Function.update world.arrays a ⟨some world.blocks.fresh, size⟩, after⟩, ?_, rfl,
    reads, keeps⟩
  simp only [resize, World.setSize, World.setArray, Function.update_self, ran, ok_bind,
    plain, if_false,
    Function.update_idem]

theorem resize_zeroed (zero : Item) {size : Nat} (same : (world.arrays a).size = seq.length)
    (holds : contents world.blocks (world.arrays a).array = some seq) (positive : 0 < width)
    (fits : width * size < 2 ^ 31) (grows : seq.length < size) :
    ∃ next, resize width zero world a size true = .ok next ∧
      Grown world next a size (seq ++ List.replicate (size - seq.length) (some zero)) := by
  rcases realloc_resized holds positive fits with ⟨middle, ran, reads, keeps⟩
  have whole : resized size seq = seq ++ (List.replicate (size - seq.length) none ++ []) := by
    rw [List.append_nil, ← resized_grow, Nat.add_sub_cancel' (Nat.le_of_lt grows)]
  rw [whole] at reads
  rcases deposit_eq reads seq.length (List.replicate (size - seq.length) (some zero)) (by simp) with
    ⟨after, deposits, readsAfter, keepsAfter⟩
  rw [overwrite_middle _ _ _ (by simp), List.append_nil] at readsAfter
  refine ⟨⟨Function.update world.arrays a ⟨some world.blocks.fresh, size⟩, after⟩, ?_,
    rfl, readsAfter,
    keeps_but_trans keeps keepsAfter (Nat.le_refl _)⟩
  have long : (seq.length : Int) < size := by exact_mod_cast grows
  have room : ((size : Int) - seq.length).toNat = size - seq.length := by omega
  simp only [resize, World.setSize, World.setArray, Function.update_self, ran, ok_bind, same, long,
    and_self, if_true, memset, room, deposits, Function.update_idem]

/-- `resize` called with the size that was set already. -/
theorem resize_grown (zero : Item) {size : Nat}
    (holds : contents world.blocks (world.arrays a).array = some seq) (positive : 0 < width)
    (fits : width * size < 2 ^ 31) :
    ∃ next, resize width zero (world.setSize a size) a size false = .ok next ∧
      Grown world next a size (resized size seq) := by
  have holdsStill : contents (world.setSize a size).blocks ((world.setSize a size).arrays a).array =
      some seq := by
    simpa [World.setSize] using holds
  rcases resize_plain zero holdsStill positive fits false (by simp) with
    ⟨next, ran, arrays, reads, keeps⟩
  refine ⟨next, ran, ?_, reads, ?_⟩
  · rw [arrays]
    simp [World.setSize]
  · simpa [World.setSize] using keeps

/-! ## Each function -/

theorem get_eq (size : (world.arrays a).size = seq.length)
    (holds : contents world.blocks (world.arrays a).array = some seq) (loc : Nat) :
    get world a loc = .ok seq[loc]? := by
  unfold get
  rw [size]
  by_cases inside : loc < seq.length
  · rw [if_pos (by exact_mod_cast inside)]
    cases array : (world.arrays a).array with
    | none =>
        rw [array] at holds
        cases Option.some.inj holds
        cases inside
    | some block =>
        rw [array] at holds
        rw [load_eq holds inside]
        simp [Except.map, inside]
  · rw [if_neg (by exact_mod_cast inside), List.getElem?_eq_none (Nat.le_of_not_lt inside)]

theorem put_becomes (size : (world.arrays a).size = seq.length)
    (holds : contents world.blocks (world.arrays a).array = some seq) (loc : Nat) (val : Item) :
    ∃ next, put world a loc val = .ok (next, decide (loc < seq.length)) ∧
      Becomes world next a (seq.set loc (some val)) := by
  unfold put
  rw [size]
  by_cases inside : loc < seq.length
  · rw [if_pos (by exact_mod_cast inside)]
    cases array : (world.arrays a).array with
    | none =>
        rw [array] at holds
        cases Option.some.inj holds
        cases inside
    | some block =>
        rw [array] at holds
        rcases deposit_eq holds loc [some val] inside with
          ⟨after, deposits, reads, keeps⟩
        have written : overwrite loc [some val] seq = seq.set loc (some val) := by
          rw [overwrite, List.set_eq_take_append_cons_drop, if_pos inside]
          simp
        rw [written] at reads
        refine ⟨{ world with blocks := after }, ?_, fun _ _ => rfl, ?_, ?_, ?_, ?_⟩
        · simp [store, deposits, Except.map, inside]
        · rw [List.length_set]
          exact size
        · change contents after (world.arrays a).array = _
          rw [array]
          exact reads
        · exact fun _ same => .inl same
        · rw [array]
          exact keeps
  · rw [if_neg (by exact_mod_cast inside)]
    refine ⟨world, by simp [inside], fun _ _ => rfl, ?_, ?_, fun _ same => .inl same,
      fun _ _ kept _ => kept⟩
    · rw [List.length_set]
      exact size
    · rw [holds, List.set_eq_of_length_le (Nat.le_of_not_lt inside)]

theorem resize_becomes (zero : Item) (size : (world.arrays a).size = seq.length)
    (holds : contents world.blocks (world.arrays a).array = some seq) (positive : 0 < width)
    {count : Nat} (fits : width * count < 2 ^ 31) (zeroout : Bool) :
    ∃ next, resize width zero world a count zeroout = .ok next ∧ Becomes world next a
      (seq.take count ++ List.replicate (count - seq.length) (if zeroout then some zero
        else none)) := by
  have length : ∀ value : Option Item,
      (seq.take count ++ List.replicate (count - seq.length) value).length = count := by
    intro value
    rw [List.length_append, List.length_take, List.length_replicate]
    omega
  by_cases zeroes : seq.length < count ∧ zeroout = true
  · rcases zeroes with ⟨grows, rfl⟩
    rcases resize_zeroed zero size holds positive fits grows with ⟨next, ran, grown⟩
    refine ⟨next, ran, ?_⟩
    have whole := length (some zero)
    rw [List.take_of_length_le (Nat.le_of_lt grows)] at whole ⊢
    apply grown_becomes
    rwa [if_pos rfl, whole]
  · have plain : ¬ ((world.arrays a).size < count ∧ zeroout = true) := by
      rw [size]
      exact_mod_cast zeroes
    rcases resize_plain zero holds positive fits zeroout plain with ⟨next, ran, grown⟩
    refine ⟨next, ran, ?_⟩
    have kept : seq.take count ++ List.replicate (count - seq.length) (if zeroout then some zero
        else none) =
        resized count seq := by
      cases zeroout with
      | false => rfl
      | true =>
          have short : count - seq.length = 0 := by simpa [Nat.sub_eq_zero_iff_le] using zeroes
          simp [resized, short]
    rw [kept]
    apply grown_becomes
    rwa [resized, length]

theorem add_to_end_becomes (zero val : Item) (size : (world.arrays a).size = seq.length)
    (holds : contents world.blocks (world.arrays a).array = some seq) (positive : 0 < width)
    (fits : width * (seq.length + 1) < 2 ^ 31) :
    ∃ next, addToEnd width zero world a val = .ok next ∧
    Becomes world next a (seq ++ [some val]) := by
  rcases resize_grown zero holds positive fits with ⟨middle, ran, arrays, reads, keeps⟩
  rw [resized_grow, ← List.append_nil (List.replicate 1 none)] at reads
  rcases deposit_eq reads seq.length [some val] (by simp) with
    ⟨after, deposits, readsAfter, keepsAfter⟩
  rw [overwrite_middle _ _ _ (by simp), List.append_nil] at readsAfter
  have grown : Grown world { middle with blocks := after } a (seq ++ [some val]).length
      (seq ++ [some val]) := by
    refine ⟨?_, readsAfter, keeps_but_trans keeps keepsAfter (Nat.le_refl _)⟩
    rw [List.length_append]
    exact arrays
  refine ⟨{ middle with blocks := after }, ?_, grown_becomes grown⟩
  have changed : ((world.setSize a (seq.length + 1)).arrays a).size =
      ((seq.length + 1 : Nat) : Int) :=
    set_size_same world a _
  have last : (((seq.length + 1 : Nat) : Int)) - 1 = seq.length := by omega
  have ran : resize width zero (world.setSize a (seq.length + 1)) a
      ((seq.length + 1 : Nat) : Int) false =
      .ok middle := ran
  simp only [addToEnd, size, changed, ran, ok_bind, arrays, Function.update_self, last,
    store, deposits]

/-! ## Another array as the argument -/

structure Operand (world : World Item) (a o : Nat) (other : List (Option Item)) : Prop where
  different : o ≠ a
  size : (world.arrays o).size = other.length
  holds : contents world.blocks (world.arrays o).array = some other
  apart : ∀ block, (world.arrays o).array = some block → (world.arrays a).array ≠ some block

theorem becomes_refl (size : (world.arrays a).size = seq.length)
    (holds : contents world.blocks (world.arrays a).array = some seq) : Becomes world world a seq :=
  ⟨fun _ _ => rfl, size, holds, fun _ same => .inl same, fun _ _ kept _ => kept⟩

theorem operand_block (operand : Operand world a o other) (filled : other ≠ []) :
    ∃ block, (world.arrays o).array = some block ∧ world.blocks.read block = some other := by
  have holds := operand.holds
  cases array : (world.arrays o).array with
  | none =>
      rw [array] at holds
      exact absurd (Option.some.inj holds).symm filled
  | some block =>
      rw [array] at holds
      exact ⟨block, rfl, holds⟩

theorem operand_grown {size : Nat} {content : List (Option Item)}
    (operand : Operand world a o other) (filled : other ≠ [])
    (grown : Grown world next a size content) :
    ∃ block, next.arrays o = ⟨some block, other.length⟩ ∧ next.blocks.read block = some other ∧
      world.blocks.fresh ≠ block := by
  rcases operand_block operand filled with ⟨block, array, present⟩
  refine ⟨block, ?_, ?_, ?_⟩
  · rw [grown_there grown operand.different]
    have size := operand.size
    cases fields : world.arrays o with
    | mk pointer count =>
        rw [fields] at array size
        cases array
        cases size
        rfl
  · exact grown.kept block other present (operand.apart block array)
  · exact Nat.ne_of_gt (read_bound present)

theorem grown_written {size : Nat} {content : List (Option Item)} {after : Blocks Item}
    (grown : Grown world next a size content) (length : seq.length = size)
    (reads : after.read world.blocks.fresh = some seq)
    (keeps : KeepsBut next.blocks after (some world.blocks.fresh)) :
    Becomes world { next with blocks := after } a seq := by
  apply grown_becomes
  refine ⟨?_, reads, keeps_but_trans grown.kept keeps (Nat.le_refl _)⟩
  rw [length]
  exact grown.arrays

theorem add_array_to_end_becomes (zero : Item) (size : (world.arrays a).size = seq.length)
    (holds : contents world.blocks (world.arrays a).array = some seq)
    (operand : Operand world a o other) (positive : 0 < width)
    (fits : width * (seq.length + other.length) < 2 ^ 31) :
    ∃ next, addArrayToEnd width zero world a o = .ok next ∧
    Becomes world next a (seq ++ other) := by
  by_cases filled : other = []
  · subst filled
    refine ⟨world, ?_, ?_⟩
    · rw [addArrayToEnd, operand.size]
      rfl
    · rw [List.append_nil]
      exact becomes_refl size holds
  · rcases resize_grown zero holds positive fits with ⟨middle, ran, grown⟩
    rcases operand_grown operand filled grown with ⟨block, there, present, apart⟩
    have reads := grown.reads
    rw [resized_grow, ← List.append_nil (List.replicate other.length none)] at reads
    rcases memcpy_eq reads present apart seq.length 0 other.length (by omega) (by simp) with
      ⟨after, copies, readsAfter, keepsAfter⟩
    rw [List.drop_zero, List.take_length, overwrite_middle _ _ _ (by simp),
      List.append_nil] at readsAfter
    refine ⟨_, ?_, grown_written grown (List.length_append) readsAfter keepsAfter⟩
    have more : (0 : Int) < other.length := by
      have := List.length_pos_iff.mpr filled
      omega
    have sum : (seq.length : Int) + other.length =
      ((seq.length + other.length : Nat) : Int) := by omega
    have copies : memcpy middle.blocks (some world.blocks.fresh) seq.length
        (some block) 0 other.length = .ok after :=
      copies
    simp only [addArrayToEnd, size, operand.size, more, if_true, sum, set_size_same, ran, ok_bind,
      grown_here grown,
      there, copies]

theorem insert_becomes (zero : Item) {front back : List (Option Item)}
    (size : (world.arrays a).size = (front ++ back).length)
    (holds : contents world.blocks (world.arrays a).array = some (front ++ back))
    (operand : Operand world a o other) (positive : 0 < width)
    (fits : width * ((front ++ back).length + other.length) < 2 ^ 31) :
    ∃ next, insert width zero world a front.length o = .ok next ∧
    Becomes world next a (front ++ other ++ back) := by
  by_cases filled : other = []
  · subst filled
    refine ⟨world, ?_, ?_⟩
    · rw [insert, operand.size]
      rfl
    · rw [List.append_nil]
      exact becomes_refl size holds
  · rcases resize_grown zero holds positive fits with ⟨middle, ran, grown⟩
    rcases operand_grown operand filled grown with ⟨block, there, present, apart⟩
    have reads := grown.reads
    rw [resized_grow] at reads
    -- the elements behind the position move up by the length of the argument
    rcases memmove_eq reads reads (front.length + other.length) front.length back.length (by simp)
      (by simp; omega) with ⟨moved, moves, readsMoved, keepsMoved⟩
    have movedPresent : moved.read block = some other := keepsMoved block other present fun same =>
      apart (Option.some.inj same)
    rcases overwrite_shift front back other.length with ⟨gap, gapLength, shape⟩
    rw [shape] at readsMoved
    rcases memcpy_eq readsMoved movedPresent apart front.length 0 other.length (by omega)
        (by simp; omega) with
      ⟨after, copies, readsAfter, keepsAfter⟩
    rw [List.drop_zero, List.take_length, overwrite_middle _ _ _ gapLength] at readsAfter
    have keeps : KeepsBut middle.blocks after (some world.blocks.fresh) :=
      fun block content there different =>
      keepsAfter block content (keepsMoved block content there different) different
    have length : (front ++ (other ++ back)).length = (front ++ back).length + other.length := by
      simp only [List.length_append]
      omega
    have becomes := grown_written grown length readsAfter keeps
    rw [← List.append_assoc] at becomes
    refine ⟨_, ?_, becomes⟩
    have more : (0 : Int) < other.length := by
      have := List.length_pos_iff.mpr filled
      omega
    have sum : ((front ++ back).length : Int) + other.length =
        (((front ++ back).length + other.length : Nat) : Int) := by omega
    have shift : (front.length : Int) + other.length =
      ((front.length + other.length : Nat) : Int) := by omega
    have rest : ((front ++ back).length : Int) - front.length = back.length := by
      rw [List.length_append]
      omega
    have copies : memcpy moved (some world.blocks.fresh) front.length (some block) 0 other.length =
      .ok after := copies
    simp only [insert, size, operand.size, more, if_true, sum, set_size_same, ran, ok_bind,
      grown_here grown, there,
      shift, rest, moves, copies]

/-- `operator=` up to the copying: a new block in place of the one freed. -/
theorem setup_grown (holds : contents world.blocks (world.arrays a).array = some seq)
    (positive : 0 < width) (size : Nat) (fits : width * size < 2 ^ 31) :
    ∃ freed next, free world.blocks (world.arrays a).array = .ok freed ∧
      setup width (({ world with blocks := freed } : World Item).setSize a size) a = .ok next ∧
      Grown world next a size (List.replicate size none) := by
  rcases free_eq holds with ⟨freed, frees, fresh, keeps⟩
  have asked : 0 ≤ request width (size : Int) := by
    rw [request_fits fits]
    exact Int.natCast_nonneg _
  refine ⟨freed, ⟨Function.update world.arrays a ⟨some world.blocks.fresh, size⟩,
    freed.push (List.replicate size none)⟩, frees, ?_, rfl, ?_, ?_⟩
  · simp only [setup, World.setSize, World.setArray, Function.update_self, malloc_eq asked, ok_bind,
      request_room positive fits, Function.update_idem, fresh]
  · rw [← fresh, read_push, if_pos rfl]
  · intro block content present different
    exact read_push_of_present (keeps block content present different) _

theorem assign_becomes (holds : contents world.blocks (world.arrays a).array = some seq)
    (operand : Operand world a o other) (positive : 0 < width)
    (fits : width * other.length < 2 ^ 31) :
    ∃ next, assign width world a o = .ok next ∧ Becomes world next a other := by
  rcases setup_grown holds positive other.length fits with ⟨freed, middle, frees, sets, grown⟩
  have there : middle.arrays o = world.arrays o := grown_there grown operand.different
  by_cases filled : other = []
  · subst filled
    refine ⟨middle, ?_, grown_becomes grown⟩
    have size : (world.arrays o).size = 0 := operand.size
    have sets : setup width (({ world with blocks := freed } : World Item).setSize a 0) a =
      .ok middle := sets
    simp [assign, frees, size, sets, there, memcpy, memmove]
  · rcases operand_grown operand filled grown with ⟨block, array, present, apart⟩
    have reads := grown.reads
    rw [← List.append_nil (List.replicate other.length none)] at reads
    rcases memcpy_eq reads present apart 0 0 other.length (by omega) (by simp) with
      ⟨after, copies, readsAfter, keepsAfter⟩
    have whole : overwrite 0 ((other.drop 0).take other.length) (List.replicate other.length none ++
        []) = other := by
      simp [overwrite]
    rw [whole] at readsAfter
    refine ⟨_, ?_, grown_written grown rfl readsAfter keepsAfter⟩
    have copies : memcpy middle.blocks (some world.blocks.fresh) 0 (some block) 0 other.length =
      .ok after := copies
    simp only [assign, frees, ok_bind, operand.size, sets, grown_here grown, array, copies]

end TWlib.DynArrays
