import TWlib.DynArraySequence

/-!
# A dynamic array as its own argument

`addToEnd` and `insert` change `_size` before they read the size of the argument, and `operator=`
frees the block and asks for a new one before it reads the block of the argument. When the argument
is the array itself they copy too many elements, or those of the new block.
-/

namespace TWlib.DynArrays

open TWlib.Lib.CellStore TWlib.Lib.ElementBlocks

set_option autoImplicit false

variable {Item : Type*} {width : Nat} {zero : Item} {world next : World Item} {a : Nat}
    {seq : List (Option Item)}

/-- `a.addToEnd(a)` doubles the sequence. -/
def DoublesItself (width : Nat) (zero : Item) (world : World Item) (a : Nat)
    (seq : List (Option Item)) : Prop :=
  ∃ next, addArrayToEnd width zero world a a = .ok next ∧ Becomes world next a (seq ++ seq)

/-- `a.insert(loc, a)` inserts a copy at `loc`. -/
def InsertsItself (width : Nat) (zero : Item) (world : World Item) (a loc : Nat)
    (seq : List (Option Item)) : Prop :=
  ∃ next, insert width zero world a loc a = .ok next ∧
    Becomes world next a (seq.take loc ++ seq ++ seq.drop loc)

/-- `a = a` changes nothing. -/
def AssignsItself (width : Nat) (world : World Item) (a : Nat) (seq : List (Option Item)) : Prop :=
  ∃ next, assign width world a a = .ok next ∧ Becomes world next a seq

/-! ## Nothing in the array -/

theorem empty_itself (size : (world.arrays a).size = ([] : List (Option Item)).length)
    (holds : contents world.blocks (world.arrays a).array = some []) :
    DoublesItself width zero world a [] ∧ ∀ loc, InsertsItself width zero world a loc [] := by
  have none : ¬ 0 < (world.arrays a).size := by
    rw [size]
    exact Int.lt_irrefl 0
  refine ⟨⟨world, if_neg none, becomes_refl size holds⟩, fun loc => ⟨world, if_neg none, ?_⟩⟩
  rw [List.take_nil, List.drop_nil]
  exact becomes_refl size holds

theorem empty_assigns_itself (positive : 0 < width)
    (size : (world.arrays a).size = ([] : List (Option Item)).length)
    (holds : contents world.blocks (world.arrays a).array = some []) :
    AssignsItself width world a [] := by
  rcases setup_grown holds positive 0 (by simp) with ⟨freed, next, frees, sets, grown⟩
  have size : (world.arrays a).size = 0 := size
  have sets : setup width (({ world with blocks := freed } : World Item).setSize a 0) a =
    .ok next := sets
  have here : (next.arrays a).size = 0 := by
    rw [grown_here grown]
    rfl
  refine ⟨next, ?_, grown_becomes grown⟩
  simp [assign, frees, size, sets, here, memcpy, memmove]

/-! ## Something in the array -/

/-- A copy within one block of a range to one that begins before its end. -/
theorem memcpy_within {blocks : Blocks Item} {array : Option Nat} {dst count : Int}
    (start : 0 ≤ dst) (reaches : dst < count) :
    memcpy blocks array dst array 0 count = .error .overlap := by
  have overlaps : array = array ∧ dst < 0 + count ∧ 0 < dst + count := ⟨rfl, by omega, by omega⟩
  rw [memcpy, if_pos overlaps]

/-- The length that the argument has after `resize` is that of both together. -/
theorem add_to_end_itself_fails (size : (world.arrays a).size = seq.length) (filled : seq ≠ []) :
    addArrayToEnd width zero world a a ≠ .ok next := by
  intro ran
  have some_ : 0 < seq.length := List.length_pos_iff.mpr filled
  rw [addArrayToEnd, if_pos (by omega)] at ran
  rcases bind_eq_ok ran with ⟨middle, resizes, rest⟩
  rcases bind_eq_ok rest with ⟨after, copies, -⟩
  have doubled : (middle.arrays a).size = seq.length + seq.length := by
    rw [(resize_backed resizes).2]
    simp [World.setSize, size]
  rw [doubled, memcpy_within (by omega) (by omega)] at copies
  cases copies

theorem insert_itself_fails {loc : Nat} (size : (world.arrays a).size = seq.length)
    (filled : seq ≠ []) (inside : loc ≤ seq.length) :
    insert width zero world a loc a ≠ .ok next := by
  intro ran
  have some_ : 0 < seq.length := List.length_pos_iff.mpr filled
  rw [insert, if_pos (by omega)] at ran
  rcases bind_eq_ok ran with ⟨middle, resizes, rest⟩
  rcases bind_eq_ok rest with ⟨moved, moves, rest⟩
  rcases bind_eq_ok rest with ⟨after, copies, -⟩
  have doubled : (middle.arrays a).size = seq.length + seq.length := by
    rw [(resize_backed resizes).2]
    simp [World.setSize, size]
  rw [doubled, memcpy_within (by omega) (by omega)] at copies
  cases copies

/-- The block that is copied from is the new one. -/
theorem assign_itself_fails (size : (world.arrays a).size = seq.length) (filled : seq ≠ []) :
    assign width world a a ≠ .ok next := by
  intro ran
  have some_ : 0 < seq.length := List.length_pos_iff.mpr filled
  rcases bind_eq_ok ran with ⟨freed, frees, rest⟩
  rcases bind_eq_ok rest with ⟨middle, sets, rest⟩
  rcases bind_eq_ok rest with ⟨after, copies, -⟩
  rcases bind_eq_ok sets with ⟨⟨blocks, array⟩, allocates, same⟩
  cases Except.ok.inj same
  have kept : ((({ world with blocks := freed } : World Item).setSize a
      (world.arrays a).size).setArray a array
      blocks).arrays a = ⟨array, seq.length⟩ := by
    simp [World.setSize, World.setArray, size]
  simp only [kept] at copies
  rw [memcpy_within (by omega) (by omega)] at copies
  cases copies

/-- With the array itself as the argument each operation is right exactly if there is nothing in
it. -/
theorem self_argument_right_iff (positive : 0 < width) (zero : Item)
    (size : (world.arrays a).size = seq.length)
    (holds : contents world.blocks (world.arrays a).array = some seq) :
    (DoublesItself width zero world a seq ↔ seq = []) ∧
      (∀ loc ≤ seq.length, InsertsItself width zero world a loc seq ↔ seq = []) ∧
      (AssignsItself width world a seq ↔ seq = []) := by
  refine ⟨⟨?_, ?_⟩, fun loc inside => ⟨?_, ?_⟩, ⟨?_, ?_⟩⟩
  · rintro ⟨next, ran, -⟩
    by_contra filled
    exact add_to_end_itself_fails size filled ran
  · rintro rfl
    exact (empty_itself size holds).1
  · rintro ⟨next, ran, -⟩
    by_contra filled
    exact insert_itself_fails size filled inside ran
  · rintro rfl
    exact (empty_itself size holds).2 loc
  · rintro ⟨next, ran, -⟩
    by_contra filled
    exact assign_itself_fails size filled ran
  · rintro rfl
    exact empty_assigns_itself positive size holds

def twoHeld : World Nat := ⟨Function.update (fun _ => ⟨none, 0⟩) 0 ⟨some 0, 2⟩,
    ⟨[some [some 7, some 8]]⟩⟩

theorem self_argument_right_two_held :
    (¬ DoublesItself 4 0 twoHeld 0 [some 7, some 8] ∧
        (∀ loc ≤ 2, ¬ InsertsItself 4 0 twoHeld 0 loc [some 7, some 8]) ∧
        ¬ AssignsItself 4 twoHeld 0 [some 7, some 8]) ∧
      DoublesItself 4 0 twoHeld 1 [] ∧ InsertsItself 4 0 twoHeld 1 0 [] ∧
      AssignsItself 4 twoHeld 1 [] := by
  have size : (twoHeld.arrays 0).size = ([some 7, some 8] : List (Option Nat)).length := rfl
  have holds : contents twoHeld.blocks (twoHeld.arrays 0).array = some [some 7, some 8] := rfl
  have none : (twoHeld.arrays 1).size = ([] : List (Option Nat)).length := rfl
  have empty : contents twoHeld.blocks (twoHeld.arrays 1).array = some [] := rfl
  rcases self_argument_right_iff (show 0 < 4 by decide) 0 size holds with ⟨doubles,
    inserts, assigns⟩
  rcases self_argument_right_iff (show 0 < 4 by decide) 0 none empty with ⟨doublesNone, insertsNone,
    assignsNone⟩
  refine ⟨⟨fun right => ?_, fun loc inside right => ?_, fun right => ?_⟩, doublesNone.mpr rfl,
    (insertsNone 0 (Nat.zero_le _)).mpr rfl, assignsNone.mpr rfl⟩
  · cases doubles.mp right
  · cases (inserts loc inside).mp right
  · cases assigns.mp right

/-- `insert` moves the last element by four places, in a block for four; the others copy between
ranges that overlap. -/
theorem self_argument_not_always_right :
    addArrayToEnd 4 0 twoHeld 0 0 = .error .overlap ∧ insert 4 0 twoHeld 0 1 0 = .error .outside ∧
      assign 4 twoHeld 0 0 = .error .overlap ∧
      ¬ ∀ (world : World Nat) (a : Nat) (seq : List (Option Nat)), (world.arrays a).size =
        seq.length →
        contents world.blocks (world.arrays a).array = some seq →
        DoublesItself 4 0 world a seq ∧ (∀ loc ≤ seq.length, InsertsItself 4 0 world a loc seq) ∧
          AssignsItself 4 world a seq := by
  refine ⟨rfl, rfl, rfl, fun claim => ?_⟩
  rcases claim twoHeld 0 [some 7, some 8] rfl rfl with ⟨⟨next, ran, -⟩, -, -⟩
  have faults : addArrayToEnd 4 0 twoHeld 0 0 = .error .overlap := rfl
  rw [faults] at ran
  cases ran

end TWlib.DynArrays
