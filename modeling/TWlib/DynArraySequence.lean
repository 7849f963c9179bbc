import TWlib.DynArrays

/-!
# The dynamic array as a sequence

A block is requested with `sizeof(T)` times the size, and the allocators take that as an `int`.
While it is one, the elements of an array are those of a sequence, and the block has room for
exactly these. The first sizes beyond are negative requests, which fail; the next ones succeed with
a block that is too small.
-/

namespace TWlib.DynArrays

open TWlib.Lib.CellStore TWlib.Lib.ElementBlocks TWlib.Lib.MachineInt

set_option autoImplicit false

variable {Item : Type*}

/-! ## Runs -/

inductive Call (Item : Type*) where
  | get (a : Nat) (loc : Int)
  | put (a : Nat) (loc : Int) (val : Item)
  | putByRef (a : Nat) (loc : Int) (val : Item)
  | addToEnd (a : Nat) (val : Item)
  | addArrayToEnd (a o : Nat)
  | insert (a : Nat) (loc : Int) (o : Nat)
  | resize (a : Nat) (size : Int) (zeroout : Bool)
  | assign (a o : Nat)

inductive Result (Item : Type*) where
  | nothing
  | flag (ret : Bool)
  | found (val : Option (Option Item))
deriving DecidableEq

def perform (width : Nat) (zero : Item) (world : World Item) :
    Call Item → Except Fault (World Item × Result Item)
  | .get a loc => (get world a loc).map fun val => (world, .found val)
  | .put a loc val => (put world a loc val).map fun (world, ret) => (world, .flag ret)
  | .putByRef a loc val => (putByRef world a loc val).map fun (world, ret) => (world, .flag ret)
  | .addToEnd a val => (addToEnd width zero world a val).map fun world => (world, .nothing)
  | .addArrayToEnd a o => (addArrayToEnd width zero world a o).map fun world => (world, .nothing)
  | .insert a loc o => (insert width zero world a loc o).map fun world => (world, .nothing)
  | .resize a size zeroout =>
      (resize width zero world a size zeroout).map fun world => (world, .nothing)
  | .assign a o => (assign width world a o).map fun world => (world, .nothing)

def run (width : Nat) (zero : Item) (world : World Item) :
    List (Call Item) → Except Fault (World Item × List (Result Item))
  | [] => .ok (world, [])
  | call :: rest => do
      let (world, result) ← perform width zero world call
      let (world, results) ← run width zero world rest
      .ok (world, result :: results)

/-! ## What it is for -/

/-- The sequences of all arrays. A new position has no value until one is put there. -/
abbrev Sequences (Item : Type*) := Nat → List (Option Item)

namespace Sequences

def new : Sequences Item := fun _ => []

def set (seqs : Sequences Item) (a : Nat) (seq : List (Option Item)) : Sequences Item :=
  Function.update seqs a seq

def perform (zero : Item) (seqs : Sequences Item) : Call Item → Sequences Item × Result Item
  | .get a loc => (seqs, .found (seqs a)[loc.toNat]?)
  | .put a loc val | .putByRef a loc val =>
      (seqs.set a ((seqs a).set loc.toNat (some val)), .flag (decide (loc.toNat < (seqs a).length)))
  | .addToEnd a val => (seqs.set a (seqs a ++ [some val]), .nothing)
  | .addArrayToEnd a o => (seqs.set a (seqs a ++ seqs o), .nothing)
  | .insert a loc o =>
      (seqs.set a ((seqs a).take loc.toNat ++ seqs o ++ (seqs a).drop loc.toNat), .nothing)
  | .resize a size zeroout =>
      (seqs.set a ((seqs a).take size.toNat ++
        List.replicate (size.toNat - (seqs a).length) (if zeroout then some zero else none)),
        .nothing)
  | .assign a o => (seqs.set a (seqs o), .nothing)

def run (zero : Item) (seqs : Sequences Item) : List (Call Item) → Sequences Item ×
    List (Result Item)
  | [] => (seqs, [])
  | call :: rest =>
      let (seqs, result) := seqs.perform zero call
      let (seqs, results) := run zero seqs rest
      (seqs, result :: results)

/-- The positions are not negative, and an array that is an argument is another one. -/
def Admits (seqs : Sequences Item) : Call Item → Prop
  | .get _ loc | .put _ loc _ | .putByRef _ loc _ => 0 ≤ loc
  | .addToEnd _ _ => True
  | .addArrayToEnd a o | .assign a o => o ≠ a
  | .insert a loc o => o ≠ a ∧ 0 ≤ loc ∧ loc ≤ (seqs a).length
  | .resize _ size _ => 0 ≤ size

/-- The bytes of each sequence are counted by an `int`. -/
def Fits (width : Nat) (seqs : Sequences Item) : Prop := ∀ a, width * (seqs a).length < 2 ^ 31

def AdmitsAll (zero : Item) : Sequences Item → List (Call Item) → Prop
  | _, [] => True
  | seqs, call :: rest => seqs.Admits call ∧ AdmitsAll zero (seqs.perform zero call).1 rest

def FitsAll (width : Nat) (zero : Item) : Sequences Item → List (Call Item) → Prop
  | _, [] => True
  | seqs, call :: rest =>
      Fits width (seqs.perform zero call).1 ∧ FitsAll width zero (seqs.perform zero call).1 rest

end Sequences

/-- Each array has a block of its own, with exactly the elements of its sequence. -/
structure Refines (world : World Item) (seqs : Sequences Item) : Prop where
  size : ∀ a, (world.arrays a).size = (seqs a).length
  holds : ∀ a, contents world.blocks (world.arrays a).array = some (seqs a)
  apart : ∀ a b block, (world.arrays a).array = some block →
    (world.arrays b).array = some block → a = b

/-- The run goes through without an access outside of a block, every call gives what it gives on the
sequences, and the arrays hold these. -/
def Correct (width : Nat) (zero : Item) (calls : List (Call Item)) : Prop :=
  ∃ last, run width zero World.new calls = .ok (last, (Sequences.new.run zero calls).2) ∧
    Refines last (Sequences.new.run zero calls).1

/-! ## One call -/

variable {width : Nat} {zero : Item} {world next : World Item} {seqs : Sequences Item} {a o : Nat}
  {seq : List (Option Item)} {call : Call Item}

theorem refines_new : Refines (World.new : World Item) Sequences.new where
  size _ := rfl
  holds _ := rfl
  apart a b block same := by cases same

/-- The other arrays are what they were, and the new block is none of theirs. -/
theorem refines_becomes (refines : Refines world seqs) (becomes : Becomes world next a seq) :
    Refines next (seqs.set a seq) := by
  have bound : ∀ b block, (world.arrays b).array = some block → block < world.blocks.fresh := by
    intro b block same
    have holds := refines.holds b
    rw [same] at holds
    exact read_bound holds
  have own : ∀ b block, b ≠ a → (world.arrays b).array = some block →
      (next.arrays a).array ≠ some block := by
    intro b block different same now
    rcases becomes.own block now with before | new
    · exact different (refines.apart b a block same before)
    · exact absurd (bound b block same) (Nat.not_lt.mpr new)
  refine ⟨fun b => ?_, fun b => ?_, fun b c block first second => ?_⟩
  · by_cases same : b = a
    · rw [same, Sequences.set, Function.update_self]
      exact becomes.size
    · rw [becomes.others b same, Sequences.set, Function.update_of_ne same]
      exact refines.size b
  · by_cases same : b = a
    · rw [same, Sequences.set, Function.update_self]
      exact becomes.holds
    · rw [becomes.others b same, Sequences.set, Function.update_of_ne same]
      have holds := refines.holds b
      cases array : (world.arrays b).array with
      | none => rwa [array] at holds
      | some block =>
          rw [array] at holds
          apply becomes.kept block (seqs b) holds
          exact fun target => same (refines.apart b a block array target)
  · by_cases firstSame : b = a
    · by_cases secondSame : c = a
      · rw [firstSame, secondSame]
      · rw [firstSame] at first
        rw [becomes.others c secondSame] at second
        exact absurd first (own c block secondSame second)
    · rw [becomes.others b firstSame] at first
      by_cases secondSame : c = a
      · rw [secondSame] at second
        exact absurd second (own b block firstSame first)
      · rw [becomes.others c secondSame] at second
        exact refines.apart b c block first second

theorem refines_operand (refines : Refines world seqs) (different : o ≠ a) :
    Operand world a o (seqs o) where
  different := different
  size := refines.size o
  holds := refines.holds o
  apart block same target := different (refines.apart o a block same target)

theorem insert_room {position : Nat} (bound : position ≤ (seqs a).length)
    (fits : Sequences.Fits width (seqs.perform zero (.insert a position o)).1) :
    width * ((seqs a).length + (seqs o).length) < 2 ^ 31 := by
  have fits := fits a
  simp only [Sequences.perform, Sequences.set, Function.update_self, List.length_append,
    Int.toNat_natCast,
    List.length_drop, List.length_take_of_le bound] at fits
  have total : position + (seqs o).length + ((seqs a).length - position) = (seqs a).length +
      (seqs o).length := by
    omega
  rwa [total] at fits

theorem resize_room {count : Nat} {zeroout : Bool}
    (fits : Sequences.Fits width (seqs.perform zero (.resize a count zeroout)).1) :
    width * count < 2 ^ 31 := by
  have fits := fits a
  simp only [Sequences.perform, Sequences.set, Function.update_self, List.length_append,
    List.length_take,
    List.length_replicate, Int.toNat_natCast] at fits
  have total : min count (seqs a).length + (count - (seqs a).length) = count := by omega
  rwa [total] at fits

theorem perform_refines (positive : 0 < width) (refines : Refines world seqs)
    (admits : seqs.Admits call) (fits : Sequences.Fits width (seqs.perform zero call).1) :
    ∃ next, perform width zero world call = .ok (next, (seqs.perform zero call).2) ∧
      Refines next (seqs.perform zero call).1 := by
  cases call with
  | get a loc =>
      rcases Int.eq_ofNat_of_zero_le admits with ⟨position, rfl⟩
      refine ⟨world, ?_, refines⟩
      rw [perform, get_eq (refines.size a) (refines.holds a)]
      rfl
  | put a loc val | putByRef a loc val =>
      rcases Int.eq_ofNat_of_zero_le admits with ⟨position, rfl⟩
      rcases put_becomes (refines.size a) (refines.holds a) position val with ⟨next, ran, becomes⟩
      refine ⟨next, ?_, refines_becomes refines becomes⟩
      simp only [perform, putByRef, ran, Except.map, Sequences.perform, Int.toNat_natCast]
  | addToEnd a val =>
      have room : width * ((seqs a).length + 1) < 2 ^ 31 := by
        simpa [Sequences.perform, Sequences.set] using fits a
      rcases add_to_end_becomes zero val (refines.size a) (refines.holds a) positive room with
        ⟨next, ran, becomes⟩
      refine ⟨next, ?_, refines_becomes refines becomes⟩
      rw [perform, ran]
      rfl
  | addArrayToEnd a o =>
      have room : width * ((seqs a).length + (seqs o).length) < 2 ^ 31 := by
        simpa [Sequences.perform, Sequences.set] using fits a
      rcases add_array_to_end_becomes zero (refines.size a) (refines.holds a)
        (refines_operand refines admits)
        positive room with ⟨next, ran, becomes⟩
      refine ⟨next, ?_, refines_becomes refines becomes⟩
      rw [perform, ran]
      rfl
  | insert a loc o =>
      rcases admits with ⟨different, notNegative, inside⟩
      rcases Int.eq_ofNat_of_zero_le notNegative with ⟨position, rfl⟩
      have bound : position ≤ (seqs a).length := by exact_mod_cast inside
      have split := List.take_append_drop position (seqs a)
      have length : ((seqs a).take position).length = position := List.length_take_of_le bound
      have room := insert_room bound fits
      have size := refines.size a
      have holds := refines.holds a
      rw [← split] at size holds room
      rcases insert_becomes zero size holds (refines_operand refines different) positive room with
        ⟨next, ran, becomes⟩
      refine ⟨next, ?_, refines_becomes refines becomes⟩
      rw [length] at ran
      rw [perform, ran]
      rfl
  | resize a size zeroout =>
      rcases Int.eq_ofNat_of_zero_le admits with ⟨count, rfl⟩
      rcases resize_becomes zero (refines.size a) (refines.holds a) positive
          (resize_room fits) zeroout with
        ⟨next, ran, becomes⟩
      refine ⟨next, ?_, refines_becomes refines becomes⟩
      rw [perform, ran]
      rfl
  | assign a o =>
      have room : width * (seqs o).length < 2 ^ 31 := by
        simpa [Sequences.perform, Sequences.set] using fits a
      rcases assign_becomes (refines.holds a) (refines_operand refines admits) positive
        room with ⟨next, ran, becomes⟩
      refine ⟨next, ?_, refines_becomes refines becomes⟩
      rw [perform, ran]
      rfl

/-! ## Every run -/

/-- By induction on the calls, with the relation carried from each to the next. -/
theorem run_refines (positive : 0 < width) (calls : List (Call Item)) (refines : Refines world seqs)
    (admits : seqs.AdmitsAll zero calls) (fits : seqs.FitsAll width zero calls) :
    ∃ last, run width zero world calls = .ok (last, (seqs.run zero calls).2) ∧
      Refines last (seqs.run zero calls).1 := by
  induction calls generalizing world seqs with
  | nil => exact ⟨world, rfl, refines⟩
  | cons call rest ih =>
      rcases perform_refines positive refines admits.1 fits.1 with ⟨next, performed, refinesNext⟩
      rcases ih refinesNext admits.2 fits.2 with ⟨last, ran, ends⟩
      refine ⟨last, ?_, ends⟩
      simp only [run, performed, ok_bind, ran, Sequences.run]

/-! ## What does not fit -/

/-- The block has no more room than the bytes requested for the size. -/
def Backed (width : Nat) (world : World Item) (a : Nat) : Prop :=
  ∀ content, contents world.blocks (world.arrays a).array = some content →
    width * content.length ≤ (request width (world.arrays a).size).toNat

theorem backed_kept (backed : Backed width world a) (same : next.arrays a = world.arrays a)
    (room : SameRoom world.blocks next.blocks) : Backed width next a := by
  intro content holds
  rw [same] at holds ⊢
  cases array : (world.arrays a).array with
  | none =>
      rw [array] at holds
      cases Option.some.inj holds
      exact Nat.zero_le _
  | some block =>
      rw [array] at holds
      have length := room block
      rw [show next.blocks.read block = some content from holds] at length
      rcases Option.map_eq_some_iff.mp length.symm with ⟨old, present, sameLength⟩
      have bound := backed old (by rw [array]; exact present)
      rwa [sameLength] at bound

theorem backed_of_room {blocks : Blocks Item} {array : Option Nat} {size : Int}
    (room : ∃ block content, array = some block ∧ blocks.read block = some content ∧
      content.length = (request width size).toNat / width) (fields : next.arrays a = ⟨array, size⟩)
    (same : next.blocks = blocks) : Backed width next a := by
  rcases room with ⟨block, content, rfl, present, length⟩
  intro found holds
  rw [fields, same] at holds
  rw [fields]
  cases Option.some.inj (present.symm.trans holds)
  rw [length, Nat.mul_comm]
  exact Nat.div_mul_le_self _ _

theorem resize_backed {size : Int} {zeroout : Bool}
    (ran : resize width zero world a size zeroout = .ok next) :
    Backed width next a ∧ (next.arrays a).size = size := by
  rcases bind_eq_ok ran with ⟨⟨blocks, array⟩, reallocs, rest⟩
  have fields : ((world.setSize a size).setArray a array blocks).arrays a = ⟨array, size⟩ := by
    simp [World.setSize, World.setArray]
  rw [set_size_same] at reallocs
  have backed : Backed width ((world.setSize a size).setArray a array blocks) a :=
    backed_of_room (realloc_room reallocs) fields rfl
  dsimp only at rest
  split_ifs at rest with zeroes
  · rcases bind_eq_ok rest with ⟨after, sets, same⟩
    cases Except.ok.inj same
    exact ⟨backed_kept backed rfl (deposit_same_room sets), by rw [fields]⟩
  · cases Except.ok.inj rest
    exact ⟨backed, by rw [fields]⟩

theorem add_to_end_backed {val : Item} (ran : addToEnd width zero world a val = .ok next) :
    Backed width next a := by
  rcases bind_eq_ok ran with ⟨middle, resizes, rest⟩
  rcases bind_eq_ok rest with ⟨after, stores, same⟩
  cases Except.ok.inj same
  exact backed_kept (resize_backed resizes).1 rfl (deposit_same_room stores)

theorem add_array_to_end_backed (ran : addArrayToEnd width zero world a o = .ok next) :
    next = world ∧ (world.arrays o).size ≤ 0 ∨ Backed width next a := by
  unfold addArrayToEnd at ran
  split_ifs at ran with filled
  · rcases bind_eq_ok ran with ⟨middle, resizes, rest⟩
    rcases bind_eq_ok rest with ⟨after, copies, same⟩
    cases Except.ok.inj same
    exact .inr (backed_kept (resize_backed resizes).1 rfl (memcpy_same_room copies))
  · exact .inl ⟨(Except.ok.inj ran).symm, Int.not_lt.mp filled⟩

theorem insert_backed {loc : Int} (ran : insert width zero world a loc o = .ok next) :
    next = world ∧ (world.arrays o).size ≤ 0 ∨ Backed width next a := by
  unfold insert at ran
  split_ifs at ran with filled
  · rcases bind_eq_ok ran with ⟨middle, resizes, rest⟩
    rcases bind_eq_ok rest with ⟨moved, moves, rest⟩
    rcases bind_eq_ok rest with ⟨after, copies, same⟩
    cases Except.ok.inj same
    have shifted : Backed width ({ middle with blocks := moved } : World Item) a :=
      backed_kept (resize_backed resizes).1 rfl (memmove_same_room moves)
    exact .inr (backed_kept shifted rfl (memcpy_same_room copies))
  · exact .inl ⟨(Except.ok.inj ran).symm, Int.not_lt.mp filled⟩

theorem assign_backed (ran : assign width world a o = .ok next) : Backed width next a := by
  rcases bind_eq_ok ran with ⟨freed, frees, rest⟩
  rcases bind_eq_ok rest with ⟨middle, sets, rest⟩
  rcases bind_eq_ok rest with ⟨after, copies, same⟩
  cases Except.ok.inj same
  rcases bind_eq_ok sets with ⟨⟨blocks, array⟩, allocates, same⟩
  cases Except.ok.inj same
  have fields : ((({ world with blocks := freed } : World Item).setSize a
      (world.arrays o).size).setArray a array
      blocks).arrays a = ⟨array, (world.arrays o).size⟩ := by
    simp [World.setSize, World.setArray]
  rw [set_size_same] at allocates
  exact backed_kept (backed_of_room (malloc_room allocates) fields rfl) rfl
    (memcpy_same_room copies)

theorem backed_fits (refines : Refines next seqs) (backed : Backed width next a) :
    width * (seqs a).length < 2 ^ 31 := by
  have bound := backed (seqs a) (refines.holds a)
  rw [refines.size a, request] at bound
  have small := (as_int_is_int (width * ((seqs a).length : Int))).2
  simp only [intMax] at small
  omega

theorem fits_set {seq : List (Option Item)} (fits : Sequences.Fits width seqs)
    (here : width * seq.length < 2 ^ 31) : Sequences.Fits width (seqs.set a seq) := by
  intro b
  by_cases same : b = a
  · rw [same, Sequences.set, Function.update_self]
    exact here
  · rw [Sequences.set, Function.update_of_ne same]
    exact fits b

theorem perform_fits {result : Result Item} (refines : Refines world seqs)
    (fits : Sequences.Fits width seqs)
    (performed : perform width zero world call = .ok (next, result))
    (refinesNext : Refines next (seqs.perform zero call).1) :
    Sequences.Fits width (seqs.perform zero call).1 := by
  have set : ∀ {a seq}, Refines next (seqs.set a seq) → Backed width next a →
      Sequences.Fits width (seqs.set a seq) := by
    intro a seq holds backed
    have here := backed_fits holds backed
    rw [Sequences.set, Function.update_self] at here
    exact fits_set fits here
  have empty : ∀ o, (world.arrays o).size ≤ 0 → seqs o = [] := by
    intro o none
    rw [refines.size o] at none
    exact List.length_eq_zero_iff.mp (by omega)
  cases call with
  | get a loc => exact fits
  | put a loc val | putByRef a loc val =>
      apply fits_set fits
      rw [List.length_set]
      exact fits a
  | addToEnd a val =>
      rcases map_eq_ok performed with ⟨world, ran, same⟩
      cases same
      exact set refinesNext (add_to_end_backed ran)
  | addArrayToEnd a o =>
      rcases map_eq_ok performed with ⟨after, ran, same⟩
      cases same
      rcases add_array_to_end_backed ran with ⟨-, nothing⟩ | backed
      · apply fits_set fits
        rw [empty o nothing, List.append_nil]
        exact fits a
      · exact set refinesNext backed
  | insert a loc o =>
      rcases map_eq_ok performed with ⟨after, ran, same⟩
      cases same
      rcases insert_backed ran with ⟨-, nothing⟩ | backed
      · apply fits_set fits
        rw [empty o nothing, List.append_nil, List.take_append_drop]
        exact fits a
      · exact set refinesNext backed
  | resize a size zeroout =>
      rcases map_eq_ok performed with ⟨after, ran, same⟩
      cases same
      exact set refinesNext (resize_backed ran).1
  | assign a o =>
      rcases map_eq_ok performed with ⟨after, ran, same⟩
      cases same
      exact set refinesNext (assign_backed ran)

theorem run_fits (calls : List (Call Item)) (refines : Refines world seqs)
    (fits : Sequences.Fits width seqs)
        (correct : ∀ count, ∃ last, run width zero world (calls.take count) =
        .ok (last, (seqs.run zero (calls.take count)).2) ∧
        Refines last (seqs.run zero (calls.take count)).1) :
    seqs.FitsAll width zero calls := by
  induction calls generalizing world seqs with
  | nil => trivial
  | cons call rest ih =>
      rcases correct 1 with ⟨next, ran, refinesNext⟩
      rw [List.take_succ_cons, List.take_zero] at ran refinesNext
      rcases bind_eq_ok ran with ⟨⟨middle, result⟩, performed, ends⟩
      cases Except.ok.inj ends
      have fitsNext := perform_fits refines fits performed refinesNext
      refine ⟨fitsNext, ih refinesNext fitsNext fun count => ?_⟩
      rcases correct (count + 1) with ⟨last, ranOn, refinesLast⟩
      rw [List.take_succ_cons] at ranOn refinesLast
      refine ⟨last, ?_, refinesLast⟩
      simp only [run, performed, ok_bind] at ranOn
      rcases bind_eq_ok ranOn with ⟨⟨final, results⟩, onward, same⟩
      cases Except.ok.inj same
      exact onward

/-! ## The refinement -/

theorem admits_take (calls : List (Call Item)) (count : Nat) (admits : seqs.AdmitsAll zero calls) :
    seqs.AdmitsAll zero (calls.take count) := by
  induction calls generalizing seqs count with
  | nil => simpa using admits
  | cons call rest ih =>
      cases count with
      | zero => trivial
      | succ count => exact ⟨admits.1, ih count admits.2⟩

theorem fits_take (calls : List (Call Item)) (count : Nat) (fits : seqs.FitsAll width zero calls) :
    seqs.FitsAll width zero (calls.take count) := by
  induction calls generalizing seqs count with
  | nil => simpa using fits
  | cons call rest ih =>
      cases count with
      | zero => trivial
      | succ count => exact ⟨fits.1, ih count fits.2⟩

/-- The arrays are the sequences throughout a run exactly if the bytes of each sequence are always
counted by an `int`. -/
theorem dyn_array_refines_sequence_iff (positive : 0 < width) {calls : List (Call Item)}
    (admits : Sequences.new.AdmitsAll zero calls) :
    (∀ count, Correct width zero (calls.take count)) ↔ Sequences.new.FitsAll width zero calls := by
  constructor
  · intro correct
    have fits : Sequences.Fits width (Sequences.new : Sequences Item) :=
      fun a => by simp [Sequences.new]
    exact run_fits calls refines_new fits correct
  · intro fits count
    exact run_refines positive _ refines_new (admits_take calls count admits)
      (fits_take calls count fits)

/-- Two arrays are filled, one is put into the other, and the result is assigned to a third. -/
def twoJoined : List (Call Nat) :=
  [.addToEnd 0 7, .addToEnd 0 8, .addToEnd 1 9, .insert 0 1 1, .assign 2 0,
    .resize 0 1 false, .get 2 2]

theorem two_joined_admits : Sequences.new.AdmitsAll 0 twoJoined := by
  simp [twoJoined, Sequences.AdmitsAll, Sequences.Admits, Sequences.perform, Sequences.new,
    Sequences.set]

theorem two_joined_fits : Sequences.new.FitsAll 4 0 twoJoined := by
  refine ⟨?_, ?_, ?_, ?_, ?_, ?_, ?_, trivial⟩
  all_goals
    intro a
    simp [Sequences.perform, Sequences.new, Sequences.set, Function.update_apply]
    split_ifs <;> simp

theorem dyn_array_refines_sequence_two_joined :
    Correct 4 0 twoJoined ∧ Correct 4 0 (twoJoined.take 4) := by
  have correct := (dyn_array_refines_sequence_iff (by decide) two_joined_admits).mpr two_joined_fits
  exact ⟨correct 7, correct 4⟩

/-- With elements of four bytes the request is for four bytes: 2 ^ 32 + 4, as an `int`. -/
def pastInt : List (Call Nat) := [.resize 0 (2 ^ 30 + 1) false, .get 0 5]

theorem past_int_outside : run 4 0 World.new pastInt = .error .outside := rfl

/-- The allocation succeeds, and a position below the size is outside of the block. -/
theorem dyn_array_not_always_refines_sequence :
    ¬ ∀ (width blank : Nat) (calls : List (Call Nat)), 0 < width →
      Sequences.new.AdmitsAll blank calls →
      run width blank World.new calls ≠ .error .noMemory → Correct width blank calls := by
  intro claim
  have admits : Sequences.new.AdmitsAll 0 pastInt :=
    ⟨by simp [Sequences.Admits], by simp [Sequences.Admits], trivial⟩
  have allocates : run 4 0 World.new pastInt ≠ .error .noMemory := by
    rw [past_int_outside]
    simp
  rcases claim 4 0 pastInt (by decide) admits allocates with ⟨last, ran, -⟩
  rw [past_int_outside] at ran
  cases ran

end TWlib.DynArrays
