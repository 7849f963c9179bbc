import TWlib.Lib.CellStore

/-!
# Blocks of elements, and the library functions on them

A block has the elements there is room for in the bytes it was requested with; one that was not
written since is `none`. A pointer is `none` when it is NULL. A block of no bytes stands for the
NULL an allocator may return instead: nothing can be read or written through either. Requests are
signed, and one that is negative is for more memory than there is.
-/

namespace TWlib.Lib.ElementBlocks

open TWlib.Lib.CellStore

set_option autoImplicit false

variable {Item : Type*}

abbrev Blocks (Item : Type*) := Store (List (Option Item))

inductive Fault where
  /-- The allocator returns NULL. -/
  | noMemory
  /-- An access that is not to an element of a block that is allocated. -/
  | outside
  /-- `memcpy` of a range to one that overlaps it. -/
  | overlap
deriving DecidableEq

universe u

@[simp] theorem ok_bind {First Second : Type u} (value : First)
    (onward : First → Except Fault Second) :
    (Except.ok value >>= onward) = onward value := rfl

@[simp] theorem error_bind {First Second : Type u} (fault : Fault)
    (onward : First → Except Fault Second) :
    (Except.error fault >>= onward) = .error fault := rfl

theorem bind_eq_ok {First Second : Type u} {ran : Except Fault First}
    {onward : First → Except Fault Second} {last : Second} (both : (ran >>= onward) = .ok last) :
    ∃ first, ran = .ok first ∧ onward first = .ok last := by
  cases ran with
  | error fault => cases both
  | ok first => exact ⟨first, rfl, both⟩

theorem map_eq_ok {First Second : Type u} {ran : Except Fault First} {convert : First → Second}
    {last : Second} (both : ran.map convert = .ok last) :
    ∃ first, ran = .ok first ∧ convert first = last := by
  cases ran with
  | error fault => cases both
  | ok first => exact ⟨first, rfl, Except.ok.inj both⟩

/-! ## The functions -/

/-- What a block keeps when its size changes. -/
def resized (count : Nat) (content : List (Option Item)) : List (Option Item) :=
  content.take count ++ List.replicate (count - content.length) none

def overwrite (off : Nat) (values content : List (Option Item)) : List (Option Item) :=
  content.take off ++ values ++ content.drop (off + values.length)

def malloc (width : Nat) (request : Int) (blocks : Blocks Item) :
    Except Fault (Blocks Item × Option Nat) :=
  if request < 0 then .error .noMemory
  else .ok (blocks.push (List.replicate (request.toNat / width) none), some blocks.fresh)

/-- The content moves to a new block. -/
def realloc (width : Nat) (request : Int) (blocks : Blocks Item) (array : Option Nat) :
    Except Fault (Blocks Item × Option Nat) :=
  match array with
  | none => malloc width request blocks
  | some old =>
      match blocks.read old with
      | none => .error .outside
      | some content =>
          if request < 0 then .error .noMemory
          else .ok ((blocks.giveUp old).push (resized (request.toNat / width) content),
            some blocks.fresh)

def free (blocks : Blocks Item) (array : Option Nat) : Except Fault (Blocks Item) :=
  match array with
  | none => .ok blocks
  | some old => if (blocks.read old).isSome then .ok (blocks.giveUp old) else .error .outside

/-- The elements at `src .. src + count - 1`. -/
def fetch (blocks : Blocks Item) (array : Option Nat) (src count : Int) :
    Except Fault (List (Option Item)) :=
  match array.bind blocks.read with
  | none => .error .outside
  | some content =>
      if 0 ≤ src ∧ 0 ≤ count ∧ src + count ≤ content.length then .ok
        ((content.drop src.toNat).take count.toNat)
      else .error .outside

def deposit (blocks : Blocks Item) (array : Option Nat) (dst : Int) (values : List (Option Item)) :
    Except Fault (Blocks Item) :=
  match array with
  | none => .error .outside
  | some block =>
      match blocks.read block with
      | none => .error .outside
      | some content =>
          if 0 ≤ dst ∧ dst + values.length ≤ content.length then
            .ok (blocks.write block (overwrite dst.toNat values content))
          else .error .outside

def load (blocks : Blocks Item) (array : Option Nat) (loc : Int) : Except Fault (Option Item) :=
  (fetch blocks array loc 1).map fun values => values.head?.join

def store (blocks : Blocks Item) (array : Option Nat) (loc : Int) (value : Item) :
    Except Fault (Blocks Item) :=
  deposit blocks array loc [some value]

def memset (blocks : Blocks Item) (array : Option Nat) (dst : Int) (value : Item) (count : Nat) :
    Except Fault (Blocks Item) :=
  deposit blocks array dst (List.replicate count (some value))

/-- Nothing is moved when there is nothing to be moved, whatever the pointers are. -/
def memmove (blocks : Blocks Item) (target : Option Nat) (dst : Int) (source : Option Nat)
    (src count : Int) :
    Except Fault (Blocks Item) :=
  if count = 0 then .ok blocks
  else do
    let values ← fetch blocks source src count
    deposit blocks target dst values

def memcpy (blocks : Blocks Item) (target : Option Nat) (dst : Int) (source : Option Nat)
    (src count : Int) :
    Except Fault (Blocks Item) :=
  if target = source ∧ dst < src + count ∧ src < dst + count then .error .overlap
  else memmove blocks target dst source src count

/-! ## What they do -/

variable {blocks after : Blocks Item} {content values : List (Option Item)}
  {array target source : Option Nat} {block other width : Nat} {request : Int}

/-- What can be read through a pointer. -/
def contents (blocks : Blocks Item) : Option Nat → Option (List (Option Item))
  | none => some []
  | some block => blocks.read block

/-- The blocks that are there, without the one that `array` points to, are what they were. -/
def KeepsBut (blocks after : Blocks Item) (array : Option Nat) : Prop :=
  ∀ block content, blocks.read block = some content → array ≠ some block →
    after.read block = some content

theorem resized_nil (count : Nat) : resized count ([] : List (Option Item)) =
    List.replicate count none := by
  simp [resized]

theorem resized_grow (more : Nat) (content : List (Option Item)) :
    resized (content.length + more) content = content ++ List.replicate more none := by
  rw [resized, List.take_of_length_le (Nat.le_add_right _ _), Nat.add_sub_cancel_left]

theorem overwrite_middle (front old behind : List (Option Item))
    (same : old.length = values.length) :
    overwrite front.length values (front ++ (old ++ behind)) = front ++ (values ++ behind) := by
  rw [overwrite, List.take_left, ← same, ← List.length_append, ← List.append_assoc, List.drop_left,
    List.append_assoc]

theorem overwrite_shift (front back : List (Option Item)) (count : Nat) :
    ∃ gap : List (Option Item), gap.length = count ∧
      overwrite (front.length + count)
        (((front ++ back ++ List.replicate count none).drop front.length).take back.length)
        (front ++ back ++ List.replicate count none) = front ++ (gap ++ back) := by
  refine ⟨(back ++ List.replicate count none).take count, ?_, ?_⟩
  · rw [List.length_take, List.length_append, List.length_replicate]
    omega
  · rw [List.append_assoc, List.drop_left, List.take_left, overwrite, List.take_length_add_append,
      List.append_assoc, List.append_assoc]
    congr 2
    rw [List.drop_eq_nil_of_le, List.append_nil]
    simp only [List.length_append, List.length_replicate]
    omega

theorem malloc_eq (fits : 0 ≤ request) : malloc width request blocks =
    .ok (blocks.push (List.replicate (request.toNat / width) none), some blocks.fresh) :=
  if_neg (by omega)

theorem realloc_eq (width : Nat) (holds : contents blocks array = some content)
    (fits : 0 ≤ request) :
    ∃ after, realloc width request blocks array = .ok (after, some blocks.fresh) ∧
      after.read blocks.fresh = some (resized (request.toNat / width) content) ∧
      KeepsBut blocks after array := by
  cases array with
  | none =>
      cases Option.some.inj holds
      refine ⟨_, malloc_eq fits, ?_, ?_⟩
      · rw [resized_nil, read_push, if_pos rfl]
      · intro block content present _
        exact read_push_of_present present _
  | some old =>
      have present : blocks.read old = some content := holds
      refine ⟨(blocks.giveUp old).push (resized (request.toNat / width) content), ?_, ?_, ?_⟩
      · simp only [realloc, present]
        exact if_neg (by omega)
      · rw [← fresh_give_up blocks old, read_push, if_pos rfl]
      · intro block kept there different
        apply read_push_of_present
        rw [read_give_up, if_neg fun same => different (by rw [same])]
        exact there

theorem free_eq (holds : contents blocks array = some content) :
    ∃ after, free blocks array = .ok after ∧ after.fresh = blocks.fresh ∧
    KeepsBut blocks after array := by
  cases array with
  | none => exact ⟨blocks, rfl, rfl, fun _ _ present _ => present⟩
  | some old =>
      have present : blocks.read old = some content := holds
      refine ⟨blocks.giveUp old, by simp [free, present], fresh_give_up _ _, ?_⟩
      intro block kept there different
      rw [read_give_up, if_neg fun same => different (by rw [same])]
      exact there

theorem fetch_eq (present : blocks.read block = some content) {src count : Nat}
    (bound : src + count ≤ content.length) :
    fetch blocks (some block) src count = .ok ((content.drop src).take count) := by
  simp only [fetch, Option.bind_some, present, Int.toNat_natCast]
  exact if_pos (by omega)

theorem deposit_eq (present : blocks.read block = some content) (dst : Nat)
    (values : List (Option Item)) (bound : dst + values.length ≤ content.length) :
    ∃ after, deposit blocks (some block) dst values = .ok after ∧
      after.read block = some (overwrite dst values content) ∧
      KeepsBut blocks after (some block) := by
  refine ⟨blocks.write block (overwrite dst values content), ?_, ?_, ?_⟩
  · simp only [deposit, present, Int.toNat_natCast]
    exact if_pos (by omega)
  · rw [read_write present, if_pos rfl]
  · intro other kept there different
    rw [read_write present, if_neg fun same => different (by rw [same])]
    exact there

theorem load_eq (present : blocks.read block = some content) {loc : Nat}
    (bound : loc < content.length) :
    load blocks (some block) loc = .ok (content[loc]?).join := by
  have fetched := fetch_eq present (show loc + 1 ≤ content.length from bound)
  rw [load, show (1 : Int) = ((1 : Nat) : Int) from rfl, fetched]
  simp [Except.map, List.head?_take, List.head?_drop]

theorem memmove_eq {from_ : Nat} {taken : List (Option Item)}
    (present : blocks.read block = some content) (there : blocks.read from_ = some taken)
    (dst src count : Nat) (inside : src + count ≤ taken.length)
    (room : dst + count ≤ content.length) :
    ∃ after, memmove blocks (some block) dst (some from_) src count = .ok after ∧
      after.read block = some (overwrite dst ((taken.drop src).take count) content) ∧
      KeepsBut blocks after (some block) := by
  by_cases nothing : count = 0
  · subst nothing
    refine ⟨blocks, by simp [memmove], ?_, fun _ _ kept _ => kept⟩
    simp [overwrite, present]
  · have length : ((taken.drop src).take count).length = count := by
      rw [List.length_take, List.length_drop]
      omega
    rcases deposit_eq present dst ((taken.drop src).take count) (by rw [length]; exact room) with
      ⟨after, deposits, reads, keeps⟩
    refine ⟨after, ?_, reads, keeps⟩
    have some_ : ¬ ((count : Int) = 0) := by omega
    simp only [memmove, some_, if_false, fetch_eq there inside]
    exact deposits

theorem memcpy_eq {from_ : Nat} {taken : List (Option Item)}
    (present : blocks.read block = some content) (there : blocks.read from_ = some taken)
    (apart : block ≠ from_) (dst src count : Nat) (inside : src + count ≤ taken.length)
    (room : dst + count ≤ content.length) :
    ∃ after, memcpy blocks (some block) dst (some from_) src count = .ok after ∧
      after.read block = some (overwrite dst ((taken.drop src).take count) content) ∧
      KeepsBut blocks after (some block) := by
  have different : ¬ (some block = some from_ ∧ (dst : Int) < src + count ∧
      (src : Int) < dst + count) :=
    fun same => apart (Option.some.inj same.1)
  rw [memcpy, if_neg different]
  exact memmove_eq present there dst src count inside room

/-! ## The room in a block -/

theorem malloc_room (ran : malloc width request blocks = .ok (after, array)) :
    ∃ block content, array = some block ∧ after.read block = some content ∧
      content.length = request.toNat / width := by
  unfold malloc at ran
  split_ifs at ran with negative
  cases Except.ok.inj ran
  refine ⟨blocks.fresh, List.replicate (request.toNat / width) none, rfl, ?_, List.length_replicate⟩
  rw [read_push, if_pos rfl]

theorem realloc_room (ran : realloc width request blocks array = .ok (after, target)) :
    ∃ block content, target = some block ∧ after.read block = some content ∧
      content.length = request.toNat / width := by
  cases array with
  | none => exact malloc_room ran
  | some old =>
      cases present : blocks.read old with
      | none => simp [realloc, present] at ran
      | some content =>
          simp only [realloc, present] at ran
          split_ifs at ran with negative
          cases Except.ok.inj ran
          refine ⟨blocks.fresh, resized (request.toNat / width) content, rfl, ?_, ?_⟩
          · rw [← fresh_give_up blocks old, read_push, if_pos rfl]
          · rw [resized, List.length_append, List.length_take, List.length_replicate]
            omega

/-- Nothing but an allocation changes how many elements a block has. -/
def SameRoom (blocks after : Blocks Item) : Prop :=
  ∀ block, (after.read block).map List.length = (blocks.read block).map List.length

theorem deposit_same_room {dst : Int} (ran : deposit blocks target dst values = .ok after) :
    SameRoom blocks after := by
  cases target with
  | none => cases ran
  | some block =>
      cases present : blocks.read block with
      | none => simp [deposit, present] at ran
      | some content =>
          simp only [deposit, present] at ran
          split_ifs at ran with bound
          cases Except.ok.inj ran
          intro other
          rw [read_write present]
          split_ifs with same
          · rw [same, present]
            simp only [Option.map_some, Option.some.injEq, overwrite, List.length_append,
              List.length_take,
              List.length_drop]
            omega
          · rfl

theorem memmove_same_room {dst src count : Int}
    (ran : memmove blocks target dst source src count = .ok after) :
    SameRoom blocks after := by
  unfold memmove at ran
  split_ifs at ran with nothing
  · cases ran
    exact fun _ => rfl
  · rcases bind_eq_ok ran with ⟨values, -, deposits⟩
    exact deposit_same_room deposits

theorem memcpy_same_room {dst src count : Int}
    (ran : memcpy blocks target dst source src count = .ok after) :
    SameRoom blocks after := by
  unfold memcpy at ran
  split_ifs at ran with overlaps
  exact memmove_same_room ran

end TWlib.Lib.ElementBlocks
