import Mathlib.Data.List.Basic
import Mathlib.Data.List.GetD

/-!
# A store of cells that are made, rewritten and given up

Cells are numbered in the order they are made, and a number is never used
again: a cell that was given up stays empty. Reading one is how an access after
the end of its life shows. `count` counts the existing cells with a property.
-/

namespace TWlib.Lib.CellStore

set_option autoImplicit false

structure Store (Value : Type*) where
  cells : List (Option Value)

variable {Value : Type*}

def Store.empty : Store Value := ⟨[]⟩

def Store.fresh (store : Store Value) : Nat := store.cells.length

def Store.read (store : Store Value) (cell : Nat) : Option Value := (store.cells[cell]?).join

def Store.write (store : Store Value) (cell : Nat) (value : Value) : Store Value :=
  ⟨store.cells.set cell (some value)⟩

def Store.giveUp (store : Store Value) (cell : Nat) : Store Value := ⟨store.cells.set cell none⟩

def Store.push (store : Store Value) (value : Value) : Store Value := ⟨store.cells ++ [some value]⟩

def Store.count (property : Value → Bool) (store : Store Value) : Nat :=
  store.cells.countP (fun cell => cell.any property)

@[simp] theorem fresh_write (store : Store Value) (cell : Nat) (value : Value) :
    (store.write cell value).fresh = store.fresh := by simp [Store.fresh, Store.write]

@[simp] theorem fresh_give_up (store : Store Value) (cell : Nat) :
    (store.giveUp cell).fresh = store.fresh := by simp [Store.fresh, Store.giveUp]

@[simp] theorem fresh_push (store : Store Value) (value : Value) :
    (store.push value).fresh = store.fresh + 1 := by simp [Store.fresh, Store.push]

@[simp] theorem read_empty (cell : Nat) : (Store.empty : Store Value).read cell = none := by
  simp [Store.read, Store.empty]

theorem read_beyond {store : Store Value} {cell : Nat} (beyond : store.fresh ≤ cell) :
    store.read cell = none := by
  simp [Store.read, List.getElem?_eq_none (show store.cells.length ≤ cell from beyond)]

theorem read_bound {store : Store Value} {cell : Nat} {value : Value}
    (present : store.read cell = some value) : cell < store.fresh := by
  by_contra beyond
  rw [read_beyond (Nat.le_of_not_lt beyond)] at present
  cases present

theorem alive_bound {store : Store Value} {cell : Nat} (present : (store.read cell).isSome) :
    cell < store.fresh := by
  rcases Option.isSome_iff_exists.mp present with ⟨value, read⟩
  exact read_bound read

theorem read_write {store : Store Value} {cell : Nat} {old : Value}
    (present : store.read cell = some old) (value : Value) (other : Nat) :
    (store.write cell value).read other = if other = cell then some value
    else store.read other := by
  have bound : cell < store.cells.length := read_bound present
  simp only [Store.read, Store.write, List.getElem?_set]
  by_cases same : other = cell
  · simp [same, bound]
  · simp [same, Ne.symm same]

theorem write_same {store : Store Value} {cell : Nat} {old : Value}
    (present : store.read cell = some old) :
    store.write cell old = store := by
  have bound : cell < store.cells.length := read_bound present
  have here : store.cells[cell]? = some (some old) := Option.join_eq_some_iff.mp present
  rw [Store.write, ← Option.some.inj ((List.getElem?_eq_getElem bound).symm.trans here),
    List.set_getElem_self]

theorem map_read_write {Field : Type*} (field : Value → Field) {store : Store Value} {cell : Nat}
    {old : Value} (present : store.read cell = some old) (value : Value) (other : Nat) :
    ((store.write cell value).read other).map field =
      if other = cell then some (field value) else (store.read other).map field := by
  rw [read_write present]
  split_ifs <;> rfl

theorem map_read_write_same {Field : Type*} (field : Value → Field) {store : Store Value}
    {cell : Nat} {old : Value} (present : store.read cell = some old) (value : Value)
    (same : field value = field old) (other : Nat) :
    ((store.write cell value).read other).map field = (store.read other).map field := by
  rw [map_read_write field present]
  split_ifs with here
  · rw [here, present, same, Option.map_some]
  · rfl

theorem read_give_up (store : Store Value) (cell other : Nat) :
    (store.giveUp cell).read other = if other = cell then none else store.read other := by
  simp only [Store.read, Store.giveUp, List.getElem?_set]
  by_cases same : other = cell
  · subst same
    by_cases bound : other < store.cells.length <;> simp [bound]
  · simp [same, Ne.symm same]

theorem read_push (store : Store Value) (value : Value) (other : Nat) :
    (store.push value).read other = if other = store.fresh then some value
    else store.read other := by
  simp only [Store.read, Store.push, Store.fresh, List.getElem?_append]
  by_cases same : other = store.cells.length
  · simp [same]
  · by_cases bound : other < store.cells.length
    · simp [bound, same]
    · have beyond : store.cells.length + 1 ≤ other := by omega
      have late : [some value][other - store.cells.length]? = none :=
        List.getElem?_eq_none (by simp; omega)
      simp [bound, same, late]

theorem read_push_of_present {store : Store Value} {cell : Nat} {old : Value}
    (present : store.read cell = some old) (value : Value) :
    (store.push value).read cell = some old := by
  rw [read_push, if_neg (Nat.ne_of_lt (read_bound present)), present]

theorem push_write (store : Store Value) (made value : Value) :
    (store.push made).write store.fresh value = store.push value := by
  simp [Store.push, Store.write, Store.fresh]

/-! ## What a change leaves -/

/-- Only the cells of `gone` may have changed; what is new has a new number. -/
structure Spares (before after : Store Value) (gone : Nat → Prop) : Prop where
  grows : before.fresh ≤ after.fresh
  kept : ∀ cell, (before.read cell).isSome → ¬ gone cell → after.read cell = before.read cell
  only : ∀ cell, (after.read cell).isSome → before.fresh ≤ cell ∨ (before.read cell).isSome

section Changes

variable {before middle after : Store Value} {gone left right : Nat → Prop}

theorem spares_refl (store : Store Value) (gone : Nat → Prop) : Spares store store gone where
  grows := Nat.le_refl _
  kept := fun _ _ _ => rfl
  only := fun _ present => Or.inr present

theorem spares_mono (spares : Spares before after left) (more : ∀ cell, left cell → right cell) :
    Spares before after right where
  grows := spares.grows
  kept := fun cell present outside => spares.kept cell present fun inside =>
    outside (more cell inside)
  only := spares.only

theorem spares_trans (first : Spares before middle gone) (second : Spares middle after gone) :
    Spares before after gone where
  grows := Nat.le_trans first.grows second.grows
  kept := by
    intro cell present outside
    have stays := first.kept cell present outside
    rw [← stays]
    exact second.kept cell (by rw [stays]; exact present) outside
  only := by
    intro cell present
    rcases second.only cell present with new | old
    · exact Or.inl (Nat.le_trans first.grows new)
    · exact first.only cell old

theorem spares_gone (spares : Spares before after gone) (same : after.fresh = before.fresh)
    {cell : Nat} (missing : before.read cell = none) : after.read cell = none := by
  by_contra there
  have present := Option.isSome_iff_ne_none.mpr there
  rcases spares.only cell present with new | old
  · have bound := alive_bound present
    omega
  · rw [missing] at old
    cases old

theorem spares_give_up (store : Store Value) (cell : Nat) : Spares store (store.giveUp cell)
    (· = cell) where
  grows := Nat.le_of_eq (fresh_give_up _ _).symm
  kept := by
    intro other _ differ
    rw [read_give_up, if_neg differ]
  only := by
    intro other present
    rw [read_give_up] at present
    by_cases same : other = cell
    · rw [if_pos same] at present
      cases present
    · rw [if_neg same] at present
      exact Or.inr present

theorem spares_push (store : Store Value) (value : Value) :
    Spares store (store.push value) fun _ => False where
  grows := by
    rw [fresh_push]
    exact Nat.le_succ _
  kept := by
    intro other present _
    rcases Option.isSome_iff_exists.mp present with ⟨old, stored⟩
    rw [read_push_of_present stored, stored]
  only := by
    intro other present
    rw [read_push] at present
    by_cases new : other = store.fresh
    · exact Or.inl (Nat.le_of_eq new.symm)
    · rw [if_neg new] at present
      exact Or.inr present

theorem spares_write {store : Store Value} {cell : Nat} {old : Value}
    (present : store.read cell = some old) (value : Value) : Spares store (store.write cell value)
    (· = cell) where
  grows := Nat.le_of_eq (fresh_write _ _ _).symm
  kept := by
    intro other _ differ
    rw [read_write present, if_neg differ]
  only := by
    intro other stays
    rw [read_write present] at stays
    by_cases same : other = cell
    · rw [same, present]
      exact Or.inr rfl
    · rw [if_neg same] at stays
      exact Or.inr stays

end Changes

section Counting

variable (property : Value → Bool)

@[simp] theorem count_empty : (Store.empty : Store Value).count property =
    0 := by simp [Store.count, Store.empty]

@[simp] theorem count_push (store : Store Value) (value : Value) :
    (store.push value).count property = store.count property + if property value then 1 else 0 := by
  simp [Store.count, Store.push, List.countP_append, List.countP_singleton]

private theorem cell_at {store : Store Value} {cell : Nat} {old : Value}
    (present : store.read cell = some old) (bound : cell < store.cells.length) :
    store.cells[cell] = some old := by
  simpa [Store.read, List.getElem?_eq_getElem bound] using present

theorem count_pos_of_read {store : Store Value} {cell : Nat} {value : Value}
    (present : store.read cell = some value) (holds : property value = true) :
    0 < store.count property := by
  have bound : cell < store.cells.length := read_bound present
  refine List.countP_pos_iff.mpr ⟨some value, ?_, by simpa using holds⟩
  exact cell_at present bound ▸ List.getElem_mem bound

theorem count_write {store : Store Value} {cell : Nat} {old : Value}
    (present : store.read cell = some old) (value : Value) :
    (store.write cell value).count property + (if property old then 1 else 0) =
      store.count property + if property value then 1 else 0 := by
  have bound : cell < store.cells.length := read_bound present
  have here := cell_at present bound
  have enough : (if property old then 1 else 0) ≤ store.count property := by
    split
    · exact count_pos_of_read property present (by assumption)
    · exact Nat.zero_le _
  simp only [Store.count, Store.write, List.countP_set bound, here, Option.any_some] at enough ⊢
  omega

theorem count_eq_range (store : Store Value) : store.count property =
    (List.range store.fresh).countP fun cell => (store.read cell).any property := by
  have cells : (List.range store.fresh).map store.read = store.cells := by
    apply List.ext_getElem?
    intro cell
    by_cases bound : cell < store.cells.length
    · simp [Store.fresh, Store.read, bound]
    · simp [Store.fresh, bound]
  rw [Store.count, ← cells, List.countP_map]
  rfl

theorem count_apart (store : Store Value) {group : List Nat} (nodup : group.Nodup)
    (bound : ∀ cell ∈ group, cell < store.fresh) :
    store.count property = (group.countP fun cell => (store.read cell).any property) +
      (List.range store.fresh).countP fun cell =>
        decide (cell ∉ group) && (store.read cell).any property := by
  have perm : (List.range store.fresh).Perm
      (group ++ (List.range store.fresh).filter fun cell => cell ∉ group) := by
    have nodupRest : ((List.range store.fresh).filter fun cell => cell ∉ group).Nodup :=
      List.nodup_range.filter _
    refine (List.perm_ext_iff_of_nodup List.nodup_range ?_).mpr fun cell => ?_
    · refine List.nodup_append.mpr ⟨nodup, nodupRest,
        fun left leftMember right rightMember same => ?_⟩
      have outside : right ∉ group := by simpa using (List.mem_filter.mp rightMember).2
      exact outside (same ▸ leftMember)
    · simp only [List.mem_range, List.mem_append, List.mem_filter, decide_eq_true_eq]
      by_cases member : cell ∈ group
      · simp [member, bound cell member]
      · simp [member]
  rw [count_eq_range, perm.countP_eq, List.countP_append, List.countP_filter]
  simp only [Bool.and_comm]

end Counting

/-! ## What was made and what was freed -/

/-- The same cells exist. -/
structure Rewired (before after : Store Value) : Prop where
  fresh : after.fresh = before.fresh
  alive : ∀ cell, (after.read cell).isSome = (before.read cell).isSome

/-- A change that gives cells up and makes others, which stay. -/
structure Exchange (before after : Store Value) : Prop where
  grows : before.fresh ≤ after.fresh
  gone : ∀ cell, cell < before.fresh → before.read cell = none → after.read cell = none
  made : ∀ cell, before.fresh ≤ cell → cell < after.fresh → (after.read cell).isSome

/-- The cells that exist before a change and not after it. -/
def givenUp (before after : Store Value) : List Nat :=
  (List.range before.fresh).filter fun cell => (before.read cell).isSome && (after.read cell).isNone

/-- The log has each cell that was made and is gone, once. -/
structure Account (log : List Nat) (store : Store Value) : Prop where
  once : log.Nodup
  gone : ∀ cell, cell ∈ log ↔ cell < store.fresh ∧ store.read cell = none

section Ledger

variable {before middle after : Store Value} {cell : Nat} {log : List Nat}

theorem rewired_refl (store : Store Value) : Rewired store store := ⟨rfl, fun _ => rfl⟩

theorem rewired_trans (first : Rewired before middle) (second : Rewired middle after) :
    Rewired before after :=
  ⟨second.fresh.trans first.fresh, fun cell => (second.alive cell).trans (first.alive cell)⟩

theorem rewired_write {old : Value} (present : before.read cell = some old) (value : Value) :
    Rewired before (before.write cell value) := by
  refine ⟨fresh_write _ _ _, fun other => ?_⟩
  rw [read_write present]
  split_ifs with same
  · rw [same, present]
    rfl
  · rfl

theorem rewired_gone (rewired : Rewired before after) (missing : before.read cell = none) :
    after.read cell = none := by
  have alive := rewired.alive cell
  rw [missing] at alive
  exact Option.isNone_iff_eq_none.mp (by simpa using alive)

theorem exchange_rewired (rewired : Rewired before after) : Exchange before after where
  grows := Nat.le_of_eq rewired.fresh.symm
  gone := fun _ _ missing => rewired_gone rewired missing
  made := fun cell beyond bound => by
    rw [rewired.fresh] at bound
    omega

theorem exchange_make {made : Value} (rewired : Rewired (before.push made) after) :
    Exchange before after where
  grows := by
    rw [rewired.fresh, fresh_push]
    exact Nat.le_succ _
  gone := by
    intro cell bound missing
    apply rewired_gone rewired
    rw [read_push, if_neg (Nat.ne_of_lt bound), missing]
  made := by
    intro cell beyond bound
    rw [rewired.fresh, fresh_push] at bound
    have new : cell = before.fresh := by omega
    rw [rewired.alive, read_push, if_pos new]
    rfl

theorem exchange_free (rewired : Rewired before middle) (cell : Nat) :
    Exchange before (middle.giveUp cell) where
  grows := by
    rw [fresh_give_up]
    exact Nat.le_of_eq rewired.fresh.symm
  gone := by
    intro other _ missing
    rw [read_give_up]
    split_ifs
    · rfl
    · exact rewired_gone rewired missing
  made := by
    intro other beyond bound
    rw [fresh_give_up, rewired.fresh] at bound
    omega

theorem mem_given_up : cell ∈ givenUp before after ↔ (before.read cell).isSome ∧
    after.read cell = none := by
  simp only [givenUp, List.mem_filter, List.mem_range, Bool.and_eq_true, Option.isNone_iff_eq_none]
  exact ⟨fun member => member.2, fun both => ⟨alive_bound both.1, both⟩⟩

theorem account_empty : Account [] (Store.empty : Store Value) :=
  ⟨List.nodup_nil, fun cell => by simp [Store.fresh, Store.empty]⟩

/-- What a change frees is new in the log, since what is gone does not come back. -/
theorem account_exchange (account : Account log before) (exchange : Exchange before after) :
    Account (log ++ givenUp before after) after := by
  refine ⟨List.nodup_append.mpr ⟨account.once, List.nodup_range.filter _, ?_⟩, fun cell => ?_⟩
  · rintro left logged right freed rfl
    have missing := ((account.gone left).mp logged).2
    have present := (mem_given_up.mp freed).1
    rw [missing] at present
    cases present
  · rw [List.mem_append, account.gone, mem_given_up]
    constructor
    · rintro (⟨bound, missing⟩ | ⟨present, missing⟩)
      · exact ⟨Nat.lt_of_lt_of_le bound exchange.grows, exchange.gone cell bound missing⟩
      · exact ⟨Nat.lt_of_lt_of_le (alive_bound present) exchange.grows, missing⟩
    · rintro ⟨bound, missing⟩
      by_cases old : cell < before.fresh
      · cases present : before.read cell with
        | none => exact .inl ⟨old, rfl⟩
        | some value => exact .inr ⟨rfl, missing⟩
      · have present := exchange.made cell (Nat.le_of_not_lt old) bound
        rw [missing] at present
        cases present

end Ledger

end TWlib.Lib.CellStore
