import Mathlib.Data.List.Basic
import Mathlib.Data.List.Perm.Basic

/-!
# A double-ended queue and its ledger

Items come in at both ends and are delivered at the front; `replace` gives up what is stored
for something else. The ledger keeps what was delivered and what was given up, so that nothing
can be lost or appear twice without a trace.
-/

namespace TWlib.Lib.Deque

set_option autoImplicit false

inductive Op (Item : Type*) where
  | pushBack (item : Item)
  | pushFront (item : Item)
  | popFront (item : Item)
  | replace (items : List Item)
deriving DecidableEq

structure Ledger (Item : Type*) where
  content : List Item
  delivered : List Item
  cleared : List Item

variable {Item : Type*}

def Ledger.empty : Ledger Item := ⟨[], [], []⟩

def Op.accepted : Op Item → List Item
  | .pushBack item | .pushFront item => [item]
  | .popFront _ => []
  | .replace items => items

def Op.delivered : Op Item → List Item
  | .popFront item => [item]
  | _ => []

/-- An item is delivered only when it is the first one. -/
inductive Apply : Ledger Item → Op Item → Ledger Item → Prop where
  | pushBack (content delivered cleared : List Item) (item : Item) :
      Apply ⟨content, delivered, cleared⟩ (.pushBack item) ⟨content ++ [item], delivered, cleared⟩
  | pushFront (content delivered cleared : List Item) (item : Item) :
      Apply ⟨content, delivered, cleared⟩ (.pushFront item) ⟨item :: content, delivered, cleared⟩
  | popFront (rest delivered cleared : List Item) (item : Item) :
      Apply ⟨item :: rest, delivered, cleared⟩ (.popFront item) ⟨rest, delivered ++ [item], cleared⟩
  | replace (content delivered cleared items : List Item) :
      Apply ⟨content, delivered, cleared⟩ (.replace items) ⟨items, delivered, cleared ++ content⟩

inductive Replay : Ledger Item → List (Op Item) → Ledger Item → Prop where
  | done (ledger : Ledger Item) : Replay ledger [] ledger
  | next {ledger middle final : Ledger Item} {op : Op Item} {ops : List (Op Item)}
      (apply : Apply ledger op middle) (rest : Replay middle ops final) :
      Replay ledger (op :: ops) final

variable {ledger middle final : Ledger Item} {op : Op Item} {ops more : List (Op Item)}

theorem replay_append (first : Replay ledger ops middle) (second : Replay middle more final) :
    Replay ledger (ops ++ more) final := by
  induction first with
  | done ledger => exact second
  | next apply rest ih => exact .next apply (ih second)

theorem replay_single (apply : Apply ledger op final) : Replay ledger [op] final :=
  .next apply (.done final)

def Ledger.all (ledger : Ledger Item) : List Item :=
  ledger.delivered ++ ledger.cleared ++ ledger.content

theorem apply_accounts (apply : Apply ledger op final) :
    final.all.Perm (ledger.all ++ op.accepted) := by
  cases apply with
  | pushBack content delivered cleared item => simp [Ledger.all, Op.accepted]
  | pushFront content delivered cleared item =>
      have moved : (item :: content).Perm (content ++ [item]) :=
        (List.perm_append_singleton item content).symm
      simpa [Ledger.all, Op.accepted] using moved.append_left (delivered ++ cleared)
  | popFront rest delivered cleared item =>
      have moved : ([item] ++ cleared).Perm (cleared ++ [item]) := List.perm_append_comm
      simpa [Ledger.all, Op.accepted] using (moved.append_right rest).append_left delivered
  | replace content delivered cleared items => simp [Ledger.all, Op.accepted]

/-- What was accepted is what was delivered, given up or is still there, each once. -/
theorem replay_accounts (replay : Replay ledger ops final) :
    final.all.Perm (ledger.all ++ ops.flatMap Op.accepted) := by
  induction replay with
  | done ledger => simp
  | next apply rest ih =>
      rename_i op ops
      have step := (apply_accounts apply).append_right (ops.flatMap Op.accepted)
      simpa [List.append_assoc] using ih.trans step

theorem replay_delivered (replay : Replay ledger ops final) :
    final.delivered = ledger.delivered ++ ops.flatMap Op.delivered := by
  induction replay with
  | done ledger => simp
  | next apply rest ih =>
      rw [ih]
      cases apply <;> simp [Op.delivered]

theorem replay_split (replay : Replay ledger (ops ++ more) final) :
    ∃ middle, Replay ledger ops middle ∧ Replay middle more final := by
  induction ops generalizing ledger with
  | nil => exact ⟨ledger, .done ledger, replay⟩
  | cons op ops ih =>
      cases replay with
      | next apply rest =>
          rcases ih rest with ⟨middle, first, second⟩
          exact ⟨middle, .next apply first, second⟩

theorem apply_unique {other : Ledger Item} (apply : Apply ledger op final)
    (again : Apply ledger op other) :
    final = other := by
  cases apply <;> cases again <;> rfl

theorem replay_unique {other : Ledger Item} (replay : Replay ledger ops final)
    (again : Replay ledger ops other) :
    final = other := by
  induction replay with
  | done ledger =>
      cases again
      rfl
  | next apply rest ih =>
      cases again with
      | next applied others =>
          cases apply_unique apply applied
          exact ih others

theorem replay_cleared (keeps : ∀ op ∈ ops, ∀ items, op ≠ .replace items)
    (replay : Replay ledger ops final) :
    final.cleared = ledger.cleared := by
  induction replay with
  | done ledger => rfl
  | next apply rest ih =>
      rw [ih fun op member => keeps op (List.mem_cons_of_mem _ member)]
      cases apply with
      | replace content delivered cleared items =>
          exact absurd rfl (keeps _ (List.mem_cons_self ..) items)
      | _ => rfl

end TWlib.Lib.Deque
