import TWlib.KTreeDelete
import TWlib.KTreeWalk
import Mathlib.Algebra.Group.Action.Defs
import Mathlib.Algebra.Order.BigOperators.Group.List
import Mathlib.Algebra.Order.Ring.Nat

/-!
# What can be seen of a B-tree

A new tree has no key; the functions that only look at a tree show the keys that it holds, and the
bounds on the number of keys in a node bound its height.
-/

namespace TWlib.KTree

open TWlib.Lib.CellStore
open TWlib.Lib.MachineInt
open TWlib.Lib.SeparatedRow
open TWlib.Lib.SortedList
open TWlib.Lib.SortedBag

set_option autoImplicit false

variable {Key : Type} {cmp : Key → Key → Int} {layout : Layout} {nodes : Store (KbNode Key)}
  {height : Nat} {row : NodeRow Key} {piece item : Piece Key} {b next : KbTree Key}

theorem lawful_generic_cmp [LinearOrder Key] : Lawful (kbGenericCmp : Key → Key → Int) := by
  have sign : ∀ a b : Key, (kbGenericCmp a b ≤ 0 ↔ a ≤ b) ∧ (kbGenericCmp a b < 0 ↔ a < b) := by
    intro a b
    rcases lt_trichotomy a b with below | rfl | above
    · simp [kbGenericCmp, below, below.le, not_lt_of_gt below]
    · simp [kbGenericCmp]
    · simp [kbGenericCmp, above, not_lt_of_gt above, not_le_of_gt above]
  constructor
  · intro a b
    rw [(sign a b).2, ← not_le, ← (sign b a).1]
    exact Int.not_le
  · intro a b c first second
    exact (sign a c).1.mpr (le_trans ((sign a b).1.mp first) ((sign b c).1.mp second))

/-! ## A new tree -/

theorem init_spec (cmp : Key → Key → Int) {size : Int} {counted keySize : Nat}
    (made : kbInit size counted keySize = some b) :
    ∃ piece, Represents cmp b 0 piece ∧ piece.keys = [] ∧ b.nNodes = piece.cells.length ∧
      piece.cells.length = b.nodes.fresh ∧ 2 ≤ b.layout.t := by
  simp only [kbInit] at made
  split_ifs at made with small fits
  have degree : 2 ≤ (kbDegree size counted).toNat := by omega
  have formed : Formed (kbLayout keySize (kbDegree size counted).toNat) := formed_layout degree
  cases made
  let layout := kbLayout keySize (kbDegree size counted).toNat
  refine ⟨pieceOf layout 0 0 layout.ilen ⟨.empty, []⟩, ⟨formed, ?_, rfl, ?_, ?_, ?_, ?_, .nil,
    (show (0 : Int) = asInt 0 by decide), (show IsInt 1 by decide)⟩,
    rfl, rfl, rfl, degree⟩
  · refine built_pieceOf rfl (Nat.zero_le _) (absurd · (Nat.lt_irrefl 0)) fun item member => ?_
    exact ⟨List.mem_singleton.mp member, .inl rfl⟩
  · simp [pieceOf]
  · intro cell present
    rw [read_push] at present
    split_ifs at present with first
    · rw [first]
      exact List.mem_cons_self
    · cases present
  · exact fun internal => absurd internal (Nat.lt_irrefl 0)
  · have room := formed.ptrsFit
    have two := formed.degree
    have inside : layout.offPtr + 8 ≤ layout.ilen := by
      simp only [layout]
      omega
    simpa [pieceOf] using inside

/-! ## Looking at the keys -/

theorem get_spec (lawful : Lawful cmp) (represents : Represents cmp b height piece) (key : Key) :
    ∃ place, kbGetp cmp b key = some place ∧ Lands cmp b key piece.keys place := by
  have enough : height < b.nodes.fresh := height_fresh represents.built represents.nodup
  rw [kbGetp, ← represents.top]
  exact getp_walk_spec lawful key height 0 represents.built represents.ascending enough

theorem interval_spec (lawful : Lawful cmp) (represents : Represents cmp b height piece)
    (key : Key) :
    ∃ result, kbIntervalp cmp b key = some result ∧
    Between cmp b key piece.keys none none result := by
  have enough : height < b.nodes.fresh := height_fresh represents.built represents.nodup
  rw [kbIntervalp, ← represents.top]
  exact interval_walk_spec lawful key height 0 none none represents.built
    represents.ascending enough

theorem first_spec (represents : Represents cmp b height piece) :
    kbGetFirst b = piece.keys.head? := by
  have enough : height < b.nodes.fresh := height_fresh represents.built represents.nodup
  rw [kbGetFirst, ← represents.top]
  by_cases some' : 0 < piece.fill
  · exact first_walk_spec represents.formed height represents.built represents.roomy some' enough
  · have leaf : height = 0 := by
      by_contra internal
      exact some' (represents.fill (Nat.pos_of_ne_zero internal))
    subst leaf
    rcases built_succ.mp represents.built with ⟨row, shows'⟩
    have none' : row.seps = [] := by
      rw [← List.length_eq_zero_iff, length_seps, ← shows_fill shows']
      omega
    rw [leaf_keys shows', none']
    obtain ⟨fuel, same⟩ := Nat.exists_eq_succ_of_ne_zero (Nat.ne_of_gt enough)
    have read : readNode b piece.cell = some (nodeOf 0 piece.bytes row) := shows'.stored
    rw [same, firstWalk]
    simp only [read, Option.bind_eq_bind, Option.bind_some]
    simp [nodeOf, none']

/-! ## How high a tree is -/

theorem row_size {least bound : Nat} (enough : least ≤ row.items.length)
    (each : ∀ item ∈ row.items, bound ≤ item.keys.length + 1) :
    least * bound ≤ (row.weave Piece.keys).length + 1 := by
  have sizes : ∀ size ∈ row.items.map (fun item => item.keys.length + 1), bound ≤ size := by
    intro size member
    rcases List.mem_map.mp member with ⟨item, inside, rfl⟩
    exact each item inside
  have total := List.card_nsmul_le_sum _ _ sizes
  rw [List.length_map, smul_eq_mul] at total
  rw [length_weave]
  exact Nat.le_trans (Nat.mul_le_mul_right _ enough) total

theorem built_size (height : Nat) : ∀ {piece : Piece Key}, Built layout nodes height piece →
    Filled layout height piece →
    layout.t ^ height ≤ piece.keys.length + 1 := by
  induction height with
  | zero =>
      intro piece built _
      rw [show piece = .empty from built]
      exact Nat.le_refl _
  | succ height inductionHypothesis =>
      intro piece built filled
      rcases built_succ.mp built with ⟨row, shows'⟩
      have enough : layout.t ≤ row.items.length := by
        rcases filled with leaf | enough
        · cases leaf
        · rw [length_items, ← shows_fill shows']
          omega
      rw [shows_keys shows', Nat.pow_succ, Nat.mul_comm]
      exact row_size enough fun item member => inductionHypothesis (shows'.below item member).1
        (shows'.below item member).2

theorem represents_size (represents : Represents cmp b height piece) (internal : 0 < height) :
    2 * b.layout.t ^ height ≤ piece.keys.length + 1 := by
  rcases built_succ.mp represents.built with ⟨row, shows'⟩
  have enough : 2 ≤ row.items.length := by
    have some' := represents.fill internal
    rw [length_items, ← shows_fill shows']
    omega
  rw [shows_keys shows']
  exact row_size enough fun item member => built_size height (shows'.below item member).1
    (shows'.below item member).2

theorem getp_walk_more {key : Key} {place : Option (Nat × Nat)} (more fuel : Nat) :
    ∀ {x : Option Nat} {r : Int},
    getpWalk cmp b key fuel x r = some place → getpWalk cmp b key (fuel + more) x r =
    some place := by
  induction fuel with
  | zero =>
      intro x r run
      cases x with
      | none => cases more <;> exact run
      | some x => cases run
  | succ fuel inductionHypothesis =>
      intro x r run
      cases x with
      | none => rwa [Nat.add_right_comm]
      | some x =>
          rw [Nat.add_right_comm]
          simp only [getpWalk, Option.bind_eq_bind, Option.bind_eq_some_iff] at run ⊢
          rcases run with ⟨node, read, ⟨i, r'⟩, search, rest⟩
          refine ⟨node, read, (i, r'), search, ?_⟩
          split_ifs at rest ⊢
          · exact rest
          · exact rest
          · rcases Option.bind_eq_some_iff.mp rest with ⟨child, there, below⟩
            exact Option.bind_eq_some_iff.mpr ⟨child, there, inductionHypothesis below⟩

/-- No search reads more nodes than there are on a way down. -/
theorem search_steps (lawful : Lawful cmp) (represents : Represents cmp b height piece)
    (key : Key) :
    ∃ place, getpWalk cmp b key (height + 1) (some b.root) 0 = some place ∧
    kbGetp cmp b key = some place := by
  rcases getp_walk_spec lawful key height 0 represents.built represents.ascending
      (Nat.lt_succ_self height) with
    ⟨place, run, -⟩
  have enough : height < b.nodes.fresh := height_fresh represents.built represents.nodup
  rw [represents.top] at run
  obtain ⟨more, same⟩ := Nat.exists_eq_add_of_le enough
  refine ⟨place, run, ?_⟩
  rw [kbGetp, same]
  exact getp_walk_more more (height + 1) run

end TWlib.KTree
