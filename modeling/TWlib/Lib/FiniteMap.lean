import Mathlib.Data.List.Basic
import Mathlib.Data.List.Perm.Basic
import Mathlib.Tactic.SplitIfs

/-!
# Finite maps whose keys count up to an equality

The content of a map says for every key which value it has. `Lists` enumerates
the content: one item for each class of equal keys, and none for the others. All
enumerations of a content have the same number of items. An `Interface` is a state
that takes calls with what they mean for a finite map; when every call goes as the
finite map does, every run behaves as it, and two that do run in step.
-/

namespace TWlib.Lib.FiniteMap

set_option autoImplicit false

variable {Key Value : Type*} {equal : Key → Key → Bool}

def SameKey (equal : Key → Key → Bool) (left right : Key) : Prop := equal left right = true

abbrev Content (Key Value : Type*) := Key → Option Value

def assign (equal : Key → Key → Bool) (content : Content Key Value) (key : Key) (value : Value) :
    Content Key Value := fun other => if equal key other then some value else content other

def forget (equal : Key → Key → Bool) (content : Content Key Value) (key : Key) :
    Content Key Value :=
  fun other => if equal key other then none else content other

structure Lists (equal : Key → Key → Bool) (content : Content Key Value)
    (items : List (Key × Value)) :
    Prop where
  distinct : items.Pairwise fun left right => ¬ SameKey equal left.1 right.1
  known : ∀ key value, content key = some value ↔ ∃ item ∈ items, SameKey equal item.1 key ∧
    item.2 = value

variable {content : Content Key Value} {items rest : List (Key × Value)} {key stored : Key}
  {value old : Value}

theorem assign_same {other : Key} (same : SameKey equal key other) :
    assign equal content key value other = some value := if_pos same

theorem assign_other {other : Key} (differ : ¬ SameKey equal key other) :
    assign equal content key value other = content other := if_neg differ

theorem forget_same {other : Key} (same : SameKey equal key other) :
    forget equal content key other = none := if_pos same

theorem forget_other {other : Key} (differ : ¬ SameKey equal key other) :
    forget equal content key other = content other := if_neg differ

theorem equivalence_eq [DecidableEq Key] :
    Equivalence (SameKey fun left right : Key => left == right) where
  refl key := beq_self_eq_true key
  symm same := beq_iff_eq.mpr (beq_iff_eq.mp same).symm
  trans left right := beq_iff_eq.mpr ((beq_iff_eq.mp left).trans (beq_iff_eq.mp right))

/-- The equality is an equivalence, and equal keys have the same hash. -/
structure Lawful {Hash : Type*} (hash : Key → Hash) (equal : Key → Key → Bool) : Prop where
  equivalence : Equivalence (SameKey equal)
  same_hash : ∀ left right, SameKey equal left right → hash left = hash right

/-- Keys that are compared by equality may have any hash. -/
theorem lawful_eq {Hash : Type*} [DecidableEq Key] (hash : Key → Hash) :
    Lawful hash fun left right => left == right where
  equivalence := equivalence_eq
  same_hash left right same := by
    have equals : left = right := beq_iff_eq.mp same
    rw [equals]

theorem lists_empty : Lists equal (fun _ => none : Content Key Value) [] where
  distinct := List.Pairwise.nil
  known key value := by simp

theorem lists_perm (equivalence : Equivalence (SameKey equal)) (lists : Lists equal content items)
    {others : List (Key × Value)} (perm : items.Perm others) : Lists equal content others where
  distinct := perm.pairwise lists.distinct fun differ equals => differ (equivalence.symm equals)
  known key value := by
    rw [lists.known key value]
    simp only [perm.mem_iff]

theorem none_iff (lists : Lists equal content items) :
    content key = none ↔ ∀ item ∈ items, ¬ SameKey equal item.1 key := by
  constructor
  · intro missing item member equals
    have present := (lists.known key item.2).mpr ⟨item, member, equals, rfl⟩
    rw [missing] at present
    cases present
  · intro absent
    cases found : content key with
    | none => rfl
    | some value =>
        rcases (lists.known key value).mp found with ⟨item, member, equals, same⟩
        exact absurd equals (absent item member)

theorem known_same (equivalence : Equivalence (SameKey equal)) (lists : Lists equal content items)
    {other : Key} (same : SameKey equal key other) (present : content key = some value) :
    content other = some value := by
  rcases (lists.known key value).mp present with ⟨item, member, equals, here⟩
  exact (lists.known other value).mpr ⟨item, member, equivalence.trans equals same, here⟩

theorem forget_missing (equivalence : Equivalence (SameKey equal))
    (lists : Lists equal content items) (missing : content key = none) :
    forget equal content key = content := by
  funext other
  by_cases here : SameKey equal key other
  · rw [forget_same here]
    symm
    refine (none_iff lists).mpr fun item member equals => ?_
    exact (none_iff lists).mp missing item member (equivalence.trans equals (equivalence.symm here))
  · exact forget_other here

theorem lists_assign_new (equivalence : Equivalence (SameKey equal))
    (lists : Lists equal content items) (missing : content key = none) (value : Value) :
    Lists equal (assign equal content key value) ((key, value) :: items) where
  distinct := by
    rw [List.pairwise_cons]
    refine ⟨fun item member equals => ?_, lists.distinct⟩
    exact (none_iff lists).mp missing item member (equivalence.symm equals)
  known other found := by
    simp only [List.mem_cons, exists_eq_or_imp]
    by_cases here : SameKey equal key other
    · rw [assign_same here]
      constructor
      · intro same
        exact Or.inl ⟨here, Option.some.inj same⟩
      · rintro (⟨_, same⟩ | ⟨item, member, equals, _⟩)
        · rw [same]
        · have clash := equivalence.trans equals (equivalence.symm here)
          exact absurd clash ((none_iff lists).mp missing item member)
    · rw [assign_other here, lists.known other found]
      constructor
      · exact Or.inr
      · rintro (⟨equals, _⟩ | present)
        · exact absurd equals here
        · exact present

theorem rest_apart (equivalence : Equivalence (SameKey equal))
    (lists : Lists equal content ((stored, old) :: rest)) (equals : SameKey equal stored key) :
    ∀ item ∈ rest, ¬ SameKey equal item.1 key := by
  intro item member same
  have apart := (List.pairwise_cons.mp lists.distinct).1 item member
  exact apart (equivalence.trans equals (equivalence.symm same))

theorem lists_head (lists : Lists equal content ((stored, old) :: rest))
    (equals : SameKey equal stored key) :
    content key = some old :=
  (lists.known key old).mpr ⟨(stored, old), List.mem_cons_self, equals, rfl⟩

theorem lists_forget (equivalence : Equivalence (SameKey equal))
    (lists : Lists equal content ((stored, old) :: rest)) (equals : SameKey equal stored key) :
    Lists equal (forget equal content key) rest where
  distinct := (List.pairwise_cons.mp lists.distinct).2
  known other found := by
    by_cases here : SameKey equal key other
    · rw [forget_same here]
      constructor
      · intro same
        cases same
      · rintro ⟨item, member, same, _⟩
        have back := equivalence.trans same (equivalence.symm here)
        exact absurd back (rest_apart equivalence lists equals item member)
    · rw [forget_other here, lists.known other found]
      simp only [List.mem_cons, exists_eq_or_imp]
      constructor
      · rintro (⟨same, _⟩ | present)
        · exact absurd (equivalence.trans (equivalence.symm equals) same) here
        · exact present
      · exact Or.inr

theorem lists_assign_known (equivalence : Equivalence (SameKey equal))
    (lists : Lists equal content ((stored, old) :: rest)) (equals : SameKey equal stored key)
    (value : Value) :
    Lists equal (assign equal content key value) ((stored, value) :: rest) := by
  have apart := lists_forget equivalence lists equals
  have missing : forget equal content key stored = none := forget_same (equivalence.symm equals)
  have added := lists_assign_new equivalence apart missing value
  have sameKey : assign equal (forget equal content key) stored value =
      assign equal content key value := by
    funext other
    by_cases here : SameKey equal key other
    · rw [assign_same here, assign_same (equivalence.trans equals here)]
    · have differ : ¬ SameKey equal stored other :=
        fun same => here (equivalence.trans (equivalence.symm equals) same)
      rw [assign_other here, assign_other differ, forget_other here]
  rw [← sameKey]
  exact added

theorem lists_filter (lists : Lists equal content items) (keep : Value → Bool) :
    Lists equal (fun key => (content key).filter keep) (items.filter fun item => keep item.2) where
  distinct := lists.distinct.filter _
  known key value := by
    rw [Option.filter_eq_some_iff, lists.known key value]
    constructor
    · rintro ⟨⟨item, member, same, rfl⟩, kept⟩
      exact ⟨item, List.mem_filter.mpr ⟨member, kept⟩, same, rfl⟩
    · rintro ⟨item, member, same, rfl⟩
      have passed := List.mem_filter.mp member
      exact ⟨⟨item, passed.1, same, rfl⟩, passed.2⟩

theorem lists_none {items : List (Key × Value)} (equivalence : Equivalence (SameKey equal))
    (lists : Lists equal (fun _ => none) items) : items = [] := by
  cases items with
  | nil => rfl
  | cons item rest =>
      have present := lists_head lists (equivalence.refl item.1)
      cases present

theorem lists_length_eq (equivalence : Equivalence (SameKey equal))
    (lists : Lists equal content items) {others : List (Key × Value)}
    (otherLists : Lists equal content others) : items.length = others.length := by
  induction items generalizing content others with
  | nil =>
      have nothing : content = fun _ => none := by
        funext key
        exact (none_iff lists).mpr fun item member => by cases member
      subst nothing
      rw [lists_none equivalence otherLists]
  | cons item rest ih =>
      have present := lists_head lists (equivalence.refl item.1)
      rcases (otherLists.known item.1 item.2).mp present with ⟨other, member, equals, _⟩
      rcases List.append_of_mem member with ⟨left, right, split⟩
      have perm : others.Perm (other :: (left ++ right)) := by
        rw [split]
        exact List.perm_middle
      have fewer := lists_forget equivalence lists (equivalence.refl item.1)
      have otherFewer := lists_forget equivalence (lists_perm equivalence otherLists perm) equals
      rw [perm.length_eq, List.length_cons, List.length_cons, ih fewer otherFewer]

/-! ## Runs -/

/-- A state that takes calls, and what they mean for what is known of it. -/
structure Interface (State Spec Op Answer : Type*) where
  perform : State → Op → Option (State × Answer)
  meaning : Spec → Op → Spec
  /-- The answer is right between the two states. -/
  Correct : Spec → State → State → Answer → Op → Prop

namespace Interface

variable {State Spec Op Answer Shape : Type*}

/-- The call has a result, answers correctly and leaves a state of which what it means is known;
`shape` is how the state holds it. -/
def Goes (interface : Interface State Spec Op Answer) (Holds : State → Spec → Shape → Prop)
    (state : State) (spec : Spec) (op : Op) : Prop :=
  ∃ after answer shape, interface.perform state op = some (after, answer) ∧
    interface.Correct spec state after answer op ∧ Holds after (interface.meaning spec op) shape

/-- Every call of the run goes as it means, as long as the calls heed the rules. -/
def BehavesAs (interface : Interface State Spec Op Answer) (Heeds : State → Spec → Op → Prop)
    (Agrees : State → Spec → Prop) : State → Spec → List Op → Prop
  | state, spec, [] => Agrees state spec
  | state, spec, op :: ops => Agrees state spec ∧ (Heeds state spec op →
      ∃ after answer, interface.perform state op = some (after, answer) ∧
        interface.Correct spec state after answer op ∧
        BehavesAs interface Heeds Agrees after (interface.meaning spec op) ops)

/-- When one call goes as it means, so does every run. -/
theorem run_behaves {interface : Interface State Spec Op Answer}
    {Holds : State → Spec → Shape → Prop} {Heeds : State → Spec → Op → Prop}
    {Agrees : State → Spec → Prop} (agrees : ∀ {state spec shape}, Holds state spec shape →
      Agrees state spec)
    (step : ∀ {state spec shape op}, Holds state spec shape → Heeds state spec op →
      interface.Goes Holds state spec op)
    {state : State} {spec : Spec} {shape : Shape} (held : Holds state spec shape) (ops : List Op) :
    interface.BehavesAs Heeds Agrees state spec ops := by
  induction ops generalizing state spec shape with
  | nil => exact agrees held
  | cons op ops ih =>
      refine ⟨agrees held, fun heeds => ?_⟩
      rcases step held heeds with ⟨after, answer, shapeAfter, performed, correct, holds⟩
      exact ⟨after, answer, performed, correct, ih holds⟩

section InStep

variable {Other Twin : Type*}

/-- Two states take every call of the run and answer alike after it, as long as the calls heed the
rules. -/
def InStep (interface : Interface State Spec Op Answer) (other : Interface Other Spec Op Answer)
    (Heeds : State → Other → Spec → Op → Prop) (Alike : State → Other → Answer → Answer → Prop) :
    State → Other → Spec → List Op → Prop
  | _, _, _, [] => True
  | state, twin, spec, op :: ops => Heeds state twin spec op →
      ∃ after answer twinAfter twinAnswer, interface.perform state op = some (after, answer) ∧
        other.perform twin op = some (twinAfter, twinAnswer) ∧
        Alike after twinAfter answer twinAnswer ∧
        InStep interface other Heeds Alike after twinAfter (interface.meaning spec op) ops

/-- Calls that go as they mean in both states, where right answers are alike. -/
theorem run_in_step {interface : Interface State Spec Op Answer}
    {other : Interface Other Spec Op Answer} (Holds : State → Spec → Shape → Prop)
    (TwinHolds : Other → Spec → Twin → Prop) {Heeds : State → Other → Spec → Op → Prop}
    {Alike : State → Other → Answer → Answer → Prop} (same : other.meaning = interface.meaning)
    (step : ∀ {state twin spec shape twinShape op}, Holds state spec shape →
      TwinHolds twin spec twinShape →
      Heeds state twin spec op → interface.Goes Holds state spec op ∧
      other.Goes TwinHolds twin spec op)
    (alike : ∀ {state twin before spec shape twinShape op after twinAfter answer twinAnswer},
      Holds after spec shape → TwinHolds twinAfter spec twinShape →
        interface.Correct before state after answer op →
          other.Correct before twin twinAfter twinAnswer op →
          Alike after twinAfter answer twinAnswer)
    {state : State} {twin : Other} {spec : Spec} {shape : Shape} {twinShape : Twin}
    (held : Holds state spec shape) (twinHeld : TwinHolds twin spec twinShape) (ops : List Op) :
    InStep interface other Heeds Alike state twin spec ops := by
  induction ops generalizing state twin spec shape twinShape with
  | nil => trivial
  | cons op ops ih =>
      intro heeds
      rcases step held twinHeld heeds with
        ⟨⟨after, answer, shapeAfter, performed, correct, holds⟩,
          ⟨twinAfter, twinAnswer, twinShapeAfter, twinPerformed, twinCorrect, twinHolds⟩⟩
      rw [same] at twinHolds
      exact ⟨after, answer, twinAfter, twinAnswer, performed, twinPerformed,
        alike holds twinHolds correct twinCorrect, ih holds twinHolds⟩

end InStep

end Interface

end TWlib.Lib.FiniteMap
