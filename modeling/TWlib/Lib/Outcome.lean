import Mathlib.Data.Option.Basic

/-!
# What a computation that may be undefined comes to

`Yields sure ran post` says that a result, if there is one, satisfies `post`, and
that there is one whenever `sure` holds. Results of computations that are run one
after the other are followed with `yields_bind`.
-/

namespace TWlib.Lib.Outcome

set_option autoImplicit false

variable {First Second : Type*} {sure : Prop} {ran : Option First} {post weaker : First → Prop}

def Yields (sure : Prop) (ran : Option First) (post : First → Prop) : Prop :=
  (sure → ran.isSome) ∧ ∀ result, ran = some result → post result

theorem yields_some {result : First} (holds : post result) : Yields sure (some result) post := by
  refine ⟨fun _ => rfl, fun other same => ?_⟩
  cases same
  exact holds

theorem yields_of_exists (found : ∃ result, ran = some result ∧ post result) :
    Yields sure ran post := by
  rcases found with ⟨result, rfl, holds⟩
  exact yields_some holds

theorem yields_none (unsure : ¬ sure) : Yields sure (none : Option First) post :=
  ⟨fun holds => absurd holds unsure, fun _ same => by cases same⟩

theorem yields_mono (yields : Yields sure ran post)
    (weaken : ∀ result, post result → weaker result) :
    Yields sure ran weaker :=
  ⟨yields.1, fun result same => weaken result (yields.2 result same)⟩

theorem yields_under {surer : Prop} (yields : Yields sure ran post) (enough : surer → sure) :
    Yields surer ran post := ⟨fun holds => yields.1 (enough holds), yields.2⟩

theorem yields_bind {continue_ : First → Option Second} {final : Second → Prop}
    (yields : Yields sure ran post)
    (onward : ∀ result, post result → Yields sure (continue_ result) final) :
    Yields sure (ran.bind continue_) final := by
  cases found : ran with
  | none =>
      refine yields_none fun holds => ?_
      have defined := yields.1 holds
      rw [found] at defined
      cases defined
  | some result => exact onward result (yields.2 result found)

theorem yields_map {convert : First → Second} {final : Second → Prop}
    (yields : Yields sure ran fun result => final (convert result)) :
    Yields sure (ran.map convert) final := by
  refine ⟨fun holds => by rw [Option.isSome_map]; exact yields.1 holds, fun converted found => ?_⟩
  obtain ⟨result, same, rfl⟩ := Option.map_eq_some_iff.mp found
  exact yields.2 result same

theorem yields_exists (yields : Yields sure ran post) (holds : sure) :
    ∃ result, ran = some result ∧ post result := by
  rcases Option.isSome_iff_exists.mp (yields.1 holds) with ⟨result, found⟩
  exact ⟨result, found, yields.2 result found⟩

end TWlib.Lib.Outcome
