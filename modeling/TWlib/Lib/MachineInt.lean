/-!
# 32-bit signed integers

A value that an `int` variable is given is taken modulo 2 ^ 32 into the range of the type.
-/

namespace TWlib.Lib.MachineInt

set_option autoImplicit false

/-- `INT_MAX`, which is 2 ^ 31 - 1. -/
def intMax : Int := 2147483647

/-- What an `int` holds after `value` was computed for it, with 4294967296 = 2 ^ 32. -/
def asInt (value : Int) : Int := value.bmod 4294967296

def IsInt (value : Int) : Prop := -intMax - 1 ≤ value ∧ value ≤ intMax

instance (value : Int) : Decidable (IsInt value) := inferInstanceAs (Decidable (_ ∧ _))

theorem as_int_is_int (value : Int) : IsInt (asInt value) := by
  have low := Int.le_bmod (x := value) (m := 4294967296) (by decide)
  have high := Int.bmod_lt (x := value) (m := 4294967296) (by decide)
  simp only [IsInt, asInt, intMax]
  omega

theorem as_int_of_is_int {value : Int} (holds : IsInt value) : asInt value = value := by
  simp only [IsInt, intMax] at holds
  apply Int.bmod_eq_of_le
  · omega
  · omega

theorem as_int_of_bounds {value : Int} (low : 0 ≤ value) (high : value ≤ intMax) :
    asInt value = value :=
  as_int_of_is_int ⟨by simp only [intMax]; omega, high⟩

@[simp] theorem as_int_add_as_int (left right : Int) :
    asInt (asInt left + right) = asInt (left + right) :=
  Int.bmod_add_bmod

/-- Values that become the same `int` differ by a multiple of 2 ^ 32. -/
theorem as_int_eq_iff {left right : Int} : asInt left = asInt right ↔
    (4294967296 : Int) ∣ left - right :=
  Int.bmod_eq_bmod_iff_bmod_sub_eq_zero.trans Int.dvd_iff_bmod_eq_zero.symm

theorem as_int_le {value : Int} (low : 0 ≤ value) : asInt value ≤ value := by
  by_cases fits : value ≤ intMax
  · exact Int.le_of_eq (as_int_of_bounds low fits)
  · have := (as_int_is_int value).2
    omega

/-- One more than `INT_MAX` is `INT_MIN`. -/
theorem as_int_max_succ : asInt (intMax + 1) = -intMax - 1 := by decide

end TWlib.Lib.MachineInt
