import Mathlib.Algebra.BigOperators.Group.List.Basic
import Mathlib.Algebra.Order.Ring.Int
import Mathlib.Data.List.Infix

/-!
# Times as seconds and microseconds

`TimeVal` keeps a `struct timeval`, and `timespec()` fills a `struct timespec` from it. The fields
are signed numbers of 64 bits, and so are the amounts; `none` is a signed overflow. Quotients and
remainders of negative amounts are rounded towards zero.
-/

namespace TWlib.Times

set_option autoImplicit false

/-! ## The model -/

structure Timeval where
  tvSec : Int
  tvUsec : Int
deriving DecidableEq

structure Timespec where
  tvSec : Int
  tvNsec : Int
deriving DecidableEq

/-- `tv` is the member `_timeval` and `ts` the member `_timespec`. -/
structure TimeVal where
  tv : Timeval
  ts : Timespec
deriving DecidableEq

/-- The value is one of `time_t`, which is a `long`. -/
def InLong (value : Int) : Prop := -9223372036854775808 ≤ value ∧ value ≤ 9223372036854775807

instance (value : Int) : Decidable (InLong value) := inferInstanceAs (Decidable (_ ∧ _))

def long (value : Int) : Option Int := if InLong value then some value else none

def usecToTimeval (usec : Int64) : Timeval := ⟨usec.toInt.tdiv 1000000, usec.toInt.tmod 1000000⟩

def addUsecToTimeval (usec : Int64) (tv : Timeval) : Option Timeval := do
  let tvSec ← long (tv.tvSec + usec.toInt.tdiv 1000000)
  let tvUsec ← long (tv.tvUsec + usec.toInt.tmod 1000000)
  some ⟨tvSec, tvUsec⟩

def timevalToTimespec (tv : Timeval) : Option Timespec := do
  let tvNsec ← long (tv.tvUsec * 1000)
  let tvSec ← long (tv.tvSec + tvNsec.tdiv 1000000000)
  some ⟨tvSec, tvNsec.tmod 1000000000⟩

namespace TimeVal

def setInterval (time : TimeVal) (usec : Int64) : TimeVal := { time with tv := usecToTimeval usec }

def addUsec (time : TimeVal) (usec : Int64) : Option TimeVal :=
  (addUsecToTimeval usec time.tv).map fun tv => { time with tv }

def timeval (time : TimeVal) : Timeval := time.tv

/-- `timespec()`: the object after it, to whose member the pointer leads. -/
def timespec (time : TimeVal) : Option TimeVal := (timevalToTimespec time.tv).map fun ts =>
    { time with ts }

def addAll : TimeVal → List Int64 → Option TimeVal
  | time, [] => some time
  | time, usec :: rest => (time.addUsec usec).bind fun time => time.addAll rest

end TimeVal

/-! ## What they stand for -/

def Timeval.micros (tv : Timeval) : Int := tv.tvSec * 1000000 + tv.tvUsec

def Timespec.nanos (ts : Timespec) : Int := ts.tvSec * 1000000000 + ts.tvNsec

def Timeval.Normal (tv : Timeval) : Prop := 0 ≤ tv.tvUsec ∧ tv.tvUsec < 1000000

def Timespec.Normal (ts : Timespec) : Prop := 0 ≤ ts.tvNsec ∧ ts.tvNsec < 1000000000

/-- The total is one that `time_t` has seconds for. -/
def InRange (total : Int) : Prop := 0 ≤ total ∧ total < 9223372036854775808 * 1000000

def sumOf (part : Int64 → Int) (amounts : List Int64) : Int := (amounts.map part).sum

def added (amounts : List Int64) : Int := sumOf Int64.toInt amounts

def remainders (amounts : List Int64) : Int := sumOf (fun usec => usec.toInt.tmod 1000000) amounts

def quotients (amounts : List Int64) : Int := sumOf (fun usec => usec.toInt.tdiv 1000000) amounts

/-- Both forms denote the total and are in normal form. -/
def Shows (time : TimeVal) (total : Int) : Prop :=
  time.timeval.micros = total ∧ time.timeval.Normal ∧
    ∃ filled, time.timespec = some filled ∧ filled.ts.nanos = total * 1000 ∧ filled.ts.Normal

/-- The amounts are added exactly, and the result is in normal form. -/
def Exact (time : TimeVal) (amounts : List Int64) : Prop :=
  ∃ after, time.addAll amounts = some after ∧ Shows after (time.timeval.micros + added amounts)

variable {time after : TimeVal} {tv : Timeval} {amounts taken : List Int64} {usec : Int64}
    {total : Int}

/-! ## One addition -/

@[simp] theorem sum_of_nil (part : Int64 → Int) : sumOf part [] = 0 := rfl

@[simp] theorem sum_of_cons (part : Int64 → Int) (usec : Int64) (rest : List Int64) :
    sumOf part (usec :: rest) = part usec + sumOf part rest := by simp [sumOf]

theorem long_eq {value : Int} (fits : InLong value) : long value = some value := if_pos fits

theorem long_of_eq {value result : Int} (same : long value = some result) : result = value := by
  unfold long at same
  split_ifs at same
  exact (Option.some.inj same).symm

theorem add_usec_fields (added : time.addUsec usec = some after) :
    after.tv = ⟨time.tv.tvSec + usec.toInt.tdiv 1000000,
      time.tv.tvUsec + usec.toInt.tmod 1000000⟩ := by
  rcases Option.map_eq_some_iff.mp added with ⟨tv, sums, rfl⟩
  rcases Option.bind_eq_some_iff.mp sums with ⟨tvSec, secs, rest⟩
  rcases Option.bind_eq_some_iff.mp rest with ⟨tvUsec, usecs, same⟩
  cases same
  rw [long_of_eq secs, long_of_eq usecs]

theorem add_usec_eq (secs : InLong (time.tv.tvSec + usec.toInt.tdiv 1000000))
    (usecs : InLong (time.tv.tvUsec + usec.toInt.tmod 1000000)) :
    time.addUsec usec = some { time with
      tv := ⟨time.tv.tvSec + usec.toInt.tdiv 1000000,
          time.tv.tvUsec + usec.toInt.tmod 1000000⟩ } := by
  simp [TimeVal.addUsec, addUsecToTimeval, long_eq secs, long_eq usecs]

/-! ## Sequences of additions -/

theorem add_all_fields (ran : time.addAll amounts = some after) :
    after.tv = ⟨time.tv.tvSec + quotients amounts, time.tv.tvUsec + remainders amounts⟩ := by
  induction amounts generalizing time with
  | nil =>
      cases ran
      simp [quotients, remainders]
  | cons usec rest ih =>
      rcases Option.bind_eq_some_iff.mp ran with ⟨next, first, onward⟩
      rw [ih onward, add_usec_fields first]
      simp only [quotients, remainders, sum_of_cons, Int.add_assoc]

/-- What the fields come to must fit at every point of the sequence. -/
theorem add_all_defined (fits : ∀ taken, taken <+: amounts →
      InLong (time.tv.tvSec + quotients taken) ∧ InLong (time.tv.tvUsec + remainders taken)) :
    ∃ after, time.addAll amounts = some after := by
  induction amounts generalizing time with
  | nil => exact ⟨time, rfl⟩
  | cons usec rest ih =>
      have here := fits [usec] (List.cons_prefix_cons.mpr ⟨rfl, List.nil_prefix⟩)
      simp only [quotients, remainders, sum_of_cons, sum_of_nil, Int.add_zero] at here
      have first := add_usec_eq here.1 here.2
      rw [TimeVal.addAll, first, Option.bind_some]
      apply ih
      intro taken begins
      have whole := fits (usec :: taken) (List.cons_prefix_cons.mpr ⟨rfl, begins⟩)
      simp only [quotients, remainders, sum_of_cons, ← Int.add_assoc] at whole
      exact whole

theorem parts_add_up (amounts : List Int64) :
    quotients amounts * 1000000 + remainders amounts = added amounts := by
  induction amounts with
  | nil => rfl
  | cons usec rest ih =>
      have one := Int.tdiv_mul_add_tmod usec.toInt 1000000
      simp only [quotients, remainders, added, sum_of_cons] at ih ⊢
      omega

/-! ## Normal forms -/

/-- `timespec()` carries what is more than a second over, but borrows nothing. -/
theorem timespec_shows (tv : Timeval) (ts : Timespec) (positive : 0 ≤ tv.tvUsec)
    (usecs : InLong (tv.tvUsec * 1000)) (secs : InLong (tv.tvSec + tv.tvUsec / 1000000)) :
    ∃ filled, TimeVal.timespec ⟨tv, ts⟩ = some filled ∧ filled.ts.nanos = tv.micros * 1000 ∧
    filled.ts.Normal := by
  have carried : (tv.tvUsec * 1000).tdiv 1000000000 = tv.tvUsec / 1000000 := by
    rw [Int.tdiv_eq_ediv_of_nonneg (by omega)]
    omega
  have rest : (tv.tvUsec * 1000).tmod 1000000000 = tv.tvUsec * 1000 % 1000000000 :=
    Int.tmod_eq_emod_of_nonneg (by omega)
  refine ⟨⟨tv, tv.tvSec + tv.tvUsec / 1000000, tv.tvUsec * 1000 % 1000000000⟩, ?_, ?_, ?_⟩
  · simp [TimeVal.timespec, timevalToTimespec, long_eq usecs, carried, long_eq secs, rest]
  · simp only [Timespec.nanos, Timeval.micros]
    omega
  · simp only [Timespec.Normal]
    omega

theorem shows_of_normal (normal : time.tv.Normal) (inRange : InRange time.tv.micros) :
    Shows time time.tv.micros := by
  rcases time with ⟨tv, ts⟩
  simp only [Timeval.Normal, InRange, Timeval.micros] at normal inRange
  rcases timespec_shows tv ts normal.1 ⟨by omega, by omega⟩ ⟨by omega, by omega⟩ with ⟨filled,
    gives, nanos, shown⟩
  exact ⟨rfl, normal, filled, gives, nanos, shown⟩

theorem set_interval_normal (time : TimeVal) (usec : Int64) (positive : 0 ≤ usec.toInt) :
    (time.setInterval usec).tv.Normal ∧ (time.setInterval usec).tv.micros = usec.toInt := by
  have whole := Int.tdiv_mul_add_tmod usec.toInt 1000000
  have notNegative := Int.tmod_nonneg 1000000 positive
  have below := Int.tmod_lt_of_pos usec.toInt (show (0 : Int) < 1000000 by decide)
  exact ⟨⟨notNegative, below⟩, whole⟩

/-- `timeval()` and `timespec()` are exact and in normal form at the start and after each of a
sequence of additions exactly if the microseconds of the start and the remainders of the amounts
never add up to a second or to less than nothing. -/
theorem time_val_exact_iff (start : TimeVal) (amounts : List Int64)
    (within : ∀ taken, taken <+: amounts → InRange (start.tv.micros + added taken)) :
    (∀ taken, taken <+: amounts → Exact start taken) ↔
      ∀ taken, taken <+: amounts →
        0 ≤ start.tv.tvUsec + remainders taken ∧ start.tv.tvUsec + remainders taken < 1000000 := by
  constructor
  · intro exact_ taken begins
    rcases exact_ taken begins with ⟨after, ran, -, shown, -⟩
    have usecs : after.tv.tvUsec = start.tv.tvUsec + remainders taken := by rw [add_all_fields ran]
    rw [← usecs]
    exact shown
  · intro noCarry taken begins
    have fits : ∀ part, part <+: taken →
        InLong (start.tv.tvSec + quotients part) ∧ InLong (start.tv.tvUsec + remainders part) := by
      intro part starts
      have range := within part (starts.trans begins)
      have usecs := noCarry part (starts.trans begins)
      have parts := parts_add_up part
      simp only [InRange, Timeval.micros] at range
      exact ⟨⟨by omega, by omega⟩, ⟨by omega, by omega⟩⟩
    rcases add_all_defined fits with ⟨after, ran⟩
    have fields := add_all_fields ran
    have total : after.tv.micros = start.tv.micros + added taken := by
      have parts := parts_add_up taken
      rw [fields]
      simp only [Timeval.micros]
      omega
    have shown : after.tv.Normal := by
      rw [fields]
      exact noCarry taken begins
    refine ⟨after, ran, ?_⟩
    show Shows after (start.tv.micros + added taken)
    rw [← total]
    exact shows_of_normal shown (total ▸ within taken begins)

/-! ## Additions with and without a carry -/

def halfPast : TimeVal := ⟨⟨1, 600000⟩, ⟨0, 0⟩⟩

theorem in_range_of_starts {start : TimeVal} {amounts : List Int64}
    (all : ∀ taken ∈ amounts.inits, InRange (start.tv.micros + added taken)) :
    ∀ taken, taken <+: amounts → InRange (start.tv.micros + added taken) :=
  fun taken begins => all taken ((List.mem_inits taken amounts).mpr begins)

instance (total : Int) : Decidable (InRange total) := inferInstanceAs (Decidable (_ ∧ _))

theorem time_val_exact_iff_half_past :
    (∀ taken, taken <+: [300000, -800000] → Exact halfPast taken) ↔
      ∀ taken, taken <+: [300000, -800000] →
        0 ≤ halfPast.tv.tvUsec + remainders taken ∧
        halfPast.tv.tvUsec + remainders taken < 1000000 :=
  time_val_exact_iff halfPast [300000, -800000] (in_range_of_starts (by decide))

/-- After 600000 microseconds more there are 1200000 in `tv_usec`, after 700000 less there are
-100000, and then `timespec()` gives what is not in normal form either. -/
theorem time_val_not_always_exact :
    halfPast.addUsec 600000 = some ⟨⟨1, 1200000⟩, ⟨0, 0⟩⟩ ∧
      halfPast.addUsec (-700000) = some ⟨⟨1, -100000⟩, ⟨0, 0⟩⟩ ∧
      TimeVal.timespec ⟨⟨1, -100000⟩, ⟨0, 0⟩⟩ = some ⟨⟨1, -100000⟩, ⟨1, -100000000⟩⟩ ∧
      ¬ ∀ (start : TimeVal) (amounts : List Int64), start.tv.Normal →
        (∀ taken, taken <+: amounts → InRange (start.tv.micros + added taken)) →
        Exact start amounts := by
  refine ⟨by decide, by decide, by decide, fun all => ?_⟩
  have inRange : ∀ taken, taken <+: [-700000] → InRange (halfPast.tv.micros + added taken) :=
    in_range_of_starts (by decide)
  rcases all halfPast [-700000] ⟨by decide, by decide⟩ inRange with ⟨after, ran, -, shown, -⟩
  have same : halfPast.addAll [-700000] = some ⟨⟨1, -100000⟩, ⟨0, 0⟩⟩ := by decide
  cases Option.some.inj (ran.symm.trans same)
  exact absurd shown.1 (by decide)

end TWlib.Times
