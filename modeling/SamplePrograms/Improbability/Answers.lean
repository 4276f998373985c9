import SamplePrograms.Improbability.Model
import SamplePrograms.Improbability.Distances

/-!
# The answers of the improbability drive

The index of the primes is zero before each line, so that every number `n` but 1 is
answered with `3 * 2 ^ (n - 1)`.
-/

namespace SamplePrograms.Improbability
open Doubles Stdio

/-- The power function is exact on the powers of two below `2 ^ 64`. -/
def IsExactOnTwo (pow : Float.Model → Float.Model → Float.Model) : Prop :=
  ∀ j : ℕ, j < 64 → Holds (pow (.ofInt 2) (.ofInt j)) 1 j

/-- The power of a double to a natural number, as a product. -/
def natPow (x y : Float.Model) : Float.Model :=
  Nat.repeat (fun power => x * power) (y.unpack.toInt 0 0).toNat (.ofInt 1)

theorem holds_two : Holds (.ofInt 2) 1 1 := by
  have two : Holds (.ofInt 2) (1 * 2 ^ 1) 0 := holds_ofInt (by decide)
  rwa [Holds, dyadic_mul_pow (by decide)] at two

/-- The products of twos are exact. -/
theorem holds_repeat_two {j : ℕ} (hj : j < 64) :
    Holds (Nat.repeat (fun power => Float.Model.ofInt 2 * power) j (.ofInt 1)) 1 j := by
  induction j with
  | zero => exact holds_ofInt (by decide)
  | succ j ih =>
      have range : InRange (1 + j) := ⟨by omega, by omega⟩
      have product := holds_two.mul (ih (by omega)) (by decide) (by decide) (by decide) range
      rwa [Nat.mul_one, add_comm] at product

theorem isExactOnTwo_natPow : IsExactOnTwo natPow := by
  intro j hj
  have exponent : (Float.Model.ofInt j).unpack.toInt 0 0 = j := by
    have value := (holds_ofInt (by omega : j < 2 ^ 53)).toInt_eq (k := 0) (by omega) 0 0
    rwa [pow_zero, Nat.mul_one] at value
  rw [natPow, exponent, Int.toNat_natCast]
  exact holds_repeat_two hj

section Call
variable {pow : Float.Model → Float.Model → Float.Model} {var : BitVec 64}

theorem toUnsignedLong_of_holds {x : Float.Model} {m k : ℕ} (hx : Holds x m k) (hm : m < 2 ^ 53)
    (fits : m * 2 ^ k < 2 ^ 64) : toUnsignedLong x = some (.ofNat 64 (m * 2 ^ k)) := by
  have value := hx.toInt_eq hm (-1) (2 ^ 64)
  have range : (0 : ℤ) ≤ (m * 2 ^ k : ℕ) ∧ ((m * 2 ^ k : ℕ) : ℤ) < 2 ^ 64 := by
    exact ⟨Int.natCast_nonneg _, by exact_mod_cast fits⟩
  have number : x.unpack ≠ .notANumber := by
    rw [hx]
    unfold dyadic
    split <;> simp
  rw [toUnsignedLong]
  split
  · exact absurd ‹_› number
  · simp only [value, if_pos range, BitVec.ofInt_natCast]

theorem exponent_lt {j : ℕ} (fits : 3 * 2 ^ j < 2 ^ 64) : j < 63 := by
  by_contra large
  have power : 2 ^ 63 ≤ 2 ^ j := Nat.pow_le_pow_right (by decide) (Nat.not_lt.mp large)
  omega

theorem calImprobability_eq (precise : IsExactOnTwo pow) (several : 2 ≤ var.toNat)
    (fits : 3 * 2 ^ (var.toNat - 1) < 2 ^ 64) :
    calImprobability pow resetPrimeIndex var = some (.ofNat 64 (3 * 2 ^ (var.toNat - 1)), 2) := by
  have not_one : var ≠ 1 := by
    rintro rfl
    exact absurd several (by decide)
  have exponent : (var - 1).toNat = var.toNat - 1 := by
    have positive : 1 ≤ var := BitVec.le_def.mpr (Nat.le_of_lt several)
    rw [BitVec.toNat_sub_of_le positive]
    rfl
  have bounded := exponent_lt fits
  have power := precise (var.toNat - 1) (by omega)
  have three : Holds (.ofInt 3) 3 0 := holds_ofInt (by decide)
  have product := power.mul three (by decide) (by decide) (by decide) ⟨by omega, by omega⟩
  rw [Nat.one_mul, add_zero] at product
  have converted := toUnsignedLong_of_holds product (by decide) fits
  have base : getNextPrime resetPrimeIndex = some (2, 1) := rfl
  have factor : getNextPrime 1 = some (3, 2) := rfl
  simp only [calImprobability, if_neg not_one, exponent, base, factor, Option.bind_eq_bind,
    Option.bind_some, Nat.cast_ofNat, converted, Option.pure_def]

/-- The returned value is the smallest distance unless the number is an exception. -/
theorem calImprobability_isSmallest_iff (precise : IsExactOnTwo pow) (several : 2 ≤ var.toNat)
    (fits : 3 * 2 ^ (var.toNat - 1) < 2 ^ 64) :
    ∃ retVal, calImprobability pow resetPrimeIndex var = some (retVal, 2) ∧
      (IsSmallest var.toNat retVal.toNat ↔ var.toNat ∉ exceptions) := by
  refine ⟨_, calImprobability_eq precise several fits, ?_⟩
  rw [BitVec.toNat_ofNat, Nat.mod_eq_of_lt fits]
  have bounded := exponent_lt fits
  exact isSmallest_three_mul_pow_iff several (by omega)

end Call

theorem calImprobability_isSmallest_iff_five :
    ∃ retVal, calImprobability natPow resetPrimeIndex 5 = some (retVal, 2) ∧
      IsSmallest 5 retVal.toNat := by
  have several : 2 ≤ (5 : BitVec 64).toNat := by decide
  obtain ⟨retVal, run, smallest⟩ :=
    calImprobability_isSmallest_iff isExactOnTwo_natPow several (by decide)
  exact ⟨retVal, run, smallest.mpr (by decide)⟩

/-- The answer for 6 is 96, but 30 has six arrangements. -/
theorem calImprobability_six :
    calImprobability natPow resetPrimeIndex 6 = some (96, 2) ∧
      arrangements 30 = 6 ∧ ¬ IsSmallest 6 96 := by
  have several : 2 ≤ (6 : BitVec 64).toNat := by decide
  refine ⟨calImprobability_eq isExactOnTwo_natPow several (by decide),
    Exponents.arrangements_distance ⟨1, 1, 1, 0⟩, ?_⟩
  exact mt (isSmallest_three_mul_pow_iff several (by decide)).mp (not_not.mpr (by decide))

/-! ## The run of the program -/

/-- The answer for a number. -/
def answer (n : ℕ) : ℕ := if n = 1 then 4 else 3 * 2 ^ (n - 1)

/-- A line that holds a positive number whose answer is below `2 ^ 64`. -/
def HoldsNumber (buf : List Char) (n : ℕ) : Prop :=
  1 ≤ n ∧ answer n < 2 ^ 64 ∧ ∃ rest, scanInt buf = some ((n : ℤ), rest)

section Run
variable {pow : Float.Model → Float.Model → Float.Model}

theorem calImprobability_answer (precise : IsExactOnTwo pow) {n : ℕ} (positive : 1 ≤ n)
    (fits : answer n < 2 ^ 64) :
    ∃ index, calImprobability pow resetPrimeIndex (.ofNat 64 n) =
      some (.ofNat 64 (answer n), index) := by
  rcases Nat.eq_or_lt_of_le positive with rfl | several
  · exact ⟨resetPrimeIndex, rfl⟩
  · rw [answer, if_neg (Nat.ne_of_gt several)] at *
    have bounded := exponent_lt fits
    have value : (BitVec.ofNat 64 n).toNat = n := by
      rw [BitVec.toNat_ofNat, Nat.mod_eq_of_lt (by omega)]
    have run := calImprobability_eq precise (value.symm ▸ several : 2 ≤ (BitVec.ofNat 64 n).toNat)
    rw [value] at run
    exact ⟨2, run fits⟩

/-- A line is answered, and the index is zero again. -/
theorem processLine_eq (precise : IsExactOnTwo pow) {buf : List Char} {n : ℕ}
    (h : HoldsNumber buf n) {v : Vars} (reset : v.primeIndex = resetPrimeIndex) :
    processLine pow v buf =
      some (⟨.ofNat 64 n, resetPrimeIndex⟩, ⟨.ofNat 64 n, .ofNat 64 (answer n)⟩) := by
  obtain ⟨positive, fits, rest, scanned⟩ := h
  have var : scanVar buf v.var = .ofNat 64 n := by
    simp only [scanVar, scanned, BitVec.ofInt_natCast]
  obtain ⟨index, run⟩ := calImprobability_answer precise positive fits
  simp only [processLine, var, reset, run, Option.bind_eq_bind, Option.bind_some, Option.pure_def]

theorem mainLoop_eq (precise : IsExactOnTwo pow) {lines : List (List Char)} {numbers : List ℕ}
    (h : List.Forall₂ HoldsNumber lines numbers) {v : Vars}
    (reset : v.primeIndex = resetPrimeIndex) :
    mainLoop pow v lines = some (numbers.map fun n => ⟨.ofNat 64 n, .ofNat 64 (answer n)⟩) := by
  induction h generalizing v with
  | nil => rfl
  | @cons buf n lines numbers first _ ih =>
      have line := processLine_eq precise first reset
      have others := @ih ⟨.ofNat 64 n, resetPrimeIndex⟩ rfl
      simp only [mainLoop, line, others, Option.bind_eq_bind, Option.bind_some, Option.pure_def,
        List.map_cons]

/-- Every line is answered as if it were the only one. -/
theorem main_eq (precise : IsExactOnTwo pow) {stdin : List Char} {numbers : List ℕ}
    (h : List.Forall₂ HoldsNumber (fgetsAll 48 stdin) numbers) :
    main pow stdin = some (numbers.map fun n => ⟨.ofNat 64 n, .ofNat 64 (answer n)⟩) :=
  mainLoop_eq precise h rfl

end Run

end SamplePrograms.Improbability
