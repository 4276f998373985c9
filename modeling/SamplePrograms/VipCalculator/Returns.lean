import SamplePrograms.VipCalculator.Model

/-!
# The total return of `vipCalculator-cagr.py`

The number of years is a quotient, and the loop that counts it down runs once
more for a part of a year. The installments of that part are then added again.
-/

namespace SamplePrograms.VipCalculator.Cagr

variable {pow : ℚ → ℚ → ℚ} {self : VipInvestment}

/-- The loop adds one amount for each year that has begun. -/
theorem yearLoop_eq (pow : ℚ → ℚ → ℚ) (annualInvst growth yearCount totalRet : ℚ) :
    yearLoop pow annualInvst growth yearCount totalRet =
      totalRet + ((List.range ⌈yearCount⌉₊).map fun k : ℕ =>
        annualInvst * pow growth (yearCount - k)).sum := by
  fun_induction yearLoop pow annualInvst growth yearCount totalRet with
  | case1 yearCount totalRet some ih =>
      have years : ⌈yearCount⌉₊ = ⌈yearCount - 1⌉₊ + 1 := by
        have pos := Nat.ceil_pos.mpr some
        rw [Nat.ceil_sub_one]
        omega
      rw [ih, years, List.range_succ_eq_map, List.map_cons, List.sum_cons, List.map_map,
        ← add_assoc]
      congr 2
      · simp
      · apply List.map_congr_left
        intro k _
        rw [Function.comp_apply, Nat.cast_succ, add_comm, sub_add_eq_sub_sub]
  | case2 yearCount totalRet none =>
      rw [Nat.ceil_eq_zero.mpr (not_lt.mp none)]
      simp

/-- The number of years, with a part of a year. -/
def yearCount (self : VipInvestment) : ℚ := self.installmentCount / 12

/-- The installments after the last full year. -/
def yearRem (self : VipInvestment) : ℚ := (self.installmentCount % 12 : ℤ)

/-- The amounts that are added to the total return, and the exponents of their growth. -/
def terms (self : VipInvestment) : List (ℚ × ℚ) :=
  ((List.range ⌈yearCount self⌉₊).map fun k : ℕ => (self.initInvest * 12, yearCount self - k)) ++
    [(self.initInvest * yearRem self, yearRem self / 12)]

/-- The total return is the sum of the terms. -/
theorem totalRet_eq (pow : ℚ → ℚ → ℚ) (self : VipInvestment) :
    totalRet pow self = ((terms self).map fun t => t.1 * pow (growth self) t.2).sum := by
  simp only [totalRet, terms, List.map_append, List.map_map, List.sum_append, List.map_singleton,
    List.sum_singleton]
  rw [← yearCount, yearLoop_eq, zero_add]
  rfl

/-- The amounts of the terms. -/
def amounts (self : VipInvestment) : ℚ := ((terms self).map Prod.fst).sum

theorem amounts_eq (self : VipInvestment) :
    amounts self = self.initInvest * (12 * ⌈yearCount self⌉₊ + yearRem self) := by
  simp only [amounts, terms, List.map_append, List.map_map, List.sum_append, List.map_singleton,
    List.sum_singleton, Function.comp_def, List.map_const', List.length_range, List.sum_replicate,
    nsmul_eq_mul]
  ring

/-- The loop and the rest count each installment once if there is no part of a year. -/
theorem counted_iff (self : VipInvestment) (count : 1 ≤ self.installmentCount) :
    (12 * ⌈yearCount self⌉₊ + yearRem self : ℚ) = self.installmentCount ↔
      12 ∣ self.installmentCount := by
  have some : (1 : ℚ) ≤ self.installmentCount := by exact_mod_cast count
  have least : (self.installmentCount : ℚ) ≤ 12 * ⌈yearCount self⌉₊ := by
    have le := Nat.le_ceil (yearCount self)
    rw [yearCount] at le ⊢
    linarith
  have most : (12 * ⌈yearCount self⌉₊ : ℚ) < self.installmentCount + 12 := by
    have nonneg : 0 ≤ yearCount self := by
      rw [yearCount]
      positivity
    have lt := Nat.ceil_lt_add_one nonneg
    rw [yearCount] at lt ⊢
    linarith
  generalize ⌈yearCount self⌉₊ = years at least most ⊢
  rw [yearRem]
  norm_cast at least most ⊢
  omega

/-- The amounts come to those of the installments if there is no part of a year. -/
theorem amounts_eq_iff (self : VipInvestment) (count : 1 ≤ self.installmentCount) :
    amounts self = self.initInvest * self.installmentCount ↔
      12 ∣ self.installmentCount ∨ self.initInvest = 0 := by
  rw [amounts_eq, mul_eq_mul_left_iff, counted_iff self count]

/-- Without growth the total return is the sum of the amounts. -/
theorem totalRet_of_growth_one (ones : ∀ y, pow 1 y = 1) (still : self.expectedRet = 0) :
    totalRet pow self = amounts self := by
  have growth : growth self = 1 := by
    rw [Cagr.growth, still, zero_div, add_zero]
  simp only [totalRet_eq, growth, ones, mul_one, amounts]

/-- The power function at an exponent that is an integer. -/
def intPow (x y : ℚ) : ℚ := x ^ ⌊y⌋

theorem intPow_one (y : ℚ) : intPow 1 y = 1 := one_zpow ⌊y⌋

/-- A year and a half without growth. -/
def halfYear : VipInvestment :=
  { VipInvestment.default with expectedRet := 0, installmentCount := 18 }

end SamplePrograms.VipCalculator.Cagr
