import Mathlib.Data.Nat.ModEq
import Mathlib.Algebra.BigOperators.Group.List.Basic

/-!
# One's complement sums

A sum of digits is brought back to one digit by adding what lies above the lowest digit to it.
Two such steps are enough for a number of two digits. They keep the residue modulo one less than
the base, and they never turn a number into zero or out of zero, so that they choose the largest
digit for a residue zero.
-/

namespace SamplePrograms.OnesComplement

variable {b s t : ℕ}

/-- Add what lies above the lowest digit to this digit. -/
def carry (b s : ℕ) : ℕ := s / b + s % b

/-- The digit that stands for a sum. -/
def digit (b s : ℕ) : ℕ := if s = 0 then 0 else (s - 1) % (b - 1) + 1

@[simp] theorem digit_zero (b : ℕ) : digit b 0 = 0 := rfl

theorem digit_eq_zero_iff : digit b s = 0 ↔ s = 0 := by
  simp [digit]

theorem digit_of_lt (h : s < b) : digit b s = s := by
  by_cases zero : s = 0
  · simp [zero]
  · rw [digit, if_neg zero, Nat.mod_eq_of_lt (by omega)]
    omega

theorem digit_lt (hb : 1 < b) (s : ℕ) : digit b s < b := by
  by_cases zero : s = 0
  · simp [zero]
    omega
  · have below := Nat.mod_lt (s - 1) (show 0 < b - 1 by omega)
    rw [digit, if_neg zero]
    omega

theorem digit_modEq (b s : ℕ) : digit b s ≡ s [MOD b - 1] := by
  by_cases zero : s = 0
  · rw [zero, digit_zero]
  · have step := (Nat.mod_modEq (s - 1) (b - 1)).add_right 1
    rw [digit, if_neg zero]
    rwa [Nat.sub_add_cancel (Nat.one_le_iff_ne_zero.mpr zero)] at step

/-- Numbers with the same residue have the same digit if both are zero or none is. -/
theorem digit_eq_of_modEq (same : s ≡ t [MOD b - 1]) (zero : s = 0 ↔ t = 0) :
    digit b s = digit b t := by
  by_cases hs : s = 0
  · rw [hs, zero.mp hs]
  · have ht : t ≠ 0 := fun h => hs (zero.mpr h)
    have before : s - 1 ≡ t - 1 [MOD b - 1] := by
      apply Nat.ModEq.add_right_cancel' 1
      rwa [Nat.sub_add_cancel (Nat.one_le_iff_ne_zero.mpr hs),
        Nat.sub_add_cancel (Nat.one_le_iff_ne_zero.mpr ht)]
    rw [digit, digit, if_neg hs, if_neg ht, before]

theorem digit_eq_iff : digit b s = digit b t ↔ s ≡ t [MOD b - 1] ∧ (s = 0 ↔ t = 0) := by
  constructor
  · intro h
    refine ⟨(digit_modEq b s).symm.trans (h ▸ digit_modEq b t), ?_⟩
    rw [← digit_eq_zero_iff (b := b), h, digit_eq_zero_iff]
  · rintro ⟨same, zero⟩
    exact digit_eq_of_modEq same zero

/-! ## The two steps -/

theorem carry_modEq (hb : 0 < b) (s : ℕ) : carry b s ≡ s [MOD b - 1] := by
  have split := Nat.div_add_mod s b
  have base : b ≡ 1 [MOD b - 1] := (Nat.modEq_iff_dvd' hb).mpr dvd_rfl |>.symm
  calc carry b s = 1 * (s / b) + s % b := by rw [carry, Nat.one_mul]
    _ ≡ b * (s / b) + s % b [MOD b - 1] := (base.symm.mul_right _).add_right _
    _ = s := split

theorem carry_eq_zero_iff : carry b s = 0 ↔ s = 0 := by
  constructor
  · intro h
    have split := Nat.div_add_mod s b
    obtain ⟨high, low⟩ : s / b = 0 ∧ s % b = 0 := Nat.add_eq_zero_iff.mp h
    rw [high, low] at split
    simpa using split.symm
  · rintro rfl
    simp [carry]

theorem digit_carry (hb : 0 < b) (s : ℕ) : digit b (carry b s) = digit b s :=
  digit_eq_of_modEq (carry_modEq hb s) carry_eq_zero_iff

theorem carry_le (hb : 0 < b) (h : s < b * b) : carry b s ≤ 2 * (b - 1) := by
  have high : s / b < b := Nat.div_lt_of_lt_mul h
  have low := Nat.mod_lt s hb
  rw [carry]
  omega

/-- The second step leaves one digit. -/
theorem carry_lt (hb : 1 < b) (h : s ≤ 2 * (b - 1)) : carry b s < b := by
  have split := Nat.div_add_mod s b
  have low := Nat.mod_lt s (Nat.zero_lt_of_lt hb)
  have high : s / b < 2 := Nat.div_lt_of_lt_mul (by omega)
  rw [carry]
  rcases Nat.lt_or_ge s b with small | large
  · rw [Nat.div_eq_of_lt small, Nat.mod_eq_of_lt small]
    omega
  · have one : s / b = 1 := by
      have := Nat.div_pos large (Nat.zero_lt_of_lt hb)
      omega
    rw [one] at split ⊢
    omega

theorem carry_carry (hb : 1 < b) (h : s < b * b) : carry b (carry b s) = digit b s := by
  have pos : 0 < b := Nat.zero_lt_of_lt hb
  rw [← digit_carry pos s, ← digit_carry pos (carry b s)]
  exact (digit_of_lt (carry_lt hb (carry_le pos h))).symm

/-! ## Complements -/

/-- A sum with the complement of its digit has the largest digit. -/
theorem digit_add_complement (hb : 1 < b) (s : ℕ) :
    digit b (s + (b - 1 - digit b s)) = b - 1 := by
  have below := digit_lt hb s
  have last : digit b (b - 1) = b - 1 := digit_of_lt (by omega)
  refine (digit_eq_of_modEq ?_ ?_).trans last
  · calc s + (b - 1 - digit b s)
        ≡ digit b s + (b - 1 - digit b s) [MOD b - 1] := (digit_modEq b s).symm.add_right _
      _ = b - 1 := by omega
  · have positive : digit b s ≤ s := by
      by_cases zero : s = 0
      · simp [zero]
      · have le := Nat.mod_le (s - 1) (b - 1)
        rw [digit, if_neg zero]
        omega
    omega

/-- The digit of a sum is the largest one exactly for a multiple that is not zero. -/
theorem digit_eq_last_iff (hb : 1 < b) : digit b s = b - 1 ↔ b - 1 ∣ s ∧ s ≠ 0 := by
  have last : digit b (b - 1) = b - 1 := digit_of_lt (by omega)
  have multiple : s ≡ b - 1 [MOD b - 1] ↔ b - 1 ∣ s := by
    rw [← Nat.modEq_zero_iff_dvd]
    have full : b - 1 ≡ 0 [MOD b - 1] := Nat.modEq_zero_iff_dvd.mpr dvd_rfl
    exact ⟨fun h => h.trans full, fun h => h.trans full.symm⟩
  rw [← multiple]
  constructor
  · intro h
    obtain ⟨same, zero⟩ := digit_eq_iff.mp (h.trans last.symm)
    exact ⟨same, by omega⟩
  · rintro ⟨same, ne⟩
    exact (digit_eq_of_modEq same (by omega)).trans last

/-! ## Changes of one summand -/

/-- Another summand gives another digit, apart from zero and the largest digit. These two stand
for the same residue, and the rest of the sum hides which one it is. -/
theorem digit_add_eq_iff (hb : 1 < b) {w v : ℕ} (hw : w < b) (hv : v < b) :
    digit b (s + w) = digit b (s + v) ↔
      w = v ∨ (w = 0 ∧ v = b - 1 ∨ w = b - 1 ∧ v = 0) ∧ s ≠ 0 := by
  have cancel : s + w ≡ s + v [MOD b - 1] ↔ w ≡ v [MOD b - 1] :=
    ⟨Nat.ModEq.add_left_cancel' s, fun h => h.add_left s⟩
  have residue : w ≡ v [MOD b - 1] ↔ w = v ∨ w = 0 ∧ v = b - 1 ∨ w = b - 1 ∧ v = 0 := by
    constructor
    · intro h
      by_cases hw' : w < b - 1
      · by_cases hv' : v < b - 1
        · exact Or.inl (h.eq_of_lt_of_lt hw' hv')
        · have zero : w = 0 := by
            have full : v = b - 1 := by omega
            rw [full] at h
            exact (h.trans (Nat.modEq_zero_iff_dvd.mpr dvd_rfl)).eq_of_lt_of_lt hw' (by omega)
          omega
      · have full : w = b - 1 := by omega
        rw [full] at h
        have zero : v ≡ 0 [MOD b - 1] := h.symm.trans (Nat.modEq_zero_iff_dvd.mpr dvd_rfl)
        by_cases hv' : v < b - 1
        · have := zero.eq_of_lt_of_lt hv' (by omega)
          omega
        · omega
    · rintro (rfl | ⟨rfl, rfl⟩ | ⟨rfl, rfl⟩)
      · rfl
      · exact (Nat.modEq_zero_iff_dvd.mpr dvd_rfl).symm
      · exact Nat.modEq_zero_iff_dvd.mpr dvd_rfl
  rw [digit_eq_iff, cancel, residue]
  omega

end SamplePrograms.OnesComplement
