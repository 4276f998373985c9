import Mathlib

/-!
# Weighted harmonic means

Amounts are spent at positive prices. What was spent for each unit that was
bought, the harmonic mean of the prices with the amounts as weights, lies between
any bounds of the prices.
-/

namespace SamplePrograms.HarmonicMean

variable {ι K : Type*} [Field K]

/-- What is bought for the amounts. -/
def units (price amount : ι → K) (l : List ι) : K := (l.map fun i => amount i / price i).sum

/-- What the amounts come to. -/
def spent (amount : ι → K) (l : List ι) : K := (l.map amount).sum

@[simp] theorem units_append (price amount : ι → K) (l l' : List ι) :
    units price amount (l ++ l') = units price amount l + units price amount l' := by
  simp [units]

@[simp] theorem spent_append (amount : ι → K) (l l' : List ι) :
    spent amount (l ++ l') = spent amount l + spent amount l' := by
  simp [spent]

@[simp] theorem units_singleton (price amount : ι → K) (i : ι) :
    units price amount [i] = amount i / price i := by
  simp [units]

@[simp] theorem spent_singleton (amount : ι → K) (i : ι) : spent amount [i] = amount i := by
  simp [spent]

variable [LinearOrder K] [IsStrictOrderedRing K] {l : List ι} {price amount : ι → K} {lo hi : K}

theorem spent_le (positive : ∀ i ∈ l, 0 < price i) (nonneg : ∀ i ∈ l, 0 ≤ amount i)
    (le : ∀ i ∈ l, price i ≤ hi) : spent amount l ≤ hi * units price amount l := by
  rw [spent, units, ← List.sum_map_mul_left]
  apply List.sum_le_sum
  intro i hmem
  calc amount i
      = price i * (amount i / price i) := (mul_div_cancel₀ _ (positive i hmem).ne').symm
    _ ≤ hi * (amount i / price i) :=
        mul_le_mul_of_nonneg_right (le i hmem) (div_nonneg (nonneg i hmem) (positive i hmem).le)

theorem le_spent (positive : ∀ i ∈ l, 0 < price i) (nonneg : ∀ i ∈ l, 0 ≤ amount i)
    (le : ∀ i ∈ l, lo ≤ price i) : lo * units price amount l ≤ spent amount l := by
  rw [spent, units, ← List.sum_map_mul_left]
  apply List.sum_le_sum
  intro i hmem
  calc lo * (amount i / price i)
      ≤ price i * (amount i / price i) :=
        mul_le_mul_of_nonneg_right (le i hmem) (div_nonneg (nonneg i hmem) (positive i hmem).le)
    _ = amount i := mul_div_cancel₀ _ (positive i hmem).ne'

/-- The mean lies between the bounds of the prices. -/
theorem mean_bounds (positive : ∀ i ∈ l, 0 < price i) (nonneg : ∀ i ∈ l, 0 ≤ amount i)
    (bounds : ∀ i ∈ l, lo ≤ price i ∧ price i ≤ hi) (some : 0 < units price amount l) :
    lo ≤ spent amount l / units price amount l ∧ spent amount l / units price amount l ≤ hi := by
  constructor
  · rw [le_div_iff₀ some]
    exact le_spent positive nonneg fun i hmem => (bounds i hmem).1
  · rw [div_le_iff₀ some]
    exact spent_le positive nonneg fun i hmem => (bounds i hmem).2

omit [Field K] [IsStrictOrderedRing K] in
/-- A list that is not empty has an entry with the least price and one with the greatest. -/
theorem exists_bounds (nonempty : l ≠ []) (price : ι → K) :
    ∃ i ∈ l, ∃ j ∈ l, ∀ k ∈ l, price i ≤ price k ∧ price k ≤ price j := by
  classical
  have nonempty' : l.toFinset.Nonempty := (List.toFinset_nonempty_iff l).mpr nonempty
  obtain ⟨i, hi, least⟩ := Finset.exists_min_image l.toFinset price nonempty'
  obtain ⟨j, hj, greatest⟩ := Finset.exists_max_image l.toFinset price nonempty'
  refine ⟨i, List.mem_toFinset.mp hi, j, List.mem_toFinset.mp hj, ?_⟩
  intro k hk
  exact ⟨least k (List.mem_toFinset.mpr hk), greatest k (List.mem_toFinset.mpr hk)⟩

end SamplePrograms.HarmonicMean
