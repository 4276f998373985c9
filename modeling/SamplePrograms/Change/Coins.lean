import SamplePrograms.Change.Model
import SamplePrograms.Library.Doubles

/-!
# What the change is

The number of coins of 4 asiap determines the numbers of the other coins. It lies
between a seventh and a fifth of the amount, so the least one to try is the first
number above a seventh.

The sums that the programs compare are multiples of a quarter far below `2 ^ 53`,
so that no rounding takes place.
-/

namespace SamplePrograms.Change
open Doubles

/-! ## Solutions -/

/-- Change of `N` asiap in `N` coins, with at least one of each kind. The amounts
are in quarters. -/
structure IsChange (N n m o : ℤ) : Prop where
  n_pos : 1 ≤ n
  m_pos : 1 ≤ m
  o_pos : 1 ≤ o
  coins : n + m + o = N
  amount : 16 * n + 2 * m + o = 4 * N

/-- There is change for the amount. -/
def HasChange (N : ℤ) : Prop := ∃ n m o, IsChange N n m o

theorem isChange_iff {N n m o : ℤ} :
    IsChange N n m o ↔ N < 7 * n ∧ 5 * n < N ∧ m = 3 * (N - 5 * n) ∧ o = 14 * n - 2 * N := by
  constructor
  · rintro ⟨hn, hm, ho, coins, amount⟩
    omega
  · rintro ⟨low, high, hm, ho⟩
    constructor <;> omega

/-- The least number of coins of 4 asiap that may do. -/
def leastCoins (N : ℤ) : ℤ := N / 7 + 1

theorem IsChange.leastCoins_le {N n m o : ℤ} (h : IsChange N n m o) : leastCoins N ≤ n := by
  have low := (isChange_iff.mp h).1
  rw [leastCoins]
  omega

theorem isChange_leastCoins {N : ℤ} (h : 5 * leastCoins N < N) :
    IsChange N (leastCoins N) (3 * (N - 5 * leastCoins N)) (14 * leastCoins N - 2 * N) := by
  apply isChange_iff.mpr
  refine ⟨?_, h, rfl, rfl⟩
  rw [leastCoins]
  omega

theorem hasChange_iff {N : ℤ} : HasChange N ↔ 5 * leastCoins N < N := by
  constructor
  · rintro ⟨n, m, o, h⟩
    have least := h.leastCoins_le
    have high := (isChange_iff.mp h).2.1
    omega
  · intro h
    exact ⟨_, _, _, isChange_leastCoins h⟩

/-! ## The test of the programs -/

theorem holds_half : Holds (.ofScientific 5 (-1)) 1 (-1) := rfl

theorem holds_quarter : Holds (.ofScientific 25 (-2)) 1 (-2) := rfl

/-- The test of the programs compares numbers of quarters. -/
theorem amountsTo_eq {n4 m o N : ℕ} (hn : n4 < 2 ^ 32) (hm : m < 2 ^ 32) (ho : o < 2 ^ 32)
    (hN : N < 2 ^ 32) : amountsTo n4 m o N = decide (4 * n4 + 2 * m + o = 4 * N) := by
  have wholes : Holds (.ofInt n4) (n4 * 2 ^ 2) (-2) :=
    (holds_ofInt (by omega)).rescale (by omega) rfl
  have halves : Holds (.ofInt m * .ofScientific 5 (-1)) (m * 1 * 2 ^ 1) (-2) :=
    ((holds_ofInt (by omega)).mul holds_half (by omega) (by decide) (by omega)
      ⟨by decide, by decide⟩).rescale (by omega) rfl
  have quarters : Holds (.ofInt o * .ofScientific 25 (-2)) (o * 1) (-2) :=
    (holds_ofInt (by omega)).mul holds_quarter (by omega) (by decide) (by omega)
      ⟨by decide, by decide⟩
  have amount : Holds (.ofInt N) (N * 2 ^ 2) (-2) :=
    (holds_ofInt (by omega)).rescale (by omega) rfl
  have range : InRange (-2) := ⟨by decide, by decide⟩
  have sum := (wholes.add halves (by omega) range).add quarters (by omega) range
  rw [amountsTo, sum.beq amount (by omega) (by omega), decide_eq_decide]
  omega

end SamplePrograms.Change
