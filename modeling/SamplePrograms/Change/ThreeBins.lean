import SamplePrograms.Change.Coins

/-!
# The searches of `Main.java`

A search visits the numbers of coins of 4 asiap in ascending order. The first one
above a seventh of the amount is far below `2 ^ 29`, and so `n*4` has not wrapped
around when it is reached.
-/

namespace SamplePrograms.Change
open ForLoop

/-- The solution with the least number of coins of 4 asiap, if there is one. -/
def leastSolution (N : ℤ) : List (BitVec 32) :=
  let n := leastCoins N
  if 5 * n < N then [.ofInt 32 n, .ofInt 32 (3 * (N - 5 * n)), .ofInt 32 (14 * n - 2 * N)] else []

/-- The array for the numbers of two kinds of coins, if it passes the test. -/
def tryCoins (N n m : BitVec 32) : Option (List (BitVec 32)) :=
  if amountsTo (n * 4).toInt m.toInt (N - n - m).toInt N.toInt then some [n, m, N - n - m]
  else none

/-- What the loop over `m` finds, if it passes through the multiples of `k`. -/
def searchMultiples (k : ℕ) (N n : BitVec 32) : Option (List (BitVec 32)) :=
  (multiples 32 k (N - n).toInt.toNat).findSome? (tryCoins N n)

/-! ## Words that hold numbers -/

theorem ofNat_sub {a b : ℕ} (h : b ≤ a) :
    BitVec.ofNat 32 a - .ofNat 32 b = .ofNat 32 (a - b) := by
  apply BitVec.eq_of_toNat_eq
  simp only [BitVec.toNat_sub, BitVec.toNat_ofNat]
  omega

/-- An amount that is not negative is the word of a number. -/
theorem eq_ofNat_of_nonneg {N : BitVec 32} (h : 0 ≤ N.toInt) :
    N = .ofNat 32 N.toInt.toNat ∧ N.toInt.toNat < 2 ^ 31 := by
  have small : N.toInt.toNat < 2 ^ 31 := by
    have lt := N.toInt_lt
    omega
  refine ⟨?_, small⟩
  apply BitVec.eq_of_toInt_eq
  rw [toInt_ofNat_of_lt small]
  omega

/-! ## The search -/

/-- The steps of the two searches. -/
def IsStep (k : ℕ) : Prop := k = 1 ∨ k = 3

section Search
variable {k b j i : ℕ}

theorem IsStep.pos (hk : IsStep k) : 0 < k := by
  rcases hk with rfl | rfl <;> decide

/-- The counter `m` does not wrap around. -/
theorem IsStep.room (hk : IsStep k) (small : b < 2 ^ 31 - 1) : k * ((b - 1) / k + 1) < 2 ^ 31 := by
  rcases hk with rfl | rfl <;> omega

theorem tryCoins_eq (hb : b < 2 ^ 31) (few : j < 2 ^ 29) (left : j + i < b) :
    tryCoins (.ofNat 32 b) (.ofNat 32 j) (.ofNat 32 i) =
      if 15 * j + i = 3 * b then
        some [.ofNat 32 j, .ofNat 32 i, .ofNat 32 (b - j - i)]
      else none := by
  have value {n : ℕ} (small : n < 2 ^ 31) : (BitVec.ofNat 32 n).toInt = n :=
    toInt_ofNat_of_lt small
  have times : BitVec.ofNat 32 j * 4 = .ofNat 32 (j * 4) := (BitVec.ofNat_mul j 4).symm
  have rest : BitVec.ofNat 32 b - .ofNat 32 j - .ofNat 32 i = .ofNat 32 (b - j - i) := by
    rw [ofNat_sub (by omega), ofNat_sub (by omega)]
  have same : (4 * (j * 4) + 2 * i + (b - j - i) = 4 * b) ↔ 15 * j + i = 3 * b := by omega
  rw [tryCoins, rest, times, value (by omega), value (by omega), value (by omega), value hb,
    amountsTo_eq (by omega) (by omega) (by omega) (by omega)]
  simp only [decide_eq_true_iff, same]

/-- The loop over `m` finds the only solution with a number of coins of 4 asiap. -/
theorem searchMultiples_eq (hk : IsStep k) (hb : b < 2 ^ 31) (pos : 0 < j) (few : j < 2 ^ 29)
    (left : j < b) :
    searchMultiples k (.ofNat 32 b) (.ofNat 32 j) =
      if b < 7 * j ∧ 5 * j < b then
        some [.ofNat 32 j, .ofNat 32 (3 * (b - 5 * j)), .ofNat 32 (14 * j - 2 * b)]
      else none := by
  have bound : (BitVec.ofNat 32 b - .ofNat 32 j).toInt.toNat = b - j := by
    rw [ofNat_sub left.le, toInt_ofNat_of_lt (by omega), Int.toNat_natCast]
  have tried : ∀ i, 0 < i → k * i < b - j →
      tryCoins (.ofNat 32 b) (.ofNat 32 j) (.ofNat 32 (k * i)) = if 15 * j + k * i = 3 * b then
        some [.ofNat 32 j, .ofNat 32 (k * i), .ofNat 32 (b - j - k * i)]
      else none := fun i _ below => tryCoins_eq hb few (by omega)
  rw [searchMultiples, bound]
  split
  case isTrue h =>
    obtain ⟨low, high⟩ := h
    obtain ⟨i, hi⟩ : ∃ i, k * i = 3 * (b - 5 * j) := by
      rcases hk with rfl | rfl
      · exact ⟨3 * (b - 5 * j), Nat.one_mul _⟩
      · exact ⟨b - 5 * j, rfl⟩
    have pos_i : 0 < i := by
      apply Nat.pos_of_ne_zero
      rintro rfl
      omega
    have found : tryCoins (.ofNat 32 b) (.ofNat 32 j) (.ofNat 32 (k * i)) =
        some [.ofNat 32 j, .ofNat 32 (3 * (b - 5 * j)), .ofNat 32 (14 * j - 2 * b)] := by
      have rest : b - j - k * i = 14 * j - 2 * b := by omega
      rw [tried i pos_i (by omega), if_pos (by omega), rest, hi]
    apply findSome?_eq_of_unique ((mem_multiples hk.pos).mpr ⟨i, pos_i, by omega, rfl⟩) found
    intro m hm
    obtain ⟨i', pos_i', below, rfl⟩ := (mem_multiples hk.pos).mp hm
    by_cases sum : 15 * j + k * i' = 3 * b
    · have same : k * i' = k * i := by omega
      rw [same]
      exact Or.inr found
    · rw [tried i' pos_i' below, if_neg sum]
      exact Or.inl rfl
  case isFalse h =>
    rw [List.findSome?_eq_none_iff]
    intro m hm
    obtain ⟨i, hi, below, rfl⟩ := (mem_multiples hk.pos).mp hm
    have some_m := Nat.mul_pos hk.pos hi
    rw [tried i hi below, if_neg]
    intro sum
    exact h ⟨by omega, by omega⟩

theorem outer_counts (N : BitVec 32) :
    Counts (fun n : BitVec 32 => n.slt N) (fun n => n + .ofNat 32 1) (.ofNat 32 1)
      (multiples 32 1 N.toInt.toNat) := by
  apply counts_slt Nat.one_pos
  have lt := N.toInt_lt
  omega

theorem bound_lt {N n : BitVec 32} (hn : n ∈ multiples 32 1 N.toInt.toNat) :
    (N - n).toInt.toNat < 2 ^ 31 - 1 := by
  obtain ⟨j, pos, below, rfl⟩ := (mem_multiples Nat.one_pos).mp hn
  rw [Nat.one_mul] at below ⊢
  obtain ⟨hN, hb⟩ := eq_ofNat_of_nonneg (N := N) (by omega)
  rw [hN, ofNat_sub below.le, toInt_ofNat_of_lt (by omega)]
  omega

theorem inner_counts (hk : IsStep k) {N n : BitVec 32} (hn : n ∈ multiples 32 1 N.toInt.toNat) :
    Counts (fun m : BitVec 32 => m.slt (N - n)) (fun m => m + .ofNat 32 k) (.ofNat 32 k)
      (multiples 32 k (N - n).toInt.toNat) :=
  counts_slt hk.pos (hk.room (bound_lt hn))

/-- The two loops are a search over the numbers of two kinds of coins. -/
theorem searchBins_eq (hk : IsStep k) (N : BitVec 32) :
    searchBins (.ofNat 32 k) (.ofNat 32 k) N =
      returnIf ((multiples 32 1 N.toInt.toNat).findSome? (searchMultiples k N)) := by
  apply (outer_counts N).forLoop_returnIf
  · intro n hn
    apply (inner_counts hk hn).forLoop_returnIf
    · intro m _
      exact ite_throw _ _
    · have fewer := Nat.div_le_self ((N - n).toInt.toNat - 1) k
      have small := bound_lt hn
      rw [multiples_length, wordCount]
      omega
  · have lt := N.toInt_lt
    rw [multiples_length, wordCount]
    omega

/-- The multiples of one are split at one of them. -/
theorem multiples_split {n : ℕ} (pos : 0 < n) (below : n < b) :
    ∃ back, multiples 32 1 b = multiples 32 1 n ++ .ofNat 32 n :: back ∧
      ∀ i ∈ back, ∃ j, n < j ∧ j < b ∧ i = .ofNat 32 j := by
  have split : List.range' 1 (b - 1) =
      List.range' 1 (n - 1) ++ n :: List.range' (n + 1) (b - 1 - n) := by
    have first : 1 + (n - 1) = n := by omega
    have lengths : b - 1 = n - 1 + (b - 1 - n + 1) := by omega
    rw [lengths, ← List.range'_append_1, first, List.range'_succ]
    congr 3
    omega
  refine ⟨(List.range' (n + 1) (b - 1 - n)).map fun j => .ofNat 32 (1 * j), ?_, ?_⟩
  · simp only [multiples, Nat.div_one, split, List.map_append, List.map_cons, Nat.one_mul]
  · intro i hi
    obtain ⟨j, hj, rfl⟩ := List.mem_map.mp hi
    rw [List.mem_range'_1] at hj
    exact ⟨j, by omega, by omega, by rw [Nat.one_mul]⟩

/-- The search over both kinds of coins finds the least solution. -/
theorem findSome?_searchMultiples (hk : IsStep k) (hb : b < 2 ^ 31) :
    ((multiples 32 1 b).findSome? (searchMultiples k (.ofNat 32 b))).getD [] = leastSolution b := by
  have searched : ∀ j, 0 < j → j < 2 ^ 29 → j < b →
      searchMultiples k (.ofNat 32 b) (.ofNat 32 j) = if b < 7 * j ∧ 5 * j < b then
        some [.ofNat 32 j, .ofNat 32 (3 * (b - 5 * j)), .ofNat 32 (14 * j - 2 * b)]
      else none := fun j pos few left => searchMultiples_eq hk hb pos few left
  have least : leastCoins b = (b / 7 + 1 : ℕ) := rfl
  by_cases solvable : 5 * (b / 7 + 1) < b
  · obtain ⟨back, split, -⟩ := multiples_split (Nat.succ_pos (b / 7)) (b := b) (by omega)
    have before : (multiples 32 1 (b / 7 + 1)).findSome? (searchMultiples k (.ofNat 32 b)) =
        none := by
      rw [List.findSome?_eq_none_iff]
      intro n hn
      obtain ⟨j, pos, few, rfl⟩ := (mem_multiples Nat.one_pos).mp hn
      rw [Nat.one_mul] at few ⊢
      rw [searched j pos (by omega) (by omega), if_neg]
      omega
    have here : searchMultiples k (.ofNat 32 b) (.ofNat 32 (b / 7 + 1)) =
        some [.ofNat 32 (b / 7 + 1), .ofNat 32 (3 * (b - 5 * (b / 7 + 1))),
          .ofNat 32 (14 * (b / 7 + 1) - 2 * b)] := by
      rw [searched _ (Nat.succ_pos _) (by omega) (by omega), if_pos ⟨by omega, solvable⟩]
    rw [split, List.findSome?_append, before, List.findSome?_cons, here]
    have m_eq : (3 * ((b : ℤ) - 5 * (b / 7 + 1 : ℕ))) = (3 * (b - 5 * (b / 7 + 1)) : ℕ) := by omega
    have o_eq : (14 * ((b / 7 + 1 : ℕ) : ℤ) - 2 * b) = (14 * (b / 7 + 1) - 2 * b : ℕ) := by omega
    have cond : 5 * ((b / 7 + 1 : ℕ) : ℤ) < b := by omega
    simp only [leastSolution, least, if_pos cond, m_eq, o_eq, BitVec.ofInt_natCast]
    rfl
  · have none_found : (multiples 32 1 b).findSome? (searchMultiples k (.ofNat 32 b)) = none := by
      rw [List.findSome?_eq_none_iff]
      intro n hn
      obtain ⟨j, pos, left, rfl⟩ := (mem_multiples Nat.one_pos).mp hn
      rw [Nat.one_mul] at left ⊢
      rw [searched j pos (by omega) left, if_neg]
      omega
    have cond : ¬ 5 * ((b / 7 + 1 : ℕ) : ℤ) < b := by omega
    simp only [none_found, leastSolution, least, if_neg cond, Option.getD_none]

/-- The search returns the solution with the least number of coins of 4 asiap. -/
theorem threeBins_eq (hk : IsStep k) (N : BitVec 32) :
    threeBins (.ofNat 32 k) (.ofNat 32 k) N = some (leastSolution N.toInt) := by
  have run : ∀ result : Option (List (BitVec 32)),
      searchBins (.ofNat 32 k) (.ofNat 32 k) N = returnIf result →
      threeBins (.ofNat 32 k) (.ofNat 32 k) N = some (result.getD []) := by
    intro result h
    rw [threeBins, h]
    cases result <;> rfl
  rw [run _ (searchBins_eq hk N), Option.some.injEq]
  rcases le_or_gt 0 N.toInt with nonneg | neg
  · obtain ⟨hN, hb⟩ := eq_ofNat_of_nonneg nonneg
    have found := findSome?_searchMultiples hk hb
    rwa [← hN, Int.toNat_of_nonneg nonneg] at found
  · have zero : N.toInt.toNat = 0 := by omega
    have cond : ¬ 5 * leastCoins N.toInt < N.toInt := by
      rw [leastCoins]
      omega
    rw [zero, leastSolution, if_neg cond]
    rfl

end Search

/-! ## The two methods -/

/-- For every `int` the first method returns the solution with the least number of coins
of 4 asiap, or an empty array if there is no solution. -/
theorem findAllCombinationsOfNIntoThreeBins_least (N : BitVec 32) :
    ∃ solution, findAllCombinationsOfNIntoThreeBins N = some solution ∧
      (solution ≠ [] ↔ HasChange N.toInt) ∧
      (solution ≠ [] → ∃ n m o : BitVec 32, solution = [n, m, o] ∧
        IsChange N.toInt n.toInt m.toInt o.toInt ∧
        (∀ n' m' o', IsChange N.toInt n' m' o' → n.toInt ≤ n') ∧
        m.toInt = 3 * (N.toInt - 5 * n.toInt) ∧ o.toInt = 14 * n.toInt - 2 * N.toInt) := by
  refine ⟨leastSolution N.toInt, threeBins_eq (.inl rfl) N, ?_⟩
  by_cases solvable : 5 * leastCoins N.toInt < N.toInt
  · have change := isChange_leastCoins solvable
    have lt := N.toInt_lt
    have pos := (hasChange_iff.mpr solvable)
    have found : leastSolution N.toInt = _ := if_pos solvable
    obtain ⟨hn, hm, ho, coins, -⟩ := change
    have value {i : ℤ} (pos : 1 ≤ i) (below : i < N.toInt) : (BitVec.ofInt 32 i).toInt = i :=
      BitVec.toInt_ofInt_eq_self (by decide) (by omega) (by omega)
    rw [found]
    refine ⟨iff_of_true (List.cons_ne_nil _ _) pos, fun _ => ⟨_, _, _, rfl, ?_⟩⟩
    rw [value hn (by omega), value hm (by omega), value ho (by omega)]
    exact ⟨isChange_leastCoins solvable, fun _ _ _ h => h.leastCoins_le, rfl, rfl⟩
  · have found : leastSolution N.toInt = [] := if_neg solvable
    rw [found]
    exact ⟨iff_of_false (fun h => h rfl) fun h => solvable (hasChange_iff.mp h),
      fun h => absurd rfl h⟩

end SamplePrograms.Change
