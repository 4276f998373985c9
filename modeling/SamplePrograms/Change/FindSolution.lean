import SamplePrograms.Change.ThreeBins

/-!
# The search of `Solution3.c`

The search does not stop at a solution, so that the last triple that passes the
test wins. From `2 ^ 30` on the product `n*4` wraps around. The least amount for
which a wrong triple then passes the test is a little above a third of `2 ^ 32`.
-/

namespace SamplePrograms.Change
open ForLoop

/-- The product `n*4` of words. -/
def fourTimes (j : ℕ) : ℕ := 4 * j % 2 ^ 32

/-- The triple for the numbers of two kinds of coins, if it passes the test. -/
def tryTriple (N n m : BitVec 32) : Option Solution :=
  if amountsTo (n * 4).toNat m.toNat (N - n - m).toNat N.toNat then some ⟨n, m, N - n - m⟩
  else none

/-- There is a triple with a number of coins of 4 asiap that passes the test. -/
def Passes (b j : ℕ) : Prop := 2 * b + 2 * j < 4 * fourTimes j ∧ 4 * fourTimes j < 3 * b + j

instance (b j : ℕ) : Decidable (Passes b j) := inferInstanceAs (Decidable (_ ∧ _))

/-- The triple with a number of coins of 4 asiap that passes the test. -/
def passing (b j : ℕ) : Solution :=
  ⟨.ofNat 32 j, .ofNat 32 (3 * b + j - 4 * fourTimes j),
    .ofNat 32 (4 * fourTimes j - 2 * b - 2 * j)⟩

/-- What the loop over `m` finds last. -/
def tryCount (N n : BitVec 32) : Option Solution :=
  (multiples 32 1 (N - n).toNat).reverse.findSome? (tryTriple N n)

section Search
variable {b j i : ℕ}

theorem tryTriple_eq (hb : b < 2 ^ 32) (left : j + i < b) :
    tryTriple (.ofNat 32 b) (.ofNat 32 j) (.ofNat 32 i) =
      if 4 * fourTimes j + i = 3 * b + j then
        some ⟨.ofNat 32 j, .ofNat 32 i, .ofNat 32 (b - j - i)⟩
      else none := by
  have value {n : ℕ} (small : n < 2 ^ 32) : (BitVec.ofNat 32 n).toNat = n :=
    Nat.mod_eq_of_lt small
  have times : (BitVec.ofNat 32 j * 4).toNat = fourTimes j := by
    have product : BitVec.ofNat 32 j * 4 = .ofNat 32 (j * 4) := (BitVec.ofNat_mul j 4).symm
    rw [product, BitVec.toNat_ofNat, Nat.mul_comm]
    rfl
  have small : fourTimes j < 2 ^ 32 := Nat.mod_lt _ (by decide)
  have rest : BitVec.ofNat 32 b - .ofNat 32 j - .ofNat 32 i = .ofNat 32 (b - j - i) := by
    rw [ofNat_sub (by omega), ofNat_sub (by omega)]
  have same : 4 * fourTimes j + 2 * i + (b - j - i) = 4 * b ↔
      4 * fourTimes j + i = 3 * b + j := by omega
  rw [tryTriple, rest, times, value (by omega), value (by omega), value hb,
    amountsTo_eq small (by omega) (by omega) hb]
  simp only [decide_eq_true_iff, same]

/-- The loop over `m` finds the only triple that passes the test. -/
theorem tryCount_eq (hb : b < 2 ^ 32) (left : j < b) :
    tryCount (.ofNat 32 b) (.ofNat 32 j) = if Passes b j then some (passing b j) else none := by
  have bound : (BitVec.ofNat 32 b - .ofNat 32 j).toNat = b - j := by
    rw [ofNat_sub left.le, BitVec.toNat_ofNat, Nat.mod_eq_of_lt (by omega)]
  rw [tryCount, bound]
  split
  case isTrue h =>
    obtain ⟨low, high⟩ := h
    have found : tryTriple (.ofNat 32 b) (.ofNat 32 j) (.ofNat 32 (3 * b + j - 4 * fourTimes j)) =
        some (passing b j) := by
      have rest : b - j - (3 * b + j - 4 * fourTimes j) = 4 * fourTimes j - 2 * b - 2 * j := by
        omega
      rw [tryTriple_eq hb (by omega), if_pos (by omega), rest]
      rfl
    have here :
        BitVec.ofNat 32 (3 * b + j - 4 * fourTimes j) ∈ (multiples 32 1 (b - j)).reverse := by
      rw [List.mem_reverse, mem_multiples Nat.one_pos]
      exact ⟨3 * b + j - 4 * fourTimes j, by omega, by omega, by rw [Nat.one_mul]⟩
    apply findSome?_eq_of_unique here found
    intro m hm
    obtain ⟨i, pos, below, rfl⟩ := (mem_multiples Nat.one_pos).mp (List.mem_reverse.mp hm)
    rw [Nat.one_mul] at below ⊢
    by_cases sum : 4 * fourTimes j + i = 3 * b + j
    · have same : i = 3 * b + j - 4 * fourTimes j := by omega
      rw [same]
      exact Or.inr found
    · rw [tryTriple_eq hb (by omega), if_neg sum]
      exact Or.inl rfl
  case isFalse h =>
    rw [List.findSome?_eq_none_iff]
    intro m hm
    obtain ⟨i, pos, below, rfl⟩ := (mem_multiples Nat.one_pos).mp (List.mem_reverse.mp hm)
    rw [Nat.one_mul] at below ⊢
    rw [tryTriple_eq hb (by omega), if_neg]
    intro sum
    exact h ⟨by omega, by omega⟩

/-- The two loops keep the last triple that passes the test. -/
theorem findSolution_eq (N : BitVec 32) (sol : Solution) :
    findSolution N sol =
      some (((multiples 32 1 N.toNat).reverse.findSome? (tryCount N)).getD sol) := by
  have room (bound : BitVec 32) : 1 * ((bound.toNat - 1) / 1 + 1) < 2 ^ 32 := by
    have lt := bound.isLt
    omega
  have counts (bound : BitVec 32) : Counts (fun i : BitVec 32 => i.ult bound) (fun i => i + 1) 1
      (multiples 32 1 bound.toNat) := counts_ult Nat.one_pos (room bound)
  have enough (bound : BitVec 32) : (multiples 32 1 bound.toNat).length < wordCount := by
    have lt := bound.isLt
    rw [multiples_length, wordCount]
    omega
  rw [← foldl_getD]
  apply (counts N).forLoop_pure _ (enough N)
  intro sol n _
  rw [tryCount, ← foldl_getD]
  apply (counts (N - n)).forLoop_pure _ (enough (N - n))
  intro sol m _
  simp only [tryTriple]
  split <;> rfl

end Search

/-! ## Right and wrong triples -/

/-- The triple is change for the amount. -/
def Solution.IsChangeFor (sol : Solution) (N : BitVec 32) : Prop :=
  IsChange N.toNat sol.n.toNat sol.m.toNat sol.o.toNat

/-- No wrong triple passes the test. -/
def SafeAmount (b : ℕ) : Prop := ∀ j < b, Passes b j → 4 * j < 2 ^ 32

section Triples
variable {N : BitVec 32} {j : ℕ}

theorem passing_isChangeFor (left : j < N.toNat) (h : Passes N.toNat j) :
    (passing N.toNat j).IsChangeFor N ↔ 4 * j < 2 ^ 32 := by
  have small := N.isLt
  obtain ⟨low, high⟩ := h
  have value {n : ℕ} (small : n < 2 ^ 32) : (BitVec.ofNat 32 n).toNat = n :=
    Nat.mod_eq_of_lt small
  rw [Solution.IsChangeFor, passing, value (by omega), value (by omega), value (by omega),
    isChange_iff]
  simp only [fourTimes] at low high ⊢
  omega

theorem passes_of_hasChange (h : HasChange N.toNat) : ∃ j < N.toNat, Passes N.toNat j := by
  obtain ⟨n, m, o, h⟩ := h
  have small := N.isLt
  obtain ⟨low, high, -, -⟩ := isChange_iff.mp h
  refine ⟨n.toNat, by omega, ?_⟩
  simp only [Passes, fourTimes]
  omega

/-- The amounts that are small enough, up to a few exceptions. -/
def IsSmall (b : ℕ) : Prop :=
  b ≤ 1431655768 ∨ 1431655770 ≤ b ∧ b ≤ 1431655773 ∨ b = 1431655777 ∨ b = 1431655778

theorem IsSmall.safe {b : ℕ} (h : IsSmall b) : SafeAmount b := by
  intro j left ⟨low, high⟩
  simp only [fourTimes] at low high
  rw [IsSmall] at h
  by_contra wrapped
  have turns : 4 * j / 2 ^ 32 = 1 ∨ 4 * j / 2 ^ 32 = 2 ∨ 4 * j / 2 ^ 32 = 3 := by omega
  rcases turns with once | twice | thrice <;> omega

/-- The first triple whose product wraps around passes the test for any other amount. -/
theorem passes_of_not_isSmall {b : ℕ} (hb : b < 2 ^ 32) (h : ¬ IsSmall b) :
    ∃ j < b, Passes b j ∧ 2 ^ 32 ≤ 4 * j ∧ b < 5 * j := by
  rw [IsSmall] at h
  refine ⟨(b + 2 ^ 33) / 7 + 1, by omega, ?_, by omega, by omega⟩
  have once : fourTimes ((b + 2 ^ 33) / 7 + 1) = 4 * ((b + 2 ^ 33) / 7 + 1) - 2 ^ 32 := by
    rw [fourTimes]
    omega
  rw [Passes, once]
  omega

theorem Passes.pos {b : ℕ} (h : Passes b j) : 0 < j := by
  apply Nat.pos_of_ne_zero
  rintro rfl
  obtain ⟨low, -⟩ := h
  simp only [fourTimes] at low
  omega

theorem tryCount_word (left : j < N.toNat) :
    tryCount N (.ofNat 32 j) = if Passes N.toNat j then some (passing N.toNat j) else none := by
  have found := tryCount_eq N.isLt left
  rwa [BitVec.ofNat_toNat, BitVec.setWidth_eq] at found

/-- What is stored is a triple that passes the test, with at least as many coins of 4 asiap
as any other. -/
theorem findSolution_of_passes (sol : Solution) (left : j < N.toNat) (h : Passes N.toNat j) :
    ∃ j', j ≤ j' ∧ j' < N.toNat ∧ Passes N.toNat j' ∧
      findSolution N sol = some (passing N.toNat j') := by
  obtain ⟨back, split, above⟩ := multiples_split h.pos left
  rw [findSolution_eq, split, List.reverse_append, List.reverse_cons, List.append_assoc,
    List.findSome?_append]
  cases last : back.reverse.findSome? (tryCount N) with
  | none =>
    refine ⟨j, le_rfl, left, h, ?_⟩
    rw [Option.none_or, List.singleton_append, List.findSome?_cons, tryCount_word left, if_pos h]
    rfl
  | some found =>
    obtain ⟨i, hi, tried⟩ := List.exists_of_findSome?_eq_some last
    obtain ⟨j', later, left', rfl⟩ := above i (List.mem_reverse.mp hi)
    rw [tryCount_word left'] at tried
    split at tried
    case isTrue passes =>
      refine ⟨j', later.le, left', passes, ?_⟩
      rw [Option.some_or, Option.getD_some, Option.some.inj tried]
    case isFalse => exact absurd tried (Option.some_ne_none found).symm

theorem findSolution_of_not_passes (sol : Solution) (h : ∀ j < N.toNat, ¬ Passes N.toNat j) :
    findSolution N sol = some sol := by
  rw [findSolution_eq, List.findSome?_eq_none_iff.mpr]
  · rfl
  · intro n hn
    obtain ⟨j, -, left, rfl⟩ := (mem_multiples Nat.one_pos).mp (List.mem_reverse.mp hn)
    rw [Nat.one_mul] at left ⊢
    rw [tryCount_word left, if_neg (h j left)]

theorem passing_ne_zero (left : j < N.toNat) (h : Passes N.toNat j) :
    (passing N.toNat j).n ≠ 0 := by
  intro zero
  have small := N.isLt
  have pos := h.pos
  have value := congrArg BitVec.toNat zero
  rw [passing, BitVec.toNat_ofNat, Nat.mod_eq_of_lt (by omega)] at value
  exact pos.ne' value

/-- A triple that passes the test is change unless the product wraps around. -/
theorem isChangeFor_of_tryTriple {n m : BitVec 32} (safe : SafeAmount N.toNat)
    (left : n.toNat + m.toNat < N.toNat) (pos : 0 < m.toNat)
    (h : amountsTo (n * 4).toNat m.toNat (N - n - m).toNat N.toNat) :
    Solution.IsChangeFor ⟨n, m, N - n - m⟩ N := by
  have tried : tryTriple N n m = some ⟨n, m, N - n - m⟩ := if_pos h
  have found := tryTriple_eq N.isLt left
  rw [BitVec.ofNat_toNat, BitVec.ofNat_toNat, BitVec.ofNat_toNat, BitVec.setWidth_eq,
    BitVec.setWidth_eq, BitVec.setWidth_eq, tried] at found
  split at found
  case isTrue sum =>
    have passes : Passes N.toNat n.toNat := by
      constructor <;> omega
    have few := safe n.toNat (by omega) passes
    have change := (passing_isChangeFor (by omega) passes).mpr few
    have times : fourTimes n.toNat = 4 * n.toNat := Nat.mod_eq_of_lt few
    have m_eq : 3 * N.toNat + n.toNat - 4 * fourTimes n.toNat = m.toNat := by omega
    have o_eq : 4 * fourTimes n.toNat - 2 * N.toNat - 2 * n.toNat =
        N.toNat - n.toNat - m.toNat := by omega
    rw [passing, m_eq, o_eq, BitVec.ofNat_toNat, BitVec.ofNat_toNat, BitVec.setWidth_eq,
      BitVec.setWidth_eq] at change
    rwa [Option.some.inj found]
  case isFalse => exact absurd found (Option.some_ne_none _)

end Triples

/-! ## When the search is right -/

/-- From the zeroed `sol` the search stores change if and only if there is some, and no wrong
triple passes the test. -/
def FindsChange (N : BitVec 32) : Prop :=
  (∃ sol, findSolution N .zero = some sol ∧ (sol ≠ .zero ↔ HasChange N.toNat) ∧
    (sol ≠ .zero → sol.IsChangeFor N)) ∧
  ∀ n m : BitVec 32, 0 < n → n < N → 0 < m → m < N - n →
    amountsTo (n * 4).toNat m.toNat (N - n - m).toNat N.toNat →
    Solution.IsChangeFor ⟨n, m, N - n - m⟩ N

section Right
variable {N : BitVec 32}

/-- If no wrong triple passes the test, then the search stores change or nothing. -/
theorem findSolution_of_safe (safe : SafeAmount N.toNat) (sol : Solution) :
    (HasChange N.toNat → ∃ found, findSolution N sol = some found ∧ found.n ≠ 0 ∧
      found.IsChangeFor N) ∧
    (¬ HasChange N.toNat → findSolution N sol = some sol) := by
  constructor
  · intro change
    obtain ⟨j, left, passes⟩ := passes_of_hasChange change
    obtain ⟨j', -, left', passes', found⟩ := findSolution_of_passes sol left passes
    exact ⟨_, found, passing_ne_zero left' passes',
      (passing_isChangeFor left' passes').mpr (safe j' left' passes')⟩
  · intro none_right
    apply findSolution_of_not_passes
    intro j left passes
    exact none_right ⟨_, _, _, (passing_isChangeFor left passes).mpr (safe j left passes)⟩

theorem findsChange_of_safe (safe : SafeAmount N.toNat) : FindsChange N := by
  obtain ⟨some_right, none_right⟩ := findSolution_of_safe safe .zero
  constructor
  · by_cases change : HasChange N.toNat
    · obtain ⟨sol, found, ne_zero, right⟩ := some_right change
      have stored : sol ≠ .zero := by
        rintro rfl
        exact ne_zero rfl
      exact ⟨sol, found, iff_of_true stored change, fun _ => right⟩
    · exact ⟨.zero, none_right change, iff_of_false (fun h => h rfl) change,
        fun h => absurd rfl h⟩
  · intro n m _ n_lt m_pos m_lt
    have rest : (N - n).toNat = N.toNat - n.toNat := BitVec.toNat_sub_of_le (BitVec.le_of_lt n_lt)
    have below : m.toNat < (N - n).toNat := m_lt
    exact isChangeFor_of_tryTriple safe (by omega) m_pos

/-- A wrong triple with enough coins of 4 asiap is not overwritten by a right one. -/
theorem not_findsChange_of_passes {j : ℕ} (left : j < N.toNat) (passes : Passes N.toNat j)
    (wrapped : 2 ^ 32 ≤ 4 * j) : ¬ FindsChange N := by
  rintro ⟨⟨sol, found, -, right⟩, -⟩
  obtain ⟨j', more, left', passes', found'⟩ := findSolution_of_passes .zero left passes
  obtain rfl : sol = passing N.toNat j' := Option.some.inj (found.symm.trans found')
  have stored : passing N.toNat j' ≠ .zero := by
    intro zero
    exact passing_ne_zero left' passes' (congrArg Solution.n zero)
  have few := (passing_isChangeFor left' passes').mp (right stored)
  omega

/-- The search is right for the small amounts only. -/
theorem findsChange_iff (N : BitVec 32) : FindsChange N ↔ IsSmall N.toNat := by
  constructor
  · intro finds
    by_contra large
    obtain ⟨j, left, passes, wrapped, -⟩ := passes_of_not_isSmall N.isLt large
    exact not_findsChange_of_passes left passes wrapped finds
  · intro small
    exact findsChange_of_safe small.safe

/-- The least amount with a wrong triple, whose product is 1431655768. -/
theorem findSolution_wraps :
    findSolution 1431655769 .zero = some ⟨1431655766, 1, 2⟩ ∧ HasChange 1431655769 ∧
      ¬ IsChange 1431655769 1431655766 1 2 ∧ ¬ FindsChange 1431655769 := by
  have left : 1431655766 < (1431655769 : BitVec 32).toNat := by decide
  have passes : Passes (1431655769 : BitVec 32).toNat 1431655766 := by decide
  refine ⟨?_, hasChange_iff.mpr (by decide), ?_, not_findsChange_of_passes left passes (by decide)⟩
  · obtain ⟨j, more, left', passes', found⟩ := findSolution_of_passes .zero left passes
    have value : (1431655769 : BitVec 32).toNat = 1431655769 := rfl
    obtain ⟨low, high⟩ := passes'
    simp only [fourTimes, value] at low high left'
    have same : j = 1431655766 := by omega
    rw [found, same]
    decide
  · intro wrong
    have amount := wrong.amount
    omega

end Right

end SamplePrograms.Change
