import SamplePrograms.Library.Arrangements

/-!
# The distances with a number of arrangements

A number of up to 63 arrangements is 1, or the number of the prime factors, or one
of sixteen exceptions. With `n` prime factors that are not all equal the least
distance is `3 * 2 ^ (n - 1)`. Every exception has a smaller one.
-/

namespace SamplePrograms.Improbability
open Arrangements

/-- The prime factors of a distance, with their multiplicities. -/
def factors (k : ℕ) : Multiset ℕ := k.primeFactorsList

/-- The number of arrangements of the prime factors of a distance. -/
def arrangements (k : ℕ) : ℕ := orderingCount (factors k)

/-- The distance is the smallest with `n` arrangements of its prime factors. -/
def IsSmallest (n k : ℕ) : Prop := IsLeast {k | 1 < k ∧ arrangements k = n} k

/-! ## The numbers of arrangements -/

/-- The numbers below 64 that `s` elements may have as their numbers of orderings. -/
def smallCounts (s : ℕ) : List ℕ :=
  match s with
  | 0 => [1]
  | 1 => [1]
  | 2 => [1, 2]
  | 3 => [1, 3, 6]
  | 4 => [1, 4, 6, 12, 24]
  | 5 => [1, 5, 10, 20, 30, 60]
  | 6 => [1, 6, 15, 20, 30, 60]
  | 7 => [1, 7, 21, 35, 42]
  | 8 => [1, 8, 28, 56]
  | 9 => [1, 9, 36]
  | 10 => [1, 10, 45]
  | 11 => [1, 11, 55]
  | s => [1, s]

/-- The numbers below 64, other than 1, that are the number of orderings of fewer elements. -/
def exceptions : List ℕ := [6, 10, 12, 15, 20, 21, 24, 28, 30, 35, 36, 42, 45, 55, 56, 60]

theorem smallCounts_of_le {s : ℕ} (many : 12 ≤ s) : smallCounts s = [1, s] := by
  obtain ⟨r, rfl⟩ := Nat.exists_eq_add_of_le' many
  rfl

theorem smallCounts_cases {s n : ℕ} (hn : n ∈ smallCounts s) :
    n = 1 ∨ n = s ∨ n ∈ exceptions := by
  have table : ∀ s < 12, ∀ n ∈ smallCounts s, n = 1 ∨ n = s ∨ n ∈ exceptions := by decide
  rcases Nat.lt_or_ge s 12 with few | many
  · exact table s few n hn
  · rw [smallCounts_of_le many, List.mem_pair] at hn
    exact hn.imp_right Or.inl

/-- The places of `c` copies of one element are chosen among fewer than twelve. -/
theorem smallCounts_choose {c t q : ℕ} (some : 0 < c) (few : c + t < 12) (hq : q ∈ smallCounts t)
    (small : (c + t).choose c * q < 64) : (c + t).choose c * q ∈ smallCounts (c + t) := by
  have table : ∀ t < 11, ∀ c < 11 - t, ∀ q ∈ smallCounts t,
      (c + 1 + t).choose (c + 1) * q < 64 →
        (c + 1 + t).choose (c + 1) * q ∈ smallCounts (c + 1 + t) := by decide
  obtain ⟨c, rfl⟩ := Nat.exists_eq_add_of_le' some
  exact table t (by omega) c (by omega) q hq small

theorem orderingCount_mem_smallCounts {α : Type*} [DecidableEq α] (m : Multiset α)
    (small : orderingCount m < 64) : orderingCount m ∈ smallCounts m.card := by
  induction hn : m.card using Nat.strong_induction_on generalizing m with
  | _ n ih =>
  subst hn
  rcases Nat.lt_or_ge m.card 12 with few | many
  · rcases Multiset.empty_or_exists_mem m with rfl | ⟨a, ha⟩
    · simp [smallCounts]
    have some : 0 < m.count a := Multiset.count_pos.mpr ha
    have total := card_filter_ne a m
    have count := orderingCount_filter_ne a m
    rw [← total, add_comm] at count ⊢
    have places : 0 < (m.count a + (m.filter (a ≠ ·)).card).choose (m.count a) :=
      Nat.choose_pos (Nat.le_add_right _ _)
    have others : orderingCount (m.filter (a ≠ ·)) < 64 :=
      (Nat.le_mul_of_pos_left _ places).trans_lt (count ▸ small)
    have fewer := ih _ (by omega) _ others rfl
    rw [count] at small ⊢
    exact smallCounts_choose some (by omega) fewer small
  · rw [smallCounts_of_le many, List.mem_pair]
    have pairs : (12).choose 2 ≤ m.card.choose 2 := Nat.choose_le_choose 2 many
    rcases orderingCount_cases m with one | all | more
    · exact Or.inl one
    · exact Or.inr all
    · exact absurd small (Nat.not_lt.mpr (le_trans (by decide) (pairs.trans more)))

/-! ## The least distance -/

theorem factors_mul {k l : ℕ} (hk : k ≠ 0) (hl : l ≠ 0) : factors (k * l) = factors k + factors l :=
  Multiset.coe_eq_coe.mpr (Nat.perm_primeFactorsList_mul hk hl)

theorem factors_prime_pow {p : ℕ} (prime : p.Prime) (c : ℕ) :
    factors (p ^ c) = Multiset.replicate c p := by
  rw [factors, prime.primeFactorsList_pow, Multiset.coe_replicate]

theorem mem_factors_prime {p k : ℕ} (hp : p ∈ factors k) : p.Prime :=
  Nat.prime_of_mem_primeFactorsList hp

theorem prod_factors {k : ℕ} (hk : k ≠ 0) : (factors k).prod = k :=
  Nat.prod_primeFactorsList hk

/-- With a factor that is not 2, a distance is at least that of one 3 and otherwise twos. -/
theorem three_mul_pow_le {k p : ℕ} (hk : k ≠ 0) (hp : p ∈ factors k) (odd : p ≠ 2) :
    3 * 2 ^ ((factors k).card - 1) ≤ k := by
  have three : 3 ≤ p := by
    have two := (mem_factors_prime hp).two_le
    omega
  have others : 2 ^ ((factors k).erase p).card ≤ ((factors k).erase p).prod := by
    apply Multiset.pow_card_le_prod
    intro q hq
    exact (mem_factors_prime (Multiset.mem_of_mem_erase hq)).two_le
  calc 3 * 2 ^ ((factors k).card - 1)
      = 3 * 2 ^ ((factors k).erase p).card := by
        rw [Multiset.card_erase_of_mem hp, Nat.pred_eq_sub_one]
    _ ≤ p * ((factors k).erase p).prod := Nat.mul_le_mul three others
    _ = (factors k).prod := Multiset.prod_erase hp
    _ = k := prod_factors hk

/-- A number of arrangements that is no exception is the number of the prime factors. -/
theorem three_mul_pow_le_of_arrangements {n k : ℕ} (several : 2 ≤ n) (small : n < 64)
    (usual : n ∉ exceptions) (count : arrangements k = n) : 3 * 2 ^ (n - 1) ≤ k := by
  have member : n ∈ smallCounts (factors k).card := by
    have bounded := orderingCount_mem_smallCounts (factors k) (count.trans_lt small)
    rwa [← arrangements, count] at bounded
  have all : n = (factors k).card := by
    rcases smallCounts_cases member with one | all | exception
    · omega
    · exact all
    · exact absurd exception usual
  have hk : k ≠ 0 := by
    rintro rfl
    have none : factors 0 = 0 := by simp [factors]
    rw [none, Multiset.card_zero] at all
    omega
  obtain ⟨p, hp, odd⟩ : ∃ p ∈ factors k, p ≠ 2 := by
    by_contra twos
    have same : ∀ p ∈ factors k, p = 2 := fun p hp => by_contra fun odd => twos ⟨p, hp, odd⟩
    have one := orderingCount_replicate (factors k).card 2
    rw [← Multiset.eq_replicate_card.mpr same] at one
    exact absurd (count.symm.trans one) (by omega)
  rw [all]
  exact three_mul_pow_le hk hp odd

/-- One 3 stands anywhere among the twos. -/
theorem arrangements_three_mul_pow {n : ℕ} (several : 2 ≤ n) :
    arrangements (3 * 2 ^ (n - 1)) = n := by
  have three : factors 3 = Multiset.replicate 1 3 := factors_prime_pow Nat.prime_three 1
  have twos := factors_prime_pow Nat.prime_two (n - 1)
  have fresh : 3 ∉ Multiset.replicate (n - 1) 2 := by
    simp [Multiset.mem_replicate]
  rw [arrangements, factors_mul (by decide) (by positivity), three, twos,
    orderingCount_replicate_add fresh, orderingCount_replicate, Multiset.card_replicate,
    Nat.choose_one_right, Nat.mul_one]
  omega

/-! ## The exceptions -/

/-- The exponents of the first four primes in a distance. -/
structure Exponents where
  two : ℕ
  three : ℕ
  five : ℕ
  seven : ℕ

namespace Exponents
variable (e : Exponents)

def distance : ℕ := 2 ^ e.two * (3 ^ e.three * (5 ^ e.five * 7 ^ e.seven))

def count : ℕ :=
  (e.two + (e.three + (e.five + e.seven))).choose e.two *
    ((e.three + (e.five + e.seven)).choose e.three * (e.five + e.seven).choose e.five)

theorem factors_distance :
    factors e.distance = Multiset.replicate e.two 2 + (Multiset.replicate e.three 3 +
      (Multiset.replicate e.five 5 + Multiset.replicate e.seven 7)) := by
  have two := factors_prime_pow Nat.prime_two e.two
  have three := factors_prime_pow Nat.prime_three e.three
  have five := factors_prime_pow Nat.prime_five e.five
  have seven := factors_prime_pow (by norm_num : Nat.Prime 7) e.seven
  rw [distance, factors_mul (by positivity) (by positivity),
    factors_mul (by positivity) (by positivity), factors_mul (by positivity) (by positivity),
    two, three, five, seven]

theorem arrangements_distance : arrangements e.distance = e.count := by
  rw [arrangements, factors_distance,
    orderingCount_replicate_add (by simp [Multiset.mem_replicate]),
    orderingCount_replicate_add (by simp [Multiset.mem_replicate]),
    orderingCount_replicate_add (by simp [Multiset.mem_replicate]), orderingCount_replicate]
  simp [count]

end Exponents

/-- Smaller distances, one for each exception. -/
def shortcuts : List Exponents :=
  [⟨1, 1, 1, 0⟩, ⟨3, 2, 0, 0⟩, ⟨2, 1, 1, 0⟩, ⟨4, 2, 0, 0⟩, ⟨3, 1, 1, 0⟩, ⟨5, 2, 0, 0⟩,
    ⟨1, 1, 1, 1⟩, ⟨6, 2, 0, 0⟩, ⟨2, 2, 1, 0⟩, ⟨4, 3, 0, 0⟩, ⟨7, 2, 0, 0⟩, ⟨5, 1, 1, 0⟩,
    ⟨8, 2, 0, 0⟩, ⟨9, 2, 0, 0⟩, ⟨5, 3, 0, 0⟩, ⟨3, 2, 1, 0⟩]

theorem exists_smaller {n : ℕ} (exception : n ∈ exceptions) :
    ∃ k, 1 < k ∧ arrangements k = n ∧ k < 3 * 2 ^ (n - 1) := by
  have table : ∀ n ∈ exceptions, ∃ e ∈ shortcuts,
      1 < e.distance ∧ e.count = n ∧ e.distance < 3 * 2 ^ (n - 1) := by decide
  obtain ⟨e, -, several, count, smaller⟩ := table n exception
  exact ⟨e.distance, several, e.arrangements_distance.trans count, smaller⟩

/-- The distance of one 3 and otherwise twos is the smallest unless `n` is an exception. -/
theorem isSmallest_three_mul_pow_iff {n : ℕ} (several : 2 ≤ n) (small : n < 64) :
    IsSmallest n (3 * 2 ^ (n - 1)) ↔ n ∉ exceptions := by
  constructor
  · intro least exception
    obtain ⟨k, hk, count, smaller⟩ := exists_smaller exception
    exact absurd (least.2 ⟨hk, count⟩) (Nat.not_le.mpr smaller)
  · intro usual
    refine ⟨⟨?_, arrangements_three_mul_pow several⟩, ?_⟩
    · have pos := Nat.two_pow_pos (n - 1)
      omega
    · rintro k ⟨-, count⟩
      exact three_mul_pow_le_of_arrangements several small usual count

end SamplePrograms.Improbability
