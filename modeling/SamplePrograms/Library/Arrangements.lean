import Mathlib

/-!
# Arrangements of a multiset

The distinct orderings of a multiset are counted by its multinomial coefficient.
A multiset of `s` elements has one ordering, or `s` orderings, or at least as many
as there are pairs of its elements.
-/

namespace SamplePrograms.Arrangements
open scoped Nat

variable {α : Type*} [DecidableEq α]

/-- The distinct orderings of a multiset. -/
def orderings (m : Multiset α) : Finset (List α) := m.lists.toFinset

/-- The number of distinct orderings. -/
def orderingCount (m : Multiset α) : ℕ := (orderings m).card

theorem mem_orderings {m : Multiset α} {l : List α} : l ∈ orderings m ↔ (l : Multiset α) = m := by
  rw [orderings, Multiset.mem_toFinset, Multiset.mem_lists_iff, eq_comm]
  rfl

@[simp] theorem orderingCount_zero : orderingCount (0 : Multiset α) = 1 := by
  have nil : orderings (0 : Multiset α) = {[]} := by
    ext l
    rw [mem_orderings, Multiset.coe_eq_zero, Finset.mem_singleton]
  rw [orderingCount, nil, Finset.card_singleton]

/-- An ordering begins with an element and goes on with an ordering of the others. -/
theorem orderings_eq_biUnion {m : Multiset α} (some : m ≠ 0) :
    orderings m = m.toFinset.biUnion fun a => (orderings (m.erase a)).image (List.cons a) := by
  ext l
  simp only [Finset.mem_biUnion, Multiset.mem_toFinset, Finset.mem_image, mem_orderings]
  constructor
  · rintro rfl
    cases l with
    | nil => exact absurd rfl some
    | cons a rest => exact ⟨a, by simp, rest, by simp, rfl⟩
  · rintro ⟨a, ha, rest, hrest, rfl⟩
    rw [← Multiset.cons_coe, hrest, Multiset.cons_erase ha]

theorem orderingCount_eq_sum {m : Multiset α} (some : m ≠ 0) :
    orderingCount m = ∑ a ∈ m.toFinset, orderingCount (m.erase a) := by
  rw [orderingCount, orderings_eq_biUnion some, Finset.card_biUnion]
  · apply Finset.sum_congr rfl
    intro a _
    exact Finset.card_image_of_injective _ (List.cons_injective)
  · intro a _ b _ hab
    rw [Function.onFun, Finset.disjoint_left]
    intro l ha hb
    obtain ⟨_, -, rfl⟩ := Finset.mem_image.mp ha
    obtain ⟨_, -, same⟩ := Finset.mem_image.mp hb
    exact hab (List.cons.inj same).1.symm

@[simp] theorem orderingCount_singleton (a : α) : orderingCount ({a} : Multiset α) = 1 := by
  rw [orderingCount_eq_sum (Multiset.singleton_ne_zero a)]
  simp

theorem orderingCount_pos (m : Multiset α) : 0 < orderingCount m :=
  Finset.card_pos.mpr ⟨m.toList, mem_orderings.mpr (Multiset.coe_toList m)⟩

/-- One copy less of an element divides the factorials by the number of its copies. -/
theorem prod_factorial_count {m : Multiset α} {a : α} (ha : a ∈ m) {s : Finset α}
    (sub : m.toFinset ⊆ s) :
    ∏ b ∈ s, (m.count b)! = m.count a * ∏ b ∈ s, ((m.erase a).count b)! := by
  have mem : a ∈ s := sub (Multiset.mem_toFinset.mpr ha)
  have others : ∀ b ∈ s.erase a, (m.count b)! = ((m.erase a).count b)! := by
    intro b hb
    rw [Multiset.count_erase_of_ne (Finset.ne_of_mem_erase hb)]
  have pos : m.count a ≠ 0 := Multiset.count_ne_zero.mpr ha
  rw [← Finset.mul_prod_erase s _ mem, ← Finset.mul_prod_erase s _ mem,
    Finset.prod_congr rfl others, Multiset.count_erase_self, ← mul_assoc,
    Nat.mul_factorial_pred pos]

/-- The orderings, times the permutations of equal elements, are all permutations. -/
theorem orderingCount_mul_prod (m : Multiset α) {s : Finset α} (sub : m.toFinset ⊆ s) :
    orderingCount m * ∏ a ∈ s, (m.count a)! = (m.card)! := by
  induction hn : m.card generalizing m with
  | zero =>
      rw [Multiset.card_eq_zero] at hn
      subst hn
      simp
  | succ n ih =>
      have some : m ≠ 0 := by
        rintro rfl
        simp at hn
      have each : ∀ a ∈ m.toFinset, orderingCount (m.erase a) * ∏ b ∈ s, (m.count b)! =
          m.count a * n ! := by
        intro a ha
        have mem := Multiset.mem_toFinset.mp ha
        have less : (m.erase a).card = n := by
          rw [Multiset.card_erase_of_mem mem, hn, Nat.pred_succ]
        have sub' : (m.erase a).toFinset ⊆ s :=
          (Multiset.toFinset_subset.mpr (Multiset.erase_subset a m)).trans sub
        rw [prod_factorial_count mem sub, mul_left_comm, ih _ sub' less]
      rw [orderingCount_eq_sum some, Finset.sum_mul, Finset.sum_congr rfl each, ← Finset.sum_mul,
        Multiset.toFinset_sum_count_eq, hn, Nat.factorial_succ]

/-- The number of orderings is the multinomial coefficient of the multiplicities. -/
theorem orderingCount_eq_countPerms (m : Multiset α) : orderingCount m = m.countPerms := by
  have counted := orderingCount_mul_prod m (Finset.Subset.refl m.toFinset)
  have spec := Nat.multinomial_spec m.toFinset m.count
  rw [Multiset.toFinset_sum_count_eq] at spec
  have coefficient : m.countPerms = Nat.multinomial m.toFinset m.count := by
    rw [Multiset.countPerms, Finsupp.multinomial_eq, Multiset.toFinsupp_support]
    exact Nat.multinomial_congr fun a _ => Multiset.toFinsupp_apply m a
  have pos : 0 < ∏ a ∈ m.toFinset, (m.count a)! := Finset.prod_pos fun a _ => Nat.factorial_pos _
  rw [coefficient]
  apply Nat.eq_of_mul_eq_mul_right pos
  rw [counted, mul_comm, spec]

/-- The places of one element are chosen first, then the other elements are ordered. -/
theorem orderingCount_filter_ne (a : α) (m : Multiset α) :
    orderingCount m = m.card.choose (m.count a) * orderingCount (m.filter (a ≠ ·)) := by
  rw [orderingCount_eq_countPerms, orderingCount_eq_countPerms, Multiset.countPerms_filter_ne a]

theorem card_filter_ne (a : α) (m : Multiset α) :
    (m.filter (a ≠ ·)).card + m.count a = m.card := by
  have split := Multiset.card_eq_countP_add_countP (a = ·) m
  rw [split, Multiset.count, Multiset.countP_eq_card_filter (fun b => ¬a = b), add_comm]

/-- Copies of a new element are put at any places among the others. -/
theorem orderingCount_replicate_add {m : Multiset α} {a : α} (fresh : a ∉ m) (c : ℕ) :
    orderingCount (Multiset.replicate c a + m) = (c + m.card).choose c * orderingCount m := by
  have copies : (Multiset.replicate c a + m).count a = c := by
    rw [Multiset.count_add, Multiset.count_replicate_self, Multiset.count_eq_zero.mpr fresh,
      Nat.add_zero]
  have others : (Multiset.replicate c a + m).filter (a ≠ ·) = m := by
    rw [Multiset.filter_add, Multiset.filter_eq_nil.mpr, zero_add, Multiset.filter_eq_self]
    · rintro b hb rfl
      exact fresh hb
    · intro b hb
      exact not_not.mpr (Multiset.eq_of_mem_replicate hb).symm
  rw [orderingCount_filter_ne a, copies, others, Multiset.card_add, Multiset.card_replicate]

theorem orderingCount_replicate (c : ℕ) (a : α) :
    orderingCount (Multiset.replicate c a) = 1 := by
  simpa using orderingCount_replicate_add (Multiset.notMem_zero a) c

/-! ## How many orderings there are at least -/

theorem choose_le_choose_of_le_half {n r r' : ℕ} (le : r ≤ r') (half : r' ≤ n / 2) :
    n.choose r ≤ n.choose r' := by
  induction r', le using Nat.le_induction with
  | base => exact le_rfl
  | succ k _ ih => exact (ih (by omega)).trans (Nat.choose_le_succ_of_lt_half_left (by omega))

/-- There are as many choices of `c` out of `c + t` as there are pairs. -/
theorem choose_two_le_choose {c t : ℕ} (hc : 2 ≤ c) (ht : 2 ≤ t) :
    (c + t).choose 2 ≤ (c + t).choose c := by
  rcases le_total c t with le | le
  · exact choose_le_choose_of_le_half hc (by omega)
  · rw [Nat.choose_symm_add]
    exact choose_le_choose_of_le_half ht (by omega)

theorem choose_two_le_mul {s q : ℕ} (hs : 3 ≤ s) (hq : (s - 1).choose 2 ≤ q) :
    s.choose 2 ≤ s * q := by
  obtain ⟨t, rfl⟩ := Nat.exists_eq_add_of_le' (by omega : 1 ≤ s)
  rw [Nat.add_sub_cancel] at hq
  have pairs : 1 ≤ t.choose 2 := Nat.choose_pos (by omega)
  calc (t + 1).choose 2
      = t + t.choose 2 := by rw [Nat.choose_succ_succ' t 1, Nat.choose_one_right]
    _ ≤ t * t.choose 2 + t.choose 2 := Nat.add_le_add_right (Nat.le_mul_of_pos_right t pairs) _
    _ = (t + 1) * t.choose 2 := (Nat.succ_mul _ _).symm
    _ ≤ (t + 1) * q := Nat.mul_le_mul_left _ hq

/-- A multiset of `s` elements has one ordering, or `s` orderings, or at least one for each
pair of its elements. -/
theorem orderingCount_cases (m : Multiset α) :
    orderingCount m = 1 ∨ orderingCount m = m.card ∨ m.card.choose 2 ≤ orderingCount m := by
  induction hn : m.card using Nat.strong_induction_on generalizing m with
  | _ n ih =>
  rcases Multiset.empty_or_exists_mem m with rfl | ⟨a, ha⟩
  · simp
  have pos : 0 < m.count a := Multiset.count_pos.mpr ha
  have total := card_filter_ne a m
  have count := orderingCount_filter_ne a m
  generalize m.filter (a ≠ ·) = rest at total count
  generalize m.count a = c at pos total count
  have others := ih rest.card (by omega) rest rfl
  rw [hn] at total count
  subst total
  rw [count]
  have some := orderingCount_pos rest
  rcases Nat.lt_trichotomy rest.card 1 with none | one | more
  · -- every element is a copy of `a`
    obtain rfl : rest = 0 := Multiset.card_eq_zero.mp (by omega)
    simp
  · -- one element differs from the copies of `a`
    obtain ⟨b, rfl⟩ := Multiset.card_eq_one.mp one
    simp [add_comm]
  right
  rcases Nat.lt_or_ge 1 c with several | single
  · -- the places of the copies of `a` alone are as many as the pairs
    right
    calc (rest.card + c).choose 2
        ≤ (rest.card + c).choose c := by
          rw [add_comm]
          exact choose_two_le_choose several more
      _ ≤ (rest.card + c).choose c * orderingCount rest := Nat.le_mul_of_pos_right _ some
  · -- the one `a` stands anywhere in an ordering of the others
    obtain rfl : c = 1 := by omega
    rw [Nat.choose_one_right]
    rcases others with one | all | pairs
    · left
      rw [one, mul_one]
    · right
      rw [all, Nat.choose_two_right, Nat.add_sub_cancel]
      exact Nat.div_le_self _ 2
    · right
      exact choose_two_le_mul (by omega) (by rwa [Nat.add_sub_cancel])

end SamplePrograms.Arrangements
