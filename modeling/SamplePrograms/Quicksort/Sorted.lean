import SamplePrograms.Quicksort.Partition

/-!
# The range is sorted

The two calls of `quicksort` sort the sides of the pivot, and neither moves an element of the
other side. What a partition says of the sides still holds after the calls, as they only
rearrange them.
-/

namespace SamplePrograms.Quicksort
open BoundedArray Rearrange

variable {n : ℕ}

/-- The array after a call: only the range was accessed and rearranged, and it is in order. -/
structure SortedRange (f l : ℤ) (c c' : Cells ℤ n) : Prop where
  within : AccessesWithin f l c c'
  moved : Rearranges (segment n f l) c.value c'.value
  sorted : MonotoneOn c'.value (segment n f l)

/-- A range of at most one element is in order. -/
theorem SortedRange.refl {f l : ℤ} (short : l ≤ f) (c : Cells ℤ n) : SortedRange f l c c where
  within := .refl f l c
  moved := .refl _ _
  sorted := by
    rintro i ⟨hi, hi'⟩ j ⟨hj, hj'⟩ -
    have same : i = j := by omega
    rw [same]

section Sides
variable {f l p : Fin n}

theorem segment_below (last : p ≤ l) : {i ∈ segment n f l | i < p} = segment n f (p - 1) := by
  ext i
  constructor
  · rintro ⟨⟨low, -⟩, before⟩
    exact ⟨low, by omega⟩
  · rintro ⟨low, high⟩
    exact ⟨⟨low, by omega⟩, by omega⟩

theorem segment_above (first : f ≤ p) : {i ∈ segment n f l | p < i} = segment n (p + 1) l := by
  ext i
  constructor
  · rintro ⟨⟨-, high⟩, behind⟩
    exact ⟨by omega, high⟩
  · rintro ⟨low, high⟩
    exact ⟨⟨by omega, high⟩, by omega⟩

/-- A partition and the calls for its two sides sort the range. -/
theorem SortedRange.of_sides {c c₁ c₂ c₃ : Cells ℤ n} (within : AccessesWithin f l c c₁)
    (part : Partitioned f l p c.value c₁.value) (left : SortedRange f (p - 1) c₁ c₂)
    (right : SortedRange (p + 1) l c₂ c₃) : SortedRange f l c c₃ := by
  have first := part.first_le
  have last := part.le_last
  have left_sub : segment n f (p - 1) ⊆ segment n f l := segment_below last ▸ Set.sep_subset _ _
  have right_sub : segment n (p + 1) l ⊆ segment n f l := segment_above first ▸ Set.sep_subset _ _
  -- each call leaves the pivot and the other side alone
  have right_kept : ∀ i, i ≤ p → c₃.value i = c₂.value i :=
    fun i hi => right.moved.eq_of_notMem fun h => absurd h.1 (by omega)
  have left_kept : ∀ i, p ≤ i → c₂.value i = c₁.value i :=
    fun i hi => left.moved.eq_of_notMem fun h => absurd h.2 (by omega)
  have pivot : c₃.value p = c₁.value p :=
    calc c₃.value p = c₂.value p := right_kept p le_rfl
      _ = c₁.value p := left_kept p le_rfl
  have below : ∀ i ∈ segment n f (p - 1), c₂.value i ≤ c₁.value p := by
    apply left.moved.forall_mem (· ≤ c₁.value p)
    rintro i ⟨low, high⟩
    exact part.below i (by omega) (by omega)
  have above : ∀ i ∈ segment n (p + 1) l, c₁.value p ≤ c₃.value i := by
    apply right.moved.forall_mem (c₁.value p ≤ ·)
    rintro i ⟨low, high⟩
    rw [left_kept i (by omega)]
    exact (part.above i (by omega) (by omega)).le
  refine ⟨?_, ?_, ?_⟩
  · exact within.trans ((left.within.mono le_rfl (by omega)).trans
      (right.within.mono (by omega) le_rfl))
  · exact part.moved.trans ((left.moved.mono left_sub).trans (right.moved.mono right_sub))
  · apply monotoneOn_of_sides (p := p)
    · rw [segment_below last]
      rintro i ⟨low, high⟩ j ⟨low', high'⟩ le
      rw [right_kept i (by omega), right_kept j (by omega)]
      exact left.sorted ⟨low, high⟩ ⟨low', high'⟩ le
    · rw [segment_above first]
      exact right.sorted
    · intro i hi before
      rw [pivot, right_kept i before.le]
      exact below i (segment_below last ▸ ⟨hi, before⟩)
    · intro i hi behind
      rw [pivot]
      exact above i (segment_above first ▸ ⟨hi, behind⟩)

end Sides

/-- A call with as much fuel as there are elements, and one more. -/
theorem quicksort_ok (k : ℕ) :
    ∀ (first last : ℤ) (c : Cells ℤ n), (first ≤ last → 0 ≤ first ∧ last < n) →
      last + 1 ≤ first + k →
      ∃ c', (∀ fuel, k < fuel → quicksort fuel first last c = pure ((), c')) ∧
        SortedRange first last c c' := by
  induction k with
  | zero =>
      intro first last c inside short
      refine ⟨c, fun fuel enough => ?_, .refl (by omega) c⟩
      obtain ⟨fuel, rfl⟩ := Nat.exists_eq_add_one_of_ne_zero enough.ne'
      rw [quicksort, if_neg (by omega)]
      rfl
  | succ k ih =>
      intro first last c inside short
      by_cases order : first < last
      · obtain ⟨low, high⟩ := inside order.le
        obtain ⟨f, rfl⟩ : ∃ f : Fin n, (f : ℤ) = first := ⟨⟨first.toNat, by omega⟩, by simp [low]⟩
        obtain ⟨l, rfl⟩ : ∃ l : Fin n, (l : ℤ) = last :=
          ⟨⟨last.toNat, by omega⟩, by simp only; omega⟩
        obtain ⟨p, c₁, run₁, within, part⟩ := partition_ok c (f := f) (l := l) (by omega)
        have hp := part.first_le
        have hp' := part.le_last
        obtain ⟨c₂, run₂, left⟩ := ih f (p - 1) c₁ (by omega) (by omega)
        obtain ⟨c₃, run₃, right⟩ := ih (p + 1) l c₂ (by omega) (by omega)
        refine ⟨c₃, fun fuel enough => ?_, .of_sides within part left right⟩
        obtain ⟨fuel, rfl⟩ := Nat.exists_eq_add_one_of_ne_zero (by omega : fuel ≠ 0)
        rw [quicksort, if_pos order, bind_ok (run₁ fuel (by omega)),
          bind_ok (run₂ fuel (by omega)), run₃ fuel (by omega)]
      · refine ⟨c, fun fuel enough => ?_, .refl (by omega) c⟩
        obtain ⟨fuel, rfl⟩ := Nat.exists_eq_add_one_of_ne_zero (by omega : fuel ≠ 0)
        rw [quicksort, if_neg order]
        rfl

/-- The call ends, accesses only the range, and leaves it in order, while the rest of the array
is unchanged. -/
theorem quicksort_sorts (c : Cells ℤ n) (first last : ℤ)
    (inside : first ≤ last → 0 ≤ first ∧ last < n) :
    ∃ c', (∀ fuel, (last + 1 - first).toNat < fuel →
        quicksort fuel first last c = pure ((), c')) ∧
      SortedRange first last c c' :=
  quicksort_ok (last + 1 - first).toNat first last c inside (by omega)

/-- The array that `main` sorts. -/
def input : Fin 9 → ℤ := ![40, 20, 10, 80, 60, 50, 7, 30, 100]

theorem quicksort_input : ∃ c', (∀ fuel, 9 < fuel → quicksort fuel 0 8 ⟨input, []⟩ = pure ((), c')) ∧
    SortedRange 0 8 ⟨input, []⟩ c' := quicksort_sorts ⟨input, []⟩ 0 8 (by decide)

end SamplePrograms.Quicksort
