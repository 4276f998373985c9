import SamplePrograms.Quicksort.Model
import SamplePrograms.Library.Rearrange

/-!
# The partition of a range

Whenever the loop reaches its label, the elements up to `up` are at most the pivot, and the
elements behind `down` are greater. The first element is the pivot itself, so the scan
downwards ends at an element that is at most the pivot. The scan upwards passes at least one
element in each iteration.
-/

namespace SamplePrograms.Quicksort
open BoundedArray Rearrange

variable {n : ℕ}

/-! ## The scans -/

/-- The scan upwards stops at the last index, or before it at an element greater than the
pivot. -/
theorem scanUp_ok (piv : ℤ) {l : Fin n} (k : ℕ) :
    ∀ (up : Fin n) (c : Cells ℤ n), (up : ℕ) + k = l →
      ∃ up' : Fin n, ∃ c', scanUp piv l up c = pure ((up' : ℤ), c') ∧ c'.value = c.value ∧
        AccessesWithin up l c c' ∧ up ≤ up' ∧ up' ≤ l ∧
        (∀ i, up ≤ i → i < up' → c.value i ≤ piv) ∧ (up' < l → piv < c.value up') := by
  induction k with
  | zero =>
      intro up c last
      have hul : up = l := Fin.ext last
      subst hul
      refine ⟨up, c.record up, ?_, rfl, .record le_rfl le_rfl c, le_rfl, le_rfl, ?_, ?_⟩
      · rw [scanUp, bind_ok (read_ok c up), dif_neg (by omega)]
        rfl
      · intro i low high
        exact absurd high (not_lt.mpr low)
      · intro before
        exact absurd before (lt_irrefl up)
  | succ k ih =>
      intro up c rest
      have before : up < l := Fin.lt_def.mpr (by omega)
      by_cases small : c.value up ≤ piv
      · obtain ⟨next, hnext⟩ : ∃ next : Fin n, (next : ℕ) = up + 1 :=
          ⟨⟨up + 1, by omega⟩, rfl⟩
        obtain ⟨up', c', run, same, within, low, high, passed, stop⟩ :=
          ih next (c.record up) (by omega)
        have value : (c.record up).value = c.value := rfl
        rw [value] at same passed stop
        have step : (up : ℤ) + 1 = next := by omega
        have first : AccessesWithin up l c (c.record up) := .record le_rfl (by omega) c
        refine ⟨up', c', ?_, same, first.trans (within.mono (by omega) le_rfl), ?_, high, ?_, stop⟩
        · rw [scanUp, bind_ok (read_ok c up), dif_pos ⟨small, by omega⟩, step, run]
        · omega
        · intro i hi hi'
          rcases hi.eq_or_lt with rfl | hlt
          · exact small
          · exact passed i (by omega) hi'
      · refine ⟨up, c.record up, ?_, rfl, .record le_rfl (by omega) c, le_rfl, before.le, ?_, ?_⟩
        · rw [scanUp, bind_ok (read_ok c up), dif_neg fun h => small h.1]
          rfl
        · intro i low high
          exact absurd high (not_lt.mpr low)
        · exact fun _ => not_le.mp small

/-- The scan downwards stops at the first index, or behind it at an element that is at most
the pivot. -/
theorem scanDown_ok (piv : ℤ) {f : Fin n} (k : ℕ) :
    ∀ (down : Fin n) (c : Cells ℤ n), (f : ℕ) + k = down →
      ∃ down' : Fin n, ∃ c', scanDown piv f down c = pure ((down' : ℤ), c') ∧ c'.value = c.value ∧
        AccessesWithin f down c c' ∧ f ≤ down' ∧ down' ≤ down ∧
        (∀ i, down' < i → i ≤ down → piv < c.value i) ∧ (f < down' → c.value down' ≤ piv) := by
  induction k with
  | zero =>
      intro down c first
      have hfd : f = down := Fin.ext first
      subst hfd
      refine ⟨f, c.record f, ?_, rfl, .record le_rfl le_rfl c, le_rfl, le_rfl, ?_, ?_⟩
      · rw [scanDown, bind_ok (read_ok c f), dif_neg (by omega)]
        rfl
      · intro i low high
        exact absurd low (not_lt.mpr high)
      · intro behind
        exact absurd behind (lt_irrefl f)
  | succ k ih =>
      intro down c rest
      have behind : f < down := Fin.lt_def.mpr (by omega)
      by_cases great : piv < c.value down
      · obtain ⟨next, hnext⟩ : ∃ next : Fin n, (next : ℕ) + 1 = down :=
          ⟨⟨down - 1, by omega⟩, by simp only; omega⟩
        obtain ⟨down', c', run, same, within, low, high, passed, stop⟩ :=
          ih next (c.record down) (by omega)
        have value : (c.record down).value = c.value := rfl
        rw [value] at same passed stop
        have step : (down : ℤ) - 1 = next := by omega
        have first : AccessesWithin f down c (c.record down) := .record (by omega) le_rfl c
        refine ⟨down', c', ?_, same, first.trans (within.mono le_rfl (by omega)), low, ?_, ?_, stop⟩
        · rw [scanDown, bind_ok (read_ok c down), dif_pos ⟨great, by omega⟩, step, run]
        · omega
        · intro i hi hi'
          rcases hi'.eq_or_lt with rfl | hlt
          · exact great
          · exact passed i hi (by omega)
      · refine ⟨down, c.record down, ?_, rfl, .record (by omega) le_rfl c, behind.le, le_rfl, ?_,
          ?_⟩
        · rw [scanDown, bind_ok (read_ok c down), dif_neg fun h => great h.1]
          rfl
        · intro i low high
          exact absurd low (not_lt.mpr high)
        · exact fun _ => not_lt.mp great

/-! ## The exchange of two elements -/

theorem exchange_ok (c : Cells ℤ n) (f l : ℤ) (up down : Fin n) (low_up : f ≤ up)
    (high_up : up ≤ l) (low_down : f ≤ down) (high_down : down ≤ l) :
    ∃ c', exchange up down c = pure ((), c') ∧ c'.value = c.value ∘ Equiv.swap down up ∧
      AccessesWithin f l c c' := by
  let c₁ := c.record up
  let c₂ := c₁.record down
  let c₃ := (c₂.record up).set up (c.value down)
  have first : AccessesWithin f l c c₁ := .record low_up high_up c
  have second : AccessesWithin f l c₁ c₂ := .record low_down high_down c₁
  have third : AccessesWithin f l c₂ c₃ := .set low_up high_up c₂ (c.value down)
  refine ⟨(c₃.record down).set down (c.value up), ?_, ?_,
    first.trans (second.trans (third.trans (.set low_down high_down c₃ (c.value up))))⟩
  · rw [exchange, bind_ok (read_ok c up), bind_ok (read_ok c₁ down)]
    exact (bind_ok (write_ok c₂ up (c.value down))).trans (write_ok c₃ down (c.value up))
  · rw [Equiv.comp_swap_eq_update]
    rfl

/-! ## The loop -/

/-- The indices from one bound to another. -/
def segment (n : ℕ) (f l : ℤ) : Set (Fin n) := {i | f ≤ i ∧ i ≤ l}

/-- What the loop knows of the two sides. -/
structure Sides (piv : ℤ) (f l up down : Fin n) (y : Fin n → ℤ) : Prop where
  low : ∀ i, f ≤ i → i ≤ up → y i ≤ piv
  high : ∀ i, down < i → i ≤ l → piv < y i

theorem Sides.exchange {piv : ℤ} {f l up down : Fin n} {y : Fin n → ℤ} (apart : up < down)
    (low : ∀ i, f ≤ i → i < up → y i ≤ piv) (small : y down ≤ piv)
    (high : ∀ i, down < i → i ≤ l → piv < y i) :
    Sides piv f l up down (y ∘ Equiv.swap down up) where
  low := by
    intro i first hi
    rcases hi.eq_or_lt with rfl | hi
    · rw [Function.comp_apply, Equiv.swap_apply_right]
      exact small
    · rw [Function.comp_apply, Equiv.swap_apply_of_ne_of_ne (hi.trans apart).ne hi.ne]
      exact low i first hi
  high := by
    intro i hi last
    rw [Function.comp_apply, Equiv.swap_apply_of_ne_of_ne hi.ne' (apart.trans hi).ne']
    exact high i hi last

/-- The scans of an iteration. The first element ends the scan downwards. -/
theorem partLS_scans {piv : ℤ} {f l up down : Fin n} {c : Cells ℤ n} (low : f ≤ up)
    (apart : up < down) (high : down ≤ l) (sides : Sides piv f l up down c.value) :
    ∃ up' down' : Fin n, ∃ c', (∀ fuel, partLS piv f l (fuel + 1) up down c =
        (if (down' : ℤ) > up' then do
          exchange up' down'
          partLS piv f l fuel up' down'
        else pure (down' : ℤ)) c') ∧
      c'.value = c.value ∧ AccessesWithin f l c c' ∧ up < up' ∧ up' ≤ l ∧ f ≤ down' ∧
      down' ≤ l ∧ (∀ i, f ≤ i → i < up' → c.value i ≤ piv) ∧ c.value down' ≤ piv ∧
      ∀ i, down' < i → i ≤ l → piv < c.value i := by
  obtain ⟨up', c₁, run₁, same₁, within₁, low₁, high₁, passed₁, stop₁⟩ :=
    scanUp_ok piv (l := l) (l - up) up c (by omega)
  obtain ⟨down', c₂, run₂, same₂, within₂, low₂, high₂, passed₂, stop₂⟩ :=
    scanDown_ok piv (f := f) (down - f) down c₁ (by omega)
  rw [same₁] at same₂ passed₂ stop₂
  have advanced : up < up' := by
    apply low₁.lt_of_ne
    rintro rfl
    exact absurd (sides.low up low le_rfl) (not_le.mpr (stop₁ (apart.trans_le high)))
  refine ⟨up', down', c₂, fun fuel => ?_, same₂, ?_, advanced, high₁, low₂, high₂.trans high, ?_,
    ?_, ?_⟩
  · rw [partLS, bind_ok run₁, bind_ok run₂]
  · exact (within₁.mono (by omega) le_rfl).trans (within₂.mono le_rfl (by omega))
  · intro i hi hi'
    rcases le_or_gt i up with passed | passed
    · exact sides.low i hi passed
    · exact passed₁ i passed.le hi'
  · rcases low₂.eq_or_lt with rfl | behind
    · exact sides.low f le_rfl low
    · exact stop₂ behind
  · intro i hi hi'
    rcases le_or_gt i down with passed | passed
    · exact passed₂ i hi passed
    · exact sides.high i passed hi'

/-- The loop ends with the last element of the lower side. -/
theorem partLS_ok {piv : ℤ} {f l : Fin n} (k : ℕ) :
    ∀ (up down : Fin n) (c : Cells ℤ n), l ≤ up + k → f ≤ up → up < down → down ≤ l →
      Sides piv f l up down c.value →
      ∃ p : Fin n, ∃ c', (∀ fuel, k ≤ fuel → partLS piv f l fuel up down c = pure ((p : ℤ), c')) ∧
        AccessesWithin f l c c' ∧ Rearranges (segment n (f + 1) l) c.value c'.value ∧
        f ≤ p ∧ p ≤ l ∧ Sides piv f l p p c'.value := by
  induction k with
  | zero =>
      intro up down c last low apart high sides
      omega
  | succ k ih =>
      intro up down c last low apart high sides
      obtain ⟨up', down', c₁, run, same, within, advanced, up_le, le_down, down_le, passed, small,
        great⟩ := partLS_scans low apart high sides
      by_cases more : up' < down'
      · obtain ⟨c₂, exchanged, swapped, within₂⟩ :=
          exchange_ok c₁ f l up' down' (by omega) (by omega) (by omega) (by omega)
        rw [same] at swapped
        have sides₂ : Sides piv f l up' down' c₂.value :=
          swapped ▸ .exchange more passed small great
        obtain ⟨p, c₃, rest, within₃, moved, hp, hp', sides₃⟩ :=
          ih up' down' c₂ (by omega) (by omega) more down_le sides₂
        refine ⟨p, c₃, ?_, within.trans (within₂.trans within₃), ?_, hp, hp', sides₃⟩
        · intro fuel enough
          obtain ⟨fuel, rfl⟩ := Nat.exists_eq_add_one_of_ne_zero (by omega : fuel ≠ 0)
          rw [run, if_pos (by omega), bind_ok exchanged, rest fuel (by omega)]
        · have inside : ∀ i : Fin n, f < i → i ≤ l → i ∈ segment n (f + 1) l :=
            fun i first last => ⟨by omega, by omega⟩
          have swap : Rearranges (segment n (f + 1) l) c.value c₂.value :=
            swapped ▸ .swap (inside down' (by omega) down_le) (inside up' (by omega) up_le) c.value
          exact swap.trans moved
      · refine ⟨down', c₁, ?_, within, same ▸ .refl _ _, le_down, down_le, ?_⟩
        · intro fuel enough
          obtain ⟨fuel, rfl⟩ := Nat.exists_eq_add_one_of_ne_zero (by omega : fuel ≠ 0)
          rw [run, if_neg (by omega)]
          rfl
        · rw [same]
          refine ⟨fun i first hi => ?_, great⟩
          rcases hi.eq_or_lt with rfl | hi
          · exact small
          · exact passed i first (hi.trans_le (not_lt.mp more))

/-! ## The function -/

/-- The pivot stands between the elements that are at most the pivot and those that are
greater. -/
structure Partitioned (f l p : Fin n) (x y : Fin n → ℤ) : Prop where
  first_le : f ≤ p
  le_last : p ≤ l
  moved : Rearranges (segment n f l) x y
  pivot : y p = x f
  below : ∀ i, f ≤ i → i < p → y i ≤ y p
  above : ∀ i, p < i → i ≤ l → y p < y i

/-- The last statements of the function put the pivot between the sides. -/
theorem Sides.partitioned {f l p : Fin n} {x y : Fin n → ℤ} (sides : Sides (x f) f l p p y)
    (moved : Rearranges (segment n (f + 1) l) x y) (first : f ≤ p) (last : p ≤ l) :
    Partitioned f l p x (y ∘ Equiv.swap f p) := by
  have stays : y f = x f := moved.eq_of_notMem fun h => absurd h.1 (by omega)
  have pivot : (y ∘ Equiv.swap f p) p = x f := by
    rw [Function.comp_apply, Equiv.swap_apply_right, stays]
  have wider : segment n (f + 1) l ⊆ segment n f l := by
    rintro i ⟨low, high⟩
    exact ⟨by omega, high⟩
  have first_in : f ∈ segment n f l := ⟨le_rfl, by omega⟩
  have pivot_in : p ∈ segment n f l := ⟨by omega, by omega⟩
  refine ⟨first, last, (moved.mono wider).trans (.swap first_in pivot_in y), pivot, ?_, ?_⟩
  · intro i hf hi
    rw [pivot, Function.comp_apply]
    rcases hf.eq_or_lt with rfl | hf
    · rw [Equiv.swap_apply_left]
      exact sides.low p first le_rfl
    · rw [Equiv.swap_apply_of_ne_of_ne hf.ne' hi.ne]
      exact sides.low i hf.le hi.le
  · intro i hi hl
    rw [pivot, Function.comp_apply,
      Equiv.swap_apply_of_ne_of_ne (first.trans_lt hi).ne' hi.ne']
    exact sides.high i hi hl

theorem partition_ok {f l : Fin n} (c : Cells ℤ n) (order : f < l) :
    ∃ p : Fin n, ∃ c', (∀ fuel, (l : ℕ) - f ≤ fuel → partition fuel f l c = pure ((p : ℤ), c')) ∧
      AccessesWithin f l c c' ∧ Partitioned f l p c.value c'.value := by
  let c₁ := c.record f
  have first : AccessesWithin f l c c₁ := .record le_rfl (by omega) c
  have sides : Sides (c.value f) f l f l c₁.value := by
    refine ⟨fun i hi hi' => ?_, fun i hi hi' => absurd hi' (not_le.mpr hi)⟩
    rw [le_antisymm hi' hi]
    exact le_rfl
  obtain ⟨p, c₂, run, within, moved, first_le, le_last, sides₂⟩ :=
    partLS_ok (l - f) f l c₁ (by omega) le_rfl order le_rfl sides
  let c₃ := c₂.record p
  let c₄ := (c₃.record f).set f (c₂.value p)
  have third : AccessesWithin f l c₂ c₃ := .record (by omega) (by omega) c₂
  have fourth : AccessesWithin f l c₃ c₄ := .set le_rfl (by omega) c₃ (c₂.value p)
  have fifth : AccessesWithin f l c₄ ((c₄.record p).set p (c.value f)) :=
    .set (by omega) (by omega) c₄ (c.value f)
  have stays : c₂.value f = c.value f := moved.eq_of_notMem fun h => absurd h.1 (by omega)
  have final : ((c₄.record p).set p (c.value f)).value = c₂.value ∘ Equiv.swap p f := by
    rw [Equiv.comp_swap_eq_update, stays]
    rfl
  refine ⟨p, (c₄.record p).set p (c.value f), fun fuel enough => ?_,
    first.trans (within.trans (third.trans (fourth.trans fifth))), ?_⟩
  · rw [partition, bind_ok (read_ok c f), bind_ok (run fuel enough), bind_ok (read_ok c₂ p)]
    exact (bind_ok (write_ok c₃ f (c₂.value p))).trans (bind_ok (write_ok c₄ p (c.value f)))
  · rw [final, Equiv.swap_comm]
    exact sides₂.partitioned moved first_le le_last

/-- The call ends for all bounds inside the array. It accesses only the range, and leaves the
old first element between the elements that are at most as great and the greater ones. -/
theorem partition_splits (c : Cells ℤ n) (f l : ℤ) (low : 0 ≤ f) (order : f < l) (high : l < n) :
    ∃ p : Fin n, ∃ c',
      (∀ fuel, (l - f).toNat ≤ fuel → partition fuel f l c = pure ((p : ℤ), c')) ∧
      AccessesWithin f l c c' ∧ Rearranges (segment n f l) c.value c'.value ∧
      p ∈ segment n f l ∧ (∀ i : Fin n, (i : ℤ) = f → c'.value p = c.value i) ∧
      (∀ i ∈ segment n f (p - 1), c'.value i ≤ c'.value p) ∧
      ∀ i ∈ segment n (p + 1) l, c'.value p < c'.value i := by
  obtain ⟨f, rfl⟩ : ∃ i : Fin n, (i : ℤ) = f := ⟨⟨f.toNat, by omega⟩, by simp [low]⟩
  obtain ⟨l, rfl⟩ : ∃ i : Fin n, (i : ℤ) = l := ⟨⟨l.toNat, by omega⟩, by simp only; omega⟩
  obtain ⟨p, c', run, within, part⟩ := partition_ok c (f := f) (l := l) (by omega)
  have first := part.first_le
  have last := part.le_last
  refine ⟨p, c', fun fuel enough => run fuel (by omega), within, part.moved,
    ⟨by omega, by omega⟩, ?_, ?_, ?_⟩
  · intro i hi
    have same : i = f := by omega
    rw [part.pivot, same]
  · rintro i ⟨above_first, below_pivot⟩
    exact part.below i (by omega) (by omega)
  · rintro i ⟨above_pivot, below_last⟩
    exact part.above i (by omega) (by omega)

/-- The range from the second to the last element, where the pivot has a duplicate. -/
theorem partition_splits_duplicate : ∃ p : Fin 5, ∃ c',
    (∀ fuel, 3 ≤ fuel → partition fuel 1 4 ⟨![9, 3, 5, 3, 1], []⟩ = pure ((p : ℤ), c')) ∧
    AccessesWithin 1 4 ⟨![9, 3, 5, 3, 1], []⟩ c' ∧
    Rearranges (segment 5 1 4) ![9, 3, 5, 3, 1] c'.value ∧
    p ∈ segment 5 1 4 ∧ (∀ i : Fin 5, (i : ℤ) = 1 → c'.value p = ![9, 3, 5, 3, 1] i) ∧
    (∀ i ∈ segment 5 1 (p - 1), c'.value i ≤ c'.value p) ∧
    ∀ i ∈ segment 5 (p + 1) 4, c'.value p < c'.value i :=
  partition_splits ⟨![9, 3, 5, 3, 1], []⟩ 1 4 (by decide) (by decide) (by decide)

end SamplePrograms.Quicksort
