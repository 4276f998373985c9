import Mathlib

/-!
# Loops over a counter

A `for` loop whose body leaves the counter alone is a fold over the values that
the counter takes.

## Implementation notes

The body works in a monad, so that it may return from the function around the
loop. A loop that has not ended after the given number of iterations has no
result.
-/

namespace SamplePrograms.ForLoop

variable {ι σ ρ : Type} {m : Type → Type} [Monad m] [MonadExceptOf Unit m]

/-- `for (i = start; test(i); i = next(i))`, for at most the given number of iterations. -/
def forLoop (test : ι → Bool) (next : ι → ι) (body : σ → ι → m σ) : ℕ → ι → σ → m σ
  | 0, _, _ => throwThe Unit ()
  | fuel + 1, i, s =>
      if test i then do
        let s ← body s i
        forLoop test next body fuel (next i) s
      else pure s

/-- The values that the counter takes until the test fails. -/
inductive Counts (test : ι → Bool) (next : ι → ι) : ι → List ι → Prop
  | stop {i} (done : test i = false) : Counts test next i []
  | step {i l} (more : test i = true) (rest : Counts test next (next i) l) :
      Counts test next i (i :: l)

/-- A loop with enough fuel is a fold over the values of its counter. -/
theorem Counts.forLoop_eq {test : ι → Bool} {next : ι → ι} {i : ι} {l : List ι}
    (h : Counts test next i l) (body : σ → ι → m σ) {fuel : ℕ} (enough : l.length < fuel) (s : σ) :
    forLoop test next body fuel i s = l.foldlM body s := by
  induction h generalizing fuel s with
  | stop done =>
      obtain ⟨fuel, rfl⟩ := Nat.exists_eq_add_one_of_ne_zero (Nat.ne_zero_of_lt enough)
      simp [forLoop, done]
  | step more _ ih =>
      obtain ⟨fuel, rfl⟩ := Nat.exists_eq_add_one_of_ne_zero (Nat.ne_zero_of_lt enough)
      have enough' := Nat.lt_of_succ_lt_succ enough
      simp only [forLoop, more, if_true, List.foldlM_cons, ih enough']

/-- A loop whose body cannot fail is a fold. -/
theorem Counts.forLoop_pure [LawfulMonad m] {test : ι → Bool} {next : ι → ι} {i : ι} {l : List ι}
    (h : Counts test next i l) {body : σ → ι → m σ} {f : σ → ι → σ}
    (hbody : ∀ s, ∀ j ∈ l, body s j = pure (f s j)) {fuel : ℕ} (enough : l.length < fuel) (s : σ) :
    forLoop test next body fuel i s = pure (l.foldl f s) := by
  rw [h.forLoop_eq body enough]
  clear h enough
  induction l generalizing s with
  | nil => rfl
  | cons j l ih =>
      rw [List.foldlM_cons, hbody s j List.mem_cons_self, pure_bind]
      exact ih (fun s j hj => hbody s j (List.mem_cons_of_mem _ hj)) _

/-- Return from the function, if there is something to return. -/
def returnIf (result : Option ρ) : ExceptT ρ Option Unit :=
  match result with
  | some r => throw r
  | none => pure ()

theorem ite_throw (test : Prop) [Decidable test] (r : ρ) :
    (if test then throw r else pure () : ExceptT ρ Option Unit) =
      returnIf (if test then some r else none) := by
  split <;> rfl

/-- A loop that only looks for something to return is a search. -/
theorem Counts.forLoop_returnIf {test : ι → Bool} {next : ι → ι} {i : ι} {l : List ι}
    (h : Counts test next i l) {body : Unit → ι → ExceptT ρ Option Unit} {f : ι → Option ρ}
    (hbody : ∀ j ∈ l, body () j = returnIf (f j)) {fuel : ℕ} (enough : l.length < fuel) :
    forLoop test next body fuel i () = returnIf (l.findSome? f) := by
  rw [h.forLoop_eq body enough]
  clear h enough
  induction l with
  | nil => rfl
  | cons j l ih =>
      rw [List.foldlM_cons, hbody j List.mem_cons_self, List.findSome?_cons]
      cases f j with
      | none => exact ih fun j hj => hbody j (List.mem_cons_of_mem _ hj)
      | some r => rfl

/-- A search that at most one entry can end. -/
theorem findSome?_eq_of_unique {l : List ι} {f : ι → Option ρ} {i : ι} {r : ρ} (hi : i ∈ l)
    (found : f i = some r) (unique : ∀ j ∈ l, f j = none ∨ f j = some r) :
    l.findSome? f = some r := by
  cases h : l.findSome? f with
  | none =>
      rw [List.findSome?_eq_none_iff.mp h i hi] at found
      cases found
  | some r' =>
      obtain ⟨j, hj, hr⟩ := List.exists_of_findSome?_eq_some h
      rcases unique j hj with none | same
      · cases none.symm.trans hr
      · exact hr.symm.trans same

/-- A fold that keeps the last of what it finds is a search from the end. -/
theorem foldl_getD (f : ι → Option σ) (l : List ι) (s : σ) :
    l.foldl (fun s i => (f i).getD s) s = (l.reverse.findSome? f).getD s := by
  induction l generalizing s with
  | nil => rfl
  | cons i l ih =>
      rw [List.foldl_cons, ih, List.reverse_cons, List.findSome?_append]
      cases l.reverse.findSome? f with
      | some r => rfl
      | none => cases hi : f i <;> simp [hi]

/-- A set into which the values of some entries of a list are inserted. -/
theorem mem_foldl_insert {α β : Type*} [DecidableEq β] (P : α → Prop) [DecidablePred P]
    (f : α → β) (l : List α) (s : Finset β) (b : β) :
    b ∈ l.foldl (fun s a => if P a then insert (f a) s else s) s ↔
      b ∈ s ∨ ∃ a ∈ l, P a ∧ f a = b := by
  induction l generalizing s with
  | nil => simp
  | cons a l ih =>
      rw [List.foldl_cons, ih]
      by_cases ha : P a
      · simp [ha, or_assoc, or_left_comm, eq_comm]
      · simp [ha]

/-! ## Counters that are words -/

/-- The counter passes through the values of a function, which pass the test until the last. -/
theorem counts_map {test : ι → Bool} {next : ι → ι} (value : ℕ → ι) (n a : ℕ)
    (step : ∀ k, a ≤ k → k < a + n → next (value k) = value (k + 1))
    (more : ∀ k, a ≤ k → k < a + n → test (value k) = true) (done : test (value (a + n)) = false) :
    Counts test next (value a) ((List.range' a n).map value) := by
  induction n generalizing a with
  | zero => exact .stop done
  | succ n ih =>
      rw [List.range'_succ, List.map_cons]
      apply Counts.step (more a (Nat.le_refl a) (by omega))
      rw [step a (Nat.le_refl a) (by omega)]
      apply ih
      · intro k low high
        exact step k (by omega) (by omega)
      · intro k low high
        exact more k (by omega) (by omega)
      · rw [Nat.add_right_comm]
        exact done

/-- The positive multiples of a step below a bound. -/
def multiples (w k bound : ℕ) : List (BitVec w) :=
  (List.range' 1 ((bound - 1) / k)).map fun j => .ofNat w (k * j)

theorem multiples_length (w k bound : ℕ) : (multiples w k bound).length = (bound - 1) / k := by
  simp [multiples]

theorem mul_lt_of_le_div {k bound j : ℕ} (hk : 0 < k) (hj : 0 < j) :
    j ≤ (bound - 1) / k ↔ k * j < bound := by
  have pos : 0 < k * j := Nat.mul_pos hk hj
  rw [Nat.le_div_iff_mul_le hk, Nat.mul_comm]
  omega

theorem mem_multiples {w k bound : ℕ} {i : BitVec w} (hk : 0 < k) :
    i ∈ multiples w k bound ↔ ∃ j, 0 < j ∧ k * j < bound ∧ i = .ofNat w (k * j) := by
  simp only [multiples, List.mem_map, List.mem_range'_1]
  apply exists_congr
  intro j
  constructor
  · rintro ⟨⟨low, high⟩, rfl⟩
    exact ⟨low, (mul_lt_of_le_div hk low).mp (by omega), rfl⟩
  · rintro ⟨low, high, rfl⟩
    have le := (mul_lt_of_le_div hk low).mpr high
    exact ⟨⟨low, by omega⟩, rfl⟩

variable {w k : ℕ} {bound : BitVec w}

/-- A counter with a test that compares its number with a bound. -/
theorem counts_multiples {test : BitVec w → Bool} {limit : ℕ} (hk : 0 < k)
    (more : ∀ j, 0 < j → k * j < limit → test (.ofNat w (k * j)) = true)
    (done : test (.ofNat w (k * ((limit - 1) / k + 1))) = false) :
    Counts test (fun i => i + .ofNat w k) (.ofNat w k) (multiples w k limit) := by
  have counts : Counts test (fun i => i + .ofNat w k) (.ofNat w (k * 1)) (multiples w k limit) := by
    apply counts_map (fun j => BitVec.ofNat w (k * j))
    · intro j _ _
      rw [Nat.mul_succ, BitVec.ofNat_add]
    · intro j low high
      exact more j low ((mul_lt_of_le_div hk low).mp (by omega))
    · rwa [Nat.add_comm]
  rwa [Nat.mul_one] at counts

theorem le_next_multiple (hk : 0 < k) (limit : ℕ) : limit ≤ k * ((limit - 1) / k + 1) := by
  have rounded := Nat.lt_mul_div_succ (limit - 1) hk
  omega

theorem counts_ult (hk : 0 < k) (room : k * ((bound.toNat - 1) / k + 1) < 2 ^ w) :
    Counts (fun i => i.ult bound) (fun i => i + .ofNat w k) (.ofNat w k)
      (multiples w k bound.toNat) := by
  have le := le_next_multiple hk bound.toNat
  apply counts_multiples hk
  · intro j _ below
    rw [BitVec.ult_iff_toNat_lt, BitVec.toNat_ofNat, Nat.mod_eq_of_lt (by omega)]
    exact below
  · rw [Bool.eq_false_iff, Ne, BitVec.ult_iff_toNat_lt, BitVec.toNat_ofNat, Nat.mod_eq_of_lt room]
    omega

theorem toInt_ofNat_of_lt {n : ℕ} (small : n < 2 ^ (w - 1)) : (BitVec.ofNat w n).toInt = n := by
  cases w with
  | zero =>
      have zero : n = 0 := by simpa using small
      subst zero
      rfl
  | succ w =>
      have value : (BitVec.ofNat (w + 1) n).toNat = n := by
        rw [BitVec.toNat_ofNat]
        apply Nat.mod_eq_of_lt
        rw [Nat.pow_succ]
        exact Nat.lt_of_lt_of_le small (Nat.le_mul_of_pos_right _ (by decide))
      rw [BitVec.toInt_eq_toNat_of_lt, value]
      rw [value, Nat.pow_succ]
      rw [Nat.add_sub_cancel] at small
      omega

theorem counts_slt (hk : 0 < k) (room : k * ((bound.toInt.toNat - 1) / k + 1) < 2 ^ (w - 1)) :
    Counts (fun i => i.slt bound) (fun i => i + .ofNat w k) (.ofNat w k)
      (multiples w k bound.toInt.toNat) := by
  have le := le_next_multiple hk bound.toInt.toNat
  apply counts_multiples hk
  · intro j _ below
    rw [BitVec.slt_iff_toInt_lt, toInt_ofNat_of_lt (by omega)]
    omega
  · rw [Bool.eq_false_iff, Ne, BitVec.slt_iff_toInt_lt, toInt_ofNat_of_lt room]
    omega

end SamplePrograms.ForLoop
