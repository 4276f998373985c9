import Mathlib.Data.List.Basic

/-!
# Loops that print and may be left

The body of a loop over a list prints a row, and may leave the loop or raise an
exception. The rows that were printed stay printed.
-/

namespace SamplePrograms.BreakLoop

variable {ε σ α ρ : Type*}

/-- What the body of a loop does with one entry. -/
structure Pass (σ ρ : Type*) where
  row : ρ
  next : σ
  leave : Bool

/-- The rows that a loop prints, and its variables at the end. -/
def forEach (body : σ → α → Except ε (Pass σ ρ)) : σ → List α → List ρ × Except ε σ
  | s, [] => ([], .ok s)
  | s, x :: xs =>
      match body s x with
      | .error e => ([], .error e)
      | .ok pass =>
          if pass.leave then ([pass.row], .ok pass.next)
          else
            let rest := forEach body pass.next xs
            (pass.row :: rest.1, rest.2)

/-- An entry with the variables before and after the body, and the row. -/
structure Iteration (σ α ρ : Type*) where
  before : σ
  entry : α
  row : ρ
  after : σ

/-- The iterations that a loop completes. -/
def trace (body : σ → α → Except ε (Pass σ ρ)) : σ → List α → List (Iteration σ α ρ)
  | _, [] => []
  | s, x :: xs =>
      match body s x with
      | .error _ => []
      | .ok pass =>
          ⟨s, x, pass.row, pass.next⟩ :: if pass.leave then [] else trace body pass.next xs

section Rules
variable {body : σ → α → Except ε (Pass σ ρ)} {s : σ} {x : α} {xs : List α} {pass : Pass σ ρ}

theorem forEach_ok (h : body s x = .ok pass) (xs : List α) :
    forEach body s (x :: xs) =
      if pass.leave then ([pass.row], .ok pass.next)
      else (pass.row :: (forEach body pass.next xs).1, (forEach body pass.next xs).2) := by
  simp only [forEach, h]

theorem trace_ok (h : body s x = .ok pass) (xs : List α) :
    trace body s (x :: xs) =
      ⟨s, x, pass.row, pass.next⟩ :: if pass.leave then [] else trace body pass.next xs := by
  simp only [trace, h]

/-- A loop prints the rows of its iterations. -/
theorem forEach_rows (body : σ → α → Except ε (Pass σ ρ)) (s : σ) (xs : List α) :
    (forEach body s xs).1 = (trace body s xs).map Iteration.row := by
  induction xs generalizing s with
  | nil => rfl
  | cons x xs ih =>
      cases h : body s x with
      | error e => simp only [forEach, trace, h, List.map_nil]
      | ok pass =>
          rw [forEach_ok h, trace_ok h]
          cases pass.leave <;> simp [ih]

/-- A loop goes through its list from the front. -/
theorem trace_entries (body : σ → α → Except ε (Pass σ ρ)) (s : σ) (xs : List α) :
    (trace body s xs).map Iteration.entry <+: xs := by
  induction xs generalizing s with
  | nil => exact List.prefix_refl []
  | cons x xs ih =>
      cases h : body s x with
      | error e => simp only [trace, h, List.map_nil, List.nil_prefix]
      | ok pass =>
          rw [trace_ok h, List.map_cons, List.cons_prefix_cons]
          cases pass.leave <;> simp [ih]

/-- A loop raises no exception if its body raises none, by an invariant about the
iterations so far. -/
theorem forEach_inv {P : List (Iteration σ α ρ) → σ → Prop} (start : P [] s)
    (step : ∀ done s x, x ∈ xs → P done s →
      ∃ pass, body s x = .ok pass ∧ P (done ++ [⟨s, x, pass.row, pass.next⟩]) pass.next) :
    ∃ s', (forEach body s xs).2 = .ok s' ∧ P (trace body s xs) s' := by
  have rest : ∀ ys done s, ys ⊆ xs → P done s →
      ∃ s', (forEach body s ys).2 = .ok s' ∧ P (done ++ trace body s ys) s' := by
    intro ys
    induction ys with
    | nil =>
        intro done s _ hs
        exact ⟨s, rfl, by simpa [trace] using hs⟩
    | cons y ys ih =>
        intro done s sub hs
        obtain ⟨hy, sub⟩ := List.cons_subset.mp sub
        obtain ⟨pass, h, hs⟩ := step done s y hy hs
        rw [forEach_ok h, trace_ok h]
        cases leave : pass.leave with
        | true => exact ⟨pass.next, rfl, hs⟩
        | false =>
            obtain ⟨s', run, hs'⟩ := ih _ _ sub hs
            exact ⟨s', run, by simpa using hs'⟩
  exact rest xs [] s (List.Subset.refl xs) start

/-- Every iteration is as its place in the loop requires, by an invariant about the number
of iterations so far. -/
theorem forEach_indexed {P : ℕ → σ → Prop} {Q : ℕ → Iteration σ α ρ → Prop} (start : P 0 s)
    (step : ∀ k s x, x ∈ xs → P k s →
      ∃ pass, body s x = .ok pass ∧ Q k ⟨s, x, pass.row, pass.next⟩ ∧ P (k + 1) pass.next) :
    (∃ s', (forEach body s xs).2 = .ok s') ∧
      ∀ k i, (trace body s xs)[k]? = some i → Q k i := by
  obtain ⟨s', run, each, -⟩ := @forEach_inv _ _ _ _ body s xs
    (fun done s => (∀ k i, done[k]? = some i → Q k i) ∧ P done.length s) ⟨by simp, start⟩ (by
      rintro done s x hx ⟨each, hs⟩
      obtain ⟨pass, h, new, hs⟩ := step done.length s x hx hs
      refine ⟨pass, h, ?_, by simpa using hs⟩
      intro k i hk
      rw [List.getElem?_append] at hk
      split at hk
      · exact each k i hk
      · obtain ⟨last, rfl⟩ := List.getElem?_eq_some_iff.mp hk
        obtain rfl : k = done.length := by
          rw [List.length_singleton] at last
          omega
        simpa using new)
  exact ⟨⟨s', run⟩, each⟩

/-- Every iteration has a property that the body gives to each. -/
theorem trace_forall {Q : Iteration σ α ρ → Prop}
    (step : ∀ s x, x ∈ xs →
      ∃ pass, body s x = .ok pass ∧ Q ⟨s, x, pass.row, pass.next⟩) :
    ∀ i ∈ trace body s xs, Q i := by
  obtain ⟨-, each⟩ := @forEach_indexed _ _ _ _ body s xs (fun _ _ => True) (fun _ => Q) trivial
    fun _ s x hx _ => by
      obtain ⟨pass, h, new⟩ := step s x hx
      exact ⟨pass, h, new, trivial⟩
  intro i hi
  obtain ⟨k, hk⟩ := List.mem_iff_getElem?.mp hi
  exact each k i hk

end Rules

end SamplePrograms.BreakLoop
