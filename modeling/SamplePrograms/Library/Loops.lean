import Mathlib.Data.List.Basic

/-!
# Loops that may fail

A loop over a list stops at the first error of its body. The rules use an
invariant about the entries that the loop has passed.
-/

namespace SamplePrograms.Loops

variable {ε σ β : Type*}

/-- A loop over a list fails nowhere if its body fails nowhere, by an invariant about the
entries that were passed. -/
theorem foldlM_ok {body : σ → β → Except ε σ} {P : List β → σ → Prop}
    {l : List β} {s : σ} (start : P [] s)
    (step : ∀ front a back s, l = front ++ a :: back → P front s →
      ∃ s', body s a = .ok s' ∧ P (front ++ [a]) s') :
    ∃ s', l.foldlM body s = .ok s' ∧ P l s' := by
  have rest : ∀ back front s, l = front ++ back → P front s →
      ∃ s', back.foldlM body s = .ok s' ∧ P l s' := by
    intro back
    induction back with
    | nil =>
        intro front s hl hs
        rw [List.append_nil] at hl
        exact ⟨s, rfl, hl ▸ hs⟩
    | cons a back ih =>
        intro front s hl hs
        obtain ⟨s', run, hs'⟩ := step front a back s hl hs
        obtain ⟨s'', run', hs''⟩ := ih (front ++ [a]) s' (by simpa using hl) hs'
        refine ⟨s'', ?_, hs''⟩
        rw [List.foldlM_cons, run]
        exact run'
  exact rest l [] s rfl start

/-- What the body keeps whenever it succeeds holds after a loop that succeeds. -/
theorem foldlM_inv {body : σ → β → Except ε σ} {P : List β → σ → Prop} {front l : List β}
    {s s' : σ} (start : P front s)
    (step : ∀ front a s s', P front s → body s a = .ok s' → P (front ++ [a]) s')
    (run : l.foldlM body s = .ok s') : P (front ++ l) s' := by
  induction l generalizing front s with
  | nil =>
      cases run
      rwa [List.append_nil]
  | cons a rest ih =>
      rw [List.foldlM_cons] at run
      cases first : body s a with
      | error e =>
          rw [first] at run
          cases run
      | ok s₁ =>
          rw [first] at run
          have h := ih (step front a s s₁ start first) run
          rwa [List.append_assoc] at h

end SamplePrograms.Loops
