/-!
# Exceptions that leave the state as it is

Code that may throw and changes a state, where a handler goes on from the state in which the
exception was thrown. The rules evaluate one call at a time.
-/

namespace SamplePrograms.TryCatch

variable {E S A B : Type} {x : EStateM E S A} {s s' : S} {a : A} {e : E}

theorem bind_apply (x : EStateM E S A) (f : A → EStateM E S B) (s : S) :
    (x >>= f) s = match x s with
      | .ok a s' => f a s'
      | .error e s' => .error e s' := rfl

theorem bind_ok (h : x s = .ok a s') (f : A → EStateM E S B) : (x >>= f) s = f a s' := by
  rw [bind_apply, h]

theorem bind_error (h : x s = .error e s') (f : A → EStateM E S B) :
    (x >>= f) s = .error e s' := by
  rw [bind_apply, h]

theorem tryCatch_apply (x : EStateM E S A) (handler : E → EStateM E S A) (s : S) :
    tryCatch x handler s = match x s with
      | .ok a s' => .ok a s'
      | .error e s' => handler e s' := by
  change EStateM.tryCatch x handler s = _
  delta EStateM.tryCatch
  cases x s <;> rfl

theorem tryCatch_ok (h : x s = .ok a s') (handler : E → EStateM E S A) :
    tryCatch x handler s = .ok a s' := by
  rw [tryCatch_apply, h]

theorem tryCatch_error (h : x s = .error e s') (handler : E → EStateM E S A) :
    tryCatch x handler s = handler e s' := by
  rw [tryCatch_apply, h]

/-- How a call ends, as a value. -/
def outcome (x : EStateM E S A) : EStateM E S (Except E A) := fun s =>
  match x s with
  | .ok a s' => .ok (.ok a) s'
  | .error e s' => .ok (.error e) s'

theorem outcome_ok (h : x s = .ok a s') : outcome x s = .ok (.ok a) s' := by
  rw [outcome, h]

theorem outcome_error (h : x s = .error e s') : outcome x s = .ok (.error e) s' := by
  rw [outcome, h]

end SamplePrograms.TryCatch
