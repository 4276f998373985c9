import Mathlib.Data.List.Basic

/-!
# Sequences of calls on an object

An object has a state and answers calls, and a call may fault. Its specification
is a total machine over abstract values, with the calls that are legal in each
abstract state. When every legal call keeps a relation between the two states
and has the specified answer, so does every legal sequence of calls.
-/

namespace SamplePrograms.Calls

variable {S C O E : Type*}

/-- Make the calls of a list one after another and collect the answers. -/
def runCalls (step : S → C → Except E (S × O)) : S → List C → Except E (S × List O)
  | s, [] => .ok (s, [])
  | s, c :: rest =>
      match step s c with
      | .error e => .error e
      | .ok (s', o) =>
          match runCalls step s' rest with
          | .error e => .error e
          | .ok (s'', os) => .ok (s'', o :: os)

@[simp] theorem runCalls_nil (step : S → C → Except E (S × O)) (s : S) :
    runCalls step s [] = .ok (s, []) := rfl

theorem runCalls_cons {step : S → C → Except E (S × O)} {s s' s'' : S} {c : C} {rest : List C}
    {o : O} {os : List O} (first : step s c = .ok (s', o))
    (others : runCalls step s' rest = .ok (s'', os)) :
    runCalls step s (c :: rest) = .ok (s'', o :: os) := by
  simp only [runCalls, first, others]

/-- One call more. -/
theorem runCalls_concat {step : S → C → Except E (S × O)} {s s' s'' : S} {calls : List C} {c : C}
    {os : List O} {o : O} (run : runCalls step s calls = .ok (s', os))
    (last : step s' c = .ok (s'', o)) :
    runCalls step s (calls ++ [c]) = .ok (s'', os ++ [o]) := by
  induction calls generalizing s os with
  | nil =>
      cases run
      exact runCalls_cons last rfl
  | cons d rest ih =>
      simp only [runCalls] at run
      cases first : step s d with
      | error e => simp [first] at run
      | ok r =>
          cases others : runCalls step r.1 rest with
          | error e => simp [first, others] at run
          | ok r' =>
              simp only [first, others, Except.ok.injEq, Prod.mk.injEq] at run
              obtain ⟨rfl, rfl⟩ := run
              exact runCalls_cons first (ih others)

/-- An abstract machine with the calls that are legal in each of its states. -/
structure Machine (B C O : Type*) where
  next : B → C → B
  answer : B → C → O
  legal : B → C → Prop

namespace Machine
variable {B : Type*} (spec : Machine B C O)

/-- The state after a list of calls. -/
def after (b : B) (calls : List C) : B := calls.foldl spec.next b

/-- The answers to a list of calls. -/
def answers : B → List C → List O
  | _, [] => []
  | b, c :: rest => spec.answer b c :: answers (spec.next b c) rest

/-- Every call of a list is legal when it is made. -/
def Legal : B → List C → Prop
  | _, [] => True
  | b, c :: rest => spec.legal b c ∧ Legal (spec.next b c) rest

@[simp] theorem after_nil (b : B) : spec.after b [] = b := rfl

@[simp] theorem after_cons (b : B) (c : C) (rest : List C) :
    spec.after b (c :: rest) = spec.after (spec.next b c) rest := rfl

theorem after_append (b : B) (first second : List C) :
    spec.after b (first ++ second) = spec.after (spec.after b first) second :=
  List.foldl_append

@[simp] theorem answers_nil (b : B) : spec.answers b [] = [] := rfl

@[simp] theorem answers_cons (b : B) (c : C) (rest : List C) :
    spec.answers b (c :: rest) = spec.answer b c :: spec.answers (spec.next b c) rest := rfl

theorem legal_append {b : B} {first second : List C} :
    spec.Legal b (first ++ second) ↔
      spec.Legal b first ∧ spec.Legal (spec.after b first) second := by
  induction first generalizing b with
  | nil => simp [Legal]
  | cons c rest ih => simp only [List.cons_append, Legal, ih, after_cons, and_assoc]

theorem legal_of_forall (all : ∀ b c, spec.legal b c) (b : B) (calls : List C) :
    spec.Legal b calls := by
  induction calls generalizing b with
  | nil => trivial
  | cons c rest ih => exact ⟨all b c, ih (spec.next b c)⟩

end Machine

/-- A relation that every legal call keeps, with the specified answer, is kept by
every legal list of calls, with the specified answers. -/
theorem runCalls_refines {B : Type*} {step : S → C → Except E (S × O)} {spec : Machine B C O}
    {R : S → B → Prop}
    (sim : ∀ s b c, R s b → spec.legal b c →
      ∃ s', step s c = .ok (s', spec.answer b c) ∧ R s' (spec.next b c))
    {s : S} {b : B} (related : R s b) {calls : List C} (legal : spec.Legal b calls) :
    ∃ s', runCalls step s calls = .ok (s', spec.answers b calls) ∧ R s' (spec.after b calls) := by
  induction calls generalizing s b with
  | nil => exact ⟨s, rfl, related⟩
  | cons c rest ih =>
      obtain ⟨s₁, first, h₁⟩ := sim s b c related legal.1
      obtain ⟨s₂, others, h₂⟩ := ih h₁ legal.2
      exact ⟨s₂, runCalls_cons first others, h₂⟩

/-- Two machines that agree on a view of their answers, call by call, agree on
the views of all their answers. -/
theorem answers_view {B B' O' : Type*} {spec : Machine B C O} {spec' : Machine B' C O'}
    {R : B → B' → Prop} {view : O → O'}
    (sim : ∀ b b' c, R b b' →
      view (spec.answer b c) = spec'.answer b' c ∧ R (spec.next b c) (spec'.next b' c))
    {b : B} {b' : B'} (related : R b b') (calls : List C) :
    (spec.answers b calls).map view = spec'.answers b' calls := by
  induction calls generalizing b b' with
  | nil => rfl
  | cons c rest ih =>
      obtain ⟨same, next⟩ := sim b b' c related
      simp only [Machine.answers_cons, List.map_cons, same, ih next]

end SamplePrograms.Calls
