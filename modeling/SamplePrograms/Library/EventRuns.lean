import Mathlib.Logic.Basic

/-!
# Runs of a system that takes events

A relation says how a system takes an event. A state may take an event in
several ways or not at all. One rule derives what holds in every state that is
reached by events that meet a condition. Another rule turns an equivalence about
one event into an equivalence about all states along a list of events.
-/

namespace SamplePrograms.Events

variable {S E : Type*} {takes : S → E → S → Prop}

/-! ## Reachable states -/

/-- The states reached from a state by events that meet a condition when they are taken. -/
inductive Reaches (takes : S → E → S → Prop) (ok : S → E → Prop) (start : S) : S → Prop
  | start : Reaches takes ok start start
  | event {s s' : S} {e : E} (before : Reaches takes ok start s) (meets : ok s e)
      (next : takes s e s') : Reaches takes ok start s'

namespace Reaches
variable {ok : S → E → Prop} {start s : S}

/-- What holds at the start and is kept by every event that meets the condition
holds in every reached state. -/
theorem invariant {I : S → Prop} (init : I start)
    (keep : ∀ s e s', I s → ok s e → takes s e s' → I s') (h : Reaches takes ok start s) : I s := by
  induction h with
  | start => exact init
  | event _ meets next ih => exact keep _ _ _ ih meets next

end Reaches

/-- Take the events of a list, each of which must meet the condition. -/
def runWhile (step : S → E → Option S) (ok : S → E → Prop) [∀ s e, Decidable (ok s e)] :
    S → List E → Option S
  | s, [] => some s
  | s, e :: rest => if ok s e then (step s e).bind fun s' => runWhile step ok s' rest else none

/-- A computed run reaches its last state. -/
theorem Reaches.of_runWhile {step : S → E → Option S} {ok : S → E → Prop}
    [∀ s e, Decidable (ok s e)] {start s s' : S}
    (before : Reaches (fun s e s' => step s e = some s') ok start s) {events : List E}
    (run : runWhile step ok s events = some s') :
    Reaches (fun s e s' => step s e = some s') ok start s' := by
  induction events generalizing s with
  | nil =>
      cases run
      exact before
  | cons e rest ih =>
      simp only [runWhile, Option.ite_none_right_eq_some, Option.bind_eq_some_iff] at run
      obtain ⟨meets, s₁, next, later⟩ := run
      exact ih (before.event meets next) later

/-! ## Lists of events -/

/-- Every event of a list meets a condition when it is taken. -/
def Along (takes : S → E → S → Prop) (ok : S → E → Prop) : S → List E → Prop
  | _, [] => True
  | s, e :: rest => ok s e ∧ ∀ s', takes s e s' → Along takes ok s' rest

/-- Every state before, between and after the events of a list has a property. -/
def Throughout (takes : S → E → S → Prop) (P : S → Prop) : S → List E → Prop
  | s, [] => P s
  | s, e :: rest => P s ∧ ∀ s', takes s e s' → Throughout takes P s' rest

theorem Throughout.start {P : S → Prop} {s : S} {events : List E}
    (h : Throughout takes P s events) : P s := by
  cases events with
  | nil => exact h
  | cons e rest => exact h.1

/-- When a state with the property keeps it exactly under the events that meet the
condition, the property lasts exactly along lists of such events. -/
theorem throughout_iff_along {P : S → Prop} {ok : S → E → Prop}
    (exact : ∀ s e, P s → ((∀ s', takes s e s' → P s') ↔ ok s e)) {s : S} (h : P s)
    (events : List E) : Throughout takes P s events ↔ Along takes ok s events := by
  induction events generalizing s with
  | nil => exact iff_of_true h trivial
  | cons e rest ih =>
      constructor
      · rintro ⟨-, later⟩
        have next : ∀ s', takes s e s' → P s' := fun s' taken => (later s' taken).start
        exact ⟨(exact s e h).mp next, fun s' taken => (ih (next s' taken)).mp (later s' taken)⟩
      · rintro ⟨meets, later⟩
        have next := (exact s e h).mpr meets
        exact ⟨h, fun s' taken => (ih (next s' taken)).mpr (later s' taken)⟩

section Faults
variable {F : Type*} {step : S → E → Except F S} {ok : S → E → Prop} {s s' : S} {events : List E}

theorem along_cons {e : E} (meets : ok s e) (next : step s e = .ok s')
    (later : Along (fun s e s' => step s e = .ok s') ok s' events) :
    Along (fun s e s' => step s e = .ok s') ok s (e :: events) :=
  ⟨meets, fun _ taken => Except.ok.inj (next.symm.trans taken) ▸ later⟩

/-- When every event that meets the condition is taken without a fault and keeps an invariant,
so are the events of a list. -/
theorem foldlM_of_along {I : S → Prop}
    (keep : ∀ s e, I s → ok s e → ∃ s', step s e = .ok s' ∧ I s') (h : I s)
    (meets : Along (fun s e s' => step s e = .ok s') ok s events) :
    ∃ s', events.foldlM step s = .ok s' ∧ I s' := by
  induction events generalizing s with
  | nil => exact ⟨s, rfl, h⟩
  | cons e rest ih =>
      obtain ⟨s₁, next, h₁⟩ := keep s e h meets.1
      obtain ⟨s₂, later, h₂⟩ := ih h₁ (meets.2 s₁ next)
      refine ⟨s₂, ?_, h₂⟩
      rw [List.foldlM_cons, next]
      exact later

end Faults

end SamplePrograms.Events
