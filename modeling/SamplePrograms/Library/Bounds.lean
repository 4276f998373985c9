import SamplePrograms.Library.Memory

/-!
# Computations that stay within the arrays

A computation stays within the arrays if it does not end with an access past the end
of one. It may still end with another fault. The rules follow the computation one
operation at a time and say what holds of its result.
-/

namespace SamplePrograms.Memory

universe u

variable {α β : Type u}

/-- The computation does not leave an array, and its result has the property. -/
def InBounds (P : α → Prop) : Except Fault α → Prop
  | .ok a => P a
  | .error e => e ≠ .outOfBounds

namespace InBounds
variable {P Q : α → Prop} {R : β → Prop} {x : Except Fault α}

theorem imp (h : InBounds P x) (weaken : ∀ a, P a → Q a) : InBounds Q x := by
  cases x with
  | ok a => exact weaken a h
  | error e => exact h

theorem pure {a : α} (h : P a) : InBounds P (Pure.pure a : Except Fault α) := h

theorem bind {f : α → Except Fault β} (h : InBounds P x) (next : ∀ a, P a → InBounds R (f a)) :
    InBounds R (x >>= f) := by
  cases x with
  | ok a => exact next a h
  | error e => exact h

theorem ite {c : Prop} [Decidable c] {y : Except Fault α} (pos : c → InBounds P x)
    (neg : ¬ c → InBounds P y) : InBounds P (if c then x else y) := by
  split
  case isTrue h => exact pos h
  case isFalse h => exact neg h

end InBounds

/-! ## The accesses to a heap -/

theorem inBounds_load {A : Type*} (m : Mem A α) (p : Option A) :
    InBounds (fun v => ∃ a, p = some a ∧ m a = some v) (load m p) := by
  cases h : load m p with
  | ok v => exact load_eq_ok_iff.mp h
  | error e =>
    rintro rfl
    cases p with
    | none => cases h
    | some a =>
      cases hm : m a with
      | none => simp [load, hm] at h
      | some v => simp [load, hm] at h

theorem inBounds_modify (h : Heap α) (p : Ptr) (f : α → α) :
    InBounds (fun h' => ∃ a v, h.cell a = some v ∧ h'.cell = Function.update h.cell a (some (f v)))
      (h.modify p f) := by
  cases p with
  | none => exact Fault.noConfusion
  | some a =>
    cases live : h.cell a with
    | none =>
      simp only [Heap.modify, live]
      exact Fault.noConfusion
    | some v =>
      rw [Heap.modify_live live]
      exact ⟨a, v, live, Heap.put_cell (Heap.lt_next live) _⟩

theorem inBounds_free (h : Heap α) (p : Ptr) : InBounds (fun _ => True) (h.free p) := by
  cases p with
  | none => trivial
  | some a =>
    cases live : h.cell a with
    | none =>
      simp only [Heap.free, live]
      exact Fault.noConfusion
    | some v =>
      rw [Heap.free_live live]
      trivial

end SamplePrograms.Memory
