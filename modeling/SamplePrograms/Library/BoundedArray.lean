import SamplePrograms.Library.Memory
import Mathlib.Algebra.Order.Group.Int

/-!
# Arrays with bounds

An array gives a value to each index below its length. An index that a program computes
is an integer, and an access outside the array is a fault. The array keeps a record of the
indices that were accessed.

## Implementation notes

A computation on an array has no result if it runs out of fuel.
-/

namespace SamplePrograms.BoundedArray
open Memory

variable {α β γ : Type} {n : ℕ}

/-- An array with the indices that were accessed, the last one first. -/
structure Cells (α : Type) (n : ℕ) where
  value : Fin n → α
  accesses : List ℤ

abbrev Action (α : Type) (n : ℕ) := StateT (Cells α n) (ExceptT Fault Option)

def Cells.record (c : Cells α n) (i : ℤ) : Cells α n := { c with accesses := i :: c.accesses }

def Cells.set (c : Cells α n) (i : Fin n) (v : α) : Cells α n :=
  { c with value := Function.update c.value i v }

def read (i : ℤ) : Action α n α := fun c =>
  if h : 0 ≤ i ∧ i < n then pure (c.value ⟨i.toNat, (Int.toNat_lt h.1).mpr h.2⟩, c.record i)
  else throw .outOfBounds

def write (i : ℤ) (v : α) : Action α n Unit := fun c =>
  if h : 0 ≤ i ∧ i < n then
    pure ((), (c.record i).set ⟨i.toNat, (Int.toNat_lt h.1).mpr h.2⟩ v)
  else throw .outOfBounds

def outOfFuel : Action α n β := fun _ => ExceptT.mk none

/-! ## Steps without a fault -/

section Steps
variable {c c' : Cells α n}

theorem bind_ok {m : Action α n β} {g : β → Action α n γ} {b : β} (h : m c = pure (b, c')) :
    (m >>= g) c = g b c' := by
  show (m c >>= fun r => g r.1 r.2) = g b c'
  rw [h, pure_bind]

theorem read_ok (c : Cells α n) (i : Fin n) :
    (read (i : ℤ) : Action α n α) c = pure (c.value i, c.record i) := by
  rw [read, dif_pos ⟨Int.natCast_nonneg _, Int.ofNat_lt.mpr i.isLt⟩]
  rfl

theorem write_ok (c : Cells α n) (i : Fin n) (v : α) :
    write (i : ℤ) v c = pure ((), (c.record i).set i v) := by
  rw [write, dif_pos ⟨Int.natCast_nonneg _, Int.ofNat_lt.mpr i.isLt⟩]
  rfl

end Steps

/-! ## Accesses between two bounds -/

/-- All accesses from one array to the other are between the bounds. -/
def AccessesWithin (f l : ℤ) (c c' : Cells α n) : Prop :=
  ∃ new, c'.accesses = new ++ c.accesses ∧ ∀ i ∈ new, f ≤ i ∧ i ≤ l

namespace AccessesWithin
variable {f l : ℤ} {c c' c'' : Cells α n}

theorem refl (f l : ℤ) (c : Cells α n) : AccessesWithin f l c c := ⟨[], rfl, by simp⟩

theorem trans (h : AccessesWithin f l c c') (h' : AccessesWithin f l c' c'') :
    AccessesWithin f l c c'' := by
  obtain ⟨new, here, inside⟩ := h
  obtain ⟨new', here', inside'⟩ := h'
  refine ⟨new' ++ new, ?_, fun i hi => ?_⟩
  · rw [here', here, List.append_assoc]
  · exact (List.mem_append.mp hi).elim (inside' i) (inside i)

theorem mono (h : AccessesWithin f l c c') {f' l' : ℤ} (hf : f' ≤ f) (hl : l ≤ l') :
    AccessesWithin f' l' c c' := by
  obtain ⟨new, here, inside⟩ := h
  exact ⟨new, here, fun i hi => ⟨hf.trans (inside i hi).1, (inside i hi).2.trans hl⟩⟩

theorem record {i : ℤ} (hf : f ≤ i) (hl : i ≤ l) (c : Cells α n) :
    AccessesWithin f l c (c.record i) := by
  refine ⟨[i], rfl, fun k hk => ?_⟩
  rw [List.mem_singleton.mp hk]
  exact ⟨hf, hl⟩

theorem set {i : Fin n} (hf : f ≤ i) (hl : i ≤ l) (c : Cells α n) (v : α) :
    AccessesWithin f l c ((c.record i).set i v) := record hf hl c

end AccessesWithin

end SamplePrograms.BoundedArray
