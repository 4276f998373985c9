import Mathlib

/-!
# Functions rearranged within a set

A function is rearranged within a set of indices when a permutation moves its values, and
the indices outside the set stay where they are.
-/

namespace SamplePrograms.Rearrange

variable {ι α : Type*}

/-- The second function is the first one after a permutation that moves only the set. -/
def Rearranges (S : Set ι) (x y : ι → α) : Prop :=
  ∃ σ : Equiv.Perm ι, y = x ∘ σ ∧ ∀ i ∉ S, σ i = i

namespace Rearranges
variable {S T : Set ι} {x y z : ι → α}

theorem refl (S : Set ι) (x : ι → α) : Rearranges S x x := ⟨1, rfl, fun _ _ => rfl⟩

theorem trans (h : Rearranges S x y) (h' : Rearranges S y z) : Rearranges S x z := by
  obtain ⟨σ, rfl, fixed⟩ := h
  obtain ⟨τ, rfl, fixed'⟩ := h'
  refine ⟨σ * τ, rfl, fun i hi => ?_⟩
  rw [Equiv.Perm.mul_apply, fixed' i hi, fixed i hi]

theorem mono (h : Rearranges S x y) (sub : S ⊆ T) : Rearranges T x y := by
  obtain ⟨σ, rfl, fixed⟩ := h
  exact ⟨σ, rfl, fun i hi => fixed i fun hm => hi (sub hm)⟩

theorem swap [DecidableEq ι] {a b : ι} (ha : a ∈ S) (hb : b ∈ S) (x : ι → α) :
    Rearranges S x (x ∘ Equiv.swap a b) := by
  refine ⟨Equiv.swap a b, rfl, fun i hi => ?_⟩
  apply Equiv.swap_apply_of_ne_of_ne
  · rintro rfl
    exact hi ha
  · rintro rfl
    exact hi hb

theorem eq_of_notMem (h : Rearranges S x y) {i : ι} (hi : i ∉ S) : y i = x i := by
  obtain ⟨σ, rfl, fixed⟩ := h
  exact congrArg x (fixed i hi)

/-- What holds of all values within the set still holds. -/
theorem forall_mem (h : Rearranges S x y) (P : α → Prop) (all : ∀ i ∈ S, P (x i)) :
    ∀ i ∈ S, P (y i) := by
  obtain ⟨σ, rfl, fixed⟩ := h
  intro i hi
  apply all
  by_contra outside
  have same : σ i = i := σ.injective (fixed (σ i) outside)
  exact outside (same.symm ▸ hi)

end Rearranges

section Order
variable [LinearOrder ι] [Preorder α]

/-- Two sides in order are in order together with what lies between them. -/
theorem monotoneOn_of_sides {S : Set ι} {y : ι → α} {p : ι}
    (left : MonotoneOn y {i ∈ S | i < p}) (right : MonotoneOn y {i ∈ S | p < i})
    (below : ∀ i ∈ S, i < p → y i ≤ y p) (above : ∀ i ∈ S, p < i → y p ≤ y i) :
    MonotoneOn y S := by
  intro i hi j hj le
  rcases lt_trichotomy i p with hip | rfl | hip
  · rcases lt_trichotomy j p with hjp | rfl | hjp
    · exact left ⟨hi, hip⟩ ⟨hj, hjp⟩ le
    · exact below i hi hip
    · exact (below i hi hip).trans (above j hj hjp)
  · rcases le.lt_or_eq with hjp | rfl
    · exact above j hj hjp
    · exact le_rfl
  · exact right ⟨hi, hip⟩ ⟨hj, hip.trans_le le⟩ le

end Order

end SamplePrograms.Rearrange
