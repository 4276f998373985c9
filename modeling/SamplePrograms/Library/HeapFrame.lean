import SamplePrograms.Library.Memory

/-!
# The old part of a heap

A structure that is built in new cells does not touch the cells below the first
of them. The links of the new cells stay above that address, so that a write
through one of them is a write above it, too.
-/

namespace SamplePrograms.Memory

variable {α : Type*}

namespace Heap
variable {h h' h'' : Heap α} {base : Nat} {p : Ptr} {f : α → α}

/-- The cells below an address are as they were. -/
def SameBelow (base : Nat) (h h' : Heap α) : Prop := ∀ a < base, h'.cell a = h.cell a

/-- The links of the cells from an address on lead to such cells. -/
def LinksAbove (link : α → Ptr) (base : Nat) (h : Heap α) : Prop :=
  ∀ a v n, base ≤ a → h.cell a = some v → link v = some n → base ≤ n

theorem SameBelow.refl (base : Nat) (h : Heap α) : SameBelow base h h := fun _ _ => rfl

theorem SameBelow.trans (one : SameBelow base h h') (two : SameBelow base h' h'') :
    SameBelow base h h'' := fun a ha => (two a ha).trans (one a ha)

theorem SameBelow.mono {base' : Nat} (same : SameBelow base h h') (le : base' ≤ base) :
    SameBelow base' h h' := fun a ha => same a (Nat.lt_of_lt_of_le ha le)

theorem SameBelow.alloc (le : base ≤ h.next) (v : α) : SameBelow base h (h.alloc v).2 := by
  intro a ha
  rw [alloc_cell, Function.update_of_ne (Nat.ne_of_lt (Nat.lt_of_lt_of_le ha le))]

theorem LinksAbove.alloc {link : α → Ptr} (above : LinksAbove link base h) {v : α}
    (links : ∀ n, link v = some n → base ≤ n) : LinksAbove link base (h.alloc v).2 := by
  intro a u n ha hu hn
  rw [alloc_cell] at hu
  by_cases new : a = h.next
  · subst new
    rw [Function.update_self] at hu
    exact links n (Option.some.inj hu ▸ hn)
  · rw [Function.update_of_ne new] at hu
    exact above a u n ha hu hn

/-- What a write can do. -/
theorem modify_cases (written : h.modify p f = .ok h') :
    ∃ a v, p = some a ∧ h.cell a = some v ∧ h'.next = h.next ∧
      h'.cell = Function.update h.cell a (some (f v)) := by
  cases p with
  | none => cases written
  | some a =>
      cases hv : h.cell a with
      | none => simp [modify, hv] at written
      | some v =>
          obtain ⟨h'', written', next, cell⟩ := modify_ok hv f
          obtain rfl : h'' = h' := Except.ok.inj (written'.symm.trans written)
          exact ⟨a, v, rfl, hv, next, cell⟩

theorem modify_next (written : h.modify p f = .ok h') : h'.next = h.next := by
  obtain ⟨-, -, -, -, next, -⟩ := modify_cases written
  exact next

theorem SameBelow.modify (written : h.modify p f = .ok h') (new : ∀ a, p = some a → base ≤ a) :
    SameBelow base h h' := by
  obtain ⟨a, v, rfl, -, -, cell⟩ := modify_cases written
  intro b hb
  rw [cell, Function.update_of_ne (Nat.ne_of_lt (Nat.lt_of_lt_of_le hb (new a rfl)))]

theorem LinksAbove.modify {link : α → Ptr} (above : LinksAbove link base h)
    (written : h.modify p f = .ok h') (links : ∀ v n, link (f v) = some n → link v ≠ some n →
      base ≤ n) : LinksAbove link base h' := by
  obtain ⟨a, v, rfl, hv, -, cell⟩ := modify_cases written
  intro b u n hb hu hn
  rw [cell] at hu
  by_cases here : b = a
  · subst here
    rw [Function.update_self] at hu
    obtain rfl : f v = u := Option.some.inj hu
    by_cases old : link v = some n
    · exact above b v n hb hv old
    · exact links v n hn old
  · rw [Function.update_of_ne here] at hu
    exact above b u n hb hu hn

/-- Every cell of the first heap is as it was. -/
structure Extends (h h' : Heap α) : Prop where
  next : h.next ≤ h'.next
  same : SameBelow h.next h h'

namespace Extends

theorem refl (h : Heap α) : Extends h h := ⟨Nat.le_refl _, .refl _ h⟩

theorem trans (one : Extends h h') (two : Extends h' h'') : Extends h h'' :=
  ⟨one.next.trans two.next, one.same.trans (two.same.mono one.next)⟩

theorem load (ext : Extends h h') {v : α} (old : load h.cell p = .ok v) :
    Memory.load h'.cell p = .ok v := by
  obtain ⟨a, rfl, ha⟩ := load_eq_ok_iff.mp old
  exact load_live ((ext.same a (lt_next ha)).trans ha)

end Extends

/-! ## Cells that were given back -/

/-- The addresses that are not live any more. -/
def Freed (h : Heap α) : Set Nat := {a | a < h.next ∧ h.cell a = none}

theorem freed_empty : (empty : Heap α).Freed = ∅ := by
  ext a
  simp [Freed, empty]

theorem not_mem_freed {a : Nat} (used : a < h.next) (live : a ∉ h.Freed) :
    ∃ v, h.cell a = some v := by
  cases hv : h.cell a with
  | none => exact absurd ⟨used, hv⟩ live
  | some v => exact ⟨v, rfl⟩

theorem freed_alloc (h : Heap α) (v : α) : (h.alloc v).2.Freed = h.Freed := by
  ext a
  simp only [Freed, Set.mem_ofPred_eq, alloc_next, alloc_cell]
  by_cases new : a = h.next
  · subst new
    simp
  · rw [Function.update_of_ne new]
    constructor
    · rintro ⟨lt, gone⟩
      exact ⟨by omega, gone⟩
    · rintro ⟨lt, gone⟩
      exact ⟨by omega, gone⟩

theorem freed_modify (written : h.modify p f = .ok h') : h'.Freed = h.Freed := by
  obtain ⟨a, v, rfl, hv, next, cell⟩ := modify_cases written
  ext b
  simp only [Freed, Set.mem_ofPred_eq, next, cell]
  by_cases here : b = a
  · subst here
    simp [hv]
  · rw [Function.update_of_ne here]

/-- What `free` can do. -/
theorem free_cases (given : h.free p = .ok h') :
    p = none ∧ h' = h ∨ ∃ a v, p = some a ∧ h.cell a = some v ∧ h'.Freed = insert a h.Freed := by
  cases p with
  | none =>
      cases given
      exact Or.inl ⟨rfl, rfl⟩
  | some a =>
      cases hv : h.cell a with
      | none => simp [free, hv] at given
      | some v =>
          rw [free_live hv] at given
          cases given
          refine Or.inr ⟨a, v, rfl, hv, ?_⟩
          ext b
          simp only [Freed, Set.mem_ofPred_eq, Set.mem_insert_iff, put_next, put_cell (lt_next hv)]
          by_cases here : b = a
          · subst here
            simp [lt_next hv]
          · simp [here]

end Heap

end SamplePrograms.Memory
