import Mathlib.Data.List.Nodup
import Mathlib.Logic.Function.Basic

/-!
# Items handed from producers to consumers

Each producer puts at most one item into a pool and each consumer takes at
most one item out of it. The ledger says where the items are. Every item that
was put in is in the pool once or with exactly one consumer, and never both.
-/

namespace SamplePrograms

variable {T A : Type*}

/-- The pool holds the items put in by some producer and taken by no consumer. -/
structure Ledger (put taken : T → Option A) (pool : List A) : Prop where
  nodup : pool.Nodup
  listed : ∀ a ∈ pool, ∃ t, put t = some a
  gone : ∀ d a, taken d = some a → a ∉ pool
  from_put : ∀ d a, taken d = some a → ∃ t, put t = some a
  once : ∀ d e a, taken d = some a → taken e = some a → d = e
  placed : ∀ t a, put t = some a → a ∈ pool ∨ ∃ d, taken d = some a

namespace Ledger
variable {put taken : T → Option A} {pool : List A}

theorem empty : Ledger (fun _ : T => none) (fun _ => none) ([] : List A) where
  nodup := List.nodup_nil
  listed := by simp
  gone := by simp
  from_put := by simp
  once := by simp
  placed := by simp

/-- An item is in the pool once or with exactly one consumer. -/
theorem location [DecidableEq A] (h : Ledger put taken pool) {t : T} {a : A}
    (ht : put t = some a) :
    (pool.count a = 1 ∧ ∀ d, taken d ≠ some a) ∨ (a ∉ pool ∧ ∃! d, taken d = some a) := by
  by_cases ha : a ∈ pool
  · exact Or.inl ⟨List.count_eq_one_of_mem h.nodup ha, fun d hd => h.gone d a hd ha⟩
  · obtain ⟨d, hd⟩ := (h.placed t a ht).resolve_left ha
    exact Or.inr ⟨ha, d, hd, fun e he => h.once e d a he hd⟩

variable [DecidableEq T]

/-- A producer puts a new item into the pool. -/
theorem push (h : Ledger put taken pool) {t : T} {a : A} (old : put t = none)
    (new : ∀ u, put u ≠ some a) : Ledger (Function.update put t (some a)) taken (a :: pool) where
  nodup := by
    refine List.nodup_cons.mpr ⟨fun ha => ?_, h.nodup⟩
    obtain ⟨u, hu⟩ := h.listed a ha
    exact new u hu
  listed := by
    intro b hb
    rcases List.mem_cons.mp hb with rfl | hb
    · exact ⟨t, Function.update_self _ _ _⟩
    · obtain ⟨u, hu⟩ := h.listed b hb
      have hut : u ≠ t := fun he => by simp [he, old] at hu
      exact ⟨u, by simpa [hut] using hu⟩
  gone := by
    intro d b hd hb
    rcases List.mem_cons.mp hb with rfl | hb
    · obtain ⟨u, hu⟩ := h.from_put d _ hd
      exact new u hu
    · exact h.gone d b hd hb
  from_put := by
    intro d b hd
    obtain ⟨u, hu⟩ := h.from_put d b hd
    have hut : u ≠ t := fun he => by simp [he, old] at hu
    exact ⟨u, by simpa [hut] using hu⟩
  once := h.once
  placed := by
    intro u b hu
    by_cases hut : u = t
    · subst u
      rw [Function.update_self] at hu
      cases hu
      exact Or.inl List.mem_cons_self
    · rw [Function.update_of_ne hut] at hu
      exact (h.placed u b hu).imp_left (List.mem_cons_of_mem a)

/-- A consumer takes the first item of the pool. -/
theorem pop {a : A} (h : Ledger put taken (a :: pool)) {d : T} (old : taken d = none) :
    Ledger put (Function.update taken d (some a)) pool where
  nodup := (List.nodup_cons.mp h.nodup).2
  listed := fun b hb => h.listed b (List.mem_cons_of_mem a hb)
  gone := by
    intro e b he hb
    by_cases hed : e = d
    · subst e
      rw [Function.update_self] at he
      cases he
      exact (List.nodup_cons.mp h.nodup).1 hb
    · rw [Function.update_of_ne hed] at he
      exact h.gone e b he (List.mem_cons_of_mem a hb)
  from_put := by
    intro e b he
    by_cases hed : e = d
    · subst e
      rw [Function.update_self] at he
      cases he
      exact h.listed a List.mem_cons_self
    · rw [Function.update_of_ne hed] at he
      exact h.from_put e b he
  once := by
    intro e e' b he he'
    have only (f : T) (hf : Function.update taken d (some a) f = some b) (hfd : f ≠ d) :
        taken f = some b ∧ b ≠ a := by
      rw [Function.update_of_ne hfd] at hf
      exact ⟨hf, fun hba => h.gone f b hf (hba ▸ List.mem_cons_self)⟩
    have self (hf : Function.update taken d (some a) d = some b) : b = a := by
      rw [Function.update_self] at hf
      exact (Option.some.inj hf).symm
    by_cases hed : e = d
    · subst e
      by_cases hed' : e' = d
      · exact hed'.symm
      · exact absurd (self he) (only e' he' hed').2
    · by_cases hed' : e' = d
      · subst e'
        exact absurd (self he') (only e he hed).2
      · exact h.once e e' b (only e he hed).1 (only e' he' hed').1
  placed := by
    intro t b ht
    by_cases hba : b = a
    · subst b
      exact Or.inr ⟨d, Function.update_self _ _ _⟩
    · rcases h.placed t b ht with hm | ⟨e, he⟩
      · exact Or.inl ((List.mem_cons.mp hm).resolve_left hba)
      · have hed : e ≠ d := fun hx => by simp [hx, old] at he
        exact Or.inr ⟨e, by simpa [hed] using he⟩

end Ledger

end SamplePrograms
