import Mathlib.Logic.Function.Basic
import Mathlib.Data.List.Nodup
import Mathlib.Data.Set.Insert

/-!
# Memory with faults

A memory is a partial map from addresses to values. A pointer is an optional
address, with `none` for the null pointer. Reading or writing through the null
pointer, or through an address that is not live, is a fault. A heap adds an
allocator that never hands out an address twice.
-/

namespace SamplePrograms.Memory

/-- What stops an access. -/
inductive Fault where
  | nullPointer
  | danglingPointer
  | outOfBounds
  deriving DecidableEq, Repr

variable {A α : Type*}

/-- Only live addresses have a value. -/
abbrev Mem (A α : Type*) := A → Option α

/-- Read through a pointer. -/
def load (m : Mem A α) : Option A → Except Fault α
  | none => .error .nullPointer
  | some a => match m a with
    | none => .error .danglingPointer
    | some v => .ok v

@[simp] theorem load_null (m : Mem A α) : load m none = .error .nullPointer := rfl

theorem load_live {m : Mem A α} {a : A} {v : α} (h : m a = some v) : load m (some a) = .ok v := by
  simp [load, h]

theorem load_eq_ok_iff {m : Mem A α} {p : Option A} {v : α} :
    load m p = .ok v ↔ ∃ a, p = some a ∧ m a = some v := by
  cases p with
  | none => simp
  | some a => cases h : m a <;> simp [load, h]

section Update
variable [DecidableEq A]

/-- Write through a pointer, as a function of the old value. -/
def modify (m : Mem A α) (p : Option A) (f : α → α) : Except Fault (Mem A α) :=
  match p with
  | none => .error .nullPointer
  | some a => match m a with
    | none => .error .danglingPointer
    | some v => .ok (Function.update m a (some (f v)))

theorem modify_live {m : Mem A α} {a : A} {v : α} (h : m a = some v) (f : α → α) :
    modify m (some a) f = .ok (Function.update m a (some (f v))) := by
  simp [modify, h]

/-- Give the memory of a pointer back. Nothing happens for the null pointer. -/
def release (m : Mem A α) (p : Option A) : Except Fault (Mem A α) :=
  match p with
  | none => .ok m
  | some a => match m a with
    | none => .error .danglingPointer
    | some _ => .ok (Function.update m a none)

theorem release_live {m : Mem A α} {a : A} {v : α} (h : m a = some v) :
    release m (some a) = .ok (Function.update m a none) := by
  simp [release, h]

end Update

/-! ## Heaps -/

/-- A pointer into a heap, whose addresses are numbers. -/
abbrev Ptr := Option Nat

/-- A memory whose addresses from `next` on have never been used. -/
structure Heap (α : Type*) where
  cell : Mem Nat α
  next : Nat
  fresh : ∀ a, next ≤ a → cell a = none

namespace Heap

/-- The heap at the start of a program. -/
def empty : Heap α := ⟨fun _ => none, 0, fun _ _ => rfl⟩

instance : Inhabited (Heap α) := ⟨empty⟩

theorem lt_next {h : Heap α} {a : Nat} {v : α} (hv : h.cell a = some v) : a < h.next := by
  by_contra hn
  rw [h.fresh a (by omega)] at hv
  cases hv

/-- Allocate a new value and return its address. -/
def alloc (h : Heap α) (v : α) : Nat × Heap α :=
  (h.next, ⟨Function.update h.cell h.next (some v), h.next + 1, by
    intro a ha
    have hne : a ≠ h.next := by omega
    simpa [hne] using h.fresh a (by omega)⟩)

@[simp] theorem alloc_fst (h : Heap α) (v : α) : (h.alloc v).1 = h.next := rfl
@[simp] theorem alloc_next (h : Heap α) (v : α) : (h.alloc v).2.next = h.next + 1 := rfl
@[simp] theorem alloc_cell (h : Heap α) (v : α) :
    (h.alloc v).2.cell = Function.update h.cell h.next (some v) := rfl

/-- Replace what is stored at a used address. -/
def put (h : Heap α) (a : Nat) (v : Option α) : Heap α where
  cell := fun b => if b = a ∧ a < h.next then v else h.cell b
  next := h.next
  fresh := by
    intro b hb
    have hn : ¬ (b = a ∧ a < h.next) := by omega
    simpa [hn] using h.fresh b hb

@[simp] theorem put_next (h : Heap α) (a : Nat) (v : Option α) : (h.put a v).next = h.next := rfl

theorem put_cell {h : Heap α} {a : Nat} (ha : a < h.next) (v : Option α) :
    (h.put a v).cell = Function.update h.cell a v := by
  funext b
  by_cases hb : b = a
  · subst b
    simp [put, ha]
  · simp [put, hb]

/-- Write through a pointer into the heap. -/
def modify (h : Heap α) (p : Ptr) (f : α → α) : Except Fault (Heap α) :=
  match p with
  | none => .error .nullPointer
  | some a => match h.cell a with
    | none => .error .danglingPointer
    | some v => .ok (h.put a (some (f v)))

/-- The `free` of a heap pointer. -/
def free (h : Heap α) (p : Ptr) : Except Fault (Heap α) :=
  match p with
  | none => .ok h
  | some a => match h.cell a with
    | none => .error .danglingPointer
    | some _ => .ok (h.put a none)

theorem modify_live {h : Heap α} {a : Nat} {v : α} (hv : h.cell a = some v) (f : α → α) :
    h.modify (some a) f = .ok (h.put a (some (f v))) := by
  simp [modify, hv]

/-- A write through a live pointer changes one cell. -/
theorem modify_ok {h : Heap α} {a : Nat} {v : α} (hv : h.cell a = some v) (f : α → α) :
    ∃ h', h.modify (some a) f = .ok h' ∧ h'.next = h.next ∧
      h'.cell = Function.update h.cell a (some (f v)) :=
  ⟨_, modify_live hv f, rfl, put_cell (lt_next hv) _⟩

theorem free_live {h : Heap α} {a : Nat} {v : α} (hv : h.cell a = some v) :
    h.free (some a) = .ok (h.put a none) := by
  simp [free, hv]

/-- The cells at the given addresses are live, with the values of a function. -/
def Holds (h : Heap α) (live : Set Nat) (f : Nat → α) : Prop := ∀ a ∈ live, h.cell a = some (f a)

namespace Holds
variable {h : Heap α} {live live' : Set Nat} {f : Nat → α} {a : Nat}

theorem mono (hf : h.Holds live f) (sub : live' ⊆ live) : h.Holds live' f :=
  fun a ha => hf a (sub ha)

theorem load (hf : h.Holds live f) (ha : a ∈ live) : load h.cell (some a) = .ok (f a) :=
  load_live (hf a ha)

theorem lt_next (hf : h.Holds live f) (ha : a ∈ live) : a < h.next := Heap.lt_next (hf a ha)

/-- A write gives the heap any values that differ from the old ones as the write does. -/
theorem modify (hf : h.Holds live f) (ha : a ∈ live) (g : α → α) {f' : Nat → α}
    (here : f' a = g (f a)) (others : ∀ b, b ≠ a → f' b = f b) :
    ∃ h', h.modify (some a) g = .ok h' ∧ h'.Holds live f' := by
  obtain ⟨h', written, -, cell⟩ := modify_ok (hf a ha) g
  refine ⟨h', written, ?_⟩
  intro b hb
  rw [cell]
  by_cases hba : b = a
  · subst b
    rw [Function.update_self, here]
  · rw [Function.update_of_ne hba, others b hba]
    exact hf b hb

theorem alloc (hf : h.Holds live f) (v : α) :
    (h.alloc v).2.Holds (insert h.next live) (Function.update f h.next v) := by
  rintro b (rfl | hb)
  · simp
  · have hne : b ≠ h.next := (hf.lt_next hb).ne
    rw [alloc_cell, Function.update_of_ne hne, Function.update_of_ne hne]
    exact hf b hb

theorem free (hf : h.Holds live f) (ha : a ∈ live) :
    ∃ h', h.free (some a) = .ok h' ∧ h'.Holds (live \ {a}) f := by
  refine ⟨_, free_live (hf a ha), ?_⟩
  rintro b ⟨hb, hne⟩
  rw [put_cell (hf.lt_next ha), Function.update_of_ne hne]
  exact hf b hb

end Holds

end Heap

/-! ## Linked segments -/

/-- Following the `next` field from a pointer passes the listed addresses and
ends at the second pointer. -/
def Segment (m : Mem A α) (next : α → Option A) : Option A → List A → Option A → Prop
  | p, [], q => p = q
  | p, a :: l, q => p = some a ∧ ∃ v, m a = some v ∧ Segment m next (next v) l q

namespace Segment
variable {m m' : Mem A α} {next : α → Option A} {p q : Option A} {l : List A}

theorem nil : Segment m next p [] p := rfl

theorem cons {a : A} {v : α} (hv : m a = some v) (h : Segment m next (next v) l q) :
    Segment m next (some a) (a :: l) q := ⟨rfl, v, hv, h⟩

/-- A segment reads only its own addresses. -/
theorem congr (h : Segment m next p l q) (same : ∀ a ∈ l, m' a = m a) :
    Segment m' next p l q := by
  induction l generalizing p with
  | nil => exact h
  | cons a rest ih =>
      obtain ⟨hp, v, hv, hs⟩ := h
      refine ⟨hp, v, (same a (by simp)).trans hv, ih hs fun b hb => same b (by simp [hb])⟩

/-- A write outside the segment keeps it. -/
theorem update [DecidableEq A] (h : Segment m next p l q) {a : A} (ha : a ∉ l) (v : Option α) :
    Segment (Function.update m a v) next p l q :=
  h.congr fun b hb => Function.update_of_ne (fun he : b = a => ha (he ▸ hb)) v m

/-- A write that keeps the link of a cell keeps the segment. -/
theorem rewrite [DecidableEq A] (h : Segment m next p l q) {a : A} {v v' : α} (hv : m a = some v)
    (link : next v' = next v) : Segment (Function.update m a (some v')) next p l q := by
  induction l generalizing p with
  | nil => exact h
  | cons b rest ih =>
      obtain ⟨hp, u, hu, hs⟩ := h
      by_cases hb : b = a
      · subst b
        cases hv.symm.trans hu
        exact ⟨hp, v', Function.update_self _ _ _, link ▸ ih hs⟩
      · exact ⟨hp, u, (Function.update_of_ne hb _ _).trans hu, ih hs⟩

/-- Two segments that meet are one segment. -/
theorem append {l' : List A} {r : Option A} (h : Segment m next p l q)
    (h' : Segment m next q l' r) : Segment m next p (l ++ l') r := by
  induction l generalizing p with
  | nil =>
      cases h
      exact h'
  | cons a rest ih =>
      obtain ⟨hp, v, hv, hs⟩ := h
      exact ⟨hp, v, hv, ih hs⟩

/-- The pointer and the end determine a segment that ends at the null pointer. -/
theorem unique {l' : List A} (h : Segment m next p l none) (h' : Segment m next p l' none) :
    l = l' := by
  induction l generalizing p l' with
  | nil =>
      cases l' with
      | nil => rfl
      | cons b rest => exact absurd (h.symm.trans h'.1) (by simp)
  | cons a rest ih =>
      obtain ⟨hp, v, hv, hs⟩ := h
      cases l' with
      | nil => exact absurd (hp.symm.trans h') (by simp)
      | cons b rest' =>
          obtain ⟨hp', v', hv', hs'⟩ := h'
          have hab : a = b := Option.some.inj (hp.symm.trans hp')
          subst b
          have hvv : v = v' := Option.some.inj (hv.symm.trans hv')
          subst v'
          rw [ih hs hs']

end Segment

end SamplePrograms.Memory
