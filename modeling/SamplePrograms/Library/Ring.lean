import SamplePrograms.Library.Memory
import Mathlib.Data.List.Chain

/-!
# Doubly linked rings

A ring starts and ends at its head. Each element points to the next one, and
the next one points back. The links are two partial functions, so that the
rules do not depend on the records that hold them.
-/

namespace SamplePrograms

variable {A : Type*}

/-- The elements of a chain are related if they are related as neighbours. -/
theorem isChain_imp_inner {R S : A → A → Prop} {l : List A} (h : l.IsChain R)
    (imp : ∀ a b, a ∈ l.dropLast → b ∈ l.tail → R a b → S a b) : l.IsChain S := by
  induction l with
  | nil => exact .nil
  | cons a rest ih =>
      cases rest with
      | nil => exact .singleton a
      | cons b rest =>
          rw [List.isChain_cons_cons] at h ⊢
          constructor
          · apply imp a b
            · simp
            · simp
            · exact h.1
          · apply ih h.2
            intro x y hx hy
            apply imp x y
            · rw [List.dropLast_cons_cons]
              exact List.mem_cons_of_mem a hx
            · exact List.mem_cons_of_mem b hy

/-- The second element follows the first, and the first precedes the second. -/
def Linked (next prev : A → Option A) (a b : A) : Prop := next a = some b ∧ prev b = some a

/-- The ring from the head through the elements and back to the head. -/
def Ring (next prev : A → Option A) (head : A) (elems : List A) : Prop :=
  (head :: (elems ++ [head])).IsChain (Linked next prev)

/-- Each element of a ring lies between two others, or between the head and itself. -/
theorem exists_neighbours (head : A) (front back : List A) :
    ∃ X p n Y, head :: front = X ++ [p] ∧ back ++ [head] = n :: Y ∧
      p ∈ head :: (front ++ back) ∧ n ∈ head :: (front ++ back) := by
  obtain ⟨X, p, hp⟩ : ∃ X p, head :: front = X ++ [p] :=
    (List.eq_nil_or_concat' (head :: front)).resolve_left (by simp)
  obtain ⟨n, Y, hn⟩ : ∃ n Y, back ++ [head] = n :: Y := List.exists_cons_of_ne_nil (by simp)
  refine ⟨X, p, n, Y, hp, hn, ?_, ?_⟩
  · have hm : p ∈ head :: front := by simp [hp]
    exact List.mem_append_left back hm
  · have hm : n ∈ back ++ [head] := by simp [hn]
    rcases List.mem_append.mp hm with hm | hm
    · exact List.mem_cons_of_mem head (List.mem_append_right front hm)
    · exact List.mem_singleton.mp hm ▸ List.mem_cons_self

namespace Ring
variable {next prev next' prev' : A → Option A} {head : A} {elems : List A}

theorem empty (hn : next head = some head) (hp : prev head = some head) :
    Ring next prev head [] := by
  simp [Ring, Linked, hn, hp]

/-- A ring depends on the links of its elements only. -/
theorem congr (h : Ring next prev head elems) (same_next : ∀ a ∈ head :: elems, next' a = next a)
    (same_prev : ∀ a ∈ head :: elems, prev' a = prev a) : Ring next' prev' head elems := by
  apply isChain_imp_inner h
  intro a b ha hb hl
  have ha' : a ∈ head :: elems := by
    have hd : (head :: (elems ++ [head])).dropLast = head :: elems := by
      rw [← List.cons_append, List.dropLast_concat]
    rwa [hd] at ha
  have hb' : b ∈ head :: elems := by
    simpa [or_comm] using hb
  exact ⟨(same_next a ha').trans hl.1, (same_prev b hb').trans hl.2⟩

/-- The first element follows the head. -/
theorem first {n : A} {rest : List A} (h : Ring next prev head elems)
    (hn : elems ++ [head] = n :: rest) : next head = some n ∧ prev n = some head := by
  rw [Ring, hn, List.isChain_cons_cons] at h
  exact h.1

/-- The neighbours of an element. -/
theorem around {front back Y : List A} {p r n : A} (h : Ring next prev head (front ++ r :: back))
    {X : List A} (hp : head :: front = X ++ [p]) (hn : back ++ [head] = n :: Y) :
    (next p = some r ∧ prev r = some p) ∧ next r = some n ∧ prev n = some r := by
  have cycle : head :: (front ++ r :: back ++ [head]) = X ++ p :: r :: n :: Y := by
    calc head :: (front ++ r :: back ++ [head])
        = (head :: front) ++ r :: (back ++ [head]) := by simp
      _ = X ++ p :: r :: n :: Y := by simp [hp, hn]
  rw [Ring, cycle, List.isChain_append_cons_cons, List.isChain_cons_cons] at h
  exact ⟨h.2.1, h.2.2.1⟩

/-- Following `next` from the head passes the elements and ends at the head. -/
theorem segment {α : Type*} {m : Memory.Mem A α} {link : α → Option A} {f : A → α}
    (h : Ring (fun a => link (f a)) prev head elems) (live : ∀ a ∈ elems, m a = some (f a)) :
    Memory.Segment m link (link (f head)) elems (some head) := by
  have walk : ∀ (l : List A) (a : A), (∀ b ∈ l, m b = some (f b)) →
      (a :: (l ++ [head])).IsChain (Linked (fun a => link (f a)) prev) →
      Memory.Segment m link (link (f a)) l (some head) := by
    intro l
    induction l with
    | nil =>
        intro a _ hc
        exact (List.isChain_cons_cons.mp hc).1.1
    | cons b rest ih =>
        intro a hl hc
        have hb : link (f a) = some b := (List.isChain_cons_cons.mp hc).1.1
        rw [hb]
        apply Memory.Segment.cons (hl b List.mem_cons_self)
        apply ih
        · exact fun c hm => hl c (List.mem_cons_of_mem b hm)
        · exact (List.isChain_cons_cons.mp hc).2
  exact walk elems head live h

/-- Backwards, the links form a ring with the elements in reverse order. -/
theorem reverse (h : Ring next prev head elems) : Ring prev next head elems.reverse := by
  have back : (head :: (elems.reverse ++ [head])) = (head :: (elems ++ [head])).reverse := by simp
  rw [Ring, back, List.isChain_reverse]
  exact h.imp fun a b linked => linked.symm

variable [DecidableEq A]

/-- A new element is linked in after the head. -/
theorem insert (h : Ring next prev head elems) (nodup : (head :: elems).Nodup) {t n : A}
    {rest : List A} (new : t ∉ head :: elems) (hn : elems ++ [head] = n :: rest) :
    Ring (Function.update (Function.update next head (some t)) t (some n))
      (Function.update (Function.update prev t (some head)) n (some t)) head (t :: elems) := by
  have nodup' : (n :: rest).Nodup := by
    rw [← hn]
    exact List.nodup_append_comm.mp nodup
  have htn : t ≠ n := by
    rintro rfl
    have hm : t ∈ elems ++ [head] := by simp [hn]
    exact new (by simpa [or_comm] using hm)
  have hth : head ≠ t := fun he => new (by simp [he])
  rw [Ring, hn] at h
  rw [Ring, List.cons_append, hn, List.isChain_cons_cons, List.isChain_cons_cons]
  refine ⟨⟨?_, ?_⟩, ⟨?_, ?_⟩, ?_⟩
  · rw [Function.update_of_ne hth, Function.update_self]
  · rw [Function.update_of_ne htn, Function.update_self]
  · exact Function.update_self _ _ _
  · exact Function.update_self _ _ _
  · apply isChain_imp_inner (List.isChain_cons_cons.mp h).2
    intro a b ha hb hl
    have ha' : a ∈ elems := by
      rw [← hn, List.dropLast_concat] at ha
      exact ha
    have hah : a ≠ head := fun he => (List.nodup_cons.mp nodup).1 (he ▸ ha')
    have hat : a ≠ t := fun he => new (he ▸ List.mem_cons_of_mem head ha')
    have hbn : b ≠ n := fun he => (List.nodup_cons.mp nodup').1 (he ▸ hb)
    have hbt : b ≠ t := by
      intro he
      have hm : b ∈ elems ++ [head] := by
        rw [hn]
        exact List.mem_cons_of_mem n hb
      exact new (he ▸ (by simpa [or_comm] using hm))
    constructor
    · rw [Function.update_of_ne hat, Function.update_of_ne hah]
      exact hl.1
    · rw [Function.update_of_ne hbn, Function.update_of_ne hbt]
      exact hl.2

/-- An element is taken out by linking its neighbours. -/
theorem unlink {front back X Y : List A} {p r n : A}
    (h : Ring next prev head (front ++ r :: back)) (nodup : (head :: (front ++ r :: back)).Nodup)
    (hp : head :: front = X ++ [p]) (hn : back ++ [head] = n :: Y) :
    Ring (Function.update next p (some n)) (Function.update prev n (some p)) head
      (front ++ back) := by
  have cycle : head :: (front ++ r :: back ++ [head]) = X ++ p :: r :: n :: Y := by
    calc head :: (front ++ r :: back ++ [head])
        = (head :: front) ++ r :: (back ++ [head]) := by simp
      _ = X ++ p :: r :: n :: Y := by simp [hp, hn]
  have cycle' : head :: (front ++ back ++ [head]) = X ++ p :: n :: Y := by
    calc head :: (front ++ back ++ [head])
        = (head :: front) ++ (back ++ [head]) := by simp
      _ = X ++ p :: n :: Y := by simp [hp, hn]
  have front_nodup : (X ++ [p]).Nodup := by
    rw [← hp]
    exact nodup.sublist (by simp)
  have back_nodup : (n :: Y).Nodup := by
    rw [← hn]
    refine List.nodup_append_comm.mp (nodup.sublist ?_)
    simp
  have disjoint : ∀ a ∈ back, a ∉ head :: front := by
    intro a ha hf
    have parts : (head :: front ++ r :: back).Nodup := by simpa using nodup
    exact List.disjoint_of_nodup_append parts hf (List.mem_cons_of_mem r ha)
  rw [Ring, cycle, List.isChain_append_cons_cons, List.isChain_cons_cons] at h
  obtain ⟨before, -, -, after⟩ := h
  rw [Ring, cycle', List.isChain_append_cons_cons]
  refine ⟨?_, ⟨Function.update_self _ _ _, Function.update_self _ _ _⟩, ?_⟩
  · apply isChain_imp_inner before
    intro a b ha hb hl
    rw [List.dropLast_concat] at ha
    have hap : a ≠ p := by
      rintro rfl
      exact List.disjoint_of_nodup_append front_nodup ha (by simp)
    have hbn : b ≠ n := by
      rintro rfl
      rw [← hp, List.tail_cons] at hb
      have hm : b ∈ back ++ [head] := by simp [hn]
      rcases List.mem_append.mp hm with hm | hm
      · exact disjoint b hm (List.mem_cons_of_mem head hb)
      · rw [List.mem_singleton.mp hm] at hb
        exact (List.nodup_cons.mp nodup).1 (by simp [hb])
    rw [Linked, Function.update_of_ne hap, Function.update_of_ne hbn]
    exact hl
  · apply isChain_imp_inner after
    intro a b ha hb hl
    have hap : a ≠ p := by
      rintro rfl
      rw [← hn, List.dropLast_concat] at ha
      exact disjoint a ha (by simp [hp])
    have hbn : b ≠ n := fun he => (List.nodup_cons.mp back_nodup).1 (he ▸ hb)
    rw [Linked, Function.update_of_ne hap, Function.update_of_ne hbn]
    exact hl

end Ring

end SamplePrograms
