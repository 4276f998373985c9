import Mathlib.Data.List.Basic
import Mathlib.Data.List.Count
import Mathlib.Data.List.Nodup
import Mathlib.Data.Finset.Card

/-!
# Lists with one entry for each key

An entry joins the end of a list unless the list has an entry with the same
key. Many additions keep the first entry for each key, in order of arrival.
-/

namespace SamplePrograms.FirstOfKey

variable {α κ : Type*} [DecidableEq κ] {key : α → κ}

variable (key) in
/-- Append an entry unless its key is present. -/
def add (entries : List α) (x : α) : List α :=
  if key x ∈ entries.map key then entries else entries ++ [x]

variable (key) in
/-- Add the entries of a list one after another. -/
def addAll (entries xs : List α) : List α := xs.foldl (add key) entries

theorem add_of_mem {entries : List α} {x : α} (h : key x ∈ entries.map key) :
    add key entries x = entries := if_pos h

theorem mem_add {entries : List α} {x y : α} (h : y ∈ add key entries x) :
    y ∈ entries ∨ y = x := by
  unfold add at h
  split at h
  · exact Or.inl h
  · simpa using h

theorem keys_add (entries : List α) (x : α) (k : κ) :
    k ∈ (add key entries x).map key ↔ k ∈ entries.map key ∨ k = key x := by
  unfold add
  split
  case isTrue h =>
    constructor
    · exact Or.inl
    · rintro (hk | rfl)
      · exact hk
      · exact h
  case isFalse h => simp

theorem nodup_add {entries : List α} (h : (entries.map key).Nodup) (x : α) :
    ((add key entries x).map key).Nodup := by
  unfold add
  split
  case isTrue => exact h
  case isFalse hx =>
    rw [List.map_append, List.map_singleton, ← List.concat_eq_append]
    exact h.concat hx

@[simp] theorem addAll_nil (entries : List α) : addAll key entries [] = entries := rfl

@[simp] theorem addAll_cons (entries : List α) (x : α) (xs : List α) :
    addAll key entries (x :: xs) = addAll key (add key entries x) xs := rfl

theorem addAll_append (entries xs ys : List α) :
    addAll key entries (xs ++ ys) = addAll key (addAll key entries xs) ys :=
  List.foldl_append

/-- Additions list by list are additions of the concatenation. -/
theorem foldl_addAll (entries : List α) (xss : List (List α)) :
    xss.foldl (addAll key) entries = addAll key entries xss.flatten := by
  induction xss generalizing entries with
  | nil => rfl
  | cons xs rest ih =>
      rw [List.foldl_cons, ih, List.flatten_cons, addAll_append]

theorem mem_addAll {entries xs : List α} {y : α} (h : y ∈ addAll key entries xs) :
    y ∈ entries ∨ y ∈ xs := by
  induction xs generalizing entries with
  | nil => exact Or.inl h
  | cons x rest ih =>
      rcases ih h with hy | hy
      · rcases mem_add hy with hy | rfl
        · exact Or.inl hy
        · exact Or.inr List.mem_cons_self
      · exact Or.inr (List.mem_cons_of_mem x hy)

theorem keys_addAll (entries xs : List α) (k : κ) :
    k ∈ (addAll key entries xs).map key ↔ k ∈ entries.map key ∨ k ∈ xs.map key := by
  induction xs generalizing entries with
  | nil => simp
  | cons x rest ih =>
      rw [addAll_cons, ih, keys_add, List.map_cons, List.mem_cons, or_assoc]

theorem nodup_addAll {entries : List α} (h : (entries.map key).Nodup) (xs : List α) :
    ((addAll key entries xs).map key).Nodup := by
  induction xs generalizing entries with
  | nil => exact h
  | cons x rest ih => exact ih (nodup_add h x)

/-- There are as many entries as different keys. -/
theorem length_addAll (xs : List α) : (addAll key [] xs).length = (xs.map key).toFinset.card := by
  have none : (([] : List α).map key).Nodup := List.nodup_nil
  have nodup := nodup_addAll none xs
  have keys : ((addAll key [] xs).map key).toFinset = (xs.map key).toFinset := by
    ext k
    rw [List.mem_toFinset, List.mem_toFinset, keys_addAll]
    simp
  calc (addAll key [] xs).length = ((addAll key [] xs).map key).length :=
      (List.length_map key).symm
    _ = ((addAll key [] xs).map key).toFinset.card := (List.toFinset_card_of_nodup nodup).symm
    _ = (xs.map key).toFinset.card := by rw [keys]

/-- Entries whose keys are all present change nothing. -/
theorem addAll_of_mem {entries xs : List α} (h : ∀ x ∈ xs, key x ∈ entries.map key) :
    addAll key entries xs = entries := by
  induction xs with
  | nil => rfl
  | cons x rest ih =>
      rw [addAll_cons, add_of_mem (h x List.mem_cons_self)]
      exact ih fun y hy => h y (List.mem_cons_of_mem x hy)

/-- Adding a list for each occurrence of an element is adding it once, if there is one. -/
theorem addAll_flatMap_ite {β : Type*} [DecidableEq β] (entries xs : List α) (b : β) (l : List β) :
    addAll key entries (l.flatMap fun c => if b = c then xs else []) =
      if b ∈ l then addAll key entries xs else entries := by
  induction l generalizing entries with
  | nil => rfl
  | cons c l ih =>
      rw [List.flatMap_cons, addAll_append, ih]
      by_cases h : b = c
      · have again : addAll key (addAll key entries xs) xs = addAll key entries xs :=
          addAll_of_mem fun x hx =>
            (keys_addAll entries xs (key x)).mpr (Or.inr (List.mem_map_of_mem hx))
        simp [h, again]
      · simp [h]

/-- Entries with new and different keys are appended. -/
theorem addAll_of_nodup {entries xs : List α} (h : ((entries ++ xs).map key).Nodup) :
    addAll key entries xs = entries ++ xs := by
  induction xs generalizing entries with
  | nil => simp
  | cons x rest ih =>
      have new : key x ∉ entries.map key := by
        rw [List.map_append, List.map_cons] at h
        exact fun old => List.disjoint_of_nodup_append h old List.mem_cons_self
      rw [addAll_cons, add, if_neg new, ih (by simpa using h), List.append_assoc,
        List.singleton_append]

/-- Nothing is lost when the keys tell the entries apart. -/
theorem mem_addAll_iff {xs : List α}
    (apart : ∀ x ∈ xs, ∀ y ∈ xs, key x = key y → x = y) (y : α) :
    y ∈ addAll key [] xs ↔ y ∈ xs := by
  have of_entry : ∀ x ∈ addAll key [] xs, x ∈ xs := fun x hx =>
    (mem_addAll hx).resolve_left List.not_mem_nil
  refine ⟨of_entry y, fun hy => ?_⟩
  have present : key y ∈ (addAll key [] xs).map key :=
    (keys_addAll [] xs (key y)).mpr (Or.inr (List.mem_map_of_mem hy))
  obtain ⟨x, hx, same⟩ := List.mem_map.mp present
  exact apart x (of_entry x hx) y hy same ▸ hx

theorem length_addAll_le {xs ys : List α} (sub : xs ⊆ ys) :
    (addAll key [] xs).length ≤ ys.length := by
  have none : (([] : List α).map key).Nodup := List.nodup_nil
  have nodup : (addAll key [] xs).Nodup := (nodup_addAll none xs).of_map key
  have within : addAll key [] xs ⊆ ys := fun x hx =>
    sub ((mem_addAll hx).resolve_left List.not_mem_nil)
  exact (List.subperm_of_subset nodup within).length_le

/-- A key that is present belongs to exactly one entry. -/
theorem countP_eq_one {entries : List α} (h : (entries.map key).Nodup) {k : κ}
    (hk : k ∈ entries.map key) : entries.countP (fun x => key x = k) = 1 := by
  have one : (entries.map key).count k = 1 := List.count_eq_one_of_mem h hk
  rw [List.count, List.countP_map] at one
  rw [← one]
  congr 1

end SamplePrograms.FirstOfKey
