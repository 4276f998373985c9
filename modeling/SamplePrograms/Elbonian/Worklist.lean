import SamplePrograms.Elbonian.Model
import SamplePrograms.Library.Ring

/-!
# The worklist as a list

The elements of the worklist form a ring with the head. The head holds no data
and counts the elements. An insertion adds an element after the head unless one
holds the same data. Of the elements with the least label, the first is popped.

## Implementation notes

An element that has been popped is not freed at once. Its address stays live
beside those of the ring.
-/

namespace SamplePrograms.Elbonian
open Memory

variable {V : Type*}

/-! ## The least label -/

/-- The first entry with the least key, where earlier entries have led to `best`. -/
def firstLeast (key : V → BitVec 32) : List V → V → V
  | [], best => best
  | x :: rest, best =>
      if (key x).slt (key best) then firstLeast key rest x else firstLeast key rest best

section FirstLeast
variable (key : V → BitVec 32)

theorem firstLeast_mem (l : List V) (best : V) : firstLeast key l best ∈ best :: l := by
  induction l generalizing best with
  | nil => exact List.mem_singleton.mpr rfl
  | cons x rest ih =>
      rw [firstLeast]
      split_ifs
      · exact List.mem_cons_of_mem best (ih x)
      · rcases List.mem_cons.mp (ih best) with h | h
        · rw [h]
          exact List.mem_cons_self
        · exact List.mem_cons_of_mem best (List.mem_cons_of_mem x h)

theorem firstLeast_le (l : List V) (best : V) :
    ∀ x ∈ best :: l, (key (firstLeast key l best)).toInt ≤ (key x).toInt := by
  induction l generalizing best with
  | nil =>
      intro x hx
      rw [List.mem_singleton.mp hx]
      exact le_rfl
  | cons y rest ih =>
      intro x hx
      rw [firstLeast]
      split_ifs with h
      · rw [BitVec.slt_iff_toInt_lt] at h
        rcases List.mem_cons.mp hx with rfl | hx
        · exact (ih y y List.mem_cons_self).trans h.le
        · exact ih y x hx
      · rw [BitVec.slt_iff_toInt_lt, not_lt] at h
        rcases List.mem_cons.mp hx with rfl | hx
        · exact ih x x List.mem_cons_self
        · rcases List.mem_cons.mp hx with rfl | hx
          · exact (ih best best List.mem_cons_self).trans h
          · exact ih best x (List.mem_cons_of_mem best hx)

/-- Only the keys of the entries count. -/
theorem firstLeast_map {W : Type*} (f : W → V) (l : List W) (best : W) :
    f (firstLeast (fun x => key (f x)) l best) = firstLeast key (l.map f) (f best) := by
  induction l generalizing best with
  | nil => rfl
  | cons x rest ih =>
      simp only [firstLeast, List.map_cons]
      split_ifs
      · exact ih x
      · exact ih best

end FirstLeast

/-! ## The fields of the elements -/

/-- Elements with their fields given by address. -/
def elements (data next prev owner : Nat → Ptr) (count : Nat → Nat) (a : Nat) : DijksListNode :=
  ⟨data a, next a, prev a, owner a, count a⟩

section Fields
variable {lists : Heap DijksListNode} {live : Set Nat} {data next prev owner : Nat → Ptr}
variable {count : Nat → Nat} {a : Nat}

theorem holds_setData (h : lists.Holds live (elements data next prev owner count)) (ha : a ∈ live)
    (q : Ptr) : ∃ lists', lists.modify (some a) (fun e => { e with data := q }) = .ok lists' ∧
      lists'.Holds live (elements (Function.update data a q) next prev owner count) := by
  apply h.modify ha
  · simp [elements]
  · intro b hb
    simp [elements, hb]

theorem holds_setNext (h : lists.Holds live (elements data next prev owner count)) (ha : a ∈ live)
    (q : Ptr) : ∃ lists', lists.modify (some a) (fun e => { e with next := q }) = .ok lists' ∧
      lists'.Holds live (elements data (Function.update next a q) prev owner count) := by
  apply h.modify ha
  · simp [elements]
  · intro b hb
    simp [elements, hb]

theorem holds_setPrev (h : lists.Holds live (elements data next prev owner count)) (ha : a ∈ live)
    (q : Ptr) : ∃ lists', lists.modify (some a) (fun e => { e with prev := q }) = .ok lists' ∧
      lists'.Holds live (elements data next (Function.update prev a q) owner count) := by
  apply h.modify ha
  · simp [elements]
  · intro b hb
    simp [elements, hb]

theorem holds_setHead (h : lists.Holds live (elements data next prev owner count)) (ha : a ∈ live)
    (q : Ptr) : ∃ lists', lists.modify (some a) (fun e => { e with head := q }) = .ok lists' ∧
      lists'.Holds live (elements data next prev (Function.update owner a q) count) := by
  apply h.modify ha
  · simp [elements]
  · intro b hb
    simp [elements, hb]

theorem holds_setCount (h : lists.Holds live (elements data next prev owner count)) (ha : a ∈ live)
    (g : Nat → Nat) :
    ∃ lists', lists.modify (some a) (fun e => { e with count := g e.count }) = .ok lists' ∧
      lists'.Holds live
        (elements data next prev owner (Function.update count a (g (count a)))) := by
  apply h.modify ha
  · simp [elements]
  · intro b hb
    simp [elements, hb]

theorem holds_calloc (h : lists.Holds live (elements data next prev owner count)) :
    (lists.alloc ⟨none, none, none, none, 0⟩).2.Holds (insert lists.next live)
      (elements (Function.update data lists.next none) (Function.update next lists.next none)
        (Function.update prev lists.next none) (Function.update owner lists.next none)
        (Function.update count lists.next 0)) := by
  convert h.alloc ⟨none, none, none, none, 0⟩ using 1
  funext b
  by_cases hb : b = lists.next
  · subst b
    simp [elements]
  · simp [elements, hb]

end Fields

/-! ## The ring of elements -/

variable (place : V → Ptr)

/-- The worklist with its elements, each at its address and with what it stands
for, and the elements that were popped. -/
structure WorklistAt (lists : Heap DijksListNode) (head : Nat) (items : List (Nat × V))
    (popped : List Nat) (data next prev owner : Nat → Ptr) (count : Nat → Nat) : Prop where
  cells : lists.Holds {a | a ∈ head :: items.map Prod.fst ++ popped}
    (elements data next prev owner count)
  nodup : (head :: items.map Prod.fst ++ popped).Nodup
  ring : Ring next prev head (items.map Prod.fst)
  headData : data head = none
  size : count head = items.length
  itemData : ∀ x ∈ items, data x.1 = place x.2

/-- The worklist holds the items. -/
def Worklist (lists : Heap DijksListNode) (head : Nat) (items : List (Nat × V))
    (popped : List Nat) : Prop :=
  ∃ data next prev owner count,
    WorklistAt place lists head items popped data next prev owner count

section Traversal
variable {place} {lists : Heap DijksListNode} {items : List (Nat × V)}

/-- Each item has its element in memory. -/
def Stored (place : V → Ptr) (lists : Heap DijksListNode) (items : List (Nat × V)) : Prop :=
  ∀ x ∈ items, ∃ e, lists.cell x.1 = some e ∧ e.data = place x.2

theorem Stored.tail {x : Nat × V} (h : Stored place lists (x :: items)) :
    Stored place lists items := fun y hy => h y (List.mem_cons_of_mem x hy)

theorem findData_eq (key : Ptr) {p q : Ptr}
    (h : Segment lists.cell DijksListNode.next p (items.map Prod.fst) q)
    (stored : Stored place lists items) :
    findData lists key items.length p = .ok (items.any fun x => place x.2 = key) := by
  induction items generalizing p with
  | nil => rfl
  | cons x rest ih =>
      obtain ⟨rfl, e, he, hs⟩ := h
      obtain ⟨e', he', data⟩ := stored x List.mem_cons_self
      cases he.symm.trans he'
      simp only [List.length_cons, findData, load_live he, bind, Except.bind, data]
      by_cases hk : place x.2 = key
      · simp [hk, pure, Except.pure]
      · rw [if_neg hk, ih hs stored.tail]
        simp [hk]

/-- Every entry has a node in memory, labelled with its key. -/
def Labelled (place : V → Ptr) (nodes : Heap Node) (key : V → BitVec 32) (l : List V) : Prop :=
  ∀ v ∈ l, ∃ a n, place v = some a ∧ nodes.cell a = some n ∧ n.tempLabel = key v

theorem labelOf_eq {nodes : Heap Node} {key : V → BitVec 32} {l : List V}
    (labels : Labelled place nodes key l) {v : V} (hv : v ∈ l) {b : Nat} {e : DijksListNode}
    (he : lists.cell b = some e) (data : e.data = place v) :
    labelOf ⟨nodes, lists⟩ (some b) = .ok (key v) := by
  obtain ⟨a, n, ha, hn, label⟩ := labels v hv
  simp only [labelOf, load_live he, data, ha, load_live hn, label, bind, Except.bind, pure,
    Except.pure]

theorem findMin_eq {nodes : Heap Node} {key : V → BitVec 32} {p q : Ptr}
    (h : Segment lists.cell DijksListNode.next p (items.map Prod.fst) q)
    (stored : Stored place lists items) (labels : Labelled place nodes key (items.map Prod.snd))
    (best : Nat × V) :
    findMin ⟨nodes, lists⟩ items.length p (some best.1) (key best.2) =
      .ok (some (firstLeast (fun x => key x.2) items best).1) := by
  induction items generalizing p best with
  | nil => rfl
  | cons x rest ih =>
      obtain ⟨rfl, e, he, hs⟩ := h
      obtain ⟨e', he', data⟩ := stored x List.mem_cons_self
      cases he.symm.trans he'
      have label := labelOf_eq labels List.mem_cons_self he data
      have labels' : Labelled place nodes key (rest.map Prod.snd) :=
        fun v hv => labels v (List.mem_cons_of_mem x.2 hv)
      simp only [List.length_cons, findMin, label, load_live he, bind, Except.bind, firstLeast]
      split_ifs
      · exact ih hs stored.tail labels' x
      · exact ih hs stored.tail labels' best

end Traversal

namespace WorklistAt
variable {place} {lists : Heap DijksListNode} {head : Nat} {items : List (Nat × V)}
variable {popped : List Nat} {data next prev owner : Nat → Ptr} {count : Nat → Nat}

theorem mem_head (_ : WorklistAt place lists head items popped data next prev owner count) :
    head ∈ {a | a ∈ head :: items.map Prod.fst ++ popped} := List.mem_cons_self

theorem stored (h : WorklistAt place lists head items popped data next prev owner count) :
    Stored place lists items := by
  intro x hx
  refine ⟨_, h.cells x.1 ?_, h.itemData x hx⟩
  exact List.mem_cons_of_mem head (List.mem_append_left popped (List.mem_map_of_mem hx))

theorem segment (h : WorklistAt place lists head items popped data next prev owner count) :
    Segment lists.cell DijksListNode.next (next head) (items.map Prod.fst) (some head) := by
  refine Ring.segment (f := elements data next prev owner count) h.ring ?_
  intro a ha
  exact h.cells a (List.mem_cons_of_mem head (List.mem_append_left popped ha))

/-- What is on the list already is not added. -/
theorem insert_present (h : WorklistAt place lists head items popped data next prev owner count)
    {key : Ptr} (found : ∃ x ∈ items, place x.2 = key) :
    insertIntoDijksList lists (some head) key = .ok lists := by
  have search : (items.any fun x => place x.2 = key) = true := by simpa using found
  have search' := (findData_eq key h.segment h.stored).trans (congrArg _ search)
  rw [← h.size] at search'
  simp only [insertIntoDijksList, h.cells.load h.mem_head, elements, search', bind, Except.bind,
    if_true, pure, Except.pure]

/-- What is not on the list is added after the head. -/
theorem insert_absent (h : WorklistAt place lists head items popped data next prev owner count)
    {v : V} (absent : ∀ x ∈ items, place x.2 ≠ place v) :
    ∃ lists' t, insertIntoDijksList lists (some head) (place v) = .ok lists' ∧
      Worklist place lists' head ((t, v) :: items) popped := by
  have search : (items.any fun x => place x.2 = place v) = false := by simpa using absent
  have search' := (findData_eq (place v) h.segment h.stored).trans (congrArg _ search)
  rw [← h.size] at search'
  obtain ⟨n, rest, hn⟩ : ∃ n rest, items.map Prod.fst ++ [head] = n :: rest :=
    List.exists_cons_of_ne_nil (by simp)
  have first := (h.ring.first hn).1
  have hn_mem : n ∈ head :: items.map Prod.fst := by
    have hm : n ∈ items.map Prod.fst ++ [head] := by simp [hn]
    rw [List.mem_append, List.mem_singleton] at hm
    exact List.mem_cons.mpr hm.symm
  have new : lists.next ∉ head :: items.map Prod.fst ++ popped := by
    intro hm
    exact absurd (h.cells.lt_next hm) (lt_irrefl _)
  have cells₀ := holds_calloc h.cells
  generalize ht : lists.next = t at new cells₀
  have live_t : t ∈ insert t {a | a ∈ head :: items.map Prod.fst ++ popped} := Set.mem_insert _ _
  have live_head : head ∈ insert t {a | a ∈ head :: items.map Prod.fst ++ popped} :=
    Set.mem_insert_of_mem t h.mem_head
  have live_n : n ∈ insert t {a | a ∈ head :: items.map Prod.fst ++ popped} :=
    Set.mem_insert_of_mem t (List.mem_append_left popped hn_mem)
  obtain ⟨lists₁, e₁, cells₁⟩ := holds_setData cells₀ live_t (place v)
  obtain ⟨lists₂, e₂, cells₂⟩ := holds_setNext cells₁ live_head (some t)
  obtain ⟨lists₃, e₃, cells₃⟩ := holds_setPrev cells₂ live_t (some head)
  obtain ⟨lists₄, e₄, cells₄⟩ := holds_setNext cells₃ live_t (some n)
  obtain ⟨lists₅, e₅, cells₅⟩ := holds_setPrev cells₄ live_n (some t)
  obtain ⟨lists₆, e₆, cells₆⟩ := holds_setCount cells₅ live_head fun k => k + 1
  have hht : head ≠ t := fun he => new (by simp [he])
  have new_ring : t ∉ head :: items.map Prod.fst := fun hm => new (List.mem_append_left popped hm)
  have cells : lists₆.Holds {a | a ∈ head :: ((t, v) :: items).map Prod.fst ++ popped} _ :=
    cells₆.mono fun a ha => by simpa [or_left_comm] using ha
  refine ⟨lists₆, t, ?_, _, _, _, _, _, ⟨cells, ?_, ?_, ?_, ?_, ?_⟩⟩
  · have load₁ := cells₁.load live_head
    simp only [elements, Function.update_of_ne hht, first] at load₁
    simp only [insertIntoDijksList, h.cells.load h.mem_head, elements, search', bind, Except.bind,
      Heap.alloc_fst, ht, e₁, load₁, e₂, e₃, e₄, e₅, e₆]
    rfl
  · have nodup : (t :: (head :: items.map Prod.fst ++ popped)).Nodup :=
      List.nodup_cons.mpr ⟨new, h.nodup⟩
    exact (List.Perm.swap head t _).nodup nodup
  · apply (h.ring.insert (h.nodup.sublist (List.sublist_append_left _ _)) new_ring hn).congr
    · intro a _
      simp only [Function.update_apply]
      split_ifs <;> rfl
    · intro a _
      simp only [Function.update_apply]
      split_ifs <;> rfl
  · simp [hht, h.headData]
  · simp [hht, h.size]
  · intro x hx
    rcases List.mem_cons.mp hx with rfl | hx
    · simp
    · have hxt : x.1 ≠ t := fun he =>
        new_ring (he ▸ List.mem_cons_of_mem head (List.mem_map_of_mem hx))
      simp [hxt, h.itemData x hx]

/-- An element is taken out of the ring. -/
theorem unlink {front back : List (Nat × V)} {r : Nat × V}
    (h : WorklistAt place lists head (front ++ r :: back) popped data next prev owner count) :
    ∃ lists', unlinkElement lists (some head) (some r.1) = .ok lists' ∧
      (∃ e, lists'.cell r.1 = some e ∧ e.data = place r.2) ∧
      Worklist place lists' head (front ++ back) (r.1 :: popped) := by
  obtain ⟨X, p, n, Y, hp, hn, mem_p, mem_n⟩ :=
    exists_neighbours head (front.map Prod.fst) (back.map Prod.fst)
  have ring := h.ring
  have nodup := h.nodup
  rw [List.map_append, List.map_cons] at ring nodup
  have perm : (r.1 :: (head :: (front.map Prod.fst ++ back.map Prod.fst) ++ popped)).Perm
      (head :: (front.map Prod.fst ++ r.1 :: back.map Prod.fst) ++ popped) :=
    (List.Perm.swap head r.1 _).trans ((List.perm_middle.symm.append_right popped).cons head)
  have apart := perm.nodup_iff.mpr nodup
  have ring' : ∀ a ∈ head :: (front.map Prod.fst ++ back.map Prod.fst), a ≠ r.1 :=
    fun a ha he => (List.nodup_cons.mp apart).1 (he ▸ List.mem_append_left popped ha)
  have hpr : p ≠ r.1 := ring' p mem_p
  obtain ⟨⟨-, prev_r⟩, next_r, -⟩ := ring.around hp hn
  have live : ∀ a ∈ r.1 :: (head :: (front.map Prod.fst ++ back.map Prod.fst) ++ popped),
      a ∈ {a | a ∈ head :: (front ++ r :: back).map Prod.fst ++ popped} := by
    intro a ha
    simpa using perm.mem_iff.mp ha
  have live_r := live r.1 List.mem_cons_self
  have live_p := live p (List.mem_cons_of_mem r.1 (List.mem_append_left popped mem_p))
  have live_n := live n (List.mem_cons_of_mem r.1 (List.mem_append_left popped mem_n))
  have load₀ := h.cells.load live_r
  obtain ⟨lists₁, e₁, cells₁⟩ := holds_setNext h.cells live_p (some n)
  have load₁ := cells₁.load live_r
  obtain ⟨lists₂, e₂, cells₂⟩ := holds_setPrev cells₁ live_n (some p)
  obtain ⟨lists₃, e₃, cells₃⟩ := holds_setPrev cells₂ live_r none
  obtain ⟨lists₄, e₄, cells₄⟩ := holds_setNext cells₃ live_r none
  obtain ⟨lists₅, e₅, cells₅⟩ := holds_setCount cells₄ h.mem_head fun k => k - 1
  simp only [elements, Function.update_of_ne hpr.symm, prev_r, next_r] at load₀ load₁
  have cells : lists₅.Holds {a | a ∈ head :: (front ++ back).map Prod.fst ++ r.1 :: popped} _ :=
    cells₅.mono fun a ha => live a (by
      rw [List.map_append] at ha
      exact List.perm_middle.mem_iff.mp ha)
  refine ⟨lists₅, ?_, ⟨_, cells₅ r.1 live_r, h.itemData r (by simp)⟩, _, _, _, _, _,
    ⟨cells, ?_, ?_, h.headData, ?_, ?_⟩⟩
  · simp only [unlinkElement, load₀, load₁, e₁, e₂, e₃, e₄, e₅, bind, Except.bind]
  · rw [List.map_append]
    exact List.perm_middle.nodup_iff.mpr apart
  · rw [List.map_append]
    apply (ring.unlink (nodup.sublist (List.sublist_append_left _ _)) hp hn).congr
    · intro a ha
      rw [Function.update_of_ne (ring' a ha)]
    · intro a ha
      rw [Function.update_of_ne (ring' a ha)]
  · simp [h.size]
  · intro x hx
    exact h.itemData x (List.perm_middle.mem_iff.mpr (List.mem_cons_of_mem r hx))

/-- The first element with the least label is popped. -/
theorem pop {x : Nat × V} {rest : List (Nat × V)}
    (h : WorklistAt place lists head (x :: rest) popped data next prev owner count)
    {nodes : Heap Node} {key : V → BitVec 32}
    (labels : Labelled place nodes key ((x :: rest).map Prod.snd)) :
    ∃ front r back lists', x :: rest = front ++ r :: back ∧
      r.2 = firstLeast key ((x :: rest).map Prod.snd) x.2 ∧
      popFromDijksList ⟨nodes, lists⟩ (some head) = .ok (lists', some r.1) ∧
      (∃ e, lists'.cell r.1 = some e ∧ e.data = place r.2) ∧
      Worklist place lists' head (front ++ back) (r.1 :: popped) := by
  have search := findMin_eq h.segment h.stored labels x
  have chosen := firstLeast_map key Prod.snd (x :: rest) x
  have hr : firstLeast (fun x => key x.2) (x :: rest) x ∈ x :: rest := by
    rcases List.mem_cons.mp (firstLeast_mem (fun x => key x.2) (x :: rest) x) with hr | hr
    · rw [hr]
      exact List.mem_cons_self
    · exact hr
  generalize firstLeast (fun x => key x.2) (x :: rest) x = r at search chosen hr
  obtain ⟨front, back, split⟩ := List.append_of_mem hr
  obtain ⟨e₀, he₀, data₀⟩ := h.stored x List.mem_cons_self
  have label := labelOf_eq labels List.mem_cons_self he₀ data₀
  have first : next head = some x.1 := (h.ring.first rfl).1
  rw [← h.size, first] at search
  have load_head := h.cells.load h.mem_head
  have taken := h
  rw [split] at taken
  obtain ⟨lists', unlinked, taken_out, list⟩ := taken.unlink
  refine ⟨front, r, back, lists', split, chosen, ?_, taken_out, list⟩
  simp only [popFromDijksList, load_head, elements, first, label, search, unlinked, bind,
    Except.bind, pure, Except.pure]

end WorklistAt

/-! ## The operations -/

namespace Worklist
variable {place} {lists : Heap DijksListNode} {head : Nat} {items : List (Nat × V)}
variable {popped : List Nat}

/-- The head counts the items. -/
theorem exists_head (h : Worklist place lists head items popped) :
    ∃ e, load lists.cell (some head) = .ok e ∧ e.count = items.length := by
  obtain ⟨data, next, prev, owner, count, h⟩ := h
  exact ⟨_, h.cells.load h.mem_head, h.size⟩

variable (place) in
/-- A cleared element becomes the head of an empty worklist. -/
theorem init (allocated : lists.cell head = some ⟨none, none, none, none, 0⟩) :
    ∃ lists', initDijksList lists (some head) = .ok lists' ∧ Worklist place lists' head [] [] := by
  have cells₀ : lists.Holds {a | a ∈ [head]}
      (elements (fun _ => none) (fun _ => none) (fun _ => none) (fun _ => none) fun _ => 0) := by
    intro a ha
    rw [List.mem_singleton.mp ha]
    exact allocated
  have live : head ∈ {a | a ∈ [head]} := List.mem_singleton.mpr rfl
  obtain ⟨lists₁, e₁, cells₁⟩ := holds_setCount cells₀ live fun _ => 0
  obtain ⟨lists₂, e₂, cells₂⟩ := holds_setHead cells₁ live (some head)
  obtain ⟨lists₃, e₃, cells₃⟩ := holds_setNext cells₂ live (some head)
  obtain ⟨lists₄, e₄, cells₄⟩ := holds_setPrev cells₃ live (some head)
  refine ⟨lists₄, ?_, _, _, _, _, _, ⟨cells₄, List.nodup_singleton head, ?_, rfl, ?_, ?_⟩⟩
  · simp only [initDijksList, e₁, e₂, e₃, e₄, bind, Except.bind]
  · exact .empty (Function.update_self _ _ _) (Function.update_self _ _ _)
  · exact Function.update_self _ _ _
  · intro x hx
    cases hx

variable (place) in
/-- The initial worklist is empty. -/
theorem new : ∃ lists head, newDijksList = .ok (lists, some head) ∧
    Worklist place lists head [] [] := by
  have allocated : (Heap.empty.alloc (⟨none, none, none, none, 0⟩ : DijksListNode)).2.cell 0 =
      some ⟨none, none, none, none, 0⟩ := rfl
  obtain ⟨lists, made, list⟩ := init place allocated
  refine ⟨lists, 0, ?_, list⟩
  rw [newDijksList]
  exact congrArg (· >>= fun lists => pure (lists, some 0)) made

theorem insert [DecidableEq V] (h : Worklist place lists head items popped)
    (injective : ∀ u v a, place u = some a → place v = some a → u = v) {v : V} {a : Nat}
    (hv : place v = some a) :
    ∃ lists' items', insertIntoDijksList lists (some head) (place v) = .ok lists' ∧
      items'.map Prod.snd = (items.map Prod.snd).insert v ∧
      Worklist place lists' head items' popped := by
  obtain ⟨data, next, prev, owner, count, h⟩ := h
  by_cases hm : v ∈ items.map Prod.snd
  · obtain ⟨x, hx, rfl⟩ := List.mem_map.mp hm
    refine ⟨lists, items, h.insert_present ⟨x, hx, rfl⟩, ?_, data, next, prev, owner, count, h⟩
    exact (List.insert_of_mem hm).symm
  · have absent : ∀ x ∈ items, place x.2 ≠ place v := by
      intro x hx he
      apply hm
      rw [← injective x.2 v a (he.trans hv) hv]
      exact List.mem_map_of_mem hx
    obtain ⟨lists', t, inserted, list⟩ := h.insert_absent absent
    exact ⟨lists', (t, v) :: items, inserted, (List.insert_of_not_mem hm).symm, list⟩

/-- The first item with the least label is popped. -/
theorem pop {x : Nat × V} {rest : List (Nat × V)}
    (h : Worklist place lists head (x :: rest) popped)
    {nodes : Heap Node} {key : V → BitVec 32}
    (labels : Labelled place nodes key ((x :: rest).map Prod.snd)) :
    ∃ front r back lists', x :: rest = front ++ r :: back ∧
      r.2 = firstLeast key ((x :: rest).map Prod.snd) x.2 ∧
      popFromDijksList ⟨nodes, lists⟩ (some head) = .ok (lists', some r.1) ∧
      (∃ e, lists'.cell r.1 = some e ∧ e.data = place r.2) ∧
      Worklist place lists' head (front ++ back) (r.1 :: popped) := by
  obtain ⟨data, next, prev, owner, count, h⟩ := h
  exact h.pop labels

/-- A pop from the empty worklist reads through the null pointer of the head. -/
theorem pop_empty (h : Worklist place lists head [] popped) (nodes : Heap Node) :
    popFromDijksList ⟨nodes, lists⟩ (some head) = .error .nullPointer := by
  obtain ⟨data, next, prev, owner, count, h⟩ := h
  have first : next head = some head := (h.ring.first rfl).1
  have load_head := h.cells.load h.mem_head
  simp only [popFromDijksList, labelOf, load_head, elements, first, h.headData, load_null, bind,
    Except.bind]

/-- An element that was popped is not the head and can be freed. -/
theorem free {a : Nat} (h : Worklist place lists head items [a]) :
    head ≠ a ∧ ∃ lists', lists.free (some a) = .ok lists' ∧
      Worklist place lists' head items [] := by
  obtain ⟨data, next, prev, owner, count, h⟩ := h
  have nodup := (List.perm_append_singleton a _).nodup_iff.mp h.nodup
  have outside : a ∉ head :: items.map Prod.fst := (List.nodup_cons.mp nodup).1
  obtain ⟨lists', freed, cells⟩ := h.cells.free (a := a) (by simp)
  refine ⟨fun he => outside (he ▸ List.mem_cons_self), lists', freed, data, next, prev, owner,
    count, ⟨?_, ?_, h.ring, h.headData, h.size, h.itemData⟩⟩
  · apply cells.mono
    intro b hb
    rw [List.append_nil] at hb
    exact ⟨List.mem_append_left [a] hb, fun he => outside (he ▸ hb)⟩
  · rw [List.append_nil]
    exact (List.nodup_cons.mp nodup).2

end Worklist

end SamplePrograms.Elbonian
