import SamplePrograms.Elbonian.Worklist
import SamplePrograms.Library.EventRuns

/-!
# Any sequence of calls on the worklist

After `init_dijks_list` nodes are inserted and elements are popped in any order, and between
the calls the labels of the nodes are written at will. The worklist keeps its ring, with one
element for each node that is on it. Labels play no part in the ring, so a pop only has to
look at those that the nodes have at that moment.

## Implementation notes

An element that was popped is not freed here. The count of the head is a number: it could
only wrap around with `2 ^ 32` nodes on the worklist, and the program has `MAX_NODE_COUNT`.
-/

namespace SamplePrograms.Elbonian
open Memory Events

/-- A call on the worklist, or a write to the label of a node between two calls. -/
inductive ListCall where
  | insert (node : Nat)
  | pop
  | setTempLabel (node : Nat) (label : BitVec 32)

namespace ListCall

def run (head : Nat) (w : World) : ListCall → Except Fault World
  | insert node => do
      let lists ← insertIntoDijksList w.lists (some head) (some node)
      pure { w with lists := lists }
  | pop => do
      let (lists, _) ← popFromDijksList w (some head)
      pure { w with lists := lists }
  | setTempLabel node label => do
      let nodes ← w.nodes.modify (some node) fun n => { n with tempLabel := label }
      pure { w with nodes := nodes }

/-- Nodes in memory are inserted and labelled. An element is popped while the head counts one. -/
def Legal (head : Nat) (w : World) : ListCall → Prop
  | insert node => ∃ n, w.nodes.cell node = some n
  | pop => ∃ h, w.lists.cell head = some h ∧ 0 < h.count
  | setTempLabel node _ => ∃ n, w.nodes.cell node = some n

end ListCall

/-- Each call of a list is legal when it is made. -/
abbrev LegalCalls (head : Nat) : World → List ListCall → Prop :=
  Along (fun w c w' => ListCall.run head w c = .ok w') (ListCall.Legal head)

/-! ## The ring in memory -/

section Ring
variable {lists : Heap DijksListNode} {head : Nat} {items : List (Nat × Nat)}

def nextOf (lists : Heap DijksListNode) (a : Nat) : Ptr :=
  (lists.cell a).bind DijksListNode.next

def prevOf (lists : Heap DijksListNode) (a : Nat) : Ptr :=
  (lists.cell a).bind DijksListNode.prev

/-- The elements form a ring with the head, which counts them, and each holds another node. -/
structure RingOfNodes (lists : Heap DijksListNode) (head : Nat) (items : List (Nat × Nat)) :
    Prop where
  ring : Ring (nextOf lists) (prevOf lists) head (items.map Prod.fst)
  nodup : (head :: items.map Prod.fst).Nodup
  size : ∃ h, lists.cell head = some h ∧ h.count = items.length
  data : ∀ x ∈ items, ∃ e, lists.cell x.1 = some e ∧ e.data = some x.2
  distinct : (items.map Prod.snd).Nodup

theorem Worklist.ringOfNodes {popped : List Nat} (h : Worklist some lists head items popped)
    (distinct : (items.map Prod.snd).Nodup) : RingOfNodes lists head items := by
  obtain ⟨data, next, prev, owner, count, h⟩ := h
  have cells : ∀ a ∈ head :: items.map Prod.fst,
      lists.cell a = some (elements data next prev owner count a) :=
    fun a ha => h.cells a (List.mem_append_left popped ha)
  refine ⟨?_, h.nodup.sublist (List.sublist_append_left _ _), ?_, h.stored, distinct⟩
  · apply h.ring.congr
    · intro a ha
      rw [nextOf, cells a ha]
      rfl
    · intro a ha
      rw [prevOf, cells a ha]
      rfl
  · exact ⟨_, cells head List.mem_cons_self, h.size⟩

end Ring

/-- The label of the node at an address. -/
def tempLabelAt (nodes : Heap Node) (a : Nat) : BitVec 32 :=
  (nodes.cell a).elim 0 Node.tempLabel

/-- The worklist holds nodes in memory, and none of them twice. -/
structure HoldsNodes (head : Nat) (w : World) (items : List (Nat × Nat)) : Prop where
  list : ∃ popped, Worklist some w.lists head items popped
  distinct : (items.map Prod.snd).Nodup
  inMemory : ∀ v ∈ items.map Prod.snd, ∃ n, w.nodes.cell v = some n

namespace HoldsNodes
variable {head : Nat} {w : World} {items : List (Nat × Nat)}

theorem ringOfNodes (h : HoldsNodes head w items) : RingOfNodes w.lists head items := by
  obtain ⟨popped, list⟩ := h.list
  exact list.ringOfNodes h.distinct

/-- The head counts an element unless there is no item. -/
theorem pop_legal_iff (h : HoldsNodes head w items) :
    ListCall.pop.Legal head w ↔ items ≠ [] := by
  obtain ⟨e, he, size⟩ := h.ringOfNodes.size
  rw [← List.length_pos_iff, ← size]
  constructor
  · rintro ⟨e', he', counted⟩
    cases he.symm.trans he'
    exact counted
  · exact fun counted => ⟨e, he, counted⟩

theorem labelled (h : HoldsNodes head w items) :
    Labelled some w.nodes (tempLabelAt w.nodes) (items.map Prod.snd) := by
  intro v hv
  obtain ⟨n, hn⟩ := h.inMemory v hv
  refine ⟨v, n, rfl, hn, ?_⟩
  rw [tempLabelAt, hn]
  rfl

/-! ## The calls -/

theorem insert_present (h : HoldsNodes head w items) {v : Nat} (hv : v ∈ items.map Prod.snd) :
    insertIntoDijksList w.lists (some head) (some v) = .ok w.lists := by
  obtain ⟨popped, data, next, prev, owner, count, list⟩ := h.list
  obtain ⟨x, hx, rfl⟩ := List.mem_map.mp hv
  exact list.insert_present ⟨x, hx, rfl⟩

theorem insert_absent (h : HoldsNodes head w items) {v : Nat} {n : Node}
    (hn : w.nodes.cell v = some n) (hv : v ∉ items.map Prod.snd) :
    ∃ lists t, insertIntoDijksList w.lists (some head) (some v) = .ok lists ∧
      HoldsNodes head { w with lists := lists } ((t, v) :: items) := by
  obtain ⟨popped, data, next, prev, owner, count, list⟩ := h.list
  have absent : ∀ x ∈ items, (some x.2 : Ptr) ≠ some v :=
    fun x hx he => hv (Option.some.inj he ▸ List.mem_map_of_mem hx)
  obtain ⟨lists, t, inserted, list'⟩ := list.insert_absent absent
  refine ⟨lists, t, inserted, ⟨popped, list'⟩, List.nodup_cons.mpr ⟨hv, h.distinct⟩, ?_⟩
  intro u hu
  rcases List.mem_cons.mp hu with rfl | hu
  · exact ⟨n, hn⟩
  · exact h.inMemory u hu

/-- An element with the least label is taken out of the ring. -/
theorem pop (h : HoldsNodes head w items) (some_item : items ≠ []) :
    ∃ front r back lists, items = front ++ r :: back ∧
      popFromDijksList w (some head) = .ok (lists, some r.1) ∧
      (∀ x ∈ items, (tempLabelAt w.nodes r.2).toInt ≤ (tempLabelAt w.nodes x.2).toInt) ∧
      HoldsNodes head { w with lists := lists } (front ++ back) := by
  obtain ⟨x, rest, rfl⟩ := List.exists_cons_of_ne_nil some_item
  obtain ⟨popped, list⟩ := h.list
  obtain ⟨front, r, back, lists, split, least, taken, -, list'⟩ := list.pop h.labelled
  have kept : ((front ++ back).map Prod.snd).Sublist ((x :: rest).map Prod.snd) := by
    rw [split]
    exact ((List.sublist_cons_self r back).append_left front).map Prod.snd
  refine ⟨front, r, back, lists, split, taken, ?_, ⟨r.1 :: popped, list'⟩,
    h.distinct.sublist kept, fun v hv => h.inMemory v (kept.subset hv)⟩
  intro y hy
  rw [least]
  exact firstLeast_le _ _ _ _ (List.mem_cons_of_mem x.2 (List.mem_map_of_mem hy))

/-- A label may be written whether or not the node is on the worklist. -/
theorem setTempLabel (h : HoldsNodes head w items) {v : Nat} {n : Node}
    (hn : w.nodes.cell v = some n) (label : BitVec 32) :
    ∃ nodes, w.nodes.modify (some v) (fun n => { n with tempLabel := label }) = .ok nodes ∧
      HoldsNodes head { w with nodes := nodes } items := by
  obtain ⟨nodes, written, -, cell⟩ := Heap.modify_ok hn fun n => { n with tempLabel := label }
  refine ⟨nodes, written, h.list, h.distinct, fun u hu => ?_⟩
  simp only [cell]
  by_cases hne : u = v
  · exact ⟨_, by rw [hne, Function.update_self]⟩
  · rw [Function.update_of_ne hne]
    exact h.inMemory u hu

/-- A legal call has no fault and keeps the worklist. -/
theorem run (h : HoldsNodes head w items) {c : ListCall} (legal : c.Legal head w) :
    ∃ w' items', c.run head w = .ok w' ∧ HoldsNodes head w' items' := by
  cases c with
  | insert v =>
      by_cases hv : v ∈ items.map Prod.snd
      · exact ⟨w, items, congrArg (· >>= _) (h.insert_present hv), h⟩
      · obtain ⟨n, hn⟩ := legal
        obtain ⟨lists, t, inserted, h'⟩ := h.insert_absent hn hv
        exact ⟨_, _, congrArg (· >>= _) inserted, h'⟩
  | pop =>
      obtain ⟨front, r, back, lists, -, taken, -, h'⟩ := h.pop (h.pop_legal_iff.mp legal)
      exact ⟨_, _, congrArg (· >>= _) taken, h'⟩
  | setTempLabel v label =>
      obtain ⟨n, hn⟩ := legal
      obtain ⟨nodes, written, h'⟩ := h.setTempLabel hn label
      exact ⟨_, _, congrArg (· >>= _) written, h'⟩

end HoldsNodes

/-! ## After any calls -/

/-- The ring of the worklist, and what the next call makes of it. -/
structure SoundWorklist (head : Nat) (w : World) (items : List (Nat × Nat)) : Prop where
  ring : RingOfNodes w.lists head items
  legal : ∀ c : ListCall, c.Legal head w → ∃ w', c.run head w = .ok w'
  present : ∀ v ∈ items.map Prod.snd,
    insertIntoDijksList w.lists (some head) (some v) = .ok w.lists
  absent : ∀ v n, w.nodes.cell v = some n → v ∉ items.map Prod.snd →
    ∃ lists t, insertIntoDijksList w.lists (some head) (some v) = .ok lists ∧
      RingOfNodes lists head ((t, v) :: items)
  popped : ListCall.pop.Legal head w → ∃ front r back lists, items = front ++ r :: back ∧
    popFromDijksList w (some head) = .ok (lists, some r.1) ∧
    (∀ x ∈ items, (tempLabelAt w.nodes r.2).toInt ≤ (tempLabelAt w.nodes x.2).toInt) ∧
    RingOfNodes lists head (front ++ back)

theorem HoldsNodes.sound {head : Nat} {w : World} {items : List (Nat × Nat)}
    (h : HoldsNodes head w items) : SoundWorklist head w items where
  ring := h.ringOfNodes
  legal := by
    intro c legal
    obtain ⟨w', -, run, -⟩ := h.run legal
    exact ⟨w', run⟩
  present := fun v hv => h.insert_present hv
  absent := by
    intro v n hn hv
    obtain ⟨lists, t, inserted, h'⟩ := h.insert_absent hn hv
    exact ⟨lists, t, inserted, h'.ringOfNodes⟩
  popped := by
    intro legal
    obtain ⟨front, r, back, lists, split, taken, least, h'⟩ := h.pop (h.pop_legal_iff.mp legal)
    exact ⟨front, r, back, lists, split, taken, least, h'.ringOfNodes⟩

/-- After any legal calls, in any order and with any labels, the worklist is sound. -/
theorem worklist_after_calls (nodes : Heap Node) {lists₀ : Heap DijksListNode} {head : Nat}
    (allocated : lists₀.cell head = some ⟨none, none, none, none, 0⟩) :
    ∃ lists, initDijksList lists₀ (some head) = .ok lists ∧
      ∀ calls, LegalCalls head ⟨nodes, lists⟩ calls →
        ∃ w, calls.foldlM (ListCall.run head) ⟨nodes, lists⟩ = .ok w ∧
          ∃ items, SoundWorklist head w items := by
  obtain ⟨lists, init, list⟩ := Worklist.init some allocated
  refine ⟨lists, init, fun calls legal => ?_⟩
  have empty : HoldsNodes head ⟨nodes, lists⟩ [] :=
    ⟨⟨[], list⟩, List.nodup_nil, fun v hv => absurd hv List.not_mem_nil⟩
  have kept : ∀ w c, (∃ items, HoldsNodes head w items) → ListCall.Legal head w c →
      ∃ w', c.run head w = .ok w' ∧ ∃ items, HoldsNodes head w' items := by
    rintro w c ⟨items, h⟩ legal
    obtain ⟨w', items', run, h'⟩ := h.run legal
    exact ⟨w', run, items', h'⟩
  obtain ⟨w, run, items, h⟩ := foldlM_of_along kept ⟨[], empty⟩ legal
  exact ⟨w, run, items, h.sound⟩

/-- Two nodes, the first of which has the greater label. -/
def twoNodes : Heap Node :=
  ((Heap.empty.alloc { clearedNode with tempLabel := 9 }).2.alloc clearedNode).2

/-- A node is inserted again, and the label of the other one is written before the pop. -/
theorem worklist_after_two_nodes : ∃ lists w,
    initDijksList (Heap.empty.alloc ⟨none, none, none, none, 0⟩).2 (some 0) = .ok lists ∧
    [.insert 0, .insert 1, .insert 0, .setTempLabel 1 12, .pop].foldlM (ListCall.run 0)
      ⟨twoNodes, lists⟩ = .ok w ∧ ∃ items, SoundWorklist 0 w items := by
  have allocated : (Heap.empty.alloc (⟨none, none, none, none, 0⟩ : DijksListNode)).2.cell 0 =
      some ⟨none, none, none, none, 0⟩ := rfl
  obtain ⟨lists, init, sound⟩ := worklist_after_calls twoNodes allocated
  cases init
  obtain ⟨w, run, items, h⟩ := sound [.insert 0, .insert 1, .insert 0, .setTempLabel 1 12, .pop]
    (along_cons ⟨_, rfl⟩ rfl (along_cons ⟨_, rfl⟩ rfl (along_cons ⟨_, rfl⟩ rfl
      (along_cons ⟨_, rfl⟩ rfl (along_cons ⟨_, rfl, by decide⟩ rfl trivial)))))
  exact ⟨_, w, rfl, run, items, h⟩

end SamplePrograms.Elbonian
