import SamplePrograms.Elbonian.Model
import SamplePrograms.Library.Loops
import Mathlib.Data.Fintype.Card

/-!
# The graph that `build_graph` makes

There is one node for each row or column with an entry that is not zero. The
peers of a node are the columns of its row in ascending order, as far as the
cost is not zero, and its other slots hold the null pointer.

## Implementation notes

The container is a list of ids in the order in which they occur. The node of an
id is allocated when the id is added, so its address is the index of the id.
-/

namespace SamplePrograms.Elbonian
open Memory Loops

/-! ## Graphs in memory -/

/-- The columns of a row with an edge. -/
def peersOf (cost : CostMatrix) (r : NodeId) : List NodeId :=
  (List.finRange maxNodeCount).filter fun c => cost r c ≠ 0

/-- The ids that have a row or a column with an edge. -/
def Occurs (cost : CostMatrix) (v : NodeId) : Prop := ∃ u, cost v u ≠ 0 ∨ cost u v ≠ 0

/-- What the search keeps in a node. -/
structure Marks where
  orderId : Int
  tempLabel : BitVec 32
  finalLabel : BitVec 32
  visited : Bool

def Marks.cleared : Marks := ⟨0, 0, 0, false⟩

/-- The node of an id. -/
def nodeOf (place : NodeId → Ptr) (peers : List NodeId) (v : NodeId) (m : Marks) : Node where
  nodeId := v
  orderId := m.orderId
  tempLabel := m.tempLabel
  finalLabel := m.finalLabel
  visited := m.visited
  peerList := fun i => peers[i.val]?.bind place
  nextIndex := peers.length

/-- The graph of a matrix, with a node for each id that occurs. -/
structure GraphAt (cost : CostMatrix) (place : NodeId → Ptr) (marks : NodeId → Marks)
    (nodes : Heap Node) : Prop where
  occurs : ∀ v, place v ≠ none ↔ Occurs cost v
  injective : ∀ u v a, place u = some a → place v = some a → u = v
  cells : ∀ v a, place v = some a → nodes.cell a = some (nodeOf place (peersOf cost v) v (marks v))

variable {cost : CostMatrix}

@[simp] theorem mem_peersOf {r c : NodeId} : c ∈ peersOf cost r ↔ cost r c ≠ 0 := by
  simp [peersOf]

theorem peersOf_nodup (r : NodeId) : (peersOf cost r).Nodup :=
  (List.nodup_finRange _).filter _

/-! ## The container -/

/-- The address of the node of an id in the container. -/
def place (ids : List NodeId) (v : NodeId) : Ptr := if v ∈ ids then some (ids.idxOf v) else none

section Place
variable {ids : List NodeId} {u v : NodeId}

theorem place_of_mem (h : v ∈ ids) : place ids v = some (ids.idxOf v) := if_pos h

theorem place_ne_none : place ids v ≠ none ↔ v ∈ ids := by
  simp [place]

theorem place_injective {a : Nat} (hu : place ids u = some a) (hv : place ids v = some a) :
    u = v := by
  have hu' : u ∈ ids := place_ne_none.mp (by simp [hu])
  have hv' : v ∈ ids := place_ne_none.mp (by simp [hv])
  rw [place_of_mem hu'] at hu
  rw [place_of_mem hv'] at hv
  exact (List.idxOf_inj hu').mp (Option.some.inj (hu.trans hv.symm))

/-- More ids in the container do not move those that are there. -/
theorem place_append (h : v ∈ ids) (l : List NodeId) : place (ids ++ l) v = place ids v := by
  rw [place_of_mem h, place_of_mem (List.mem_append_left l h), List.idxOf_append_of_mem h]

theorem place_concat (h : v ∉ ids) : place (ids ++ [v]) v = some ids.length := by
  rw [place_of_mem (by simp), List.idxOf_append_of_notMem h]
  simp

theorem nodeOf_append {peers : List NodeId} (h : ∀ c ∈ peers, c ∈ ids) (l : List NodeId)
    (m : Marks) :
    nodeOf (place (ids ++ l)) peers v m = nodeOf (place ids) peers v m := by
  have slots : ∀ i : Nat, peers[i]?.bind (place (ids ++ l)) = peers[i]?.bind (place ids) := by
    intro i
    cases hi : peers[i]? with
    | none => rfl
    | some c => exact place_append (h c (List.mem_of_getElem? hi)) l
  simp only [nodeOf, slots]

end Place

theorem length_lt_of_notMem {l : List NodeId} (nodup : l.Nodup) {v : NodeId} (h : v ∉ l) :
    l.length < maxNodeCount := by
  have hc := (List.nodup_cons.mpr ⟨h, nodup⟩).length_le_card
  rwa [List.length_cons, Fintype.card_fin] at hc

/-- A peer is written to the first free slot. -/
theorem insertIntoPeerList_live {nodes : Heap Node} {a : Nat} {place : NodeId → Ptr}
    {peers : List NodeId} {v : NodeId} {m : Marks}
    (h : nodes.cell a = some (nodeOf place peers v m)) (room : peers.length < maxNodeCount)
    (c : NodeId) :
    ∃ nodes', insertIntoPeerList nodes (some a) (place c) = .ok nodes' ∧ nodes'.next = nodes.next ∧
      nodes'.cell = Function.update nodes.cell a (some (nodeOf place (peers ++ [c]) v m)) := by
  let old := nodeOf place peers v m
  let slots := Function.update old.peerList ⟨peers.length, room⟩ (place c)
  have filled : slots = fun i : Fin maxNodeCount => (peers ++ [c])[i.val]?.bind place := by
    funext i
    by_cases hi : i.val = peers.length
    · have he : i = ⟨peers.length, room⟩ := Fin.ext hi
      simp [slots, he]
    · have he : i ≠ ⟨peers.length, room⟩ := fun he => hi (by simp [he])
      simp only [slots, Function.update_of_ne he, old, nodeOf]
      rcases Nat.lt_or_gt_of_ne hi with hlt | hgt
      · rw [List.getElem?_append_left hlt]
      · have beyond : (peers ++ [c]).length ≤ i.val := by
          rw [List.length_append]
          exact hgt
        rw [List.getElem?_eq_none hgt.le, List.getElem?_eq_none beyond]
  have result : { old with peerList := slots, nextIndex := old.nextIndex + 1 } =
      nodeOf place (peers ++ [c]) v m := by
    rw [filled]
    simp [old, nodeOf]
  have bound : (nodeOf place peers v m).nextIndex < maxNodeCount := room
  obtain ⟨nodes₁, e₁, next₁, cell₁⟩ := Heap.modify_ok h fun n' =>
    { n' with peerList := Function.update n'.peerList ⟨_, bound⟩ (place c) }
  have live₁ : nodes₁.cell a = some { old with peerList := slots } := by
    rw [cell₁, Function.update_self]
    rfl
  obtain ⟨nodes₂, e₂, next₂, cell₂⟩ := Heap.modify_ok live₁ fun n' =>
    { n' with nextIndex := n'.nextIndex + 1 }
  refine ⟨nodes₂, ?_, next₂.trans next₁, ?_⟩
  · simp only [insertIntoPeerList, load_live h, bind, Except.bind, dif_pos bound, e₁, e₂]
  · rw [cell₂, cell₁, Function.update_idem, ← result]

/-- What the loops of `build_graph` have made so far: the ids in the container
and the peers of each of them. -/
structure Building (ids : List NodeId) (peers : NodeId → List NodeId) (b : Build) : Prop where
  next : b.nodes.next = ids.length
  index : b.containerIndex = ids.length
  container : ∀ i : Fin maxNodeCount,
    b.container i = if i.val < ids.length then some i.val else none
  nodup : ids.Nodup
  known : ∀ r, ∀ c ∈ peers r, r ∈ ids ∧ c ∈ ids
  cells : ∀ v ∈ ids, b.nodes.cell (ids.idxOf v) = some (nodeOf (place ids) (peers v) v .cleared)

namespace Building
variable {ids : List NodeId} {peers : NodeId → List NodeId} {b : Build}

theorem length_le (h : Building ids peers b) : ids.length ≤ maxNodeCount := by
  simpa using h.nodup.length_le_card

/-- The node at an index of the container. -/
theorem load_at (h : Building ids peers b) {i : Nat} (hi : i < ids.length) :
    load b.nodes.cell (some i) = .ok (nodeOf (place ids) (peers ids[i]) ids[i] .cleared) := by
  have hc := h.cells ids[i] (List.getElem_mem hi)
  rw [h.nodup.idxOf_getElem] at hc
  exact load_live hc

/-- One step of the search in the container. -/
theorem find_step (h : Building ids peers b) (key : NodeId) {i : Nat} (hi : i < ids.length) :
    findNodeInContainer b.nodes b.container key i =
      if key = ids[i] then .ok (some i)
      else findNodeInContainer b.nodes b.container key (i + 1) := by
  have bound : i < maxNodeCount := hi.trans_le h.length_le
  rw [findNodeInContainer, dif_pos bound, h.container, if_pos hi]
  simp only [h.load_at hi, bind, Except.bind]
  rfl

theorem find_present (h : Building ids peers b) {key : NodeId} (hk : key ∈ ids) :
    ∀ n i, i + n = ids.idxOf key →
      findNodeInContainer b.nodes b.container key i = .ok (place ids key) := by
  have inside := List.idxOf_lt_length_of_mem hk
  intro n
  induction n with
  | zero =>
      intro i hi
      have hi' : i = ids.idxOf key := hi
      subst i
      rw [h.find_step key inside, if_pos (List.getElem_idxOf inside).symm, place_of_mem hk]
  | succ n ih =>
      intro i hi
      have hil : i < ids.length := by omega
      have hne : key ≠ ids[i] := by
        rintro rfl
        rw [h.nodup.idxOf_getElem] at hi
        omega
      rw [h.find_step key hil, if_neg hne]
      exact ih (i + 1) (by omega)

theorem find_absent (h : Building ids peers b) {key : NodeId} (hk : key ∉ ids) :
    ∀ n i, i + n = ids.length → findNodeInContainer b.nodes b.container key i = .ok none := by
  intro n
  induction n with
  | zero =>
      intro i hi
      have hi' : i = ids.length := hi
      subst i
      have bound := length_lt_of_notMem h.nodup hk
      rw [findNodeInContainer, dif_pos bound, h.container, if_neg (lt_irrefl _)]
      rfl
  | succ n ih =>
      intro i hi
      have hil : i < ids.length := by omega
      have hne : key ≠ ids[i] := fun he => hk (he ▸ List.getElem_mem hil)
      rw [h.find_step key hil, if_neg hne]
      exact ih (i + 1) (by omega)

/-- The ids with one more, unless it is among them. -/
def addId (ids : List NodeId) (v : NodeId) : List NodeId := if v ∈ ids then ids else ids ++ [v]

theorem addId_extends (ids : List NodeId) (v : NodeId) : ids <+: addId ids v := by
  rw [addId]
  split_ifs
  · exact List.prefix_rfl
  · exact List.prefix_append ids [v]

theorem mem_addId {ids : List NodeId} {u v : NodeId} : u ∈ addId ids v ↔ u ∈ ids ∨ u = v := by
  rw [addId]
  split_ifs with hv
  · refine ⟨.inl, fun h => h.elim id fun he => he ▸ hv⟩
  · simp

/-- A new id is added at the end of the container, with its node at the next address. -/
theorem add (h : Building ids peers b) {v : NodeId} (hv : v ∉ ids)
    (bound : b.containerIndex < maxNodeCount) {nodes : Heap Node}
    (next : nodes.next = ids.length + 1)
    (cell : nodes.cell =
      Function.update b.nodes.cell ids.length (some { clearedNode with nodeId := v })) :
    Building (ids ++ [v]) peers { b with
      nodes := nodes
      container := Function.update b.container ⟨b.containerIndex, bound⟩ (some ids.length)
      containerIndex := b.containerIndex + 1 } := by
  constructor
  · simp [next]
  · simp [h.index]
  · intro i
    dsimp only
    by_cases hi : i.val = ids.length
    · have he : i = ⟨b.containerIndex, bound⟩ := Fin.ext (by simp [hi, h.index])
      rw [he, Function.update_self]
      simp [h.index]
    · have he : i ≠ ⟨b.containerIndex, bound⟩ := fun he => hi (by simp [he, h.index])
      have hlt : i.val < (ids ++ [v]).length ↔ i.val < ids.length := by
        rw [List.length_append, List.length_singleton]
        omega
      rw [Function.update_of_ne he, h.container]
      simp only [hlt]
  · exact List.concat_eq_append ▸ h.nodup.concat hv
  · intro r c hc
    obtain ⟨hr, hc⟩ := h.known r c hc
    exact ⟨List.mem_append_left [v] hr, List.mem_append_left [v] hc⟩
  · intro u hu
    dsimp only
    rw [cell]
    rcases List.mem_append.mp hu with hu | hu
    · have old := List.idxOf_lt_length_of_mem hu
      rw [List.idxOf_append_of_mem hu, Function.update_of_ne old.ne, h.cells u hu,
        nodeOf_append fun c hc => (h.known u c hc).2]
    · have peers_v : peers v = [] :=
        List.eq_nil_iff_forall_not_mem.mpr fun c hc => hv (h.known v c hc).1
      rw [List.mem_singleton.mp hu, List.idxOf_append_of_notMem hv, peers_v]
      simp [nodeOf, clearedNode, Marks.cleared]

theorem findOrAdd_ok (h : Building ids peers b) (v : NodeId) :
    ∃ b', findOrAdd b v = .ok (b', place (addId ids v) v) ∧ Building (addId ids v) peers b' ∧
      b'.rowStart = b.rowStart ∧ b'.start = b.start := by
  by_cases hv : v ∈ ids
  · have found := h.find_present hv _ 0 (Nat.zero_add _)
    have same : addId ids v = ids := if_pos hv
    rw [same]
    refine ⟨b, ?_, h, rfl, rfl⟩
    simp only [findOrAdd, found, place_of_mem hv, bind, Except.bind, pure, Except.pure]
  · have found := h.find_absent hv _ 0 (Nat.zero_add _)
    have more : addId ids v = ids ++ [v] := if_neg hv
    have bound : b.containerIndex < maxNodeCount := by
      rw [h.index]
      exact length_lt_of_notMem h.nodup hv
    have fresh : (b.nodes.alloc clearedNode).2.cell ids.length = some clearedNode := by
      simp [h.next]
    obtain ⟨nodes, made, next, cell⟩ := Heap.modify_ok fresh fun n => { n with nodeId := v }
    rw [Heap.alloc_cell, h.next, Function.update_idem] at cell
    rw [Heap.alloc_next, h.next] at next
    rw [more]
    refine ⟨_, ?_, h.add hv bound next cell, rfl, rfl⟩
    simp only [findOrAdd, found, Heap.alloc_fst, h.next, made, bind, Except.bind, pure, Except.pure,
      dif_pos bound, place_concat hv]

theorem insertIntoPeerList_ok (h : Building ids peers b) {r c : NodeId} (hr : r ∈ ids)
    (hc : c ∈ ids) (new : c ∉ peers r) (nodup : (peers r).Nodup) :
    ∃ nodes, insertIntoPeerList b.nodes (place ids r) (place ids c) = .ok nodes ∧
      Building ids (Function.update peers r (peers r ++ [c])) { b with nodes := nodes } := by
  obtain ⟨nodes, inserted, next, cell⟩ :=
    insertIntoPeerList_live (h.cells r hr) (length_lt_of_notMem nodup new) c
  rw [← place_of_mem hr] at inserted
  refine ⟨nodes, inserted, next.trans h.next, h.index, h.container, h.nodup, ?_, ?_⟩
  · intro u d hd
    by_cases hu : u = r
    · subst u
      rw [Function.update_self] at hd
      rcases List.mem_append.mp hd with hd | hd
      · exact h.known r d hd
      · exact ⟨hr, List.mem_singleton.mp hd ▸ hc⟩
    · rw [Function.update_of_ne hu] at hd
      exact h.known u d hd
  · intro u hu
    dsimp only
    rw [cell]
    by_cases hur : u = r
    · subst u
      rw [Function.update_self, Function.update_self]
    · have apart : ids.idxOf u ≠ ids.idxOf r := fun he => hur ((List.idxOf_inj hu).mp he)
      rw [Function.update_of_ne apart, Function.update_of_ne hur]
      exact h.cells u hu

/-- An edge makes the nodes of its ends if they are new, and a peer of the row. -/
theorem buildCell_edge (h : Building ids peers b) {r c : NodeId} (edge : cost r c ≠ 0)
    (new : c ∉ peers r) (nodup : (peers r).Nodup) :
    ∃ b', buildCell cost r b c = .ok b' ∧
      Building (addId (addId ids r) c) (Function.update peers r (peers r ++ [c])) b' ∧
      b'.rowStart = place (addId (addId ids r) c) r ∧ b'.start = b.start := by
  obtain ⟨b₁, e₁, h₁, -, start₁⟩ := h.findOrAdd_ok r
  have h₁' : Building (addId ids r) peers { b₁ with rowStart := place (addId ids r) r } :=
    ⟨h₁.next, h₁.index, h₁.container, h₁.nodup, h₁.known, h₁.cells⟩
  obtain ⟨b₂, e₂, h₂, row₂, start₂⟩ := h₁'.findOrAdd_ok c
  have hr : r ∈ addId ids r := mem_addId.mpr (.inr rfl)
  have same : place (addId (addId ids r) c) r = place (addId ids r) r := by
    obtain ⟨l, hl⟩ := addId_extends (addId ids r) c
    rw [← hl, place_append hr]
  obtain ⟨nodes, e₃, h₃⟩ := h₂.insertIntoPeerList_ok (mem_addId.mpr (.inl hr))
    (mem_addId.mpr (.inr rfl)) new nodup
  refine ⟨{ b₂ with nodes := nodes }, ?_, h₃, ?_, ?_⟩
  · have row₂' : b₂.rowStart = place (addId ids r) r := row₂
    rw [same, ← row₂'] at e₃
    simp only [buildCell, if_pos edge, e₁, e₂, e₃, bind, Except.bind, pure, Except.pure]
  · exact row₂.trans same.symm
  · exact start₂.trans start₁

variable (cost)

/-- The loop over the columns of a row. -/
theorem buildColumns_ok (h : Building ids peers b) {r : NodeId} (unseen : peers r = []) :
    ∃ b' ids', (List.finRange maxNodeCount).foldlM (buildCell cost r) b = .ok b' ∧
      Building ids' (Function.update peers r (peersOf cost r)) b' ∧ ids <+: ids' ∧
      (∀ v ∈ ids', v ∈ ids ∨ Occurs cost v) ∧
      b'.rowStart = (if peersOf cost r = [] then b.rowStart else place ids' r) ∧
      b'.start = b.start := by
  let row (cols : List NodeId) := cols.filter fun c => cost r c ≠ 0
  let passed (cols : List NodeId) (b' : Build) := ∃ ids',
    Building ids' (Function.update peers r (row cols)) b' ∧ ids <+: ids' ∧
      (∀ v ∈ ids', v ∈ ids ∨ Occurs cost v) ∧
      b'.rowStart = (if row cols = [] then b.rowStart else place ids' r) ∧ b'.start = b.start
  have first : passed [] b := by
    refine ⟨ids, ?_, List.prefix_rfl, fun v hv => .inl hv, (if_pos rfl).symm, rfl⟩
    rw [show row [] = peers r from unseen.symm, Function.update_eq_self]
    exact h
  have step : ∀ cols c back s, List.finRange maxNodeCount = cols ++ c :: back → passed cols s →
      ∃ s', buildCell cost r s c = .ok s' ∧ passed (cols ++ [c]) s' := by
    rintro cols c back s split ⟨ids', hb, more, known, rowStart, start⟩
    have nodup : (cols ++ c :: back).Nodup := split ▸ List.nodup_finRange _
    by_cases edge : cost r c ≠ 0
    · have row_c : row (cols ++ [c]) = row cols ++ [c] := by simpa [row] using edge
      have hc : c ∉ row cols := fun hm =>
        List.disjoint_of_nodup_append nodup (List.mem_of_mem_filter hm) List.mem_cons_self
      have hn : (row cols).Nodup := (List.Nodup.of_append_left nodup).filter _
      obtain ⟨s', run, hs', rowStart', start'⟩ := hb.buildCell_edge edge
        (by rwa [Function.update_self]) (by rwa [Function.update_self])
      rw [Function.update_self, Function.update_idem, ← row_c] at hs'
      refine ⟨s', run, _, hs', ?_, ?_, ?_, start'.trans start⟩
      · exact more.trans ((addId_extends ids' r).trans (addId_extends _ c))
      · intro v hv
        rcases mem_addId.mp hv with hv | rfl
        · rcases mem_addId.mp hv with hv | rfl
          · exact known v hv
          · exact .inr ⟨c, .inl edge⟩
        · exact .inr ⟨r, .inr edge⟩
      · rw [rowStart', row_c, if_neg (List.append_ne_nil_of_right_ne_nil _ (List.cons_ne_nil c []))]
    · have row_c : row (cols ++ [c]) = row cols := by simpa [row] using edge
      refine ⟨s, if_neg edge, ids', ?_, more, known, ?_, start⟩
      · rw [row_c]
        exact hb
      · rw [row_c]
        exact rowStart
  obtain ⟨b', run, ids', h'⟩ := foldlM_ok first step
  exact ⟨b', ids', run, h'⟩

/-- The variable `row_start` changes in a row with an edge only. The start is set after the
row of the source. -/
theorem buildRow_ok (h : Building ids peers b) (src : Int) {r : NodeId} (unseen : peers r = []) :
    ∃ b' ids', buildRow cost src b r = .ok b' ∧
      Building ids' (Function.update peers r (peersOf cost r)) b' ∧ ids <+: ids' ∧
      (∀ v ∈ ids', v ∈ ids ∨ Occurs cost v) ∧
      b'.rowStart = (if peersOf cost r = [] then b.rowStart else place ids' r) ∧
      b'.start = if (r.val : Int) = src then b'.rowStart else b.start := by
  obtain ⟨b', ids', run, h', more, known, rowStart, start⟩ := h.buildColumns_ok cost unseen
  by_cases hr : (r.val : Int) = src
  · refine ⟨{ b' with start := b'.rowStart }, ids', ?_, ?_, more, known, rowStart,
      (if_pos hr).symm⟩
    · simp only [buildRow, run, bind, Except.bind, if_pos hr, pure, Except.pure]
    · exact ⟨h'.next, h'.index, h'.container, h'.nodup, h'.known, h'.cells⟩
  · refine ⟨b', ids', ?_, h', more, known, rowStart, start.trans (if_neg hr).symm⟩
    simp only [buildRow, run, bind, Except.bind, if_neg hr, pure, Except.pure]

/-- The initial container is empty. -/
theorem initial : Building [] (fun _ => []) ⟨.empty, fun _ => none, 0, none, none⟩ where
  next := rfl
  index := rfl
  container := by simp
  nodup := List.nodup_nil
  known := by simp
  cells := by simp

end Building

/-- The last of some rows with an edge. -/
def lastRow (cost : CostMatrix) (rows : List NodeId) : Option NodeId :=
  (rows.filter fun r => peersOf cost r ≠ []).getLast?

theorem lastRow_concat (cost : CostMatrix) (rows : List NodeId) (r : NodeId) :
    lastRow cost (rows ++ [r]) = if peersOf cost r = [] then lastRow cost rows else some r := by
  rw [lastRow, List.filter_append]
  split_ifs with none_here
  · simp [none_here, lastRow]
  · simp [none_here]

theorem exists_of_lastRow {cost : CostMatrix} {rows : List NodeId} {u : NodeId}
    (h : lastRow cost rows = some u) : u ∈ rows ∧ peersOf cost u ≠ [] := by
  have hu := List.mem_of_getLast? h
  simpa using hu

/-- When the loops end, the container holds the ids that occur. What is returned is the node
of the last row with an edge, up to the row of the source. -/
theorem buildGraph_built (cost : CostMatrix) (src : Int) :
    ∃ b ids, buildGraph cost src = .ok (b.nodes, b.start) ∧ Building ids (peersOf cost) b ∧
      (∀ v, v ∈ ids ↔ Occurs cost v) ∧
      ∀ front r back, List.finRange maxNodeCount = front ++ r :: back → (r.val : Int) = src →
        b.start = (lastRow cost (front ++ [r])).bind (place ids) := by
  let peers (rows : List NodeId) (r : NodeId) := if r ∈ rows then peersOf cost r else []
  let passed (rows : List NodeId) (b : Build) := ∃ ids, Building ids (peers rows) b ∧
    (∀ v ∈ ids, Occurs cost v) ∧ b.rowStart = (lastRow cost rows).bind (place ids) ∧
    ∀ front r back, rows = front ++ r :: back → (r.val : Int) = src →
      b.start = (lastRow cost (front ++ [r])).bind (place ids)
  have first : passed [] ⟨.empty, fun _ => none, 0, none, none⟩ :=
    ⟨[], .initial, by simp, rfl, by simp⟩
  have step : ∀ rows r back b, List.finRange maxNodeCount = rows ++ r :: back → passed rows b →
      ∃ b', buildRow cost src b r = .ok b' ∧ passed (rows ++ [r]) b' := by
    rintro rows r back b split ⟨ids, h, known, rowStart, start⟩
    have nodup : (rows ++ r :: back).Nodup := split ▸ List.nodup_finRange _
    have hr : r ∉ rows := fun hm => List.disjoint_of_nodup_append nodup hm List.mem_cons_self
    obtain ⟨b', ids', run, h', more, known', rowStart', start'⟩ := h.buildRow_ok cost src (r := r)
      (if_neg hr)
    have peers_r : Function.update (peers rows) r (peersOf cost r) = peers (rows ++ [r]) := by
      funext u
      by_cases hu : u = r
      · subst u
        simp [peers]
      · simp [peers, hu]
    rw [peers_r] at h'
    obtain ⟨l, rfl⟩ := more
    -- a row that was passed is in the container if it has an edge
    have kept (front : List NodeId) (sub : ∀ u ∈ front, u ∈ rows) :
        (lastRow cost front).bind (place (ids ++ l)) = (lastRow cost front).bind (place ids) := by
      cases last : lastRow cost front with
      | none => rfl
      | some u =>
          obtain ⟨hu, edges⟩ := exists_of_lastRow last
          obtain ⟨c, hc⟩ := List.exists_mem_of_ne_nil _ edges
          have passed_u : c ∈ peers rows u := by simpa [peers, sub u hu] using hc
          exact place_append (h.known u c passed_u).1 l
    have rowStart_r : b'.rowStart = (lastRow cost (rows ++ [r])).bind (place (ids ++ l)) := by
      rw [rowStart', lastRow_concat]
      split_ifs
      · rw [rowStart, kept rows fun u hu => hu]
      · rfl
    refine ⟨b', run, ids ++ l, h', ?_, rowStart_r, ?_⟩
    · intro v hv
      exact (known' v hv).elim (known v) id
    · intro front u later rows_eq source
      rcases List.eq_nil_or_concat' later with rfl | ⟨later, x, rfl⟩
      · obtain ⟨rfl, same⟩ := List.append_inj' rows_eq rfl
        obtain rfl : r = u := List.singleton_inj.mp same
        rw [start', if_pos source, rowStart_r]
      · rw [← List.cons_append, ← List.append_assoc] at rows_eq
        obtain ⟨rows_eq, -⟩ := List.append_inj' rows_eq rfl
        have before : ∀ v ∈ front ++ [u], v ∈ rows := by
          intro v hv
          rw [rows_eq]
          simp only [List.mem_append, List.mem_singleton] at hv
          simp only [List.mem_append, List.mem_cons]
          tauto
        have other : (r.val : Int) ≠ src := by
          intro he
          have hru : r = u := Fin.ext (Int.ofNat_inj.mp (he.trans source.symm))
          exact hr (hru ▸ before u (by simp))
        rw [start', if_neg other, start front u later rows_eq source, kept _ before]
  obtain ⟨b, run, ids, h, known, -, start⟩ := foldlM_ok first step
  have peers_all : peers (List.finRange maxNodeCount) = peersOf cost := by
    funext r
    exact if_pos (List.mem_finRange r)
  rw [peers_all] at h
  refine ⟨b, ids, ?_, h, ?_, start⟩
  · simp only [buildGraph, run, bind, Except.bind, pure, Except.pure]
  · intro v
    refine ⟨known v, ?_⟩
    rintro ⟨u, edge | edge⟩
    · exact (h.known v u (mem_peersOf.mpr edge)).1
    · exact (h.known u v (mem_peersOf.mpr edge)).2

/-- The rows end with the row of the source when it is passed. -/
theorem exists_rows (r : NodeId) :
    ∃ front back, List.finRange maxNodeCount = front ++ r :: back ∧ ∀ u, u ∈ front ↔ u < r := by
  obtain ⟨front, back, split⟩ := List.append_of_mem (List.mem_finRange r)
  refine ⟨front, back, split, fun u => ?_⟩
  have sorted := List.pairwise_lt_finRange maxNodeCount
  have hu := List.mem_finRange u
  rw [split] at sorted hu
  obtain ⟨-, after, between⟩ := List.pairwise_append.mp sorted
  constructor
  · intro hm
    exact between u hm r List.mem_cons_self
  · intro below
    rcases List.mem_append.mp hu with hm | hm
    · exact hm
    · rcases List.mem_cons.mp hm with rfl | hm
      · exact absurd below (lt_irrefl _)
      · exact absurd ((List.pairwise_cons.mp after).1 u hm) (lt_asymm below)

section Built
variable {cost : CostMatrix} {ids : List NodeId} {b : Build}

/-- A node in memory is the node of an id in the container. -/
theorem Building.node (h : Building ids (peersOf cost) b) {a : Nat} {n : Node}
    (live : b.nodes.cell a = some n) : ∃ v ∈ ids, place ids v = some a ∧
      n = nodeOf (place ids) (peersOf cost v) v .cleared := by
  have inside : a < ids.length := by
    rw [← h.next]
    exact Heap.lt_next live
  have mem := List.getElem_mem inside
  have here : ids.idxOf ids[a] = a := h.nodup.idxOf_getElem a inside
  have cell := h.cells _ mem
  rw [here] at cell
  refine ⟨ids[a], mem, ?_, Option.some.inj (live.symm.trans cell)⟩
  rw [place_of_mem mem, here]

theorem Building.graphAt (h : Building ids (peersOf cost) b)
    (occurs : ∀ v, v ∈ ids ↔ Occurs cost v) :
    GraphAt cost (place ids) (fun _ => .cleared) b.nodes where
  occurs v := place_ne_none.trans (occurs v)
  injective u v a := place_injective
  cells := by
    intro v a hv
    have hm : v ∈ ids := place_ne_none.mp (by simp [hv])
    rw [place_of_mem hm] at hv
    cases hv
    exact h.cells v hm

end Built

/-- `build_graph` makes the graph of the matrix and no other nodes. If the row of `src` has
an edge, it returns the node of `src`. -/
theorem buildGraph_ok (cost : CostMatrix) (src : Int) :
    ∃ nodes start place, buildGraph cost src = .ok (nodes, start) ∧
      GraphAt cost place (fun _ => .cleared) nodes ∧
      (∀ r : NodeId, (r.val : Int) = src → peersOf cost r ≠ [] → start = place r) ∧
      ∀ a n, nodes.cell a = some n → place n.nodeId = some a := by
  obtain ⟨b, ids, run, h, occurs, start⟩ := buildGraph_built cost src
  refine ⟨b.nodes, b.start, place ids, run, h.graphAt occurs, ?_, ?_⟩
  · intro r source edges
    obtain ⟨front, back, split, -⟩ := exists_rows r
    rw [start front r back split source, lastRow_concat, if_neg edges, Option.bind_some]
  · intro a n live
    obtain ⟨v, -, here, rfl⟩ := h.node live
    exact here

end SamplePrograms.Elbonian
