import SamplePrograms.Elbonian.ShortestPaths
import SamplePrograms.Elbonian.PeerLists

/-!
# What `build_graph` returns and what it leaves in memory

The variable `row_start` keeps its value in a row without an edge. So for a source
without an edge, the node of an earlier row is returned if there is any.

The array of a peer list has a slot for each id. A row of which no entry is zero fills
all of them, and leaves none for the null pointer that ends the list.
-/

namespace SamplePrograms.Elbonian
open Memory

variable {cost : CostMatrix}

theorem peersOf_ne_nil {v : NodeId} : peersOf cost v ≠ [] ↔ v ∈ vertices cost := by
  rw [mem_vertices]
  constructor
  · intro some_peer
    obtain ⟨u, hu⟩ := List.exists_mem_of_ne_nil _ some_peer
    exact ⟨u, mem_peersOf.mp hu⟩
  · rintro ⟨u, hu⟩
    exact List.ne_nil_of_mem (mem_peersOf.mpr hu)

/-! ## The start -/

/-- The call returns the node of the source, or the null pointer if the source has no edge. -/
def ReturnsStart (cost : CostMatrix) (src : NodeId) : Prop :=
  ∃ nodes start, buildGraph cost src.val = .ok (nodes, start) ∧
    (src ∈ vertices cost → ∃ n, load nodes.cell start = .ok n ∧ n.nodeId = src) ∧
    (src ∉ vertices cost → start = none)

/-- What is returned is the node of the last vertex up to the source. -/
theorem buildGraph_start (cost : CostMatrix) (src : NodeId) :
    ∃ nodes start, buildGraph cost src.val = .ok (nodes, start) ∧
      ((∃ u ≤ src, u ∈ vertices cost ∧ (src ∈ vertices cost → u = src) ∧
          ∃ n, load nodes.cell start = .ok n ∧ n.nodeId = u) ∨
        (∀ u ≤ src, u ∉ vertices cost) ∧ start = none) := by
  obtain ⟨b, ids, run, h, occurs, start⟩ := buildGraph_built cost src.val
  obtain ⟨front, back, split, before⟩ := exists_rows src
  refine ⟨b.nodes, b.start, run, ?_⟩
  rw [start front src back split rfl]
  cases last : lastRow cost (front ++ [src]) with
  | none =>
    right
    refine ⟨fun u hu some_edge => ?_, rfl⟩
    rw [lastRow, List.getLast?_eq_none_iff, List.filter_eq_nil_iff] at last
    have mem : u ∈ front ++ [src] := by
      rw [List.mem_append, List.mem_singleton, before]
      exact hu.lt_or_eq
    exact last u mem (by simpa using peersOf_ne_nil.mpr some_edge)
  | some u =>
    left
    obtain ⟨mem, peers⟩ := exists_of_lastRow last
    have hu : u ∈ ids := (occurs u).mpr (occurs_of_mem_vertices (peersOf_ne_nil.mp peers))
    refine ⟨u, ?_, peersOf_ne_nil.mp peers, ?_, nodeOf (place ids) (peersOf cost u) u .cleared,
      ?_, rfl⟩
    · rw [List.mem_append, List.mem_singleton, before] at mem
      exact mem.elim le_of_lt le_of_eq
    · intro some_edge
      rw [lastRow_concat, if_neg (peersOf_ne_nil.mpr some_edge)] at last
      exact (Option.some.inj last).symm
    · rw [Option.bind_some, place_of_mem hu]
      exact load_live (h.cells u hu)

/-- The call returns the node of another vertex exactly when the source has no edge and a
vertex before it has one. -/
theorem returnsStart_iff (cost : CostMatrix) (src : NodeId) :
    ReturnsStart cost src ↔ src ∈ vertices cost ∨ ∀ u < src, u ∉ vertices cost := by
  obtain ⟨nodes, start, run, found⟩ := buildGraph_start cost src
  constructor
  · rintro ⟨nodes', start', run', -, none_there⟩
    cases run.symm.trans run'
    by_contra stale
    rw [not_or] at stale
    obtain ⟨no_edge, earlier⟩ := stale
    rw [none_there no_edge] at found
    rcases found with ⟨u, -, -, -, n, loaded, -⟩ | ⟨none_before, -⟩
    · cases loaded
    · exact earlier fun u hu => none_before u hu.le
  · intro cond
    refine ⟨nodes, start, run, fun some_edge => ?_, fun no_edge => ?_⟩
    · rcases found with ⟨u, -, -, same, n, loaded, id⟩ | ⟨none_before, -⟩
      · exact ⟨n, loaded, id.trans (same some_edge)⟩
      · exact absurd some_edge (none_before src le_rfl)
    · rcases found with ⟨u, le, edge, -⟩ | ⟨-, null⟩
      · have lt : u < src := by
          apply lt_of_le_of_ne le
          rintro rfl
          exact no_edge edge
        exact absurd edge ((cond.resolve_left no_edge) u lt)
      · exact null

def thirdId : NodeId := ⟨2, by decide⟩

/-- On the graph of one road between the first two ids, the third id gets the node of another. -/
theorem buildGraph_oneRoad_third :
    (∃ nodes start n, buildGraph oneRoad 2 = .ok (nodes, start) ∧
      load nodes.cell start = .ok n ∧ n.nodeId ≠ thirdId) ∧
    (∀ u v, oneRoad u v = oneRoad v u) ∧ thirdId ∉ vertices oneRoad ∧
    ¬ ReturnsStart oneRoad thirdId := by
  have no_edge : thirdId ∉ vertices oneRoad := by
    rw [mem_vertices_oneRoad]
    decide
  have first : firstId ∈ vertices oneRoad := mem_vertices_oneRoad.mpr (.inl rfl)
  obtain ⟨nodes, start, run, found⟩ := buildGraph_start oneRoad thirdId
  rcases found with ⟨u, -, edge, -, n, loaded, id⟩ | ⟨none_before, -⟩
  · refine ⟨⟨nodes, start, n, run, loaded, ?_⟩, oneRoad_isConnectedGraph.symmetric, no_edge, ?_⟩
    · rintro same
      exact no_edge (same ▸ id ▸ edge)
    · rintro ⟨nodes', start', run', -, null⟩
      cases run.symm.trans run'
      rw [null no_edge] at loaded
      cases loaded
  · exact absurd first (none_before firstId (by decide))

/-! ## The peer lists -/

/-- The peers in ascending order, and then the null pointer. -/
structure ListsPeers (cost : CostMatrix) (nodes : Heap Node) (n : Node) : Prop where
  peers : ∀ k c, (peersOf cost n.nodeId)[k]? = some c →
    ∃ i b m, i.val = k ∧ n.peerList i = some b ∧ nodes.cell b = some m ∧ m.nodeId = c
  ended : ∃ i, i.val = (peersOf cost n.nodeId).length ∧ n.peerList i = none

/-- There is one node for each id that occurs, with its peers, and no search in the container
and no later scan of a peer list leaves the array. -/
def WellBuilt (cost : CostMatrix) (src : Int) : Prop :=
  ∃ nodes start, buildGraph cost src = .ok (nodes, start) ∧
    (∀ v, Occurs cost v → ∃! a, ∃ n, nodes.cell a = some n ∧ n.nodeId = v) ∧
    (∀ a n, nodes.cell a = some n → Occurs cost n.nodeId ∧ ListsPeers cost nodes n) ∧
    ∀ dst nodeCount p lists list,
      InBounds (fun r => ∀ endTmp, InBounds (fun _ => True) (findBefore cost r.1.nodes endTmp 0))
        (dijkstraCall cost dst nodeCount p ⟨nodes, lists⟩ list)

/-- The row has a slot left exactly when one of its entries is zero. -/
theorem length_peersOf_lt_iff {r : NodeId} :
    (peersOf cost r).length < maxNodeCount ↔ ∃ c, cost r c = 0 := by
  constructor
  · intro short
    by_contra full
    have all : peersOf cost r = List.finRange maxNodeCount :=
      List.filter_eq_self.mpr fun c _ => by simpa using fun zero => full ⟨c, zero⟩
    rw [all, List.length_finRange] at short
    exact lt_irrefl _ short
  · rintro ⟨c, zero⟩
    apply length_lt_of_notMem (peersOf_nodup r) (v := c)
    rw [mem_peersOf]
    exact not_not_intro zero

section Built
variable {ids : List NodeId} {b : Build}

/-- The peer list of a node with a slot left. -/
theorem Building.listsPeers (h : Building ids (peersOf cost) b) {v : NodeId}
    (room : (peersOf cost v).length < maxNodeCount) :
    ListsPeers cost b.nodes (nodeOf (place ids) (peersOf cost v) v .cleared) where
  peers := by
    intro k c hc
    have bound : k < maxNodeCount := (List.getElem?_eq_some_iff.mp hc).1.trans room
    have peer : c ∈ ids := (h.known v c (List.mem_of_getElem? hc)).2
    refine ⟨⟨k, bound⟩, ids.idxOf c, _, rfl, ?_, h.cells c peer, rfl⟩
    have slot : (nodeOf (place ids) (peersOf cost v) v .cleared).peerList ⟨k, bound⟩ =
        (peersOf cost v)[k]?.bind (place ids) := rfl
    rw [slot, show (peersOf cost v)[k]? = some c from hc, Option.bind_some, place_of_mem peer]
  ended := ⟨⟨_, room⟩, rfl, by simp [nodeOf]⟩

/-- Each id of the container has one node. -/
theorem Building.existsUnique_node (h : Building ids (peersOf cost) b) {v : NodeId} (hv : v ∈ ids) :
    ∃! a, ∃ n, b.nodes.cell a = some n ∧ n.nodeId = v := by
  refine ⟨ids.idxOf v, ⟨_, h.cells v hv, rfl⟩, ?_⟩
  rintro a ⟨n, live, id⟩
  obtain ⟨u, -, here, rfl⟩ := h.node live
  obtain rfl : u = v := id
  rw [place_of_mem hv] at here
  exact (Option.some.inj here).symm

/-- If each row has a slot left, each peer list has an end. -/
theorem Building.ended (h : Building ids (peersOf cost) b)
    (room : ∀ v, (peersOf cost v).length < maxNodeCount) : Ended (peerLists b.nodes) := by
  intro a slots here
  obtain ⟨n, live, rfl⟩ := Option.map_eq_some_iff.mp here
  obtain ⟨v, -, -, rfl⟩ := h.node live
  obtain ⟨i, -, empty⟩ := (h.listsPeers (room v)).ended
  exact ⟨i, empty⟩

end Built

/-- A row without a zero leaves no slot for the end of its peer list. -/
theorem not_wellBuilt {r : NodeId} (full : ∀ c, cost r c ≠ 0) (src : Int) :
    ¬ WellBuilt cost src := by
  rintro ⟨nodes, start, -, one, lists, -⟩
  obtain ⟨a, ⟨n, live, rfl⟩, -⟩ := one r ⟨r, .inl (full r)⟩
  obtain ⟨i, last, -⟩ := (lists a n live).2.ended
  obtain ⟨c, zero⟩ := length_peersOf_lt_iff.mp (last ▸ i.isLt)
  exact full c zero

/-- The graph is well built exactly when each row has an entry that is zero. -/
theorem wellBuilt_iff (cost : CostMatrix) (src : Int) :
    WellBuilt cost src ↔ ∀ r, ∃ c, cost r c = 0 := by
  constructor
  · intro built r
    by_contra full
    exact not_wellBuilt (fun c zero => full ⟨c, zero⟩) src built
  · intro zeros
    have room : ∀ v, (peersOf cost v).length < maxNodeCount :=
      fun v => length_peersOf_lt_iff.mpr (zeros v)
    obtain ⟨b, ids, run, h, occurs, -⟩ := buildGraph_built cost src
    refine ⟨b.nodes, b.start, run, fun v hv => h.existsUnique_node ((occurs v).mpr hv), ?_, ?_⟩
    · intro a n live
      obtain ⟨v, hv, -, rfl⟩ := h.node live
      exact ⟨(occurs v).mp hv, h.listsPeers (room v)⟩
    · intro dst nodeCount p lists list
      have stays := inBounds_dijkstraCall (w := ⟨b.nodes, lists⟩) cost (h.ended room) dst nodeCount
        p list rfl
      apply stays.imp
      intro r shape endTmp
      exact inBounds_findBefore cost (h.ended room) shape endTmp

/-- The first id has an edge to each id, and to itself. -/
def hub : CostMatrix := fun u v => if u = firstId ∨ v = firstId then 1 else 0

/-- The list of the first id has no slot left for its end. -/
theorem hub_not_wellBuilt :
    (∀ u v, hub u v = hub v u) ∧
    (∃ nodes start a n, buildGraph hub 0 = .ok (nodes, start) ∧ nodes.cell a = some n ∧
      n.nodeId = firstId ∧ ∀ i, n.peerList i ≠ none) ∧
    ¬ WellBuilt hub 0 := by
  have full : ∀ c, hub firstId c ≠ 0 := by
    intro c
    rw [hub, if_pos (.inl rfl)]
    decide
  refine ⟨fun u v => by simp only [hub, or_comm], ?_, not_wellBuilt full 0⟩
  obtain ⟨b, ids, run, h, occurs, -⟩ := buildGraph_built hub 0
  have known := (occurs firstId).mpr ⟨firstId, .inl (full firstId)⟩
  refine ⟨b.nodes, b.start, _, _, run, h.cells firstId known, rfl, fun i => ?_⟩
  have all : peersOf hub firstId = List.finRange maxNodeCount :=
    List.filter_eq_self.mpr fun c _ => by simpa using full c
  have peer : i ∈ ids := (h.known firstId i (mem_peersOf.mpr (full i))).2
  simp [nodeOf, all, place_ne_none.mpr peer]

end SamplePrograms.Elbonian
