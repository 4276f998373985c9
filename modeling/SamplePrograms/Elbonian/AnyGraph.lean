import SamplePrograms.Elbonian.ShortestPaths

/-!
# The search on graphs that need not be connected

The main loop of `dijkstra_call` counts to the number of nodes that it is told
and never asks whether the worklist is empty. It visits the vertices that can be
reached one by one, and the pop after the last of them faults.
-/

namespace SamplePrograms.Elbonian
open Memory ShortestPath

namespace Search
variable {cost : CostMatrix} {s : NodeId} {σ : Search}

/-- The main loop runs out of vertices when it makes more iterations than there are any. -/
theorem NearFrontier.loop_eq_none (valid : IsSearchable cost s) (n : Nat) :
    ∀ {σ : Search} (orderId : Int), NearFrontier cost s σ →
      (reach cost s).ncard < σ.visitedSet.ncard + n → σ.loop cost n orderId = none := by
  induction n with
  | zero =>
      intro σ orderId h count
      have le := Set.ncard_le_ncard h.subset_reach
      omega
  | succ n ih =>
      intro σ orderId h count
      cases hv : σ.next with
      | none => simp only [Search.loop, hv, Option.bind_eq_bind, Option.bind_none]
      | some v =>
          obtain ⟨h', visited_v, new⟩ := h.visit valid hv (orderId + 1)
          have rest := ih (orderId + 1) h' (by
            rw [visited_v, Set.ncard_insert_of_notMem new]
            omega)
          simp only [Search.loop, hv, rest, Option.bind_eq_bind, Option.bind_some, Option.bind_none]

/-- As many visited vertices as can be reached are the vertices that can be reached. -/
theorem Frontier.visitedSet_eq (h : Frontier cost s σ)
    (all : (reach cost s).ncard ≤ σ.visitedSet.ncard) : σ.visitedSet = reach cost s :=
  Set.eq_of_subset_of_ncard_le h.subset_reach all

end Search

/-- The vertices whose nodes are final are the ones of a set. -/
def Finalised (cost : CostMatrix) (place : NodeId → Ptr) (w : World) (S : Set NodeId) : Prop :=
  ∀ v ∈ vertices cost, ∃ n, load w.nodes.cell (place v) = .ok n ∧ n.nodeId = v ∧
    (n.visited = true ↔ v ∈ S)

theorem Represents.finalised {cost : CostMatrix} {place : NodeId → Ptr} {w : World} {head : Nat}
    {popped : List Nat} {σ : Search} (valid : IsCostGraph cost)
    (h : Represents cost place w head popped σ) : Finalised cost place w σ.visitedSet := by
  intro v hv
  obtain ⟨a, ha⟩ := h.graph.exists_place (valid.occurs_iff.mpr hv)
  refine ⟨nodeOf place (peersOf cost v) v (σ.marks v), ?_, rfl, Iff.rfl⟩
  rw [ha]
  exact h.load_node ha

/-- The call ends without a pop from an empty worklist, and if it is told of enough
nodes, it finalises the vertices that can be reached. -/
def SafeSearch (cost : CostMatrix) (place : NodeId → Ptr) (src : NodeId) (dst nodeCount : Int)
    (w : World) (list : Ptr) : Prop :=
  ∃ w' endNode visits, dijkstraCall cost dst nodeCount (place src) w list =
      .ok (w', endNode, visits) ∧
    (∀ x ∈ visits, 0 < x.count) ∧
    ((reach cost src).ncard ≤ nodeCount → Finalised cost place w' (reach cost src))

section Call
variable {cost : CostMatrix} {place : NodeId → Ptr} {nodes : Heap Node}
  {lists : Heap DijksListNode} {head : Nat}

/-- A call that is told of no more nodes than can be reached is safe. -/
theorem safeSearch_of_le (valid : IsCostGraph cost)
    (graph : GraphAt cost place (fun _ => .cleared) nodes) (list : Worklist place lists head [] [])
    {src : NodeId} (hsrc : src ∈ vertices cost) (dst : Int) {nodeCount : Int}
    (le : nodeCount ≤ (reach cost src).ncard) :
    SafeSearch cost place src dst nodeCount ⟨nodes, lists⟩ (some head) := by
  obtain ⟨h, started⟩ := Search.frontier_started (valid.isSearchable src) hsrc
  have source := valid.occurs_iff.mpr hsrc
  by_cases more : 1 < nodeCount
  · obtain ⟨n, rfl⟩ : ∃ n : Nat, nodeCount = 1 + n := ⟨(nodeCount - 1).toNat, by omega⟩
    have room : (Search.started cost src).visitedSet.ncard + n ≤ (reach cost src).ncard := by
      rw [started, Set.ncard_singleton]
      omega
    obtain ⟨τ, visited, run, hτ, size, -⟩ := h.loop (valid.isSearchable src) n 1 room
    obtain ⟨w', endNode, visits, called, hw, -, counts, -⟩ :=
      dijkstraCall_ok graph list (valid.room src) source run (fun v _ => valid.room v) dst
    refine ⟨w', endNode, visits, called, counts, ?_⟩
    intro enough
    have every := hτ.visitedSet_eq (by
      rw [size, started, Set.ncard_singleton]
      omega)
    exact every ▸ hw.finalised valid
  · obtain ⟨w', hw, call⟩ := dijkstraCall_started graph list (valid.room src) source
    refine ⟨w', none, [], ?_, by simp, ?_⟩
    · rw [call, dijkstraLoop, if_neg more]
      rfl
    · intro enough
      have every := h.visitedSet_eq (by
        rw [started, Set.ncard_singleton]
        omega)
      exact every ▸ hw.finalised valid

/-- A call that is told of more nodes than can be reached faults. -/
theorem dijkstraCall_of_lt (valid : IsCostGraph cost)
    (graph : GraphAt cost place (fun _ => .cleared) nodes) (list : Worklist place lists head [] [])
    {src : NodeId} (hsrc : src ∈ vertices cost) (dst : Int) {nodeCount : Int}
    (lt : (reach cost src).ncard < nodeCount) :
    dijkstraCall cost dst nodeCount (place src) ⟨nodes, lists⟩ (some head) =
      .error .nullPointer := by
  obtain ⟨h, started⟩ := Search.frontier_started (valid.isSearchable src) hsrc
  obtain ⟨n, rfl⟩ : ∃ n : Nat, nodeCount = 1 + n := by
    refine ⟨(nodeCount - 1).toNat, ?_⟩
    have pos : 0 < (reach cost src).ncard := by
      apply (Set.ncard_pos).mpr
      exact ⟨src, .refl src⟩
    omega
  apply dijkstraCall_empty graph list valid.room (valid.occurs_iff.mpr hsrc)
  apply h.loop_eq_none (valid.isSearchable src)
  rw [started, Set.ncard_singleton]
  omega

end Call

/-- The search from a vertex with an edge is safe exactly when the number of nodes is
at most the number of vertices that can be reached. -/
theorem dijkstraCall_safe_iff {cost : CostMatrix} (valid : IsCostGraph cost) {src : NodeId}
    (hsrc : src ∈ vertices cost) (dst nodeCount : Int) :
    ∃ nodes lists list place, buildGraph cost src.val = .ok (nodes, place src) ∧
      newDijksList = .ok (lists, list) ∧
      (SafeSearch cost place src dst nodeCount ⟨nodes, lists⟩ list ↔
        nodeCount ≤ (reach cost src).ncard) := by
  obtain ⟨nodes, lists, head, place, built, made, graph, list, -⟩ := exists_prepared cost hsrc
  refine ⟨nodes, lists, some head, place, built, made, ?_, ?_⟩
  · rintro ⟨w', endNode, visits, called, -⟩
    by_contra more
    rw [dijkstraCall_of_lt valid graph list hsrc dst (not_le.mp more)] at called
    cases called
  · exact safeSearch_of_le valid graph list hsrc dst

theorem reach_oneRoad : reach oneRoad firstId = {firstId, secondId} := by
  rw [oneRoad_isConnectedGraph.reach_eq (mem_vertices_oneRoad.mpr (.inl rfl))]
  ext v
  rw [Finset.mem_coe, mem_vertices_oneRoad]
  rfl

/-- The search on the graph of one road, told of two nodes. -/
theorem dijkstraCall_oneRoad_two :
    ∃ nodes lists list place, buildGraph oneRoad 0 = .ok (nodes, place firstId) ∧
      newDijksList = .ok (lists, list) ∧
      (SafeSearch oneRoad place firstId 1 2 ⟨nodes, lists⟩ list ↔
        (2 : Int) ≤ (reach oneRoad firstId).ncard) :=
  dijkstraCall_safe_iff oneRoad_isConnectedGraph.isCostGraph
    (mem_vertices_oneRoad.mpr (.inl rfl)) 1 2

/-- Told of three nodes, the search pops a third time. -/
theorem dijkstraCall_oneRoad_three :
    IsCostGraph oneRoad ∧ firstId ∈ vertices oneRoad ∧
      ∃ nodes lists list place, buildGraph oneRoad 0 = .ok (nodes, place firstId) ∧
        newDijksList = .ok (lists, list) ∧
        dijkstraCall oneRoad 1 3 (place firstId) ⟨nodes, lists⟩ list = .error .nullPointer ∧
        ¬ SafeSearch oneRoad place firstId 1 3 ⟨nodes, lists⟩ list := by
  have valid := oneRoad_isConnectedGraph.isCostGraph
  have source : firstId ∈ vertices oneRoad := mem_vertices_oneRoad.mpr (.inl rfl)
  obtain ⟨nodes, lists, head, place, built, made, graph, list, -⟩ := exists_prepared oneRoad source
  have two : (reach oneRoad firstId).ncard = 2 := by
    rw [reach_oneRoad]
    exact Set.ncard_pair (by decide)
  have fault : dijkstraCall oneRoad 1 3 (place firstId) ⟨nodes, lists⟩ (some head) =
      .error .nullPointer := by
    apply dijkstraCall_of_lt valid graph list source
    rw [two]
    decide
  refine ⟨valid, source, nodes, lists, some head, place, built, made, fault, ?_⟩
  rintro ⟨w', endNode, visits, called, -⟩
  cases fault.symm.trans called

end SamplePrograms.Elbonian
