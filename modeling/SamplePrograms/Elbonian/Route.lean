import SamplePrograms.Elbonian.ShortestPaths

/-!
# The way back to the start

When every vertex has its distance, each vertex but the source has a neighbour whose
distance is less by the cost of the edge between them. The distances on the way back
decrease, so no vertex is recorded twice and the array for the path is large enough.
-/

namespace SamplePrograms.Elbonian
open Memory ShortestPath

/-! ## The array for the path -/

/-- The vertices that were recorded, the first one at the index zero. -/
structure Recorded (v : PathVars) (l : List NodeId) : Prop where
  index : v.pathIndex = l.length
  entry : ∀ (i : Fin maxNodeCount) (x : NodeId), l[i.val]? = some x → v.path i = x.val

section Recorded
variable {v : PathVars} {l : List NodeId}

theorem Recorded.push (h : Recorded v l) (room : v.pathIndex < maxNodeCount) (x : NodeId)
    (total : BitVec 32) :
    Recorded ⟨Function.update v.path ⟨v.pathIndex, room⟩ x.val, v.pathIndex + 1, total⟩
      (l ++ [x]) := by
  refine ⟨by simp [h.index], fun i y hy => ?_⟩
  dsimp only
  by_cases last : i.val = l.length
  · have here : i = ⟨v.pathIndex, room⟩ := Fin.ext (last.trans h.index.symm)
    rw [last, List.getElem?_concat_length] at hy
    rw [here, Function.update_self, Option.some.inj hy]
  · have other : i ≠ ⟨v.pathIndex, room⟩ := by
      rintro rfl
      exact last h.index
    have before : i.val < l.length := by
      have bound := (List.getElem?_eq_some_iff.mp hy).1
      rw [List.length_append, List.length_singleton] at bound
      omega
    rw [List.getElem?_append_left before] at hy
    rw [Function.update_of_ne other]
    exact h.entry i y hy

/-- The path is printed backwards. -/
theorem Recorded.printed (h : Recorded v l) (fits : l.length ≤ maxNodeCount) :
    ((List.finRange maxNodeCount).take v.pathIndex).reverse.map v.path =
      l.reverse.map fun x => (x.val : Int) := by
  rw [List.map_reverse, List.map_reverse, h.index]
  congr 1
  apply List.ext_getElem
  · simp [fits]
  · intro i hi hi'
    rw [List.length_map] at hi'
    have here : l[i]? = some l[i] := List.getElem?_eq_getElem hi'
    simpa using h.entry ⟨i, hi'.trans_le fits⟩ _ here

end Recorded

/-! ## One step back -/

variable {cost : CostMatrix} {place : NodeId → Ptr} {marks : NodeId → Marks} {nodes : Heap Node}

/-- The label of a peer is less by the cost of the edge. -/
def IsBefore (cost : CostMatrix) (marks : NodeId → Marks) (x u : NodeId) : Prop :=
  (marks u).finalLabel = (marks x).finalLabel - cost x u

/-- The loop over the peers stops at the first one that comes before. -/
theorem findBefore_ok (graph : GraphAt cost place marks nodes) {x : NodeId} {a : Nat}
    (hx : place x = some a) (some_before : ∃ u ∈ peersOf cost x, IsBefore cost marks x u) :
    ∃ u b, u ∈ peersOf cost x ∧ IsBefore cost marks x u ∧ place u = some b ∧
      findBefore cost nodes (some a) 0 = .ok (some b) := by
  have scan : ∀ back front, peersOf cost x = front ++ back →
      (∃ u ∈ back, IsBefore cost marks x u) → ∃ u b, u ∈ peersOf cost x ∧
        IsBefore cost marks x u ∧ place u = some b ∧
        findBefore cost nodes (some a) front.length = .ok (some b) := by
    intro back
    induction back with
    | nil => simp
    | cons c back ih =>
      intro front split later
      have hc : c ∈ peersOf cost x := by simp [split]
      obtain ⟨b, hb⟩ := graph.exists_peer hc
      have bound : front.length < maxNodeCount := by
        have nodup : (peersOf cost x).Nodup := peersOf_nodup x
        have le := nodup.length_le_card
        rw [split, List.length_append, List.length_cons, Fintype.card_fin] at le
        omega
      have slot : (nodeOf place (peersOf cost x) x (marks x)).peerList ⟨front.length, bound⟩ =
          some b := by
        simp [nodeOf, split, hb]
      rw [findBefore, load_live (graph.cells x a hx)]
      simp only [bind, Except.bind, dif_pos bound, slot, load_live (graph.cells c b hb)]
      by_cases before : IsBefore cost marks x c
      · exact ⟨c, b, hc, before, hb, if_pos before⟩
      · obtain ⟨u, hu, before_u⟩ := later
        have hu' : u ∈ back := by
          apply (List.mem_cons.mp hu).resolve_left
          rintro rfl
          exact before before_u
        obtain ⟨u, b', peer, before_u, hb', found⟩ :=
          ih (front ++ [c]) (by simpa using split) ⟨u, hu', before_u⟩
        refine ⟨u, b', peer, before_u, hb', ?_⟩
        rw [List.length_append, List.length_singleton] at found
        exact (if_neg before).trans found
  exact scan (peersOf cost x) [] rfl some_before

/-- The final labels are the distances from the source, which no edge makes overflow. -/
structure HasDistances (cost : CostMatrix) (s : NodeId) (marks : NodeId → Marks) : Prop where
  symmetric : ∀ u v, cost u v = cost v u
  edge_lt : ∀ u v, (edges cost).Adj u v → edgeCost cost u v < 2 ^ 31
  label_lt : ∀ v ∈ vertices cost, (marks v).finalLabel.toNat < 2 ^ 31
  dist : ∀ v ∈ vertices cost,
    IsDist (edgeCost cost) (edges cost) s v (marks v).finalLabel.toNat

section Distances
variable {s x u : NodeId}

theorem adj_of_isBefore (peer : u ∈ peersOf cost x) (before : IsBefore cost marks x u) :
    (edges cost).Adj x u := by
  have edge := mem_peersOf.mp peer
  rw [edges, SimpleGraph.fromRel_adj]
  refine ⟨?_, .inl edge⟩
  rintro rfl
  have labels := congrArg BitVec.toNat before
  have bound := (cost x x).isLt
  have label_bound := (marks x).finalLabel.isLt
  rw [BitVec.toNat_sub] at labels
  have zero : (cost x x).toNat = 0 := by omega
  exact edge (BitVec.eq_of_toNat_eq zero)

namespace HasDistances

theorem mem_vertices (h : HasDistances cost s marks) (hadj : (edges cost).Adj x u) :
    x ∈ vertices cost ∧ u ∈ vertices cost :=
  ⟨Elbonian.mem_vertices.mpr ⟨u, cost_ne_zero_of_adj h.symmetric hadj⟩,
    Elbonian.mem_vertices.mpr ⟨x, cost_ne_zero_of_adj h.symmetric hadj.symm⟩⟩

theorem edgeCost_pos (h : HasDistances cost s marks) (hadj : (edges cost).Adj x u) :
    0 < edgeCost cost x u := by
  apply Nat.pos_of_ne_zero
  intro hz
  exact cost_ne_zero_of_adj h.symmetric hadj (BitVec.eq_of_toNat_eq hz)

/-- The comparison of words compares the distances. -/
theorem isBefore_iff (h : HasDistances cost s marks) (hadj : (edges cost).Adj x u) :
    IsBefore cost marks x u ↔
      (marks u).finalLabel.toNat + edgeCost cost x u = (marks x).finalLabel.toNat := by
  obtain ⟨hx, hu⟩ := h.mem_vertices hadj
  have small_x := h.label_lt x hx
  have small_u := h.label_lt u hu
  have small := h.edge_lt x u hadj
  rw [IsBefore, ← BitVec.toNat_inj, BitVec.toNat_sub]
  rw [edgeCost] at small ⊢
  omega

/-- There is a way back from each vertex but the source. -/
theorem exists_isBefore (h : HasDistances cost s marks) (hx : x ∈ vertices cost) (hne : x ≠ s) :
    ∃ u ∈ peersOf cost x, IsBefore cost marks x u := by
  obtain ⟨u, e, hadj, dist, sum⟩ := (h.dist x hx).exists_before hne
  have label := (h.dist u (h.mem_vertices hadj).1).unique dist
  refine ⟨u, mem_peersOf.mpr (cost_ne_zero_of_adj h.symmetric hadj.symm), ?_⟩
  rw [h.isBefore_iff hadj.symm, label, edgeCost, h.symmetric x u]
  exact sum

end HasDistances

/-! ## All the way back -/

/-- The variables after the way back from the end of a walk to its beginning. -/
structure HasWalked (cost : CostMatrix) (v : PathVars) {x t : NodeId}
    (p : (edges cost).Walk x t) : Prop where
  path : p.IsPath
  recorded : Recorded v p.support.reverse
  total : v.totalCost.toNat = walkCost (edgeCost cost) p

theorem HasWalked.room {v : PathVars} {t : NodeId} {p : (edges cost).Walk x t}
    (walked : HasWalked cost v p) (new : u ∉ p.support) : v.pathIndex < maxNodeCount := by
  have lt := length_lt_of_notMem walked.path.support_nodup new
  rwa [walked.recorded.index, List.length_reverse]

/-- One more vertex is recorded. -/
theorem HasWalked.cons {v : PathVars} {t : NodeId} {p : (edges cost).Walk x t}
    (walked : HasWalked cost v p) (hadj : (edges cost).Adj u x) (new : u ∉ p.support)
    {c : BitVec 32} (edge : c.toNat = edgeCost cost u x)
    (small : edgeCost cost u x + walkCost (edgeCost cost) p < 2 ^ 31) :
    HasWalked cost ⟨Function.update v.path ⟨v.pathIndex, walked.room new⟩ u.val, v.pathIndex + 1,
      v.totalCost + c⟩ (p.cons hadj) where
  path := walked.path.cons new
  recorded := by
    rw [SimpleGraph.Walk.support_cons, List.reverse_cons]
    exact walked.recorded.push _ u _
  total := by
    rw [BitVec.toNat_add, edge, walked.total, walkCost_cons, Nat.mod_eq_of_lt (by omega),
      Nat.add_comm]

/-- The loop goes back to the source over the edges of a shortest path. -/
theorem walkBack_ok (graph : GraphAt cost place marks nodes) (h : HasDistances cost s marks)
    {b : Nat} (hs : place s = some b) {t : NodeId} :
    ∀ n {x} (p : (edges cost).Walk x t) (v : PathVars), x ∈ vertices cost →
      (marks x).finalLabel.toNat = n → HasWalked cost v p →
      (∀ y ∈ p.support, n ≤ (marks y).finalLabel.toNat) →
      n + walkCost (edgeCost cost) p < 2 ^ 31 →
      ∃ v', ∃ q : (edges cost).Walk s t, walkBack cost nodes (some b) (place x) v = .ok v' ∧
        HasWalked cost v' q ∧ walkCost (edgeCost cost) q = n + walkCost (edgeCost cost) p := by
  intro n
  induction n using Nat.strong_induction_on with
  | _ n ih =>
    intro x p v hx label walked further small
    obtain ⟨a, ha⟩ := graph.exists_place (occurs_of_mem_vertices hx)
    by_cases here : x = s
    · subst here
      have zero : n = 0 := label ▸ (h.dist x hx).unique (.self x)
      refine ⟨v, p, ?_, walked, by rw [zero, Nat.zero_add]⟩
      rw [walkBack, hs, if_neg (not_not_intro rfl)]
      rfl
    · obtain ⟨u, c, peer, before, hu, found⟩ :=
        findBefore_ok graph ha (h.exists_isBefore hx here)
      have hadj := adj_of_isBefore peer before
      have step := (h.isBefore_iff hadj).mp before
      have pos := h.edgeCost_pos hadj
      have same : (cost x u).toNat = edgeCost cost u x := by rw [edgeCost, h.symmetric]
      have new : u ∉ p.support := by
        intro hm
        have le := further u hm
        omega
      have total : edgeCost cost u x + walkCost (edgeCost cost) p < 2 ^ 31 := by
        rw [edgeCost] at step
        omega
      have walked' := walked.cons hadj.symm new same total
      have further' : ∀ y ∈ (p.cons hadj.symm).support,
          (marks u).finalLabel.toNat ≤ (marks y).finalLabel.toNat := by
        intro y hy
        rw [SimpleGraph.Walk.support_cons] at hy
        rcases List.mem_cons.mp hy with rfl | hy
        · exact le_rfl
        · have le := further y hy
          omega
      have cost_cons : walkCost (edgeCost cost) (p.cons hadj.symm) =
          edgeCost cost u x + walkCost (edgeCost cost) p := walkCost_cons _ _ _
      have sum : (marks u).finalLabel.toNat + walkCost (edgeCost cost) (p.cons hadj.symm) =
          n + walkCost (edgeCost cost) p := by
        rw [edgeCost] at step
        omega
      obtain ⟨v', q, run, walked_q, cost_q⟩ := ih _ (by omega) _ _ (h.mem_vertices hadj).2 rfl
        walked' further' (by omega)
      refine ⟨v', q, ?_, walked_q, cost_q.trans sum⟩
      have apart : some a ≠ some b := by
        intro same_place
        exact here (graph.injective x s a ha (hs.trans same_place.symm))
      have load_x := load_live (graph.cells x a ha)
      have load_u := load_live (graph.cells u c hu)
      rw [hu] at run
      rw [walkBack, ha, if_pos apart]
      simp only [found, load_x, load_u, nodeOf, dif_pos (walked.room new), bind, Except.bind]
      exact run

/-- What is printed is a path from one vertex to another and its cost, which is the least. -/
def PrintsShortest (cost : CostMatrix) (s t : NodeId) (r : Except Fault (List Int × Int)) : Prop :=
  ∃ p : (edges cost).Walk s t,
    r = .ok (p.support.map fun v => (v.val : Int), walkCost (edgeCost cost) p) ∧
    p.support.length ≤ maxNodeCount ∧
    IsDist (edgeCost cost) (edges cost) s t (walkCost (edgeCost cost) p)

theorem printPath_ok (graph : GraphAt cost place marks nodes) (h : HasDistances cost s marks)
    {b : Nat} (hs : place s = some b) {t : NodeId} (ht : t ∈ vertices cost) :
    PrintsShortest cost s t (printPath cost nodes (place s) (place t)) := by
  obtain ⟨a, ha⟩ := graph.exists_place (occurs_of_mem_vertices ht)
  let v : PathVars := ⟨Function.update (fun _ => 0) firstId t.val, 1, 0⟩
  have walked : HasWalked cost v (.nil : (edges cost).Walk t t) := by
    refine ⟨.nil, ⟨rfl, fun i x hx => ?_⟩, rfl⟩
    obtain ⟨zero, rfl⟩ : i.val = 0 ∧ t = x := by
      simpa [List.getElem?_singleton] using hx
    have first : i = firstId := Fin.ext zero
    simp [v, first]
  have further : ∀ y ∈ (.nil : (edges cost).Walk t t).support,
      (marks t).finalLabel.toNat ≤ (marks y).finalLabel.toNat := by
    intro y hy
    rw [SimpleGraph.Walk.support_nil, List.mem_singleton] at hy
    rw [hy]
  obtain ⟨v', q, run, walked', cost_q⟩ := walkBack_ok graph h hs _ _ _ ht rfl walked further
    (h.label_lt t ht)
  rw [walkCost_nil, Nat.add_zero] at cost_q
  have short := walked'.path.support_nodup.length_le_card
  rw [Fintype.card_fin] at short
  have small : 2 * v'.totalCost.toNat < 2 ^ 32 := by
    have lt := h.label_lt t ht
    rw [walked'.total, cost_q]
    omega
  refine ⟨q, ?_, short, cost_q ▸ h.dist t ht⟩
  have load_t := load_live (graph.cells t a ha)
  rw [ha] at run
  rw [printPath, hs, ha]
  simp only [load_t, nodeOf, bind, Except.bind]
  rw [run]
  simp only [pure, Except.pure]
  rw [walked'.recorded.printed (by rwa [List.length_reverse]), List.reverse_reverse,
    BitVec.toInt_eq_toNat_of_lt small, walked'.total]

end Distances

/-! ## The program -/

/-- An edge costs at most as much as all edges together. -/
theorem IsCostGraph.edge_lt (h : IsCostGraph cost) (u v : NodeId) (hadj : (edges cost).Adj u v) :
    edgeCost cost u v < 2 ^ 31 := by
  have path : (hadj.toWalk).IsPath := SimpleGraph.Walk.IsPath.of_adj hadj
  have le := walkCost_le_totalCost (edgeCost cost) h.edgeCost_comm path
  have one : walkCost (edgeCost cost) hadj.toWalk = edgeCost cost u v := by
    simp [SimpleGraph.Adj.toWalk]
  rw [one] at le
  exact le.trans_lt h.bounded

/-- After the call every vertex has its distance, and the end is found unless it is the source. -/
theorem exists_call {nodeCount : Int} (valid : IsConnectedGraph cost nodeCount) {src : NodeId}
    (hsrc : src ∈ vertices cost) {dst : NodeId} (hdst : dst ∈ vertices cost) :
    ∃ nodes lists list w endNode visits, ∃ place : NodeId → Ptr, ∃ marks,
      buildGraph cost src.val = .ok (nodes, place src) ∧ newDijksList = .ok (lists, list) ∧
      dijkstraCall cost dst.val nodeCount (place src) ⟨nodes, lists⟩ list =
        .ok (w, endNode, visits) ∧
      GraphAt cost place marks w.nodes ∧ HasDistances cost src marks ∧
      endNode = if src = dst then none else place dst := by
  obtain ⟨nodes, lists, head, place, built, made, graph, list, -⟩ := exists_prepared cost hsrc
  obtain ⟨w, endNode, visits, τ, visited, called, hw, hτ, every, -, visited_iff, -, -, found,
    missed⟩ := dijkstraCall_connected graph list (valid.isCostGraph.isSearchable src)
      valid.isCostGraph.room valid.connected valid.card hsrc dst.val
  refine ⟨nodes, lists, some head, w, endNode, visits, place, τ.marks, built, made, called,
    hw.graph, ⟨valid.symmetric, valid.isCostGraph.edge_lt, ?_, ?_⟩, ?_⟩
  · exact fun v hv => (hτ.complete every hv).2.1
  · exact fun v hv => (hτ.complete every hv).2.2
  · split_ifs with same
    · apply missed
      intro v hv he
      have hvd : v = dst := Fin.ext (Int.ofNat_inj.mp he)
      exact ((visited_iff v).mp hv).2 (hvd.trans same.symm)
    · exact found dst ((visited_iff dst).mpr ⟨hdst, fun he => same he.symm⟩) rfl

/-- What `main` prints is a shortest path exactly when the destination is not the source. -/
theorem printPath_shortest_iff {nodeCount : Int} (valid : IsConnectedGraph cost nodeCount)
    (src dst : NodeId) (hsrc : src ∈ vertices cost) (hdst : dst ∈ vertices cost) :
    ∃ nodes start lists list w endNode visits, buildGraph cost src.val = .ok (nodes, start) ∧
      newDijksList = .ok (lists, list) ∧
      dijkstraCall cost dst.val nodeCount start ⟨nodes, lists⟩ list = .ok (w, endNode, visits) ∧
      (PrintsShortest cost src dst (printPath cost w.nodes start endNode) ↔ dst ≠ src) := by
  obtain ⟨nodes, lists, list, w, endNode, visits, place, marks, built, made, called, graph,
    distances, found⟩ := exists_call valid hsrc hdst
  refine ⟨nodes, place src, lists, list, w, endNode, visits, built, made, called, ?_, ?_⟩
  · rintro ⟨p, printed, -⟩ rfl
    rw [found, if_pos rfl] at printed
    cases printed
  · intro differ
    obtain ⟨b, hb⟩ := graph.exists_place (occurs_of_mem_vertices hsrc)
    rw [found, if_neg differ.symm]
    exact printPath_ok graph distances hb hdst

/-- The way between the two ends of the road. -/
theorem printPath_oneRoad :
    ∃ nodes start lists list w endNode visits, buildGraph oneRoad 0 = .ok (nodes, start) ∧
      newDijksList = .ok (lists, list) ∧
      dijkstraCall oneRoad 1 2 start ⟨nodes, lists⟩ list = .ok (w, endNode, visits) ∧
      PrintsShortest oneRoad firstId secondId (printPath oneRoad w.nodes start endNode) := by
  obtain ⟨nodes, start, lists, list, w, endNode, visits, built, made, called, prints⟩ :=
    printPath_shortest_iff oneRoad_isConnectedGraph firstId secondId
      (mem_vertices_oneRoad.mpr (.inl rfl)) (mem_vertices_oneRoad.mpr (.inr rfl))
  exact ⟨nodes, start, lists, list, w, endNode, visits, built, made, called,
    prints.mpr (by decide)⟩

/-- From one end of the road to itself, the call finds no end, and `main` reads through the
null pointer. -/
theorem printPath_oneRoad_same :
    ∃ nodes start lists list w visits, buildGraph oneRoad 0 = .ok (nodes, start) ∧
      newDijksList = .ok (lists, list) ∧
      dijkstraCall oneRoad 0 2 start ⟨nodes, lists⟩ list = .ok (w, none, visits) ∧
      printPath oneRoad w.nodes start none = .error .nullPointer ∧
      ¬ PrintsShortest oneRoad firstId firstId (printPath oneRoad w.nodes start none) := by
  have hsrc : firstId ∈ vertices oneRoad := mem_vertices_oneRoad.mpr (.inl rfl)
  obtain ⟨nodes, lists, list, w, endNode, visits, place, marks, built, made, called, -, -, found⟩ :=
    exists_call oneRoad_isConnectedGraph hsrc hsrc
  rw [if_pos rfl] at found
  subst found
  refine ⟨nodes, place firstId, lists, list, w, visits, built, made, called, rfl, ?_⟩
  rintro ⟨p, printed, -⟩
  cases printed

end SamplePrograms.Elbonian
