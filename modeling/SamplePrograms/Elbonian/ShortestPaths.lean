import SamplePrograms.Elbonian.Search
import SamplePrograms.Library.ShortestPath

/-!
# The search finds shortest paths

Between two iterations of the main loop the visited vertices are settled, the
label of any other vertex is the least cost that a visited vertex offers it, and
the worklist holds the vertices that were offered something. The costs of all
edges together are below `2 ^ 31`, so that no sum of costs overflows and zero
is never the label of a vertex that was offered something.
-/

namespace SamplePrograms.Elbonian
open Memory ShortestPath

/-! ## Matrices of costs -/

/-- The graph of the edges with a cost. -/
def edges (cost : CostMatrix) : SimpleGraph NodeId := SimpleGraph.fromRel fun u v => cost u v ≠ 0

def edgeCost (cost : CostMatrix) (u v : NodeId) : ℕ := (cost u v).toNat

/-- The vertices with at least one edge. -/
def vertices (cost : CostMatrix) : Finset NodeId :=
  Finset.univ.filter fun v => ∃ u, cost v u ≠ 0

theorem mem_vertices {cost : CostMatrix} {v : NodeId} : v ∈ vertices cost ↔ ∃ u, cost v u ≠ 0 := by
  simp [vertices]

theorem occurs_of_mem_vertices {cost : CostMatrix} {v : NodeId} (hv : v ∈ vertices cost) :
    Occurs cost v := by
  obtain ⟨u, hu⟩ := mem_vertices.mp hv
  exact ⟨u, .inl hu⟩

/-- The matrix of a graph whose edges together do not overflow a label. -/
structure IsCostGraph (cost : CostMatrix) : Prop where
  symmetric : ∀ u v, cost u v = cost v u
  zeroDiagonal : ∀ v, cost v v = 0
  bounded : totalCost (edgeCost cost) < 2 ^ 31

/-- The matrix of a connected graph with a number of vertices. -/
structure IsConnectedGraph (cost : CostMatrix) (nodeCount : Int) : Prop where
  symmetric : ∀ u v, cost u v = cost v u
  zeroDiagonal : ∀ v, cost v v = 0
  bounded : totalCost (edgeCost cost) < 2 ^ 31
  connected : ∀ u ∈ vertices cost, ∀ v ∈ vertices cost, (edges cost).Reachable u v
  card : ((vertices cost).card : Int) = nodeCount

namespace IsCostGraph
variable {cost : CostMatrix}

theorem occurs_iff (h : IsCostGraph cost) {v : NodeId} :
    Occurs cost v ↔ v ∈ vertices cost := by
  rw [Occurs, mem_vertices]
  apply exists_congr
  intro u
  rw [h.symmetric u v, or_self]

theorem edgeCost_comm (h : IsCostGraph cost) (u v : NodeId) :
    edgeCost cost u v = edgeCost cost v u := by
  rw [edgeCost, edgeCost, h.symmetric]

/-- Each row has a slot left. -/
theorem room (h : IsCostGraph cost) (v : NodeId) :
    (peersOf cost v).length < maxNodeCount := by
  apply length_lt_of_notMem (peersOf_nodup v) (v := v)
  simp [h.zeroDiagonal v]

end IsCostGraph

/-- The vertices that can be reached from a vertex. -/
def reach (cost : CostMatrix) (s : NodeId) : Set NodeId := {v | (edges cost).Reachable s v}

theorem cost_ne_zero_of_adj {cost : CostMatrix} (sym : ∀ u v, cost u v = cost v u) {u v : NodeId}
    (hadj : (edges cost).Adj u v) : cost u v ≠ 0 := by
  rw [edges, SimpleGraph.fromRel_adj, sym v u, or_self] at hadj
  exact hadj.2

theorem reach_subset_vertices {cost : CostMatrix} (sym : ∀ u v, cost u v = cost v u) {s : NodeId}
    (hs : s ∈ vertices cost) : reach cost s ⊆ vertices cost := by
  rintro v ⟨p⟩
  rw [Finset.mem_coe]
  cases p.reverse with
  | nil => exact hs
  | cons hadj p => exact mem_vertices.mpr ⟨_, cost_ne_zero_of_adj sym hadj⟩

/-- In a connected graph every vertex can be reached. -/
theorem reach_eq_vertices {cost : CostMatrix} (sym : ∀ u v, cost u v = cost v u)
    (connected : ∀ u ∈ vertices cost, ∀ v ∈ vertices cost, (edges cost).Reachable u v) {s : NodeId}
    (hs : s ∈ vertices cost) : reach cost s = vertices cost := by
  apply Set.Subset.antisymm (reach_subset_vertices sym hs)
  intro v hv
  exact connected s hs v hv

theorem IsConnectedGraph.isCostGraph {cost : CostMatrix} {nodeCount : Int}
    (h : IsConnectedGraph cost nodeCount) : IsCostGraph cost :=
  ⟨h.symmetric, h.zeroDiagonal, h.bounded⟩

theorem IsConnectedGraph.reach_eq {cost : CostMatrix} {nodeCount : Int}
    (h : IsConnectedGraph cost nodeCount) {s : NodeId} (hs : s ∈ vertices cost) :
    reach cost s = vertices cost := reach_eq_vertices h.symmetric h.connected hs

/-! ## Matrices that can be searched -/

/-- The start has no edge to itself, and no offer overflows a label on the way outwards. -/
structure IsSearchable (cost : CostMatrix) (s : NodeId) : Prop where
  symmetric : ∀ u v, cost u v = cost v u
  noLoop : cost s s = 0
  fits : ∀ S d, Settled (edgeCost cost) (edges cost) s S d →
    Nearest (edgeCost cost) (edges cost) s S d →
    ∀ y ∉ S, ∀ c ∈ offers (edgeCost cost) (edges cost) S d y, c < 2 ^ 31

namespace IsSearchable
variable {cost : CostMatrix} {s : NodeId}

theorem adj_iff (h : IsSearchable cost s) {u v : NodeId} (hne : u ≠ v) :
    (edges cost).Adj u v ↔ cost u v ≠ 0 := by
  rw [edges, SimpleGraph.fromRel_adj, h.symmetric v u, or_self]
  exact and_iff_right hne

theorem edgeCost_pos (h : IsSearchable cost s) {u v : NodeId} (hadj : (edges cost).Adj u v) :
    0 < edgeCost cost u v := by
  apply Nat.pos_of_ne_zero
  intro hz
  exact cost_ne_zero_of_adj h.symmetric hadj (BitVec.eq_of_toNat_eq hz)

end IsSearchable

/-- Costs that do not overflow together do not overflow on the way. -/
theorem IsCostGraph.isSearchable {cost : CostMatrix} (h : IsCostGraph cost) (s : NodeId) :
    IsSearchable cost s where
  symmetric := h.symmetric
  noLoop := h.zeroDiagonal s
  fits _ _ settled _ _ hy _ hc :=
    (settled.offer_le_totalCost h.edgeCost_comm hy hc).trans_lt h.bounded

/-! ## A graph of one road -/

/-- One road, between the first two ids. -/
def oneRoad : CostMatrix := fun u v => if u.val + v.val = 1 then 5 else 0

theorem mem_vertices_oneRoad {v : NodeId} :
    v ∈ vertices oneRoad ↔ v = firstId ∨ v = secondId := by
  have ends : v = firstId ∨ v = secondId ↔ v.val = 0 ∨ v.val = 1 := by
    rw [Fin.ext_iff, Fin.ext_iff, firstId, secondId]
  rw [mem_vertices, ends]
  constructor
  · rintro ⟨u, hu⟩
    by_cases h : v.val + u.val = 1
    · omega
    · exact absurd (if_neg h) hu
  · rintro (h | h)
    · exact ⟨secondId, by simp [oneRoad, secondId, h]⟩
    · exact ⟨firstId, by simp [oneRoad, firstId, h]⟩

theorem totalCost_oneRoad : totalCost (edgeCost oneRoad) = 5 := by
  apply totalCost_single (a := firstId) (b := secondId)
  · exact Nat.zero_lt_one
  · intro u v huv hne
    have apart : ¬ u.val + v.val = 1 := by
      intro he
      have hlt : u.val < v.val := huv
      have hu : u.val = 0 := by omega
      have hv : v.val = 1 := by omega
      exact hne (Prod.ext (Fin.ext hu) (Fin.ext hv))
    rw [edgeCost, oneRoad, if_neg apart]
    rfl

theorem oneRoad_isConnectedGraph : IsConnectedGraph oneRoad 2 where
  symmetric := by
    intro u v
    rw [oneRoad, oneRoad, Nat.add_comm]
  zeroDiagonal := by
    intro v
    rw [oneRoad, if_neg (by omega)]
  bounded := by
    rw [totalCost_oneRoad]
    decide
  connected := by
    have road : (edges oneRoad).Adj firstId secondId := by
      rw [edges, SimpleGraph.fromRel_adj]
      decide
    intro u hu v hv
    rcases mem_vertices_oneRoad.mp hu with rfl | rfl <;>
      rcases mem_vertices_oneRoad.mp hv with rfl | rfl
    · rfl
    · exact road.reachable
    · exact road.symm.reachable
    · rfl
  card := by
    have pair : vertices oneRoad = {firstId, secondId} := by
      ext v
      rw [mem_vertices_oneRoad, Finset.mem_insert, Finset.mem_singleton]
    rw [pair]
    rfl

/-! ## Labels as words -/

/-- The comparison of labels is that of numbers below `2 ^ 31`. -/
theorem slt_iff_toNat_lt {a b : BitVec 32} (ha : a.toNat < 2 ^ 31) (hb : b.toNat < 2 ^ 31) :
    a.slt b ↔ a.toNat < b.toNat := by
  rw [BitVec.slt_iff_toInt_lt, BitVec.toInt_eq_toNat_of_lt (by omega),
    BitVec.toInt_eq_toNat_of_lt (by omega)]
  exact Int.ofNat_lt

theorem better_toNat {t c : BitVec 32} (ht : t.toNat < 2 ^ 31) (hc : c.toNat < 2 ^ 31) :
    (better t c).toNat =
      if t.toNat = 0 then c.toNat else if c.toNat < t.toNat then c.toNat else t.toNat := by
  have zero : t = 0 ↔ t.toNat = 0 := by
    rw [← BitVec.toNat_inj]
    rfl
  rw [better]
  simp only [zero, slt_iff_toNat_lt hc ht]
  split_ifs <;> rfl

/-! ## A scan over peers -/

namespace Search
variable {cost : CostMatrix}

/-- What a vertex has done to the peers that were passed. -/
structure Scanned (cost : CostMatrix) (u : NodeId) (l : List NodeId) (σ τ : Search) : Prop where
  visited : ∀ y, (τ.marks y).visited = (σ.marks y).visited
  finalLabel : ∀ y, (τ.marks y).finalLabel = (σ.marks y).finalLabel
  tempLabel : ∀ y, (τ.marks y).tempLabel =
    if y ∈ l ∧ (σ.marks y).visited = false then
      better (σ.marks y).tempLabel ((σ.marks u).finalLabel + cost u y)
    else (σ.marks y).tempLabel
  worklist : ∀ y, y ∈ τ.worklist ↔ y ∈ σ.worklist ∨ y ∈ l ∧ (σ.marks y).visited = false
  nodup : σ.worklist.Nodup → τ.worklist.Nodup

theorem label_marks (σ : Search) (v y : NodeId) (t : BitVec 32) :
    (σ.label v t).marks y = if y = v then { σ.marks v with tempLabel := t } else σ.marks y :=
  Function.update_apply _ _ _ _

theorem scanned_nil (u : NodeId) (σ : Search) : Scanned cost u [] σ σ where
  visited _ := rfl
  finalLabel _ := rfl
  tempLabel := by simp
  worklist := by simp
  nodup h := h

/-- A step of the scan. -/
theorem scanned_relax (u v : NodeId) (σ : Search) : Scanned cost u [v] σ (σ.relax cost u v) := by
  by_cases unvisited : (σ.marks v).visited = false
  · have step : σ.relax cost u v =
        σ.label v (better (σ.marks v).tempLabel ((σ.marks u).finalLabel + cost u v)) :=
      if_pos unvisited
    rw [step]
    refine ⟨?_, ?_, ?_, ?_, fun h => h.insert⟩
    · intro y
      rw [label_marks]
      split_ifs with hy
      · rw [hy]
      · rfl
    · intro y
      rw [label_marks]
      split_ifs with hy
      · rw [hy]
      · rfl
    · intro y
      rw [label_marks]
      by_cases hy : y = v
      · subst y
        rw [if_pos rfl, if_pos ⟨List.mem_singleton_self v, unvisited⟩]
      · rw [if_neg hy, if_neg fun hm => hy (List.mem_singleton.mp hm.1)]
    · intro y
      have inserted : y ∈ σ.worklist.insert v ↔ y = v ∨ y ∈ σ.worklist := List.mem_insert_iff
      rw [label, inserted, List.mem_singleton, or_comm]
      refine or_congr_right ⟨?_, fun hm => hm.1⟩
      rintro rfl
      exact ⟨rfl, unvisited⟩
  · have step : σ.relax cost u v = σ := if_neg unvisited
    rw [step]
    refine ⟨fun _ => rfl, fun _ => rfl, ?_, ?_, fun h => h⟩
    · intro y
      rw [if_neg]
      rintro ⟨hy, unvisited'⟩
      exact unvisited (List.mem_singleton.mp hy ▸ unvisited')
    · intro y
      refine ⟨.inl, ?_⟩
      rintro (hy | ⟨hy, unvisited'⟩)
      · exact hy
      · exact absurd (List.mem_singleton.mp hy ▸ unvisited') unvisited

theorem Scanned.cons {u v : NodeId} {l : List NodeId} {ρ σ τ : Search} (hv : v ∉ l)
    (first : Scanned cost u [v] ρ σ) (rest : Scanned cost u l σ τ) :
    Scanned cost u (v :: l) ρ τ := by
  refine ⟨?_, ?_, ?_, ?_, fun h => rest.nodup (first.nodup h)⟩
  · intro y
    rw [rest.visited, first.visited]
  · intro y
    rw [rest.finalLabel, first.finalLabel]
  · intro y
    rw [rest.tempLabel, first.tempLabel, first.visited, first.finalLabel]
    by_cases hy : y = v
    · subst y
      simp [hv]
    · simp [hy]
  · intro y
    rw [rest.worklist, first.worklist, first.visited, List.mem_singleton, List.mem_cons]
    tauto

/-- The scan over distinct peers. -/
theorem scanned (u : NodeId) {l : List NodeId} (nodup : l.Nodup) (σ : Search) :
    Scanned cost u l σ (l.foldl (relax cost u) σ) := by
  induction l generalizing σ with
  | nil => exact scanned_nil u σ
  | cons v rest ih =>
      obtain ⟨hv, nodup⟩ := List.nodup_cons.mp nodup
      exact (scanned_relax u v σ).cons hv (ih nodup _)

/-- The start treats its peers like any other vertex does, as none of them has a label yet. -/
theorem foldl_labelStart {s : NodeId} {l : List NodeId} (nodup : l.Nodup) {σ : Search}
    (new : ∀ v ∈ l, (σ.marks v).visited = false ∧ (σ.marks v).tempLabel = 0) :
    l.foldl (labelStart cost s) σ = l.foldl (relax cost s) σ := by
  induction l generalizing σ with
  | nil => rfl
  | cons v rest ih =>
      obtain ⟨hv, nodup⟩ := List.nodup_cons.mp nodup
      obtain ⟨unvisited, unlabelled⟩ := new v List.mem_cons_self
      have step : σ.relax cost s v = σ.labelStart cost s v := by
        rw [relax, if_pos unvisited, better, if_pos unlabelled, labelStart]
      rw [List.foldl_cons, List.foldl_cons, step]
      apply ih nodup
      intro y hy
      have hyv : y ≠ v := fun he => hv (he ▸ hy)
      have same : (σ.labelStart cost s v).marks y = σ.marks y := Function.update_of_ne hyv _ _
      rw [same]
      exact new y (List.mem_cons_of_mem v hy)

/-! ## The invariant of the main loop -/

def visitedSet (σ : Search) : Set NodeId := {v | (σ.marks v).visited = true}

def final (σ : Search) (v : NodeId) : ℕ := (σ.marks v).finalLabel.toNat

def temp (σ : Search) (v : NodeId) : ℕ := (σ.marks v).tempLabel.toNat

/-- The labels and the worklist account for what the vertices of a set offer. -/
structure Offered (cost : CostMatrix) (σ : Search) (S : Set NodeId) (d : NodeId → ℕ) : Prop where
  label : ∀ y ∉ σ.visitedSet, IsLabel (offers (edgeCost cost) (edges cost) S d y) (σ.temp y)
  worklist : ∀ y, y ∈ σ.worklist ↔
    y ∉ σ.visitedSet ∧ (offers (edgeCost cost) (edges cost) S d y).Nonempty
  nodup : σ.worklist.Nodup

/-- The visited vertices are settled, and their offers are accounted for. -/
structure Frontier (cost : CostMatrix) (s : NodeId) (σ : Search) : Prop where
  settled : Settled (edgeCost cost) (edges cost) s σ.visitedSet σ.final
  offered : Offered cost σ σ.visitedSet σ.final
  inside : ∀ v ∈ σ.visitedSet, v ∈ vertices cost

/-- A frontier with the visited vertices nearest to the source, and with labels that are
not negative. -/
structure NearFrontier (cost : CostMatrix) (s : NodeId) (σ : Search) : Prop
    extends Frontier cost s σ where
  nearest : Nearest (edgeCost cost) (edges cost) s σ.visitedSet σ.final
  small : ∀ v ∈ σ.visitedSet, σ.final v < 2 ^ 31

section Frontier
variable {s u : NodeId} {σ τ : Search}

theorem notMem_visitedSet {v : NodeId} : v ∉ σ.visitedSet ↔ (σ.marks v).visited = false := by
  simp [visitedSet]

theorem Scanned.visitedSet_eq {l : List NodeId} (h : Scanned cost u l σ τ) :
    τ.visitedSet = σ.visitedSet := by
  ext y
  simp [visitedSet, h.visited]

theorem Scanned.final_eq {l : List NodeId} (h : Scanned cost u l σ τ) : τ.final = σ.final := by
  funext y
  simp [final, h.finalLabel]

/-- A label does not overflow. -/
theorem Offered.temp_lt (valid : IsSearchable cost s)
    (settled : Settled (edgeCost cost) (edges cost) s σ.visitedSet σ.final)
    (nearest : Nearest (edgeCost cost) (edges cost) s σ.visitedSet σ.final) {S : Set NodeId}
    (sub : S ⊆ σ.visitedSet) (h : Offered cost σ S σ.final) {y : NodeId} (hy : y ∉ σ.visitedSet) :
    σ.temp y < 2 ^ 31 := by
  rcases h.label y hy with ⟨-, zero⟩ | least
  · rw [zero]
    decide
  · exact valid.fits _ _ settled nearest y hy _ (offers_mono sub least.1)

/-- A scan accounts for the offers of one more visited vertex. -/
theorem Offered.scan (valid : IsSearchable cost s)
    (settled : Settled (edgeCost cost) (edges cost) s σ.visitedSet σ.final)
    (nearest : Nearest (edgeCost cost) (edges cost) s σ.visitedSet σ.final) {S : Set NodeId}
    (visited : σ.visitedSet = insert u S) (h : Offered cost σ S σ.final)
    (scan : Scanned cost u (peersOf cost u) σ τ) : Offered cost τ τ.visitedSet τ.final := by
  have sub : S ⊆ σ.visitedSet := visited ▸ Set.subset_insert u S
  have hu : u ∈ σ.visitedSet := visited ▸ Set.mem_insert u S
  have peer_iff : ∀ {y}, y ∉ σ.visitedSet → (y ∈ peersOf cost u ↔ (edges cost).Adj u y) := by
    intro y hy
    rw [mem_peersOf, valid.adj_iff]
    rintro rfl
    exact hy hu
  rw [scan.visitedSet_eq, scan.final_eq]
  refine ⟨?_, ?_, scan.nodup h.nodup⟩
  · intro y hy
    rw [scan.visitedSet_eq] at hy
    have unvisited := notMem_visitedSet.mp hy
    by_cases hadj : (edges cost).Adj u y
    · have peer : y ∈ peersOf cost u ∧ (σ.marks y).visited = false :=
        ⟨(peer_iff hy).mpr hadj, unvisited⟩
      have bound := valid.fits _ _ settled nearest y hy _ ⟨u, hu, hadj, rfl⟩
      have offer : ((σ.marks u).finalLabel + cost u y).toNat = σ.final u + edgeCost cost u y := by
        rw [BitVec.toNat_add]
        apply Nat.mod_eq_of_lt
        exact bound.trans (by decide)
      have label : τ.temp y = if σ.temp y = 0 then σ.final u + edgeCost cost u y
          else if σ.final u + edgeCost cost u y < σ.temp y then σ.final u + edgeCost cost u y
          else σ.temp y := by
        rw [temp, scan.tempLabel, if_pos peer,
          better_toNat (h.temp_lt valid settled nearest sub hy), offer]
        · rfl
        · rw [offer]
          exact bound
      rw [visited, offers_insert_adj hadj, label]
      apply (h.label y hy).insert
      rintro c ⟨x, -, hxy, rfl⟩
      exact Nat.add_pos_right _ (valid.edgeCost_pos hxy)
    · have no_peer : ¬ (y ∈ peersOf cost u ∧ (σ.marks y).visited = false) :=
        fun hm => hadj ((peer_iff hy).mp hm.1)
      rw [visited, offers_insert_not_adj hadj, temp, scan.tempLabel, if_neg no_peer]
      exact h.label y hy
  · intro y
    rw [scan.worklist, h.worklist, scan.visitedSet_eq, ← notMem_visitedSet]
    by_cases hy : y ∈ σ.visitedSet
    · simp only [hy, not_true_eq_false, false_and, and_false, or_false]
    · rw [peer_iff hy, visited]
      rw [visited] at hy
      by_cases hadj : (edges cost).Adj u y
      · simp only [offers_insert_adj hadj, Set.insert_nonempty, hadj, hy, not_false_eq_true,
          true_and, and_true, or_true]
      · simp only [offers_insert_not_adj hadj, hadj, false_and, or_false]

/-! ## An iteration of the main loop -/

/-- The next vertex is on the worklist, and no other there has a smaller label. -/
theorem next_spec {v : NodeId} (h : σ.next = some v) :
    v ∈ σ.worklist ∧
      ∀ y ∈ σ.worklist, (σ.marks v).tempLabel.toInt ≤ (σ.marks y).tempLabel.toInt := by
  cases hl : σ.worklist with
  | nil => simp [next, hl] at h
  | cons x rest =>
      simp only [next, hl, Option.some.injEq] at h
      have mem := firstLeast_mem (fun v => (σ.marks v).tempLabel) (x :: rest) x
      have least := firstLeast_le (fun v => (σ.marks v).tempLabel) (x :: rest) x
      rw [h] at mem least
      refine ⟨?_, fun y hy => least y (List.mem_cons_of_mem x hy)⟩
      rcases List.mem_cons.mp mem with rfl | hm
      · exact List.mem_cons_self
      · exact hm

theorem exists_next (h : σ.worklist ≠ []) : ∃ v, σ.next = some v := by
  cases hl : σ.worklist with
  | nil => exact absurd hl h
  | cons x rest => exact ⟨_, by rw [next, hl]⟩

theorem finalise_visitedSet (σ : Search) (v : NodeId) (k : Int) :
    (σ.finalise v k).visitedSet = insert v σ.visitedSet := by
  ext y
  by_cases hy : y = v
  · subst y
    simp [visitedSet, finalise]
  · simp [visitedSet, finalise, hy]

theorem finalise_final_self (σ : Search) (v : NodeId) (k : Int) :
    (σ.finalise v k).final v = σ.temp v := by
  simp [final, finalise, temp]

theorem finalise_final_of_ne {v y : NodeId} (h : y ≠ v) (k : Int) :
    (σ.finalise v k).final y = σ.final y := by
  simp [final, finalise, h]

theorem finalise_temp_of_ne {v y : NodeId} (h : y ≠ v) (k : Int) :
    (σ.finalise v k).temp y = σ.temp y := by
  simp [temp, finalise, h]

/-- The label of the next vertex is its distance. -/
theorem NearFrontier.least_offer (valid : IsSearchable cost s) (h : NearFrontier cost s σ)
    {v : NodeId} (next : σ.next = some v) :
    v ∉ σ.visitedSet ∧ σ.temp v ∈ offers (edgeCost cost) (edges cost) σ.visitedSet σ.final v ∧
      ∀ y ∉ σ.visitedSet, ∀ c ∈ offers (edgeCost cost) (edges cost) σ.visitedSet σ.final y,
        σ.temp v ≤ c := by
  obtain ⟨hv, least⟩ := next_spec next
  obtain ⟨unvisited, offered⟩ := (h.offered.worklist v).mp hv
  have is_least : ∀ y ∉ σ.visitedSet,
      (offers (edgeCost cost) (edges cost) σ.visitedSet σ.final y).Nonempty →
      IsLeast (offers (edgeCost cost) (edges cost) σ.visitedSet σ.final y) (σ.temp y) := by
    intro y hy some_offer
    rcases h.offered.label y hy with ⟨none_offered, -⟩ | label
    · exact absurd none_offered some_offer.ne_empty
    · exact label
  refine ⟨unvisited, (is_least v unvisited offered).1, ?_⟩
  intro y hy c hc
  have small_v := h.offered.temp_lt valid h.settled h.nearest subset_rfl unvisited
  have small_y := h.offered.temp_lt valid h.settled h.nearest subset_rfl hy
  have le := least y ((h.offered.worklist y).mpr ⟨hy, c, hc⟩)
  rw [BitVec.toInt_eq_toNat_of_lt (by rw [temp] at small_v; omega),
    BitVec.toInt_eq_toNat_of_lt (by rw [temp] at small_y; omega)] at le
  exact (Int.ofNat_le.mp le).trans ((is_least y hy ⟨c, hc⟩).2 hc)

/-- A visit keeps the invariant. -/
theorem NearFrontier.visit (valid : IsSearchable cost s) (h : NearFrontier cost s σ)
    {v : NodeId} (next : σ.next = some v) (k : Int) :
    NearFrontier cost s (σ.visit cost v k) ∧
      (σ.visit cost v k).visitedSet = insert v σ.visitedSet ∧ v ∉ σ.visitedSet := by
  obtain ⟨unvisited, offer, least⟩ := h.least_offer valid next
  have visited := finalise_visitedSet σ v k
  have same : ∀ x ∈ σ.visitedSet, (σ.finalise v k).final x = σ.final x := by
    intro x hx
    apply finalise_final_of_ne
    rintro rfl
    exact unvisited hx
  have least' : ∀ y ∉ σ.visitedSet, ∀ c ∈ offers (edgeCost cost) (edges cost) σ.visitedSet
      (σ.finalise v k).final y, (σ.finalise v k).final v ≤ c := by
    intro y hy c hc
    rw [offers_congr same] at hc
    rw [finalise_final_self]
    exact least y hy c hc
  have settled : Settled (edgeCost cost) (edges cost) s (σ.finalise v k).visitedSet
      (σ.finalise v k).final := by
    rw [visited]
    apply (h.settled.congr same).insert unvisited _ least'
    rw [offers_congr same, finalise_final_self]
    exact offer
  have nearest : Nearest (edgeCost cost) (edges cost) s (σ.finalise v k).visitedSet
      (σ.finalise v k).final := by
    rw [visited]
    exact (h.nearest.congr same).insert (h.settled.congr same) least'
  have offered : Offered cost (σ.finalise v k) σ.visitedSet (σ.finalise v k).final := by
    refine ⟨?_, ?_, h.offered.nodup.erase v⟩
    · intro y hy
      rw [visited, Set.mem_insert_iff, not_or] at hy
      rw [offers_congr same, finalise_temp_of_ne hy.1]
      exact h.offered.label y hy.2
    · intro y
      rw [offers_congr same, visited, Set.mem_insert_iff, not_or, and_assoc, ← h.offered.worklist]
      exact h.offered.nodup.mem_erase_iff
  have scan : Scanned cost v (peersOf cost v) (σ.finalise v k) (σ.visit cost v k) :=
    scanned v (peersOf_nodup v) _
  have visited' := scan.visitedSet_eq.trans visited
  refine ⟨⟨⟨?_, offered.scan valid settled nearest visited scan, ?_⟩, ?_, ?_⟩, visited',
    unvisited⟩
  · rw [scan.visitedSet_eq, scan.final_eq]
    exact settled
  · intro u hu
    rw [visited'] at hu
    rcases hu with rfl | hu
    · obtain ⟨x, -, hadj, -⟩ := offer
      exact mem_vertices.mpr ⟨x, cost_ne_zero_of_adj valid.symmetric hadj.symm⟩
    · exact h.inside u hu
  · rw [scan.visitedSet_eq, scan.final_eq]
    exact nearest
  · intro u hu
    rw [visited'] at hu
    rw [scan.final_eq]
    rcases hu with rfl | hu
    · rw [finalise_final_self]
      exact valid.fits _ _ h.settled h.nearest u unvisited _ offer
    · rw [same u hu]
      exact h.small u hu

/-! ## Whole runs -/

theorem initial_visitedSet (s : NodeId) : (initial s).visitedSet = {s} := by
  ext y
  by_cases hy : y = s
  · subst y
    simp [visitedSet, initial]
  · simp [visitedSet, initial, hy, Marks.cleared]

/-- The start scans its peers if it is none of them. -/
theorem scanned_started (noLoop : cost s s = 0) :
    Scanned cost s (peersOf cost s) (initial s) (started cost s) := by
  rw [started, foldl_labelStart (peersOf_nodup s)]
  · exact scanned s (peersOf_nodup s) _
  · intro v hv
    have hvs : v ≠ s := by
      rintro rfl
      exact mem_peersOf.mp hv noLoop
    simp [initial, hvs, Marks.cleared]

/-- When the main loop begins, the start is settled and has labelled its peers. -/
theorem frontier_started (valid : IsSearchable cost s) (hs : s ∈ vertices cost) :
    NearFrontier cost s (started cost s) ∧ (started cost s).visitedSet = {s} := by
  have scan := scanned_started valid.noLoop
  have settled :
      Settled (edgeCost cost) (edges cost) s (initial s).visitedSet (initial s).final := by
    rw [initial_visitedSet]
    apply Settled.start
    simp [final, initial]
  have nearest :
      Nearest (edgeCost cost) (edges cost) s (initial s).visitedSet (initial s).final := by
    rw [initial_visitedSet]
    apply Nearest.start
    simp [final, initial]
  have offered : Offered cost (initial s) ∅ (initial s).final := by
    have none_offered : ∀ y, offers (edgeCost cost) (edges cost) ∅ (initial s).final y = ∅ := by
      intro y
      simp [offers]
    refine ⟨?_, ?_, List.nodup_nil⟩
    · intro y hy
      rw [initial_visitedSet] at hy
      left
      exact ⟨none_offered y, by simp [temp, initial, show y ≠ s from hy, Marks.cleared]⟩
    · intro y
      rw [none_offered]
      simp [initial]
  have visited : (initial s).visitedSet = insert s ∅ := by
    rw [initial_visitedSet, insert_empty_eq]
  have visited' := scan.visitedSet_eq.trans (initial_visitedSet s)
  refine ⟨⟨⟨?_, offered.scan valid settled nearest visited scan, ?_⟩, ?_, ?_⟩, visited'⟩
  · rw [scan.visitedSet_eq, scan.final_eq]
    exact settled
  · rw [visited']
    rintro v rfl
    exact hs
  · rw [scan.visitedSet_eq, scan.final_eq]
    exact nearest
  · rw [visited', scan.final_eq]
    rintro v rfl
    simp [final, initial]

/-- The visited vertices can be reached. -/
theorem Frontier.subset_reach (h : Frontier cost s σ) : σ.visitedSet ⊆ reach cost s := by
  intro v hv
  obtain ⟨p, -⟩ := h.settled.path v hv
  exact ⟨p⟩

/-- As long as a vertex can be reached and was not visited, the worklist is not empty. -/
theorem Frontier.exists_next (h : Frontier cost s σ) {x : NodeId} (hx : x ∈ reach cost s)
    (unvisited : x ∉ σ.visitedSet) : ∃ v, σ.next = some v := by
  obtain ⟨p⟩ := hx
  obtain ⟨y, hy, c, hc, -⟩ := h.settled.exists_offer_le unvisited p
  have listed := (h.offered.worklist y).mpr ⟨hy, c, hc⟩
  exact Search.exists_next (List.ne_nil_of_mem listed)

/-- The main loop visits one more vertex in each iteration, as long as there are any. -/
theorem NearFrontier.loop (valid : IsSearchable cost s) (n : Nat) :
    ∀ {σ : Search} (orderId : Int), NearFrontier cost s σ →
      σ.visitedSet.ncard + n ≤ (reach cost s).ncard →
      ∃ τ visited, σ.loop cost n orderId = some (τ, visited) ∧ NearFrontier cost s τ ∧
        τ.visitedSet.ncard = σ.visitedSet.ncard + n ∧ visited.Nodup ∧
        (∀ v ∈ visited, v ∉ σ.visitedSet) ∧
        ∀ v, v ∈ τ.visitedSet ↔ v ∈ σ.visitedSet ∨ v ∈ visited := by
  induction n with
  | zero =>
      intro σ orderId h count
      exact ⟨σ, [], rfl, h, rfl, List.nodup_nil, by simp, by simp⟩
  | succ n ih =>
      intro σ orderId h count
      have fewer : σ.visitedSet.ncard < (reach cost s).ncard := by omega
      obtain ⟨x, hx, unvisited⟩ := Set.exists_mem_notMem_of_ncard_lt_ncard fewer
      obtain ⟨v, next⟩ := h.exists_next hx unvisited
      obtain ⟨h', visited_v, new⟩ := h.visit valid next (orderId + 1)
      have one_more : (σ.visit cost v (orderId + 1)).visitedSet.ncard = σ.visitedSet.ncard + 1 := by
        rw [visited_v, Set.ncard_insert_of_notMem new]
      obtain ⟨τ, visited, run, hτ, size, nodup, apart, all⟩ := ih (orderId + 1) h' (by omega)
      rw [visited_v] at apart all
      refine ⟨τ, v :: visited, ?_, hτ, by omega, ?_, ?_, ?_⟩
      · simp only [Search.loop, next, run, Option.bind_eq_bind, Option.bind_some, pure]
      · refine List.nodup_cons.mpr ⟨?_, nodup⟩
        intro hv
        exact apart v hv (Set.mem_insert v _)
      · intro u hu
        rcases List.mem_cons.mp hu with rfl | hu
        · exact new
        · exact fun hm => apart u hu (Set.mem_insert_of_mem v hm)
      · intro u
        rw [all, Set.mem_insert_iff, List.mem_cons, or_assoc, or_left_comm]

/-- When all vertices are visited, each of them has its distance. -/
theorem NearFrontier.complete (h : NearFrontier cost s σ) (every : σ.visitedSet = vertices cost)
    {v : NodeId} (hv : v ∈ vertices cost) :
    (σ.marks v).finalLabel.toInt = σ.final v ∧ σ.final v < 2 ^ 31 ∧
      IsDist (edgeCost cost) (edges cost) s v (σ.final v) := by
  have visited : v ∈ σ.visitedSet := every ▸ hv
  have small := h.small v visited
  refine ⟨?_, small, h.settled.dist v visited⟩
  apply BitVec.toInt_eq_toNat_of_lt
  rw [final] at small
  omega

/-- In a connected graph the search visits every vertex but the source. -/
theorem exists_run (valid : IsSearchable cost s)
    (connected : ∀ u ∈ vertices cost, ∀ v ∈ vertices cost, (edges cost).Reachable u v)
    (hs : s ∈ vertices cost) {n : ℕ} (count : (vertices cost).card = 1 + n) :
    ∃ τ visited, (started cost s).loop cost n 1 = some (τ, visited) ∧ NearFrontier cost s τ ∧
      τ.visitedSet = vertices cost ∧ visited.Nodup ∧
      ∀ v, v ∈ visited ↔ v ∈ vertices cost ∧ v ≠ s := by
  obtain ⟨h, alone⟩ := frontier_started valid hs
  have reached := reach_eq_vertices valid.symmetric connected hs
  obtain ⟨τ, visited, run, hτ, size, nodup, apart, all⟩ := h.loop valid n 1 (by
    rw [alone, Set.ncard_singleton, reached, Set.ncard_coe_finset, count])
  rw [alone] at apart all
  have every : τ.visitedSet = vertices cost := by
    rw [← reached]
    apply Set.eq_of_subset_of_ncard_le hτ.subset_reach
    rw [size, alone, Set.ncard_singleton, reached, Set.ncard_coe_finset, count]
  refine ⟨τ, visited, run, hτ, every, nodup, fun v => ?_⟩
  have hv := all v
  rw [every, Finset.mem_coe, Set.mem_singleton_iff] at hv
  exact ⟨fun hm => ⟨hv.mpr (.inr hm), apart v hm⟩, fun hm => (hv.mp hm.1).resolve_left hm.2⟩

end Frontier

end Search

/-! ## The program -/

/-- The graph and the worklist that the program prepares for a vertex with an edge. -/
theorem exists_prepared (cost : CostMatrix) {src : NodeId} (hsrc : src ∈ vertices cost) :
    ∃ nodes lists head place, buildGraph cost src.val = .ok (nodes, place src) ∧
      newDijksList = .ok (lists, some head) ∧ GraphAt cost place (fun _ => .cleared) nodes ∧
      Worklist place lists head [] [] ∧ ∀ a n, nodes.cell a = some n → place n.nodeId = some a := by
  obtain ⟨nodes, start, place, built, graph, start_eq, only⟩ := buildGraph_ok cost src.val
  obtain ⟨lists, head, made, list⟩ := Worklist.new place
  have edge : peersOf cost src ≠ [] := by
    obtain ⟨u, hu⟩ := mem_vertices.mp hsrc
    exact List.ne_nil_of_mem (mem_peersOf.mpr hu)
  rw [start_eq src rfl edge] at built
  exact ⟨nodes, lists, head, place, built, made, graph, list, only⟩

/-- The main loop makes one iteration less than there are vertices. -/
theorem exists_nodeCount {cost : CostMatrix} {src : NodeId} {nodeCount : Int}
    (hsrc : src ∈ vertices cost) (card : ((vertices cost).card : Int) = nodeCount) :
    ∃ n : ℕ, (vertices cost).card = 1 + n ∧ nodeCount = 1 + n := by
  obtain ⟨n, count⟩ : ∃ n, (vertices cost).card = 1 + n :=
    Nat.exists_eq_add_of_le (Finset.card_pos.mpr ⟨src, hsrc⟩)
  refine ⟨n, count, ?_⟩
  rw [← card, count, Nat.cast_add, Nat.cast_one]

/-- In a connected graph the call visits every vertex but the source, and finds the end if it
is one of them. -/
theorem dijkstraCall_connected {cost : CostMatrix} {place : NodeId → Ptr} {nodes : Heap Node}
    {lists : Heap DijksListNode} {head : Nat} {src : NodeId} {nodeCount : Int}
    (graph : GraphAt cost place (fun _ => .cleared) nodes) (list : Worklist place lists head [] [])
    (valid : IsSearchable cost src) (room : ∀ v, (peersOf cost v).length < maxNodeCount)
    (connected : ∀ u ∈ vertices cost, ∀ v ∈ vertices cost, (edges cost).Reachable u v)
    (card : ((vertices cost).card : Int) = nodeCount) (hsrc : src ∈ vertices cost) (dst : Int) :
    ∃ w endNode visits τ, ∃ visited : List NodeId,
      dijkstraCall cost dst nodeCount (place src) ⟨nodes, lists⟩ (some head) =
        .ok (w, endNode, visits) ∧
      Represents cost place w head [] τ ∧ Search.NearFrontier cost src τ ∧
      τ.visitedSet = vertices cost ∧ visited.Nodup ∧
      (∀ v, v ∈ visited ↔ v ∈ vertices cost ∧ v ≠ src) ∧
      visits.map Visit.node = visited.map place ∧ (∀ x ∈ visits, 0 < x.count) ∧
      (∀ v ∈ visited, (v.val : Int) = dst → endNode = place v) ∧
      ((∀ v ∈ visited, (v.val : Int) ≠ dst) → endNode = none) := by
  obtain ⟨n, count, bound⟩ := exists_nodeCount hsrc card
  obtain ⟨τ, visited, run, hτ, every, nodup, visited_iff⟩ :=
    Search.exists_run valid connected hsrc count
  obtain ⟨w, endNode, visits, called, hw, nodes_eq, counts, found, missed⟩ :=
    dijkstraCall_ok graph list (room src) (occurs_of_mem_vertices hsrc) run (fun v _ => room v) dst
  rw [← bound] at called
  exact ⟨w, endNode, visits, τ, visited, called, hw, hτ, every, nodup, visited_iff, nodes_eq,
    counts, found, missed⟩

/-- `build_graph` and `dijkstra_call` find the distances from the source in any
connected graph. No pop finds the worklist empty, and each vertex except the source is
visited once. -/
theorem dijkstraCall_shortest {cost : CostMatrix} {nodeCount : Int}
    (valid : IsConnectedGraph cost nodeCount) (src dst : NodeId) (hsrc : src ∈ vertices cost)
    (hdst : dst ∈ vertices cost) (differ : src ≠ dst) :
    ∃ nodes start lists list w endNode visits, buildGraph cost src.val = .ok (nodes, start) ∧
      newDijksList = .ok (lists, list) ∧
      dijkstraCall cost dst.val nodeCount start ⟨nodes, lists⟩ list = .ok (w, endNode, visits) ∧
      (∀ x ∈ visits, 0 < x.count) ∧
      ∃ place : NodeId → Ptr, start = place src ∧ endNode = place dst ∧
        (∃ visited : List NodeId, visits.map Visit.node = visited.map place ∧ visited.Nodup ∧
          ∀ v, v ∈ visited ↔ v ∈ vertices cost ∧ v ≠ src) ∧
        ∀ v ∈ vertices cost, ∃ n, load w.nodes.cell (place v) = .ok n ∧ n.nodeId = v ∧
          ∃ d : ℕ, n.finalLabel.toInt = d ∧ IsDist (edgeCost cost) (edges cost) src v d ∧
            (v = src → d = 0) := by
  obtain ⟨nodes, lists, head, place, built, made, graph, list, -⟩ := exists_prepared cost hsrc
  obtain ⟨w, endNode, visits, τ, visited, called, hw, hτ, every, nodup, visited_iff, visits_eq,
    counts, found, -⟩ := dijkstraCall_connected graph list (valid.isCostGraph.isSearchable src)
      valid.isCostGraph.room valid.connected valid.card hsrc dst.val
  refine ⟨nodes, place src, lists, some head, w, endNode, visits, built, made, called, counts,
    place, rfl, ?_, ⟨visited, visits_eq, nodup, visited_iff⟩, ?_⟩
  · exact found dst ((visited_iff dst).mpr ⟨hdst, differ.symm⟩) rfl
  · intro v hv
    obtain ⟨a, ha⟩ := hw.graph.exists_place (valid.isCostGraph.occurs_iff.mpr hv)
    obtain ⟨label, -, dist⟩ := hτ.complete every hv
    refine ⟨nodeOf place (peersOf cost v) v (τ.marks v), ?_, rfl, τ.final v, label, dist, ?_⟩
    · rw [ha]
      exact hw.load_node ha
    · rintro rfl
      exact Nat.le_zero.mp (dist.2 ⟨.nil, rfl⟩)

theorem dijkstraCall_shortest_oneRoad :
    ∃ nodes start lists list w endNode visits, buildGraph oneRoad 0 = .ok (nodes, start) ∧
      newDijksList = .ok (lists, list) ∧
      dijkstraCall oneRoad 1 2 start ⟨nodes, lists⟩ list = .ok (w, endNode, visits) ∧
      ∀ x ∈ visits, 0 < x.count := by
  obtain ⟨nodes, start, lists, list, w, endNode, visits, built, made, called, counts, -⟩ :=
    dijkstraCall_shortest oneRoad_isConnectedGraph firstId secondId
      (mem_vertices_oneRoad.mpr (.inl rfl)) (mem_vertices_oneRoad.mpr (.inr rfl)) (by decide)
  exact ⟨nodes, start, lists, list, w, endNode, visits, built, made, called, counts⟩

end SamplePrograms.Elbonian
