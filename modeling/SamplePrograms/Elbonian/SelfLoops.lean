import SamplePrograms.Elbonian.BuildGraph

/-!
# Edges from a vertex to itself, and a destination at the source

The statements before the main loop of `dijkstra_call` neither skip visited peers nor
compare the start with `dst`. So an edge from the source to itself puts the start on the
worklist, and a destination at the source is not found. An edge from another vertex to
itself is skipped, but takes a slot of the peer list.

A label that does not fit in an `int` is negative, and a negative label is only ever
replaced by a lesser one. So if no label is negative in the end, no offer over an edge
between two vertices overflowed when it was first made.
-/

namespace SamplePrograms.Elbonian
open Memory ShortestPath

variable {cost : CostMatrix}

/-! ## Labels that are negative -/

theorem better_neg_left {t c : BitVec 32} (h : t.toInt < 0) : (better t c).toInt < 0 := by
  have some_label : t ≠ 0 := by
    rintro rfl
    exact absurd h (by decide)
  rw [better, if_neg some_label]
  split_ifs with less
  · exact (BitVec.slt_iff_toInt_lt.mp less).trans h
  · exact h

theorem better_neg_right {t c : BitVec 32} (h : c.toInt < 0) : (better t c).toInt < 0 := by
  rw [better]
  split_ifs with zero less
  · exact h
  · exact h
  · rw [BitVec.slt_iff_toInt_lt, not_lt] at less
    exact less.trans_lt h

/-- A sum of a label and a cost that is not negative is the sum of the numbers. -/
theorem add_fits {a c : BitVec 32} {d : ℕ} (label : a.toInt = d) (fits : c.toNat < 2 ^ 31)
    (nonneg : 0 ≤ (a + c).toInt) : d + c.toNat < 2 ^ 31 := by
  rw [BitVec.toInt_eq_toNat_cond] at label nonneg
  rw [BitVec.toNat_add] at nonneg
  have small := a.isLt
  split_ifs at label nonneg <;> omega

namespace Search
variable {s u : NodeId} {σ τ : Search}

/-! ## Runs of the main loop -/

/-- What holds of the vertices visited so far and is kept by a visit holds after a run. -/
theorem loop_rule {P : List NodeId → Search → Prop}
    (step : ∀ l σ v k, P l σ → σ.next = some v → P (l ++ [v]) (σ.visit cost v k)) {n : Nat} :
    ∀ {l σ τ visited} {orderId : Int}, P l σ → σ.loop cost n orderId = some (τ, visited) →
      P (l ++ visited) τ := by
  induction n with
  | zero =>
      intro l σ τ visited orderId h run
      cases run
      rwa [List.append_nil]
  | succ n ih =>
      intro l σ τ visited orderId h run
      cases next : σ.next with
      | none => simp [Search.loop, next] at run
      | some v =>
          simp only [Search.loop, next, Option.bind_eq_bind, Option.bind_some,
            Option.bind_eq_some_iff] at run
          obtain ⟨⟨τ', visited'⟩, run', he⟩ := run
          cases he
          have later := ih (step l σ v (orderId + 1) h next) run'
          rwa [List.append_assoc, List.singleton_append] at later

theorem visit_scanned (cost : CostMatrix) (σ : Search) (v : NodeId) (k : Int) :
    Scanned cost v (peersOf cost v) (σ.finalise v k) (σ.visit cost v k) :=
  scanned v (peersOf_nodup v) _

/-- A vertex on the worklist stays there until it is visited. -/
theorem loop_listed {n : Nat} {orderId : Int} {visited : List NodeId} {y : NodeId}
    (run : σ.loop cost n orderId = some (τ, visited)) (listed : y ∈ σ.worklist) :
    y ∈ visited ∨ y ∈ τ.worklist := by
  have kept := loop_rule (P := fun l σ => y ∈ l ∨ y ∈ σ.worklist) (l := []) ?_ (.inr listed) run
  · simpa using kept
  · intro l σ v k h next
    by_cases hy : y = v
    · left
      simp [hy]
    · rcases h with h | h
      · left
        exact List.mem_append_left [v] h
      · right
        rw [(visit_scanned cost σ v k).worklist]
        left
        exact (List.mem_erase_of_ne hy).mpr h

/-- The start puts all its peers on the worklist. -/
theorem mem_started (h : cost s u ≠ 0) : u ∈ (started cost s).worklist := by
  have listed : ∀ (l : List NodeId) (σ : Search),
      u ∈ l ∨ u ∈ σ.worklist → u ∈ (l.foldl (labelStart cost s) σ).worklist := by
    intro l
    induction l with
    | nil => simp
    | cons v rest ih =>
        intro σ hu
        apply ih
        have inserted : u ∈ (σ.labelStart cost s v).worklist ↔ u = v ∨ u ∈ σ.worklist :=
          List.mem_insert_iff
        rw [inserted]
        simp only [List.mem_cons] at hu
        tauto
  exact listed _ _ (.inl (mem_peersOf.mpr h))

/-! ## Offers that overflow -/

/-- An offer of a vertex of the set that is negative has left a negative label. -/
def Taken (cost : CostMatrix) (σ : Search) (S : Set NodeId) : Prop :=
  ∀ x ∈ S, ∀ y ∉ σ.visitedSet, cost x y ≠ 0 →
    ((σ.marks x).finalLabel + cost x y).toInt < 0 → (σ.marks y).tempLabel.toInt < 0

/-- Of two visited vertices with an edge, the first one has made an offer to the other, and
a negative offer has made a label negative. -/
def Crossed (cost : CostMatrix) (σ : Search) : Prop :=
  ∀ x ∈ σ.visitedSet, ∀ y ∈ σ.visitedSet, x ≠ y → cost x y ≠ 0 →
    0 ≤ (σ.marks x).finalLabel.toInt → 0 ≤ (σ.marks y).finalLabel.toInt →
    0 ≤ ((σ.marks x).finalLabel + cost x y).toInt ∨ 0 ≤ ((σ.marks y).finalLabel + cost y x).toInt

/-- What holds between two iterations whether labels overflow or not. -/
structure Accounted (cost : CostMatrix) (σ : Search) : Prop where
  fresh : ∀ v ∈ σ.worklist, v ∉ σ.visitedSet
  nodup : σ.worklist.Nodup
  unlabelled : ∀ v ∉ σ.visitedSet, (σ.marks v).finalLabel = 0
  taken : Taken cost σ σ.visitedSet
  crossed : Crossed cost σ

theorem Taken.scan {S : Set NodeId} (h : Taken cost σ S) (visited : σ.visitedSet = insert u S)
    (scan : Scanned cost u (peersOf cost u) σ τ) : Taken cost τ τ.visitedSet := by
  intro x hx y hy edge negative
  rw [scan.visitedSet_eq] at hy
  rw [scan.visitedSet_eq, visited] at hx
  rw [scan.finalLabel] at negative
  rw [scan.tempLabel]
  rcases hx with rfl | hx
  · rw [if_pos ⟨mem_peersOf.mpr edge, notMem_visitedSet.mp hy⟩]
    exact better_neg_right negative
  · have label := h x hx y hy edge negative
    split_ifs
    · exact better_neg_left label
    · exact label

theorem Crossed.scan {l : List NodeId} (h : Crossed cost σ) (scan : Scanned cost u l σ τ) :
    Crossed cost τ := by
  intro x hx y hy
  rw [scan.visitedSet_eq] at hx hy
  rw [scan.finalLabel, scan.finalLabel]
  exact h x hx y hy

/-- The vertex that is visited next keeps the negative label it was given. -/
theorem Accounted.crossed_finalise (h : Accounted cost σ) (sym : ∀ u v, cost u v = cost v u)
    {v : NodeId} (unvisited : v ∉ σ.visitedSet) (k : Int) : Crossed cost (σ.finalise v k) := by
  have new : ((σ.finalise v k).marks v).finalLabel = (σ.marks v).tempLabel := by
    simp [finalise]
  have old : ∀ x ∈ σ.visitedSet,
      ((σ.finalise v k).marks x).finalLabel = (σ.marks x).finalLabel := by
    intro x hx
    have hxv : x ≠ v := by
      rintro rfl
      exact unvisited hx
    simp [finalise, hxv]
  -- the visited vertex has made its offer before
  have first : ∀ x ∈ σ.visitedSet, cost x v ≠ 0 →
      0 ≤ ((σ.finalise v k).marks v).finalLabel.toInt →
      0 ≤ (((σ.finalise v k).marks x).finalLabel + cost x v).toInt := by
    intro x hx edge nonneg
    by_contra negative
    rw [old x hx, not_le] at negative
    rw [new] at nonneg
    exact absurd (h.taken x hx v unvisited edge negative) (not_lt.mpr nonneg)
  intro x hx y hy hne edge nonneg_x nonneg_y
  rw [finalise_visitedSet, Set.mem_insert_iff] at hx hy
  rcases hx with rfl | hx
  · right
    exact first y (hy.resolve_left hne.symm) (sym x y ▸ edge) nonneg_x
  · rcases hy with rfl | hy
    · left
      exact first x hx edge nonneg_y
    · rw [old x hx] at nonneg_x ⊢
      rw [old y hy] at nonneg_y ⊢
      exact h.crossed x hx y hy hne edge nonneg_x nonneg_y

/-- A visit keeps the account. -/
theorem Accounted.visit (h : Accounted cost σ) (sym : ∀ u v, cost u v = cost v u) {v : NodeId}
    (next : σ.next = some v) (k : Int) : Accounted cost (σ.visit cost v k) := by
  have unvisited := h.fresh v (next_spec next).1
  have visited := finalise_visitedSet σ v k
  have scan := visit_scanned cost σ v k
  have taken : Taken cost (σ.finalise v k) σ.visitedSet := by
    intro x hx y hy edge
    rw [visited, Set.mem_insert_iff, not_or] at hy
    have hxv : x ≠ v := by
      rintro rfl
      exact unvisited hx
    simpa [finalise, hxv, hy.1] using h.taken x hx y hy.2 edge
  refine ⟨?_, scan.nodup (h.nodup.erase v), ?_, taken.scan visited scan,
    (h.crossed_finalise sym unvisited k).scan scan⟩
  · intro y hy
    rw [scan.visitedSet_eq]
    rcases (scan.worklist y).mp hy with listed | ⟨-, new⟩
    · obtain ⟨hyv, listed⟩ := h.nodup.mem_erase_iff.mp listed
      rw [visited, Set.mem_insert_iff, not_or]
      exact ⟨hyv, h.fresh y listed⟩
    · exact notMem_visitedSet.mpr new
  · intro y hy
    rw [scan.visitedSet_eq, visited, Set.mem_insert_iff, not_or] at hy
    rw [scan.finalLabel]
    simpa [finalise, hy.1] using h.unlabelled y hy.2

/-- The account when the main loop begins. -/
theorem accounted_started (noLoop : cost s s = 0) : Accounted cost (started cost s) := by
  have scan := scanned_started noLoop
  have alone := initial_visitedSet s
  have taken : Taken cost (initial s) ∅ := fun x hx => absurd hx (Set.notMem_empty x)
  have visited : (initial s).visitedSet = insert s ∅ := by
    rw [alone, insert_empty_eq]
  refine ⟨?_, scan.nodup List.nodup_nil, ?_, taken.scan visited scan, ?_⟩
  · intro y hy
    rcases (scan.worklist y).mp hy with listed | ⟨-, new⟩
    · cases listed
    · rw [scan.visitedSet_eq]
      exact notMem_visitedSet.mpr new
  · intro y hy
    rw [scan.visitedSet_eq, alone, Set.mem_singleton_iff] at hy
    rw [scan.finalLabel]
    simp [initial, hy, Marks.cleared]
  · intro x hx y hy hne
    rw [scan.visitedSet_eq, alone, Set.mem_singleton_iff] at hx hy
    exact absurd (hx.trans hy.symm) hne

/-- The account after a run, and the vertices that it has visited. -/
theorem accounted_run (sym : ∀ u v, cost u v = cost v u) (noLoop : cost s s = 0) {n : Nat}
    {visited : List NodeId} (run : (started cost s).loop cost n 1 = some (τ, visited)) :
    Accounted cost τ ∧ ∀ v, v ∈ τ.visitedSet ↔ v = s ∨ v ∈ visited := by
  have kept := loop_rule
    (P := fun l σ => Accounted cost σ ∧ ∀ v, v ∈ σ.visitedSet ↔ v = s ∨ v ∈ l) (l := []) ?_ ?_ run
  · exact kept
  · rintro l σ v k ⟨h, visited⟩ next
    refine ⟨h.visit sym next k, fun y => ?_⟩
    rw [(visit_scanned cost σ v k).visitedSet_eq, finalise_visitedSet, Set.mem_insert_iff, visited]
    simp only [List.mem_append, List.mem_singleton]
    tauto
  · refine ⟨accounted_started noLoop, fun v => ?_⟩
    rw [(scanned_started noLoop).visitedSet_eq, initial_visitedSet]
    simp

end Search

/-! ## The program -/

/-- The test that `insert_into_dijks_list` makes: whether the worklist holds a node. -/
def isListed (lists : Heap DijksListNode) (list key : Ptr) : Except Fault Bool := do
  let h ← load lists.cell list
  findData lists key h.count h.next

theorem Represents.isListed_eq {place : NodeId → Ptr} {w : World} {head : Nat} {popped : List Nat}
    {σ : Search} (h : Represents cost place w head popped σ) {v : NodeId} {a : Nat}
    (hv : place v = some a) :
    isListed w.lists (some head) (place v) = .ok (decide (v ∈ σ.worklist)) := by
  obtain ⟨items, hitems, data, next, prev, owner, count, list⟩ := h.list
  have same : (items.any fun x => place x.2 = place v) = decide (v ∈ σ.worklist) := by
    rw [Bool.eq_iff_iff, List.any_eq_true, decide_eq_true_iff, ← hitems, List.mem_map]
    apply exists_congr
    intro x
    apply and_congr_right
    intro _
    rw [decide_eq_true_iff]
    constructor
    · intro he
      exact h.graph.injective x.2 v a (he.trans hv) hv
    · rintro rfl
      rfl
  have search := findData_eq (place v) list.segment list.stored
  rw [← list.size, same] at search
  simp only [isListed, list.cells.load list.mem_head, elements, search, bind, Except.bind]

/-- A connected graph with positive costs, in which a vertex may have an edge to itself. -/
structure IsLoopedGraph (cost : CostMatrix) (nodeCount : Int) : Prop where
  symmetric : ∀ u v, cost u v = cost v u
  positive : ∀ u v, edgeCost cost u v < 2 ^ 31
  connected : ∀ u ∈ vertices cost, ∀ v ∈ vertices cost, (edges cost).Reachable u v
  card : ((vertices cost).card : Int) = nodeCount

/-- The call returns the node of the destination, keeps the start at zero and off the
worklist, and finds the distance of each vertex. -/
def RightSearch (cost : CostMatrix) (src dst : NodeId) (nodeCount : Int) : Prop :=
  ∃ nodes start lists list w endNode visits, buildGraph cost src.val = .ok (nodes, start) ∧
    newDijksList = .ok (lists, list) ∧
    dijkstraCall cost dst.val nodeCount start ⟨nodes, lists⟩ list = .ok (w, endNode, visits) ∧
    (∃ n, load w.nodes.cell endNode = .ok n ∧ n.nodeId = dst) ∧
    (∃ n, load w.nodes.cell start = .ok n ∧ n.finalLabel = 0) ∧
    (∀ x ∈ visits, x.node ≠ start) ∧ isListed w.lists list start = .ok false ∧
    ∀ v ∈ vertices cost, ∃ a n m, nodes.cell a = some n ∧ n.nodeId = v ∧
      w.nodes.cell a = some m ∧ m.nodeId = v ∧
      ∃ d : ℕ, m.finalLabel.toInt = d ∧ IsDist (edgeCost cost) (edges cost) src v d

/-- No edge makes an offer that overflows, when the end nearer to the source makes it. -/
def OffersFit (cost : CostMatrix) (src : NodeId) : Prop :=
  ∀ u v d e, (edges cost).Adj u v → IsDist (edgeCost cost) (edges cost) src u d →
    IsDist (edgeCost cost) (edges cost) src v e → min d e + edgeCost cost u v < 2 ^ 31

theorem isSearchable_of_offersFit (sym : ∀ u v, cost u v = cost v u) {src : NodeId}
    (noLoop : cost src src = 0) (fit : OffersFit cost src) : IsSearchable cost src where
  symmetric := sym
  noLoop := noLoop
  fits := by
    rintro S d settled nearest y hy _ ⟨x, hx, adj, rfl⟩
    obtain ⟨p, -⟩ := settled.path x hx
    obtain ⟨e, dist⟩ := exists_isDist ⟨p.concat adj⟩
    obtain ⟨q, cost_q⟩ := dist.1
    have nearer : d x ≤ e := cost_q ▸ nearest x hx y hy q
    have sum := fit x y (d x) e adj (settled.dist x hx) dist
    rwa [min_eq_left nearer] at sum

/-- On a graph without these obstacles the call is right. -/
theorem rightSearch_of_offersFit {nodeCount : Int} (input : IsLoopedGraph cost nodeCount)
    {src dst : NodeId} (hsrc : src ∈ vertices cost) (hdst : dst ∈ vertices cost)
    (differ : dst ≠ src) (noLoop : cost src src = 0) (zeros : ∀ r, ∃ c, cost r c = 0)
    (fit : OffersFit cost src) : RightSearch cost src dst nodeCount := by
  have valid := isSearchable_of_offersFit input.symmetric noLoop fit
  obtain ⟨nodes, lists, head, place, built, made, graph, list, -⟩ := exists_prepared cost hsrc
  obtain ⟨w, endNode, visits, τ, visited, called, hw, hτ, every, -, visited_iff, nodes_eq, -, found,
    -⟩ := dijkstraCall_connected graph list valid (fun r => length_peersOf_lt_iff.mpr (zeros r))
      input.connected input.card hsrc dst.val
  have here : ∀ v ∈ vertices cost, ∃ a, place v = some a :=
    fun v hv => graph.exists_place (occurs_of_mem_vertices hv)
  obtain ⟨a, ha⟩ := here src hsrc
  obtain ⟨b, hb⟩ := here dst hdst
  refine ⟨nodes, place src, lists, some head, w, endNode, visits, built, made, called,
    ⟨nodeOf place (peersOf cost dst) dst (τ.marks dst), ?_, rfl⟩,
    ⟨nodeOf place (peersOf cost src) src (τ.marks src), ?_, ?_⟩, ?_, ?_, ?_⟩
  · rw [found dst ((visited_iff dst).mpr ⟨hdst, differ⟩) rfl, hb]
    exact hw.load_node hb
  · rw [ha]
    exact hw.load_node ha
  · obtain ⟨-, -, dist⟩ := hτ.complete every hsrc
    exact BitVec.eq_of_toNat_eq (dist.unique (.self src))
  · intro x hx same
    obtain ⟨u, hu, place_u⟩ : ∃ u ∈ visited, place u = x.node := by
      rw [← List.mem_map, ← nodes_eq]
      exact List.mem_map_of_mem hx
    have place_a : place u = some a :=
      calc place u = x.node := place_u
        _ = place src := same
        _ = some a := ha
    exact ((visited_iff u).mp hu).2 (graph.injective u src a place_a ha)
  · rw [hw.isListed_eq ha, decide_eq_false]
    intro listed
    exact ((hτ.offered.worklist src).mp listed).1 hτ.settled.source
  · intro v hv
    obtain ⟨c, hc⟩ := here v hv
    obtain ⟨label, -, dist⟩ := hτ.complete every hv
    exact ⟨c, _, _, graph.cells v c hc, rfl, hw.graph.cells v c hc, rfl, τ.final v, label, dist⟩

/-- A label that is the distance of another vertex than the source was given to it. -/
theorem ne_zero_of_isDist (sym : ∀ u v, cost u v = cost v u) {src v : NodeId} {t : BitVec 32}
    {d : ℕ} (label : t.toInt = d) (dist : IsDist (edgeCost cost) (edges cost) src v d)
    (differ : v ≠ src) : t ≠ 0 := by
  rintro rfl
  obtain ⟨u, e, adj, -, sum⟩ := dist.exists_before differ
  have zero : d = 0 := by
    simpa using label.symm
  have free : edgeCost cost u v = 0 := by omega
  exact cost_ne_zero_of_adj sym adj (BitVec.eq_of_toNat_eq free)

/-- If every vertex was visited and has its distance, no offer overflowed. -/
theorem offersFit_of_accounted {nodeCount : Int} (input : IsLoopedGraph cost nodeCount)
    {src : NodeId} {τ : Search} (account : Search.Accounted cost τ)
    (every : ∀ v ∈ vertices cost, v ∈ τ.visitedSet)
    (labels : ∀ v ∈ vertices cost, ∃ d : ℕ, (τ.marks v).finalLabel.toInt = d ∧
      IsDist (edgeCost cost) (edges cost) src v d) : OffersFit cost src := by
  intro u v d e adj dist_u dist_v
  have edge := cost_ne_zero_of_adj input.symmetric adj
  have hu : u ∈ vertices cost := mem_vertices.mpr ⟨v, edge⟩
  have hv : v ∈ vertices cost := mem_vertices.mpr ⟨u, input.symmetric u v ▸ edge⟩
  obtain ⟨d', label_u, dist_u'⟩ := labels u hu
  obtain ⟨e', label_v, dist_v'⟩ := labels v hv
  obtain rfl := dist_u.unique dist_u'
  obtain rfl := dist_v.unique dist_v'
  have nonneg_u : 0 ≤ (τ.marks u).finalLabel.toInt := label_u ▸ Int.natCast_nonneg d
  have nonneg_v : 0 ≤ (τ.marks v).finalLabel.toInt := label_v ▸ Int.natCast_nonneg e
  rcases account.crossed u (every u hu) v (every v hv) adj.ne edge nonneg_u nonneg_v with sum | sum
  · calc min d e + edgeCost cost u v ≤ d + edgeCost cost u v :=
          Nat.add_le_add_right (min_le_left d e) _
      _ < 2 ^ 31 := add_fits label_u (input.positive u v) sum
  · calc min d e + edgeCost cost u v ≤ e + edgeCost cost v u := by
          rw [edgeCost, edgeCost, input.symmetric u v]
          exact Nat.add_le_add_right (min_le_right d e) _
      _ < 2 ^ 31 := add_fits label_v (input.positive v u) sum

/-- If every vertex has its distance, every vertex was visited. -/
theorem visited_of_labels (sym : ∀ u v, cost u v = cost v u) {src : NodeId} {τ : Search}
    (account : Search.Accounted cost τ) (source : src ∈ τ.visitedSet)
    (labels : ∀ v ∈ vertices cost, ∃ d : ℕ, (τ.marks v).finalLabel.toInt = d ∧
      IsDist (edgeCost cost) (edges cost) src v d) : ∀ v ∈ vertices cost, v ∈ τ.visitedSet := by
  intro v hv
  by_contra new
  obtain ⟨d, label, dist⟩ := labels v hv
  have differ : v ≠ src := by
    rintro rfl
    exact new source
  exact ne_zero_of_isDist sym label dist differ (account.unlabelled v new)

/-- A call that is right had none of these obstacles. -/
theorem offersFit_of_rightSearch {nodeCount : Int} (input : IsLoopedGraph cost nodeCount)
    {src dst : NodeId} (hsrc : src ∈ vertices cost) (right : RightSearch cost src dst nodeCount) :
    dst ≠ src ∧ cost src src = 0 ∧ (∀ r, ∃ c, cost r c = 0) ∧ OffersFit cost src := by
  obtain ⟨nodes, start, lists, list, w, endNode, visits, built, made, called, ⟨n, end_n, -⟩, -,
    apart, unlisted, found⟩ := right
  obtain ⟨nodes', lists', head, place, built', made', graph, list, only⟩ :=
    exists_prepared cost hsrc
  cases built.symm.trans built'
  cases made.symm.trans made'
  obtain ⟨k, -, bound⟩ := exists_nodeCount hsrc input.card
  rw [bound] at called
  have source := occurs_of_mem_vertices hsrc
  obtain ⟨a, ha⟩ := graph.exists_place source
  obtain ⟨τ, visited, run, rooms, hw, nodes_eq, missed⟩ := dijkstraCall_inv graph list source called
  have off : src ∉ visited := by
    intro hm
    obtain ⟨x, hx, node_x⟩ : ∃ x ∈ visits, x.node = place src := by
      rw [← List.mem_map, nodes_eq]
      exact List.mem_map_of_mem hm
    exact apart x hx node_x
  have noLoop : cost src src = 0 := by
    by_contra loop
    rw [hw.isListed_eq ha] at unlisted
    rcases Search.loop_listed run (Search.mem_started loop) with hm | listed
    · exact off hm
    · rw [decide_eq_true listed] at unlisted
      cases unlisted
  obtain ⟨account, visited_iff⟩ := Search.accounted_run input.symmetric noLoop run
  have labels : ∀ v ∈ vertices cost, ∃ d : ℕ, (τ.marks v).finalLabel.toInt = d ∧
      IsDist (edgeCost cost) (edges cost) src v d := by
    intro v hv
    obtain ⟨b, n, m, before, rfl, after, id, d, label, dist⟩ := found v hv
    have here := hw.graph.cells n.nodeId b (only b n before)
    cases after.symm.trans here
    exact ⟨d, label, dist⟩
  have every := visited_of_labels input.symmetric account ((visited_iff src).mpr (.inl rfl)) labels
  refine ⟨?_, noLoop, ?_, offersFit_of_accounted input account every labels⟩
  · rintro rfl
    rw [missed] at end_n
    · cases end_n
    · intro v hv he
      have hvd : v = dst := Fin.ext (Int.ofNat_inj.mp he)
      exact off (hvd ▸ hv)
  · intro r
    by_contra full
    have full_r : ∀ c, cost r c ≠ 0 := fun c zero => full ⟨c, zero⟩
    apply full
    rw [← length_peersOf_lt_iff]
    exact rooms r ((visited_iff r).mp (every r (mem_vertices.mpr ⟨r, full_r r⟩)))

/-- The call is right exactly when the destination is not the source, the source has no edge
to itself, each row has an entry that is zero, and no offer of the nearer end of an edge
overflows. -/
theorem rightSearch_iff {nodeCount : Int} (input : IsLoopedGraph cost nodeCount)
    {src dst : NodeId} (hsrc : src ∈ vertices cost) (hdst : dst ∈ vertices cost) :
    RightSearch cost src dst nodeCount ↔
      dst ≠ src ∧ cost src src = 0 ∧ (∀ r, ∃ c, cost r c = 0) ∧ OffersFit cost src := by
  refine ⟨offersFit_of_rightSearch input hsrc, ?_⟩
  rintro ⟨differ, noLoop, zeros, fit⟩
  exact rightSearch_of_offersFit input hsrc hdst differ noLoop zeros fit

/-! ## One road with a loop at its first end -/

def loopedRoad : CostMatrix := fun u v =>
  if u = firstId ∧ v = firstId then 7 else oneRoad u v

theorem loopedRoad_of_ne {u v : NodeId} (h : u ≠ v) : loopedRoad u v = oneRoad u v := by
  rw [loopedRoad, if_neg]
  rintro ⟨rfl, rfl⟩
  exact h rfl

theorem edges_loopedRoad : edges loopedRoad = edges oneRoad := by
  ext u v
  rw [edges, edges, SimpleGraph.fromRel_adj, SimpleGraph.fromRel_adj]
  apply and_congr_right
  intro h
  rw [loopedRoad_of_ne h, loopedRoad_of_ne h.symm]

theorem vertices_loopedRoad : vertices loopedRoad = vertices oneRoad := by
  ext v
  have road : loopedRoad firstId secondId ≠ 0 := by decide
  have first : firstId ∈ vertices oneRoad := mem_vertices_oneRoad.mpr (.inl rfl)
  by_cases hv : v = firstId
  · subst v
    exact iff_of_true (mem_vertices.mpr ⟨secondId, road⟩) first
  · rw [mem_vertices, mem_vertices]
    apply exists_congr
    intro u
    rw [loopedRoad, if_neg fun h => hv h.1]

theorem mem_vertices_loopedRoad {v : NodeId} :
    v ∈ vertices loopedRoad ↔ v = firstId ∨ v = secondId := by
  rw [vertices_loopedRoad, mem_vertices_oneRoad]

theorem loopedRoad_isLoopedGraph : IsLoopedGraph loopedRoad 2 where
  symmetric := by
    intro u v
    simp only [loopedRoad, oneRoad_isConnectedGraph.symmetric u v, and_comm]
  positive := by
    intro u v
    rw [edgeCost, loopedRoad, oneRoad]
    split_ifs <;> decide
  connected := by
    rw [vertices_loopedRoad, edges_loopedRoad]
    exact oneRoad_isConnectedGraph.connected
  card := by
    rw [vertices_loopedRoad]
    exact oneRoad_isConnectedGraph.card

/-- From the second id the loop at the first one does no harm. -/
theorem rightSearch_loopedRoad : RightSearch loopedRoad secondId firstId 2 := by
  have first : firstId ∈ vertices loopedRoad := mem_vertices_loopedRoad.mpr (.inl rfl)
  have second : secondId ∈ vertices loopedRoad := mem_vertices_loopedRoad.mpr (.inr rfl)
  have apart : ∀ v, v = firstId ∨ v = secondId → loopedRoad v thirdId = 0 := by
    rintro v (rfl | rfl) <;> decide
  refine (rightSearch_iff loopedRoad_isLoopedGraph second first).mpr ⟨by decide, by decide, ?_, ?_⟩
  · intro r
    by_cases hr : r ∈ vertices loopedRoad
    · exact ⟨thirdId, apart r (mem_vertices_loopedRoad.mp hr)⟩
    · rw [mem_vertices, not_exists] at hr
      exact ⟨r, not_not.mp (hr r)⟩
  · intro u v d e adj dist_u dist_v
    have small : edgeCost loopedRoad u v ≤ 7 := by
      rw [edgeCost, loopedRoad, oneRoad]
      split_ifs <;> decide
    have edge := cost_ne_zero_of_adj loopedRoad_isLoopedGraph.symmetric adj
    have hu : u ∈ vertices loopedRoad := mem_vertices.mpr ⟨v, edge⟩
    have hv : v ∈ vertices loopedRoad :=
      mem_vertices.mpr ⟨u, loopedRoad_isLoopedGraph.symmetric u v ▸ edge⟩
    rw [mem_vertices_loopedRoad] at hu hv
    have near : min d e = 0 := by
      rcases hu with rfl | rfl
      · obtain rfl := hv.resolve_left adj.ne.symm
        rw [dist_v.unique (.self secondId), Nat.min_zero]
      · rw [dist_u.unique (.self secondId), Nat.zero_min]
    omega

/-- From the first id the start is put on the worklist, and the second id does not find
itself. -/
theorem loopedRoad_not_right : IsLoopedGraph loopedRoad 2 ∧
    firstId ∈ vertices loopedRoad ∧ secondId ∈ vertices loopedRoad ∧
    ¬ RightSearch loopedRoad firstId secondId 2 ∧ ¬ RightSearch loopedRoad secondId secondId 2 := by
  have first : firstId ∈ vertices loopedRoad := mem_vertices_loopedRoad.mpr (.inl rfl)
  have second : secondId ∈ vertices loopedRoad := mem_vertices_loopedRoad.mpr (.inr rfl)
  refine ⟨loopedRoad_isLoopedGraph, first, second, fun right => ?_, fun right => ?_⟩
  · obtain ⟨-, noLoop, -⟩ := offersFit_of_rightSearch loopedRoad_isLoopedGraph first right
    exact absurd noLoop (by decide)
  · obtain ⟨differ, -⟩ := offersFit_of_rightSearch loopedRoad_isLoopedGraph second right
    exact differ rfl

end SamplePrograms.Elbonian
