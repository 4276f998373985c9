import Mathlib

/-!
# Shortest paths, settled from a source outwards

Each vertex of a set around the source is settled, that is, its distance is
known. An edge that leaves the set offers a cost to the vertex at its end. The
vertex with the least offer can be settled next.

The cost of a path counts each edge at most once, so no distance and no offer
exceeds the cost of all edges together.
-/

namespace SamplePrograms.ShortestPath
open SimpleGraph

variable {V : Type*} {G : SimpleGraph V} (w : V → V → ℕ)

/-! ## The cost of a walk -/

/-- The sum of the costs of the edges, each as often as the walk uses it. -/
def walkCost {u v : V} (p : G.Walk u v) : ℕ := (p.darts.map fun d => w d.fst d.snd).sum

@[simp] theorem walkCost_nil {u : V} : walkCost w (.nil : G.Walk u u) = 0 := rfl

@[simp] theorem walkCost_cons {u v x : V} (h : G.Adj u v) (p : G.Walk v x) :
    walkCost w (.cons h p) = w u v + walkCost w p := by
  simp [walkCost]

@[simp] theorem walkCost_concat {u v x : V} (p : G.Walk u v) (h : G.Adj v x) :
    walkCost w (p.concat h) = walkCost w p + w v x := by
  simp [walkCost, Walk.concat_eq_append]

/-- The least cost of a walk between two vertices. -/
def IsDist (G : SimpleGraph V) (s v : V) (d : ℕ) : Prop :=
  IsLeast (Set.range fun p : G.Walk s v => walkCost w p) d

section Dist
variable {w}

theorem IsDist.unique {s v : V} {d e : ℕ} (h : IsDist w G s v d) (h' : IsDist w G s v e) :
    d = e := IsLeast.unique h h'

theorem IsDist.self (s : V) : IsDist w G s s 0 :=
  ⟨⟨.nil, rfl⟩, fun _ _ => Nat.zero_le _⟩

theorem exists_isDist {s v : V} (h : G.Reachable s v) : ∃ d, IsDist w G s v d := by
  obtain ⟨p⟩ := h
  obtain ⟨d, hd, least⟩ := WellFounded.has_min wellFounded_lt
    (Set.range fun p : G.Walk s v => walkCost w p) ⟨_, p, rfl⟩
  exact ⟨d, hd, fun c hc => Nat.le_of_not_lt (least c hc)⟩

/-- A shortest walk to another vertex is a shortest walk to a neighbour and an edge. -/
theorem IsDist.exists_before {s v : V} {d : ℕ} (h : IsDist w G s v d) (hne : v ≠ s) :
    ∃ u e, G.Adj u v ∧ IsDist w G s u e ∧ e + w u v = d := by
  obtain ⟨⟨p, cost⟩, least⟩ := h
  obtain ⟨u, q, adj, rfl⟩ : ∃ u, ∃ q : G.Walk s u, ∃ adj : G.Adj u v, p = q.concat adj := by
    cases p using Walk.concatRec with
    | Hnil => exact absurd rfl hne
    | Hconcat q adj => exact ⟨_, q, adj, rfl⟩
  simp only [walkCost_concat] at cost
  refine ⟨u, walkCost w q, adj, ⟨⟨q, rfl⟩, ?_⟩, cost⟩
  rintro _ ⟨p', rfl⟩
  have longer := least ⟨p'.concat adj, rfl⟩
  simp only [walkCost_concat] at longer
  show walkCost w q ≤ walkCost w p'
  omega

end Dist

/-- A walk that leaves a set of vertices does so over an edge. -/
theorem exists_crossing {S : Set V} {u v : V} (p : G.Walk u v) (hu : u ∈ S) (hv : v ∉ S) :
    ∃ x y, ∃ q : G.Walk u x, x ∈ S ∧ y ∉ S ∧ G.Adj x y ∧
      walkCost w q + w x y ≤ walkCost w p := by
  induction p with
  | nil => exact absurd hu hv
  | @cons a b c h p ih =>
      by_cases hb : b ∈ S
      · obtain ⟨x, y, q, hx, hy, hxy, hle⟩ := ih hb hv
        refine ⟨x, y, .cons h q, hx, hy, hxy, ?_⟩
        calc walkCost w (.cons h q) + w x y = w a b + (walkCost w q + w x y) := by
              rw [walkCost_cons, Nat.add_assoc]
          _ ≤ w a b + walkCost w p := Nat.add_le_add_left hle _
          _ = walkCost w (.cons h p) := (walkCost_cons w h p).symm
      · refine ⟨a, b, .nil, hu, hb, h, ?_⟩
        simp

section Total
variable [Fintype V] [LinearOrder V]

/-- The cost of all edges together. Each edge counts in one direction only. -/
def totalCost : ℕ := ∑ e : V × V with e.1 < e.2, w e.1 e.2

/-- The cost of a single edge. -/
theorem totalCost_single {a b : V} (h : a < b)
    (only : ∀ u v, u < v → (u, v) ≠ (a, b) → w u v = 0) : totalCost w = w a b := by
  apply Finset.sum_eq_single_of_mem (a, b)
  · simpa using h
  · intro e he
    exact only e.1 e.2 (Finset.mem_filter.mp he).2

theorem totalCost_eq_sum_sym2 (sym : ∀ x y, w x y = w y x) :
    totalCost w = ∑ e : Sym2 V with ¬ e.IsDiag, Sym2.lift ⟨w, sym⟩ e := by
  have pairs : (Finset.univ : Finset V).offDiag.filter (fun e => e.1 < e.2) =
      Finset.univ.filter fun e : V × V => e.1 < e.2 := by
    ext e
    simpa using fun h : e.1 < e.2 => h.ne
  rw [← Finset.sym2_univ, Finset.sum_sym2_filter_not_isDiag, pairs]
  rfl

/-- A path costs at most as much as all edges together. -/
theorem walkCost_le_totalCost (sym : ∀ x y, w x y = w y x) {u v : V} {p : G.Walk u v}
    (hp : p.IsPath) : walkCost w p ≤ totalCost w := by
  have cost : walkCost w p = (p.edges.map (Sym2.lift ⟨w, sym⟩)).sum := by
    simp only [walkCost, Walk.edges, List.map_map]
    rfl
  calc walkCost w p = ∑ e ∈ p.edges.toFinset, Sym2.lift ⟨w, sym⟩ e := by
        rw [cost, List.sum_toFinset _ hp.isTrail.edges_nodup]
    _ ≤ ∑ e : Sym2 V with ¬ e.IsDiag, Sym2.lift ⟨w, sym⟩ e := by
        apply Finset.sum_le_sum_of_subset
        intro e he
        have edge : e ∈ G.edgeSet := p.edges_subset_edgeSet (List.mem_toFinset.mp he)
        exact Finset.mem_filter.mpr ⟨Finset.mem_univ e, G.not_isDiag_of_mem_edgeSet edge⟩
    _ = totalCost w := (totalCost_eq_sum_sym2 w sym).symm

end Total

/-! ## Settled vertices -/

/-- The distances from the source to the vertices of the set are known, and
each of them is the cost of a path within the set. -/
structure Settled (G : SimpleGraph V) (s : V) (S : Set V) (d : V → ℕ) : Prop where
  source : s ∈ S
  dist : ∀ x ∈ S, IsDist w G s x (d x)
  path : ∀ x ∈ S, ∃ p : G.Walk s x, p.IsPath ∧ (∀ v ∈ p.support, v ∈ S) ∧ walkCost w p = d x

/-- What the edges from the set to a vertex offer. -/
def offers (G : SimpleGraph V) (S : Set V) (d : V → ℕ) (y : V) : Set ℕ :=
  {c | ∃ x ∈ S, G.Adj x y ∧ c = d x + w x y}

namespace Settled
variable {w} {s : V} {S : Set V} {d d' : V → ℕ}

/-- At the beginning only the source is settled. -/
theorem start (hd : d s = 0) : Settled w G s {s} d where
  source := rfl
  dist := by
    rintro x rfl
    refine ⟨⟨.nil, by simp [hd]⟩, ?_⟩
    intro c _
    simp [hd]
  path := by
    rintro x rfl
    exact ⟨.nil, .nil, by simp, by simp [hd]⟩

theorem congr (h : Settled w G s S d) (same : ∀ x ∈ S, d' x = d x) : Settled w G s S d' where
  source := h.source
  dist := fun x hx => same x hx ▸ h.dist x hx
  path := fun x hx => same x hx ▸ h.path x hx

/-- An offer to a vertex outside the set is the cost of a path. -/
theorem path_of_offer (h : Settled w G s S d) {y : V} (hy : y ∉ S) {c : ℕ}
    (hc : c ∈ offers w G S d y) :
    ∃ p : G.Walk s y, p.IsPath ∧ (∀ v ∈ p.support, v ∈ insert y S) ∧ walkCost w p = c := by
  obtain ⟨x, hx, hxy, rfl⟩ := hc
  obtain ⟨p, hp, inside, cost⟩ := h.path x hx
  refine ⟨p.concat hxy, hp.concat (fun hm => hy (inside y hm)) hxy, ?_, ?_⟩
  · intro v hv
    rw [Walk.support_concat] at hv
    rcases List.mem_append.mp hv with hv | hv
    · exact Set.mem_insert_of_mem y (inside v hv)
    · exact List.mem_singleton.mp hv ▸ Set.mem_insert v S
  · rw [walkCost_concat, cost]

/-- A walk to a vertex outside the set costs at least some offer. -/
theorem exists_offer_le (h : Settled w G s S d) {v : V} (hv : v ∉ S) (p : G.Walk s v) :
    ∃ y ∉ S, ∃ c ∈ offers w G S d y, c ≤ walkCost w p := by
  obtain ⟨x, y, q, hx, hy, hxy, hle⟩ := exists_crossing w p h.source hv
  refine ⟨y, hy, d x + w x y, ⟨x, hx, hxy, rfl⟩, ?_⟩
  calc d x + w x y ≤ walkCost w q + w x y := Nat.add_le_add_right ((h.dist x hx).2 ⟨q, rfl⟩) _
    _ ≤ walkCost w p := hle

/-- The vertex with the least offer is settled next. -/
theorem insert (h : Settled w G s S d) {v : V} (hv : v ∉ S) (hd : d v ∈ offers w G S d v)
    (least : ∀ y ∉ S, ∀ c ∈ offers w G S d y, d v ≤ c) : Settled w G s (insert v S) d := by
  obtain ⟨q, hq, inside, cost⟩ := h.path_of_offer hv hd
  constructor
  · exact Set.mem_insert_of_mem v h.source
  · intro x hx
    rcases hx with rfl | hx
    · refine ⟨⟨q, cost⟩, ?_⟩
      rintro _ ⟨p, rfl⟩
      obtain ⟨y, hy, c, hc, hle⟩ := h.exists_offer_le hv p
      exact (least y hy c hc).trans hle
    · exact h.dist x hx
  · intro x hx
    rcases hx with rfl | hx
    · exact ⟨q, hq, inside, cost⟩
    · obtain ⟨p, hp, within, hc⟩ := h.path x hx
      exact ⟨p, hp, fun u hu => Set.mem_insert_of_mem v (within u hu), hc⟩

section Total
variable [Fintype V] [LinearOrder V]

theorem offer_le_totalCost (h : Settled w G s S d) (sym : ∀ x y, w x y = w y x) {y : V}
    (hy : y ∉ S) {c : ℕ} (hc : c ∈ offers w G S d y) : c ≤ totalCost w := by
  obtain ⟨p, hp, -, rfl⟩ := h.path_of_offer hy hc
  exact walkCost_le_totalCost w sym hp

end Total

end Settled

/-- No vertex outside the set is nearer to the source than a vertex of the set. -/
def Nearest (G : SimpleGraph V) (s : V) (S : Set V) (d : V → ℕ) : Prop :=
  ∀ x ∈ S, ∀ y ∉ S, ∀ p : G.Walk s y, d x ≤ walkCost w p

namespace Nearest
variable {w} {s : V} {S : Set V} {d d' : V → ℕ}

theorem start (hd : d s = 0) : Nearest w G s {s} d := by
  rintro x rfl y - p
  rw [hd]
  exact Nat.zero_le _

theorem congr (h : Nearest w G s S d) (same : ∀ x ∈ S, d' x = d x) : Nearest w G s S d' :=
  fun x hx y hy p => same x hx ▸ h x hx y hy p

/-- The vertex with the least offer is no further away than those that remain. -/
theorem insert (h : Nearest w G s S d) (settled : Settled w G s S d) {v : V}
    (least : ∀ y ∉ S, ∀ c ∈ offers w G S d y, d v ≤ c) : Nearest w G s (insert v S) d := by
  intro x hx y hy p
  have outside : y ∉ S := fun hm => hy (Set.mem_insert_of_mem v hm)
  rcases hx with rfl | hx
  · obtain ⟨y', hy', c, hc, le⟩ := settled.exists_offer_le outside p
    exact (least y' hy' c hc).trans le
  · exact h x hx y outside p

end Nearest

/-! ## Labels -/

/-- The label of a vertex is its least offer, or zero if nothing was offered yet. -/
def IsLabel (offered : Set ℕ) (t : ℕ) : Prop := (offered = ∅ ∧ t = 0) ∨ IsLeast offered t

namespace IsLabel
variable {offered : Set ℕ} {t c : ℕ}

/-- A further offer is taken if there was none or if it is less than the label. -/
theorem insert (h : IsLabel offered t) (pos : ∀ c ∈ offered, 0 < c) :
    IsLabel (insert c offered) (if t = 0 then c else if c < t then c else t) := by
  right
  rcases h with ⟨rfl, rfl⟩ | h
  · simp
  · have ht : t ≠ 0 := (pos t h.1).ne'
    have hmin : (if c < t then c else t) = min c t := by
      rw [min_def]
      split_ifs <;> omega
    rw [if_neg ht, hmin]
    exact h.insert c

end IsLabel

section Offers
variable {w} {S : Set V} {d d' : V → ℕ} {u y : V}

theorem offers_congr (same : ∀ x ∈ S, d' x = d x) : offers w G S d' y = offers w G S d y := by
  ext c
  constructor
  · rintro ⟨x, hx, hxy, rfl⟩
    exact ⟨x, hx, hxy, by rw [same x hx]⟩
  · rintro ⟨x, hx, hxy, rfl⟩
    exact ⟨x, hx, hxy, by rw [same x hx]⟩

theorem offers_mono {S' : Set V} (sub : S ⊆ S') : offers w G S d y ⊆ offers w G S' d y := by
  rintro c ⟨x, hx, hxy, rfl⟩
  exact ⟨x, sub hx, hxy, rfl⟩

/-- A new vertex of the set makes one more offer to each of its neighbours. -/
theorem offers_insert_adj (h : G.Adj u y) :
    offers w G (insert u S) d y = insert (d u + w u y) (offers w G S d y) := by
  ext c
  constructor
  · rintro ⟨x, rfl | hx, hxy, rfl⟩
    · exact Set.mem_insert _ _
    · exact Set.mem_insert_of_mem _ ⟨x, hx, hxy, rfl⟩
  · rintro (rfl | ⟨x, hx, hxy, rfl⟩)
    · exact ⟨u, Set.mem_insert u S, h, rfl⟩
    · exact ⟨x, Set.mem_insert_of_mem u hx, hxy, rfl⟩

theorem offers_insert_not_adj (h : ¬ G.Adj u y) :
    offers w G (insert u S) d y = offers w G S d y := by
  ext c
  constructor
  · rintro ⟨x, rfl | hx, hxy, rfl⟩
    · exact absurd hxy h
    · exact ⟨x, hx, hxy, rfl⟩
  · rintro ⟨x, hx, hxy, rfl⟩
    exact ⟨x, Set.mem_insert_of_mem u hx, hxy, rfl⟩

end Offers

end SamplePrograms.ShortestPath
