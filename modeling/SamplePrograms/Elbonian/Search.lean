import SamplePrograms.Elbonian.Graph
import SamplePrograms.Elbonian.Worklist

/-!
# The search of `dijkstra_call` without memory

The state of the search is the marks of each id and the ids on the worklist.
Each step of the program is a step of this search, whatever the matrix is, as
long as each row has a slot left for the null pointer that ends its peers.
-/

namespace SamplePrograms.Elbonian
open Memory

/-! ## The search -/

/-- The marks of the nodes, and the worklist. -/
structure Search where
  marks : NodeId → Marks
  worklist : List NodeId

/-- The label of a peer that is offered a new one. Zero stands for no label yet. -/
def better (label offer : BitVec 32) : BitVec 32 :=
  if label = 0 then offer else if offer.slt label then offer else label

namespace Search
variable (cost : CostMatrix)

/-- Put a label on a vertex and the vertex on the worklist. -/
def label (σ : Search) (v : NodeId) (t : BitVec 32) : Search where
  marks := Function.update σ.marks v { σ.marks v with tempLabel := t }
  worklist := σ.worklist.insert v

/-- What the start does to a peer. -/
def labelStart (s : NodeId) (σ : Search) (v : NodeId) : Search :=
  σ.label v ((σ.marks s).finalLabel + cost s v)

/-- What another vertex does to a peer. -/
def relax (u : NodeId) (σ : Search) (v : NodeId) : Search :=
  if (σ.marks v).visited = false then
    σ.label v (better (σ.marks v).tempLabel ((σ.marks u).finalLabel + cost u v))
  else σ

/-- The vertex that is popped next. -/
def next (σ : Search) : Option NodeId :=
  match σ.worklist with
  | [] => none
  | x :: rest => some (firstLeast (fun v => (σ.marks v).tempLabel) (x :: rest) x)

/-- The start of the search. -/
def initial (s : NodeId) : Search where
  marks := Function.update (fun _ => .cleared) s ⟨1, 0, 0, true⟩
  worklist := []

/-- A vertex gets its final label. -/
def finalise (σ : Search) (v : NodeId) (orderId : Int) : Search where
  marks := Function.update σ.marks v ⟨orderId, (σ.marks v).tempLabel, (σ.marks v).tempLabel, true⟩
  worklist := σ.worklist.erase v

/-- A vertex is visited. -/
def visit (σ : Search) (v : NodeId) (orderId : Int) : Search :=
  (peersOf cost v).foldl (relax cost v) (σ.finalise v orderId)

theorem worklist_pos {σ : Search} {v : NodeId} (h : σ.next = some v) : 0 < σ.worklist.length := by
  cases hl : σ.worklist with
  | nil => simp [next, hl] at h
  | cons x rest => simp

theorem worklist_eq_nil {σ : Search} (h : σ.next = none) : σ.worklist = [] := by
  cases hl : σ.worklist with
  | nil => rfl
  | cons x rest => simp [next, hl] at h

/-- The state in which the main loop begins. -/
def started (s : NodeId) : Search := (peersOf cost s).foldl (labelStart cost s) (initial s)

/-- A number of iterations of the main loop, with the vertices in the order in
which they are visited. There is no result if the worklist runs empty. -/
def loop : Nat → Int → Search → Option (Search × List NodeId)
  | 0, _, σ => some (σ, [])
  | n + 1, orderId, σ => do
      let v ← σ.next
      let (τ, visited) ← loop n (orderId + 1) (σ.visit cost v (orderId + 1))
      pure (τ, v :: visited)

end Search

/-! ## The search in memory -/

variable {cost : CostMatrix} {place : NodeId → Ptr}

namespace GraphAt
variable {marks : NodeId → Marks} {nodes : Heap Node}

theorem exists_place (h : GraphAt cost place marks nodes) {v : NodeId} (hv : Occurs cost v) :
    ∃ a, place v = some a := Option.ne_none_iff_exists'.mp ((h.occurs v).mpr hv)

theorem exists_peer (h : GraphAt cost place marks nodes) {u v : NodeId} (hv : v ∈ peersOf cost u) :
    ∃ a, place v = some a := h.exists_place ⟨u, .inr (mem_peersOf.mp hv)⟩

/-- A write to the marks of a node. -/
theorem modify (h : GraphAt cost place marks nodes) {v : NodeId} {a : Nat} (hv : place v = some a)
    (f : Node → Node) (m : Marks)
    (hf : f (nodeOf place (peersOf cost v) v (marks v)) = nodeOf place (peersOf cost v) v m) :
    ∃ nodes', nodes.modify (some a) f = .ok nodes' ∧
      GraphAt cost place (Function.update marks v m) nodes' := by
  obtain ⟨nodes', written, -, cell⟩ := Heap.modify_ok (h.cells v a hv) f
  refine ⟨nodes', written, h.occurs, h.injective, ?_⟩
  intro u b hu
  rw [cell]
  by_cases huv : u = v
  · subst u
    cases hv.symm.trans hu
    rw [Function.update_self, Function.update_self, hf]
  · have apart : b ≠ a := fun he => huv (h.injective u v a (he ▸ hu) hv)
    rw [Function.update_of_ne apart, Function.update_of_ne huv]
    exact h.cells u b hu

theorem relabelPeer_ok (h : GraphAt cost place marks nodes) {v : NodeId} {a : Nat}
    (hv : place v = some a) (offer : BitVec 32) :
    ∃ nodes', relabelPeer nodes (some a) offer = .ok nodes' ∧
      GraphAt cost place (Function.update marks v
        { marks v with tempLabel := better (marks v).tempLabel offer }) nodes' := by
  have live := load_live (h.cells v a hv)
  have write := h.modify hv (fun n => { n with tempLabel := offer })
    { marks v with tempLabel := offer } rfl
  simp only [relabelPeer, live, bind, Except.bind, nodeOf, better]
  split_ifs
  · exact write
  · exact write
  · exact ⟨nodes, rfl, (Function.update_eq_self v marks).symm ▸ h⟩

/-- The assignments to a node that is visited. -/
theorem finalise_ok (h : GraphAt cost place marks nodes) {v : NodeId} {a : Nat}
    (hv : place v = some a) (orderId : Int) :
    ∃ nodes₁ nodes₂ nodes₃,
      nodes.modify (some a) (fun n => { n with finalLabel := n.tempLabel }) = .ok nodes₁ ∧
      nodes₁.modify (some a) (fun n => { n with orderId := orderId }) = .ok nodes₂ ∧
      nodes₂.modify (some a) (fun n => { n with visited := true }) = .ok nodes₃ ∧
      GraphAt cost place (Function.update marks v
        ⟨orderId, (marks v).tempLabel, (marks v).tempLabel, true⟩) nodes₃ := by
  let m : Marks := { marks v with finalLabel := (marks v).tempLabel }
  obtain ⟨nodes₁, e₁, h₁⟩ := h.modify hv (fun n => { n with finalLabel := n.tempLabel }) m rfl
  obtain ⟨nodes₂, e₂, h₂⟩ := h₁.modify hv (fun n => { n with orderId := orderId })
    { m with orderId := orderId } (by rw [Function.update_self]; rfl)
  obtain ⟨nodes₃, e₃, h₃⟩ := h₂.modify hv (fun n => { n with visited := true })
    { m with orderId := orderId, visited := true } (by rw [Function.update_self]; rfl)
  rw [Function.update_idem, Function.update_idem] at h₃
  exact ⟨nodes₁, nodes₂, nodes₃, e₁, e₂, e₃, h₃⟩

/-- The assignments to the start. -/
theorem start_ok (h : GraphAt cost place marks nodes) {v : NodeId} {a : Nat}
    (hv : place v = some a) :
    ∃ nodes₁ nodes₂ nodes₃,
      nodes.modify (some a) (fun n => { n with finalLabel := 0 }) = .ok nodes₁ ∧
      nodes₁.modify (some a) (fun n => { n with visited := true }) = .ok nodes₂ ∧
      nodes₂.modify (some a) (fun n => { n with orderId := 1 }) = .ok nodes₃ ∧
      GraphAt cost place (Function.update marks v ⟨1, (marks v).tempLabel, 0, true⟩) nodes₃ := by
  let m : Marks := { marks v with finalLabel := 0 }
  obtain ⟨nodes₁, e₁, h₁⟩ := h.modify hv (fun n => { n with finalLabel := 0 }) m rfl
  obtain ⟨nodes₂, e₂, h₂⟩ := h₁.modify hv (fun n => { n with visited := true })
    { m with visited := true } (by rw [Function.update_self]; rfl)
  obtain ⟨nodes₃, e₃, h₃⟩ := h₂.modify hv (fun n => { n with orderId := 1 })
    { m with visited := true, orderId := 1 } (by rw [Function.update_self]; rfl)
  rw [Function.update_idem, Function.update_idem] at h₃
  exact ⟨nodes₁, nodes₂, nodes₃, e₁, e₂, e₃, h₃⟩

end GraphAt

/-- The world holds the state of the search, beside the elements that were popped. -/
structure Represents (cost : CostMatrix) (place : NodeId → Ptr) (w : World) (head : Nat)
    (popped : List Nat) (σ : Search) : Prop where
  graph : GraphAt cost place σ.marks w.nodes
  placed : ∀ v ∈ σ.worklist, place v ≠ none
  nodup : σ.worklist.Nodup
  list : ∃ items, items.map Prod.snd = σ.worklist ∧ Worklist place w.lists head items popped

namespace Represents
variable {w : World} {head : Nat} {popped : List Nat} {σ : Search}

theorem load_node (h : Represents cost place w head popped σ) {v : NodeId} {a : Nat}
    (hv : place v = some a) :
    load w.nodes.cell (some a) = .ok (nodeOf place (peersOf cost v) v (σ.marks v)) :=
  load_live (h.graph.cells v a hv)

/-- A vertex is inserted after its marks were written. -/
theorem insert (h : Represents cost place w head popped σ) {v : NodeId} {a : Nat}
    (hv : place v = some a) {marks : NodeId → Marks} {nodes : Heap Node}
    (graph : GraphAt cost place marks nodes) :
    ∃ lists, insertIntoDijksList w.lists (some head) (some a) = .ok lists ∧
      Represents cost place ⟨nodes, lists⟩ head popped ⟨marks, σ.worklist.insert v⟩ := by
  obtain ⟨items, hitems, list⟩ := h.list
  obtain ⟨lists, items', inserted, hitems', list'⟩ := list.insert h.graph.injective hv
  rw [hv] at inserted
  rw [hitems] at hitems'
  refine ⟨lists, inserted, graph, ?_, h.nodup.insert, items', hitems', list'⟩
  intro u hu
  rcases List.mem_insert_iff.mp hu with rfl | hu
  · simp [hv]
  · exact h.placed u hu

theorem labelStartPeer_ok (h : Represents cost place w head popped σ) {s v : NodeId} {a b : Nat}
    (hs : place s = some a) (hv : place v = some b) :
    ∃ w', labelStartPeer cost (some head) (some a) w (some b) = .ok w' ∧
      Represents cost place w' head popped (σ.labelStart cost s v) := by
  obtain ⟨nodes, written, graph⟩ := h.graph.modify hv
    (fun n => { n with tempLabel := (σ.marks s).finalLabel + cost s v })
    { σ.marks v with tempLabel := (σ.marks s).finalLabel + cost s v } rfl
  obtain ⟨lists, inserted, h'⟩ := h.insert hv graph
  refine ⟨⟨nodes, lists⟩, ?_, h'⟩
  simp only [labelStartPeer, h.load_node hs, h.load_node hv, nodeOf, written, inserted, bind,
    Except.bind, pure, Except.pure]

theorem relaxPeer_ok (h : Represents cost place w head popped σ) {u v : NodeId} {a b : Nat}
    (hu : place u = some a) (hv : place v = some b) :
    ∃ w', relaxPeer cost (some head) (some a) w (some b) = .ok w' ∧
      Represents cost place w' head popped (σ.relax cost u v) := by
  by_cases unvisited : (σ.marks v).visited = false
  · obtain ⟨nodes, written, graph⟩ := h.graph.relabelPeer_ok hv ((σ.marks u).finalLabel + cost u v)
    obtain ⟨lists, inserted, h'⟩ := h.insert hv graph
    rw [Search.relax, if_pos unvisited]
    refine ⟨⟨nodes, lists⟩, ?_, h'⟩
    simp only [relaxPeer, h.load_node hu, h.load_node hv, nodeOf, unvisited, if_true, written,
      inserted, bind, Except.bind, pure, Except.pure]
  · rw [Search.relax, if_neg unvisited]
    refine ⟨w, ?_, h⟩
    simp only [relaxPeer, h.load_node hv, nodeOf, if_neg unvisited, bind, Except.bind, pure,
      Except.pure]

/-- A scan over the peers of a vertex does a step of the search for each of them, and comes
to the slot after them. -/
theorem scanPeers_end (h : Represents cost place w head popped σ) {v : NodeId} {a : Nat}
    (hv : place v = some a) {body : World → Ptr → Except Fault World}
    {step : Search → NodeId → Search}
    (body_ok : ∀ w σ c b, Represents cost place w head popped σ → place c = some b →
      ∃ w', body w (some b) = .ok w' ∧ Represents cost place w' head popped (step σ c)) :
    ∃ w', scanPeers body (some a) w 0 = scanPeers body (some a) w' (peersOf cost v).length ∧
      Represents cost place w' head popped ((peersOf cost v).foldl step σ) := by
  have fits : (peersOf cost v).length ≤ maxNodeCount := by
    have nodup : (peersOf cost v).Nodup := peersOf_nodup v
    have le := nodup.length_le_card
    rwa [Fintype.card_fin] at le
  have scan : ∀ back front w σ, peersOf cost v = front ++ back →
      Represents cost place w head popped σ →
      ∃ w', scanPeers body (some a) w front.length =
          scanPeers body (some a) w' (peersOf cost v).length ∧
        Represents cost place w' head popped (back.foldl step σ) := by
    intro back
    induction back with
    | nil =>
        intro front w σ split h
        rw [List.append_nil] at split
        exact ⟨w, by rw [split], h⟩
    | cons c back ih =>
        intro front w σ split h
        have hc : c ∈ peersOf cost v := by simp [split]
        obtain ⟨b, hb⟩ := h.graph.exists_peer hc
        obtain ⟨w₁, e₁, h₁⟩ := body_ok w σ c b h hb
        obtain ⟨w₂, e₂, h₂⟩ := ih (front ++ [c]) w₁ (step σ c) (by simpa using split) h₁
        refine ⟨w₂, ?_, h₂⟩
        have bound : front.length < maxNodeCount := by
          rw [split, List.length_append, List.length_cons] at fits
          omega
        have slot : (peersOf cost v)[front.length]?.bind place = some b := by
          simp [split, hb]
        rw [List.length_append, List.length_singleton] at e₂
        rw [scanPeers, h.load_node hv, ← e₂]
        simp only [bind, Except.bind, dif_pos bound, nodeOf, slot, e₁]
  exact scan (peersOf cost v) [] w σ rfl h

/-- A scan ends at the slot after the peers. -/
theorem scanPeers_ok (h : Represents cost place w head popped σ) {v : NodeId} {a : Nat}
    (hv : place v = some a) (room : (peersOf cost v).length < maxNodeCount)
    {body : World → Ptr → Except Fault World} {step : Search → NodeId → Search}
    (body_ok : ∀ w σ c b, Represents cost place w head popped σ → place c = some b →
      ∃ w', body w (some b) = .ok w' ∧ Represents cost place w' head popped (step σ c)) :
    ∃ w', scanPeers body (some a) w 0 = .ok w' ∧
      Represents cost place w' head popped ((peersOf cost v).foldl step σ) := by
  obtain ⟨w', scanned, h'⟩ := h.scanPeers_end hv body_ok
  refine ⟨w', ?_, h'⟩
  rw [scanned, scanPeers, h'.load_node hv]
  simp only [bind, Except.bind, dif_pos room, nodeOf, List.getElem?_length, Option.bind_none]
  rfl

/-- Without a slot after the peers, the scan leaves the array. -/
theorem scanPeers_full (h : Represents cost place w head popped σ) {v : NodeId} {a : Nat}
    (hv : place v = some a) (full : ¬ (peersOf cost v).length < maxNodeCount)
    {body : World → Ptr → Except Fault World} {step : Search → NodeId → Search}
    (body_ok : ∀ w σ c b, Represents cost place w head popped σ → place c = some b →
      ∃ w', body w (some b) = .ok w' ∧ Represents cost place w' head popped (step σ c)) :
    scanPeers body (some a) w 0 = .error .outOfBounds := by
  obtain ⟨w', scanned, h'⟩ := h.scanPeers_end hv body_ok
  rw [scanned, scanPeers, h'.load_node hv]
  simp only [bind, Except.bind, dif_neg full]

/-- The labels on the worklist are in memory. -/
theorem labelled (h : Represents cost place w head popped σ) :
    Labelled place w.nodes (fun v => (σ.marks v).tempLabel) σ.worklist := by
  intro v hv
  obtain ⟨a, ha⟩ := Option.ne_none_iff_exists'.mp (h.placed v hv)
  exact ⟨a, _, ha, h.graph.cells v a ha, rfl⟩

/-- A pop takes the next vertex from the worklist. -/
theorem pop_ok (h : Represents cost place w head [] σ) {v : NodeId} (next : σ.next = some v) :
    ∃ lists r e a, popFromDijksList w (some head) = .ok (lists, some r) ∧
      load lists.cell (some r) = .ok e ∧ e.data = some a ∧ place v = some a ∧
      Represents cost place ⟨w.nodes, lists⟩ head [r]
        { σ with worklist := σ.worklist.erase v } := by
  obtain ⟨items, hitems, list⟩ := h.list
  have labels := h.labelled
  rw [← hitems] at labels
  cases items with
  | nil => simp [Search.next, ← hitems] at next
  | cons x rest =>
      obtain ⟨front, r, back, lists, split, least, popped, ⟨e, he, data⟩, list'⟩ := list.pop labels
      have hr : r.2 = v := by
        simp only [Search.next, ← hitems, List.map_cons, Option.some.injEq] at next
        exact least.trans next
      have hv : v ∈ σ.worklist := by
        rw [← hitems, split, ← hr]
        exact List.mem_map_of_mem (by simp)
      obtain ⟨a, ha⟩ := Option.ne_none_iff_exists'.mp (h.placed v hv)
      have worklist : σ.worklist = front.map Prod.snd ++ v :: back.map Prod.snd := by
        rw [← hitems, split, List.map_append, List.map_cons, hr]
      have rest_eq : (front ++ back).map Prod.snd = σ.worklist.erase v := by
        have outside : v ∉ front.map Prod.snd := fun hm =>
          List.disjoint_of_nodup_append (worklist ▸ h.nodup) hm List.mem_cons_self
        rw [worklist, List.erase_append_right _ outside, List.erase_cons_head, List.map_append]
      refine ⟨lists, r.1, e, a, popped, load_live he, ?_, ha, h.graph, ?_, h.nodup.erase v, _,
        rest_eq, list'⟩
      · rw [data, hr, ha]
      · exact fun u hu => h.placed u (List.mem_of_mem_erase hu)

/-- An iteration of the main loop finalises the next vertex, scans its peers and frees the
element that it has popped. -/
theorem visitNext_eq (h : Represents cost place w head [] σ) {v : NodeId} (next : σ.next = some v)
    (dst orderId : Int) (endNode : Ptr) :
    ∃ nodes lists r a, place v = some a ∧
      Represents cost place ⟨nodes, lists⟩ head [r] (σ.finalise v (orderId + 1)) ∧
      visitNext cost dst (some head) orderId w endNode = (do
        let w ← scanPeers (relaxPeer cost (some head) (some a)) (some a) ⟨nodes, lists⟩ 0
        let lists ← w.lists.free (some r)
        pure (⟨w.nodes, lists⟩, if (v.val : Int) = dst then place v else endNode,
          ⟨σ.worklist.length, place v⟩)) := by
  obtain ⟨lists, r, e, a, popped, elem, data, hv, h₀⟩ := h.pop_ok next
  obtain ⟨items, hitems, list⟩ := h.list
  obtain ⟨headNode, load_head, size⟩ := list.exists_head
  obtain ⟨nodes₁, nodes₂, nodes₃, e₁, e₂, e₃, graph⟩ := h₀.graph.finalise_ok hv (orderId + 1)
  have h₁ : Represents cost place ⟨nodes₃, lists⟩ head [r] (σ.finalise v (orderId + 1)) :=
    ⟨graph, h₀.placed, h₀.nodup, h₀.list⟩
  obtain ⟨items', -, list'⟩ := h₁.list
  obtain ⟨apart, -⟩ := list'.free
  have count : headNode.count = σ.worklist.length := by
    rw [size, ← hitems, List.length_map]
  have differ : some head ≠ some r := fun he => apart (Option.some.inj he)
  refine ⟨nodes₃, lists, r, a, hv, h₁, ?_⟩
  simp only [visitNext, load_head, popped, elem, data, e₁, e₂, e₃, h₁.load_node hv, nodeOf,
    if_pos differ, count, hv, bind, Except.bind, pure, Except.pure]

/-- An iteration of the main loop visits the next vertex. -/
theorem visitNext_ok (h : Represents cost place w head [] σ) {v : NodeId} (next : σ.next = some v)
    (room : (peersOf cost v).length < maxNodeCount) (dst orderId : Int) (endNode : Ptr) :
    ∃ w', visitNext cost dst (some head) orderId w endNode =
        .ok (w', if (v.val : Int) = dst then place v else endNode, ⟨σ.worklist.length, place v⟩) ∧
      Represents cost place w' head [] (σ.visit cost v (orderId + 1)) := by
  obtain ⟨nodes, lists, r, a, hv, h₁, visited⟩ := h.visitNext_eq next dst orderId endNode
  obtain ⟨w₂, scanned, h₂⟩ := h₁.scanPeers_ok hv room fun w σ c b h hc => h.relaxPeer_ok hv hc
  obtain ⟨items, hitems, list⟩ := h₂.list
  obtain ⟨-, lists', freed, list'⟩ := list.free
  refine ⟨⟨w₂.nodes, lists'⟩, ?_, h₂.graph, h₂.placed, h₂.nodup, items, hitems, list'⟩
  simp only [visited, scanned, freed, bind, Except.bind, pure, Except.pure]

/-- The scan leaves the array if the next vertex has no slot left. -/
theorem visitNext_full (h : Represents cost place w head [] σ) {v : NodeId}
    (next : σ.next = some v) (full : ¬ (peersOf cost v).length < maxNodeCount) (dst orderId : Int)
    (endNode : Ptr) : visitNext cost dst (some head) orderId w endNode = .error .outOfBounds := by
  obtain ⟨nodes, lists, r, a, hv, h₁, visited⟩ := h.visitNext_eq next dst orderId endNode
  have scanned := h₁.scanPeers_full hv full fun w σ c b h hc => h.relaxPeer_ok hv hc
  simp only [visited, scanned, bind, Except.bind]

/-- Without a next vertex the iteration pops from the empty worklist. -/
theorem visitNext_empty (h : Represents cost place w head [] σ) (none_left : σ.next = none)
    (dst orderId : Int) (endNode : Ptr) :
    visitNext cost dst (some head) orderId w endNode = .error .nullPointer := by
  obtain ⟨items, hitems, list⟩ := h.list
  obtain ⟨headNode, load_head, size⟩ := list.exists_head
  have empty : items = [] := by
    rw [← List.map_eq_nil_iff, hitems]
    exact Search.worklist_eq_nil none_left
  subst empty
  have popped : popFromDijksList w (some head) = .error .nullPointer := list.pop_empty w.nodes
  simp only [visitNext, load_head, popped, bind, Except.bind]

/-- The main loop runs the search. -/
theorem dijkstraLoop_ok (dst : Int) {n : Nat} :
    ∀ {w σ τ visited} {orderId : Int} (endNode : Ptr), Represents cost place w head [] σ →
      σ.loop cost n orderId = some (τ, visited) →
      (∀ v ∈ visited, (peersOf cost v).length < maxNodeCount) →
      ∃ w' endNode' visits,
        dijkstraLoop cost dst (orderId + n) (some head) orderId w endNode =
          .ok (w', endNode', visits) ∧
        Represents cost place w' head [] τ ∧ visits.map Visit.node = visited.map place ∧
        (∀ x ∈ visits, 0 < x.count) ∧ (∀ v ∈ visited, (v.val : Int) = dst → endNode' = place v) ∧
        ((∀ v ∈ visited, (v.val : Int) ≠ dst) → endNode' = endNode) := by
  induction n with
  | zero =>
      intro w σ τ visited orderId endNode h run room
      cases run
      refine ⟨w, endNode, [], ?_, h, rfl, by simp, by simp, fun _ => rfl⟩
      rw [dijkstraLoop, if_neg (by simp)]
      rfl
  | succ n ih =>
      intro w σ τ visited orderId endNode h run room
      cases next : σ.next with
      | none => simp [Search.loop, next] at run
      | some v =>
          simp only [Search.loop, next, Option.bind_eq_bind, Option.bind_some,
            Option.bind_eq_some_iff] at run
          obtain ⟨⟨τ', visited'⟩, run', he⟩ := run
          cases he
          obtain ⟨room_v, room'⟩ := List.forall_mem_cons.mp room
          obtain ⟨w₁, visit, h₁⟩ := h.visitNext_ok next room_v dst orderId endNode
          obtain ⟨w₂, endNode₂, visits, run₂, h₂, nodes, counts, found, missed⟩ :=
            ih (if (v.val : Int) = dst then place v else endNode) h₁ run' room'
          refine ⟨w₂, endNode₂, ⟨σ.worklist.length, place v⟩ :: visits, ?_, h₂, ?_, ?_, ?_, ?_⟩
          · have bound : orderId + 1 + n = orderId + (n + 1 : Nat) := by omega
            rw [bound] at run₂
            rw [dijkstraLoop, if_pos (by omega)]
            simp only [visit, run₂, bind, Except.bind, pure, Except.pure]
          · rw [List.map_cons, List.map_cons, nodes]
          · intro x hx
            rcases List.mem_cons.mp hx with rfl | hx
            · exact Search.worklist_pos next
            · exact counts x hx
          · intro u hu source
            by_cases later : u ∈ visited'
            · exact found u later source
            · have huv : u = v := (List.mem_cons.mp hu).resolve_right later
              subst u
              rw [missed, if_pos source]
              intro x hx hxd
              have hxv : x = v := Fin.ext (Int.ofNat_inj.mp (hxd.trans source.symm))
              exact later (hxv ▸ hx)
          · intro none_visited
            rw [missed fun u hu => none_visited u (List.mem_cons_of_mem v hu),
              if_neg (none_visited v List.mem_cons_self)]

/-- A main loop without a fault has run the search, over vertices that have a slot left. -/
theorem dijkstraLoop_run (dst : Int) {n : Nat} :
    ∀ {w σ r} {orderId : Int} (endNode : Ptr), Represents cost place w head [] σ →
      dijkstraLoop cost dst (orderId + n) (some head) orderId w endNode = .ok r →
      ∃ τ visited, σ.loop cost n orderId = some (τ, visited) ∧
        ∀ v ∈ visited, (peersOf cost v).length < maxNodeCount := by
  induction n with
  | zero =>
      intro w σ r orderId endNode h run
      exact ⟨σ, [], rfl, by simp⟩
  | succ n ih =>
      intro w σ r orderId endNode h run
      rw [dijkstraLoop, if_pos (by omega)] at run
      cases next : σ.next with
      | none =>
          simp only [h.visitNext_empty next, bind, Except.bind] at run
          cases run
      | some v =>
          by_cases room : (peersOf cost v).length < maxNodeCount
          · obtain ⟨w₁, visit, h₁⟩ := h.visitNext_ok next room dst orderId endNode
            have bound : orderId + (n + 1 : Nat) = orderId + 1 + n := by omega
            rw [bound] at run
            simp only [visit, bind, Except.bind] at run
            split at run
            case h_1 => cases run
            case h_2 r' later =>
              obtain ⟨τ, visited, run', rooms⟩ := ih _ h₁ later
              refine ⟨τ, v :: visited, ?_, List.forall_mem_cons.mpr ⟨room, rooms⟩⟩
              simp only [Search.loop, next, run', Option.bind_eq_bind, Option.bind_some, pure]
          · simp only [h.visitNext_full next room, bind, Except.bind] at run
            cases run

/-- The main loop faults when the search runs out of vertices. -/
theorem dijkstraLoop_empty (room : ∀ v, (peersOf cost v).length < maxNodeCount) (dst : Int)
    {n : Nat} :
    ∀ {w σ} {orderId : Int} (endNode : Ptr), Represents cost place w head [] σ →
      σ.loop cost n orderId = none →
      dijkstraLoop cost dst (orderId + n) (some head) orderId w endNode = .error .nullPointer := by
  induction n with
  | zero =>
      intro w σ orderId endNode h run
      cases run
  | succ n ih =>
      intro w σ orderId endNode h run
      rw [dijkstraLoop, if_pos (by omega)]
      cases next : σ.next with
      | none => simp only [h.visitNext_empty next, bind, Except.bind]
      | some v =>
          obtain ⟨w₁, visit, h₁⟩ := h.visitNext_ok next (room v) dst orderId endNode
          have run' : (σ.visit cost v (orderId + 1)).loop cost n (orderId + 1) = none := by
            rw [Option.eq_none_iff_forall_ne_some]
            rintro ⟨τ, visited⟩ later
            simp [Search.loop, next, later] at run
          have bound : orderId + 1 + n = orderId + (n + 1 : Nat) := by omega
          have rest := ih (if (v.val : Int) = dst then place v else endNode) h₁ run'
          rw [bound] at rest
          simp only [visit, rest, bind, Except.bind]

end Represents

/-- The call prepares the search from the start and enters the main loop. -/
theorem dijkstraCall_started {nodes : Heap Node} {lists : Heap DijksListNode} {head : Nat}
    (graph : GraphAt cost place (fun _ => .cleared) nodes) (list : Worklist place lists head [] [])
    {s : NodeId} (room : (peersOf cost s).length < maxNodeCount) (hs : Occurs cost s) :
    ∃ w, Represents cost place w head [] (Search.started cost s) ∧ ∀ dst nodeCount,
      dijkstraCall cost dst nodeCount (place s) ⟨nodes, lists⟩ (some head) =
        dijkstraLoop cost dst nodeCount (some head) 1 w none := by
  obtain ⟨a, ha⟩ := graph.exists_place hs
  obtain ⟨nodes₁, nodes₂, nodes₃, e₁, e₂, e₃, graph'⟩ := graph.start_ok ha
  have h : Represents cost place ⟨nodes₃, lists⟩ head [] (.initial s) :=
    ⟨graph', by simp [Search.initial], List.nodup_nil, [], rfl, list⟩
  obtain ⟨w, scanned, h'⟩ := h.scanPeers_ok ha room fun w σ c b h hc => h.labelStartPeer_ok ha hc
  refine ⟨w, h', fun dst nodeCount => ?_⟩
  simp only [dijkstraCall, ha, e₁, e₂, e₃, scanned, bind, Except.bind]

/-- The call runs the search from the start. -/
theorem dijkstraCall_ok {nodes : Heap Node} {lists : Heap DijksListNode} {head : Nat}
    (graph : GraphAt cost place (fun _ => .cleared) nodes) (list : Worklist place lists head [] [])
    {s : NodeId} (room : (peersOf cost s).length < maxNodeCount) (hs : Occurs cost s)
    {n : Nat} {τ : Search} {visited : List NodeId}
    (run : (Search.started cost s).loop cost n 1 = some (τ, visited))
    (rooms : ∀ v ∈ visited, (peersOf cost v).length < maxNodeCount) (dst : Int) :
    ∃ w endNode visits,
      dijkstraCall cost dst (1 + n) (place s) ⟨nodes, lists⟩ (some head) =
        .ok (w, endNode, visits) ∧
      Represents cost place w head [] τ ∧ visits.map Visit.node = visited.map place ∧
      (∀ x ∈ visits, 0 < x.count) ∧ (∀ v ∈ visited, (v.val : Int) = dst → endNode = place v) ∧
      ((∀ v ∈ visited, (v.val : Int) ≠ dst) → endNode = none) := by
  obtain ⟨w₁, h₁, call⟩ := dijkstraCall_started graph list room hs
  obtain ⟨w, endNode, visits, looped, found⟩ := h₁.dijkstraLoop_ok dst none run rooms
  exact ⟨w, endNode, visits, (call dst (1 + n)).trans looped, found⟩

/-- A call without a fault has run the search, over vertices that have a slot left. -/
theorem dijkstraCall_run {nodes : Heap Node} {lists : Heap DijksListNode} {head : Nat}
    (graph : GraphAt cost place (fun _ => .cleared) nodes) (list : Worklist place lists head [] [])
    {s : NodeId} (hs : Occurs cost s) {n : Nat} {dst : Int} {r : World × Ptr × List Visit}
    (called : dijkstraCall cost dst (1 + n) (place s) ⟨nodes, lists⟩ (some head) = .ok r) :
    (peersOf cost s).length < maxNodeCount ∧
      ∃ τ visited, (Search.started cost s).loop cost n 1 = some (τ, visited) ∧
        ∀ v ∈ visited, (peersOf cost v).length < maxNodeCount := by
  by_cases room : (peersOf cost s).length < maxNodeCount
  · obtain ⟨w, h, call⟩ := dijkstraCall_started graph list room hs
    rw [call] at called
    exact ⟨room, h.dijkstraLoop_run dst none called⟩
  · obtain ⟨a, ha⟩ := graph.exists_place hs
    obtain ⟨nodes₁, nodes₂, nodes₃, e₁, e₂, e₃, graph'⟩ := graph.start_ok ha
    have h : Represents cost place ⟨nodes₃, lists⟩ head [] (.initial s) :=
      ⟨graph', by simp [Search.initial], List.nodup_nil, [], rfl, list⟩
    have scanned := h.scanPeers_full ha room fun w σ c b h hc => h.labelStartPeer_ok ha hc
    simp only [dijkstraCall, ha, e₁, e₂, e₃, scanned, bind, Except.bind] at called
    cases called

/-- What a call without a fault has done. -/
theorem dijkstraCall_inv {nodes : Heap Node} {lists : Heap DijksListNode} {head : Nat}
    (graph : GraphAt cost place (fun _ => .cleared) nodes) (list : Worklist place lists head [] [])
    {s : NodeId} (hs : Occurs cost s) {n : Nat} {dst : Int} {w : World} {endNode : Ptr}
    {visits : List Visit}
    (called : dijkstraCall cost dst (1 + n) (place s) ⟨nodes, lists⟩ (some head) =
      .ok (w, endNode, visits)) :
    ∃ τ visited, (Search.started cost s).loop cost n 1 = some (τ, visited) ∧
      (∀ v, v = s ∨ v ∈ visited → (peersOf cost v).length < maxNodeCount) ∧
      Represents cost place w head [] τ ∧ visits.map Visit.node = visited.map place ∧
      ((∀ v ∈ visited, (v.val : Int) ≠ dst) → endNode = none) := by
  obtain ⟨room, τ, visited, run, rooms⟩ := dijkstraCall_run graph list hs called
  obtain ⟨w', endNode', visits', called', hw, nodes_eq, -, -, missed⟩ :=
    dijkstraCall_ok graph list room hs run rooms dst
  cases called.symm.trans called'
  refine ⟨τ, visited, run, ?_, hw, nodes_eq, missed⟩
  rintro v (rfl | hv)
  · exact room
  · exact rooms v hv

/-- The call faults when the search runs out of vertices. -/
theorem dijkstraCall_empty {nodes : Heap Node} {lists : Heap DijksListNode} {head : Nat}
    (graph : GraphAt cost place (fun _ => .cleared) nodes) (list : Worklist place lists head [] [])
    (room : ∀ v, (peersOf cost v).length < maxNodeCount) {s : NodeId} (hs : Occurs cost s)
    {n : Nat} (run : (Search.started cost s).loop cost n 1 = none) (dst : Int) :
    dijkstraCall cost dst (1 + n) (place s) ⟨nodes, lists⟩ (some head) = .error .nullPointer := by
  obtain ⟨w, h, call⟩ := dijkstraCall_started graph list (room s) hs
  rw [call]
  exact h.dijkstraLoop_empty room dst none run

end SamplePrograms.Elbonian
