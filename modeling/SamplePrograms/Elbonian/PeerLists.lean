import SamplePrograms.Elbonian.Model
import SamplePrograms.Library.Bounds

/-!
# The scans of the peer lists

The search changes the labels of nodes, but no peer list. A scan of a peer list stays
within the array if one of the slots holds the null pointer.
-/

namespace SamplePrograms.Elbonian
open Memory

/-- The peer lists of the nodes in memory. -/
def peerLists (nodes : Heap Node) (a : Nat) : Option Slots := (nodes.cell a).map Node.peerList

/-- Each of the peer lists has a slot with the null pointer. -/
def Ended (shape : Nat → Option Slots) : Prop :=
  ∀ a slots, shape a = some slots → ∃ i, slots i = none

/-- The nodes have the given peer lists. -/
def HasShape (shape : Nat → Option Slots) (nodes : Heap Node) : Prop := peerLists nodes = shape

section Shape
variable {shape : Nat → Option Slots} {nodes : Heap Node} {w : World}

theorem HasShape.peerList (h : HasShape shape nodes) {a : Nat} {n : Node}
    (live : nodes.cell a = some n) : shape a = some n.peerList := by
  rw [← h, peerLists, live]
  rfl

theorem HasShape.modify (h : HasShape shape nodes) (p : Ptr) {f : Node → Node}
    (same : ∀ n, (f n).peerList = n.peerList) :
    InBounds (HasShape shape) (nodes.modify p f) := by
  apply (inBounds_modify nodes p f).imp
  rintro nodes' ⟨a, n, live, cell⟩
  rw [HasShape, ← h]
  funext b
  rw [peerLists, cell]
  by_cases hb : b = a
  · subst b
    rw [Function.update_self, peerLists, live, Option.map_some, Option.map_some, same]
  · rw [Function.update_of_ne hb, peerLists]

/-! ## The worklist -/

theorem inBounds_findData (lists : Heap DijksListNode) (key : Ptr) (count : Nat) (ptr : Ptr) :
    InBounds (fun _ => True) (findData lists key count ptr) := by
  induction count generalizing ptr with
  | zero => trivial
  | succ count ih =>
    apply (inBounds_load lists.cell ptr).bind
    intro e _
    exact .ite (fun _ => trivial) fun _ => ih e.next

theorem inBounds_write (lists : Heap DijksListNode) (p : Ptr) (f : DijksListNode → DijksListNode) :
    InBounds (fun _ => True) (lists.modify p f) :=
  (inBounds_modify lists p f).imp fun _ _ => trivial

theorem inBounds_insertIntoDijksList (lists : Heap DijksListNode) (head key : Ptr) :
    InBounds (fun _ => True) (insertIntoDijksList lists head key) := by
  apply (inBounds_load lists.cell head).bind
  intro h _
  apply (inBounds_findData lists key h.count h.next).bind
  intro found _
  apply InBounds.ite
  · exact fun _ => trivial
  · intro _
    apply (inBounds_write _ _ _).bind
    intro lists _
    apply (inBounds_load lists.cell head).bind
    intro h _
    apply (inBounds_write _ _ _).bind
    intro lists _
    apply (inBounds_write _ _ _).bind
    intro lists _
    apply (inBounds_write _ _ _).bind
    intro lists _
    apply (inBounds_write _ _ _).bind
    intro lists _
    exact inBounds_write _ _ _

theorem inBounds_labelOf (w : World) (ptr : Ptr) :
    InBounds (fun _ => True) (labelOf w ptr) := by
  apply (inBounds_load _ _).bind
  intro e _
  apply (inBounds_load _ _).bind
  exact fun _ _ => .pure trivial

theorem inBounds_findMin (w : World) (count : Nat) (ptr ret : Ptr) (min : BitVec 32) :
    InBounds (fun _ => True) (findMin w count ptr ret min) := by
  induction count generalizing ptr ret min with
  | zero => trivial
  | succ count ih =>
    apply (inBounds_labelOf w ptr).bind
    intro label _
    apply (inBounds_load _ _).bind
    intro e _
    exact .ite (fun _ => ih _ _ _) fun _ => ih _ _ _

theorem inBounds_unlinkElement (lists : Heap DijksListNode) (head ret : Ptr) :
    InBounds (fun _ => True) (unlinkElement lists head ret) := by
  apply (inBounds_load _ _).bind
  intro r _
  apply (inBounds_write _ _ _).bind
  intro lists _
  apply (inBounds_load _ _).bind
  intro r _
  apply (inBounds_write _ _ _).bind
  intro lists _
  apply (inBounds_write _ _ _).bind
  intro lists _
  apply (inBounds_write _ _ _).bind
  intro lists _
  exact inBounds_write _ _ _

theorem inBounds_popFromDijksList (w : World) (head : Ptr) :
    InBounds (fun _ => True) (popFromDijksList w head) := by
  apply (inBounds_load _ _).bind
  intro h _
  apply (inBounds_labelOf _ _).bind
  intro min _
  apply (inBounds_findMin _ _ _ _ _).bind
  intro ret _
  apply (inBounds_unlinkElement _ _ _).bind
  exact fun _ _ => .pure trivial

/-! ## The search -/

/-- One of the next slots of a node holds the null pointer. -/
def EndsWithin (shape : Nat → Option Slots) (p : Ptr) (index n : Nat) : Prop :=
  ∀ a slots, p = some a → shape a = some slots →
    ∃ i : Fin maxNodeCount, slots i = none ∧ index ≤ i.val ∧ i.val < index + n

theorem Ended.endsWithin (ended : Ended shape) (p : Ptr) :
    EndsWithin shape p 0 maxNodeCount := by
  rintro a slots - here
  obtain ⟨i, empty⟩ := ended a slots here
  exact ⟨i, empty, Nat.zero_le _, by omega⟩

theorem EndsWithin.index_lt {p : Ptr} {index n : Nat} (h : EndsWithin shape p index n) {a : Nat}
    {slots : Slots} (hp : p = some a) (here : shape a = some slots) :
    index < maxNodeCount ∧ 0 < n := by
  obtain ⟨i, -, low, high⟩ := h a slots hp here
  omega

/-- The end lies ahead of a slot that is filled. -/
theorem EndsWithin.next {p : Ptr} {index n : Nat} (h : EndsWithin shape p index (n + 1)) {a : Nat}
    {slots : Slots} (hp : p = some a) (here : shape a = some slots) (lt : index < maxNodeCount)
    {b : Nat} (filled : slots ⟨index, lt⟩ = some b) : EndsWithin shape p (index + 1) n := by
  intro a' slots' hp' here'
  obtain rfl : a = a' := Option.some.inj (hp.symm.trans hp')
  obtain rfl : slots = slots' := Option.some.inj (here.symm.trans here')
  obtain ⟨i, empty, low, high⟩ := h a slots hp here
  have past : i.val ≠ index := by
    rintro rfl
    exact absurd (filled.symm.trans empty) (Option.some_ne_none b)
  exact ⟨i, empty, by omega, by omega⟩

/-- A scan stays within the peer list if its body keeps the peer lists. -/
theorem inBounds_scanPeers (ended : Ended shape) {body : World → Ptr → Except Fault World}
    (keeps : ∀ w a, HasShape shape w.nodes →
      InBounds (fun w' => HasShape shape w'.nodes) (body w a)) (node : Ptr)
    (h : HasShape shape w.nodes) :
    InBounds (fun w' => HasShape shape w'.nodes) (scanPeers body node w 0) := by
  have scan : ∀ n index (w : World), HasShape shape w.nodes → EndsWithin shape node index n →
      InBounds (fun w' => HasShape shape w'.nodes) (scanPeers body node w index) := by
    intro n
    induction n with
    | zero =>
      intro index w h ahead
      rw [scanPeers]
      apply (inBounds_load _ _).bind
      rintro n' ⟨a, hp, live⟩
      exact absurd (ahead.index_lt hp (h.peerList live)).2 (lt_irrefl 0)
    | succ n ih =>
      intro index w h ahead
      rw [scanPeers]
      apply (inBounds_load _ _).bind
      rintro n' ⟨a, hp, live⟩
      have bound := (ahead.index_lt hp (h.peerList live)).1
      rw [dif_pos bound]
      split
      case h_1 => exact .pure h
      case h_2 b filled =>
        apply (keeps w (some b) h).bind
        intro w' h'
        exact ih (index + 1) w' h' (ahead.next hp (h.peerList live) bound filled)
  exact scan maxNodeCount 0 w h (ended.endsWithin node)

variable (cost : CostMatrix)

theorem inBounds_labelStartPeer (dataList start : Ptr) (node : Ptr) (h : HasShape shape w.nodes) :
    InBounds (fun w' => HasShape shape w'.nodes) (labelStartPeer cost dataList start w node) := by
  apply (inBounds_load _ _).bind
  intro s _
  apply (inBounds_load _ _).bind
  intro n _
  apply (h.modify node (by exact fun _ => rfl)).bind
  intro nodes h'
  apply (inBounds_insertIntoDijksList _ _ _).bind
  exact fun _ _ => h'

theorem inBounds_relabelPeer (peer : Ptr) (tempLabel : BitVec 32) (h : HasShape shape nodes) :
    InBounds (HasShape shape) (relabelPeer nodes peer tempLabel) := by
  apply (inBounds_load _ _).bind
  intro p _
  have written : InBounds (HasShape shape)
      (nodes.modify peer fun p' => { p' with tempLabel := tempLabel }) :=
    h.modify peer fun _ => rfl
  exact .ite (fun _ => written) fun _ => .ite (fun _ => written) fun _ => h

theorem inBounds_relaxPeer (dataList node : Ptr) (peer : Ptr) (h : HasShape shape w.nodes) :
    InBounds (fun w' => HasShape shape w'.nodes) (relaxPeer cost dataList node w peer) := by
  apply (inBounds_load _ _).bind
  intro p _
  apply InBounds.ite
  · intro _
    apply (inBounds_load _ _).bind
    intro n _
    apply (inBounds_relabelPeer peer _ h).bind
    intro nodes h'
    apply (inBounds_insertIntoDijksList _ _ _).bind
    exact fun _ _ => h'
  · exact fun _ => h

theorem inBounds_visitNext (ended : Ended shape) (dst : Int) (dataList : Ptr) (orderId : Int)
    (endNode : Ptr) (h : HasShape shape w.nodes) :
    InBounds (fun r => HasShape shape r.1.nodes)
      (visitNext cost dst dataList orderId w endNode) := by
  apply (inBounds_load _ _).bind
  intro head _
  apply (inBounds_popFromDijksList _ _).bind
  rintro ⟨lists, tmp⟩ _
  apply (inBounds_load _ _).bind
  intro e _
  apply (h.modify e.data (by exact fun _ => rfl)).bind
  intro nodes h
  apply (h.modify e.data (by exact fun _ => rfl)).bind
  intro nodes h
  apply (h.modify e.data (by exact fun _ => rfl)).bind
  intro nodes h
  apply (inBounds_load _ _).bind
  intro n _
  apply (inBounds_scanPeers ended (fun w a h => inBounds_relaxPeer cost _ _ _ h) _ h).bind
  intro w h
  dsimp only
  apply InBounds.ite
  · intro _
    apply (inBounds_free _ _).bind
    exact fun _ _ => h
  · exact fun _ => h

theorem inBounds_dijkstraLoop (ended : Ended shape) (dst nodeCount : Int) (dataList : Ptr)
    (n : Nat) :
    ∀ {w : World} (orderId : Int) (endNode : Ptr), (nodeCount - orderId).toNat = n →
      HasShape shape w.nodes →
      InBounds (fun r => HasShape shape r.1.nodes)
        (dijkstraLoop cost dst nodeCount dataList orderId w endNode) := by
  induction n with
  | zero =>
    intro w orderId endNode left h
    rw [dijkstraLoop, if_neg (by omega)]
    exact h
  | succ n ih =>
    intro w orderId endNode left h
    rw [dijkstraLoop, if_pos (by omega)]
    apply (inBounds_visitNext cost ended _ _ _ _ h).bind
    rintro ⟨w, endNode, visit⟩ h
    apply (ih (orderId + 1) endNode (by omega) h).bind
    rintro ⟨w, endNode, visits⟩ h
    exact h

/-- The call stays within all peer lists, and keeps them. -/
theorem inBounds_dijkstraCall (ended : Ended shape) (dst nodeCount : Int) (start : Ptr)
    (dataList : Ptr) (h : HasShape shape w.nodes) :
    InBounds (fun r => HasShape shape r.1.nodes)
      (dijkstraCall cost dst nodeCount start w dataList) := by
  apply (h.modify start (by exact fun _ => rfl)).bind
  intro nodes h
  apply (h.modify start (by exact fun _ => rfl)).bind
  intro nodes h
  apply (h.modify start (by exact fun _ => rfl)).bind
  intro nodes h
  apply (inBounds_scanPeers ended (fun w a h => inBounds_labelStartPeer cost _ _ _ h) _ h).bind
  intro w h
  exact inBounds_dijkstraLoop cost ended dst nodeCount dataList _ 1 none rfl h

/-- The loop of `main` over a peer list stays within it. -/
theorem inBounds_findBefore (ended : Ended shape) (h : HasShape shape nodes) (endTmp : Ptr) :
    InBounds (fun _ => True) (findBefore cost nodes endTmp 0) := by
  have scan : ∀ n index, EndsWithin shape endTmp index n →
      InBounds (fun _ => True) (findBefore cost nodes endTmp index) := by
    intro n
    induction n with
    | zero =>
      intro index ahead
      rw [findBefore]
      apply (inBounds_load _ _).bind
      rintro n' ⟨a, hp, live⟩
      exact absurd (ahead.index_lt hp (h.peerList live)).2 (lt_irrefl 0)
    | succ n ih =>
      intro index ahead
      rw [findBefore]
      apply (inBounds_load _ _).bind
      rintro n' ⟨a, hp, live⟩
      have bound := (ahead.index_lt hp (h.peerList live)).1
      rw [dif_pos bound]
      split
      case h_1 => trivial
      case h_2 b filled =>
        apply (inBounds_load _ _).bind
        intro c _
        apply InBounds.ite
        · exact fun _ => trivial
        · exact fun _ => ih (index + 1) (ahead.next hp (h.peerList live) bound filled)
  exact scan maxNodeCount 0 (ended.endsWithin endTmp)

end Shape

end SamplePrograms.Elbonian
