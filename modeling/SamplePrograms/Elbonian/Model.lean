import SamplePrograms.Library.Memory
import Mathlib.Data.List.FinRange

/-!
# The shortest path program `elbonian.c`

The program reads a matrix of edge costs, builds a graph of nodes that point to
their peers, and runs the algorithm of Dijkstra on it. The nodes to be visited
are kept in a doubly linked ring, the worklist.

## Implementation notes

Costs and labels are 32-bit words. A label is an `int`, so labels are compared
as signed words. The sum of an `int` and an `unsigned int` is taken modulo
`2 ^ 32`, and storing it in an `int` keeps its bits. The ids of nodes are rows
and columns of the matrix. Reading past the end of an array of `MAX_NODE_COUNT`
pointers is a fault. Allocations do not fail. The program does not read the
parameter `len` of `find_node_in_container` nor `src` of `dijkstra_call`.
-/

namespace SamplePrograms.Elbonian
open Memory

/-- `MAX_NODE_COUNT`. -/
def maxNodeCount : Nat := 200

theorem maxNodeCount_pos : 0 < maxNodeCount := by decide

/-- The id of a node, which is a row and a column of the matrix. -/
abbrev NodeId := Fin maxNodeCount

def firstId : NodeId := ⟨0, maxNodeCount_pos⟩

def secondId : NodeId := ⟨1, by decide⟩

abbrev CostMatrix := NodeId → NodeId → BitVec 32

/-- An array of `MAX_NODE_COUNT` pointers. -/
abbrev Slots := Fin maxNodeCount → Ptr

/-- A `node_t`. -/
structure Node where
  nodeId : NodeId
  orderId : Int
  tempLabel : BitVec 32
  finalLabel : BitVec 32
  visited : Bool
  peerList : Slots
  nextIndex : Nat

/-- A `dijks_list_node_t` without its two function pointers. -/
structure DijksListNode where
  data : Ptr
  next : Ptr
  prev : Ptr
  head : Ptr
  count : Nat

/-- The nodes and the elements of worklists in memory. -/
structure World where
  nodes : Heap Node
  lists : Heap DijksListNode

/-! ## The worklist -/

section Worklist

/-- Whether one of the next elements holds the key. -/
def findData (lists : Heap DijksListNode) (key : Ptr) : Nat → Ptr → Except Fault Bool
  | 0, _ => pure false
  | count + 1, ptr => do
      let e ← load lists.cell ptr
      if e.data = key then pure true else findData lists key count e.next

def insertIntoDijksList (lists : Heap DijksListNode) (head key : Ptr) :
    Except Fault (Heap DijksListNode) := do
  let h ← load lists.cell head
  let found ← findData lists key h.count h.next
  if found then
    pure lists
  else do
    let (a, lists) := lists.alloc ⟨none, none, none, none, 0⟩
    let tmp : Ptr := some a
    let lists ← lists.modify tmp fun e => { e with data := key }
    let h ← load lists.cell head
    let tmpNext := h.next
    let lists ← lists.modify head fun e => { e with next := tmp }
    let lists ← lists.modify tmp fun e => { e with prev := head }
    let lists ← lists.modify tmp fun e => { e with next := tmpNext }
    let lists ← lists.modify tmpNext fun e => { e with prev := tmp }
    lists.modify head fun e => { e with count := e.count + 1 }

/-- `ptr->data->temp_label`. -/
def labelOf (w : World) (ptr : Ptr) : Except Fault (BitVec 32) := do
  let e ← load w.lists.cell ptr
  let n ← load w.nodes.cell e.data
  pure n.tempLabel

/-- The loop that looks for the minimum label. -/
def findMin (w : World) : Nat → Ptr → Ptr → BitVec 32 → Except Fault Ptr
  | 0, _, ret, _ => pure ret
  | count + 1, ptr, ret, min => do
      let label ← labelOf w ptr
      let e ← load w.lists.cell ptr
      if label.slt min then findMin w count e.next ptr label else findMin w count e.next ret min

/-- The statements after the comment `pop the value now`. -/
def unlinkElement (lists : Heap DijksListNode) (head ret : Ptr) :
    Except Fault (Heap DijksListNode) := do
  let r ← load lists.cell ret
  let lists ← lists.modify r.prev fun e => { e with next := r.next }
  let r ← load lists.cell ret
  let lists ← lists.modify r.next fun e => { e with prev := r.prev }
  let lists ← lists.modify ret fun e => { e with prev := none }
  let lists ← lists.modify ret fun e => { e with next := none }
  lists.modify head fun e => { e with count := e.count - 1 }

def popFromDijksList (w : World) (head : Ptr) : Except Fault (Heap DijksListNode × Ptr) := do
  let h ← load w.lists.cell head
  let ptr := h.next
  let min ← labelOf w ptr
  let ret ← findMin w h.count ptr ptr min
  let lists ← unlinkElement w.lists head ret
  pure (lists, ret)

def initDijksList (lists : Heap DijksListNode) (list : Ptr) :
    Except Fault (Heap DijksListNode) := do
  let lists ← lists.modify list fun e => { e with count := 0 }
  let lists ← lists.modify list fun e => { e with head := list }
  let lists ← lists.modify list fun e => { e with next := list }
  lists.modify list fun e => { e with prev := list }

end Worklist

/-! ## The graph -/

section Graph

/-- The loop of `find_node_in_container` from an index on. -/
def findNodeInContainer (nodes : Heap Node) (list : Slots) (key : NodeId) (index : Nat) :
    Except Fault Ptr :=
  if h : index < maxNodeCount then
    match list ⟨index, h⟩ with
    | none => pure none
    | some a => do
        let n ← load nodes.cell (some a)
        if key = n.nodeId then pure (some a) else findNodeInContainer nodes list key (index + 1)
  else .error .outOfBounds
termination_by maxNodeCount - index

def insertIntoPeerList (nodes : Heap Node) (inNode key : Ptr) : Except Fault (Heap Node) := do
  let n ← load nodes.cell inNode
  if h : n.nextIndex < maxNodeCount then do
    let nodes ← nodes.modify inNode fun n' =>
      { n' with peerList := Function.update n'.peerList ⟨n.nextIndex, h⟩ key }
    nodes.modify inNode fun n' => { n' with nextIndex := n'.nextIndex + 1 }
  else .error .outOfBounds

/-- The local variables of `build_graph` that outlive an iteration. -/
structure Build where
  nodes : Heap Node
  container : Slots
  containerIndex : Nat
  rowStart : Ptr
  start : Ptr

/-- What `calloc` makes of a node. -/
def clearedNode : Node where
  nodeId := ⟨0, maxNodeCount_pos⟩
  orderId := 0
  tempLabel := 0
  finalLabel := 0
  visited := false
  peerList := fun _ => none
  nextIndex := 0

/-- Look the id up in the container, and add a new node for it if there is none. -/
def findOrAdd (b : Build) (id : NodeId) : Except Fault (Build × Ptr) := do
  match ← findNodeInContainer b.nodes b.container id 0 with
  | some a => pure (b, some a)
  | none =>
      let (a, nodes) := b.nodes.alloc clearedNode
      let nodes ← nodes.modify (some a) fun n => { n with nodeId := id }
      if h : b.containerIndex < maxNodeCount then
        pure ({ b with
          nodes := nodes
          container := Function.update b.container ⟨b.containerIndex, h⟩ (some a)
          containerIndex := b.containerIndex + 1 }, some a)
      else .error .outOfBounds

/-- The body of the loop over the columns. -/
def buildCell (cost : CostMatrix) (row : NodeId) (b : Build) (col : NodeId) :
    Except Fault Build :=
  if cost row col ≠ 0 then do
    let (b, rowStart) ← findOrAdd b row
    let (b, tmp) ← findOrAdd { b with rowStart := rowStart } col
    let nodes ← insertIntoPeerList b.nodes b.rowStart tmp
    pure { b with nodes := nodes }
  else pure b

/-- The body of the loop over the rows. -/
def buildRow (cost : CostMatrix) (src : Int) (b : Build) (row : NodeId) : Except Fault Build := do
  let b ← (List.finRange maxNodeCount).foldlM (buildCell cost row) b
  if (row.val : Int) = src then pure { b with start := b.rowStart } else pure b

def buildGraph (cost : CostMatrix) (src : Int) : Except Fault (Heap Node × Ptr) := do
  let b ← (List.finRange maxNodeCount).foldlM (buildRow cost src)
    ⟨.empty, fun _ => none, 0, none, none⟩
  pure (b.nodes, b.start)

end Graph

/-! ## The search -/

section Search
variable (cost : CostMatrix)

/-- The loop over `node->peer_list`, from an index on. -/
def scanPeers (body : World → Ptr → Except Fault World) (node : Ptr) (w : World) (index : Nat) :
    Except Fault World := do
  let n ← load w.nodes.cell node
  if h : index < maxNodeCount then
    match n.peerList ⟨index, h⟩ with
    | none => pure w
    | some a => do
        let w ← body w (some a)
        scanPeers body node w (index + 1)
  else .error .outOfBounds
termination_by maxNodeCount - index

/-- The body of the loop over the peers of the start. -/
def labelStartPeer (dataList start : Ptr) (w : World) (node : Ptr) : Except Fault World := do
  let s ← load w.nodes.cell start
  let n ← load w.nodes.cell node
  let nodes ← w.nodes.modify node fun n' =>
    { n' with tempLabel := s.finalLabel + cost s.nodeId n.nodeId }
  let lists ← insertIntoDijksList w.lists dataList node
  pure ⟨nodes, lists⟩

/-- `peer->temp_label` becomes the new label if it has no valid value or a greater one. -/
def relabelPeer (nodes : Heap Node) (peer : Ptr) (tempLabel : BitVec 32) :
    Except Fault (Heap Node) := do
  let p ← load nodes.cell peer
  if p.tempLabel = 0 then
    nodes.modify peer fun p' => { p' with tempLabel := tempLabel }
  else if tempLabel.slt p.tempLabel then
    nodes.modify peer fun p' => { p' with tempLabel := tempLabel }
  else pure nodes

/-- The body of the loop over the peers of another node. -/
def relaxPeer (dataList node : Ptr) (w : World) (peer : Ptr) : Except Fault World := do
  let p ← load w.nodes.cell peer
  if p.visited = false then do
    let n ← load w.nodes.cell node
    let tempLabel := n.finalLabel + cost n.nodeId p.nodeId
    let nodes ← relabelPeer w.nodes peer tempLabel
    let lists ← insertIntoDijksList w.lists dataList peer
    pure ⟨nodes, lists⟩
  else pure w

/-- What one iteration of the main loop takes from the worklist: the count of
the worklist before, and the node. -/
structure Visit where
  count : Nat
  node : Ptr

/-- The body of the main loop of `dijkstra_call`. -/
def visitNext (dst : Int) (dataList : Ptr) (currOrderId : Int) (w : World) (endNode : Ptr) :
    Except Fault (World × Ptr × Visit) := do
  let head ← load w.lists.cell dataList
  let (lists, tmp) ← popFromDijksList w dataList
  let e ← load lists.cell tmp
  let node := e.data
  let nodes ← w.nodes.modify node fun n => { n with finalLabel := n.tempLabel }
  let nodes ← nodes.modify node fun n => { n with orderId := currOrderId + 1 }
  let nodes ← nodes.modify node fun n => { n with visited := true }
  let n ← load nodes.cell node
  let endNode := if (n.nodeId.val : Int) = dst then node else endNode
  let w ← scanPeers (relaxPeer cost dataList node) node ⟨nodes, lists⟩ 0
  let lists ← if dataList ≠ tmp then w.lists.free tmp else pure w.lists
  pure (⟨w.nodes, lists⟩, endNode, ⟨head.count, node⟩)

/-- The main loop of `dijkstra_call`. It also returns what its iterations took
from the worklist. -/
def dijkstraLoop (dst nodeCount : Int) (dataList : Ptr) (currOrderId : Int) (w : World)
    (endNode : Ptr) : Except Fault (World × Ptr × List Visit) :=
  if currOrderId < nodeCount then do
    let (w, endNode, visit) ← visitNext cost dst dataList currOrderId w endNode
    let (w, endNode, visits) ← dijkstraLoop dst nodeCount dataList (currOrderId + 1) w endNode
    pure (w, endNode, visit :: visits)
  else pure (w, endNode, [])
termination_by (nodeCount - currOrderId).toNat

def dijkstraCall (dst nodeCount : Int) (start : Ptr) (w : World) (dataList : Ptr) :
    Except Fault (World × Ptr × List Visit) := do
  let nodes ← w.nodes.modify start fun n => { n with finalLabel := 0 }
  let nodes ← nodes.modify start fun n => { n with visited := true }
  let nodes ← nodes.modify start fun n => { n with orderId := 1 }
  let w ← scanPeers (labelStartPeer cost dataList start) start ⟨nodes, w.lists⟩ 0
  dijkstraLoop cost dst nodeCount dataList 1 w none

/-- The head of the worklist that `main` allocates. -/
def newDijksList : Except Fault (Heap DijksListNode × Ptr) := do
  let (a, lists) := Heap.empty.alloc ⟨none, none, none, none, 0⟩
  let lists ← initDijksList lists (some a)
  pure (lists, some a)

end Search

/-! ## The path -/

section Path
variable (cost : CostMatrix)

/-- The local variables of `main` that collect the path. -/
structure PathVars where
  path : Fin maxNodeCount → Int
  pathIndex : Nat
  totalCost : BitVec 32

/-- The loop over `end_tmp->peer_list`, from an index on. It stops at a peer whose label is
less by the cost of the edge. -/
def findBefore (nodes : Heap Node) (endTmp : Ptr) (index : Nat) : Except Fault Ptr := do
  let e ← load nodes.cell endTmp
  if h : index < maxNodeCount then
    match e.peerList ⟨index, h⟩ with
    | none => pure none
    | some a => do
        let n ← load nodes.cell (some a)
        if n.finalLabel = e.finalLabel - cost e.nodeId n.nodeId then pure (some a)
        else findBefore nodes endTmp (index + 1)
  else .error .outOfBounds
termination_by maxNodeCount - index

/-- The loop from `end_tmp` back to `start_tmp`. Without a peer to go to, the next
iteration reads through the null pointer. -/
def walkBack (nodes : Heap Node) (startTmp endTmp : Ptr) (v : PathVars) : Except Fault PathVars :=
  if endTmp ≠ startTmp then do
    match ← findBefore cost nodes endTmp 0 with
    | none => if startTmp = none then pure v else .error .nullPointer
    | some a => do
        let e ← load nodes.cell endTmp
        let n ← load nodes.cell (some a)
        if h : v.pathIndex < maxNodeCount then
          walkBack nodes startTmp (some a) {
            path := Function.update v.path ⟨v.pathIndex, h⟩ n.nodeId.val
            pathIndex := v.pathIndex + 1
            totalCost := v.totalCost + cost e.nodeId n.nodeId }
        else .error .outOfBounds
  else pure v
termination_by maxNodeCount - v.pathIndex

/-- What `main` prints after the call: the path from the start, and its cost. -/
def printPath (nodes : Heap Node) (start endNode : Ptr) : Except Fault (List Int × Int) := do
  let e ← load nodes.cell endNode
  let v ← walkBack cost nodes start endNode
    ⟨Function.update (fun _ => 0) firstId e.nodeId.val, 1, 0⟩
  pure ((((List.finRange maxNodeCount).take v.pathIndex).reverse.map v.path), v.totalCost.toInt)

end Path

end SamplePrograms.Elbonian
