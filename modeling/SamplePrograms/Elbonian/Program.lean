import SamplePrograms.Elbonian.Input
import SamplePrograms.Elbonian.Route

/-!
# From the input of `elbonian.c` to its output

The lines of the input make the matrix, the search gives every vertex its distance from the source,
and the way back from the destination is printed. Read as numbers, what the program prints for a
connected graph is a shortest path and its cost.

## Implementation notes

The program prints only after the search, so its output is its result. The order in which the two
allocations of `main` and of `build_graph` come does not matter, because the elements of the
worklist and the nodes are in heaps of their own.
-/

namespace SamplePrograms.Elbonian
open Memory Stdio ShortestPath

/-- What `main` prints when the input has too many nodes. -/
def tooManyNodes : List Char := "The programe supports only #200 nodes\n".toList

/-- The two calls of `printf` after the search. -/
def showPath (path : List Int) (totalCost : Int) : List Char :=
  (path.flatMap fun i => printInt i ++ [' ']) ++ (printInt totalCost ++ ['\n'])

/-- `main` from its input to its output. -/
def main (stdin : List Char) : Except Fault (List Char) := do
  let (lists, list) ← newDijksList
  match ← readInput stdin with
  | none => pure tooManyNodes
  | some (nodeCount, v) => do
      let (nodes, start) ← buildGraph v.costMatrix v.src
      let (w, endNode, _) ←
        dijkstraCall v.costMatrix v.dst nodeCount start ⟨nodes, lists⟩ list
      let (path, totalCost) ← printPath v.costMatrix w.nodes start endNode
      pure (showPath path totalCost)

/-- The output is the vertices of a path from one vertex to another and its cost, which is the
least. -/
def OutputsShortest (cost : CostMatrix) (s t : NodeId) (r : Except Fault (List Char)) : Prop :=
  ∃ text, ∃ p : (edges cost).Walk s t, r = .ok text ∧
    scanInts (p.support.length + 1) text =
      p.support.map (fun v => (v.val : Int)) ++ [(walkCost (edgeCost cost) p : Int)] ∧
    IsDist (edgeCost cost) (edges cost) s t (walkCost (edgeCost cost) p)

/-- The numbers of the output can be read back. -/
theorem scanInts_showPath (path : List Int) (totalCost : Int) :
    scanInts (path.length + 1) (showPath path totalCost) = path ++ [totalCost] :=
  @scanInts_printed [] (by simp) path totalCost

section Program
variable {stdin rest : List Char} {nodeCount : Int} {texts : List (List Char)}
variable {front back : List InputLine} {src dst : NodeId}

/-- The read loop makes the matrix of the lines, which has room for all nodes. -/
theorem readInput_costs (count : scanInt stdin = some (nodeCount, rest))
    (text : IsText 79 texts rest) (query : OneQuery front src.val dst.val back texts)
    (undisturbed : Undisturbed front src.val dst.val back)
    (small : nodeCount ≤ maxNodeCount) :
    ∃ v, readInput stdin = .ok (some (nodeCount, v)) ∧
      v.costMatrix = lastCost (front ++ .query src.val dst.val :: back) ∧ v.src = src.val ∧
      v.dst = dst.val := by
  obtain ⟨v, run, reads⟩ := query.reads_iff.mpr undisturbed
  refine ⟨v, (readInput_eq_ok_iff count small text v).mpr run, ?_, reads.src, reads.dst⟩
  exact funext fun a => funext (reads.costs a)

/-- For a connected graph the program prints a shortest path and its cost. From a vertex to itself
it reads through the null pointer instead. -/
theorem main_outputs (count : scanInt stdin = some (nodeCount, rest))
    (text : IsText 79 texts rest) (query : OneQuery front src.val dst.val back texts)
    (undisturbed : Undisturbed front src.val dst.val back)
    (valid : IsConnectedGraph (lastCost (front ++ .query src.val dst.val :: back)) nodeCount)
    (hsrc : src ∈ vertices (lastCost (front ++ .query src.val dst.val :: back)))
    (hdst : dst ∈ vertices (lastCost (front ++ .query src.val dst.val :: back))) :
    (dst ≠ src → OutputsShortest (lastCost (front ++ .query src.val dst.val :: back)) src dst
      (main stdin)) ∧
    (dst = src → main stdin = .error .nullPointer) := by
  have small : nodeCount ≤ maxNodeCount := by
    have card := Finset.card_le_univ (vertices (lastCost (front ++ .query src.val dst.val :: back)))
    rw [Fintype.card_fin] at card
    have := valid.card
    omega
  obtain ⟨v, read, costs, source, destination⟩ :=
    readInput_costs count text query undisturbed small
  rw [← costs] at valid hsrc hdst ⊢
  obtain ⟨nodes, lists, list, w, endNode, visits, place, marks, built, made, called, graph,
    distances, found⟩ := exists_call valid hsrc hdst
  have run : main stdin = (printPath v.costMatrix w.nodes (place src) endNode).map
      fun r => showPath r.1 r.2 := by
    simp only [main, made, read, source, destination, built, called, bind, Except.bind]
    cases printPath v.costMatrix w.nodes (place src) endNode <;> rfl
  rw [run]
  constructor
  · intro differ
    rw [found, if_neg differ.symm]
    obtain ⟨b, hb⟩ := graph.exists_place (occurs_of_mem_vertices hsrc)
    obtain ⟨p, printed, -, least⟩ := printPath_ok graph distances hb hdst
    refine ⟨_, p, by rw [printed]; rfl, ?_, least⟩
    have numbers := scanInts_showPath (p.support.map fun v => (v.val : Int))
      (walkCost (edgeCost v.costMatrix) p)
    rwa [List.length_map] at numbers
  · intro same
    rw [found, if_pos same.symm]
    rfl

end Program

/-- Two nodes, the road between them, and the way from one to the other. -/
def oneRoadLines : List (List Char) := [[], ['0', ' ', '1', ' ', '5'], ['0', ' ', '1']]

theorem lastCost_oneRoad :
    lastCost ([.blank, .edge firstId secondId 5] ++ .query firstId.val secondId.val :: []) =
      oneRoad := by
  funext a b
  have pair : (a = firstId ∧ b = secondId) ∨ (a = secondId ∧ b = firstId) ↔ a.val + b.val = 1 := by
    simp only [Fin.ext_iff, firstId, secondId]
    omega
  have none : lastOf (InputLine.costOf a b) [] = none := rfl
  simp only [lastCost, List.cons_append, List.nil_append, lastOf_cons, none, InputLine.costOf, pair,
    oneRoad, Option.none_or, Option.or_none]
  split <;> rfl

theorem main_outputs_oneRoad :
    OutputsShortest oneRoad firstId secondId
      (main ('2' :: oneRoadLines.flatMap fun l => l ++ ['\n'])) := by
  have blank : InputLine.HasText .blank ['\n'] := by simp [InputLine.HasText, isSpace]
  have edge : scanInts 3 ['0', ' ', '1', ' ', '5', '\n'] = [0, 1, 5] := by decide
  have asked : scanInts 3 ['0', ' ', '1', '\n'] = [0, 1] := by decide
  have query : OneQuery [.blank, .edge firstId secondId 5] firstId.val secondId.val []
      (withNewlines oneRoadLines) :=
    ⟨.cons blank (.cons edge (.cons asked .nil)), by simp, by simp⟩
  have valid := oneRoad_isConnectedGraph
  have first : firstId ∈ vertices oneRoad := mem_vertices_oneRoad.mpr (.inl rfl)
  have second : secondId ∈ vertices oneRoad := mem_vertices_oneRoad.mpr (.inr rfl)
  rw [← lastCost_oneRoad] at valid first second ⊢
  exact (main_outputs rfl (isText_flatMap (by decide)) query (.inl (by decide)) valid first
    second).1 (by decide)

end SamplePrograms.Elbonian
