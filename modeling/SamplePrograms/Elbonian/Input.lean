import SamplePrograms.Elbonian.Model
import SamplePrograms.Library.Loops
import SamplePrograms.Library.Stdio

/-!
# The input of `elbonian.c`

After the number of nodes come lines with an edge each and one line with the
query. A line that does not hold exactly two numbers counts as an edge, with
what earlier lines left in the variables where it has no number of its own.

## Implementation notes

An index outside the matrix is a fault. A line is the text that `fgets` stores,
with its newline where it has one. The buffer has room for 79 characters, the
newline and the final zero.
-/

namespace SamplePrograms.Elbonian
open Memory Loops Stdio

/-- The variables that the read loop changes, and the matrix. -/
structure Vars where
  cost : Int
  id1 : Int
  id2 : Int
  src : Int
  dst : Int
  costMatrix : CostMatrix

def Vars.initial : Vars := ⟨0, 0, 0, 0, 0, fun _ _ => 0⟩

/-- The row or column of an index. -/
def nodeIndex (i : Int) : Except Fault NodeId :=
  if h : i.toNat < maxNodeCount then if 0 ≤ i then .ok ⟨i.toNat, h⟩ else .error .outOfBounds
  else .error .outOfBounds

/-- `cost_matrix[i][j] = cost_matrix[j][i] = c`. -/
def setCost (m : CostMatrix) (i j : NodeId) (c : BitVec 32) : CostMatrix :=
  let m := Function.update m j (Function.update (m j) i c)
  Function.update m i (Function.update (m i) j c)

/-- The branch for an edge. -/
def Vars.writeCost (v : Vars) : Except Fault Vars := do
  let i ← nodeIndex v.id1
  let j ← nodeIndex v.id2
  pure { v with costMatrix := setCost v.costMatrix i j (BitVec.ofInt 32 v.cost) }

/-- What `sscanf` stores. -/
def Vars.store (v : Vars) : List Int → Vars
  | [] => v
  | [a] => { v with id1 := a }
  | [a, b] => { v with id1 := a, id2 := b }
  | a :: b :: c :: _ => { v with id1 := a, id2 := b, cost := c }

/-- The body of the read loop. -/
def Vars.readLine (v : Vars) (line : List Char) : Except Fault Vars :=
  let numbers := scanInts 3 line
  let v := v.store numbers
  if numbers.length = 2 then pure { v with src := v.id1, dst := v.id2 } else v.writeCost

/-- The loop over the lines. -/
def readLines (lines : List (List Char)) : Except Fault Vars :=
  lines.foldlM Vars.readLine .initial

/-- `main` through the read loop. It has no result when the program exits because
of too many nodes. -/
def readInput (stdin : List Char) : Except Fault (Option (Int × Vars)) :=
  let (nodeCount, stdin) := (scanInt stdin).getD (0, (scanSign (stdin.dropWhile isSpace)).2)
  if nodeCount > maxNodeCount then pure none
  else do
    let v ← readLines (fgetsAll 79 stdin)
    pure (some (nodeCount, v))

/-! ## Lines -/

/-- The three kinds of lines. -/
inductive InputLine where
  | edge (i j : NodeId) (cost : Int)
  | query (src dst : Int)
  | blank
  deriving DecidableEq

/-- The text of a line. -/
def InputLine.HasText : InputLine → List Char → Prop
  | edge i j cost, text => scanInts 3 text = [(i.val : Int), (j.val : Int), cost]
  | query src dst, text => scanInts 3 text = [src, dst]
  | blank, text => ∀ c ∈ text, isSpace c

/-- The cost of an edge line. -/
def InputLine.edgeCost : InputLine → Option Int
  | edge _ _ cost => some cost
  | query _ _ => none
  | blank => none

/-- The cost of an edge line that names a pair of nodes. -/
def InputLine.costOf (a b : NodeId) : InputLine → Option (BitVec 32)
  | edge i j cost => if (a = i ∧ b = j) ∨ (a = j ∧ b = i) then some (BitVec.ofInt 32 cost) else none
  | query _ _ => none
  | blank => none

/-- What the last line says that says anything. -/
def lastOf {β : Type*} (f : InputLine → Option β) (lines : List InputLine) : Option β :=
  (lines.filterMap f).getLast?

/-- The cost in the last edge line that names a pair of nodes. -/
def lastCost (lines : List InputLine) (a b : NodeId) : BitVec 32 :=
  (lastOf (InputLine.costOf a b) lines).getD 0

/-- The cost in the last edge line. -/
def lastEdgeCost (lines : List InputLine) : Int := (lastOf InputLine.edgeCost lines).getD 0

/-- The variables hold what the lines say. -/
structure Reads (lines : List InputLine) (src dst : Int) (v : Vars) : Prop where
  costs : ∀ a b, v.costMatrix a b = lastCost lines a b
  src : v.src = src
  dst : v.dst = dst

/-! ## One line -/

theorem nodeIndex_coe (i : NodeId) : nodeIndex (i.val : Int) = .ok i := by
  simp [nodeIndex]

theorem nodeIndex_eq_ok {i : Int} {a : NodeId} (h : nodeIndex i = .ok a) : i = a.val := by
  unfold nodeIndex at h
  split at h
  · split at h
    · cases h
      simp only
      omega
    · cases h
  · cases h

theorem setCost_apply (m : CostMatrix) (i j : NodeId) (c : BitVec 32) (a b : NodeId) :
    setCost m i j c a b = if (a = i ∧ b = j) ∨ (a = j ∧ b = i) then c else m a b := by
  simp only [setCost, Function.update_apply]
  split_ifs <;> grind

/-- The matrix has the cost at the ids. A blank line then changes nothing. -/
def Vars.Settled (v : Vars) : Prop :=
  ∃ i j : NodeId, v.id1 = i.val ∧ v.id2 = j.val ∧
    v.costMatrix i j = BitVec.ofInt 32 v.cost ∧ v.costMatrix j i = BitVec.ofInt 32 v.cost

theorem initial_settled : Vars.initial.Settled :=
  ⟨firstId, firstId, rfl, rfl, rfl, rfl⟩

theorem Vars.writeCost_of_ids (v : Vars) {i j : NodeId} (h1 : v.id1 = i.val) (h2 : v.id2 = j.val) :
    v.writeCost =
      .ok { v with costMatrix := setCost v.costMatrix i j (BitVec.ofInt 32 v.cost) } := by
  simp only [Vars.writeCost, h1, h2, nodeIndex_coe]
  rfl

theorem Vars.Settled.writeCost {v : Vars} (h : v.Settled) : v.writeCost = .ok v := by
  obtain ⟨i, j, h1, h2, hij, hji⟩ := h
  have same : setCost v.costMatrix i j (BitVec.ofInt 32 v.cost) = v.costMatrix := by
    funext a b
    rw [setCost_apply]
    split
    case isTrue pair =>
      rcases pair with ⟨rfl, rfl⟩ | ⟨rfl, rfl⟩
      · exact hij.symm
      · exact hji.symm
    case isFalse => rfl
  rw [v.writeCost_of_ids h1 h2, same]

/-- The variables after an edge line. -/
def Vars.edge (v : Vars) (i j : NodeId) (cost : Int) : Vars where
  cost := cost
  id1 := i.val
  id2 := j.val
  src := v.src
  dst := v.dst
  costMatrix := setCost v.costMatrix i j (BitVec.ofInt 32 cost)

theorem Vars.edge_settled (v : Vars) (i j : NodeId) (cost : Int) : (v.edge i j cost).Settled := by
  refine ⟨i, j, rfl, rfl, ?_, ?_⟩
  · simp [Vars.edge, setCost_apply]
  · simp [Vars.edge, setCost_apply]

theorem readLine_edge (v : Vars) {i j : NodeId} {cost : Int} {text : List Char}
    (h : InputLine.HasText (.edge i j cost) text) : v.readLine text = .ok (v.edge i j cost) := by
  have numbers : scanInts 3 text = [(i.val : Int), (j.val : Int), cost] := h
  simp only [Vars.readLine, numbers, Vars.store]
  exact Vars.writeCost_of_ids _ rfl rfl

theorem readLine_query (v : Vars) {src dst : Int} {text : List Char}
    (h : InputLine.HasText (.query src dst) text) :
    v.readLine text = .ok { v with id1 := src, id2 := dst, src := src, dst := dst } := by
  have numbers : scanInts 3 text = [src, dst] := h
  simp only [Vars.readLine, numbers, Vars.store]
  rfl

theorem readLine_blank (v : Vars) {text : List Char} (h : InputLine.HasText .blank text) :
    v.readLine text = v.writeCost := by
  simp only [Vars.readLine, scanInts_blank 3 h, Vars.store]
  rfl

/-! ## Many lines -/

theorem lastOf_append {β : Type*} (f : InputLine → Option β) (front back : List InputLine) :
    lastOf f (front ++ back) = (lastOf f back).or (lastOf f front) := by
  simp [lastOf, List.getLast?_append]

theorem lastOf_cons {β : Type*} (f : InputLine → Option β) (l : InputLine)
    (lines : List InputLine) : lastOf f (l :: lines) = (lastOf f lines).or (f l) := by
  have one : lastOf f [l] = f l := by
    unfold lastOf
    cases h : f l <;> simp [h]
  rw [← one, ← lastOf_append, List.singleton_append]

theorem costOf_comm (l : InputLine) (a b : NodeId) : l.costOf a b = l.costOf b a := by
  cases l with
  | edge i j cost => simp only [InputLine.costOf, or_comm, and_comm]
  | query src dst => rfl
  | blank => rfl

theorem lastOf_costOf_comm (lines : List InputLine) (a b : NodeId) :
    lastOf (InputLine.costOf a b) lines = lastOf (InputLine.costOf b a) lines := by
  have same : InputLine.costOf a b = InputLine.costOf b a := funext fun l => costOf_comm l a b
  rw [same]

theorem lastCost_comm (lines : List InputLine) (a b : NodeId) :
    lastCost lines a b = lastCost lines b a := by
  rw [lastCost, lastOf_costOf_comm]
  rfl

/-- What lines without a query make of the variables. -/
structure EdgesRead (v : Vars) (lines : List InputLine) (v' : Vars) : Prop where
  src : v'.src = v.src
  dst : v'.dst = v.dst
  cost : v'.cost = (lastOf InputLine.edgeCost lines).getD v.cost
  costs : ∀ a b, v'.costMatrix a b =
    (lastOf (InputLine.costOf a b) lines).getD (v.costMatrix a b)

theorem EdgesRead.edge {v v' : Vars} {i j : NodeId} {cost : Int} {lines : List InputLine}
    (h : EdgesRead (v.edge i j cost) lines v') : EdgesRead v (.edge i j cost :: lines) v' where
  src := h.src
  dst := h.dst
  cost := by
    rw [h.cost, lastOf_cons]
    cases lastOf InputLine.edgeCost lines <;> rfl
  costs a b := by
    rw [h.costs, lastOf_cons]
    cases lastOf (InputLine.costOf a b) lines with
    | some c => rfl
    | none =>
        simp only [Vars.edge, setCost_apply, InputLine.costOf, Option.none_or, Option.getD_none]
        split <;> rfl

theorem EdgesRead.blank {v v' : Vars} {lines : List InputLine} (h : EdgesRead v lines v') :
    EdgesRead v (.blank :: lines) v' where
  src := h.src
  dst := h.dst
  cost := by
    rw [h.cost, lastOf_cons]
    exact congrArg (Option.getD · v.cost) (Option.or_none).symm
  costs a b := by
    rw [h.costs, lastOf_cons]
    exact congrArg (Option.getD · (v.costMatrix a b)) (Option.or_none).symm

/-- Edge lines and blank lines after a blank line that changes nothing, or after an edge. -/
theorem readEdges {lines : List InputLine} {texts : List (List Char)}
    (kinds : List.Forall₂ InputLine.HasText lines texts)
    (noQuery : ∀ l ∈ lines, ∀ s d, l ≠ .query s d) {v : Vars}
    (start : lines.head? = some .blank → v.Settled) :
    ∃ v', texts.foldlM Vars.readLine v = .ok v' ∧ EdgesRead v lines v' := by
  induction kinds generalizing v with
  | nil => exact ⟨v, rfl, rfl, rfl, rfl, fun _ _ => rfl⟩
  | @cons l text lines texts first _ ih =>
      have others : ∀ l ∈ lines, ∀ s d, l ≠ .query s d := fun l hl =>
        noQuery l (List.mem_cons_of_mem _ hl)
      cases l with
      | edge i j cost =>
          obtain ⟨v', run, read⟩ := ih others fun _ => v.edge_settled i j cost
          refine ⟨v', ?_, read.edge⟩
          rw [List.foldlM_cons, readLine_edge v first]
          exact run
      | query src dst => exact absurd rfl (noQuery _ List.mem_cons_self src dst)
      | blank =>
          have settled := start rfl
          obtain ⟨v', run, read⟩ := ih others fun _ => settled
          refine ⟨v', ?_, read.blank⟩
          rw [List.foldlM_cons, readLine_blank v first, settled.writeCost]
          exact run

/-! ## The query line -/

/-- A text of lines of which one is the query. -/
structure OneQuery (front : List InputLine) (src dst : Int) (back : List InputLine)
    (texts : List (List Char)) : Prop where
  kinds : List.Forall₂ InputLine.HasText (front ++ .query src dst :: back) texts
  front : ∀ l ∈ front, ∀ s d, l ≠ .query s d
  back : ∀ l ∈ back, ∀ s d, l ≠ .query s d

/-- No blank line comes right after the query, or the write that it causes is
undone by a later line or writes what is there. -/
def Undisturbed (front : List InputLine) (src dst : Int) (back : List InputLine) : Prop :=
  back.head? ≠ some .blank ∨
    ∃ i j : NodeId, src = i.val ∧ dst = j.val ∧
      ((∃ l ∈ back, l.costOf i j ≠ none) ∨
        BitVec.ofInt 32 (lastEdgeCost front) = lastCost front i j)

theorem lastOf_ne_none_iff {β : Type*} {f : InputLine → Option β} {lines : List InputLine} :
    lastOf f lines ≠ none ↔ ∃ l ∈ lines, f l ≠ none := by
  simp [lastOf]

theorem forall₂_split {R : InputLine → List Char → Prop} {front back : List InputLine}
    {l : InputLine} {texts : List (List Char)} (h : List.Forall₂ R (front ++ l :: back) texts) :
    ∃ before text after, texts = before ++ text :: after ∧ List.Forall₂ R front before ∧
      R l text ∧ List.Forall₂ R back after := by
  induction front generalizing texts with
  | nil =>
      cases h with
      | cons first others => exact ⟨[], _, _, rfl, .nil, first, others⟩
  | cons l' front ih =>
      cases h with
      | cons first others =>
          obtain ⟨before, text, after, rfl, hfront, here, hback⟩ := ih others
          exact ⟨_ :: before, text, after, rfl, .cons first hfront, here, hback⟩

/-- The variables after the query line. -/
structure QueryRead (front : List InputLine) (src dst : Int) (v : Vars) : Prop where
  id1 : v.id1 = src
  id2 : v.id2 = dst
  src : v.src = src
  dst : v.dst = dst
  cost : v.cost = lastEdgeCost front
  costs : ∀ a b, v.costMatrix a b = lastCost front a b

section OneQuery
variable {front back : List InputLine} {src dst : Int} {texts : List (List Char)}

/-- The run up to the query line. -/
theorem OneQuery.readFront (h : OneQuery front src dst back texts) :
    ∃ v after, QueryRead front src dst v ∧ List.Forall₂ InputLine.HasText back after ∧
      readLines texts = after.foldlM Vars.readLine v := by
  obtain ⟨before, text, after, rfl, hfront, here, hback⟩ := forall₂_split h.kinds
  obtain ⟨v, run, read⟩ := readEdges hfront h.front (v := .initial) fun _ => initial_settled
  refine ⟨{ v with id1 := src, id2 := dst, src := src, dst := dst }, after, ?_, hback, ?_⟩
  · exact ⟨rfl, rfl, rfl, rfl, read.cost, read.costs⟩
  · rw [readLines, List.foldlM_append, run]
    simp only [bind, Except.bind, List.foldlM_cons, readLine_query v here]

/-- The lines after the query line overwrite what was there. -/
theorem lastCost_query (front back : List InputLine) (src dst : Int) (a b : NodeId) :
    lastCost (front ++ .query src dst :: back) a b =
      (lastOf (InputLine.costOf a b) back).getD (lastCost front a b) := by
  rw [lastCost, lastOf_append, lastOf_cons]
  cases lastOf (InputLine.costOf a b) back <;> rfl

/-- Without a blank line right after the query all lines are read as they should be. -/
theorem OneQuery.reads_of_head (h : OneQuery front src dst back texts)
    (head : back.head? ≠ some .blank) :
    ∃ v, readLines texts = .ok v ∧ Reads (front ++ .query src dst :: back) src dst v := by
  obtain ⟨v, after, query, kinds, run⟩ := h.readFront
  obtain ⟨v', run', read⟩ := readEdges kinds h.back (v := v) fun blank => absurd blank head
  refine ⟨v', run.trans run', ?_, read.src.trans query.src, read.dst.trans query.dst⟩
  intro a b
  rw [read.costs, query.costs, lastCost_query]

/-- A blank line right after the query writes the last cost at the ids of the query. -/
theorem OneQuery.readBlank {rest : List InputLine}
    (h : OneQuery front src dst (.blank :: rest) texts) {i j : NodeId} (hi : src = i.val)
    (hj : dst = j.val) :
    ∃ v, readLines texts = .ok v ∧ v.src = src ∧ v.dst = dst ∧ ∀ a b, v.costMatrix a b =
      (lastOf (InputLine.costOf a b) rest).getD
        (setCost (lastCost front) i j (BitVec.ofInt 32 (lastEdgeCost front)) a b) := by
  obtain ⟨v, after, query, kinds, run⟩ := h.readFront
  cases kinds with
  | cons blank others =>
      have id1 := query.id1.trans hi
      have id2 := query.id2.trans hj
      have settled : Vars.Settled
          { v with costMatrix := setCost v.costMatrix i j (BitVec.ofInt 32 v.cost) } := by
        refine ⟨i, j, id1, id2, ?_, ?_⟩
        · simp [setCost_apply]
        · simp [setCost_apply]
      have noQuery : ∀ l ∈ rest, ∀ s d, l ≠ .query s d := fun l hl =>
        h.back l (List.mem_cons_of_mem _ hl)
      obtain ⟨v', run', read⟩ := readEdges others noQuery fun _ => settled
      have costs : v.costMatrix = lastCost front := funext fun a => funext (query.costs a)
      refine ⟨v', ?_, read.src.trans query.src, read.dst.trans query.dst, ?_⟩
      · rw [run, List.foldlM_cons, readLine_blank v blank, v.writeCost_of_ids id1 id2]
        exact run'
      · intro a b
        rw [read.costs]
        simp only [costs, query.cost]

/-- Outside the matrix the write after the query is a fault. -/
theorem OneQuery.ids_of_run {rest : List InputLine}
    (h : OneQuery front src dst (.blank :: rest) texts) {v : Vars} (run : readLines texts = .ok v) :
    ∃ i j : NodeId, src = i.val ∧ dst = j.val := by
  obtain ⟨v₂, after, query, kinds, run₂⟩ := h.readFront
  cases kinds with
  | cons blank others =>
      rw [run₂, List.foldlM_cons, readLine_blank v₂ blank, Vars.writeCost, query.id1,
        query.id2] at run
      cases hi : nodeIndex src with
      | error e =>
          rw [hi] at run
          cases run
      | ok i =>
          cases hj : nodeIndex dst with
          | error e =>
              rw [hi, hj] at run
              cases run
          | ok j => exact ⟨i, j, nodeIndex_eq_ok hi, nodeIndex_eq_ok hj⟩

/-- The lines are read as they should be exactly when the query is undisturbed. -/
theorem OneQuery.reads_iff (h : OneQuery front src dst back texts) :
    (∃ v, readLines texts = .ok v ∧ Reads (front ++ .query src dst :: back) src dst v) ↔
      Undisturbed front src dst back := by
  by_cases head : back.head? = some .blank
  · obtain ⟨rest, rfl⟩ := List.head?_eq_some_iff.mp head
    have skip (a b : NodeId) : lastOf (InputLine.costOf a b) (.blank :: rest) =
        lastOf (InputLine.costOf a b) rest := by
      rw [lastOf_cons]
      exact Option.or_none
    constructor
    · rintro ⟨v, run, reads⟩
      obtain ⟨i, j, hi, hj⟩ := h.ids_of_run run
      refine Or.inr ⟨i, j, hi, hj, ?_⟩
      obtain ⟨v', run', -, -, costs⟩ := h.readBlank hi hj
      cases run.symm.trans run'
      have here := reads.costs i j
      rw [costs, lastCost_query, skip] at here
      cases last : lastOf (InputLine.costOf i j) rest with
      | some c =>
          apply Or.inl
          rw [← lastOf_ne_none_iff, skip, last]
          exact Option.some_ne_none c
      | none =>
          apply Or.inr
          simpa [last, setCost_apply] using here
    · rintro (other | ⟨i, j, hi, hj, undone⟩)
      · exact absurd head other
      · obtain ⟨v, run, hsrc, hdst, costs⟩ := h.readBlank hi hj
        refine ⟨v, run, ?_, hsrc, hdst⟩
        intro a b
        rw [costs, lastCost_query, skip]
        cases last : lastOf (InputLine.costOf a b) rest with
        | some c => rfl
        | none =>
            -- no later line names the pair, so that the write itself must be right
            rw [Option.getD_none, Option.getD_none, setCost_apply, ite_eq_right_iff]
            intro pair
            have same : lastOf (InputLine.costOf i j) rest = none ∧
                lastCost front i j = lastCost front a b := by
              rcases pair with ⟨rfl, rfl⟩ | ⟨rfl, rfl⟩
              · exact ⟨last, rfl⟩
              · exact ⟨(lastOf_costOf_comm rest b a).trans last, lastCost_comm front b a⟩
            rw [← lastOf_ne_none_iff, skip] at undone
            exact (undone.resolve_left fun named => named same.1).trans same.2
  · exact ⟨fun _ => Or.inl head, fun _ => h.reads_of_head head⟩

/-! ## Blank lines -/

/-- Whether a line is an edge or the query. -/
def InputLine.counts (l : InputLine) : Bool := l ≠ .blank

/-- Whether the text of a line has more than white space. -/
def hasContent (text : List Char) : Bool := !text.all isSpace

theorem counts_iff_hasContent {l : InputLine} {text : List Char} (h : l.HasText text) :
    l.counts ↔ hasContent text := by
  have content {numbers : List Int} (some : numbers ≠ []) (scan : scanInts 3 text = numbers) :
      hasContent text := by
    simp only [hasContent, Bool.not_eq_true', Bool.eq_false_iff]
    intro blank
    apply some
    rw [← scan]
    exact scanInts_blank 3 (List.all_eq_true.mp blank)
  cases l with
  | edge i j cost => simpa [InputLine.counts] using content (by simp) h
  | query s d => simpa [InputLine.counts] using content (by simp) h
  | blank =>
      have none : text.all isSpace := List.all_eq_true.mpr h
      simp [InputLine.counts, hasContent, none]

theorem lastOf_filter {β : Type*} {f : InputLine → Option β} (silent : f .blank = none)
    (lines : List InputLine) : lastOf f (lines.filter InputLine.counts) = lastOf f lines := by
  have same : (fun l => if InputLine.counts l then f l else none) = f := by
    funext l
    by_cases h : l = .blank
    · subst h
      exact silent.symm
    · simp [InputLine.counts, h]
  rw [lastOf, lastOf, List.filterMap_filter, same]

theorem OneQuery.filter (h : OneQuery front src dst back texts) :
    OneQuery (front.filter InputLine.counts) src dst (back.filter InputLine.counts)
      (texts.filter hasContent) where
  kinds := by
    have kinds := List.rel_filter (fun _ _ h => counts_iff_hasContent h) h.kinds
    rw [List.filter_append, List.filter_cons_of_pos rfl] at kinds
    exact kinds
  front l hl := h.front l (List.mem_of_mem_filter hl)
  back l hl := h.back l (List.mem_of_mem_filter hl)

/-- Without its blank lines a text is read as it should be. -/
theorem OneQuery.reads_filter (h : OneQuery front src dst back texts) :
    ∃ v, readLines (texts.filter hasContent) = .ok v ∧
      Reads (front ++ .query src dst :: back) src dst v := by
  have head : (back.filter InputLine.counts).head? ≠ some .blank := by
    intro first
    have counted := (List.mem_filter.mp (List.mem_of_mem_head? first)).2
    cases counted
  obtain ⟨v, run, reads⟩ := h.filter.reads_of_head head
  refine ⟨v, run, ?_, reads.src, reads.dst⟩
  intro a b
  have all : front.filter InputLine.counts ++ .query src dst :: back.filter InputLine.counts =
      (front ++ .query src dst :: back).filter InputLine.counts := by
    rw [List.filter_append, List.filter_cons_of_pos rfl]
  rw [reads.costs, all, lastCost, lastCost, lastOf_filter rfl]

/-- The blank lines of a text could as well be missing. -/
def BlanksIgnored (texts : List (List Char)) (v : Vars) : Prop :=
  ∃ v', readLines (texts.filter hasContent) = .ok v' ∧
    v'.costMatrix = v.costMatrix ∧ v'.src = v.src ∧ v'.dst = v.dst

theorem readInput_eq_ok_iff {stdin rest : List Char} {nodeCount : Int}
    (count : scanInt stdin = some (nodeCount, rest)) (small : nodeCount ≤ maxNodeCount)
    (text : IsText 79 texts rest) (v : Vars) :
    readInput stdin = .ok (some (nodeCount, v)) ↔ readLines texts = .ok v := by
  simp only [readInput, count, Option.getD_some, text.fgetsAll, if_neg (not_lt.mpr small)]
  cases readLines texts with
  | error e =>
      constructor
      · rintro ⟨⟩
      · rintro ⟨⟩
  | ok v' =>
      constructor
      · rintro ⟨⟩
        rfl
      · rintro ⟨⟩
        rfl

/-- The read loop of the program reads an input with one query as it should, with
no regard to blank lines, exactly when the query is undisturbed. -/
theorem readInput_reads_iff {stdin rest : List Char} {nodeCount : Int}
    (count : scanInt stdin = some (nodeCount, rest)) (small : nodeCount ≤ maxNodeCount)
    (text : IsText 79 texts rest) (h : OneQuery front src dst back texts) :
    (∃ v, readInput stdin = .ok (some (nodeCount, v)) ∧
      Reads (front ++ .query src dst :: back) src dst v ∧ BlanksIgnored texts v) ↔
    Undisturbed front src dst back := by
  simp only [← h.reads_iff, readInput_eq_ok_iff count small text]
  constructor
  · rintro ⟨v, run, reads, -⟩
    exact ⟨v, run, reads⟩
  · rintro ⟨v, run, reads⟩
    obtain ⟨v', run', reads'⟩ := h.reads_filter
    refine ⟨v, run, reads, v', run', ?_, ?_, ?_⟩
    · funext a b
      rw [reads.costs, reads'.costs]
    · rw [reads.src, reads'.src]
    · rw [reads.dst, reads'.dst]

end OneQuery

/-! ## An edge and a query, and more lines -/

/-- The rest of the line with the number of nodes, an edge, the query, and more lines. -/
def edgeAndQuery (more : List (List Char)) : List (List Char) :=
  [] :: ['0', ' ', '1', ' ', '5'] :: ['1', ' ', '2'] :: more

/-- The lines as `fgets` stores them. -/
def withNewlines (lines : List (List Char)) : List (List Char) := lines.map fun l => l ++ ['\n']

/-- The input, which begins with three nodes. -/
def threeNodes (more : List (List Char)) : List Char :=
  '3' :: (edgeAndQuery more).flatMap fun l => l ++ ['\n']

theorem edgeAndQuery_oneQuery {back : List InputLine} {more : List (List Char)}
    (kinds : List.Forall₂ InputLine.HasText back (withNewlines more))
    (noQuery : ∀ l ∈ back, ∀ s d, l ≠ .query s d) :
    OneQuery [.blank, .edge firstId secondId 5] 1 2 back (withNewlines (edgeAndQuery more)) where
  kinds := by
    have rest : InputLine.HasText .blank ['\n'] := by simp [InputLine.HasText, isSpace]
    have edge : scanInts 3 ['0', ' ', '1', ' ', '5', '\n'] = [0, 1, 5] := by decide
    have query : scanInts 3 ['1', ' ', '2', '\n'] = [1, 2] := by decide
    exact .cons rest (.cons edge (.cons query kinds))
  front := by simp
  back := noQuery

theorem threeNodes_reads :
    ∃ v, readInput (threeNodes []) = .ok (some (3, v)) ∧
      Reads [.blank, .edge firstId secondId 5, .query 1 2] 1 2 v ∧
      BlanksIgnored (withNewlines (edgeAndQuery [])) v := by
  have one : OneQuery [.blank, .edge firstId secondId 5] 1 2 []
      (withNewlines (edgeAndQuery [])) := edgeAndQuery_oneQuery .nil (by simp)
  apply (readInput_reads_iff rfl (by decide) (isText_flatMap (by decide)) one).mpr
  exact Or.inl (by decide)

/-- A blank line after the query makes a road of cost 5 between the nodes 1 and 2. -/
theorem threeNodes_disturbed :
    scanInt (threeNodes [[]]) = some (3, (edgeAndQuery [[]]).flatMap fun l => l ++ ['\n']) ∧
      IsText 79 (withNewlines (edgeAndQuery [[]]))
        ((edgeAndQuery [[]]).flatMap fun l => l ++ ['\n']) ∧
      OneQuery [.blank, .edge firstId secondId 5] 1 2 [.blank]
        (withNewlines (edgeAndQuery [[]])) ∧
      ¬ ∃ v, readInput (threeNodes [[]]) = .ok (some (3, v)) ∧
        Reads [.blank, .edge firstId secondId 5, .query 1 2, .blank] 1 2 v := by
  have count : scanInt (threeNodes [[]]) =
      some (3, (edgeAndQuery [[]]).flatMap fun l => l ++ ['\n']) := rfl
  have text : IsText 79 (withNewlines (edgeAndQuery [[]]))
      ((edgeAndQuery [[]]).flatMap fun l => l ++ ['\n']) := isText_flatMap (by decide)
  have blank : InputLine.HasText .blank ['\n'] := by simp [InputLine.HasText, isSpace]
  have one : OneQuery [.blank, .edge firstId secondId 5] 1 2 [.blank]
      (withNewlines (edgeAndQuery [[]])) := edgeAndQuery_oneQuery (.cons blank .nil) (by simp)
  refine ⟨count, text, one, ?_⟩
  rintro ⟨v, run, reads⟩
  rw [readInput_eq_ok_iff count (by decide) text] at run
  obtain ⟨i, j, hi, hj, undone⟩ | head := (one.reads_iff.mp ⟨v, run, reads⟩).symm
  · have unnamed : lastCost [.blank, .edge firstId secondId 5] i j = 0 := by
      have other : ¬ ((i = firstId ∧ j = secondId) ∨ (i = secondId ∧ j = firstId)) := by
        simp only [Fin.ext_iff, firstId, secondId]
        omega
      simp [lastCost, lastOf, InputLine.costOf, other]
    have stale : lastEdgeCost [.blank, .edge firstId secondId 5] = 5 := rfl
    rw [unnamed, stale] at undone
    simp [InputLine.costOf] at undone
  · exact head rfl

end SamplePrograms.Elbonian
