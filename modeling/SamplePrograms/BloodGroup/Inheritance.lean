import SamplePrograms.BloodGroup.Children
import SamplePrograms.BloodGroup.Independence
import Mathlib.Data.Fintype.Basic

/-!
# The children of two parents

A child gets one of the two markers of each parent, and one of the two alleles. What the program
prints for a child are the groups and signs that can come about in this way, for the groups that
are in the argument array.

## Implementation notes

`parent_blood_group_print`, which does not compile, is a parameter of the run.
-/

namespace SamplePrograms.BloodGroup
open Memory

/-! ## Inheritance -/

/-- What a parent passes on for the blood group. -/
inductive Marker where
  | a
  | b
  | o
  deriving DecidableEq

instance : Fintype Marker := ⟨{.a, .b, .o}, fun m => by cases m <;> decide⟩

/-- What a parent passes on for the sign. -/
inductive Allele where
  | plus
  | minus
  deriving DecidableEq

instance : Fintype Allele := ⟨{.plus, .minus}, fun m => by cases m <;> decide⟩

/-- The group of two markers. The marker O is recessive. -/
def Group.of : Marker → Marker → Group
  | .a, .b | .b, .a => .ab
  | .a, .a | .a, .o | .o, .a => .a
  | .b, .b | .b, .o | .o, .b => .b
  | .o, .o => .o

/-- The sign of two alleles. The negative allele is recessive. -/
def Rh.of : Allele → Allele → Rh
  | .minus, .minus => .negative
  | _, _ => .positive

/-- Some marker of the father and some marker of the mother give the child. -/
def CanInherit {M G : Type} (of : M → M → G) (father mother child : G) : Prop :=
  ∃ x x' y y', of x x' = father ∧ of y y' = mother ∧ of x y = child

instance {M G : Type} [Fintype M] [DecidableEq G] (of : M → M → G) (father mother child : G) :
    Decidable (CanInherit of father mother child) :=
  inferInstanceAs (Decidable (∃ _ _ _ _, _ ∧ _ ∧ _))

/-- The groups in the order of the table. -/
def groups : List Group := [.a, .ab, .b, .o]

/-- The signs in the order in which they are looked for. -/
def signs : List Rh := [.positive, .negative]

/-- The groups and signs that a child can have, each with a blank behind it. -/
def answer (father mother : Group × Rh) : List Char :=
  (groups.flatMap fun g => signs.flatMap fun r =>
    if CanInherit Group.of father.1 mother.1 g ∧ CanInherit Rh.of father.2 mother.2 r then
      g.text ++ r.text ++ [' ']
    else []) ++ ['\n']

/-- The ring of a group. -/
def Group.ring : Group → List MarkerPair
  | a => [(['A'], ['A']), (['A'], ['O'])]
  | ab => [(['A'], ['B'])]
  | b => [(['B'], ['B']), (['B'], ['O'])]
  | o => [(['O'], ['O'])]

/-- The ring of a sign. -/
def Rh.ring : Rh → List MarkerPair
  | positive => [(['+'], ['+']), (['-'], ['+']), (['+'], ['-'])]
  | negative => [(['-'], ['-'])]

theorem Group.ring_ne_nil (g : Group) : g.ring ≠ [] := by
  cases g <;> exact List.cons_ne_nil _ _

theorem Rh.ring_ne_nil (r : Rh) : r.ring ≠ [] := by
  cases r <;> exact List.cons_ne_nil _ _

theorem find_bloodGroupRings (g : Group) :
    bloodGroupRings.find? (fun e => e.1 = g.text) = some (g.text, g.ring) := by
  cases g <;> rfl

theorem find_rrhFactorRings (r : Rh) :
    rrhFactorRings.find? (fun e => e.1 = r.text) = some (r.text, r.ring) := by
  cases r <;> rfl

/-- The names of the pairs of a child are the groups that it can inherit. One order of the
letters is in the tables. -/
theorem text_mem_inherited_iff (f m g : Group) :
    g.text ∈ inherited ['A', 'B', 'O'] (nameOf bloodGroupRings) f.ring m.ring ↔
      CanInherit Group.of f m g := by
  cases f <;> cases m <;> cases g <;> decide

theorem sign_mem_inherited_iff (f m r : Rh) :
    r.text ∈ inherited ['+', '-'] (nameOf rrhFactorRings) f.ring m.ring ↔
      CanInherit Rh.of f m r := by
  cases f <;> cases m <;> cases r <;> decide

theorem nameOf_mem {entries : List (List Char × List MarkerPair)} {pair : MarkerPair}
    {n : List Char} (h : nameOf entries pair = some n) : n ∈ entries.map Prod.fst := by
  obtain ⟨e, found, rfl⟩ := Option.map_eq_some_iff.mp h
  exact List.mem_map_of_mem (List.mem_of_find?_eq_some found)

/-- The names of a table fit into the arrays and are not empty. -/
def NamesFit (entries : List (List Char × List MarkerPair)) : Prop :=
  ∀ n ∈ entries.map Prod.fst, n ≠ [] ∧ n.length ≤ 9

instance (entries : List (List Char × List MarkerPair)) : Decidable (NamesFit entries) :=
  inferInstanceAs (Decidable (∀ n ∈ _, _))

theorem NamesFit.of_inherited {letters : List Char}
    {entries : List (List Char × List MarkerPair)} (fit : NamesFit entries)
    {xs ys : List MarkerPair} {n : List Char} (h : n ∈ inherited letters (nameOf entries) xs ys) :
    n ≠ [] := by
  obtain ⟨p, -, hn⟩ := List.mem_filterMap.mp h
  exact (fit n (nameOf_mem hn)).1

/-- The rows of the last list, as they are printed. -/
theorem printed_rows {bgs rrhs : List (List Char)} {father mother : Group × Rh}
    (bg : ∀ g : Group, g.text ∈ bgs ↔ CanInherit Group.of father.1 mother.1 g)
    (rrh : ∀ r : Rh, r.text ∈ rrhs ↔ CanInherit Rh.of father.2 mother.2 r) :
    ((groups.map Group.text).flatMap (row bgs rrhs)).flatMap (fun p => p.1 ++ p.2 ++ [' ']) ++
      ['\n'] = answer father mother := by
  have plus := rrh .positive
  have minus := rrh .negative
  rw [answer, List.flatMap_map, List.flatMap_assoc]
  congr 2
  funext g
  simp only [row, bg, show ['+'] = Rh.positive.text from rfl,
    show ['-'] = Rh.negative.text from rfl, plus, minus, signs]
  by_cases group : CanInherit Group.of father.1 mother.1 g <;>
    by_cases positive : CanInherit Rh.of father.2 mother.2 .positive <;>
      by_cases negative : CanInherit Rh.of father.2 mother.2 .negative <;>
        simp [group, positive, negative]

/-- On the tables, the program prints what a child can have, and leaves the tables in memory. -/
theorem childBloodGroupPrint_eq {bgTable rrhFactorTable : List NamedList}
    {nodes : Heap MarkerSet} (atBg : TableAt nodes bgTable bloodGroupRings)
    (atRrh : TableAt nodes rrhFactorTable rrhFactorRings) {args : InputArgs}
    (father mother : Group × Rh)
    (fatherArg : (firstParent args).bloodGroup = father.1.text ∧
      (firstParent args).rhFactor = father.2.text)
    (motherArg : (secondParent args).bloodGroup = mother.1.text ∧
      (secondParent args).rhFactor = mother.2.text) :
    ∃ nodes', childBloodGroupPrint bgTable rrhFactorTable args nodes =
        .ok (answer father mother, nodes') ∧ nodes.Extends nodes' := by
  obtain ⟨f, lookF, listF⟩ := entryOf_eq atBg (find_bloodGroupRings father.1)
  obtain ⟨fRrh, lookFRrh, listFRrh⟩ := entryOf_eq atRrh (find_rrhFactorRings father.2)
  obtain ⟨m, lookM, listM⟩ := entryOf_eq atBg (find_bloodGroupRings mother.1)
  obtain ⟨mRrh, lookMRrh, listMRrh⟩ := entryOf_eq atRrh (find_rrhFactorRings mother.2)
  have fitBg : NamesFit bloodGroupRings := by decide
  have fitRrh : NamesFit rrhFactorRings := by decide
  obtain ⟨bgs, nodes₁, free₁, run₁, mem₁, ext₁⟩ := childNames_run ['A', 'B', 'O']
    adds_bloodMarkers listF listM father.1.ring_ne_nil mother.1.ring_ne_nil (by decide)
    (fun p _ p' _ same => same) (fun _ ext _ _ read => getNameFromTable_eq read (atBg.congr ext))
    (fun _ n hn => (fitBg n (nameOf_mem hn)).2)
  obtain ⟨rrhs, nodes₂, free₂, run₂, mem₂, ext₂⟩ := childNames_run ['+', '-']
    adds_rhAlleles (listFRrh.congr ext₁) (listMRrh.congr ext₁) father.2.ring_ne_nil
    mother.2.ring_ne_nil (by decide) (by decide)
    (fun _ ext _ _ read => getNameFromTable_eq read ((atRrh.congr ext₁).congr ext))
    (fun _ n hn => (fitRrh n (nameOf_mem hn)).2)
  obtain ⟨w, run₃, last⟩ := finalLoop_run
    (fun n hn => fitBg.of_inherited ((mem₁ n).mp hn))
    (fun n hn => fitRrh.of_inherited ((mem₂ n).mp hn)) (List.replicate free₁ [])
    (List.replicate free₂ []) bgTable (.zeroed nodes₂)
  have names : bgTable.map NamedList.name = groups.map Group.text := atBg.names
  rw [List.nil_append, names] at last
  have printed := last.entries.order
  rw [addAll_flatMap_added (by decide)] at printed
  refine ⟨w.nodes, ?_, (ext₁.trans ext₂).trans last.extends⟩
  have text := printed_rows (fun g => (mem₁ g.text).trans (text_mem_inherited_iff _ _ g))
    fun r => (mem₂ r.text).trans (sign_mem_inherited_iff _ _ r)
  rw [childBloodGroupPrint, fatherArg.1, fatherArg.2, motherArg.1, motherArg.2, ← text]
  exact bind_eq_ok.mpr ⟨f, lookF, bind_eq_ok.mpr ⟨fRrh, lookFRrh, bind_eq_ok.mpr ⟨m, lookM,
    bind_eq_ok.mpr ⟨mRrh, lookMRrh, bind_eq_ok.mpr ⟨_, run₁, bind_eq_ok.mpr ⟨_, run₂,
      bind_eq_ok.mpr ⟨w, run₃, bind_eq_ok.mpr ⟨_, printed, rfl⟩⟩⟩⟩⟩⟩⟩⟩

/-! ## The lines of a run -/

/-- The body of `parent_blood_group_print`. -/
abbrev ParentPrint :=
  List NamedList → List NamedList → InputArgs → Heap MarkerSet →
    Except Fault (List Char × Heap MarkerSet)

section Lines
variable (parentBloodGroupPrint : ParentPrint) (bgTable rrhFactorTable : List NamedList)

/-- The call for a line, on the array that the line leaves. -/
def printLine (args : InputArgs) (nodes : Heap MarkerSet) :
    Except Fault (List Char × Heap MarkerSet) :=
  match printCall args with
  | .child args => childBloodGroupPrint bgTable rrhFactorTable args nodes
  | .parent args => parentBloodGroupPrint bgTable rrhFactorTable args nodes

/-- The loop of `main` over its lines. -/
def printLines : List (List Char) → InputArgs → Heap MarkerSet → Except Fault (List Char)
  | [], _, _ => pure []
  | line :: lines, args, nodes => do
      let args := processEachInputLine args line
      let (text, nodes) ← printLine parentBloodGroupPrint bgTable rrhFactorTable args nodes
      let rest ← printLines lines args nodes
      pure (text ++ rest)

end Lines

/-- `main` for the lines that it reads. -/
def printAll (parentBloodGroupPrint : ParentPrint) (lines : List (List Char)) (args : InputArgs) :
    Except Fault (List Char) := do
  let (bgTable, nodes) ← buildBloodGroupTable .empty
  let (rrhFactorTable, nodes) ← buildRhFactorTable nodes
  printLines parentBloodGroupPrint bgTable rrhFactorTable lines args nodes

/-- A line that asks for the child of two parents. -/
structure ChildQuery where
  father : Group × Rh
  mother : Group × Rh

def ChildQuery.AskedBy (q : ChildQuery) (line : List Char) : Prop :=
  IsQueryLine [.known q.father.1 q.father.2, .known q.mother.1 q.mother.2, .unknown] line

/-- The group in the array after a token. The group O is not stored. -/
def stored (old new : Group) : Group := if new = .o then old else new

/-- The answers to a sequence of queries, with the groups that the array holds before them. -/
def answers (father mother : Group) : List ChildQuery → List Char
  | [] => []
  | q :: qs =>
      answer (stored father q.father.1, q.father.2) (stored mother q.mother.1, q.mother.2) ++
        answers (stored father q.father.1) (stored mother q.mother.1) qs

theorem write_stored (s : InputSet) {old new : Group}
    (h : new = .o → s.bloodGroup = old.text) (rh : Rh) :
    ((Token.known new rh).write s).bloodGroup = (stored old new).text ∧
      ((Token.known new rh).write s).rhFactor = rh.text := by
  cases new with
  | o => simp [Token.write, InputSet.setRh, stored, h rfl]
  | a | b | ab => simp [Token.write, InputSet.setGroup, InputSet.setRh, stored]

/-- One line: the answer is printed, and the array and the tables are ready for the next line. -/
theorem printLine_child {bgTable rrhFactorTable : List NamedList} {nodes : Heap MarkerSet}
    (atBg : TableAt nodes bgTable bloodGroupRings)
    (atRrh : TableAt nodes rrhFactorTable rrhFactorRings) (parent : ParentPrint)
    {args : InputArgs} (father mother : Group) {q : ChildQuery}
    (fatherArg : q.father.1 = .o → (firstParent args).bloodGroup = father.text)
    (motherArg : q.mother.1 = .o → (secondParent args).bloodGroup = mother.text)
    {line : List Char} (asked : q.AskedBy line) :
    ∃ nodes', printLine parent bgTable rrhFactorTable (processEachInputLine args line) nodes =
        .ok (answer (stored father q.father.1, q.father.2) (stored mother q.mother.1, q.mother.2),
          nodes') ∧
      (firstParent (processEachInputLine args line)).bloodGroup =
        (stored father q.father.1).text ∧
      (secondParent (processEachInputLine args line)).bloodGroup =
        (stored mother q.mother.1).text ∧
      nodes.Extends nodes' := by
  have first := write_stored (firstParent args) fatherArg q.father.2
  have second := write_stored (secondParent args) motherArg q.mother.2
  rw [firstParent, ← processEachInputLine_query asked args rfl] at first
  rw [secondParent, ← processEachInputLine_query asked args rfl] at second
  have last : (processEachInputLine args line (Fin.last 2)).outputReq = 1 := by
    rw [processEachInputLine_query asked args (i := Fin.last 2) rfl]
    rfl
  obtain ⟨nodes', run, ext⟩ := childBloodGroupPrint_eq atBg atRrh
    (stored father q.father.1, q.father.2) (stored mother q.mother.1, q.mother.2) first second
  refine ⟨nodes', ?_, first.1, second.1, ext⟩
  rw [printLine, printCall, if_pos (by rw [last]; decide)]
  exact run

theorem printLines_children {bgTable rrhFactorTable : List NamedList} (parent : ParentPrint)
    {qs : List ChildQuery} {lines : List (List Char)}
    (asked : List.Forall₂ ChildQuery.AskedBy qs lines) {nodes : Heap MarkerSet}
    (atBg : TableAt nodes bgTable bloodGroupRings)
    (atRrh : TableAt nodes rrhFactorTable rrhFactorRings) {args : InputArgs}
    {father mother : Group} (fatherArg : (firstParent args).bloodGroup = father.text)
    (motherArg : (secondParent args).bloodGroup = mother.text) :
    printLines parent bgTable rrhFactorTable lines args nodes = .ok (answers father mother qs) := by
  induction asked generalizing nodes args father mother with
  | nil => rfl
  | cons first _ ih =>
      obtain ⟨nodes₁, run, fatherArg', motherArg', ext⟩ :=
        printLine_child atBg atRrh parent father mother (fun _ => fatherArg) (fun _ => motherArg)
          first
      have rest := ih (atBg.congr ext) (atRrh.congr ext) fatherArg' motherArg'
      exact bind_eq_ok.mpr ⟨_, run, bind_eq_ok.mpr ⟨_, rest, rfl⟩⟩

end SamplePrograms.BloodGroup
