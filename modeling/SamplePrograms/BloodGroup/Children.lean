import SamplePrograms.BloodGroup.Tables
import SamplePrograms.BloodGroup.Lookups

/-!
# The loops over the markers of two parents

For every pair of a pair of the father and a pair of the mother, a list collects the pairs that a
child can have, in both orders of the two letters. The names of the pairs that the tables know are
copied into two arrays, and the last list joins each group of the table with each sign of the
arrays.

## Implementation notes

What the program prints is the result. A letter of a new pair is the one in the `case` label. The
switches of the two functions that combine two pairs differ in their labels only.
-/

namespace SamplePrograms.BloodGroup
open Memory

/-! ## The pairs of a child -/

/-- The statements for two letters, which have cases for some letters only. -/
def addPair (letters : List Char) (add : Sets → Option MarkerPair → Except Fault Sets) (w : Sets)
    (x y : List Char) : Except Fault Sets :=
  if firstChar x ∈ letters ∧ firstChar y ∈ letters then add w (some ([firstChar x], [firstChar y]))
  else pure w

/-- One of the outer switches, for a letter of one parent and both letters of the other. -/
def addWith (letters : List Char) (add : Sets → Option MarkerPair → Except Fault Sets) (w : Sets)
    (x : List Char) (other : MarkerSet) : Except Fault Sets := do
  let w ← addPair letters add w x other.first
  addPair letters add w x other.second

/-- The list to add to, a new one for the first pairs. -/
def collected (nodes : Heap MarkerSet) : Option SetList → Sets
  | none => .zeroed nodes
  | some self => ⟨nodes, self⟩

/-- The body of the two functions that combine two pairs. -/
def getAllPossible (letters : List Char) (add : Sets → Option MarkerPair → Except Fault Sets)
    (fptr mptr : Ptr) (nodes : Heap MarkerSet) (out : Option SetList) : Except Fault Sets := do
  let f ← load nodes.cell fptr
  let m ← load nodes.cell mptr
  let w ← addWith letters add (collected nodes out) f.first m
  let w ← addWith letters add w f.second m
  let w ← addWith letters add w m.first f
  addWith letters add w m.second f

def getAllPossibleBmsets : Ptr → Ptr → Heap MarkerSet → Option SetList → Except Fault Sets :=
  getAllPossible ['A', 'B', 'O'] addBloodMarkers

def getAllPossibleRhasets : Ptr → Ptr → Heap MarkerSet → Option SetList → Except Fault Sets :=
  getAllPossible ['+', '-'] addRhAlleles

/-! ## The loops of `child_blood_group_print` -/

section Loops
variable (possible : Ptr → Ptr → Heap MarkerSet → Option SetList → Except Fault Sets)

/-- The inner loop, over the pairs of the mother. -/
def motherLoop (fptr : Ptr) :
    Nat → Ptr → Heap MarkerSet → Option SetList →
      Except Fault (Ptr × Heap MarkerSet × Option SetList)
  | 0, mptr, nodes, outlist => pure (mptr, nodes, outlist)
  | count + 1, mptr, nodes, outlist => do
      let w ← possible fptr mptr nodes outlist
      let m ← load w.nodes.cell mptr
      motherLoop fptr count m.next w.nodes (some w.self)

/-- The outer loop, over the pairs of the father. The pointer to the mother's pairs goes on. -/
def fatherLoop (mother : SetList) :
    Nat → Ptr → Ptr → Heap MarkerSet → Option SetList →
      Except Fault (Heap MarkerSet × Option SetList)
  | 0, _, _, nodes, outlist => pure (nodes, outlist)
  | count + 1, fptr, mptr, nodes, outlist => do
      let (mptr, nodes, outlist) ← motherLoop possible fptr mother.count mptr nodes outlist
      let f ← load nodes.cell fptr
      fatherLoop mother count f.next mptr nodes outlist

/-- The loop that copies the names of the pairs into an array of strings of 10 characters. -/
def copyNames (getName : Heap MarkerSet → Ptr → Except Fault (Option (List Char)))
    (nodes : Heap MarkerSet) :
    Nat → Ptr → Nat → List (List Char) → Except Fault (List (List Char))
  | 0, _, _, names => pure names
  | count + 1, ptr, index, names => do
      let child ← getName nodes ptr
      let p ← load nodes.cell ptr
      match child with
      | some name =>
          if index < names.length then
            copyNames getName nodes count p.next (index + 1) (names.set index (name.take 9))
          else throw .outOfBounds
      | none => copyNames getName nodes count p.next index names

/-- The names of the possible pairs, in an array of ten strings. -/
def childNames (getName : Heap MarkerSet → Ptr → Except Fault (Option (List Char)))
    (father mother : SetList) (nodes : Heap MarkerSet) :
    Except Fault (List (List Char) × Heap MarkerSet) := do
  let (nodes, outlist) ←
    fatherLoop possible mother father.count father.head mother.head nodes none
  match outlist with
  | none => throw .nullPointer
  | some outlist =>
      let names ← copyNames getName nodes outlist.count outlist.head 0 (List.replicate 10 [])
      pure (names, nodes)

end Loops

/-- A loop over the strings of an array up to the empty one. -/
def forNames (body : List Char → Sets → Except Fault Sets) :
    List (List Char) → Sets → Except Fault Sets
  | [], _ => throw .outOfBounds
  | name :: rest, w => if name = [] then pure w else do
      let w ← body name w
      forNames body rest w

/-- The loop over the signs of the child that looks for one sign. -/
def addSigned (sign name : List Char) (childRrhlist : List (List Char)) :
    Sets → Except Fault Sets :=
  forNames (fun child w => if sign = child then addBloodMarkers w (some (name, sign)) else pure w)
    childRrhlist

/-- The loop over the table that makes the last list. -/
def finalLoop (childBglist childRrhlist : List (List Char)) :
    List NamedList → Sets → Except Fault Sets
  | [], w => pure w
  | e :: table, w => do
      let w ← forNames (fun child w =>
        if e.name = child then do
          let w ← addSigned ['+'] e.name childRrhlist w
          addSigned ['-'] e.name childRrhlist w
        else pure w) childBglist w
      finalLoop childBglist childRrhlist table w

/-- What `child_blood_group_print` prints, and the memory after it. -/
def childBloodGroupPrint (bgTable rrhFactorTable : List NamedList) (args : InputArgs)
    (nodes : Heap MarkerSet) : Except Fault (List Char × Heap MarkerSet) := do
  let father ← entryOf bgTable (firstParent args).bloodGroup
  let fatherRrh ← entryOf rrhFactorTable (firstParent args).rhFactor
  let mother ← entryOf bgTable (secondParent args).bloodGroup
  let motherRrh ← entryOf rrhFactorTable (secondParent args).rhFactor
  let (childBglist, nodes) ←
    childNames getAllPossibleBmsets (fun nodes => getBloodGroupNameFromTable nodes bgTable)
      father.list mother.list nodes
  let (childRrhlist, nodes) ←
    childNames getAllPossibleRhasets (fun nodes => getRrhFactorNameFromTable nodes rrhFactorTable)
      fatherRrh.list motherRrh.list nodes
  let finalList ← finalLoop childBglist childRrhlist bgTable (.zeroed nodes)
  let printed ← followPrev finalList.nodes finalList.self.count finalList.self.head
  pure (printed.flatMap (fun p => p.1 ++ p.2 ++ [' ']) ++ ['\n'], finalList.nodes)

/-! ## Lists of new nodes -/

/-- The list has the first pair for each key, in nodes behind the old part of the heap. -/
structure Collects {κ : Type} [DecidableEq κ] (key : MarkerPair → κ) (old : Heap MarkerSet)
    (w : Sets) (pairs : List MarkerPair) : Prop where
  entries : HasEntries w (FirstOfKey.addAll key [] pairs)
  above : Above old.next w
  same : old.SameBelow old.next w.nodes

section Pairs
variable {κ : Type} [DecidableEq κ] {key : MarkerPair → κ}
variable {add : Sets → Option MarkerPair → Except Fault Sets} {old : Heap MarkerSet} {w : Sets}
variable {pairs : List MarkerPair} (letters : List Char)

variable (key add) in
/-- Adding a pair to a list of new nodes makes it the last pair, unless its key is present. -/
def Adds : Prop :=
  ∀ (old : Heap MarkerSet) w pairs pair, Collects key old w pairs →
    ∃ w', add w (some pair) = .ok w' ∧ Collects key old w' (pairs ++ [pair])

theorem Collects.zeroed (nodes : Heap MarkerSet) : Collects key nodes (.zeroed nodes) [] :=
  ⟨.zeroed nodes, .zeroed nodes, .refl _ nodes⟩

theorem Collects.extends (h : Collects key old w pairs) : old.Extends w.nodes :=
  ⟨h.above.used, h.same⟩

theorem adds_addNew (same : MarkerSet → MarkerSet → Bool)
    (same_iff : ∀ p b, same p b = decide (key p.strings = key b.strings)) :
    Adds key (addNew same) := by
  intro old w pairs pair h
  obtain ⟨w', added, entries⟩ := h.entries.add same_iff pair
  have grown := h.above.growsNew added
  refine ⟨w', added, ?_, grown.above, h.same.trans grown.same⟩
  rw [FirstOfKey.addAll_append]
  exact entries

theorem adds_bloodMarkers : Adds id addBloodMarkers :=
  adds_addNew sameStrings fun p b => by simp [sameStrings, MarkerSet.strings]

theorem adds_rhAlleles : Adds firstChars addRhAlleles :=
  adds_addNew sameFirstChars fun p b => by
    simp [sameFirstChars, firstChars, MarkerSet.strings]

/-- The pair of two letters with cases. -/
def cross (letters : List Char) (x y : List Char) : List MarkerPair :=
  if firstChar x ∈ letters ∧ firstChar y ∈ letters then [([firstChar x], [firstChar y])] else []

/-- The pairs of a letter of one parent with the letters of the other. -/
def crossWith (letters : List Char) (x : List Char) (other : MarkerPair) : List MarkerPair :=
  cross letters x other.1 ++ cross letters x other.2

/-- The pairs that a child can have of two pairs, in both orders of the letters. -/
def crosses (letters : List Char) (f m : MarkerPair) : List MarkerPair :=
  crossWith letters f.1 m ++ crossWith letters f.2 m ++ crossWith letters m.1 f ++
    crossWith letters m.2 f

theorem addPair_run (adds : Adds key add) (h : Collects key old w pairs) (x y : List Char) :
    ∃ w', addPair letters add w x y = .ok w' ∧
      Collects key old w' (pairs ++ cross letters x y) := by
  unfold addPair cross
  split
  · exact adds old w pairs _ h
  · exact ⟨w, rfl, (List.append_nil pairs).symm ▸ h⟩

theorem addWith_run (adds : Adds key add) (h : Collects key old w pairs) (x : List Char)
    (other : MarkerSet) :
    ∃ w', addWith letters add w x other = .ok w' ∧
      Collects key old w' (pairs ++ crossWith letters x other.strings) := by
  obtain ⟨w₁, run₁, h₁⟩ := addPair_run letters adds h x other.first
  obtain ⟨w₂, run₂, h₂⟩ := addPair_run letters adds h₁ x other.second
  rw [List.append_assoc] at h₂
  exact ⟨w₂, bind_eq_ok.mpr ⟨w₁, run₁, run₂⟩, h₂⟩

/-- One call for two pairs of the parents. -/
theorem getAllPossible_run (adds : Adds key add) {nodes : Heap MarkerSet} {out : Option SetList}
    (h : Collects key old (collected nodes out) pairs) {fptr mptr : Ptr} {f m : MarkerSet}
    (readF : load nodes.cell fptr = .ok f) (readM : load nodes.cell mptr = .ok m) :
    ∃ w, getAllPossible letters add fptr mptr nodes out = .ok w ∧
      Collects key old w (pairs ++ crosses letters f.strings m.strings) := by
  obtain ⟨w₁, run₁, h₁⟩ := addWith_run letters adds h f.first m
  obtain ⟨w₂, run₂, h₂⟩ := addWith_run letters adds h₁ f.second m
  obtain ⟨w₃, run₃, h₃⟩ := addWith_run letters adds h₂ m.first f
  obtain ⟨w₄, run₄, h₄⟩ := addWith_run letters adds h₃ m.second f
  refine ⟨w₄, ?_, by simpa [crosses, MarkerSet.strings] using h₄⟩
  exact bind_eq_ok.mpr ⟨f, readF, bind_eq_ok.mpr ⟨m, readM, bind_eq_ok.mpr ⟨w₁, run₁,
    bind_eq_ok.mpr ⟨w₂, run₂, bind_eq_ok.mpr ⟨w₃, run₃, run₄⟩⟩⟩⟩⟩

/-! ## The loops over the rings of the parents -/

@[simp] theorem collected_nodes (nodes : Heap MarkerSet) (out : Option SetList) :
    (collected nodes out).nodes = nodes := by
  cases out with
  | none => rfl
  | some self => rfl

/-- The inner loop comes back to the pointer that it started from, when the ring is closed. -/
theorem motherLoop_run (adds : Adds key add) {fptr mptr q : Ptr} {f : MarkerSet}
    {ys : List MarkerPair} (readF : load old.cell fptr = .ok f) (ring : Passes old mptr ys q)
    {nodes : Heap MarkerSet} {out : Option SetList}
    (h : Collects key old (collected nodes out) pairs) :
    ∃ nodes' out', motherLoop (getAllPossible letters add) fptr ys.length mptr nodes out =
        .ok (q, nodes', out') ∧
      Collects key old (collected nodes' out')
        (pairs ++ ys.flatMap fun y => crosses letters f.strings y) ∧
      (out'.isSome = (out.isSome || !ys.isEmpty)) := by
  induction ys generalizing mptr nodes out pairs with
  | nil =>
      obtain rfl : mptr = q := ring
      exact ⟨nodes, out, rfl, by simpa using h, by simp⟩
  | cons y ys ih =>
      obtain ⟨m, readM, rfl, later⟩ := ring
      have ext : old.Extends nodes := by simpa using h.extends
      obtain ⟨w, run, h₁⟩ :=
        getAllPossible_run letters adds h (ext.load readF) (ext.load readM)
      have next : Collects key old (collected w.nodes (some w.self)) _ := h₁
      obtain ⟨nodes', out', rest, h₂, isSome⟩ := ih later next
      refine ⟨nodes', out', ?_, by simpa using h₂, by simpa using isSome⟩
      exact bind_eq_ok.mpr ⟨w, run, bind_eq_ok.mpr ⟨m, h₁.extends.load readM, rest⟩⟩

theorem fatherLoop_run (adds : Adds key add) {mother : SetList} {fptr q : Ptr}
    {xs ys : List MarkerPair} (ringF : Passes old fptr xs q) (ringM : ListAt old mother ys)
    {nodes : Heap MarkerSet} {out : Option SetList}
    (h : Collects key old (collected nodes out) pairs) :
    ∃ nodes' out', fatherLoop (getAllPossible letters add) mother xs.length fptr mother.head nodes
        out = .ok (nodes', out') ∧
      Collects key old (collected nodes' out')
        (pairs ++ xs.flatMap fun x => ys.flatMap fun y => crosses letters x y) ∧
      (out'.isSome = (out.isSome || (!xs.isEmpty && !ys.isEmpty))) := by
  induction xs generalizing fptr nodes out pairs with
  | nil => exact ⟨nodes, out, rfl, by simpa using h, by simp⟩
  | cons x xs ih =>
      obtain ⟨f, readF, rfl, later⟩ := ringF
      obtain ⟨nodes₁, out₁, run, h₁, isSome₁⟩ :=
        motherLoop_run letters adds readF ringM.ring h
      have ext : old.Extends nodes₁ := by simpa using h₁.extends
      obtain ⟨nodes₂, out₂, rest, h₂, isSome₂⟩ := ih later h₁
      refine ⟨nodes₂, out₂, ?_, by simpa using h₂, ?_⟩
      · rw [List.length_cons, fatherLoop, ringM.count]
        exact bind_eq_ok.mpr ⟨_, run, bind_eq_ok.mpr ⟨f, ext.load readF, rest⟩⟩
      · rw [isSome₂, isSome₁]
        cases ys.isEmpty <;> simp

end Pairs

/-! ## The arrays of names -/

section Names
variable {getName : Heap MarkerSet → Ptr → Except Fault (Option (List Char))}
variable {name : MarkerPair → Option (List Char)} {nodes : Heap MarkerSet}

/-- The names of the pairs fill the array from the left. -/
theorem copyNames_run
    (finds : ∀ p b, load nodes.cell p = .ok b → getName nodes p = .ok (name b.strings))
    (short : ∀ pair n, name pair = some n → n.length ≤ 9) {p q : Ptr} {pairs : List MarkerPair}
    (ring : Passes nodes p pairs q) (done : List (List Char)) (free : Nat) :
    copyNames getName nodes pairs.length p done.length
        (done ++ List.replicate ((pairs.filterMap name).length + free) []) =
      .ok (done ++ pairs.filterMap name ++ List.replicate free []) := by
  induction pairs generalizing p done with
  | nil => simp [copyNames, pure, Except.pure]
  | cons x xs ih =>
      obtain ⟨m, read, rfl, later⟩ := ring
      rw [List.length_cons, copyNames, finds p m read]
      simp only [read, bind, Except.bind]
      cases found : name m.strings with
      | none => simpa [found] using ih later done
      | some n =>
          have fits : n.take 9 = n := List.take_of_length_le (short _ n found)
          have copied := ih later (done ++ [n])
          rw [List.filterMap_cons_some found]
          simp only [List.length_append, List.length_replicate, List.length_cons, fits]
          rw [if_pos (by omega), Nat.succ_add, List.replicate_succ,
            List.set_append_right _ _ (Nat.le_refl _), Nat.sub_self, List.set_cons_zero]
          simpa using copied

end Names

/-- The pairs of letters with cases. -/
def letterPairs (letters : List Char) : List MarkerPair :=
  letters.flatMap fun x => letters.map fun y => ([x], [y])

theorem mem_letterPairs_of_cross {letters : List Char} {x y : List Char} {pair : MarkerPair}
    (h : pair ∈ cross letters x y) : pair ∈ letterPairs letters := by
  unfold cross at h
  split at h
  case isTrue both =>
    rw [List.mem_singleton.mp h]
    exact List.mem_flatMap.mpr ⟨_, both.1, List.mem_map_of_mem both.2⟩
  case isFalse => cases h

theorem mem_letterPairs_of_crosses {letters : List Char} {f m pair : MarkerPair}
    (h : pair ∈ crosses letters f m) : pair ∈ letterPairs letters := by
  simp only [crosses, crossWith, List.mem_append] at h
  rcases h with (((h | h) | h | h) | h | h) | h | h <;> exact mem_letterPairs_of_cross h

section Child
variable {κ : Type} [DecidableEq κ] {key : MarkerPair → κ}
variable {add : Sets → Option MarkerPair → Except Fault Sets} (letters : List Char)

/-- The names that a child can have of two lists of pairs. -/
def inherited (name : MarkerPair → Option (List Char))
    (xs ys : List MarkerPair) : List (List Char) :=
  (xs.flatMap fun x => ys.flatMap fun y => crosses letters x y).filterMap name

/-- Both parents' rings are passed once for each pair, and the names fill less than the array. -/
theorem childNames_run (adds : Adds key add)
    {getName : Heap MarkerSet → Ptr → Except Fault (Option (List Char))}
    {name : MarkerPair → Option (List Char)} {old : Heap MarkerSet} {father mother : SetList}
    {xs ys : List MarkerPair} (atFather : ListAt old father xs) (atMother : ListAt old mother ys)
    (someF : xs ≠ []) (someM : ys ≠ []) (few : (letterPairs letters).length ≤ 9)
    (keys : ∀ p ∈ letterPairs letters, ∀ p' ∈ letterPairs letters, key p = key p' → p = p')
    (finds : ∀ nodes, old.Extends nodes → ∀ p b, load nodes.cell p = .ok b →
      getName nodes p = .ok (name b.strings))
    (short : ∀ pair n, name pair = some n → n.length ≤ 9) :
    ∃ names nodes free, childNames (getAllPossible letters add) getName father mother old =
        .ok (names ++ [] :: List.replicate free [], nodes) ∧
      (∀ n, n ∈ names ↔ n ∈ inherited letters name xs ys) ∧ old.Extends nodes := by
  have start : Collects key old (collected old none) [] := .zeroed old
  obtain ⟨nodes, out, run, h, isSome⟩ :=
    fatherLoop_run letters adds atFather.ring atMother start
  rw [List.nil_append] at h
  obtain ⟨self, rfl⟩ : ∃ self, out = some self := by
    apply Option.isSome_iff_exists.mp
    rw [isSome]
    simp [someF, someM]
  generalize hpairs : (xs.flatMap fun x => ys.flatMap fun y => crosses letters x y) = pairs at h
  have list := h.entries.listAt
  set entries := FirstOfKey.addAll key [] pairs
  have within : pairs ⊆ letterPairs letters := by
    rw [← hpairs]
    intro p hp
    obtain ⟨x, -, hp⟩ := List.mem_flatMap.mp hp
    obtain ⟨y, -, hp⟩ := List.mem_flatMap.mp hp
    exact mem_letterPairs_of_crosses hp
  have kept : ∀ p, p ∈ entries ↔ p ∈ pairs := FirstOfKey.mem_addAll_iff fun p hp p' hp' =>
    keys p (within hp) p' (within hp')
  have count : ((turned entries).filterMap name).length ≤ 9 := by
    calc ((turned entries).filterMap name).length ≤ (turned entries).length :=
          List.length_filterMap_le name _
      _ = entries.length := length_turned entries
      _ ≤ (letterPairs letters).length := FirstOfKey.length_addAll_le within
      _ ≤ 9 := few
  have ext : old.Extends nodes := by simpa using h.extends
  obtain ⟨free, room⟩ : ∃ free, ((turned entries).filterMap name).length + (free + 1) = 10 :=
    ⟨9 - ((turned entries).filterMap name).length, by omega⟩
  have copied := copyNames_run (finds nodes ext) short list.ring [] (free + 1)
  rw [room, List.nil_append, List.nil_append, List.replicate_succ] at copied
  refine ⟨(turned entries).filterMap name, nodes, free, ?_, ?_, ext⟩
  · rw [childNames, atFather.count]
    refine bind_eq_ok.mpr ⟨_, run, bind_eq_ok.mpr ⟨_, ?_, rfl⟩⟩
    rw [show self.count = (turned entries).length from list.count]
    exact copied
  · intro n
    simp only [inherited, List.mem_filterMap, mem_turned, hpairs, kept]

end Child

/-! ## The last list -/

theorem forNames_eq (body : List Char → Sets → Except Fault Sets) {names : List (List Char)}
    (some : ∀ n ∈ names, n ≠ []) (rest : List (List Char)) (w : Sets) :
    forNames body (names ++ [] :: rest) w = names.foldlM (fun w n => body n w) w := by
  induction names generalizing w with
  | nil => rfl
  | cons n names ih =>
      rw [List.cons_append, forNames, if_neg (some n List.mem_cons_self), List.foldlM_cons]
      congr 1
      funext w
      exact ih (fun n hn => some n (List.mem_cons_of_mem _ hn)) w

section Final
variable {κ : Type} [DecidableEq κ] {key : MarkerPair → κ} {old : Heap MarkerSet} {w : Sets}
variable {pairs : List MarkerPair}

/-- A loop adds what its passes add. -/
theorem foldlM_collects {α : Type} {body : α → Sets → Except Fault Sets}
    {g : α → List MarkerPair}
    (one : ∀ a w pairs, Collects key old w pairs →
      ∃ w', body a w = .ok w' ∧ Collects key old w' (pairs ++ g a))
    (h : Collects key old w pairs) (l : List α) :
    ∃ w', l.foldlM (fun w a => body a w) w = .ok w' ∧
      Collects key old w' (pairs ++ l.flatMap g) := by
  induction l generalizing w pairs with
  | nil => exact ⟨w, rfl, by simpa using h⟩
  | cons a l ih =>
      obtain ⟨w₁, run₁, h₁⟩ := one a w pairs h
      obtain ⟨w₂, run₂, h₂⟩ := ih h₁
      refine ⟨w₂, ?_, by simpa using h₂⟩
      rw [List.foldlM_cons]
      exact bind_eq_ok.mpr ⟨w₁, run₁, run₂⟩

variable {bgs rrhs : List (List Char)}

theorem addSigned_run (some : ∀ n ∈ rrhs, n ≠ []) (rest : List (List Char))
    (sign name : List Char) (h : Collects id old w pairs) :
    ∃ w', addSigned sign name (rrhs ++ [] :: rest) w = .ok w' ∧
      Collects id old w'
        (pairs ++ rrhs.flatMap fun c => if sign = c then [(name, sign)] else []) := by
  unfold addSigned
  rw [forNames_eq _ some]
  apply foldlM_collects _ h
  intro child w pairs h
  split
  · exact adds_bloodMarkers old w pairs _ h
  · exact ⟨w, rfl, (List.append_nil pairs).symm ▸ h⟩

/-- What the passes for a group of the table add. -/
def added (bgs rrhs : List (List Char)) (name : List Char) : List MarkerPair :=
  bgs.flatMap fun child =>
    if name = child then
      (rrhs.flatMap fun c => if ['+'] = c then [(name, ['+'])] else []) ++
        rrhs.flatMap fun c => if ['-'] = c then [(name, ['-'])] else []
    else []

theorem finalLoop_run (someBg : ∀ n ∈ bgs, n ≠ []) (someRrh : ∀ n ∈ rrhs, n ≠ [])
    (rest rest' : List (List Char)) (table : List NamedList) (h : Collects id old w pairs) :
    ∃ w', finalLoop (bgs ++ [] :: rest) (rrhs ++ [] :: rest') table w = .ok w' ∧
      Collects id old w' (pairs ++ (table.map NamedList.name).flatMap (added bgs rrhs)) := by
  induction table generalizing w pairs with
  | nil => exact ⟨w, rfl, by simpa using h⟩
  | cons e table ih =>
      obtain ⟨w₁, run₁, h₁⟩ : ∃ w₁, forNames (fun child w =>
          if e.name = child then do
            let w ← addSigned ['+'] e.name (rrhs ++ [] :: rest') w
            addSigned ['-'] e.name (rrhs ++ [] :: rest') w
          else pure w) (bgs ++ [] :: rest) w = .ok w₁ ∧
          Collects id old w₁ (pairs ++ added bgs rrhs e.name) := by
        rw [forNames_eq _ someBg]
        apply foldlM_collects _ h
        intro child w pairs h
        split
        · obtain ⟨w₁, run₁, h₁⟩ := addSigned_run someRrh rest' ['+'] e.name h
          obtain ⟨w₂, run₂, h₂⟩ := addSigned_run someRrh rest' ['-'] e.name h₁
          exact ⟨w₂, bind_eq_ok.mpr ⟨w₁, run₁, run₂⟩, by simpa using h₂⟩
        · exact ⟨w, rfl, (List.append_nil pairs).symm ▸ h⟩
      obtain ⟨w₂, run₂, h₂⟩ := ih h₁
      exact ⟨w₂, bind_eq_ok.mpr ⟨w₁, run₁, run₂⟩, by simpa using h₂⟩

/-- The entries of the last list for a group. -/
def row (bgs rrhs : List (List Char)) (name : List Char) : List MarkerPair :=
  if name ∈ bgs then
    (if ['+'] ∈ rrhs then [(name, ['+'])] else []) ++ if ['-'] ∈ rrhs then [(name, ['-'])] else []
  else []

theorem addAll_added (entries : List MarkerPair) (name : List Char) :
    FirstOfKey.addAll id entries (added bgs rrhs name) =
      FirstOfKey.addAll id entries (row bgs rrhs name) := by
  rw [added, row, FirstOfKey.addAll_flatMap_ite]
  split
  · rw [FirstOfKey.addAll_append, FirstOfKey.addAll_append, FirstOfKey.addAll_flatMap_ite,
      FirstOfKey.addAll_flatMap_ite]
    split <;> split <;> rfl
  · rfl

theorem fst_of_mem_row {name : List Char} {p : MarkerPair} (h : p ∈ row bgs rrhs name) :
    p.1 = name := by
  unfold row at h
  grind

theorem nodup_row (name : List Char) : (row bgs rrhs name).Nodup := by
  unfold row
  split
  · split <;> split <;> simp
  · exact .nil

/-- The last list has the rows of the table, one after another. -/
theorem addAll_flatMap_added {names : List (List Char)} (nodup : names.Nodup) :
    FirstOfKey.addAll id [] (names.flatMap (added bgs rrhs)) = names.flatMap (row bgs rrhs) := by
  have same : ∀ entries, FirstOfKey.addAll id entries (names.flatMap (added bgs rrhs)) =
      FirstOfKey.addAll id entries (names.flatMap (row bgs rrhs)) := by
    clear nodup
    induction names with
    | nil => exact fun _ => rfl
    | cons name names ih =>
        intro entries
        rw [List.flatMap_cons, List.flatMap_cons, FirstOfKey.addAll_append,
          FirstOfKey.addAll_append, addAll_added, ih]
  rw [same, FirstOfKey.addAll_of_nodup, List.nil_append]
  rw [List.nil_append, List.map_id, List.nodup_flatMap]
  refine ⟨fun name _ => nodup_row name, nodup.imp ?_⟩
  intro name name' ne p hp hp'
  exact ne ((fst_of_mem_row hp).symm.trans (fst_of_mem_row hp'))

end Final

end SamplePrograms.BloodGroup
