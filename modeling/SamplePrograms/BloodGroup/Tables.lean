import SamplePrograms.Library.HeapFrame
import SamplePrograms.BloodGroup.MarkerSets

/-!
# The tables of marker sets in memory

Each blood group has a ring of the pairs of markers that give the group, and each sign a ring of
pairs of alleles. The tables are built once. Every answer puts new nodes into memory and reads the
rings of the tables, which stay as they are.

## Implementation notes

Both tables and all other lists have their nodes in one heap. No call of `calloc` fails here. A
`bloodg_t` of a table is its name with its list.
-/

namespace SamplePrograms.BloodGroup
open Memory

/-- An entry of one of the two tables. -/
structure NamedList where
  name : List Char
  list : SetList

/-! ## The functions -/

/-- The body of the two functions that add a node without a search. They do not count. -/
def addLast (w : Sets) (bm : Ptr) : Except Fault Sets :=
  if bm = none then pure w
  else if w.self.list = none then do
    let nodes ← w.nodes.modify bm fun m => { m with next := bm }
    let nodes ← nodes.modify bm fun m => { m with prev := bm }
    pure ⟨nodes, { w.self with list := bm, head := bm }⟩
  else do
    let h ← load w.nodes.cell w.self.head
    let nodes ← w.nodes.modify bm fun m => { m with prev := w.self.head }
    let nodes ← nodes.modify w.self.head fun m => { m with next := bm }
    let nodes ← nodes.modify bm fun m => { m with next := h.next }
    let b ← load nodes.cell bm
    let nodes ← nodes.modify b.next fun m => { m with prev := bm }
    pure { w with nodes := nodes }

def addBloodgroupMarkerSet : Sets → Ptr → Except Fault Sets := addLast

def addRhAlleleSet : Sets → Ptr → Except Fault Sets := addLast

/-- `bg->add(bg,new_blood_marker_set(first,second))`, and the same for alleles. -/
def addNewLast (add : Sets → Ptr → Except Fault Sets) (w : Sets) (pair : MarkerPair) :
    Except Fault Sets :=
  let (bm, nodes) := newSet w.nodes (some pair)
  add { w with nodes := nodes } bm

/-- One block of the functions that build the tables. -/
def buildEntry (add : Sets → Ptr → Except Fault Sets) (name : List Char)
    (pairs : List MarkerPair) (count : Nat) (nodes : Heap MarkerSet) :
    Except Fault (NamedList × Heap MarkerSet) := do
  let w ← pairs.foldlM (addNewLast add) (.zeroed nodes)
  pure (⟨name, { w.self with count := w.self.count + count }⟩, w.nodes)

def buildBloodGroupTable (nodes : Heap MarkerSet) :
    Except Fault (List NamedList × Heap MarkerSet) := do
  let (a, nodes) ←
    buildEntry addBloodgroupMarkerSet ['A'] [(['A'], ['A']), (['A'], ['O'])] 2 nodes
  let (ab, nodes) ← buildEntry addBloodgroupMarkerSet ['A', 'B'] [(['A'], ['B'])] 1 nodes
  let (b, nodes) ←
    buildEntry addBloodgroupMarkerSet ['B'] [(['B'], ['B']), (['B'], ['O'])] 2 nodes
  let (o, nodes) ← buildEntry addBloodgroupMarkerSet ['O'] [(['O'], ['O'])] 1 nodes
  pure ([a, ab, b, o], nodes)

def buildRhFactorTable (nodes : Heap MarkerSet) :
    Except Fault (List NamedList × Heap MarkerSet) := do
  let (plus, nodes) ←
    buildEntry addRhAlleleSet ['+'] [(['+'], ['+']), (['+'], ['-']), (['-'], ['+'])] 3 nodes
  let (minus, nodes) ← buildEntry addRhAlleleSet ['-'] [(['-'], ['-'])] 1 nodes
  pure ([plus, minus], nodes)

/-- The bodies of the two searches of a table by name. Behind the table there is no entry. -/
def entryOf (table : List NamedList) (name : List Char) : Except Fault NamedList :=
  match table.find? fun e => e.name = name with
  | some e => pure e
  | none => throw .outOfBounds

/-- The body of the two searches of a table for the name of a pair. -/
def getNameFromTable (nodes : Heap MarkerSet) (bm : Ptr) :
    List NamedList → Except Fault (Option (List Char))
  | [] => pure none
  | e :: table => do
      let found ← findSet sameFirstChars nodes bm e.list.count e.list.head
      if found then pure (some e.name) else getNameFromTable nodes bm table

def getBloodGroupNameFromTable (nodes : Heap MarkerSet) (table : List NamedList) (bm : Ptr) :
    Except Fault (Option (List Char)) := getNameFromTable nodes bm table

def getRrhFactorNameFromTable (nodes : Heap MarkerSet) (table : List NamedList) (rha : Ptr) :
    Except Fault (Option (List Char)) := getNameFromTable nodes rha table

/-! ## New nodes -/

theorem bind_eq_ok {α β : Type} {x : Except Fault α} {f : α → Except Fault β} {b : β} :
    (x >>= f) = .ok b ↔ ∃ a, x = .ok a ∧ f a = .ok b := by
  cases x with
  | error e => simp [bind, Except.bind]
  | ok a => simp [bind, Except.bind]

/-- The nodes of a list lie in the new part of the heap. -/
structure Above (base : Nat) (w : Sets) : Prop where
  used : base ≤ w.nodes.next
  head : ∀ a, w.self.head = some a → base ≤ a
  links : w.nodes.LinksAbove MarkerSet.next base

/-- What a list adds to memory leaves the old part as it is. -/
structure Grows (base : Nat) (w w' : Sets) : Prop where
  above : Above base w'
  same : w.nodes.SameBelow base w'.nodes

section Frame
variable {base : Nat} {w w' w'' : Sets}

theorem Above.zeroed (nodes : Heap MarkerSet) : Above nodes.next (.zeroed nodes) where
  used := Nat.le_refl _
  head := nofun
  links := fun _ _ _ ha hv _ => absurd (Heap.lt_next hv) (Nat.not_lt.mpr ha)

theorem Grows.refl (above : Above base w) : Grows base w w := ⟨above, .refl base w.nodes⟩

theorem Grows.trans (one : Grows base w w') (two : Grows base w' w'') : Grows base w w'' :=
  ⟨two.above, one.same.trans two.same⟩

theorem Above.growsHeap (above : Above base w) (pair : MarkerPair) :
    Grows base w ⟨(newSet w.nodes (some pair)).2, w.self⟩ where
  above := ⟨Nat.le_succ_of_le above.used, above.head, above.links.alloc nofun⟩
  same := .alloc above.used _

/-- The writes of an addition go to the new node, the head and the node after the head. -/
theorem Above.growsLast (above : Above base w) {t : Nat} (new : base ≤ t)
    (run : addLast w (some t) = .ok w') : Grows base w w' := by
  obtain ⟨used, head, links⟩ := above
  unfold addLast at run
  rw [if_neg (Option.some_ne_none t)] at run
  have at_t : ∀ a, some t = some a → base ≤ a := fun a ha => Option.some.inj ha ▸ new
  split at run
  · obtain ⟨nodes₁, w₁, run⟩ := bind_eq_ok.mp run
    obtain ⟨nodes₂, w₂, run⟩ := bind_eq_ok.mp run
    obtain rfl := Except.ok.inj run
    refine ⟨⟨?_, at_t, ?_⟩, (Heap.SameBelow.modify w₁ at_t).trans (.modify w₂ at_t)⟩
    · simpa [Heap.modify_next w₂, Heap.modify_next w₁] using used
    · apply (links.modify w₁ fun v n hn _ => at_t n hn).modify w₂
      exact fun v n hn old => absurd hn old
  · obtain ⟨h, read, run⟩ := bind_eq_ok.mp run
    obtain ⟨nodes₁, w₁, run⟩ := bind_eq_ok.mp run
    obtain ⟨nodes₂, w₂, run⟩ := bind_eq_ok.mp run
    obtain ⟨nodes₃, w₃, run⟩ := bind_eq_ok.mp run
    obtain ⟨b, read', run⟩ := bind_eq_ok.mp run
    obtain ⟨nodes₄, w₄, run⟩ := bind_eq_ok.mp run
    obtain rfl := Except.ok.inj run
    obtain ⟨a, ha, hcell⟩ := load_eq_ok_iff.mp read
    have second : ∀ n, h.next = some n → base ≤ n := fun n hn => links a h n (head a ha) hcell hn
    have links₁ := links.modify w₁ fun v n hn old => absurd hn old
    have links₂ := links₁.modify w₂ fun v n hn _ => at_t n hn
    have links₃ := links₂.modify w₃ fun v n hn _ => second n hn
    have third : ∀ n, b.next = some n → base ≤ n := by
      obtain ⟨c, hc, bcell⟩ := load_eq_ok_iff.mp read'
      exact fun n hn => links₃ c b n (at_t c hc) bcell hn
    refine ⟨⟨?_, head, links₃.modify w₄ fun v n hn old => absurd hn old⟩, ?_⟩
    · simpa [Heap.modify_next w₄, Heap.modify_next w₃, Heap.modify_next w₂, Heap.modify_next w₁]
        using used
    · exact ((Heap.SameBelow.modify w₁ at_t).trans (.modify w₂ head)).trans
        ((Heap.SameBelow.modify w₃ at_t).trans (.modify w₄ third))

/-- An addition with a search changes nothing, or it is one without a search that counts. -/
theorem addUnique_cases {same : MarkerSet → MarkerSet → Bool} {bm : Ptr}
    (run : addUnique same w bm = .ok w') :
    w' = w ∨ ∃ w₁, addLast w bm = .ok w₁ ∧
      w' = ⟨w₁.nodes, { w₁.self with count := w₁.self.count + 1 }⟩ := by
  unfold addUnique at run
  split at run
  case isTrue => exact .inl (Except.ok.inj run).symm
  case isFalse real =>
    split at run
    case isTrue first =>
      obtain ⟨nodes₁, w₁, run⟩ := bind_eq_ok.mp run
      obtain ⟨nodes₂, w₂, run⟩ := bind_eq_ok.mp run
      obtain rfl := Except.ok.inj run
      refine .inr ⟨⟨nodes₂, { w.self with list := bm, head := bm }⟩, ?_, rfl⟩
      simp only [addLast, if_neg real, if_pos first, w₁, w₂, bind, Except.bind, pure, Except.pure]
    case isFalse later =>
      obtain ⟨found, -, run⟩ := bind_eq_ok.mp run
      split at run
      · exact .inl (Except.ok.inj run).symm
      · obtain ⟨h, read, run⟩ := bind_eq_ok.mp run
        obtain ⟨nodes₁, w₁, run⟩ := bind_eq_ok.mp run
        obtain ⟨nodes₂, w₂, run⟩ := bind_eq_ok.mp run
        obtain ⟨nodes₃, w₃, run⟩ := bind_eq_ok.mp run
        obtain ⟨b, read', run⟩ := bind_eq_ok.mp run
        obtain ⟨nodes₄, w₄, run⟩ := bind_eq_ok.mp run
        obtain rfl := Except.ok.inj run
        refine .inr ⟨{ w with nodes := nodes₄ }, ?_, rfl⟩
        simp only [addLast, if_neg real, if_neg later, read, w₁, w₂, w₃, read', w₄, bind,
          Except.bind, pure, Except.pure]

theorem Above.growsNew {same : MarkerSet → MarkerSet → Bool} (above : Above base w)
    {pair : MarkerPair} (run : addNew same w (some pair) = .ok w') : Grows base w w' := by
  have allocated := above.growsHeap pair
  obtain rfl | ⟨w₁, run₁, rfl⟩ := addUnique_cases run
  · exact allocated
  · have added := allocated.above.growsLast above.used run₁
    exact allocated.trans ⟨⟨added.above.used, added.above.head, added.above.links⟩, added.same⟩

theorem Above.growsAll {same : MarkerSet → MarkerSet → Bool} (above : Above base w)
    {pairs : List MarkerPair}
    (run : pairs.foldlM (fun w pair => addNew same w (some pair)) w = .ok w') :
    Grows base w w' := by
  induction pairs generalizing w with
  | nil => exact Except.ok.inj run ▸ .refl above
  | cons pair rest ih =>
      rw [List.foldlM_cons] at run
      obtain ⟨w₁, added, run⟩ := bind_eq_ok.mp run
      have first := above.growsNew added
      exact first.trans (ih first.above run)

end Frame

/-! ## Rings that are only read -/

/-- Following `next` from one pointer to another passes nodes with the pairs. -/
def Passes (nodes : Heap MarkerSet) : Ptr → List MarkerPair → Ptr → Prop
  | p, [], q => p = q
  | p, x :: xs, q => ∃ m, load nodes.cell p = .ok m ∧ m.strings = x ∧ Passes nodes m.next xs q

/-- The pairs in the order in which `next` passes them. -/
def turned : List MarkerPair → List MarkerPair
  | [] => []
  | x :: xs => x :: xs.reverse

@[simp] theorem mem_turned {x : MarkerPair} (l : List MarkerPair) : x ∈ turned l ↔ x ∈ l := by
  cases l with
  | nil => rfl
  | cons y l => simp [turned]

@[simp] theorem length_turned (l : List MarkerPair) : (turned l).length = l.length := by
  cases l with
  | nil => rfl
  | cons y l => simp [turned]

/-- Following `next` from the head passes the pairs and leads back to the head. -/
structure ListAt (nodes : Heap MarkerSet) (l : SetList) (pairs : List MarkerPair) : Prop where
  ring : Passes nodes l.head pairs l.head
  count : l.count = pairs.length

/-- The entries of a table with their names and the pairs in the order of `next`. -/
def TableAt (nodes : Heap MarkerSet) (table : List NamedList)
    (entries : List (List Char × List MarkerPair)) : Prop :=
  List.Forall₂ (fun e entry => e.name = entry.1 ∧ ListAt nodes e.list entry.2) table entries

section Rings
variable {nodes nodes' : Heap MarkerSet} {p q : Ptr} {pairs : List MarkerPair}

theorem passes_of_segment {data : Nat → MarkerPair} {next prev : Nat → Ptr} {addrs : List Nat}
    (h : Segment nodes.cell MarkerSet.next p addrs q)
    (cells : ∀ a ∈ addrs, nodes.cell a = some (markers data next prev a)) :
    Passes nodes p (addrs.map data) q := by
  induction addrs generalizing p with
  | nil => exact h
  | cons a rest ih =>
      obtain ⟨rfl, m, hm, later⟩ := h
      cases hm.symm.trans (cells a List.mem_cons_self)
      exact ⟨_, load_live hm, rfl, ih later fun b hb => cells b (List.mem_cons_of_mem a hb)⟩

theorem HasEntries.listAt {w : Sets} (h : HasEntries w pairs) :
    ListAt w.nodes w.self (turned pairs) := by
  obtain ⟨addrs, data, next, prev, ring⟩ := h
  obtain rfl := ring.data
  constructor
  · rw [ring.head]
    cases addrs with
    | nil => rfl
    | cons a rest =>
        have passes := passes_of_segment ring.nextSegment fun b hb =>
          ring.cells b (by simpa using hb)
        simpa [turned] using passes
  · rw [ring.size, length_turned, List.length_map]

theorem Passes.congr (h : Passes nodes p pairs q) (ext : nodes.Extends nodes') :
    Passes nodes' p pairs q := by
  induction pairs generalizing p with
  | nil => exact h
  | cons x xs ih =>
      obtain ⟨m, read, strings, later⟩ := h
      exact ⟨m, ext.load read, strings, ih later⟩

theorem ListAt.congr {l : SetList} (h : ListAt nodes l pairs) (ext : nodes.Extends nodes') :
    ListAt nodes' l pairs :=
  ⟨h.ring.congr ext, h.count⟩

/-- New nodes leave the tables as they are. -/
theorem TableAt.congr {table : List NamedList} {entries : List (List Char × List MarkerPair)}
    (h : TableAt nodes table entries) (ext : nodes.Extends nodes') :
    TableAt nodes' table entries :=
  h.imp fun _ _ entry => ⟨entry.1, entry.2.congr ext⟩

theorem TableAt.names {table : List NamedList} {entries : List (List Char × List MarkerPair)}
    (h : TableAt nodes table entries) : table.map NamedList.name = entries.map Prod.fst := by
  induction h with
  | nil => rfl
  | cons here _ ih => rw [List.map_cons, List.map_cons, here.1, ih]

theorem HasEntries.order {w : Sets} (h : HasEntries w pairs) :
    followPrev w.nodes w.self.count w.self.head = .ok pairs := by
  obtain ⟨addrs, data, next, prev, ring⟩ := h
  exact ring.order

theorem findSet_passes {bm : Ptr} {b : MarkerSet} (read : load nodes.cell bm = .ok b)
    (h : Passes nodes p pairs q) :
    findSet sameFirstChars nodes bm pairs.length p =
      .ok (pairs.any fun x => firstChars x = firstChars b.strings) := by
  induction pairs generalizing p with
  | nil => rfl
  | cons x xs ih =>
      obtain ⟨m, node, rfl, later⟩ := h
      have chars : sameFirstChars m b = decide (firstChars m.strings = firstChars b.strings) := by
        simp [sameFirstChars, firstChars, MarkerSet.strings]
      simp only [List.length_cons, findSet, node, read, bind, Except.bind, chars, List.any_cons]
      cases decide (firstChars m.strings = firstChars b.strings) with
      | true => rfl
      | false => exact ih later

end Rings

/-- The name of the first entry with the pair. -/
def nameOf (entries : List (List Char × List MarkerPair)) (pair : MarkerPair) :
    Option (List Char) :=
  (entries.find? fun e => e.2.any fun x => firstChars x = firstChars pair).map Prod.fst

theorem getNameFromTable_eq {nodes : Heap MarkerSet} {bm : Ptr} {b : MarkerSet}
    (read : load nodes.cell bm = .ok b) {table : List NamedList}
    {entries : List (List Char × List MarkerPair)} (h : TableAt nodes table entries) :
    getNameFromTable nodes bm table = .ok (nameOf entries b.strings) := by
  induction h with
  | nil => rfl
  | @cons e entry table entries here others ih =>
      obtain ⟨name, list⟩ := here
      simp only [getNameFromTable, list.count, findSet_passes read list.ring, bind, Except.bind,
        nameOf, List.find?_cons]
      cases entry.2.any fun x => firstChars x = firstChars b.strings with
      | true => simp [name, pure, Except.pure]
      | false => exact ih

theorem entryOf_eq {nodes : Heap MarkerSet} {table : List NamedList}
    {entries : List (List Char × List MarkerPair)} (h : TableAt nodes table entries)
    {name : List Char} {pairs : List MarkerPair}
    (found : entries.find? (fun e => e.1 = name) = some (name, pairs)) :
    ∃ e, entryOf table name = .ok e ∧ ListAt nodes e.list pairs := by
  induction h with
  | nil => cases found
  | @cons e entry table entries here others ih =>
      obtain ⟨same, list⟩ := here
      rw [List.find?_cons] at found
      unfold entryOf
      rw [List.find?_cons, same]
      cases hit : decide (entry.1 = name) with
      | true =>
          obtain rfl : entry = (name, pairs) := by simpa [hit] using found
          exact ⟨e, rfl, list⟩
      | false =>
          simp only [hit] at found
          exact ih found

/-! ## Building -/

/-- A list that has not counted its nodes. -/
def Sets.uncounted (w : Sets) : Sets := ⟨w.nodes, { w.self with count := 0 }⟩

section Building
variable {nodes nodes' : Heap MarkerSet} {w w' : Sets} {entries : List MarkerPair}

theorem addLast_uncounted {bm : Ptr} (run : addLast w bm = .ok w') :
    addLast w.uncounted bm = .ok w'.uncounted := by
  unfold addLast at run ⊢
  split at run
  case isTrue null =>
    rw [if_pos null, ← Except.ok.inj run]
    rfl
  case isFalse real =>
    rw [if_neg real]
    split at run
    case isTrue first =>
      obtain ⟨nodes₁, w₁, run⟩ := bind_eq_ok.mp run
      obtain ⟨nodes₂, w₂, run⟩ := bind_eq_ok.mp run
      obtain rfl := Except.ok.inj run
      exact (if_pos first).trans
        (bind_eq_ok.mpr ⟨nodes₁, w₁, bind_eq_ok.mpr ⟨nodes₂, w₂, rfl⟩⟩)
    case isFalse later =>
      obtain ⟨h, read, run⟩ := bind_eq_ok.mp run
      obtain ⟨nodes₁, w₁, run⟩ := bind_eq_ok.mp run
      obtain ⟨nodes₂, w₂, run⟩ := bind_eq_ok.mp run
      obtain ⟨nodes₃, w₃, run⟩ := bind_eq_ok.mp run
      obtain ⟨b, read', run⟩ := bind_eq_ok.mp run
      obtain ⟨nodes₄, w₄, run⟩ := bind_eq_ok.mp run
      obtain rfl := Except.ok.inj run
      apply (if_neg later).trans
      exact bind_eq_ok.mpr ⟨h, read, bind_eq_ok.mpr ⟨nodes₁, w₁, bind_eq_ok.mpr ⟨nodes₂, w₂,
        bind_eq_ok.mpr ⟨nodes₃, w₃, bind_eq_ok.mpr ⟨b, read', bind_eq_ok.mpr ⟨nodes₄, w₄, rfl⟩⟩⟩⟩⟩⟩

/-- An addition without a search appends any pair. -/
theorem HasEntries.addNewLast (h : HasEntries w entries) (pair : MarkerPair) :
    ∃ w', addNewLast addLast w.uncounted pair = .ok w'.uncounted ∧
      HasEntries w' (entries ++ [pair]) := by
  obtain ⟨addrs, data, next, prev, ring⟩ := h
  obtain ⟨w₁, t, data, next, prev, made, self, ring₁, new, cells, rfl⟩ := ring.alloc pair
  have call : BloodGroup.addNewLast addLast w.uncounted (data t) =
      addLast w₁.uncounted (some t) := by
    simp only [BloodGroup.addNewLast, Sets.uncounted, made, ← self]
  have differs : ∀ {w' data' next' prev' addrs' entries'},
      RingAt w' addrs' entries' data' next' prev' → addrs'.length = addrs.length + 1 →
      addUnique (fun _ _ => false) w₁ (some t) = .ok w' →
      ∃ w₂, addLast w₁ (some t) = .ok w₂ ∧ w₂.uncounted = w'.uncounted := by
    intro w' data' next' prev' addrs' entries' ring' longer added
    obtain rfl | ⟨w₂, run, rfl⟩ := addUnique_cases added
    · have size := ring'.size.symm.trans ring₁.size
      omega
    · exact ⟨w₂, run, rfl⟩
  rw [call]
  cases addrs with
  | nil =>
      obtain rfl : [] = entries := ring₁.data
      obtain ⟨w', next', prev', added, ring'⟩ := ring₁.addUnique_first cells fun _ _ => false
      obtain ⟨w₂, run, same⟩ := differs ring' rfl added
      exact ⟨w', same ▸ addLast_uncounted run, [t], data, next', prev', ring'⟩
  | cons a rest =>
      have search : findSet (fun _ _ => false) w₁.nodes (some t) w₁.self.count w₁.self.head =
          .ok false := by
        have walk := BloodGroup.findSet_eq (fun _ _ => false)
          (cells t (Set.mem_insert _ _)) ring₁.nextSegment fun b hb =>
          ring₁.cells b (by simpa using hb)
        have length : (a :: rest.reverse).length = w₁.self.count := by simp [ring₁.size]
        rw [ring₁.head, List.head?_cons, ← length, walk]
        simp
      obtain ⟨w', next', prev', added, ring'⟩ := ring₁.addUnique_absent new cells search
      obtain ⟨w₂, run, same⟩ := differs ring' (by simp) added
      exact ⟨w', same ▸ addLast_uncounted run, a :: rest ++ [t], data, next', prev', ring'⟩

theorem HasEntries.addAllLast (h : HasEntries w entries) (pairs : List MarkerPair) :
    ∃ w', pairs.foldlM (BloodGroup.addNewLast addLast) w.uncounted = .ok w'.uncounted ∧
      HasEntries w' (entries ++ pairs) := by
  induction pairs generalizing w entries with
  | nil => exact ⟨w, rfl, (List.append_nil entries).symm ▸ h⟩
  | cons pair rest ih =>
      obtain ⟨w₁, added, h₁⟩ := h.addNewLast pair
      obtain ⟨w₂, run, h₂⟩ := ih h₁
      refine ⟨w₂, ?_, by simpa using h₂⟩
      rw [List.foldlM_cons]
      exact bind_eq_ok.mpr ⟨_, added, run⟩

theorem Above.growsAllLast {base : Nat} (above : Above base w) {pairs : List MarkerPair}
    (run : pairs.foldlM (BloodGroup.addNewLast addLast) w = .ok w') : Grows base w w' := by
  induction pairs generalizing w with
  | nil => exact Except.ok.inj run ▸ .refl above
  | cons pair rest ih =>
      rw [List.foldlM_cons] at run
      obtain ⟨w₁, added, run⟩ := bind_eq_ok.mp run
      have allocated := above.growsHeap pair
      have first := allocated.trans (allocated.above.growsLast above.used added)
      exact first.trans (ih first.above run)

/-- A block builds a list of its pairs in new nodes and counts them. -/
theorem buildEntry_eq (name : List Char) (pairs : List MarkerPair) (nodes : Heap MarkerSet) :
    ∃ l nodes', buildEntry addLast name pairs pairs.length nodes = .ok (⟨name, l⟩, nodes') ∧
      ListAt nodes' l (turned pairs) ∧ nodes.Extends nodes' := by
  obtain ⟨w, run, list⟩ := (HasEntries.zeroed nodes).addAllLast pairs
  have grown := (Above.zeroed nodes).growsAllLast run
  have at_last := list.listAt
  refine ⟨w.self, w.nodes, bind_eq_ok.mpr ⟨w.uncounted, run, ?_⟩, at_last, grown.above.used,
    grown.same⟩
  have count : 0 + pairs.length = w.self.count := by
    rw [at_last.count, length_turned, Nat.zero_add, List.nil_append]
  simp only [Sets.uncounted, count]
  rfl

/-- The next block adds an entry to the table. -/
theorem TableAt.concat {table : List NamedList} {rows : List (List Char × List MarkerPair)}
    (h : TableAt nodes table rows) (name : List Char) (pairs : List MarkerPair) :
    ∃ e nodes', buildEntry addLast name pairs pairs.length nodes = .ok (e, nodes') ∧
      TableAt nodes' (table ++ [e]) (rows ++ [(name, turned pairs)]) ∧ nodes.Extends nodes' := by
  obtain ⟨l, nodes', built, list, ext⟩ := buildEntry_eq name pairs nodes
  exact ⟨_, nodes', built, List.rel_append (h.congr ext) (.cons ⟨rfl, list⟩ .nil), ext⟩

end Building

/-- The rings of `blood_group_table`. -/
def bloodGroupRings : List (List Char × List MarkerPair) :=
  [(['A'], [(['A'], ['A']), (['A'], ['O'])]), (['A', 'B'], [(['A'], ['B'])]),
    (['B'], [(['B'], ['B']), (['B'], ['O'])]), (['O'], [(['O'], ['O'])])]

/-- The rings of `rrh_factor_table`, where the pair that was added last follows the head. -/
def rrhFactorRings : List (List Char × List MarkerPair) :=
  [(['+'], [(['+'], ['+']), (['-'], ['+']), (['+'], ['-'])]), (['-'], [(['-'], ['-'])])]

theorem buildBloodGroupTable_eq (nodes : Heap MarkerSet) :
    ∃ table nodes', buildBloodGroupTable nodes = .ok (table, nodes') ∧
      TableAt nodes' table bloodGroupRings ∧ nodes.Extends nodes' := by
  have start : TableAt nodes [] [] := .nil
  obtain ⟨a, nodes₁, built₁, table₁, ext₁⟩ := start.concat ['A'] [(['A'], ['A']), (['A'], ['O'])]
  obtain ⟨ab, nodes₂, built₂, table₂, ext₂⟩ := table₁.concat ['A', 'B'] [(['A'], ['B'])]
  obtain ⟨b, nodes₃, built₃, table₃, ext₃⟩ := table₂.concat ['B'] [(['B'], ['B']), (['B'], ['O'])]
  obtain ⟨o, nodes₄, built₄, table₄, ext₄⟩ := table₃.concat ['O'] [(['O'], ['O'])]
  refine ⟨_, nodes₄, ?_, table₄, ((ext₁.trans ext₂).trans ext₃).trans ext₄⟩
  exact bind_eq_ok.mpr ⟨_, built₁, bind_eq_ok.mpr ⟨_, built₂,
    bind_eq_ok.mpr ⟨_, built₃, bind_eq_ok.mpr ⟨_, built₄, rfl⟩⟩⟩⟩

theorem buildRhFactorTable_eq (nodes : Heap MarkerSet) :
    ∃ table nodes', buildRhFactorTable nodes = .ok (table, nodes') ∧
      TableAt nodes' table rrhFactorRings ∧ nodes.Extends nodes' := by
  have start : TableAt nodes [] [] := .nil
  obtain ⟨plus, nodes₁, built₁, table₁, ext₁⟩ :=
    start.concat ['+'] [(['+'], ['+']), (['+'], ['-']), (['-'], ['+'])]
  obtain ⟨minus, nodes₂, built₂, table₂, ext₂⟩ := table₁.concat ['-'] [(['-'], ['-'])]
  refine ⟨_, nodes₂, ?_, table₂, ext₁.trans ext₂⟩
  exact bind_eq_ok.mpr ⟨_, built₁, bind_eq_ok.mpr ⟨_, built₂, rfl⟩⟩

end SamplePrograms.BloodGroup
