import SamplePrograms.Library.Ring
import SamplePrograms.Library.FirstOfKey
import Mathlib.Data.List.ReduceOption

/-!
# The sets of markers and of alleles

A new pair of strings is linked in behind the head of a ring, unless the ring has the pair
already. The head is the first node that was added. Following `next` from the head thus passes
the other nodes from the newest to the oldest one, and following `prev` passes them in the order
in which they came.

## Implementation notes

The nodes of markers and of alleles have the same fields, and so have the two lists of nodes,
which come without their names and function pointers here. A string is a list of characters. The
count of a list is a number. It could only wrap around with `2 ^ 32` different pairs in memory.
-/

namespace SamplePrograms.BloodGroup
open Memory

/-- The two strings of a node. -/
abbrev MarkerPair := List Char × List Char

/-- A `bmset_t` or an `rhaset_t`. -/
structure MarkerSet where
  first : List Char
  second : List Char
  prev : Ptr
  next : Ptr

/-- A `bloodg_t` or an `rrh_factor_t`. -/
structure SetList where
  list : Ptr
  head : Ptr
  count : Nat

/-- A list with the nodes in memory. -/
structure Sets where
  nodes : Heap MarkerSet
  self : SetList

/-- A zeroed list. -/
def Sets.zeroed (nodes : Heap MarkerSet) : Sets := ⟨nodes, none, none, 0⟩

/-! ## The functions -/

def MarkerSet.strings (m : MarkerSet) : MarkerPair := (m.first, m.second)

/-- The body of the two functions that make a node. There is no pair if `calloc` fails. -/
def newSet (nodes : Heap MarkerSet) : Option MarkerPair → Ptr × Heap MarkerSet
  | none => (none, nodes)
  | some (first, second) =>
      let (a, nodes) := nodes.alloc ⟨first, second, none, none⟩
      (some a, nodes)

def newBloodMarkerSet : Heap MarkerSet → Option MarkerPair → Ptr × Heap MarkerSet := newSet

def newRhAlleleSet : Heap MarkerSet → Option MarkerPair → Ptr × Heap MarkerSet := newSet

/-- Whether one of the next nodes is the same as the new one. -/
def findSet (same : MarkerSet → MarkerSet → Bool) (nodes : Heap MarkerSet) (bm : Ptr) :
    Nat → Ptr → Except Fault Bool
  | 0, _ => pure false
  | eleCount + 1, ptr => do
      let p ← load nodes.cell ptr
      let b ← load nodes.cell bm
      if same p b then pure true else findSet same nodes bm eleCount p.next

/-- The body of the two functions that add a node, which differ in the comparison. -/
def addUnique (same : MarkerSet → MarkerSet → Bool) (w : Sets) (bm : Ptr) : Except Fault Sets :=
  if bm = none then pure w
  else if w.self.list = none then do
    let nodes ← w.nodes.modify bm fun m => { m with next := bm }
    let nodes ← nodes.modify bm fun m => { m with prev := bm }
    pure ⟨nodes, bm, bm, w.self.count + 1⟩
  else do
    let found ← findSet same w.nodes bm w.self.count w.self.head
    if found then
      pure w
    else do
      let h ← load w.nodes.cell w.self.head
      let nodes ← w.nodes.modify bm fun m => { m with prev := w.self.head }
      let nodes ← nodes.modify w.self.head fun m => { m with next := bm }
      let nodes ← nodes.modify bm fun m => { m with next := h.next }
      let b ← load nodes.cell bm
      let nodes ← nodes.modify b.next fun m => { m with prev := bm }
      pure ⟨nodes, { w.self with count := w.self.count + 1 }⟩

/-- `!strcmp(ptr->first,bm->first) && !strcmp(ptr->second,bm->second)`. -/
def sameStrings (p b : MarkerSet) : Bool := p.first = b.first && p.second = b.second

/-- The first character of a string, which may be its end. -/
def firstChar (s : List Char) : Char := s.headD (Char.ofNat 0)

/-- `(ptr->first[0] == rha->first[0]) && (ptr->second[0] == rha->second[0])`. -/
def sameFirstChars (p b : MarkerSet) : Bool :=
  firstChar p.first = firstChar b.first && firstChar p.second = firstChar b.second

def addUniqueBloodgroupMarkerSet : Sets → Ptr → Except Fault Sets := addUnique sameStrings

def addUniqueRhaSet : Sets → Ptr → Except Fault Sets := addUnique sameFirstChars

/-- Make a node and add it. -/
def addNew (same : MarkerSet → MarkerSet → Bool) (w : Sets) (pair : Option MarkerPair) :
    Except Fault Sets :=
  let (bm, nodes) := newSet w.nodes pair
  addUnique same { w with nodes := nodes } bm

/-- `list->add(list,new_blood_marker_set(first,second))`. -/
def addBloodMarkers (w : Sets) (pair : Option MarkerPair) : Except Fault Sets :=
  let (bm, nodes) := newBloodMarkerSet w.nodes pair
  addUniqueBloodgroupMarkerSet { w with nodes := nodes } bm

/-- `list->add(list,new_rh_allele_set(first,second))`. -/
def addRhAlleles (w : Sets) (pair : Option MarkerPair) : Except Fault Sets :=
  let (rha, nodes) := newRhAlleleSet w.nodes pair
  addUniqueRhaSet { w with nodes := nodes } rha

/-- The pairs that the last loop of `child_blood_group_print` prints. -/
def followPrev (nodes : Heap MarkerSet) : Nat → Ptr → Except Fault (List MarkerPair)
  | 0, _ => pure []
  | count + 1, ptr => do
      let p ← load nodes.cell ptr
      let rest ← followPrev nodes count p.prev
      pure (p.strings :: rest)

/-! ## Nodes with their fields given by address -/

def markers (data : Nat → MarkerPair) (next prev : Nat → Ptr) (a : Nat) : MarkerSet :=
  ⟨(data a).1, (data a).2, prev a, next a⟩

section Fields
variable {nodes : Heap MarkerSet} {live : Set Nat} {data : Nat → MarkerPair}
variable {next prev : Nat → Ptr} {a : Nat}

theorem holds_setNext (h : nodes.Holds live (markers data next prev)) (ha : a ∈ live) (q : Ptr) :
    ∃ nodes', nodes.modify (some a) (fun m => { m with next := q }) = .ok nodes' ∧
      nodes'.Holds live (markers data (Function.update next a q) prev) := by
  apply h.modify ha
  · simp [markers]
  · intro b hb
    simp [markers, hb]

theorem holds_setPrev (h : nodes.Holds live (markers data next prev)) (ha : a ∈ live) (q : Ptr) :
    ∃ nodes', nodes.modify (some a) (fun m => { m with prev := q }) = .ok nodes' ∧
      nodes'.Holds live (markers data next (Function.update prev a q)) := by
  apply h.modify ha
  · simp [markers]
  · intro b hb
    simp [markers, hb]

theorem holds_newSet (h : nodes.Holds live (markers data next prev)) (pair : MarkerPair) :
    (nodes.alloc ⟨pair.1, pair.2, none, none⟩).2.Holds (insert nodes.next live)
      (markers (Function.update data nodes.next pair) (Function.update next nodes.next none)
        (Function.update prev nodes.next none)) := by
  convert h.alloc ⟨pair.1, pair.2, none, none⟩ using 1
  funext b
  by_cases hb : b = nodes.next
  · subst b
    simp [markers]
  · simp [markers, hb]

end Fields

/-! ## The traversals -/

section Traversal
variable {nodes : Heap MarkerSet} {f : Nat → MarkerSet} {l : List Nat} {p q : Ptr}

theorem findSet_eq (same : MarkerSet → MarkerSet → Bool) {bm : Nat} {b : MarkerSet}
    (hb : nodes.cell bm = some b) (h : Segment nodes.cell MarkerSet.next p l q)
    (stored : ∀ a ∈ l, nodes.cell a = some (f a)) :
    findSet same nodes (some bm) l.length p = .ok (l.any fun a => same (f a) b) := by
  induction l generalizing p with
  | nil => rfl
  | cons a rest ih =>
      obtain ⟨rfl, m, hm, later⟩ := h
      cases hm.symm.trans (stored a List.mem_cons_self)
      simp only [List.length_cons, findSet, load_live hm, load_live hb, bind, Except.bind,
        List.any_cons]
      cases same (f a) b with
      | true => rfl
      | false => exact ih later fun c hc => stored c (List.mem_cons_of_mem a hc)

theorem followPrev_eq (h : Segment nodes.cell MarkerSet.prev p l q)
    (stored : ∀ a ∈ l, nodes.cell a = some (f a)) :
    followPrev nodes l.length p = .ok (l.map fun a => (f a).strings) := by
  induction l generalizing p with
  | nil => rfl
  | cons a rest ih =>
      obtain ⟨rfl, m, hm, later⟩ := h
      cases hm.symm.trans (stored a List.mem_cons_self)
      simp only [List.length_cons, followPrev, load_live hm, bind, Except.bind,
        ih later fun c hc => stored c (List.mem_cons_of_mem a hc)]
      rfl

end Traversal

/-! ## The ring -/

/-- The list has the nodes, the first of which is its head, with their pairs. -/
structure RingAt (w : Sets) (nodes : List Nat) (entries : List MarkerPair)
    (data : Nat → MarkerPair) (next prev : Nat → Ptr) : Prop where
  cells : w.nodes.Holds {a | a ∈ nodes} (markers data next prev)
  nodup : nodes.Nodup
  ring : ∀ h rest, nodes = h :: rest → Ring next prev h rest.reverse
  list : w.self.list = nodes.head?
  head : w.self.head = nodes.head?
  size : w.self.count = nodes.length
  data : nodes.map data = entries

namespace RingAt
variable {w : Sets} {nodes : List Nat} {entries : List MarkerPair} {data : Nat → MarkerPair}
variable {next prev : Nat → Ptr}

/-- A new node changes nothing until it is linked. -/
theorem alloc (h : RingAt w nodes entries data next prev) (pair : MarkerPair) :
    ∃ w' t data' next' prev', newSet w.nodes (some pair) = (some t, w'.nodes) ∧
      w'.self = w.self ∧ RingAt w' nodes entries data' next' prev' ∧ t ∉ nodes ∧
      w'.nodes.Holds (insert t {a | a ∈ nodes}) (markers data' next' prev') ∧ data' t = pair := by
  have cells := holds_newSet h.cells pair
  have new : w.nodes.next ∉ nodes := fun hm => absurd (h.cells.lt_next hm) (lt_irrefl _)
  have apart : ∀ a ∈ nodes, a ≠ w.nodes.next := fun a ha he => new (he ▸ ha)
  refine ⟨⟨(w.nodes.alloc ⟨pair.1, pair.2, none, none⟩).2, w.self⟩, w.nodes.next, _, _, _, rfl, rfl,
    ⟨cells.mono fun a ha => Or.inr ha, h.nodup, ?_, h.list, h.head, h.size, ?_⟩, new, cells,
    Function.update_self _ _ _⟩
  · rintro a rest rfl
    apply (h.ring a rest rfl).congr
    · intro b hb
      exact Function.update_of_ne (apart b (by simpa using hb)) _ _
    · intro b hb
      exact Function.update_of_ne (apart b (by simpa using hb)) _ _
  · rw [← h.data]
    exact List.map_congr_left fun a ha => Function.update_of_ne (apart a ha) _ _

/-- The first node is linked to itself. -/
theorem addUnique_first (h : RingAt w [] [] data next prev) {t : Nat}
    (cells : w.nodes.Holds (insert t {a | a ∈ ([] : List Nat)}) (markers data next prev))
    (same : MarkerSet → MarkerSet → Bool) :
    ∃ w' next' prev', addUnique same w (some t) = .ok w' ∧
      RingAt w' [t] [data t] data next' prev' := by
  have live : t ∈ insert t {a | a ∈ ([] : List Nat)} := Set.mem_insert _ _
  obtain ⟨nodes₁, e₁, cells₁⟩ := holds_setNext cells live (some t)
  obtain ⟨nodes₂, e₂, cells₂⟩ := holds_setPrev cells₁ live (some t)
  have empty : w.self.list = none := h.list
  refine ⟨⟨nodes₂, some t, some t, w.self.count + 1⟩, _, _, ?_,
    ⟨cells₂.mono fun a ha => Or.inl (List.mem_singleton.mp ha), List.nodup_singleton t, ?_, rfl,
      rfl, ?_, rfl⟩⟩
  · simp only [addUnique, empty, e₁, e₂, bind, Except.bind, pure, Except.pure, reduceCtorEq,
      if_false, if_true]
  · rintro a rest he
    cases he
    exact .empty (Function.update_self _ _ _) (Function.update_self _ _ _)
  · rw [h.size]
    rfl

section Linked
variable {a : Nat} {rest : List Nat}

/-- Following `next` from the head passes it and then the newest node first. -/
theorem nextSegment (h : RingAt w (a :: rest) entries data next prev) :
    Segment w.nodes.cell MarkerSet.next (some a) (a :: rest.reverse) (some a) := by
  apply Segment.cons (h.cells a List.mem_cons_self)
  apply Ring.segment (f := markers data next prev) (h.ring a rest rfl)
  intro b hb
  exact h.cells b (List.mem_cons_of_mem a (List.mem_reverse.mp hb))

/-- Following `prev` from the head passes the nodes in their order. -/
theorem prevSegment (h : RingAt w (a :: rest) entries data next prev) :
    Segment w.nodes.cell MarkerSet.prev (some a) (a :: rest) (some a) := by
  have back : Ring prev next a rest := by simpa using (h.ring a rest rfl).reverse
  apply Segment.cons (h.cells a List.mem_cons_self)
  apply Ring.segment (f := markers data next prev) back
  exact fun b hb => h.cells b (List.mem_cons_of_mem a hb)

variable {κ : Type} [DecidableEq κ] {key : MarkerPair → κ} {same : MarkerSet → MarkerSet → Bool}

/-- The search finds out whether the key of the new node is present. -/
theorem findSet_eq (h : RingAt w (a :: rest) entries data next prev) {t : Nat}
    (ht : w.nodes.cell t = some (markers data next prev t))
    (same_iff : ∀ p b, same p b = decide (key p.strings = key b.strings)) :
    findSet same w.nodes (some t) w.self.count w.self.head =
      .ok (decide (key (data t) ∈ entries.map key)) := by
  have search := BloodGroup.findSet_eq same ht h.nextSegment
    (fun b hb => h.cells b (by simpa using hb))
  have length : (a :: rest.reverse).length = w.self.count := by simp [h.size]
  rw [length] at search
  rw [h.head, List.head?_cons, search, ← h.data]
  congr 1
  rw [Bool.eq_iff_iff, List.any_eq_true, decide_eq_true_iff]
  simp [same_iff, markers, MarkerSet.strings, eq_comm]

/-- A node with a new key is linked in behind the head. -/
theorem addUnique_absent (h : RingAt w (a :: rest) entries data next prev) {t : Nat}
    (new : t ∉ a :: rest)
    (cells : w.nodes.Holds (insert t {b | b ∈ a :: rest}) (markers data next prev))
    (search : findSet same w.nodes (some t) w.self.count w.self.head = .ok false) :
    ∃ w' next' prev', addUnique same w (some t) = .ok w' ∧
      RingAt w' (a :: rest ++ [t]) (entries ++ [data t]) data next' prev' := by
  have ring := h.ring a rest rfl
  obtain ⟨n, others, hn⟩ : ∃ n others, rest.reverse ++ [a] = n :: others :=
    List.exists_cons_of_ne_nil (by simp)
  have first := (ring.first hn).1
  have n_mem : n ∈ a :: rest := by
    have hm : n ∈ rest.reverse ++ [a] := by simp [hn]
    simpa [or_comm] using hm
  have apart : a ≠ t := fun he => new (he ▸ List.mem_cons_self)
  have live_t : t ∈ insert t {b | b ∈ a :: rest} := Set.mem_insert _ _
  have live_a : a ∈ insert t {b | b ∈ a :: rest} := Or.inr List.mem_cons_self
  have live_n : n ∈ insert t {b | b ∈ a :: rest} := Or.inr n_mem
  have load_a := cells.load live_a
  obtain ⟨nodes₁, e₁, cells₁⟩ := holds_setPrev cells live_t (some a)
  obtain ⟨nodes₂, e₂, cells₂⟩ := holds_setNext cells₁ live_a (some t)
  obtain ⟨nodes₃, e₃, cells₃⟩ := holds_setNext cells₂ live_t (some n)
  have load_t := cells₃.load live_t
  obtain ⟨nodes₄, e₄, cells₄⟩ := holds_setPrev cells₃ live_n (some t)
  have head : w.self.head = some a := h.head
  have list : w.self.list ≠ none := by simp [h.list]
  refine ⟨⟨nodes₄, { w.self with count := w.self.count + 1 }⟩, _, _, ?_,
    ⟨cells₄.mono ?_, ?_, ?_, h.list, h.head, ?_, ?_⟩⟩
  · rw [head] at search
    simp only [markers, first, Function.update_self] at load_a load_t
    simp only [addUnique, list, head, search, load_a, e₁, e₂, e₃, load_t, e₄, bind, Except.bind,
      pure, Except.pure, reduceCtorEq, if_false, Bool.false_eq_true]
  · intro b hb
    exact (List.mem_append.mp hb).elim Or.inr fun ht => Or.inl (List.mem_singleton.mp ht)
  · rw [← List.concat_eq_append]
    exact h.nodup.concat new
  · rintro b others' he
    rw [List.cons_append] at he
    obtain ⟨rfl, rfl⟩ := List.cons.inj he
    rw [List.reverse_append, List.reverse_singleton, List.singleton_append]
    refine ring.insert ?_ (by simpa using new) hn
    exact (List.reverse_perm rest).symm.cons a |>.nodup h.nodup
  · simp [h.size]
  · rw [List.map_append, h.data]
    rfl

end Linked

end RingAt

/-! ## Sequences of calls -/

/-- The nodes of the list have the entries. -/
def HasEntries (w : Sets) (entries : List MarkerPair) : Prop :=
  ∃ nodes data next prev, RingAt w nodes entries data next prev

section Calls
variable {κ : Type} [DecidableEq κ] {key : MarkerPair → κ} {same : MarkerSet → MarkerSet → Bool}
variable {w : Sets} {entries : List MarkerPair}

theorem HasEntries.zeroed (heap : Heap MarkerSet) : HasEntries (.zeroed heap) [] :=
  ⟨[], fun _ => ([], []), fun _ => none, fun _ => none,
    ⟨fun _ ha => absurd ha List.not_mem_nil, .nil, nofun, rfl, rfl, rfl, rfl⟩⟩

/-- A call adds its pair if the key of the pair is new. -/
theorem HasEntries.add (h : HasEntries w entries)
    (same_iff : ∀ p b, same p b = decide (key p.strings = key b.strings)) (pair : MarkerPair) :
    ∃ w', addNew same w (some pair) = .ok w' ∧
      HasEntries w' (FirstOfKey.add key entries pair) := by
  obtain ⟨nodes, data, next, prev, ring⟩ := h
  obtain ⟨w₁, t, data, next, prev, made, self, ring₁, new, cells, rfl⟩ := ring.alloc pair
  have call : addNew same w (some (data t)) = addUnique same w₁ (some t) := by
    simp only [addNew, made, ← self]
  rw [call]
  cases nodes with
  | nil =>
      obtain rfl : [] = entries := ring₁.data
      obtain ⟨w', next', prev', added, ring'⟩ := ring₁.addUnique_first cells same
      exact ⟨w', added, [t], data, next', prev', ring'⟩
  | cons a rest =>
      have search := ring₁.findSet_eq (cells t (Set.mem_insert _ _)) same_iff
      by_cases present : key (data t) ∈ entries.map key
      · have list : w₁.self.list ≠ none := by simp [ring₁.list]
        rw [decide_eq_true present] at search
        refine ⟨w₁, ?_, _, _, _, _, FirstOfKey.add_of_mem present ▸ ring₁⟩
        simp only [addUnique, list, search, bind, Except.bind, pure, Except.pure, reduceCtorEq,
          if_false, if_true]
      · rw [decide_eq_false present] at search
        obtain ⟨w', next', prev', added, ring'⟩ := ring₁.addUnique_absent new cells search
        refine ⟨w', added, a :: rest ++ [t], data, next', prev', ?_⟩
        rw [FirstOfKey.add, if_neg present]
        exact ring'

/-- A call without a pair has no node to add. -/
theorem HasEntries.addAll (same_iff : ∀ p b, same p b = decide (key p.strings = key b.strings))
    (h : HasEntries w entries) (pairs : List (Option MarkerPair)) :
    ∃ w', pairs.foldlM (addNew same) w = .ok w' ∧
      HasEntries w' (FirstOfKey.addAll key entries pairs.reduceOption) := by
  induction pairs generalizing w entries with
  | nil => exact ⟨w, rfl, h⟩
  | cons pair rest ih =>
      cases pair with
      | none =>
          rw [List.reduceOption_cons_of_none]
          exact ih h
      | some pair =>
          obtain ⟨w₁, added, h₁⟩ := h.add same_iff pair
          obtain ⟨w₂, run, h₂⟩ := ih h₁
          refine ⟨w₂, ?_, ?_⟩
          · rw [List.foldlM_cons, added]
            exact run
          · rw [List.reduceOption_cons_of_some]
            exact h₂

end Calls

/-! ## The ring in memory -/

def nextOf (nodes : Heap MarkerSet) (a : Nat) : Ptr := (nodes.cell a).bind MarkerSet.next

def prevOf (nodes : Heap MarkerSet) (a : Nat) : Ptr := (nodes.cell a).bind MarkerSet.prev

def pairAt (nodes : Heap MarkerSet) (a : Nat) : Option MarkerPair :=
  (nodes.cell a).map MarkerSet.strings

/-- The nodes form a ring that has each key once, and `prev` passes the pairs in the order in
which their keys came. -/
structure RingOfPairs {κ : Type} [DecidableEq κ] (key : MarkerPair → κ) (pairs : List MarkerPair)
    (w : Sets) (nodes : List Nat) : Prop where
  head : w.self.head = nodes.head?
  ring : ∀ h rest, nodes = h :: rest →
    Ring (nextOf w.nodes) (prevOf w.nodes) h rest.reverse
  nodup : nodes.Nodup
  count : w.self.count = nodes.length
  distinct : w.self.count = (pairs.map key).toFinset.card
  once : ∀ p ∈ pairs, nodes.countP (fun a => (pairAt w.nodes a).map key = some (key p)) = 1
  order : followPrev w.nodes w.self.count w.self.head = .ok (FirstOfKey.addAll key [] pairs)

section Memory
variable {κ : Type} [DecidableEq κ] {key : MarkerPair → κ} {pairs : List MarkerPair} {w : Sets}
variable {nodes : List Nat} {entries : List MarkerPair} {data : Nat → MarkerPair}
variable {next prev : Nat → Ptr}

theorem RingAt.pairAt (h : RingAt w nodes entries data next prev) :
    nodes.map (pairAt w.nodes) = entries.map some := by
  rw [← h.data, List.map_map]
  apply List.map_congr_left
  intro a ha
  rw [BloodGroup.pairAt, h.cells a ha]
  rfl

theorem RingAt.order (h : RingAt w nodes entries data next prev) :
    followPrev w.nodes w.self.count w.self.head = .ok entries := by
  rw [h.size, h.head, ← h.data]
  cases nodes with
  | nil => rfl
  | cons a rest => exact followPrev_eq h.prevSegment h.cells

theorem RingAt.ringOfPairs
    (h : RingAt w nodes (FirstOfKey.addAll key [] pairs) data next prev) :
    RingOfPairs key pairs w nodes where
  head := h.head
  ring := by
    rintro a rest rfl
    have cells : ∀ b ∈ a :: rest.reverse, w.nodes.cell b = some (markers data next prev b) :=
      fun b hb => h.cells b (by simpa using hb)
    apply (h.ring a rest rfl).congr
    · intro b hb
      rw [nextOf, cells b hb]
      rfl
    · intro b hb
      rw [prevOf, cells b hb]
      rfl
  nodup := h.nodup
  count := h.size
  distinct := by
    calc w.self.count = (nodes.map data).length := by rw [h.size, List.length_map]
      _ = (pairs.map key).toFinset.card := by rw [h.data, FirstOfKey.length_addAll]
  once := by
    intro p hp
    have present : key p ∈ (FirstOfKey.addAll key [] pairs).map key :=
      (FirstOfKey.keys_addAll [] pairs (key p)).mpr (Or.inr (List.mem_map_of_mem hp))
    have none : (([] : List MarkerPair).map key).Nodup := List.nodup_nil
    have one := FirstOfKey.countP_eq_one (FirstOfKey.nodup_addAll none pairs) present
    calc nodes.countP (fun a => (BloodGroup.pairAt w.nodes a).map key = some (key p))
        = (nodes.map (BloodGroup.pairAt w.nodes)).countP (fun e => e.map key = some (key p)) := by
          rw [List.countP_map]
          rfl
      _ = (FirstOfKey.addAll key [] pairs).countP (fun e => key e = key p) := by
          rw [h.pairAt, List.countP_map]
          simp [Function.comp_def]
      _ = 1 := one
  order := h.order

end Memory

/-- What `add_unique_rha_set` compares. -/
def firstChars (p : MarkerPair) : Char × Char := (firstChar p.1, firstChar p.2)

/-- After any calls on a zeroed list, each of the two functions has built a ring with one node for
each different pair. -/
theorem addUnique_ring (heap : Heap MarkerSet) (pairs : List (Option MarkerPair)) :
    (∃ w nodes, pairs.foldlM addBloodMarkers (.zeroed heap) = .ok w ∧
      RingOfPairs id pairs.reduceOption w nodes) ∧
    ∃ w nodes, pairs.foldlM addRhAlleles (.zeroed heap) = .ok w ∧
      RingOfPairs firstChars pairs.reduceOption w nodes := by
  have strings : ∀ p b, sameStrings p b = decide (id p.strings = id b.strings) := by
    intro p b
    simp [sameStrings, MarkerSet.strings]
  have chars : ∀ p b,
      sameFirstChars p b = decide (firstChars p.strings = firstChars b.strings) := by
    intro p b
    simp [sameFirstChars, firstChars, MarkerSet.strings]
  obtain ⟨w, run, nodes, data, next, prev, ring⟩ :=
    HasEntries.addAll strings (.zeroed heap) pairs
  obtain ⟨w', run', nodes', data', next', prev', ring'⟩ :=
    HasEntries.addAll chars (.zeroed heap) pairs
  exact ⟨⟨w, nodes, run, ring.ringOfPairs⟩, w', nodes', run', ring'.ringOfPairs⟩

end SamplePrograms.BloodGroup
