import SamplePrograms.RingBuffer.Model
import SamplePrograms.Library.CallSequences
import Mathlib.Tactic.SplitIfs

/-!
# The ring buffer as a list

The cells from `front` to `tail` hold the items of the queue, and the cell at
`tail` holds none of them. So a ring of `sz` cells has room for `sz - 1` items.
A push that finds no more room writes its item to the cell at `tail` all the
same and sets `queueFull`, but the item is not among the items of the queue.
-/

namespace SamplePrograms.RingBuffer
open Memory Calls

/-! ## Positions in the ring -/

/-- The cell `k` places after the cell `f`. -/
def pos (sz f k : Nat) : Nat := if f + k < sz then f + k else f + k - sz

/-- Where the constructor lets the cell `i` point. A single cell points nowhere. -/
def link (sz i : Nat) : Ptr :=
  if i + 1 < sz then some (i + 1) else if sz = 1 then none else some 0

variable {sz f j k : Nat}

theorem pos_lt (hf : f < sz) (hk : k < sz) : pos sz f k < sz := by
  unfold pos
  split_ifs <;> omega

@[simp] theorem pos_zero (hf : f < sz) : pos sz f 0 = f := by
  simp [pos, hf]

theorem pos_inj (hj : j < sz) (hk : k < sz) (h : pos sz f j = pos sz f k) :
    j = k := by
  unfold pos at h
  split_ifs at h <;> omega

/-- The cell after a cell of the queue is the next one, if there is another. -/
theorem link_pos (hf : f < sz) (hk : k + 1 < sz) :
    link sz (pos sz f k) = some (pos sz f (k + 1)) := by
  have one : sz ≠ 1 := by omega
  unfold link pos
  split_ifs
  all_goals
    apply congrArg some
    omega

/-- The last cell of the ring closes it. -/
theorem link_pos_last (hf : f < sz) (hk : k + 1 = sz) :
    link sz (pos sz f k) = none ∨ link sz (pos sz f k) = some f := by
  by_cases one : sz = 1
  · left
    simp [link, one]
  · right
    unfold link pos
    split_ifs
    all_goals
      apply congrArg some
      omega

/-- Positions after the front are positions after the cell that follows it. -/
theorem pos_shift (hf : f < sz) (hk : k + 1 < sz) :
    pos sz (pos sz f 1) k = pos sz f (k + 1) := by
  unfold pos
  split_ifs <;> omega

/-! ## The constructor -/

variable {TYPE : Type*}

/-- The first `n` cells are linked to a ring of `n` cells and hold no item. -/
structure Built (n : Nat) (b : Building TYPE) : Prop where
  next : b.buffers.next = n
  front : b.front = if n = 0 then none else some 0
  prev : b.prev = if n = 0 then none else some (n - 1)
  cells : ∀ i, i < n → b.buffers.cell i = some ⟨none, link n i⟩

theorem setNext_live {buffers : Heap (CBuffer TYPE)} {a : Nat} {c : CBuffer TYPE}
    (h : buffers.cell a = some c) (q : Ptr) :
    setNext buffers (some a) q = .ok (buffers.put a (some { c with next := q })) :=
  Heap.modify_live h _

/-- The first iteration makes a single cell. -/
theorem Built.linkFirst {b : Building TYPE} (h : Built 0 b) :
    ∃ b', linkCell b 0 = .ok b' ∧ Built 1 b' := by
  let cells := (b.buffers.alloc ⟨none, none⟩).2
  have fresh : cells.cell 0 = some ⟨none, none⟩ := by
    simp [cells, h.next]
  have first := setNext_live fresh none
  refine ⟨⟨cells.put 0 (some ⟨none, none⟩), some 0, some 0⟩, ?_, ?_⟩
  · simp only [linkCell, Heap.alloc_fst, h.next, h.front, if_true]
    rw [first]
    rfl
  · constructor
    · simp [cells, h.next]
    · rfl
    · rfl
    · intro i hi
      have hi0 : i = 0 := by omega
      subst i
      rw [Heap.put_cell (by simp [cells, h.next])]
      exact Function.update_self _ _ _

/-- Another iteration puts a cell between the last cell and the first. -/
theorem Built.linkNext {n : Nat} {b : Building TYPE} (h : Built (n + 1) b) :
    ∃ b', linkCell b (n + 1) = .ok b' ∧ Built (n + 2) b' := by
  let cells := (b.buffers.alloc ⟨none, none⟩).2
  have hcells : cells.cell = Function.update b.buffers.cell (n + 1) (some ⟨none, none⟩) := by
    simp [cells, h.next]
  have fresh : cells.cell (n + 1) = some ⟨none, none⟩ := by
    rw [hcells]
    exact Function.update_self _ _ _
  let opened := cells.put (n + 1) (some ⟨none, some 0⟩)
  have hopened : opened.cell = Function.update b.buffers.cell (n + 1) (some ⟨none, some 0⟩) := by
    rw [Heap.put_cell (Heap.lt_next fresh), hcells, Function.update_idem]
  have last : opened.cell n = some ⟨none, link (n + 1) n⟩ := by
    rw [hopened, Function.update_of_ne (by omega)]
    exact h.cells n (by omega)
  have first := setNext_live fresh (some 0)
  have second := setNext_live last (some (n + 1))
  refine ⟨⟨opened.put n (some ⟨none, some (n + 1)⟩), some 0, some (n + 1)⟩, ?_, ?_⟩
  · simp only [linkCell, Heap.alloc_fst, h.next, h.front, h.prev, Nat.add_one_ne_zero, if_false,
      Nat.add_sub_cancel]
    rw [first]
    simp only [bind, Except.bind]
    rw [second]
    rfl
  · constructor
    · simp [opened, cells, h.next]
    · rfl
    · rfl
    · intro i hi
      dsimp only
      rw [Heap.put_cell (Heap.lt_next last), hopened]
      by_cases hin : i = n
      · subst i
        rw [Function.update_self]
        simp [link]
      · rw [Function.update_of_ne hin]
        by_cases hin' : i = n + 1
        · subst i
          rw [Function.update_self]
          simp [link]
        · rw [Function.update_of_ne hin', h.cells i (by omega)]
          have before : i + 1 < n + 1 := by omega
          have after : i + 1 < n + 2 := by omega
          simp [link, before, after]

variable (TYPE) in
/-- The loop of the constructor builds the ring. -/
theorem built (n : Nat) : ∃ b : Building TYPE,
    (List.range n).foldlM linkCell ⟨Heap.empty, none, none⟩ = .ok b ∧ Built n b := by
  induction n with
  | zero =>
      refine ⟨_, rfl, ?_⟩
      constructor
      · rfl
      · rfl
      · rfl
      · intro i hi
        omega
  | succ n ih =>
      obtain ⟨b, run, h⟩ := ih
      obtain ⟨b', step, h'⟩ : ∃ b', linkCell b n = .ok b' ∧ Built (n + 1) b' := by
        cases n with
        | zero => exact h.linkFirst
        | succ n => exact h.linkNext
      refine ⟨b', ?_, h'⟩
      rw [List.range_succ, List.foldlM_append, run]
      simp only [bind, Except.bind, List.foldlM_cons, List.foldlM_nil, step, pure, Except.pure]

/-! ## The calls -/

/-- What the queue is in terms of lists. A queue is stuck when it has taken an item
for which it has no room. -/
structure Contents (TYPE : Type*) where
  items : List TYPE
  stuck : Bool

/-- The calls on a queue with room for `cap` items. -/
def bounded (TYPE : Type*) (cap : Nat) : Machine (Contents TYPE) (Call TYPE) (Answer TYPE) where
  next := fun b call => match call with
    | .push x =>
        if b.stuck then b
        else if b.items.length < cap then ⟨b.items ++ [x], false⟩ else ⟨b.items, true⟩
    | .pop => match b.items with
        | [] => b
        | _ :: rest => ⟨rest, false⟩
    | .isEmpty => b
  answer := fun b call => match call with
    | .push _ => .pushed (!b.stuck)
    | .pop => match b.items with
        | [] => .popped .noItem
        | x :: _ => .popped (.item (some x))
    | .isEmpty => .empty b.items.isEmpty
  legal := fun _ _ => True

/-- The queue holds the items in the cells from `f` on. -/
structure RepresentsAt (sz f : Nat) (q : DataQueue TYPE) (b : Contents TYPE) : Prop where
  front_lt : f < sz
  room : b.items.length < sz
  full : q.queueFull = b.stuck
  front : q.front = some f
  tail : q.tail = some (pos sz f b.items.length)
  ring : ∀ i, i < sz → ∃ c, q.buffers.cell i = some c ∧ c.next = link sz i
  contents : ∀ k x, b.items[k]? = some x →
    ∃ c, q.buffers.cell (pos sz f k) = some c ∧ c.item = some x

/-- The queue represents its contents from some cell on. -/
def Represents (sz : Nat) (q : DataQueue TYPE) (b : Contents TYPE) : Prop :=
  ∃ f, RepresentsAt sz f q b

variable (TYPE) in
/-- A new queue is empty. -/
theorem represents_initial (hsz : 1 ≤ sz) :
    ∃ q, dataQueue TYPE sz = .ok q ∧ Represents sz q ⟨[], false⟩ := by
  obtain ⟨b, run, h⟩ := built TYPE sz
  have hne : sz ≠ 0 := by omega
  have hf : b.front = some 0 := by simpa [hne] using h.front
  refine ⟨⟨sz, false, b.front, b.front, b.buffers⟩, ?_, 0, ?_⟩
  · simp only [dataQueue, run, bind, Except.bind, pure, Except.pure]
  · constructor
    · omega
    · exact Nat.lt_of_lt_of_le Nat.zero_lt_one hsz
    · rfl
    · exact hf
    · simpa [pos_zero hsz] using hf
    · exact fun i hi => ⟨_, h.cells i hi, rfl⟩
    · simp

section Steps
variable {q : DataQueue TYPE} {b : Contents TYPE} {f : Nat}

/-- The front is the tail exactly when there are no items. -/
theorem RepresentsAt.front_eq_tail (h : RepresentsAt sz f q b) :
    q.front = q.tail ↔ b.items = [] := by
  rw [h.front, h.tail, Option.some.injEq, ← List.length_eq_zero_iff]
  constructor
  · intro he
    have hz : pos sz f b.items.length = pos sz f 0 := by rw [pos_zero h.front_lt, ← he]
    exact pos_inj h.room (by have := h.front_lt; omega) hz
  · intro hz
    rw [hz, pos_zero h.front_lt]

/-- Writing an item to the cell at the tail. -/
theorem RepresentsAt.write (h : RepresentsAt sz f q b) (x : TYPE) :
    ∃ (c : CBuffer TYPE) (buffers : Heap (CBuffer TYPE)),
      (q.buffers.modify q.tail fun c => { c with item := some x }) = .ok buffers ∧
      load buffers.cell q.tail = .ok ⟨some x, c.next⟩ ∧
      c.next = link sz (pos sz f b.items.length) ∧
      buffers.cell = Function.update q.buffers.cell (pos sz f b.items.length)
        (some ⟨some x, c.next⟩) := by
  obtain ⟨c, hc, hn⟩ := h.ring _ (pos_lt h.front_lt h.room)
  have hcell := Heap.put_cell (Heap.lt_next hc) (some ⟨some x, c.next⟩)
  refine ⟨c, q.buffers.put (pos sz f b.items.length) (some ⟨some x, c.next⟩), ?_, ?_, hn,
    hcell⟩
  · rw [h.tail]
    exact Heap.modify_live hc _
  · rw [h.tail]
    apply load_live
    rw [hcell]
    exact Function.update_self _ _ _

/-- The cells after a write at the tail. -/
theorem RepresentsAt.written (h : RepresentsAt sz f q b) {c : CBuffer TYPE}
    (hn : c.next = link sz (pos sz f b.items.length)) {x : TYPE}
    {cell : Mem Nat (CBuffer TYPE)} (hcell : cell = Function.update q.buffers.cell
      (pos sz f b.items.length) (some ⟨some x, c.next⟩)) :
    (∀ i, i < sz → ∃ c, cell i = some c ∧ c.next = link sz i) ∧
    ∀ k y, (b.items ++ [x])[k]? = some y → ∃ c, cell (pos sz f k) = some c ∧ c.item = some y := by
  subst hcell
  constructor
  · intro i hi
    by_cases hit : i = pos sz f b.items.length
    · subst i
      exact ⟨_, Function.update_self _ _ _, hn⟩
    · rw [Function.update_of_ne hit]
      exact h.ring i hi
  · intro k y hk
    by_cases hkt : k = b.items.length
    · subst k
      rw [List.getElem?_concat_length] at hk
      cases hk
      exact ⟨_, Function.update_self _ _ _, rfl⟩
    · have hlt : k < b.items.length := by
        have hb := (List.getElem?_eq_some_iff.mp hk).1
        simp only [List.length_append, List.length_singleton] at hb
        omega
      rw [List.getElem?_append_left hlt] at hk
      have hne : pos sz f k ≠ pos sz f b.items.length := fun he =>
        hkt (pos_inj (Nat.lt_trans hlt h.room) h.room he)
      rw [Function.update_of_ne hne]
      exact h.contents k y hk

/-- A push while there is room appends the item. -/
theorem RepresentsAt.push_room (h : RepresentsAt sz f q b) (hs : b.stuck = false)
    (hroom : b.items.length + 1 < sz) (x : TYPE) :
    ∃ q', push q x = .ok (q', true) ∧ RepresentsAt sz f q' ⟨b.items ++ [x], false⟩ := by
  obtain ⟨c, buffers, write, read, hn, hcell⟩ := h.write x
  obtain ⟨ring, contents⟩ := h.written hn hcell
  have full : q.queueFull = false := h.full.trans hs
  have next : c.next = some (pos sz f (b.items.length + 1)) :=
    hn.trans (link_pos h.front_lt hroom)
  have unlinked : ¬ (c.next = none ∨ c.next = q.front) := by
    rw [next, h.front]
    rintro (hc | hc)
    · cases hc
    · have hz : pos sz f (b.items.length + 1) = pos sz f 0 := by
        rw [pos_zero h.front_lt]
        exact Option.some.inj hc
      have := pos_inj hroom (by omega) hz
      omega
  refine ⟨{ q with buffers, tail := c.next }, ?_, ?_⟩
  · simp only [RingBuffer.push, full, if_true, write, read, unlinked, if_false, bind, Except.bind,
      pure, Except.pure]
  · constructor
    · exact h.front_lt
    · simpa using hroom
    · exact full
    · exact h.front
    · simpa using next
    · exact ring
    · exact contents

/-- A push without room writes to the cell at the tail and gets the queue stuck. -/
theorem RepresentsAt.push_stuck (h : RepresentsAt sz f q b) (hs : b.stuck = false)
    (hroom : b.items.length + 1 = sz) (x : TYPE) :
    ∃ q', push q x = .ok (q', true) ∧ RepresentsAt sz f q' ⟨b.items, true⟩ := by
  obtain ⟨c, buffers, write, read, hn, hcell⟩ := h.write x
  obtain ⟨ring, contents⟩ := h.written hn hcell
  have full : q.queueFull = false := h.full.trans hs
  have closed : c.next = none ∨ c.next = q.front := by
    rw [hn, h.front]
    exact link_pos_last h.front_lt hroom
  refine ⟨{ q with buffers, queueFull := true }, ?_, ?_⟩
  · simp only [RingBuffer.push, full, if_true, write, read, closed, bind, Except.bind, pure,
      Except.pure]
  · constructor
    · exact h.front_lt
    · exact h.room
    · rfl
    · exact h.front
    · exact h.tail
    · exact ring
    · intro k y hk
      apply contents k y
      rw [List.getElem?_append_left (List.getElem?_eq_some_iff.mp hk).1]
      exact hk

/-- A stuck queue ignores a push. -/
theorem RepresentsAt.push_ignored (h : RepresentsAt sz f q b) (hs : b.stuck = true) (x : TYPE) :
    push q x = .ok (q, false) := by
  have full : q.queueFull = true := h.full.trans hs
  simp [RingBuffer.push, full, pure, Except.pure]

/-- A pop on an empty queue returns no item. -/
theorem RepresentsAt.pop_empty (h : RepresentsAt sz f q b) (hb : b.items = []) :
    pop q = .ok (q, .noItem) := by
  simp only [RingBuffer.pop, h.front_eq_tail.mpr hb, if_true, pure, Except.pure]

/-- Another pop returns the first item and moves the front on. -/
theorem RepresentsAt.pop_cons (h : RepresentsAt sz f q b) {x : TYPE} {rest : List TYPE}
    (hb : b.items = x :: rest) :
    ∃ q', pop q = .ok (q', .item (some x)) ∧ RepresentsAt sz (pos sz f 1) q' ⟨rest, false⟩ := by
  have hroom := h.room
  rw [hb, List.length_cons] at hroom
  have nonempty : ¬ q.front = q.tail := by
    rw [h.front_eq_tail, hb]
    simp
  obtain ⟨c, hc, hitem⟩ := h.contents 0 x (by rw [hb]; rfl)
  rw [pos_zero h.front_lt] at hc
  obtain ⟨c', hc', hn⟩ := h.ring f h.front_lt
  cases hc.symm.trans hc'
  have next : c.next = some (pos sz f 1) := by
    calc c.next = link sz (pos sz f 0) := by rw [pos_zero h.front_lt, hn]
      _ = some (pos sz f 1) := link_pos h.front_lt (by omega)
  have read : load q.buffers.cell q.front = .ok c := by
    rw [h.front]
    exact load_live hc
  refine ⟨{ q with front := c.next, queueFull := false }, ?_, ?_⟩
  · simp only [RingBuffer.pop, nonempty, if_false, read, hitem, bind, Except.bind, pure,
      Except.pure]
  · constructor
    · exact pos_lt h.front_lt (by omega)
    · exact Nat.lt_of_succ_lt hroom
    · rfl
    · exact next
    · rw [pos_shift h.front_lt hroom]
      simpa [hb] using h.tail
    · exact h.ring
    · intro k y hk
      have hlt := (List.getElem?_eq_some_iff.mp hk).1
      have hlt' : k < rest.length := hlt
      rw [pos_shift h.front_lt (by omega)]
      apply h.contents (k + 1) y
      rw [hb]
      exact hk

end Steps

/-- The queue says that it is empty exactly when there are no items. -/
theorem Represents.isEmpty {q : DataQueue TYPE} {b : Contents TYPE} (h : Represents sz q b) :
    isEmpty q = b.items.isEmpty := by
  obtain ⟨f, h⟩ := h
  rw [Bool.eq_iff_iff, List.isEmpty_iff, ← h.front_eq_tail]
  simp [RingBuffer.isEmpty]

/-- Every call on the ring does what it does on the list. -/
theorem callStep_refines (hsz : 1 ≤ sz) (q : DataQueue TYPE) (b : Contents TYPE)
    (call : Call TYPE) (h : Represents sz q b) (_ : (bounded TYPE (sz - 1)).legal b call) :
    ∃ q', callStep q call = .ok (q', (bounded TYPE (sz - 1)).answer b call) ∧
      Represents sz q' ((bounded TYPE (sz - 1)).next b call) := by
  obtain ⟨f, h⟩ := h
  cases call with
  | push x =>
      by_cases hs : b.stuck = true
      · refine ⟨q, ?_, f, ?_⟩
        · simp only [callStep, h.push_ignored hs x, Except.map, bounded, hs, Bool.not_true]
        · simpa only [bounded, hs, if_true] using h
      · have hs' : b.stuck = false := by simpa using hs
        have room := h.room
        by_cases hroom : b.items.length < sz - 1
        · obtain ⟨q', run, h'⟩ := h.push_room hs' (by omega) x
          refine ⟨q', ?_, f, ?_⟩
          · simp only [callStep, run, Except.map, bounded, hs', Bool.not_false]
          · simpa only [bounded, hs', Bool.false_eq_true, if_false, if_pos hroom] using h'
        · obtain ⟨q', run, h'⟩ := h.push_stuck hs' (by omega) x
          refine ⟨q', ?_, f, ?_⟩
          · simp only [callStep, run, Except.map, bounded, hs', Bool.not_false]
          · simpa only [bounded, hs', Bool.false_eq_true, if_false, if_neg hroom] using h'
  | pop =>
      obtain ⟨items, stuck⟩ := b
      cases items with
      | nil =>
          refine ⟨q, ?_, f, h⟩
          simp only [callStep, h.pop_empty rfl, Except.map, bounded]
      | cons x rest =>
          obtain ⟨q', run, h'⟩ := h.pop_cons rfl
          refine ⟨q', ?_, _, h'⟩
          simp only [callStep, run, Except.map, bounded]
  | isEmpty =>
      refine ⟨q, ?_, f, h⟩
      simp only [callStep, Represents.isEmpty ⟨f, h⟩, bounded]

/-- A push keeps the items of the queue and may append its own. -/
theorem Represents.push (hsz : 1 ≤ sz) {q : DataQueue TYPE} {b : Contents TYPE}
    (h : Represents sz q b) (x : TYPE) : ∃ q' accepted b', push q x = .ok (q', accepted) ∧
      Represents sz q' b' ∧ (b'.items = b.items ∨ b'.items = b.items ++ [x]) := by
  obtain ⟨q', run, h'⟩ := callStep_refines hsz q b (.push x) h trivial
  cases hp : RingBuffer.push q x with
  | error e => simp [callStep, hp, Except.map] at run
  | ok r =>
      simp only [callStep, hp, Except.map, Except.ok.injEq, Prod.mk.injEq] at run
      refine ⟨q', r.2, _, by rw [← run.1], h', ?_⟩
      simp only [bounded]
      split_ifs <;> simp

/-- A pop on a queue that is not empty returns its first item. -/
theorem Represents.pop {q : DataQueue TYPE} {b : Contents TYPE} (h : Represents sz q b)
    (nonempty : RingBuffer.isEmpty q = false) : ∃ x rest q', b.items = x :: rest ∧
      pop q = .ok (q', .item (some x)) ∧ Represents sz q' ⟨rest, false⟩ := by
  rw [h.isEmpty] at nonempty
  obtain ⟨f, h⟩ := h
  cases hb : b.items with
  | nil => simp [hb] at nonempty
  | cons x rest =>
      obtain ⟨q', run, h'⟩ := h.pop_cons hb
      exact ⟨x, rest, q', rfl, run, _, h'⟩

/-- A queue represents one list of items only. -/
theorem Represents.unique {q : DataQueue TYPE} {b b' : Contents TYPE} (h : Represents sz q b)
    (h' : Represents sz q b') : b.items = b'.items := by
  obtain ⟨f, h⟩ := h
  obtain ⟨f', h'⟩ := h'
  obtain rfl : f = f' := Option.some.inj (h.front.symm.trans h'.front)
  have lengths : b.items.length = b'.items.length :=
    pos_inj h.room h'.room (Option.some.inj (h.tail.symm.trans h'.tail))
  apply List.ext_getElem lengths
  intro k hk hk'
  obtain ⟨c, here, item⟩ := h.contents k _ (List.getElem?_eq_getElem hk)
  obtain ⟨c', here', item'⟩ := h'.contents k _ (List.getElem?_eq_getElem hk')
  cases here.symm.trans here'
  exact Option.some.inj (item.symm.trans item')

/-- Every sequence of calls on a new queue answers as the list does. -/
theorem runCalls_dataQueue (hsz : 1 ≤ sz) (calls : List (Call TYPE)) :
    ∃ q q', dataQueue TYPE sz = .ok q ∧
      runCalls callStep q calls = .ok (q', (bounded TYPE (sz - 1)).answers ⟨[], false⟩ calls) ∧
      Represents sz q' ((bounded TYPE (sz - 1)).after ⟨[], false⟩ calls) := by
  obtain ⟨q, new, h⟩ := represents_initial TYPE hsz
  obtain ⟨q', run, h'⟩ := runCalls_refines (callStep_refines hsz) h
    (Machine.legal_of_forall _ (fun _ _ => trivial) _ calls)
  exact ⟨q, q', new, run, h'⟩

end SamplePrograms.RingBuffer
