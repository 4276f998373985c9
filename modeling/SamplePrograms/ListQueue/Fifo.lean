import SamplePrograms.ListQueue.Model
import SamplePrograms.Library.CallSequences
import Mathlib.Data.List.ReduceOption

/-!
# The queue of `prog_queue.c` is first in, first out

The links are no doubly linked ring from three nodes on, but two of them are
always right. Following `prev` from the head passes the queued nodes in their
order up to the last one, and `next` of the head is the last node. Push and pop
read no other link.
-/

namespace SamplePrograms.ListQueue
open Memory Calls

variable {A : Type*}

/-- The queue holds the nodes of the list, and no other node is in memory. -/
structure Represents (w : World A) (l : List A) : Prop where
  count : w.self.count = l.length
  nodup : l.Nodup
  live : ∀ a, w.nodes a ≠ none ↔ a ∈ l
  chain : ∀ front last, l = front ++ [last] →
    Segment w.nodes QueueNode.prev w.self.head front (some last)
  ends : ∀ last, l.getLast? = some last →
    ∃ h n, w.self.head = some h ∧ w.nodes h = some n ∧ n.next = some last

/-- A queue that is not empty, from its links. -/
theorem represents_snoc {w : World A} {front : List A} {last h : A} {n : QueueNode A}
    (count : w.self.count = front.length + 1) (nodup : (front ++ [last]).Nodup)
    (live : ∀ a, w.nodes a ≠ none ↔ a ∈ front ++ [last])
    (chain : Segment w.nodes QueueNode.prev w.self.head front (some last))
    (head : w.self.head = some h) (hn : w.nodes h = some n) (next : n.next = some last) :
    Represents w (front ++ [last]) where
  count := by simpa using count
  nodup := nodup
  live := live
  chain := by
    intro front' last' he
    obtain ⟨rfl, hl⟩ := List.append_inj' he rfl
    cases hl
    exact chain
  ends := by
    intro last' hl
    rw [List.getLast?_concat] at hl
    cases hl
    exact ⟨h, n, head, hn, next⟩

theorem represents_initial : Represents (initializeQueueListImp (A := A) fun _ => none) [] where
  count := rfl
  nodup := List.nodup_nil
  live := by simp [initializeQueueListImp]
  chain := by simp
  ends := by simp

/-- A node in the queue is in memory. -/
theorem Represents.exists_node {w : World A} {l : List A} (h : Represents w l) {a : A}
    (ha : a ∈ l) : ∃ n, w.nodes a = some n :=
  Option.ne_none_iff_exists'.mp ((h.live a).mpr ha)

/-- The head of a queue is its first node. -/
theorem Represents.head {w : World A} {a : A} {rest : List A} (h : Represents w (a :: rest)) :
    w.self.head = some a := by
  rcases List.eq_nil_or_concat' rest with rfl | ⟨front, last, rfl⟩
  · exact h.chain [] a rfl
  · have hc := h.chain (a :: front) last rfl
    exact hc.1

variable [DecidableEq A]

/-- A write to a live cell keeps the set of live cells. -/
theorem live_update {nodes : Mem A (QueueNode A)} {a : A} {old : QueueNode A}
    (h : nodes a = some old) (new : QueueNode A) (b : A) :
    Function.update nodes a (some new) b ≠ none ↔ nodes b ≠ none := by
  by_cases hb : b = a
  · subst b
    simp [h]
  · simp [hb]

/-- The first push makes a ring of one node. -/
theorem push_empty {w : World A} (empty : w.self.count = 0) {a : A} {n : QueueNode A}
    (ha : w.nodes a = some n) :
    pushQueueListImp w (some a) =
      .ok ⟨⟨1, some a⟩, Function.update w.nodes a (some ⟨some a, some a⟩)⟩ := by
  have first := setNext_live ha (some a)
  have second := setPrev_live (Function.update_self a (some { n with next := some a }) w.nodes)
    (some a)
  simp only [pushQueueListImp, empty, if_true, first, second, bind, Except.bind, pure, Except.pure,
    Function.update_idem]

/-- A push on a queue that is not empty writes to the node, to the head and to the
node that `next` of the head names. -/
theorem push_linked {w : World A} (nonempty : w.self.count ≠ 0) {a h z : A}
    {n c nz : QueueNode A} {nodes : Mem A (QueueNode A)} (head : w.self.head = some h)
    (hh : w.nodes h = some n) (last : n.next = some z) (ha : w.nodes a = some c) (hah : h ≠ a)
    (middle : nodes = Function.update (Function.update w.nodes a (some ⟨some h, some z⟩)) h
      (some { n with next := some a })) (hz : nodes z = some nz) :
    pushQueueListImp w (some a) = .ok ⟨⟨w.self.count + 1, some h⟩,
      Function.update nodes z (some { nz with prev := some a })⟩ := by
  have first := setNext_live ha (some h)
  have second := setPrev_live (Function.update_self a (some { c with next := some h }) w.nodes)
    (some z)
  rw [Function.update_idem] at second
  have third := setNext_live
    ((Function.update_of_ne hah (some ⟨some h, some z⟩) w.nodes).trans hh) (some a)
  rw [← middle] at third
  have fourth := setPrev_live hz (some a)
  simp only [pushQueueListImp, nonempty, if_false, head, load_live hh, last, first, second, third,
    fourth, bind, Except.bind, pure, Except.pure]

omit [DecidableEq A] in
theorem nodup_snoc {l : List A} (nodup : l.Nodup) {a : A} (new : a ∉ l) : (l ++ [a]).Nodup :=
  List.nodup_append.mpr ⟨nodup, List.nodup_singleton a, fun _ hb _ hc he =>
    new (List.mem_singleton.mp hc ▸ he ▸ hb)⟩

theorem callStep_push {w w' : World A} {a : A} {contents : QueueNode A}
    (h : pushQueueListImp ⟨w.self, Function.update w.nodes a (some contents)⟩ (some a) = .ok w') :
    callStep w (.push a contents) = .ok (w', none) := by
  rw [callStep, h]
  rfl

/-- A push on an empty queue. -/
theorem Represents.push_nil {w : World A} (h : Represents w []) (a : A) (contents : QueueNode A) :
    ∃ w', callStep w (.push a contents) = .ok (w', none) ∧ Represents w' [a] ∧
      w'.nodes a = some ⟨some a, some a⟩ := by
  have cell := Function.update_self a (some contents) w.nodes
  have pushed := push_empty (w := ⟨w.self, Function.update w.nodes a (some contents)⟩) h.count cell
  rw [Function.update_idem] at pushed
  refine ⟨_, callStep_push pushed, ?_, Function.update_self _ _ _⟩
  change Represents _ ([] ++ [a])
  apply represents_snoc (h := a)
  · rfl
  · exact List.nodup_singleton a
  · intro b
    have hb := h.live b
    by_cases hba : b = a
    · subst b
      simp
    · simpa [hba] using hb
  · rfl
  · rfl
  · exact Function.update_self _ _ _
  · rfl

/-- A push on a queue that is not empty. -/
theorem Represents.push_snoc {w : World A} {front : List A} {z : A}
    (h : Represents w (front ++ [z])) {a : A} (new : a ∉ front ++ [z])
    (contents : QueueNode A) :
    ∃ w', callStep w (.push a contents) = .ok (w', none) ∧
      Represents w' (front ++ [z] ++ [a]) ∧ w'.nodes a = some ⟨w'.self.head, some z⟩ := by
  obtain ⟨x, n, head, hx, next⟩ := h.ends z List.getLast?_concat
  have hz : z ∈ front ++ [z] := by simp
  have hxm : x ∈ front ++ [z] := (h.live x).mp (by simp [hx])
  have hxa : x ≠ a := fun he => new (he ▸ hxm)
  have hza : z ≠ a := fun he => new (he ▸ hz)
  have hzf : z ∉ front := fun hm => by simpa using List.disjoint_of_nodup_append h.nodup hm
  have haf : a ∉ front := fun hm => new (by simp [hm])
  -- the memory with the node of the caller, and after the writes to node and head
  let m := Function.update w.nodes a (some contents)
  let linked := Function.update m a (some ⟨some x, some z⟩)
  let closed := Function.update linked x (some { n with next := some a })
  have hm : m x = some n := by simpa [m, hxa] using hx
  have hl : linked x = some n := by simpa [linked, hxa] using hm
  obtain ⟨nz, hnz⟩ : ∃ nz, closed z = some nz := by
    obtain ⟨nz, hz'⟩ := h.exists_node hz
    refine Option.ne_none_iff_exists'.mp ((live_update hl _ z).mpr ?_)
    simp [linked, m, hza, hz']
  have pushed := push_linked (w := ⟨w.self, m⟩) (by simp [h.count]) head hm next
    (Function.update_self _ _ _) hxa rfl hnz
  obtain ⟨n', hn', next'⟩ : ∃ n', Function.update closed z (some { nz with prev := some a }) x =
      some n' ∧ n'.next = some a := by
    by_cases hxz : x = z
    · subst z
      cases (Function.update_self x _ linked).symm.trans hnz
      exact ⟨_, Function.update_self _ _ _, rfl⟩
    · rw [Function.update_of_ne hxz]
      exact ⟨_, Function.update_self _ _ _, rfl⟩
  have path : Segment closed QueueNode.prev w.self.head front (some z) :=
    (((h.chain front z rfl).update haf _).update haf _).rewrite hl rfl
  refine ⟨_, callStep_push pushed, ?_, ?_⟩
  · apply represents_snoc (h := x) (n := n')
    · simp [h.count]
    · exact nodup_snoc h.nodup new
    · intro b
      have hb := h.live b
      rw [live_update hnz, live_update hl]
      by_cases hba : b = a
      · subst b
        simp [linked]
      · simpa [linked, m, hba] using hb
    · rw [head] at path
      exact (path.update hzf _).append (.cons (Function.update_self _ _ _) .nil)
    · rfl
    · exact hn'
    · exact next'
  · dsimp only
    rw [Function.update_of_ne hza.symm, Function.update_of_ne hxa.symm]
    exact Function.update_self _ _ _

/-- A push puts the node at the end of the queue. -/
theorem Represents.push {w : World A} {l : List A} (h : Represents w l) {a : A}
    (new : a ∉ l) (contents : QueueNode A) :
    ∃ w', callStep w (.push a contents) = .ok (w', none) ∧ Represents w' (l ++ [a]) := by
  rcases List.eq_nil_or_concat' l with rfl | ⟨front, z, rfl⟩
  · obtain ⟨w', run, h', -⟩ := h.push_nil a contents
    exact ⟨w', run, h'⟩
  · obtain ⟨w', run, h', -⟩ := h.push_snoc new contents
    exact ⟨w', run, h'⟩

/-- The last pop takes the head and leaves it without links. -/
theorem pop_last {w : World A} (one : w.self.count = 1) {a : A} {n : QueueNode A}
    (head : w.self.head = some a) (ha : w.nodes a = some n) :
    popQueueListImp w = .ok (⟨⟨0, some a⟩, Function.update w.nodes a (some ⟨none, none⟩)⟩,
      some a) := by
  have first := setNext_live ha none
  have second := setPrev_live (Function.update_self a (some { n with next := none }) w.nodes) none
  simp [popQueueListImp, one, head, load_live ha, first, second, bind, Except.bind, pure,
    Except.pure]

/-- Another pop links the node after the head to the last node, and takes the head. -/
theorem pop_linked {w : World A} (more : 1 < w.self.count) {a b z : A} {nz nb : QueueNode A}
    {nodes : Mem A (QueueNode A)} (head : w.self.head = some a)
    (ha : w.nodes a = some ⟨some z, some b⟩) (hz : w.nodes z = some nz) (hza : z ≠ a)
    (hba : b ≠ a) (middle : nodes = Function.update w.nodes z (some { nz with next := some b }))
    (hb : nodes b = some nb) :
    popQueueListImp w = .ok (⟨⟨w.self.count - 1, some b⟩,
      Function.update (Function.update nodes b (some { nb with next := some z })) a
        (some ⟨none, none⟩)⟩, some a) := by
  have first := setNext_live hz (some b)
  rw [← middle] at first
  have second := setNext_live hb (some z)
  have last : Function.update nodes b (some { nb with next := some z }) a =
      some ⟨some z, some b⟩ := by
    rw [Function.update_of_ne hba.symm, middle, Function.update_of_ne hza.symm, ha]
  have third := setNext_live last none
  have fourth := setPrev_live (Function.update_self a (some ⟨none, some b⟩)
    (Function.update nodes b (some { nb with next := some z }))) none
  have h0 : w.self.count ≠ 0 := by omega
  have h1 : w.self.count ≠ 1 := by omega
  simp [popQueueListImp, h0, h1, head, load_live ha, first, second, third, fourth, bind,
    Except.bind, pure, Except.pure]

theorem callStep_pop {w w' : World A} {a : A} {n : QueueNode A}
    (h : popQueueListImp w = .ok (w', some a)) (ha : w'.nodes a = some n) :
    callStep w .pop = .ok (⟨w'.self, Function.update w'.nodes a none⟩, some a) := by
  simp only [callStep, h, release_live ha, bind, Except.bind, pure, Except.pure]

/-- A pop on a queue with one node. -/
theorem Represents.pop_singleton {w : World A} {a : A} (h : Represents w [a]) :
    ∃ w', callStep w .pop = .ok (w', some a) ∧ Represents w' [] ∧ w'.self.head = some a := by
  obtain ⟨n, ha⟩ := h.exists_node (List.mem_singleton_self a)
  refine ⟨_, callStep_pop (pop_last h.count h.head ha) (Function.update_self _ _ _), ?_, rfl⟩
  rw [Function.update_idem]
  constructor
  · rfl
  · exact List.nodup_nil
  · intro b
    have hb := h.live b
    by_cases hba : b = a
    · subst b
      simp
    · simpa [hba] using hb
  · simp
  · simp

/-- A pop on a queue with more nodes. -/
theorem Represents.pop_cons {w : World A} {a z : A} {front : List A}
    (h : Represents w (a :: (front ++ [z]))) :
    ∃ w', callStep w .pop = .ok (w', some a) ∧ Represents w' (front ++ [z]) ∧
      ∃ n n', w.nodes z = some n ∧ w'.nodes z = some n' ∧ n'.next = w'.self.head ∧
        n'.prev = n.prev := by
  have hnd := List.nodup_cons.mp h.nodup
  obtain ⟨x, n, head, hx, next⟩ :=
    h.ends z (List.getLast?_concat : (a :: front ++ [z]).getLast? = some z)
  cases h.head.symm.trans head
  obtain ⟨-, n', hn', path⟩ := h.chain (a :: front) z rfl
  cases hx.symm.trans hn'
  -- the node after the head, which `prev` of the head names
  obtain ⟨b, prev, hbm⟩ : ∃ b, n.prev = some b ∧ b ∈ front ++ [z] := by
    cases front with
    | nil => exact ⟨z, path, by simp⟩
    | cons b rest => exact ⟨b, path.1, by simp⟩
  obtain ⟨x, y⟩ := n
  cases next
  cases prev
  have hza : z ≠ a := fun he => hnd.1 (by simp [← he])
  have hba : b ≠ a := fun he => hnd.1 (he ▸ hbm)
  have haf : a ∉ front := fun hm => hnd.1 (by simp [hm])
  obtain ⟨nz, hnz⟩ := h.exists_node (a := z) (by simp)
  let opened := Function.update w.nodes z (some { nz with next := some b })
  obtain ⟨nb, hnb⟩ : ∃ nb, opened b = some nb := by
    obtain ⟨nb, hb⟩ := h.exists_node (List.mem_cons_of_mem a hbm)
    exact Option.ne_none_iff_exists'.mp ((live_update hnz _ b).mpr (by simp [hb]))
  have count : 1 < w.self.count := by
    rw [h.count]
    simp
  have reopened : Segment opened QueueNode.prev (some b) front (some z) := path.rewrite hnz rfl
  have relinked : Segment (Function.update opened b (some { nb with next := some z }))
      QueueNode.prev (some b) front (some z) := reopened.rewrite hnb rfl
  have popped := pop_linked count head hx hnz hza hba rfl hnb
  refine ⟨_, callStep_pop popped (Function.update_self _ _ _), ?_, ?_⟩
  · rw [Function.update_idem]
    apply represents_snoc (h := b) (n := { nb with next := some z })
    · simp [h.count]
    · exact hnd.2
    · intro c
      have hc := h.live c
      by_cases hca : c = a
      · subst c
        simpa using hnd.1
      · dsimp only
        rw [Function.update_of_ne hca, live_update hnb, live_update hnz, hc]
        simp [hca]
    · exact relinked.update haf _
    · rfl
    · dsimp only
      rw [Function.update_of_ne hba]
      exact Function.update_self _ _ _
    · rfl
  · dsimp only
    rw [Function.update_idem, Function.update_of_ne hza]
    by_cases hzb : z = b
    · subst b
      cases (Function.update_self z _ w.nodes).symm.trans hnb
      exact ⟨nz, _, hnz, Function.update_self _ _ _, rfl, rfl⟩
    · rw [Function.update_of_ne hzb]
      exact ⟨nz, _, hnz, Function.update_self _ _ _, rfl, rfl⟩

/-- A pop takes the first node off the queue. -/
theorem Represents.pop {w : World A} {a : A} {rest : List A} (h : Represents w (a :: rest)) :
    ∃ w', callStep w .pop = .ok (w', some a) ∧ Represents w' rest := by
  rcases List.eq_nil_or_concat' rest with rfl | ⟨front, z, rfl⟩
  · obtain ⟨w', run, h', -⟩ := h.pop_singleton
    exact ⟨w', run, h'⟩
  · obtain ⟨w', run, h', -⟩ := h.pop_cons
    exact ⟨w', run, h'⟩

/-! ## Sequences of calls -/

section Calls
variable {A : Type*}

/-- The queue as a list. A node that is queued is not pushed again, and an empty
queue is not popped. -/
def fifo : Machine (List A) (Call A) (Option A) where
  next := fun l call => match call with
    | .push a _ => l ++ [a]
    | .pop => l.tail
  answer := fun l call => match call with
    | .push _ _ => none
    | .pop => l.head?
  legal := fun l call => match call with
    | .push a _ => a ∉ l
    | .pop => l ≠ []

@[simp] theorem fifo_next_push (l : List A) (a : A) (contents : QueueNode A) :
    fifo.next l (.push a contents) = l ++ [a] := rfl
@[simp] theorem fifo_next_pop (l : List A) : fifo.next l .pop = l.tail := rfl
@[simp] theorem fifo_answer_push (l : List A) (a : A) (contents : QueueNode A) :
    fifo.answer l (.push a contents) = none := rfl
@[simp] theorem fifo_answer_pop (l : List A) : fifo.answer l .pop = l.head? := rfl

/-- The nodes of the pushes of a list of calls. -/
def pushes : List (Call A) → List A
  | [] => []
  | .push a _ :: rest => a :: pushes rest
  | .pop :: rest => pushes rest

/-- The number of pops of a list of calls. -/
def popCount : List (Call A) → Nat
  | [] => 0
  | .push _ _ :: rest => popCount rest
  | .pop :: rest => popCount rest + 1

/-- What was popped, followed by what is queued, is what was queued or pushed. -/
theorem popped_append {l : List A} {calls : List (Call A)} (legal : fifo.Legal l calls) :
    (fifo.answers l calls).reduceOption ++ fifo.after l calls = l ++ pushes calls := by
  induction calls generalizing l with
  | nil => simp [pushes]
  | cons call rest ih =>
      have hrest := ih legal.2
      cases call with
      | push a contents =>
          simpa [pushes, List.reduceOption_cons_of_none] using hrest
      | pop =>
          obtain ⟨a, tail, rfl⟩ := List.exists_cons_of_ne_nil legal.1
          simpa [pushes, List.reduceOption_cons_of_some] using hrest

/-- The length of the queue and the pops are the pushes. -/
theorem length_after {l : List A} {calls : List (Call A)} (legal : fifo.Legal l calls) :
    (fifo.after l calls).length + popCount calls = l.length + (pushes calls).length := by
  induction calls generalizing l with
  | nil => simp [pushes, popCount]
  | cons call rest ih =>
      have hrest := ih legal.2
      cases call with
      | push a contents =>
          simp only [fifo_next_push, List.length_append, List.length_singleton] at hrest
          simp only [Machine.after_cons, fifo_next_push, pushes, popCount, List.length_cons]
          omega
      | pop =>
          obtain ⟨a, tail, rfl⟩ := List.exists_cons_of_ne_nil legal.1
          simp only [fifo_next_pop, List.tail_cons] at hrest
          simp only [Machine.after_cons, fifo_next_pop, List.tail_cons, pushes, popCount,
            List.length_cons]
          omega

end Calls

/-- Every legal call does to the queue what it does to the list. -/
theorem callStep_refines (w : World A) (l : List A) (call : Call A) (h : Represents w l)
    (legal : fifo.legal l call) :
    ∃ w', callStep w call = .ok (w', fifo.answer l call) ∧ Represents w' (fifo.next l call) := by
  cases call with
  | push a contents => exact h.push legal contents
  | pop =>
      obtain ⟨a, rest, rfl⟩ := List.exists_cons_of_ne_nil legal
      exact h.pop

/-- For every sequence of pushes of nodes not queued and pops of a queue that is
not empty: no call faults, although only queued nodes are in memory; what is
popped and then what is queued are the pushed nodes in their order; and the
count is the number of pushes less the number of pops. -/
theorem queue_fifo (calls : List (Call A)) (legal : fifo.Legal [] calls) :
    ∃ w queued popped, runCalls callStep (initializeQueueListImp fun _ => none) calls =
        .ok (w, popped) ∧
      popped.reduceOption ++ queued = pushes calls ∧
      w.self.count = queued.length ∧ w.self.count + popCount calls = (pushes calls).length ∧
      ∀ a, w.nodes a ≠ none ↔ a ∈ queued := by
  obtain ⟨w, run, h⟩ := runCalls_refines callStep_refines represents_initial legal
  refine ⟨w, fifo.after [] calls, fifo.answers [] calls, run, ?_, h.count, ?_, h.live⟩
  · simpa using popped_append legal
  · rw [h.count]
    simpa using length_after legal

/-- Three nodes are pushed, with a pop in between, and the freed node is pushed again. -/
def pushPop : List (Call Nat) :=
  [.push 10 ⟨none, none⟩, .push 11 ⟨some 7, none⟩, .push 12 ⟨none, none⟩, .pop,
    .push 10 ⟨some 10, some 12⟩, .pop]

theorem queue_fifo_pushPop : ∃ w queued popped,
    runCalls callStep (initializeQueueListImp fun _ => none) pushPop = .ok (w, popped) ∧
      popped.reduceOption ++ queued = [10, 11, 12, 10] ∧ w.self.count + 2 = 4 := by
  obtain ⟨w, queued, popped, run, order, -, count, -⟩ :=
    queue_fifo pushPop (by simp [pushPop, Machine.Legal, fifo])
  exact ⟨w, queued, popped, run, order, count⟩

end SamplePrograms.ListQueue
