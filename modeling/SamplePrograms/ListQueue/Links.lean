import SamplePrograms.ListQueue.Fifo

/-!
# The links of the queue of `prog_queue.c`

A push puts the new node on the wrong side of the head. The links are a doubly
linked ring for two nodes, and for one node that was pushed on an empty queue.
When a pop leaves one of two nodes, that node points back to the node that was
popped, and from three nodes on the node after the head does not point back to
it. The head of an empty queue is the node that was popped last.
-/

namespace SamplePrograms.ListQueue
open Memory Calls

variable {A : Type*}

/-- The field `next` of a node in memory. -/
def nextOf (w : World A) (a : A) : Option A := (w.nodes a).bind QueueNode.next

/-- The field `prev` of a node in memory. -/
def prevOf (w : World A) (a : A) : Option A := (w.nodes a).bind QueueNode.prev

/-- Following the links from the head passes every node of the list once before it is back
at the head. -/
def Around (link : A → Option A) (head : Option A) (l : List A) : Prop :=
  l = [] ∨ ∃ h rest, head = some h ∧ (h :: rest).Perm l ∧
    (h :: (rest ++ [h])).IsChain fun a b => link a = some b

/-- The links of the queued nodes form a doubly linked ring. -/
structure ProperRing (w : World A) (l : List A) : Prop where
  count : w.self.count = l.length
  next_prev : ∀ x ∈ l, ∃ y, nextOf w x = some y ∧ prevOf w y = some x
  prev_next : ∀ x ∈ l, ∃ y, prevOf w x = some y ∧ nextOf w y = some x
  forward : Around (nextOf w) w.self.head l
  backward : Around (prevOf w) w.self.head l

/-- The last node points on to the head, and back to the node before it. -/
structure LastLinks (w : World A) (l : List A) : Prop where
  next : ∀ z, l.getLast? = some z → nextOf w z = w.self.head
  prev : ∀ front y z, l = front ++ [y, z] → prevOf w z = some y

theorem LastLinks.nil (w : World A) : LastLinks w [] where
  next := by simp
  prev := by simp

/-! ## Links of a represented queue -/

section Represented
variable {w : World A}

theorem Represents.nextOf_head {a z : A} {rest : List A} (h : Represents w (a :: rest))
    (last : (a :: rest).getLast? = some z) : nextOf w a = some z := by
  obtain ⟨x, n, head, hn, next⟩ := h.ends z last
  cases h.head.symm.trans head
  rw [nextOf, hn]
  exact next

theorem Represents.prevOf_head {a b : A} {rest : List A} (h : Represents w (a :: b :: rest)) :
    prevOf w a = some b := by
  rcases List.eq_nil_or_concat' rest with rfl | ⟨front, z, rfl⟩
  · obtain ⟨-, n, hn, link⟩ := h.chain [a] b rfl
    rw [prevOf, hn]
    exact link
  · obtain ⟨-, n, hn, link, -⟩ := h.chain (a :: b :: front) z rfl
    rw [prevOf, hn]
    exact link

/-- From three nodes on, the node after the head does not point back to it. -/
theorem not_properRing_of_three {a b c : A} {rest : List A}
    (h : Represents w (a :: b :: c :: rest)) (links : LastLinks w (a :: b :: c :: rest)) :
    ¬ ProperRing w (a :: b :: c :: rest) := by
  intro proper
  obtain ⟨pre, z, hz⟩ : ∃ pre z, c :: rest = pre ++ [z] :=
    (List.eq_nil_or_concat' (c :: rest)).resolve_left (by simp)
  obtain ⟨front, y, hy⟩ : ∃ front y, b :: pre = front ++ [y] :=
    (List.eq_nil_or_concat' (b :: pre)).resolve_left (by simp)
  have split : b :: c :: rest = front ++ [y, z] := by
    calc b :: c :: rest
        = b :: pre ++ [z] := by rw [hz, List.cons_append]
      _ = front ++ [y, z] := by rw [hy, List.append_assoc, List.singleton_append]
  have last : (a :: b :: c :: rest).getLast? = some z := by
    have whole : a :: b :: c :: rest = a :: (front ++ [y]) ++ [z] := by simp [split]
    rw [whole, List.getLast?_concat]
  have behind : prevOf w z = some y := links.prev (a :: front) y z (by rw [split, List.cons_append])
  -- the node after the head is the last one, and the node before it is not the head
  obtain ⟨z', next, prev⟩ := proper.next_prev a List.mem_cons_self
  cases (h.nextOf_head last).symm.trans next
  cases behind.symm.trans prev
  have fresh := (List.nodup_cons.mp h.nodup).1
  rw [split] at fresh
  exact fresh (by simp)

/-- Two nodes form a ring. -/
theorem properRing_of_two {a z : A} (h : Represents w [a, z]) (links : LastLinks w [a, z]) :
    ProperRing w [a, z] := by
  have next_a : nextOf w a = some z := h.nextOf_head rfl
  have next_z : nextOf w z = some a := (links.next z rfl).trans h.head
  have prev_a : prevOf w a = some z := h.prevOf_head
  have prev_z : prevOf w z = some a := links.prev [] a z rfl
  refine ⟨h.count, ?_, ?_, .inr ⟨a, [z], h.head, .refl _, ?_⟩, .inr ⟨a, [z], h.head, .refl _, ?_⟩⟩
  · simp [next_a, next_z, prev_a, prev_z]
  · simp [next_a, next_z, prev_a, prev_z]
  · simp [next_a, next_z]
  · simp [prev_a, prev_z]

/-- One node forms a ring if it points back to itself. -/
theorem properRing_singleton_iff {a : A} (h : Represents w [a]) :
    ProperRing w [a] ↔ prevOf w a = some a := by
  have next_a : nextOf w a = some a := h.nextOf_head rfl
  constructor
  · intro proper
    obtain ⟨y, next, prev⟩ := proper.next_prev a (List.mem_singleton_self a)
    cases next_a.symm.trans next
    exact prev
  · intro prev_a
    refine ⟨h.count, ?_, ?_, .inr ⟨a, [], h.head, .refl _, ?_⟩, .inr ⟨a, [], h.head, .refl _, ?_⟩⟩
    · simp [next_a, prev_a]
    · simp [next_a, prev_a]
    · simp [next_a]
    · simp [prev_a]

/-- The links form a ring exactly when at most two nodes are queued, and a single one points
back to itself. -/
theorem properRing_iff {l : List A} (h : Represents w l) (links : LastLinks w l) :
    ProperRing w l ↔ l.length ≤ 2 ∧ ∀ a, l = [a] → prevOf w a = some a := by
  match l with
  | [] => exact ⟨fun _ => by simp, fun _ => ⟨h.count, by simp, by simp, .inl rfl, .inl rfl⟩⟩
  | [a] => simpa using properRing_singleton_iff h
  | [a, z] => exact ⟨fun _ => by simp, fun _ => properRing_of_two h links⟩
  | a :: b :: c :: rest =>
      have three := not_properRing_of_three h links
      simp [three]

end Represented

/-! ## Calls -/

/-- The call is a push. -/
def Call.isPush : Call A → Bool
  | .push _ _ => true
  | .pop => false

section Step
variable [DecidableEq A] {w : World A}

/-- A push links the new node behind the last one. -/
theorem Represents.push_links {l : List A} (h : Represents w l) (links : LastLinks w l) {a : A}
    (new : a ∉ l) (contents : QueueNode A) :
    ∃ w', callStep w (.push a contents) = .ok (w', none) ∧ Represents w' (l ++ [a]) ∧
      LastLinks w' (l ++ [a]) ∧ (l = [] → prevOf w' a = some a) := by
  rcases List.eq_nil_or_concat' l with rfl | ⟨front, z, rfl⟩
  · obtain ⟨w', run, h', node⟩ := h.push_nil a contents
    refine ⟨w', run, h', ⟨?_, ?_⟩, fun _ => ?_⟩
    · intro z hz
      obtain rfl : a = z := by simpa using hz
      rw [nextOf, node, h'.head]
      rfl
    · intro front y z split
      have length := congrArg List.length split
      simp at length
    · rw [prevOf, node]
      rfl
  · obtain ⟨w', run, h', node⟩ := h.push_snoc new contents
    refine ⟨w', run, h', ⟨?_, ?_⟩, by simp⟩
    · intro z' hz'
      rw [List.getLast?_concat] at hz'
      cases hz'
      rw [nextOf, node]
      rfl
    · intro front' y z' split
      have split' : front ++ [z, a] = front' ++ [y, z'] := by simpa using split
      obtain ⟨-, same⟩ := List.append_inj' split' rfl
      cases same
      rw [prevOf, node]
      rfl

/-- A pop keeps the links of the last node, if it is not the last node itself. -/
theorem Represents.pop_links {a : A} {rest : List A} (h : Represents w (a :: rest))
    (links : LastLinks w (a :: rest)) :
    ∃ w', callStep w .pop = .ok (w', some a) ∧ Represents w' rest ∧ LastLinks w' rest ∧
      (rest = [] → w'.self.head = some a) ∧ ∀ z, rest = [z] → prevOf w' z = some a := by
  rcases List.eq_nil_or_concat' rest with rfl | ⟨front, z, rfl⟩
  · obtain ⟨w', run, h', head⟩ := h.pop_singleton
    exact ⟨w', run, h', .nil w', fun _ => head, by simp⟩
  · obtain ⟨w', run, h', n, n', before, after, next, prev⟩ := h.pop_cons
    have same : prevOf w' z = prevOf w z := by
      simp only [prevOf, before, after, Option.bind_some, prev]
    refine ⟨w', run, h', ⟨?_, ?_⟩, by simp, ?_⟩
    · intro z' hz'
      rw [List.getLast?_concat] at hz'
      cases hz'
      rw [nextOf, after]
      exact next
    · intro front' y z' split
      have split' : a :: (front ++ [z]) = (a :: front') ++ [y, z'] := by
        rw [split, List.cons_append]
      have last : z' = z := by
        have ends := congrArg List.getLast? split
        simpa using ends.symm
      subst last
      rw [same]
      exact links.prev (a :: front') y z' split'
    · intro z' single
      have front_nil : front = [] := by simpa using congrArg List.length single
      subst front_nil
      cases single
      rw [same]
      exact links.prev [] a z rfl

/-- What a legal call keeps of the queue and its links. -/
theorem callStep_links (w : World A) (l : List A) (call : Call A)
    (h : Represents w l ∧ LastLinks w l) (legal : fifo.legal l call) :
    ∃ w', callStep w call = .ok (w', fifo.answer l call) ∧
      Represents w' (fifo.next l call) ∧ LastLinks w' (fifo.next l call) := by
  cases call with
  | push a contents =>
      obtain ⟨w', run, h', links, -⟩ := h.1.push_links h.2 legal contents
      exact ⟨w', run, h', links⟩
  | pop =>
      obtain ⟨a, rest, rfl⟩ := List.exists_cons_of_ne_nil legal
      obtain ⟨w', run, h', links, -⟩ := h.1.pop_links h.2
      exact ⟨w', run, h', links⟩

/-- After a legal call the links form a ring exactly when at most two nodes are queued, and
one node only because it was pushed. -/
theorem callStep_properRing (w : World A) (l : List A) (call : Call A)
    (h : Represents w l ∧ LastLinks w l) (legal : fifo.legal l call) :
    ∃ w', callStep w call = .ok (w', fifo.answer l call) ∧ Represents w' (fifo.next l call) ∧
      (ProperRing w' (fifo.next l call) ↔
        (fifo.next l call).length ≤ 2 ∧ ((fifo.next l call).length = 1 → call.isPush)) := by
  cases call with
  | push a contents =>
      obtain ⟨w', run, h', links, single⟩ := h.1.push_links h.2 legal contents
      refine ⟨w', run, h', ?_⟩
      rw [fifo_next_push, properRing_iff h' links]
      apply and_congr_right
      intro _
      refine iff_of_true ?_ fun _ => rfl
      intro b hb
      obtain ⟨rfl, same⟩ := List.append_inj' (hb.trans (List.nil_append [b]).symm) rfl
      cases same
      exact single rfl
  | pop =>
      obtain ⟨a, rest, rfl⟩ := List.exists_cons_of_ne_nil legal
      obtain ⟨w', run, h', links, -, single⟩ := h.1.pop_links h.2
      refine ⟨w', run, h', ?_⟩
      rw [fifo_next_pop, List.tail_cons, properRing_iff h' links]
      apply and_congr_right
      intro _
      have fresh := (List.nodup_cons.mp h.1.nodup).1
      constructor
      · intro back one
        obtain ⟨z, rfl⟩ := List.length_eq_one_iff.mp one
        cases (back z rfl).symm.trans (single z rfl)
        exact absurd (List.mem_singleton_self _) fresh
      · intro push z hz
        exact absurd (push (by rw [hz]; rfl)) Bool.false_ne_true

/-- What every legal sequence of calls leaves. -/
theorem runCalls_links {calls : List (Call A)} (legal : fifo.Legal [] calls) :
    ∃ w, runCalls callStep (initializeQueueListImp fun _ => none) calls =
        .ok (w, fifo.answers [] calls) ∧
      Represents w (fifo.after [] calls) ∧ LastLinks w (fifo.after [] calls) :=
  runCalls_refines callStep_links ⟨represents_initial, .nil _⟩ legal

/-- After any legal sequence of calls, the links form a ring exactly when at most two nodes
are queued, and a single one was pushed by the last call. -/
theorem queue_properRing_iff (calls : List (Call A)) (legal : fifo.Legal [] calls) :
    ∃ w popped, runCalls callStep (initializeQueueListImp fun _ => none) calls =
        .ok (w, popped) ∧
      (ProperRing w (fifo.after [] calls) ↔
        (fifo.after [] calls).length ≤ 2 ∧
          ((fifo.after [] calls).length = 1 → calls.getLast?.any Call.isPush)) := by
  rcases List.eq_nil_or_concat' calls with rfl | ⟨front, call, rfl⟩
  · obtain ⟨w, run, h, links⟩ := runCalls_links legal
    refine ⟨w, _, run, ?_⟩
    rw [properRing_iff h links]
    simp
  · obtain ⟨legal, last⟩ := (Machine.legal_append fifo).mp legal
    obtain ⟨w, run, h⟩ := runCalls_links legal
    obtain ⟨w', step, -, ring⟩ := callStep_properRing w _ call h last.1
    refine ⟨w', _, runCalls_concat run step, ?_⟩
    rw [Machine.after_append, List.getLast?_concat]
    exact ring

/-- A second node is pushed after the first was popped. -/
theorem queue_properRing_iff_pushPop : ∃ w popped,
    runCalls callStep (initializeQueueListImp fun _ => none)
        [.push 10 ⟨none, none⟩, .pop, .push 11 ⟨some 10, none⟩] = .ok (w, popped) ∧
      ProperRing w [11] := by
  obtain ⟨w, popped, run, ring⟩ := queue_properRing_iff
    [.push 10 ⟨none, none⟩, .pop, .push 11 ⟨some 10, none⟩] (by simp [Machine.Legal, fifo])
  exact ⟨w, popped, run, ring.mpr (by decide)⟩

/-- After three pushes the second node does not point back to the head. -/
theorem push_three_no_ring :
    fifo.Legal [] [.push 10 ⟨none, none⟩, .push 11 ⟨none, none⟩, .push 12 ⟨none, none⟩] ∧
      ∃ w popped, runCalls callStep (initializeQueueListImp fun _ => none)
          [.push 10 ⟨none, none⟩, .push 11 ⟨none, none⟩, .push 12 ⟨none, none⟩] =
        .ok (w, popped) ∧ ¬ ProperRing w [10, 11, 12] := by
  refine ⟨by simp [Machine.Legal, fifo], _, _, rfl, ?_⟩
  intro proper
  obtain ⟨y, next, prev⟩ := proper.next_prev 10 (by decide)
  cases (show _ = some 12 from rfl).symm.trans next
  cases prev

/-! ## Pops on an empty queue -/

/-- The pop returns no node and leaves the queue unchanged. -/
def PopsNothing (w : World A) : Prop := popQueueListImp w = .ok (w, none)

/-- A pop on an empty queue reads through its head all the same, and no node is in memory. -/
theorem Represents.pop_nil {w : World A} (h : Represents w []) :
    popQueueListImp w =
      .error (match w.self.head with | none => .nullPointer | some _ => .danglingPointer) := by
  cases head : w.self.head with
  | none => simp [popQueueListImp, head, bind, Except.bind]
  | some a =>
      have dead : w.nodes a = none := by
        by_contra live
        exact List.not_mem_nil ((h.live a).mp live)
      simp [popQueueListImp, head, load, dead, bind, Except.bind]

/-- A pop on an empty queue never returns. On a fresh queue it reads through the null
pointer, and on a queue that was emptied it reads the node that was popped last. -/
theorem pop_empty_faults (calls : List (Call A)) (legal : fifo.Legal [] calls)
    (empty : fifo.after [] calls = []) :
    ∃ w popped, runCalls callStep (initializeQueueListImp fun _ => none) calls =
        .ok (w, popped) ∧
      w.self.count = 0 ∧ ¬ PopsNothing w ∧
      (calls = [] → w.self.head = none ∧ popQueueListImp w = .error .nullPointer) ∧
      (calls ≠ [] → ∃ a, popped.getLast? = some (some a) ∧ w.self.head = some a ∧
        w.nodes a = none ∧ popQueueListImp w = .error .danglingPointer) := by
  rcases List.eq_nil_or_concat' calls with rfl | ⟨front, call, rfl⟩
  · have faults := represents_initial.pop_nil (A := A)
    refine ⟨_, _, rfl, rfl, ?_, fun _ => ⟨rfl, faults⟩, fun some => absurd rfl some⟩
    rw [PopsNothing, faults]
    exact nofun
  · obtain ⟨legal, last⟩ := (Machine.legal_append fifo).mp legal
    obtain ⟨w, run, h, links⟩ := runCalls_links legal
    rw [Machine.after_append] at empty
    cases call with
    | push b contents => simp at empty
    | pop =>
        obtain ⟨b, rest, split⟩ := List.exists_cons_of_ne_nil last.1
        have rest_nil : rest = [] := by simpa [split] using empty
        subst rest_nil
        rw [split] at h links
        obtain ⟨w', step, h', -, head, -⟩ := h.pop_links links
        have faults := h'.pop_nil
        rw [head rfl] at faults
        have dead : w'.nodes b = none := by
          by_contra live
          exact List.not_mem_nil ((h'.live b).mp live)
        refine ⟨w', _, runCalls_concat run step, h'.count, ?_, by simp, fun _ => ?_⟩
        · rw [PopsNothing, faults]
          exact nofun
        · exact ⟨b, List.getLast?_concat, head rfl, dead, faults⟩

theorem pop_empty_faults_drained : ∃ w popped,
    runCalls callStep (initializeQueueListImp fun _ => none) [.push 10 ⟨none, none⟩, .pop] =
        .ok (w, popped) ∧ ¬ PopsNothing w := by
  obtain ⟨w, popped, run, -, faults, -⟩ := pop_empty_faults [.push 10 ⟨none, none⟩, .pop]
    (by simp [Machine.Legal, fifo]) rfl
  exact ⟨w, popped, run, faults⟩

/-- The pop of a fresh queue, and a pop after the last node was popped. -/
theorem pop_fresh_and_drained :
    popQueueListImp (initializeQueueListImp (A := Nat) fun _ => none) = .error .nullPointer ∧
      ∃ w popped, runCalls callStep (initializeQueueListImp fun _ => none)
          [.push 10 ⟨none, none⟩, .pop] = .ok (w, popped) ∧
        w.self.count = 0 ∧ popQueueListImp w = .error .danglingPointer :=
  ⟨rfl, _, _, rfl, rfl, rfl⟩

end Step

end SamplePrograms.ListQueue
