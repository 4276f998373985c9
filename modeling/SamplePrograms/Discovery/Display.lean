import SamplePrograms.Discovery.RecvQueue

/-!
# Showing what was discovered

`showDiscoveredNodeInfo` as one call, while no object is pushed to `recvqueue`. The
loop reads the next object before it tests the counter. So if the counter runs out
first, the object read last is neither shown nor in the queue any more.

## Implementation notes

The counter is not read again after it has passed zero. The pop on an empty queue,
which `readDiscoData` avoids, would give an indeterminate pointer.
-/

namespace SamplePrograms.Discovery.Display
open Memory RingBuffer RecvQueue

def readDiscoData (s : Shared) : Except Fault (Shared × Ptr) :=
  if isEmpty s.recvqueue then pure (s, none)
  else do
    match ← pop s.recvqueue with
    | (recvqueue, .item data) => pure ({ s with recvqueue }, data)
    | (_, .noItem) => throw .danglingPointer

/-- The loop over the objects. -/
def showObjects : Nat → Ptr → Shared → Except Fault Shared
  | lcount + 1, some obj, s => do
      let shown ← load s.objects.cell (some obj)
      let objects ← s.objects.free (some obj)
      let (s, data) ← readDiscoData { s with objects, rows := s.rows ++ [shown] }
      showObjects lcount data s
  | _, _, s => pure s

def showDiscoveredNodeInfo (count : Nat) (s : Shared) : Except Fault Shared := do
  let (s, data) ← readDiscoData s
  showObjects count data s

/-! ## What is shown -/

/-- The queue holds the objects at the given addresses. -/
structure Stored (size : Nat) (s : Shared) (items : List Nat) (contents : Nat → DataObj) :
    Prop where
  queue : ∃ stuck, Represents size s.recvqueue ⟨items, stuck⟩
  live : s.objects.Holds {a | a ∈ items} contents
  distinct : items.Nodup

section Calls
variable {size : Nat} {s : Shared} {items : List Nat} {contents : Nat → DataObj}

theorem Stored.unique {items' : List Nat} {contents' : Nat → DataObj}
    (h : Stored size s items contents) (h' : Stored size s items' contents') : items = items' := by
  obtain ⟨stuck, queue⟩ := h.queue
  obtain ⟨stuck', queue'⟩ := h'.queue
  exact queue.unique queue'

/-- The first object is taken from the queue, if there is one. -/
theorem Stored.readDiscoData (h : Stored size s items contents) :
    ∃ recvqueue, Display.readDiscoData s = .ok ({ s with recvqueue }, items.head?) ∧
      Stored size { s with recvqueue } items.tail contents := by
  obtain ⟨stuck, queue⟩ := h.queue
  cases empty : isEmpty s.recvqueue with
  | true =>
    obtain rfl : items = [] := by
      rw [queue.isEmpty] at empty
      exact List.isEmpty_iff.mp empty
    refine ⟨s.recvqueue, ?_, h⟩
    simp only [Display.readDiscoData, empty, if_true, List.head?_nil]
    rfl
  | false =>
    obtain ⟨a, rest, recvqueue, same, popped, queue'⟩ := queue.pop empty
    obtain rfl : items = a :: rest := same
    refine ⟨recvqueue, ?_, ⟨false, queue'⟩, h.live.mono fun c => List.mem_cons_of_mem a,
      h.distinct.of_cons⟩
    simp only [Display.readDiscoData, empty, popped, List.head?_cons]
    rfl

/-- The loop shows as many objects as the counter says, and one more is gone. -/
theorem Stored.showObjects {p : List Nat} (h : Stored size s p.tail contents)
    (live : s.objects.Holds {a | a ∈ p} contents) (distinct : p.Nodup) (count : Nat) :
    ∃ s', showObjects count p.head? s = .ok s' ∧
      s'.rows = s.rows ++ (p.take count).map contents ∧
      Stored size s' (p.drop (count + 1)) contents := by
  induction count generalizing s p with
  | zero =>
    refine ⟨s, rfl, (List.append_nil _).symm, ?_⟩
    rwa [List.drop_one]
  | succ count ih =>
    cases p with
    | nil => exact ⟨s, rfl, (List.append_nil _).symm, h⟩
    | cons a rest =>
      rw [List.tail_cons] at h
      obtain ⟨objects, freed, live'⟩ := live.free List.mem_cons_self
      obtain ⟨fresh, distinct'⟩ := List.nodup_cons.mp distinct
      have others : objects.Holds {c | c ∈ rest} contents :=
        live'.mono fun c hc => ⟨List.mem_cons_of_mem a hc, fun same => fresh (same ▸ hc)⟩
      have shown : Stored size { s with objects, rows := s.rows ++ [contents a] } rest contents :=
        ⟨h.queue, others, distinct'⟩
      obtain ⟨recvqueue, read, rest_stored⟩ := shown.readDiscoData
      obtain ⟨s', run, rows, left⟩ := ih rest_stored others distinct'
      refine ⟨s', ?_, ?_, left⟩
      · simp only [List.head?_cons, Display.showObjects, live.load List.mem_cons_self, freed,
          bind, Except.bind]
        rw [read]
        exact run
      · rw [rows, List.take_succ_cons, List.map_cons, List.append_assoc, List.singleton_append]

/-- The call shows as many objects as there are, up to the count, and takes one more from
the queue. -/
theorem Stored.showDiscoveredNodeInfo (h : Stored size s items contents) (count : Nat) :
    ∃ s', showDiscoveredNodeInfo count s = .ok s' ∧
      s'.rows = s.rows ++ (items.take count).map contents ∧
      Stored size s' (items.drop (count + 1)) contents := by
  obtain ⟨recvqueue, read, stored⟩ := h.readDiscoData
  obtain ⟨s', run, rows, left⟩ := stored.showObjects h.live h.distinct count
  refine ⟨s', ?_, rows, left⟩
  simp only [Display.showDiscoveredNodeInfo, read, bind, Except.bind]
  exact run

end Calls

/-! ## A queue with given objects -/

/-- A queue that is large enough may hold any objects. -/
theorem exists_stored {size : Nat} (entries : List DataObj) (small : entries.length < size) :
    ∃ s items contents, Stored size s items contents ∧ items.map contents = entries ∧
      s.rows = [] := by
  obtain ⟨q, -, queue⟩ := represents_initial Nat (Nat.zero_lt_of_lt small)
  suffices pushed : ∃ s items contents, Stored size s items contents ∧
      (∃ f, RepresentsAt size f s.recvqueue ⟨items, false⟩) ∧ items.map contents = entries ∧
      s.rows = [] by
    obtain ⟨s, items, contents, stored, -, same, rows⟩ := pushed
    exact ⟨s, items, contents, stored, same, rows⟩
  induction entries using List.reverseRecOn with
  | nil =>
    exact ⟨⟨[], [], Heap.empty, q, []⟩, [], fun _ => ⟨[], [], 0⟩,
      ⟨⟨false, queue⟩, fun a ha => absurd ha List.not_mem_nil, List.nodup_nil⟩, queue, rfl, rfl⟩
  | append_singleton entries last ih =>
    rw [List.length_append, List.length_singleton] at small
    obtain ⟨s, items, contents, stored, ⟨f, at_f⟩, same, rows⟩ := ih (Nat.lt_of_succ_lt small)
    have lengths : items.length = entries.length := by rw [← same, List.length_map]
    obtain ⟨recvqueue, -, pushed⟩ :=
      at_f.push_room rfl (by rw [lengths]; exact small) s.objects.next
    refine ⟨{ s with objects := (s.objects.alloc last).2, recvqueue }, items ++ [s.objects.next],
      Function.update contents s.objects.next last, ⟨⟨false, f, pushed⟩, ?_, ?_⟩, ⟨f, pushed⟩,
      ?_, rows⟩
    · refine (stored.live.alloc last).mono fun a ha => ?_
      rcases List.mem_append.mp ha with old | new
      · exact Or.inr old
      · exact Or.inl (List.mem_singleton.mp new)
    · rw [List.nodup_append]
      refine ⟨stored.distinct, List.nodup_singleton _, fun a ha b hb => ?_⟩
      rw [List.mem_singleton.mp hb]
      exact (stored.live.lt_next ha).ne
    · have kept : items.map (Function.update contents s.objects.next last) = entries := by
        rw [← same]
        apply List.map_congr_left
        intro a ha
        exact Function.update_of_ne (stored.live.lt_next ha).ne _ _
      rw [List.map_append, kept, List.map_singleton, Function.update_self]

/-! ## What is lost -/

/-- The call adds rows for the first objects of the queue, up to the count, and leaves the
other ones in the queue. -/
def ShowsFirst (size count : Nat) (s : Shared) (items : List Nat) (contents : Nat → DataObj) :
    Prop :=
  ∃ s', showDiscoveredNodeInfo count s = .ok s' ∧
    s'.rows = s.rows ++ (items.take (min count items.length)).map contents ∧
    Stored size s' (items.drop (min count items.length)) contents

section Lost
variable {size count : Nat} {s : Shared} {items : List Nat} {contents : Nat → DataObj}

theorem Stored.showsFirst (h : Stored size s items contents) (enough : items.length ≤ count) :
    ShowsFirst size count s items contents := by
  obtain ⟨s', run, rows, left⟩ := h.showDiscoveredNodeInfo count
  rw [List.drop_of_length_le (by omega)] at left
  refine ⟨s', run, ?_, ?_⟩
  · rw [rows, Nat.min_eq_right enough, List.take_length, List.take_of_length_le enough]
  · rwa [Nat.min_eq_right enough, List.drop_length]

/-- The object after the last one shown is lost. -/
theorem Stored.not_showsFirst (h : Stored size s items contents) (fewer : count < items.length) :
    ¬ ShowsFirst size count s items contents := by
  obtain ⟨s', run, -, left⟩ := h.showDiscoveredNodeInfo count
  rintro ⟨s'', run', -, left'⟩
  obtain rfl : s' = s'' := Except.ok.inj (run.symm.trans run')
  have lengths := congrArg List.length (left.unique left')
  rw [List.length_drop, List.length_drop] at lengths
  omega

/-- No object is lost if and only if the count is large enough for all of them. -/
theorem showsFirst_iff (h : Stored size s items contents) :
    ShowsFirst size count s items contents ↔ items.length ≤ count := by
  constructor
  · intro shows
    by_contra fewer
    exact h.not_showsFirst (Nat.lt_of_not_le fewer) shows
  · exact h.showsFirst

end Lost

/-- Nodes of a network, one for each of the first `n` numbers. -/
def nodes (n : Nat) : List DataObj :=
  (List.range n).map fun i => ⟨Nat.toDigits 16 i, Nat.toDigits 10 i, i⟩

/-- A refresh shows three nodes. -/
theorem showsFirst_three : ∃ s items contents, Stored 1000 s items contents ∧
    items.map contents = nodes 3 ∧ ShowsFirst 1000 10 s items contents := by
  obtain ⟨s, items, contents, stored, same, -⟩ := @exists_stored 1000 (nodes 3) (by decide)
  have three : items.length = 3 := by
    have lengths := congrArg List.length same
    rwa [List.length_map] at lengths
  exact ⟨s, items, contents, stored, same, (showsFirst_iff stored).mpr (by omega)⟩

/-- With eleven nodes in the queue a refresh shows ten of them, and none is left. -/
theorem refresh_loses_node : ∃ s items contents, Stored 1000 s items contents ∧
    items.map contents = nodes 11 ∧
    (∃ s', showDiscoveredNodeInfo 10 s = .ok s' ∧ s'.rows = nodes 10 ∧
      Stored 1000 s' [] contents) ∧
    ¬ ShowsFirst 1000 10 s items contents := by
  obtain ⟨s, items, contents, stored, same, rows⟩ :=
    @exists_stored 1000 (nodes 11) (by decide)
  have eleven : items.length = 11 := by
    have lengths := congrArg List.length same
    rwa [List.length_map] at lengths
  obtain ⟨s', run, rows', left⟩ := stored.showDiscoveredNodeInfo 10
  rw [List.drop_of_length_le (by omega)] at left
  have shown : s'.rows = nodes 10 := by
    rw [rows', rows, List.nil_append, List.map_take, same]
    rfl
  exact ⟨s, items, contents, stored, same, ⟨s', run, shown, left⟩,
    stored.not_showsFirst (by omega)⟩

/-! ## The call as the user interface makes it -/

section Thread
variable {size : Nat} {q : DataQueue Nat} {frames : List ArpFrame}
variable {status : Thread → Threads.Status Point Mutex Empty} {owner : Option Thread}
variable {s s' : Shared} {p p' : Point} {data : Ptr} {count : Nat}

/-- The user interface is at a point, and a thread may hold the lock. -/
def uiAt (status : Thread → Threads.Status Point Mutex Empty) (owner : Option Thread) (p : Point)
    (s : Shared) : Threads.Config Thread Shared Point Mutex Empty :=
  ⟨s, fun _ => owner, Function.update status .ui (.running p)⟩

theorem uiAt_move (m : Mutex) (owner' : Option Thread) :
    (⟨s, Function.update (fun _ => owner) m owner',
      Function.update (Function.update status .ui (.running p)) .ui (.running p')⟩ :
      Threads.Config Thread Shared Point Mutex Empty) = uiAt status owner' p' s := by
  have owners : Function.update (fun _ => owner) m owner' = fun _ => owner' := by
    funext m'
    cases m
    cases m'
    exact Function.update_self _ _ _
  rw [owners, Function.update_idem, uiAt]

theorem exec_step {f : Shared → List (Shared × Point)}
    (code : (discovery size q frames).code .ui p = .exec f) (out : (s', p') ∈ f s) :
    (discovery size q frames).Step (uiAt status owner p s) (uiAt status owner p' s') := by
  have step := Threads.Program.Step.exec (σ := uiAt status owner p s) (Function.update_self _ _ _)
    code out
  rwa [uiAt, Function.update_idem] at step

theorem lock_step {m : Mutex} (code : (discovery size q frames).code .ui p = .lock m p') :
    (discovery size q frames).Step (uiAt status none p s) (uiAt status (some .ui) p' s) := by
  have step := Threads.Program.Step.lock (σ := uiAt status none p s) (Function.update_self _ _ _)
    code rfl
  rwa [uiAt, uiAt_move] at step

theorem unlock_step {m : Mutex} (code : (discovery size q frames).code .ui p = .unlock m p') :
    (discovery size q frames).Step (uiAt status (some .ui) p s) (uiAt status none p' s) := by
  have step := Threads.Program.Step.unlock (σ := uiAt status (some .ui) p s)
    (Function.update_self _ _ _) code rfl
  rwa [uiAt, uiAt_move] at step

/-- The section of `readDiscoData`. -/
theorem readDiscoData_steps (run : readDiscoData s = .ok (s', data)) :
    Relation.ReflTransGen (discovery size q frames).Step (uiAt status none (.readLock count) s)
      (uiAt status none (.showTest count data) s') := by
  apply Relation.ReflTransGen.head (lock_step rfl)
  suffices inside : Relation.ReflTransGen (discovery size q frames).Step
      (uiAt status (some .ui) (.readTest count) s)
      (uiAt status (some .ui) (.readReturn count data) s') from inside.tail (unlock_step rfl)
  cases empty : isEmpty s.recvqueue with
  | true =>
    simp only [readDiscoData, empty, if_true] at run
    cases run
    apply Relation.ReflTransGen.single (exec_step rfl _)
    simp [empty]
  | false =>
    have test : (s, Point.readPop count) ∈
        [(s, if isEmpty s.recvqueue then Point.readReturn count none else .readPop count)] := by
      simp [empty]
    apply Relation.ReflTransGen.head (exec_step rfl test)
    simp only [readDiscoData, empty, Bool.false_eq_true, if_false, bind, Except.bind] at run
    split at run
    case h_1 => cases run
    case h_2 popped pops =>
      split at run
      case h_1 =>
        cases run
        apply Relation.ReflTransGen.single (exec_step rfl _)
        simp [pops]
      case h_2 => cases run

/-- The loop over the objects. -/
theorem showObjects_steps (run : showObjects count data s = .ok s') :
    Relation.ReflTransGen (discovery size q frames).Step (uiAt status none (.showTest count data) s)
      (uiAt status none .event s') := by
  induction count generalizing s data with
  | zero =>
    cases run
    apply Relation.ReflTransGen.single (exec_step rfl _)
    cases data <;> exact List.mem_singleton_self _
  | succ count ih =>
    cases data with
    | none =>
      cases run
      exact Relation.ReflTransGen.single (exec_step rfl (List.mem_singleton_self _))
    | some obj =>
      simp only [showObjects, bind, Except.bind] at run
      cases loaded : load s.objects.cell (some obj) with
      | error e => simp [loaded] at run
      | ok shown =>
        cases freed : s.objects.free (some obj) with
        | error e => simp [loaded, freed] at run
        | ok objects =>
          simp only [loaded, freed] at run
          split at run
          case h_1 => cases run
          case h_2 next read =>
            have taken : (discovery size q frames).Step (uiAt status none (.showTake count obj) s)
                (uiAt status none (.showAdd count shown) { s with objects }) := by
              apply exec_step rfl
              simp [loaded, freed]
            apply Relation.ReflTransGen.head (exec_step rfl (List.mem_singleton_self _))
            apply Relation.ReflTransGen.head taken
            apply Relation.ReflTransGen.head (exec_step rfl (List.mem_singleton_self _))
            exact (readDiscoData_steps read).trans (ih run)

/-- While no other thread takes a step, the user interface does what the call does. -/
theorem showDiscoveredNodeInfo_steps (run : showDiscoveredNodeInfo count s = .ok s') :
    Relation.ReflTransGen (discovery size q frames).Step (uiAt status none (.readLock count) s)
      (uiAt status none .event s') := by
  simp only [showDiscoveredNodeInfo, bind, Except.bind] at run
  split at run
  case h_1 => cases run
  case h_2 next read => exact (readDiscoData_steps read).trans (showObjects_steps run)

end Thread

end SamplePrograms.Discovery.Display
