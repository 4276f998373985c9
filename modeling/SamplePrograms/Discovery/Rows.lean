import SamplePrograms.Discovery.RecvQueue
import SamplePrograms.Library.ThreadSchedule

/-!
# The rows of the tree follow the received frames

What the two threads have in hand and what the queue holds can be read as one
list, from the oldest row of the tree to the frame that has just arrived. Every
statement moves the borders within this list or drops an entry from it. So the
rows stay in the order of receipt, and no frame has two of them.
-/

namespace SamplePrograms.Discovery.RecvQueue
open Threads Memory RingBuffer

/-! ## Entries in the order of receipt -/

/-- The entries are about received frames, each about a later one than the entry before. -/
structure InOrder (received : List ArpFrame) (entries : List DataObj) : Prop where
  increasing : entries.Pairwise fun d d' => d.receipt < d'.receipt
  origin : ∀ d ∈ entries, ∃ frame, received[d.receipt]? = some frame ∧
    d.name = discoveredMac frame ∧ d.value = discoveredIp frame

namespace InOrder
variable {received : List ArpFrame} {entries entries' : List DataObj}

theorem mono (h : InOrder received entries) (sub : entries'.Sublist entries) :
    InOrder received entries' where
  increasing := h.increasing.sublist sub
  origin := fun d hd => h.origin d (sub.subset hd)

/-- A frame that arrives is later than all entries. -/
theorem receive (h : InOrder received entries) (frame : ArpFrame) :
    InOrder (received ++ [frame])
      (entries ++ [⟨discoveredMac frame, discoveredIp frame, received.length⟩]) where
  increasing := by
    rw [List.pairwise_append]
    refine ⟨h.increasing, List.pairwise_singleton _ _, fun d hd d' hd' => ?_⟩
    obtain ⟨frame', found, -⟩ := h.origin d hd
    rw [List.mem_singleton.mp hd']
    exact (List.getElem?_eq_some_iff.mp found).1
  origin := by
    intro d hd
    rcases List.mem_append.mp hd with hd | hd
    · obtain ⟨frame', found, texts⟩ := h.origin d hd
      refine ⟨frame', ?_, texts⟩
      rw [List.getElem?_append_left (List.getElem?_eq_some_iff.mp found).1]
      exact found
    · rw [List.mem_singleton.mp hd]
      exact ⟨frame, List.getElem?_concat_length, rfl, rfl⟩

/-- The texts of the entries are a subsequence of those of the frames. -/
theorem sublist (h : InOrder received entries) :
    (entries.map fun d => (d.name, d.value)).Sublist
      (received.map fun frame => (discoveredMac frame, discoveredIp frame)) := by
  have bound : ∀ d ∈ entries, d.receipt < received.length := fun d hd => by
    obtain ⟨frame, found, -⟩ := h.origin d hd
    exact (List.getElem?_eq_some_iff.mp found).1
  let places : List (Fin received.length) := entries.pmap (fun d hd => ⟨d.receipt, hd⟩) bound
  have increasing : places.Pairwise (· < ·) := by
    rw [List.pairwise_pmap]
    exact h.increasing.imp fun lt _ _ => lt
  have texts : (entries.map fun d => (d.name, d.value)) =
      (places.map fun i => received[i]).map
        fun frame => (discoveredMac frame, discoveredIp frame) := by
    rw [List.map_map, List.map_pmap, ← List.pmap_eq_map (p := fun d => d.receipt < received.length)
      (H := bound)]
    apply List.pmap_congr_left
    intro d hd _ _
    obtain ⟨frame, found, name, value⟩ := h.origin d hd
    have here := (List.getElem?_eq_some_iff.mp found).2
    simp only [Function.comp, Fin.getElem_fin, here, name, value]
  rw [texts]
  exact (List.map_getElem_sublist increasing).map _

end InOrder

/-! ## What the threads have in hand -/

/-- A frame or an object that is known to one thread only, by its texts or by its
address, and whether the thread has met a fault. -/
structure Hand where
  texts : List DataObj
  objects : List Nat
  faulted : Bool
  deriving DecidableEq

/-- What a thread has in hand at each point. -/
def hand : Point → Hand
  | .format receipt frame => ⟨[⟨discoveredMac frame, discoveredIp frame, receipt⟩], [], false⟩
  | .recvQueueLock found | .newDataObj found => ⟨[found], [], false⟩
  | .recvQueuePush obj => ⟨[], [obj], false⟩
  | .readReturn _ data | .showTest _ data => ⟨[], data.toList, false⟩
  | .showTake _ obj => ⟨[], [obj], false⟩
  | .showAdd _ shown => ⟨[shown], [], false⟩
  | .fault _ => ⟨[], [], true⟩
  | _ => ⟨[], [], false⟩

/-- The objects in use: one the user interface has taken from the queue, those in
the queue, and one the worker is about to push. -/
def objectsInUse (hands : Thread → Hand) (items : List Nat) : List Nat :=
  (hands .ui).objects ++ items ++ (hands .worker).objects

/-- The rows, the objects in use and the texts in hand, from the oldest to the newest. -/
def entries (rows : List DataObj) (hands : Thread → Hand) (items : List Nat)
    (contents : Nat → DataObj) : List DataObj :=
  rows ++ (hands .ui).texts ++ (objectsInUse hands items).map contents ++ (hands .worker).texts

/-- The queue holds some of the objects in use, all of them are live, and everything
is in the order of receipt. -/
structure Traced (size : Nat) (frames : List ArpFrame) (s : Shared) (hands : Thread → Hand)
    (b : Contents Nat) (contents : Nat → DataObj) : Prop where
  arrived : s.received ++ s.incoming = frames
  sound : ∀ t, (hands t).faulted = false
  queue : Represents size s.recvqueue b
  live : s.objects.Holds {a | a ∈ objectsInUse hands b.items} contents
  distinct : (objectsInUse hands b.items).Nodup
  order : InOrder s.received (entries s.rows hands b.items contents)

/-- A thread without a fault takes something else in hand. -/
theorem sound_update {hands : Thread → Hand} (h : ∀ t, (hands t).faulted = false) {t : Thread}
    {new : Hand} (sound : new.faulted = false) (u : Thread) :
    (Function.update hands t new u).faulted = false := by
  by_cases hu : u = t
  · subst u
    simpa using sound
  · simpa [hu] using h u

namespace Traced
variable {size : Nat} {frames : List ArpFrame} {s : Shared} {hands : Thread → Hand}
  {b : Contents Nat} {contents : Nat → DataObj}

/-- A frame arrives and its texts are formatted. -/
theorem receive (h : Traced size frames s hands b contents) (idle : hands .worker = ⟨[], [], false⟩)
    {frame : ArpFrame} {rest : List ArpFrame} (next : s.incoming = frame :: rest) :
    Traced size frames { s with incoming := rest, received := s.received ++ [frame] }
      (Function.update hands .worker (hand (.format s.received.length frame))) b contents where
  arrived := by simpa [next] using h.arrived
  sound := sound_update h.sound rfl
  queue := h.queue
  live := by simpa [objectsInUse, hand, idle] using h.live
  distinct := by simpa [objectsInUse, hand, idle] using h.distinct
  order := by simpa [entries, objectsInUse, hand, idle] using h.order.receive frame

/-- The texts in the hand of the worker become an object. -/
theorem newDataObj (h : Traced size frames s hands b contents) {found : DataObj}
    (here : hands .worker = hand (.newDataObj found)) :
    Traced size frames { s with objects := (s.objects.alloc found).2 }
      (Function.update hands .worker (hand (.recvQueuePush (s.objects.alloc found).1))) b
      (Function.update contents s.objects.next found) := by
  have unused : s.objects.next ∉ objectsInUse hands b.items := fun used =>
    (h.live.lt_next used).false
  have same : (objectsInUse hands b.items).map (Function.update contents s.objects.next found) =
      (objectsInUse hands b.items).map contents := by
    refine List.map_congr_left fun a ha => Function.update_of_ne (fun he => unused ?_) _ _
    exact he ▸ ha
  have more : objectsInUse (Function.update hands .worker (hand (.recvQueuePush s.objects.next)))
      b.items = objectsInUse hands b.items ++ [s.objects.next] := by
    simp [objectsInUse, hand, here]
  constructor
  · exact h.arrived
  · exact sound_update h.sound rfl
  · exact h.queue
  · refine (h.live.alloc found).mono fun a ha => ?_
    simpa [more, or_comm] using ha
  · rw [Heap.alloc_fst, more]
    exact h.distinct.append (List.nodup_singleton _) (by simpa using unused)
  · rw [Heap.alloc_fst, entries, more, List.map_append, same]
    simpa [entries, hand, here] using h.order

/-- The worker pushes its object, which the queue may drop. -/
theorem push (h : Traced size frames s hands b contents) (hsize : 1 ≤ size) {obj : Nat}
    (here : hands .worker = hand (.recvQueuePush obj)) :
    ∃ recvqueue accepted b', RingBuffer.push s.recvqueue obj = .ok (recvqueue, accepted) ∧
      Traced size frames { s with recvqueue }
        (Function.update hands .worker (hand .recvQueueUnlock)) b' contents := by
  obtain ⟨recvqueue, accepted, b', run, queue, items⟩ := h.queue.push hsize obj
  refine ⟨recvqueue, accepted, b', run, ?_⟩
  have fewer :
      (objectsInUse (Function.update hands .worker (hand .recvQueueUnlock)) b'.items).Sublist
        (objectsInUse hands b.items) := by
    rcases items with items | items <;> simp [objectsInUse, hand, here, items]
  constructor
  · exact h.arrived
  · exact sound_update h.sound rfl
  · exact queue
  · exact h.live.mono fewer.subset
  · exact h.distinct.sublist fewer
  · apply h.order.mono
    simpa [entries, hand, here] using fewer.map contents

/-- The user interface takes the first object of the queue. -/
theorem pop (h : Traced size frames s hands b contents) {lcount : Nat}
    (here : hands .ui = hand (.readPop lcount)) (nonempty : isEmpty s.recvqueue = false) :
    ∃ recvqueue data b', RingBuffer.pop s.recvqueue = .ok (recvqueue, .item data) ∧
      Traced size frames { s with recvqueue }
        (Function.update hands .ui (hand (.readReturn lcount data))) b' contents := by
  obtain ⟨a, rest, recvqueue, items, run, queue⟩ := h.queue.pop nonempty
  refine ⟨recvqueue, some a, ⟨rest, false⟩, run, ?_⟩
  have same : objectsInUse (Function.update hands .ui (hand (.readReturn lcount (some a)))) rest =
      objectsInUse hands b.items := by
    simp [objectsInUse, hand, here, items]
  constructor
  · exact h.arrived
  · exact sound_update h.sound rfl
  · exact queue
  · rw [same]
    exact h.live
  · rw [same]
    exact h.distinct
  · rw [entries, same]
    simpa [entries, hand, here] using h.order

/-- The user interface forgets what it has in hand. -/
theorem drop (h : Traced size frames s hands b contents) :
    Traced size frames s (Function.update hands .ui (hand .event)) b contents := by
  have fewer : (objectsInUse (Function.update hands .ui (hand .event)) b.items).Sublist
      (objectsInUse hands b.items) := by
    simp [objectsInUse, hand]
  constructor
  · exact h.arrived
  · exact sound_update h.sound rfl
  · exact h.queue
  · exact h.live.mono fewer.subset
  · exact h.distinct.sublist fewer
  · refine h.order.mono (.append (.append ?_ (fewer.map _)) ?_)
    · simp [hand]
    · simp

/-- The user interface copies the texts of its object and deletes it. -/
theorem take (h : Traced size frames s hands b contents) {lcount a : Nat}
    (here : hands .ui = hand (.showTake lcount a)) :
    ∃ objects, load s.objects.cell (some a) = .ok (contents a) ∧
      s.objects.free (some a) = .ok objects ∧
      Traced size frames { s with objects }
        (Function.update hands .ui (hand (.showAdd lcount (contents a)))) b contents := by
  have first : objectsInUse hands b.items =
      a :: objectsInUse (Function.update hands .ui (hand (.showAdd lcount (contents a))))
        b.items := by
    simp [objectsInUse, hand, here]
  have used : a ∈ objectsInUse hands b.items := by
    rw [first]
    exact List.mem_cons_self
  have distinct := h.distinct
  rw [first, List.nodup_cons] at distinct
  obtain ⟨objects, freed, live⟩ := h.live.free used
  refine ⟨objects, h.live.load used, freed, ?_⟩
  constructor
  · exact h.arrived
  · exact sound_update h.sound rfl
  · exact h.queue
  · refine live.mono fun c hc => ⟨?_, fun he => distinct.1 (he ▸ hc)⟩
    show c ∈ objectsInUse hands b.items
    rw [first]
    exact List.mem_cons_of_mem _ hc
  · exact distinct.2
  · have order := h.order
    rw [entries, first] at order
    simpa [entries, hand, here] using order

/-- The user interface adds the row. -/
theorem add (h : Traced size frames s hands b contents) {lcount : Nat} {shown : DataObj}
    (here : hands .ui = hand (.showAdd lcount shown)) :
    Traced size frames { s with rows := s.rows ++ [shown] }
      (Function.update hands .ui (hand (.readLock lcount))) b contents := by
  have same : objectsInUse (Function.update hands .ui (hand (.readLock lcount))) b.items =
      objectsInUse hands b.items := by
    simp [objectsInUse, hand, here]
  constructor
  · exact h.arrived
  · exact sound_update h.sound rfl
  · exact h.queue
  · rw [same]
    exact h.live
  · rw [same]
    exact h.distinct
  · rw [entries, same]
    simpa [entries, hand, here] using h.order

/-- A statement that leaves the hands as they are keeps the trace. -/
theorem keep (h : Traced size frames s hands b contents) {t : Thread} {p p' : Point}
    (here : hands t = hand p) (same : hand p' = hand p) :
    Traced size frames s (Function.update hands t (hand p')) b contents := by
  rw [same, ← here, Function.update_eq_self]
  exact h

end Traced

/-- Some contents of the queue and of its objects trace the state. -/
def IsTraced (size : Nat) (frames : List ArpFrame) (s : Shared) (hands : Thread → Hand) : Prop :=
  ∃ b contents, Traced size frames s hands b contents

section Program
variable {size : Nat} {q : DataQueue Nat} {frames : List ArpFrame}

theorem hand_kept (t : Thread) (p : Point) :
    ((discovery size q frames).code t p).Keeps hand p := by
  cases t <;> cases p <;> trivial

theorem isTraced_initial (hsize : 1 ≤ size) (new : dataQueue Nat size = .ok q) :
    IsTraced size frames (discovery size q frames).init
      fun t => hand ((discovery size q frames).start t) := by
  obtain ⟨q', new', queue⟩ := represents_initial Nat hsize
  cases new.symm.trans new'
  refine ⟨⟨[], false⟩, fun _ => ⟨[], [], 0⟩, ?_⟩
  constructor
  · rfl
  · intro t
    cases t <;> rfl
  · exact queue
  · intro a ha
    simp [objectsInUse, discovery, hand] at ha
  · simp [objectsInUse, discovery, hand]
  · constructor <;> simp [entries, objectsInUse, discovery, hand]

/-- A statement of the worker keeps the state traced. -/
theorem IsTraced.run {s : Shared} {hands : Thread → Hand} (h : IsTraced size frames s hands)
    (hsize : 1 ≤ size) {p p' : Point} {f : Shared → List (Shared × Point)} {s' : Shared}
    (here : hands .worker = hand p) (hc : RecvQueue.run p = .exec f) (out : (s', p') ∈ f s) :
    IsTraced size frames s' (Function.update hands .worker (hand p')) := by
  obtain ⟨b, contents, h⟩ := h
  cases p <;> cases hc
  case recvfrom =>
    cases hi : s.incoming with
    | nil =>
        simp only [hi, List.mem_singleton, Prod.mk.injEq] at out
        obtain ⟨rfl, rfl⟩ := out
        exact ⟨b, contents, h.keep here rfl⟩
    | cons frame rest =>
        simp only [hi, List.mem_cons, List.not_mem_nil, or_false, Prod.mk.injEq] at out
        rcases out with ⟨rfl, rfl⟩ | ⟨rfl, rfl⟩
        · exact ⟨b, contents, h.keep here rfl⟩
        · exact ⟨b, contents, h.receive here hi⟩
  case format receipt frame =>
    simp only [List.mem_singleton, Prod.mk.injEq] at out
    obtain ⟨rfl, rfl⟩ := out
    exact ⟨b, contents, h.keep here rfl⟩
  case newDataObj found =>
    simp only [List.mem_singleton, Prod.mk.injEq] at out
    obtain ⟨rfl, rfl⟩ := out
    exact ⟨b, _, h.newDataObj here⟩
  case recvQueuePush obj =>
    obtain ⟨recvqueue, accepted, b', run, h'⟩ := h.push hsize here
    simp only [run, List.mem_singleton, Prod.mk.injEq] at out
    obtain ⟨rfl, rfl⟩ := out
    exact ⟨b', contents, h'⟩

/-- A statement of the user interface keeps the state traced. -/
theorem IsTraced.showDiscoveredNodeInfo {s : Shared} {hands : Thread → Hand}
    (h : IsTraced size frames s hands) {p p' : Point} {f : Shared → List (Shared × Point)}
    {s' : Shared} (here : hands .ui = hand p) (hk : known p s)
    (hc : RecvQueue.showDiscoveredNodeInfo size p = .exec f) (out : (s', p') ∈ f s) :
    IsTraced size frames s' (Function.update hands .ui (hand p')) := by
  obtain ⟨b, contents, h⟩ := h
  cases p <;> cases hc
  case event =>
    simp only [List.mem_cons, List.not_mem_nil, or_false, Prod.mk.injEq] at out
    rcases out with ⟨rfl, rfl⟩ | ⟨rfl, rfl⟩
    · exact ⟨b, contents, h.keep here rfl⟩
    · exact ⟨b, contents, h.keep here rfl⟩
  case readTest lcount =>
    simp only [List.mem_singleton, Prod.mk.injEq] at out
    obtain ⟨rfl, rfl⟩ := out
    refine ⟨b, contents, h.keep here ?_⟩
    split_ifs <;> rfl
  case readPop lcount =>
    obtain ⟨recvqueue, data, b', run, h'⟩ := h.pop here hk
    simp only [run, List.mem_singleton, Prod.mk.injEq] at out
    obtain ⟨rfl, rfl⟩ := out
    exact ⟨b', contents, h'⟩
  case showTest lcount data =>
    simp only [List.mem_singleton, Prod.mk.injEq] at out
    obtain ⟨rfl, rfl⟩ := out
    cases data with
    | none => exact ⟨b, contents, h.keep here rfl⟩
    | some obj =>
        by_cases more : 0 < lcount
        · exact ⟨b, contents, h.keep here (by simp [more, hand])⟩
        · simpa [more] using ⟨b, contents, h.drop⟩
  case showTake lcount obj =>
    obtain ⟨objects, texts, freed, h'⟩ := h.take here
    simp only [texts, freed, List.mem_singleton, Prod.mk.injEq] at out
    obtain ⟨rfl, rfl⟩ := out
    exact ⟨b, contents, h'⟩
  case showAdd lcount shown =>
    simp only [List.mem_singleton, Prod.mk.injEq] at out
    obtain ⟨rfl, rfl⟩ := out
    exact ⟨b, contents, h.add here⟩

/-- Every run keeps the state traced. -/
theorem reachable_traced (hsize : 1 ≤ size) (new : dataQueue Nat size = .ok q)
    {σ : Config Thread Shared Point Mutex Empty} (h : (discovery size q frames).Reachable σ) :
    IsTraced size frames σ.shared (σ.phases hand) := by
  refine h.phase_invariant (I := IsTraced size frames) (K := fun σ => ∀ t p,
    σ.status t = .running p → known p σ.shared) (fun σ hr t p here =>
      asserts.at_point disciplined hr here) hand_kept (isTraced_initial hsize new) ?_
  intro σ t p f s' p' hk hi here hc out
  have inHand : σ.phases hand t = hand p := by
    rw [Config.phases_apply, here, Status.point_running]
  cases t with
  | worker => exact hi.run hsize inHand hc out
  | ui => exact hi.showDiscoveredNodeInfo inHand (hk _ p here) hc out

/-- For every size of the queues, every sequence of frames and every run of the two
threads, the rows are about received frames, each about a later one than the row
before, so their texts are a subsequence of those of the frames in the order of
receipt. No thread meets a fault. -/
theorem rows_follow_frames (hsize : 1 ≤ size) (new : dataQueue Nat size = .ok q)
    {σ : Config Thread Shared Point Mutex Empty} (h : (discovery size q frames).Reachable σ) :
    σ.shared.received ++ σ.shared.incoming = frames ∧
    (σ.shared.rows.Pairwise fun d d' => d.receipt < d'.receipt) ∧
    (∀ d ∈ σ.shared.rows, ∃ frame, σ.shared.received[d.receipt]? = some frame ∧
      d.name = discoveredMac frame ∧ d.value = discoveredIp frame) ∧
    (σ.shared.rows.map fun d => (d.name, d.value)).Sublist
      (σ.shared.received.map fun frame => (discoveredMac frame, discoveredIp frame)) ∧
    ∀ t inside, σ.status t ≠ .running (.fault inside) := by
  obtain ⟨b, contents, h⟩ := reachable_traced hsize new h
  have rows : σ.shared.rows.Sublist (entries σ.shared.rows (σ.phases hand) b.items contents) := by
    simp [entries]
  have order := h.order.mono rows
  refine ⟨h.arrived, order.increasing, order.origin, order.sublist, fun t inside here => ?_⟩
  have sound := h.sound t
  rw [Config.phases_apply, here, Status.point_running] at sound
  contradiction

end Program

/-- A frame is received, and then a refresh adds its row. -/
def frameShown {T : Type*} (w u : T) : List (T × Nat) :=
  (w, 1) :: List.replicate 5 (w, 0) ++ List.replicate 8 (u, 0)

theorem rows_follow_frames_frameShown : ∃ q frame σ, dataQueue Nat 2 = .ok q ∧
    (discovery 2 q [frame]).runSchedule (discovery 2 q [frame]).initial (frameShown .worker .ui) =
      some σ ∧
    σ.shared.rows.map DataObj.value = [['1', '0', '.', '0', '.', '2', '.', '7']] ∧
    (σ.shared.rows.map fun d => (d.name, d.value)).Sublist
      (σ.shared.received.map fun frame => (discoveredMac frame, discoveredIp frame)) := by
  let frame : ArpFrame := ⟨[0, 27, 33, 160, 5, 255], [10, 0, 2, 7], rfl, rfl⟩
  obtain ⟨q, new⟩ : ∃ q, dataQueue Nat 2 = .ok q := ⟨_, rfl⟩
  cases new
  have h := rows_follow_frames (by decide) rfl
    (Program.runSchedule_reachable (discovery 2 _ [frame]) (frameShown .worker .ui) rfl)
  exact ⟨_, frame, _, rfl, rfl, by decide, h.2.2.2.1⟩

end SamplePrograms.Discovery.RecvQueue
