import SamplePrograms.Library.ThreadInvariants
import SamplePrograms.RingBuffer.Refinement

/-!
# The receive queue of `sunsetSolarDiscoEngine`

While an engine lives, its worker thread pushes an object for every ARP frame
that it receives to `recvqueue`, and the user interface reads the objects and
adds a row for each of them to the tree. The queue is the ring buffer of
`sunsetSolarDiscoDataModel.h`, with pointers to the objects as items.

## Implementation notes

The size of the queues, which is 1000 in the source, is a parameter. The frames
that will arrive are a list. The field `receipt` of an object says
which received frame it is about; the program has no such field and never reads
it. Clearing the tree adds no row, so only the rows added so far are kept.
-/

namespace SamplePrograms.Discovery.RecvQueue
open Threads Memory RingBuffer

/-- The fields of an `ether_packet_linux` that the worker reads. -/
structure ArpFrame where
  senderMac : List (BitVec 8)
  senderIp : List (BitVec 8)
  mac_length : senderMac.length = 6
  ip_length : senderIp.length = 4
  deriving DecidableEq

/-- The format `%02x` of a byte. -/
def hexByte (b : BitVec 8) : List Char :=
  [Nat.digitChar (b.toNat / 16), Nat.digitChar (b.toNat % 16)]

/-- `discovered_mac`. -/
def discoveredMac (frame : ArpFrame) : List Char :=
  List.intercalate [':'] (frame.senderMac.map hexByte)

/-- `discovered_ip`. -/
def discoveredIp (frame : ArpFrame) : List Char :=
  List.intercalate ['.'] (frame.senderIp.map fun b => Nat.toDigits 10 (b &&& 0xFF).toNat)

/-- A `sunsetSolarDiscoDataObj`, with the number of the frame it is about. -/
structure DataObj where
  name : List Char
  value : List Char
  receipt : Nat
  deriving DecidableEq

inductive Thread where
  | worker
  | ui
  deriving DecidableEq

theorem mem_threads (t : Thread) : t ∈ ({.worker, .ui} : Finset Thread) := by
  cases t <;> simp

instance : Fintype Thread := ⟨{.worker, .ui}, mem_threads⟩

inductive Mutex where
  | recvqueueLock
  deriving DecidableEq

/-- The statement a thread executes next, with its local variables. -/
inductive Point where
  -- the worker
  | recvfrom
  | format (receipt : Nat) (frame : ArpFrame)
  | recvQueueLock (found : DataObj) | newDataObj (found : DataObj) | recvQueuePush (obj : Nat)
  | recvQueueUnlock
  -- the user interface
  | event
  | readLock (lcount : Nat) | readTest (lcount : Nat) | readPop (lcount : Nat)
  | readReturn (lcount : Nat) (data : Ptr)
  | showTest (lcount : Nat) (data : Ptr) | showTake (lcount : Nat) (obj : Nat)
  | showAdd (lcount : Nat) (shown : DataObj)
  -- a fault, inside or outside a section of the lock
  | fault (inside : Bool)
  deriving DecidableEq

/-- The queue with its objects, the rows added to the tree, and the frames. -/
structure Shared where
  incoming : List ArpFrame
  received : List ArpFrame
  objects : Heap DataObj
  recvqueue : DataQueue Nat
  rows : List DataObj

/-- The loop of `sunsetSolarDiscoWorkerThread::run`. -/
def run : Point → Action Shared Point Mutex Empty
  | .recvfrom => .exec fun s => match s.incoming with
      | [] => [(s, .recvfrom)]
      | frame :: rest => [(s, .recvfrom),
          ({ s with incoming := rest, received := s.received ++ [frame] },
            .format s.received.length frame)]
  | .format receipt frame => .exec fun s =>
      [(s, .recvQueueLock ⟨discoveredMac frame, discoveredIp frame, receipt⟩)]
  | .recvQueueLock found => .lock .recvqueueLock (.newDataObj found)
  | .newDataObj found => .exec fun s =>
      [({ s with objects := (s.objects.alloc found).2 }, .recvQueuePush (s.objects.alloc found).1)]
  | .recvQueuePush obj => .exec fun s => match push s.recvqueue obj with
      | .ok (recvqueue, _) => [({ s with recvqueue }, .recvQueueUnlock)]
      | .error _ => [(s, .fault true)]
  | .recvQueueUnlock => .unlock .recvqueueLock .recvfrom
  | _ => .halt

/-- `showDiscoveredNodeInfo`, called with 10 by Refresh and with `DATAQ_SIZE` by Stop,
and the `readDiscoData` that it calls. -/
def showDiscoveredNodeInfo (size : Nat) : Point → Action Shared Point Mutex Empty
  | .event => .exec fun s => [(s, .readLock 10), (s, .readLock size)]
  -- readDiscoData
  | .readLock lcount => .lock .recvqueueLock (.readTest lcount)
  | .readTest lcount => .exec fun s =>
      [(s, if isEmpty s.recvqueue then .readReturn lcount none else .readPop lcount)]
  | .readPop lcount => .exec fun s => match pop s.recvqueue with
      | .ok (recvqueue, .item data) => [({ s with recvqueue }, .readReturn lcount data)]
      | .ok (_, .noItem) => [(s, .fault true)]
      | .error _ => [(s, .fault true)]
  | .readReturn lcount data => .unlock .recvqueueLock (.showTest lcount data)
  -- the loop over the objects
  | .showTest lcount data => .exec fun s => [(s, match data with
      | none => .event
      | some obj => if 0 < lcount then .showTake (lcount - 1) obj else .event)]
  | .showTake lcount obj => .exec fun s =>
      match load s.objects.cell (some obj), s.objects.free (some obj) with
      | .ok shown, .ok objects => [({ s with objects }, .showAdd lcount shown)]
      | _, _ => [(s, .fault false)]
  | .showAdd lcount shown => .exec fun s =>
      [({ s with rows := s.rows ++ [shown] }, .readLock lcount)]
  | _ => .halt

/-- The two threads of one engine lifetime, with the given `DATAQ_SIZE`. -/
def discovery (size : Nat) (recvqueue : DataQueue Nat) (frames : List ArpFrame) :
    Program Thread Shared Point Mutex Empty where
  code := fun t => match t with
    | .worker => run
    | .ui => showDiscoveredNodeInfo size
  start := fun t => match t with
    | .worker => .recvfrom
    | .ui => .event
  init := ⟨frames, [], Heap.empty, recvqueue, []⟩

/-- The points at which a thread is inside a section of `recvqueue_lock`. -/
def holds (p : Point) (_ : Mutex) : Prop :=
  match p with
  | .newDataObj _ | .recvQueuePush _ | .recvQueueUnlock => True
  | .readTest _ | .readPop _ | .readReturn _ _ => True
  | .fault inside => inside = true
  | _ => False

variable {size : Nat} {q : DataQueue Nat} {frames : List ArpFrame}

theorem disciplined : (discovery size q frames).Disciplined holds where
  start := by
    intro t m
    cases t <;> exact id
  code := by
    intro t p
    cases t <;> cases p <;>
      simp only [discovery, run, showDiscoveredNodeInfo, Action.Respects, List.mem_cons,
        List.not_mem_nil, or_false, forall_eq, forall_eq_or_imp]
    all_goals
      intros
      grind [holds]

/-- Inside `readDiscoData` a thread that goes on to pop has seen an item. -/
def known (p : Point) (s : Shared) : Prop :=
  match p with
  | .readPop _ => isEmpty s.recvqueue = false
  | _ => True

/-- Outside its sections a thread leaves the queue alone. -/
theorem queue_kept_outside {t : Thread} {p : Point} {f : Shared → List (Shared × Point)}
    (h : ¬ holds p .recvqueueLock) (hc : (discovery size q frames).code t p = .exec f)
    {s : Shared} {o : Shared × Point} (ho : o ∈ f s) : o.1.recvqueue = s.recvqueue := by
  cases t <;> cases p <;> cases hc <;> first | exact absurd trivial h | skip
  all_goals
    dsimp only at ho
    try split at ho
    all_goals
      simp only [List.mem_cons, List.not_mem_nil, or_false] at ho
      grind

theorem asserts : (discovery size q frames).Asserts holds .recvqueueLock fun _ => known where
  outside := by
    intro t p s h
    cases p <;> first | trivial | exact absurd trivial h
  code := by
    intro t p
    cases t <;> cases p <;>
      simp only [discovery, run, showDiscoveredNodeInfo, Action.Carries, List.mem_cons,
        List.not_mem_nil, or_false, forall_eq, forall_eq_or_imp]
    all_goals
      intros
      grind [known]
  others := by
    intro t u p q' f s o _ hq hc ho h
    have kept := queue_kept_outside hq hc ho
    cases p <;> first | trivial | skip
    exact (congrArg isEmpty kept).trans h

end SamplePrograms.Discovery.RecvQueue
