import SamplePrograms.Traceroute.Replies

/-!
# `traceroute.pmtu.c`

For each TTL the program sends some probes and prints what comes back, until the destination or
the largest TTL is reached. A probe must not be fragmented. When it is too big for the next link
the program sends smaller probes and starts the line again.

## Implementation notes

The pointer `mtuptr` is the list of the entries of `mtus` from it on, so that a read behind the
table is a fault. So is a call of `sendto` for more bytes than the block that was allocated. The
receive queue of the socket is a list of packets: a call of `wait_for_reply` takes the first of
them, or times out when there is none. Names of hosts, the lines under `-v` and the packets that
the kernel sends are left out. A `long` has 32 bits.
-/

namespace SamplePrograms.Traceroute
open Icmp

/-- `sizeof(struct opacket)`. -/
def sizeofOpacket : ℕ := 40

def mtus : List ℤ :=
  [17914, 8166, 4464, 4352, 2048, 2002, 1536, 1500, 1492, 1006, 576, 552, 544, 512, 508, 296, 68, 0]

/-- The reads that C does not define. -/
inductive Fault where
  | pastTable
  | pastBlock
  deriving DecidableEq

/-- A call of `sendto`: `EMSGSIZE`, or the value that it returned. -/
inductive SendResult where
  | emsgsize
  | wrote (ret : ℤ)

/-- `tvsub(&tv, tp)`. -/
def tvsub (out tv : ℤ × ℤ) : ℤ × ℤ :=
  if out.2 - tv.2 < 0 then (out.1 - 1 - tv.1, out.2 - tv.2 + 1000000)
  else (out.1 - tv.1, out.2 - tv.2)

/-- `deltaT(tp)` when `gettimeofday` gives the first of the two times. -/
def deltaT (now tp : ℤ × ℤ) : ℤ :=
  let tv := tvsub now tp
  tv.1 * 1000 + (tv.2 + 500).tdiv 1000

/-- A packet in the queue, and the time at which the program looks at it. -/
structure Arrival where
  packet : Packet
  time : ℤ × ℤ

/-- The loop of `send_probe`: `datalen`, `mtuptr` and the result of the last call of `sendto`. -/
def sendProbe (block : ℕ) (sendto : ℤ → SendResult) :
    ℤ → List ℤ → Except Fault (ℤ × List ℤ × SendResult)
  | datalen, mtuptr =>
      if datalen < 0 ∨ block < datalen then .error .pastBlock
      else
        match sendto datalen with
        | .wrote ret => .ok (datalen, mtuptr, .wrote ret)
        | .emsgsize =>
            match mtuptr with
            | [] => .error .pastTable
            | mtu :: rest => sendProbe block sendto mtu rest
termination_by structural _ mtuptr => mtuptr

/-- The `while` loop around `wait_for_reply`: `nextmtu`, the packet with the result of `packet_ok`,
and the packets that are left. -/
def waitForReply (ports : Ports) (seq : ℕ) :
    ℕ → List Arrival → ℕ × Option (ℤ × Arrival) × List Arrival
  | nextmtu, [] => (nextmtu, none, [])
  | nextmtu, a :: rest =>
      let (i, nextmtu) := packetOk ports seq nextmtu a.packet
      if i ≠ 0 then (nextmtu, some (i, a), rest) else waitForReply ports seq nextmtu rest

/-- What is printed when fragmentation is required. -/
inductive Notice where
  | nextHop (nextmtu : ℤ) (inTable : Bool)
  | trying (datalen : ℤ)

/-- The loop of `frag_err` over the table: the entries behind the one that is equal. -/
def entriesBehind (nextmtu : ℤ) : List ℤ → Option (List ℤ)
  | [] => none
  | mtu :: rest =>
      if 0 < mtu then
        if mtu = nextmtu then some rest else entriesBehind nextmtu rest
      else none

def fragErr (nextmtu : ℕ) (mtuptr : List ℤ) : Except Fault (ℤ × List ℤ × Notice) :=
  let nextmtu := (BitVec.ofNat 32 nextmtu).toInt
  if 0 < nextmtu then
    match entriesBehind nextmtu mtus with
    | some rest => .ok (nextmtu, rest, .nextHop nextmtu true)
    | none => .ok (nextmtu, mtuptr, .nextHop nextmtu false)
  else
    match mtuptr with
    | [] => .error .pastTable
    | mtu :: rest => .ok (mtu, rest, .trying mtu)

/-! ## The main loop -/

/-- The annotations of a reply. -/
inductive Mark where
  | ttl
  | net
  | host
  | protocol
  | srcfail
  deriving DecidableEq

/-- What is printed on a line. -/
inductive Cell where
  | wrote (datalen ret : ℤ)
  | address (source : InAddr)
  | time (ms : ℤ)
  | mark (m : Mark)
  | star
  deriving DecidableEq

/-- What `send_probe` prints about a call of `sendto`. -/
def SendResult.cells (datalen : ℤ) : SendResult → List Cell
  | emsgsize => []
  | wrote ret => if ret ≠ datalen then [.wrote datalen ret] else []

/-- A line that was completed, or one that `frag_err` broke off. -/
inductive Line where
  | complete (ttl : ℕ) (cells : List Cell)
  | broken (ttl : ℕ) (cells : List Cell) (notice : Notice)

/-- The options of the program, and the size of the allocated block. -/
structure Options where
  ports : Ports
  nprobes : ℕ
  maxTtl : ℕ
  block : ℕ

/-- A probe as it is sent. -/
structure Probe where
  seq : ℕ
  ttl : ℕ
  datalen : ℤ

/-- The times at which probes are sent, the results of `sendto`, and what arrives before the
program has waited long enough for a reply to a probe. -/
structure Network where
  clock : ℕ → ℤ × ℤ
  sendto : Probe → SendResult
  arrivals : Probe → List Arrival

structure State where
  datalen : ℤ
  mtuptr : List ℤ
  nextmtu : ℕ
  seq : ℕ
  queue : List Arrival
  ttl : ℕ
  probe : ℕ
  lastaddr : InAddr
  gotThere : ℕ
  unreachable : ℕ
  cells : List Cell
  printed : List Line
  exited : Bool

namespace State

/-- The calls of `print` and `Printf` for a reply. -/
def reply (s : State) (source : InAddr) (dt : ℤ) : State :=
  { s with
    lastaddr := source
    cells := s.cells ++ (if source ≠ s.lastaddr then [.address source] else []) ++ [.time dt] }

/-- Go on with the next probe. -/
def nextProbe (s : State) (cells : List Cell) : State :=
  { s with probe := s.probe + 1, cells := s.cells ++ cells }

/-- The `switch` for a reply, apart from `frag_err`. -/
def annotate (s : State) (i : ℤ) (p : Packet) : State :=
  if i - 1 = 3 then
    { s.nextProbe (if (p.buf 8).toNat ≤ 1 then [.mark .ttl] else []) with
      gotThere := s.gotThere + 1 }
  else if i - 1 = 0 then { s.nextProbe [.mark .net] with unreachable := s.unreachable + 1 }
  else if i - 1 = 1 then { s.nextProbe [.mark .host] with unreachable := s.unreachable + 1 }
  else if i - 1 = 2 then { s.nextProbe [.mark .protocol] with gotThere := s.gotThere + 1 }
  else if i - 1 = 5 then { s.nextProbe [.mark .srcfail] with unreachable := s.unreachable + 1 }
  else s.nextProbe []

/-- `frag_err`, and the jump to `again`. -/
def again (s : State) : Except Fault State :=
  match fragErr s.nextmtu s.mtuptr with
  | .error fault => .error fault
  | .ok (datalen, mtuptr, notice) => .ok { s with
      datalen := datalen
      mtuptr := mtuptr
      probe := 0
      cells := []
      printed := s.printed ++ [.broken s.ttl s.cells notice] }

/-- The state after a probe was sent and the program waited for a reply. -/
def received (s : State) (datalen : ℤ) (mtuptr : List ℤ) (result : SendResult) (nextmtu : ℕ)
    (queue : List Arrival) : State :=
  { s with
    datalen := datalen
    mtuptr := mtuptr
    nextmtu := nextmtu
    seq := s.seq + 1
    queue := queue
    cells := s.cells ++ result.cells datalen }

/-- One iteration of the loop over the probes. -/
def probeOnce (o : Options) (net : Network) (s : State) : Except Fault State :=
  let seq := s.seq + 1
  match sendProbe o.block (fun datalen => net.sendto ⟨seq, s.ttl, datalen⟩) s.datalen s.mtuptr with
  | .error fault => .error fault
  | .ok (datalen, mtuptr, result) =>
      match waitForReply o.ports seq s.nextmtu
        (s.queue ++ net.arrivals ⟨seq, s.ttl, datalen⟩) with
      | (nextmtu, none, queue) =>
          .ok ((s.received datalen mtuptr result nextmtu queue).nextProbe [.star])
      | (nextmtu, some (i, a), queue) =>
          let s := (s.received datalen mtuptr result nextmtu queue).reply a.packet.source
            (deltaT a.time (net.clock seq))
          if i - 1 = 4 then s.again else .ok (s.annotate i a.packet)

/-- The end of an iteration of the loop over the TTLs. -/
def lineEnd (o : Options) (s : State) : State :=
  let printed := s.printed ++ [.complete s.ttl s.cells]
  if s.gotThere ≠ 0 ∨ o.nprobes ≤ s.unreachable + 1 ∨ o.maxTtl ≤ s.ttl then
    { s with printed := printed, cells := [], probe := 0, exited := true }
  else
    { s with
      printed := printed
      cells := []
      ttl := s.ttl + 1
      probe := 0
      lastaddr := 0
      gotThere := 0
      unreachable := 0 }

def step (o : Options) (net : Network) (s : State) : Except Fault State :=
  if s.probe < o.nprobes then s.probeOnce o net else .ok (s.lineEnd o)

end State

/-- Steps of the program until it has exited. -/
def run (o : Options) (net : Network) : ℕ → State → Except Fault State
  | 0, s => .ok s
  | n + 1, s =>
      if s.exited then .ok s
      else
        match s.step o net with
        | .error fault => .error fault
        | .ok s => run o net n s

/-- The state in which the loop over the TTLs starts. -/
def start (datalen : ℤ) (mtuptr : List ℤ) : State where
  datalen := datalen
  mtuptr := mtuptr
  nextmtu := 0
  seq := 0
  queue := []
  ttl := 1
  probe := 0
  lastaddr := 0
  gotThere := 0
  unreachable := 0
  cells := []
  printed := []
  exited := false

/-- `MAXPACKET`. -/
def maxpacket : ℤ := 65535

/-- The size of the first packet, and `mtuptr`, when the argument gives a data size or not. The
program does not accept all sizes. -/
def firstSize (size : Option ℤ) : Option (ℕ × List ℤ) :=
  let (datalen, mtuptr) := match size with
    | some size => (size, mtus)
    | none => (17914 - sizeofOpacket, mtus.tail)
  if datalen < 0 ∨ maxpacket - sizeofOpacket ≤ datalen then none
  else some ((datalen + sizeofOpacket).toNat, mtuptr)

end SamplePrograms.Traceroute
