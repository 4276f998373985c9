import SamplePrograms.Icmp.Messages

/-!
# `icmptime.c`

The program asks another host for its time of day and moves the local clock by the difference. It
looks at the messages that come in until one is a timestamp reply. Messages of other types change
nothing.

## Implementation notes

A `long` has 64 bits, so that its arithmetic is exact here. The process id is a number of which the
message has the low 16 bits. A call of `procpack` for a packet that is too short returns without a
value; what `main` finds in its place comes with the packet. The result of `sendto` only decides
whether a line is printed and is left out.
-/

namespace SamplePrograms.Icmp

structure Timeval where
  tvSec : Int
  tvUsec : Int
  deriving DecidableEq

/-- The microseconds of a time. -/
def Timeval.micros (tv : Timeval) : Int := tv.tvSec * 1000000 + tv.tvUsec

/-- What `gettimeofday` reports when the clock shows the given number of microseconds. -/
def gettimeofday (clock : ℕ) : Timeval := ⟨clock / 1000000, clock % 1000000⟩

namespace Timestamp

/-- A line of output, with the arguments of its format. -/
inductive Line where
  | tooShort (cc : ℕ) (source : InAddr)
  | notEchoed (tsorig : Int) (otime : ℕ)
  | length (cc : ℕ)
  | sequence (seq : BitVec 16)
  | id (id : BitVec 16)
  | times (orig recv : ℕ)
  | adjustment (tsdiff : Int)
  | correction (tvdelta : Timeval)
  | adjtimeError
  | recvfromError
  | timeout

/-- What ends a call of `procpack`. -/
inductive Result where
  | returned (value : Int)
  | unspecified
  | exited (status : ℕ)

/-- The calls and the output of a call of `procpack`. -/
structure Effects where
  printed : List Line
  adjusted : List Timeval
  result : Result

/-- The milliseconds since midnight. -/
def tsorig (tvorig : Timeval) : Int :=
  tvorig.tvSec.tmod (24 * 60 * 60) * 1000 + tvorig.tvUsec.tdiv 1000

/-- The sequence number of the request. -/
def seq : BitVec 16 := 12345

/-- The message that `sender` sends. -/
def sender (order : ByteOrder) (pid : ℕ) (tvorig : Timeval) : List Byte :=
  sealed order [13, 0] (order.bytes (.ofNat 16 pid) ++ order.bytes seq ++
    htonl (tsorig tvorig).toNat ++ htonl 0 ++ htonl 0)

/-- The difference as the time by which the clock is moved. -/
def tvdelta (tsdiff : Int) : Timeval := ⟨tsdiff.tdiv 1000, tsdiff.tmod 1000 * 1000⟩

/-- `procpack` for a packet. The call of `adjtime` succeeds or fails as the function says. -/
def procpack (order : ByteOrder) (pid : ℕ) (tsorig : Int) (adjtime : Timeval → Bool)
    (p : Packet) : Effects :=
  if p.TooShort then
    ⟨[.tooShort p.cc p.source], [], .unspecified⟩
  else
    let cc := p.cc - p.buf.hlen
    let icp := p.buf.hlen
    if p.icmpType = 14 then
      let otime := p.buf.ntohl (icp + 8)
      let rtime := p.buf.ntohl (icp + 12)
      let icmpId := p.buf.short order (icp + 4)
      let icmpSeq := p.buf.short order (icp + 6)
      let tsdiff := (rtime : Int) - tsorig
      let printed :=
        (if (otime : Int) ≠ tsorig then [.notEchoed tsorig otime] else []) ++
        (if cc ≠ 20 then [.length cc] else []) ++
        (if icmpSeq ≠ seq then [.sequence icmpSeq] else []) ++
        (if icmpId.toNat ≠ pid then [.id icmpId] else []) ++
        [.times otime rtime, .adjustment tsdiff, .correction (tvdelta tsdiff)]
      if adjtime (tvdelta tsdiff) then
        ⟨printed, [tvdelta tsdiff], .returned 0⟩
      else
        ⟨printed ++ [.adjtimeError], [tvdelta tsdiff], .exited 1⟩
    else
      ⟨[], [], .returned (-1)⟩

/-- What happens to `main` in its loop. -/
inductive Event where
  | packet (p : Packet) (leftover : Int)
  | interrupted
  | recvfromFails
  | alarm

/-- The output so far, the calls of `adjtime`, and the exit status once the process has ended. -/
structure Process where
  printed : List Line
  adjusted : List Timeval
  status : Option ℕ

/-- The value with which `main` compares the result of `procpack`. -/
def Result.value (leftover : Int) : Result → Int
  | returned value => value
  | _ => leftover

/-- The exit status after a call of `procpack`, if the process ends. -/
def Result.status (leftover : Int) : Result → Option ℕ
  | exited status => some status
  | r => if r.value leftover = 0 then some 0 else none

/-- One iteration of the loop of `main`, or the handler of the alarm. -/
def handle (order : ByteOrder) (pid : ℕ) (tsorig : Int) (adjtime : Timeval → Bool)
    (s : Process) : Event → Process
  | .packet p leftover =>
      let effects := procpack order pid tsorig adjtime p
      ⟨s.printed ++ effects.printed, s.adjusted ++ effects.adjusted,
        effects.result.status leftover⟩
  | .interrupted => s
  | .recvfromFails => { s with printed := s.printed ++ [.recvfromError] }
  | .alarm => ⟨s.printed ++ [.timeout], s.adjusted, some 1⟩

/-- The process takes events until it has ended. -/
def loop (order : ByteOrder) (pid : ℕ) (tsorig : Int) (adjtime : Timeval → Bool) :
    Process → List Event → Process
  | s, [] => s
  | s, e :: rest =>
      if s.status.isSome then s
      else loop order pid tsorig adjtime (handle order pid tsorig adjtime s e) rest

/-- `main` after the request was sent at the given time. -/
def main (order : ByteOrder) (pid : ℕ) (tvorig : Timeval) (adjtime : Timeval → Bool)
    (events : List Event) : Process :=
  loop order pid (tsorig tvorig) adjtime ⟨[], [], none⟩ events

/-! ## The clock -/

/-- The time of day of a clock, in milliseconds. -/
def timeOfDay (clock : Int) : Int := clock / 1000 % 86400000

theorem tsorig_gettimeofday (clock : ℕ) :
    tsorig (gettimeofday clock) = timeOfDay clock := by
  have seconds : ((clock : Int) / 1000000).tmod (24 * 60 * 60) = clock / 1000000 % 86400 :=
    Int.tmod_eq_emod_of_nonneg (by omega)
  have millis : ((clock : Int) % 1000000).tdiv 1000 = clock % 1000000 / 1000 :=
    Int.tdiv_eq_ediv_of_nonneg (by omega)
  rw [tsorig, gettimeofday, timeOfDay, seconds, millis]
  omega

/-- The two parts of the correction make up the difference. -/
theorem micros_tvdelta (tsdiff : Int) : (tvdelta tsdiff).micros = tsdiff * 1000 := by
  have split := Int.mul_tdiv_add_tmod tsdiff 1000
  simp only [Timeval.micros, tvdelta]
  omega

theorem tvUsec_tvdelta (tsdiff : Int) : |(tvdelta tsdiff).tvUsec| < 1000000 := by
  have above := Int.tmod_lt_of_pos tsdiff (show (0 : Int) < 1000 by decide)
  have below := Int.lt_tmod_of_pos tsdiff (show (0 : Int) < 1000 by decide)
  simp only [abs_lt, tvdelta]
  omega

/-- A clock that is moved by the difference shows the other time of the same day. -/
theorem timeOfDay_adjusted (clock : ℕ) {rtime : ℕ} (day : rtime < 86400000) :
    timeOfDay (clock + (rtime - timeOfDay clock) * 1000) = rtime := by
  rw [timeOfDay, timeOfDay]
  omega

/-! ## Replies -/

/-- The reply of a host to a request: the identifier, the sequence number and the time of the
request come back, with the times at which the host got the request and sent the reply. -/
def reply (remote : ByteOrder) (request : List Byte) (rtime ttime : ℕ) : List Byte :=
  sealed remote [14, 0] ((request.drop 4).take 8 ++ htonl rtime ++ htonl ttime)

/-- The host sends the fields of the request back. -/
theorem reply_sender (order remote : ByteOrder) (pid : ℕ) (tvorig : Timeval) (rtime ttime : ℕ) :
    reply remote (sender order pid tvorig) rtime ttime =
      sealed remote [14, 0] (order.bytes (.ofNat 16 pid) ++ order.bytes seq ++
        htonl (tsorig tvorig).toNat ++ htonl rtime ++ htonl ttime) := by
  have fields : (order.bytes (.ofNat 16 pid) ++ order.bytes seq ++
      htonl (tsorig tvorig).toNat).length = 8 := by
    simp [length_bytes, htonl]
  rw [reply, sender, drop_sealed, List.append_assoc _ (htonl 0), List.take_left' fields,
    List.append_assoc]

/-- The fields of a reply in the buffer. -/
theorem fields_reply {order remote : ByteOrder} {pid : ℕ} {tvorig : Timeval} {rtime ttime : ℕ}
    {p : Packet} {hlen : ℕ} (small : (tsorig tvorig).toNat < 2 ^ 32) (small' : rtime < 2 ^ 32)
    (carries : p.Carries hlen (reply remote (sender order pid tvorig) rtime ttime)) :
    p.icmpType = 14 ∧ p.buf.short order (hlen + 4) = .ofNat 16 pid ∧
      p.buf.short order (hlen + 6) = seq ∧ p.buf.ntohl (hlen + 8) = (tsorig tvorig).toNat ∧
      p.buf.ntohl (hlen + 12) = rtime ∧ p.cc = hlen + 20 := by
  obtain ⟨header, length, message⟩ := carries
  rw [reply_sender, sealed] at message length
  simp only [Buffer.holds_append, List.length_append, length_bytes, htonl, List.length_cons,
    List.length_nil] at message length
  obtain ⟨⟨⟨type, -⟩, -⟩, ⟨⟨⟨id, sequence⟩, otime⟩, receive⟩, -⟩ := message
  refine ⟨?_, Buffer.short_of_holds id, Buffer.short_of_holds sequence,
    Buffer.ntohl_of_holds small otime, Buffer.ntohl_of_holds small' receive, length⟩
  rw [Packet.icmpType, header]
  exact type

theorem tsorig_lt (clock : ℕ) : 0 ≤ tsorig (gettimeofday clock) ∧
    tsorig (gettimeofday clock) < 86400000 := by
  rw [tsorig_gettimeofday, timeOfDay]
  omega

/-- The lines for a reply to the request. A process id of more than 16 bits does not come back. -/
def replyLines (pid : ℕ) (clock rtime : ℕ) : List Line :=
  let tsdiff := rtime - timeOfDay clock
  (if pid < 2 ^ 16 then [] else [.id (.ofNat 16 pid)]) ++
    [.times (timeOfDay clock).toNat rtime, .adjustment tsdiff, .correction (tvdelta tsdiff)]

/-- `procpack` for a reply to the request. -/
theorem procpack_reply {order remote : ByteOrder} {pid clock rtime ttime hlen : ℕ}
    {adjtime : Timeval → Bool} {p : Packet} (small : rtime < 2 ^ 32)
    (carries : p.Carries hlen (reply remote (sender order pid (gettimeofday clock)) rtime ttime))
    (moved : ∀ tv, adjtime tv = true) :
    procpack order pid (tsorig (gettimeofday clock)) adjtime p =
      ⟨replyLines pid clock rtime, [tvdelta (rtime - timeOfDay clock)], .returned 0⟩ := by
  obtain ⟨nonneg, lt⟩ := tsorig_lt clock
  obtain ⟨type, id, sequence, otime, receive, cc⟩ := fields_reply (by omega) small carries
  have long : ¬ p.TooShort := by
    rw [Packet.TooShort, carries.header, cc, icmpMinlen]
    omega
  have length : p.cc - p.buf.hlen = 20 := by
    rw [carries.header, cc]
    omega
  have echoed : ((tsorig (gettimeofday clock)).toNat : Int) = tsorig (gettimeofday clock) :=
    Int.toNat_of_nonneg nonneg
  have known : (BitVec.ofNat 16 pid).toNat = pid ↔ pid < 2 ^ 16 := by
    rw [BitVec.toNat_ofNat, Nat.mod_eq_iff_lt (by decide)]
  rw [tsorig_gettimeofday] at otime echoed ⊢
  rw [procpack, if_neg long]
  simp only [type, if_true, carries.header ▸ length, carries.header, id, sequence, otime, receive,
    echoed, moved, ne_eq, not_true_eq_false, if_false, List.nil_append, known, replyLines, ite_not]

/-! ## Runs -/

/-- What `main` passes over: an error of `recvfrom`, or a message of another type. -/
def Event.Passed : Event → Prop
  | packet p _ => ¬ p.TooShort ∧ p.icmpType ≠ 14
  | interrupted => True
  | recvfromFails => True
  | alarm => False

/-- The lines for an event that is passed over. -/
def Event.lines : Event → List Line
  | recvfromFails => [.recvfromError]
  | _ => []

section Runs
variable {order : ByteOrder} {pid : ℕ} {adjtime : Timeval → Bool}

theorem handle_passed {s : Process} (running : s.status = none) {e : Event} (passed : e.Passed)
    (tsorig : Int) : handle order pid tsorig adjtime s e = { s with printed := s.printed ++ e.lines } := by
  cases e with
  | packet p leftover =>
      have call : procpack order pid tsorig adjtime p = ⟨[], [], .returned (-1)⟩ := by
        rw [procpack, if_neg passed.1]
        exact if_neg passed.2
      simp [handle, call, Result.status, Result.value, Event.lines, running]
  | interrupted => simp [handle, Event.lines]
  | recvfromFails => rfl
  | alarm => exact passed.elim

theorem loop_passed {s : Process} (running : s.status = none) {before : List Event}
    (passed : ∀ e ∈ before, e.Passed) (tsorig : Int) (rest : List Event) :
    loop order pid tsorig adjtime s (before ++ rest) =
      loop order pid tsorig adjtime { s with printed := s.printed ++ before.flatMap Event.lines }
        rest := by
  induction before generalizing s with
  | nil => simp
  | cons e before ih =>
      have now : handle order pid tsorig adjtime s e = { s with printed := s.printed ++ e.lines } :=
        handle_passed running (passed e List.mem_cons_self) tsorig
      have later := fun e' he => passed e' (List.mem_cons_of_mem e he)
      have shown := ih (s := { s with printed := s.printed ++ e.lines }) running later
      rw [List.cons_append, loop, running, if_neg (by simp), now, ← running, shown,
        List.flatMap_cons, List.append_assoc]

/-- The first timestamp reply is the last message that `main` looks at. If it answers the request
then the clock is moved once, to the time of day of the other host. -/
theorem main_sets_clock {remote : ByteOrder} {clock rtime ttime hlen : ℕ} {p : Packet}
    {before : List Event} (passed : ∀ e ∈ before, e.Passed) (day : rtime < 86400000)
    (carries : p.Carries hlen (reply remote (sender order pid (gettimeofday clock)) rtime ttime))
    (moved : ∀ tv, adjtime tv = true) (leftover : Int) (after : List Event) :
    ∃ tvdelta, main order pid (gettimeofday clock) adjtime
        (before ++ .packet p leftover :: after) =
        ⟨before.flatMap Event.lines ++ replyLines pid clock rtime, [tvdelta], some 0⟩ ∧
      |tvdelta.tvUsec| < 1000000 ∧ timeOfDay (clock + tvdelta.micros) = rtime := by
  have call := procpack_reply (by omega) carries moved
  refine ⟨tvdelta (rtime - timeOfDay clock), ?_, tvUsec_tvdelta _, ?_⟩
  · rw [main, loop_passed rfl passed, loop, if_neg (by simp), handle, call]
    cases after <;> rfl
  · rw [micros_tvdelta]
    exact timeOfDay_adjusted clock day

theorem main_sets_clock_interrupted :
    ∃ tvdelta, main .little 700 (gettimeofday 1500000) (fun _ => true)
        ([.interrupted] ++
          [.packet (packetOf (reply .big (sender .little 700 (gettimeofday 1500000)) 9000 9001)) 7]) =
        ⟨[.interrupted].flatMap Event.lines ++ replyLines 700 1500000 9000, [tvdelta], some 0⟩ ∧
      |tvdelta.tvUsec| < 1000000 ∧
      timeOfDay ((1500000 : ℕ) + tvdelta.micros) = (9000 : ℕ) :=
  main_sets_clock (by simp [Event.Passed]) (by decide) (packetOf_carries _) (fun _ => rfl) 7 []

end Runs

end Timestamp

end SamplePrograms.Icmp
