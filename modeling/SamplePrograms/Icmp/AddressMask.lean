import SamplePrograms.Icmp.Messages

/-!
# `icmpaddrmask.c`

The program asks the hosts of a network for their address mask and prints each reply that comes
within five seconds. The handler of the alarm ends the process, with status 0 if a reply was
counted.

## Implementation notes

The alarm may come at any point. What the process does for a packet is therefore a list of steps,
of which the alarm cuts off the rest. The text of a line and the result of `sendto` are left out.
-/

namespace SamplePrograms.Icmp.AddressMask

/-- A line of output, with the arguments of its format. -/
inductive Line where
  | tooShort (cc : ℕ) (source : InAddr)
  | length (cc : ℕ)
  | sequence (seq : BitVec 16)
  | id (id : BitVec 16)
  | mask (mask : ℕ) (source : InAddr)
  | recvfromError
  | timeout
  deriving DecidableEq

/-- A line that is printed, or `response++`. -/
inductive Step where
  | print (line : Line)
  | respond
  deriving DecidableEq

/-- The sequence number of the request. -/
def seq : BitVec 16 := 12345

/-- `ICMP_MASKLEN`. -/
def icmpMasklen : ℕ := 12

/-- The message that `sender` sends. -/
def sender (order : ByteOrder) (pid : ℕ) : List Byte :=
  sealed order [17, 0] (order.bytes (.ofNat 16 pid) ++ order.bytes seq ++ htonl 0)

def procpack (order : ByteOrder) (pid : ℕ) (p : Packet) : List Step :=
  if p.TooShort then
    [.print (.tooShort p.cc p.source)]
  else
    let cc := p.cc - p.buf.hlen
    let icp := p.buf.hlen
    if p.icmpType = 18 then
      let icmpId := p.buf.short order (icp + 4)
      let icmpSeq := p.buf.short order (icp + 6)
      (if cc ≠ icmpMasklen then [.print (.length cc)] else []) ++
      (if icmpSeq ≠ seq then [.print (.sequence icmpSeq)] else []) ++
      (if icmpId.toNat ≠ pid then [.print (.id icmpId)] else []) ++
      [.print (.mask (p.buf.ntohl (icp + 8)) p.source), .respond]
    else []

/-- The results of `recvfrom`. -/
inductive Event where
  | packet (p : Packet)
  | interrupted
  | recvfromFails

/-- One iteration of the loop of `main`. -/
def iteration (order : ByteOrder) (pid : ℕ) : Event → List Step
  | .packet p => procpack order pid p
  | .interrupted => []
  | .recvfromFails => [.print .recvfromError]

/-- The output so far, and the global `response`. -/
structure Process where
  printed : List Line
  response : ℕ

def Process.step (s : Process) : Step → Process
  | .print line => { s with printed := s.printed ++ [line] }
  | .respond => { s with response := s.response + 1 }

/-- `sig_alrm`: the output and the exit status. -/
def sigAlrm (s : Process) : List Line × ℕ :=
  if s.response = 0 then (s.printed ++ [.timeout], 1) else (s.printed, 0)

/-- The steps before the alarm. -/
def taken (order : ByteOrder) (pid : ℕ) (events : List Event) (steps : ℕ) : List Step :=
  (events.flatMap (iteration order pid)).take steps

/-- `main` after the request was sent, with an alarm after the given number of steps. -/
def main (order : ByteOrder) (pid : ℕ) (events : List Event) (steps : ℕ) : List Line × ℕ :=
  sigAlrm ((taken order pid events steps).foldl Process.step ⟨[], 0⟩)

/-! ## Steps -/

section Steps
variable {order : ByteOrder} {pid : ℕ}

def Step.line : Step → Option Line
  | print line => some line
  | respond => none

theorem printed_foldl (steps : List Step) (s : Process) :
    (steps.foldl Process.step s).printed = s.printed ++ steps.filterMap Step.line := by
  induction steps generalizing s with
  | nil => simp
  | cons step rest ih =>
      rw [List.foldl_cons, ih]
      cases step with
      | print line => simp [Process.step, Step.line]
      | respond => rfl

theorem response_foldl (steps : List Step) (s : Process) :
    (steps.foldl Process.step s).response = s.response + steps.count .respond := by
  induction steps generalizing s with
  | nil => simp
  | cons step rest ih =>
      rw [List.foldl_cons, ih]
      cases step with
      | print line => simp [Process.step]
      | respond =>
          rw [List.count_cons_self, Process.step, Nat.add_assoc, Nat.add_comm 1]

theorem main_of_respond {events : List Event} {steps : ℕ}
    (h : .respond ∈ taken order pid events steps) :
    main order pid events steps = ((taken order pid events steps).filterMap Step.line, 0) := by
  have counted : ((taken order pid events steps).foldl Process.step ⟨[], 0⟩).response ≠ 0 := by
    rw [response_foldl, Nat.zero_add]
    exact (List.count_pos_iff.mpr h).ne'
  rw [main, sigAlrm, if_neg counted, printed_foldl, List.nil_append]

theorem main_of_not_respond {events : List Event} {steps : ℕ}
    (h : .respond ∉ taken order pid events steps) :
    main order pid events steps =
      ((taken order pid events steps).filterMap Step.line ++ [.timeout], 1) := by
  have counted : ((taken order pid events steps).foldl Process.step ⟨[], 0⟩).response = 0 := by
    rw [response_foldl, Nat.zero_add]
    exact List.count_eq_zero.mpr h
  rw [main, sigAlrm, if_pos counted, printed_foldl, List.nil_append]

/-- A packet that is counted. -/
def Event.IsReply : Event → Prop
  | packet p => ¬ p.TooShort ∧ p.icmpType = 18
  | _ => False

/-- The line with the mask of a reply. -/
def Step.ShowsMask (step : Step) : Prop := ∃ mask source, step = .print (.mask mask source)

/-- The mask is printed and the reply counted after all other lines for the packet. -/
theorem iteration_of_reply (order : ByteOrder) (pid : ℕ) {e : Event} (reply : e.IsReply) :
    ∃ lines mask source, iteration order pid e =
      lines ++ [.print (.mask mask source), .respond] ∧
      ∀ step ∈ lines, step ≠ .respond ∧ ¬ step.ShowsMask := by
  cases e with
  | packet p =>
      obtain ⟨long, type⟩ := reply
      simp only [iteration, procpack, if_neg long, type, if_true]
      refine ⟨_, _, _, rfl, fun step h => ?_⟩
      simp only [List.mem_append] at h
      obtain (h | h) | h := h <;> split at h <;> simp_all [Step.ShowsMask]
  | interrupted => exact reply.elim
  | recvfromFails => exact reply.elim

theorem iteration_of_not_reply (order : ByteOrder) (pid : ℕ) {e : Event} (other : ¬ e.IsReply) :
    ∀ step ∈ iteration order pid e, step ≠ .respond ∧ ¬ step.ShowsMask := by
  cases e with
  | packet p =>
      intro step h
      rw [iteration, procpack] at h
      split at h
      · simp_all [Step.ShowsMask]
      · rename_i long
        simp only [if_neg fun type => other ⟨long, type⟩, List.not_mem_nil] at h
  | interrupted => simp [iteration]
  | recvfromFails => simp [iteration, Step.ShowsMask]

theorem respond_mem_take_iff {e : Event} {k : ℕ} :
    .respond ∈ (iteration order pid e).take k ↔
      e.IsReply ∧ (iteration order pid e).length ≤ k := by
  by_cases reply : e.IsReply
  · obtain ⟨lines, mask, source, steps, others⟩ :=
      iteration_of_reply order pid reply
    have before : .respond ∉ lines.take k := fun h => (others _ (List.mem_of_mem_take h)).1 rfl
    have last : ∀ m, .respond ∈ [Step.print (.mask mask source), .respond].take m ↔ 2 ≤ m
      | 0 => by simp
      | 1 => by simp
      | m + 2 => by simp
    rw [steps, List.take_append, List.mem_append, or_iff_right before, last, List.length_append,
      List.length_cons, List.length_singleton]
    simp only [reply, true_and]
    omega
  · have never := iteration_of_not_reply order pid reply
    exact iff_of_false (fun h => (never _ (List.mem_of_mem_take h)).1 rfl) fun h => reply h.1

theorem showsMask_mem_take_iff {e : Event} {k : ℕ} :
    (∃ step ∈ (iteration order pid e).take k, step.ShowsMask) ↔
      e.IsReply ∧ (iteration order pid e).length ≤ k + 1 := by
  by_cases reply : e.IsReply
  · obtain ⟨lines, mask, source, steps, others⟩ :=
      iteration_of_reply order pid reply
    have before : ¬ ∃ step ∈ lines.take k, step.ShowsMask :=
      fun ⟨step, h, shows⟩ => (others step (List.mem_of_mem_take h)).2 shows
    have last : ∀ m, (∃ step ∈ [Step.print (.mask mask source), .respond].take m,
        step.ShowsMask) ↔ 1 ≤ m
      | 0 => by simp
      | 1 => by simp [Step.ShowsMask]
      | m + 2 => by simp [Step.ShowsMask]
    simp only [steps, List.take_append, List.mem_append, or_and_right, exists_or, before, last,
      false_or, reply, true_and, List.length_append, List.length_cons, List.length_nil]
    omega
  · have never := iteration_of_not_reply order pid reply
    exact iff_of_false (fun ⟨step, h, shows⟩ => (never step (List.mem_of_mem_take h)).2 shows)
      fun h => reply h.1

/-- What is taken of the steps of a list of events comes from one of them. -/
theorem mem_taken_iff {events : List Event} {steps : ℕ} {step : Step} :
    step ∈ taken order pid events steps ↔ ∃ before e after, events = before ++ e :: after ∧
      step ∈ (iteration order pid e).take
        (steps - (before.flatMap (iteration order pid)).length) := by
  induction events generalizing steps with
  | nil => simp [taken]
  | cons first rest ih =>
      rw [taken, List.flatMap_cons, List.take_append, List.mem_append, ← taken, ih]
      constructor
      · rintro (now | ⟨before, e, after, rfl, later⟩)
        · exact ⟨[], first, rest, rfl, by simpa using now⟩
        · refine ⟨first :: before, e, after, rfl, ?_⟩
          rwa [List.flatMap_cons, List.length_append, ← Nat.sub_sub]
      · rintro ⟨before, e, after, split, h⟩
        cases before with
        | nil =>
            obtain ⟨rfl, rfl⟩ := List.cons.inj split
            exact .inl (by simpa using h)
        | cons b before =>
            obtain ⟨rfl, rfl⟩ := List.cons.inj split
            refine .inr ⟨before, e, after, rfl, ?_⟩
            rwa [List.flatMap_cons, List.length_append, ← Nat.sub_sub] at h

/-! ## The alarm -/

/-- The steps for some events. -/
def stepCount (order : ByteOrder) (pid : ℕ) (events : List Event) : ℕ :=
  (events.flatMap (iteration order pid)).length

theorem stepCount_append (events events' : List Event) :
    stepCount order pid (events ++ events') =
      stepCount order pid events + stepCount order pid events' := by
  simp [stepCount]

theorem stepCount_concat (before : List Event) (e : Event) :
    stepCount order pid (before ++ [e]) =
      stepCount order pid before + (iteration order pid e).length := by
  simp [stepCount]

theorem two_le_of_reply (order : ByteOrder) (pid : ℕ) {e : Event} (reply : e.IsReply) :
    2 ≤ (iteration order pid e).length := by
  obtain ⟨lines, mask, source, steps, -⟩ :=
    iteration_of_reply order pid reply
  rw [steps, List.length_append]
  exact Nat.le_add_left 2 _

theorem respond_mem_taken_iff {events : List Event} {steps : ℕ} :
    .respond ∈ taken order pid events steps ↔ ∃ before e after, events = before ++ e :: after ∧
      e.IsReply ∧ stepCount order pid (before ++ [e]) ≤ steps := by
  rw [mem_taken_iff]
  refine exists_congr fun before => exists_congr fun e => exists_congr fun after =>
    and_congr_right fun _ => ?_
  rw [respond_mem_take_iff, stepCount_concat]
  refine and_congr_right fun reply => ?_
  have two := two_le_of_reply order pid reply
  rw [← stepCount]
  omega

theorem showsMask_mem_taken_iff {events : List Event} {steps : ℕ} :
    (∃ step ∈ taken order pid events steps, step.ShowsMask) ↔
      ∃ before e after, events = before ++ e :: after ∧ e.IsReply ∧
        stepCount order pid (before ++ [e]) ≤ steps + 1 := by
  constructor
  · rintro ⟨step, h, shows⟩
    obtain ⟨before, e, after, split, h⟩ := mem_taken_iff.mp h
    obtain ⟨reply, length⟩ := showsMask_mem_take_iff.mp ⟨step, h, shows⟩
    have two := two_le_of_reply order pid reply
    refine ⟨before, e, after, split, reply, ?_⟩
    rw [stepCount_concat, stepCount]
    omega
  · rintro ⟨before, e, after, split, reply, length⟩
    have two := two_le_of_reply order pid reply
    rw [stepCount_concat, stepCount] at length
    obtain ⟨step, h, shows⟩ := showsMask_mem_take_iff.mpr
      (show e.IsReply ∧ (iteration order pid e).length ≤
        steps - (before.flatMap (iteration order pid)).length + 1 from ⟨reply, by omega⟩)
    exact ⟨step, mem_taken_iff.mpr ⟨before, e, after, split, h⟩, shows⟩

/-- The mask of a reply is in the output. -/
def ShowsMask (output : List Line × ℕ) : Prop := ∃ mask source, .mask mask source ∈ output.1

theorem showsMask_main_iff {events : List Event} {steps : ℕ} :
    ShowsMask (main order pid events steps) ↔
      ∃ step ∈ taken order pid events steps, step.ShowsMask := by
  have shown : ∀ mask source,
      .mask mask source ∈ (taken order pid events steps).filterMap Step.line ↔
        .print (.mask mask source) ∈ taken order pid events steps := by
    intro mask source
    rw [List.mem_filterMap]
    constructor
    · rintro ⟨step, h, line⟩
      cases step with
      | print line' =>
          obtain rfl := Option.some.inj line
          exact h
      | respond => cases line
    · exact fun h => ⟨_, h, rfl⟩
  have same : ShowsMask (main order pid events steps) ↔ ∃ mask source,
      .mask mask source ∈ (taken order pid events steps).filterMap Step.line := by
    by_cases h : .respond ∈ taken order pid events steps
    · rw [main_of_respond h, ShowsMask]
    · simp [main_of_not_respond h, ShowsMask]
  rw [same]
  simp only [shown, Step.ShowsMask]
  constructor
  · rintro ⟨mask, source, h⟩
    exact ⟨_, h, mask, source, rfl⟩
  · rintro ⟨_, h, mask, source, rfl⟩
    exact ⟨mask, source, h⟩

theorem status_eq_zero_iff {events : List Event} {steps : ℕ} :
    (main order pid events steps).2 = 0 ↔ .respond ∈ taken order pid events steps := by
  by_cases h : .respond ∈ taken order pid events steps
  · simp [main_of_respond h, h]
  · simp [main_of_not_respond h, h]

/-- The program reports a timeout although it printed a mask exactly if the alarm comes between
the line of the first reply and `response++`. -/
theorem timeout_showsMask_iff {events : List Event} {steps : ℕ} :
    (main order pid events steps).2 ≠ 0 ∧ ShowsMask (main order pid events steps) ↔
      ∃ before e after, events = before ++ e :: after ∧ (∀ e' ∈ before, ¬ e'.IsReply) ∧
        e.IsReply ∧ stepCount order pid (before ++ [e]) = steps + 1 := by
  rw [Ne, status_eq_zero_iff, showsMask_main_iff, showsMask_mem_taken_iff]
  constructor
  · rintro ⟨lost, before, e, after, split, reply, length⟩
    rw [respond_mem_taken_iff] at lost
    have uncounted : ¬ stepCount order pid (before ++ [e]) ≤ steps :=
      fun h => lost ⟨before, e, after, split, reply, h⟩
    refine ⟨before, e, after, split, fun e' h reply' => ?_, reply, by omega⟩
    obtain ⟨b, a, rfl⟩ := List.append_of_mem h
    refine lost ⟨b, e', a ++ e :: after, by simp [split], reply', ?_⟩
    have two := two_le_of_reply order pid reply
    rw [stepCount_concat, ← List.singleton_append, ← List.append_assoc, stepCount_append] at length
    omega
  · rintro ⟨before, e, after, split, first, reply, length⟩
    refine ⟨fun h => ?_, before, e, after, split, reply, length.le⟩
    obtain ⟨before', e', after', split', reply', length'⟩ := respond_mem_taken_iff.mp h
    rw [split, List.append_eq_append_iff] at split'
    obtain ⟨a, rfl, tail⟩ | ⟨a, rfl, tail⟩ := split'
    · cases a with
      | nil =>
          obtain ⟨rfl, rfl⟩ := List.cons.inj tail
          rw [List.append_nil] at length'
          omega
      | cons x a =>
          obtain ⟨rfl, rfl⟩ := List.cons.inj tail
          have two := two_le_of_reply order pid reply'
          rw [stepCount_concat, ← List.singleton_append, ← List.append_assoc,
            stepCount_append] at length'
          omega
    · cases a with
      | nil =>
          obtain ⟨rfl, rfl⟩ := List.cons.inj tail
          rw [List.append_nil] at length
          omega
      | cons x a =>
          obtain ⟨rfl, rfl⟩ := List.cons.inj tail
          exact first e' (by simp) reply'

end Steps

/-! ## Answers to the request -/

/-- The reply of a host: the identifier and the sequence number come back with the mask. -/
def reply (remote : ByteOrder) (request : List Byte) (mask : BitVec 32) : List Byte :=
  sealed remote [18, 0] ((request.drop 4).take 4 ++ htonl mask.toNat)

/-- A packet with the reply of a host to the request. -/
structure Answer (order : ByteOrder) (pid : ℕ) where
  packet : Packet
  hlen : ℕ
  remote : ByteOrder
  mask : BitVec 32
  carries : packet.Carries hlen (reply remote (sender order pid) mask)

/-- An answer, or anything else that is not a mask reply. -/
inductive Traffic (order : ByteOrder) (pid : ℕ) where
  | answer (a : Answer order pid)
  | other (e : Event) (ignored : ¬ e.IsReply)

section Answers
variable {order : ByteOrder} {pid : ℕ}

/-- The lines for an answer. A process id of more than 16 bits does not come back. -/
def Answer.lines (a : Answer order pid) : List Line :=
  (if pid < 2 ^ 16 then [] else [.id (.ofNat 16 pid)]) ++ [.mask a.mask.toNat a.packet.source]

/-- The lines for an event that is not a mask reply. -/
def otherLines : Event → List Line
  | .packet p => if p.TooShort then [.tooShort p.cc p.source] else []
  | .interrupted => []
  | .recvfromFails => [.recvfromError]

namespace Traffic

def event : Traffic order pid → Event
  | answer a => .packet a.packet
  | other e _ => e

def lines : Traffic order pid → List Line
  | answer a => a.lines
  | other e _ => otherLines e

def isAnswer : Traffic order pid → Bool
  | answer _ => true
  | other .. => false

end Traffic

theorem reply_sender (order remote : ByteOrder) (pid : ℕ) (mask : BitVec 32) :
    reply remote (sender order pid) mask =
      sealed remote [18, 0] (order.bytes (.ofNat 16 pid) ++ order.bytes seq ++
        htonl mask.toNat) := by
  have fields : (order.bytes (.ofNat 16 pid) ++ order.bytes seq).length = 4 := by
    simp [length_bytes]
  rw [reply, sender, drop_sealed, List.take_left' fields]

/-- The fields of an answer in the buffer. -/
theorem Answer.fields (a : Answer order pid) :
    a.packet.icmpType = 18 ∧ a.packet.buf.short order (a.hlen + 4) = .ofNat 16 pid ∧
      a.packet.buf.short order (a.hlen + 6) = seq ∧
      a.packet.buf.ntohl (a.hlen + 8) = a.mask.toNat ∧ a.packet.cc = a.hlen + 12 := by
  obtain ⟨header, length, message⟩ := a.carries
  rw [reply_sender, sealed] at message length
  simp only [Buffer.holds_append, List.length_append, length_bytes, htonl, List.length_cons,
    List.length_nil] at message length
  obtain ⟨⟨⟨type, -⟩, -⟩, ⟨id, sequence⟩, mask⟩ := message
  refine ⟨?_, Buffer.short_of_holds id, Buffer.short_of_holds sequence,
    Buffer.ntohl_of_holds a.mask.isLt mask, length⟩
  rw [Packet.icmpType, header]
  exact type

theorem iteration_answer (a : Answer order pid) :
    iteration order pid (.packet a.packet) = a.lines.map .print ++ [.respond] := by
  obtain ⟨type, id, sequence, mask, cc⟩ := a.fields
  have long : ¬ a.packet.TooShort := by
    rw [Packet.TooShort, a.carries.header, cc, icmpMinlen]
    omega
  have length : a.packet.cc - a.hlen = icmpMasklen := by
    rw [cc, icmpMasklen]
    omega
  have known : (BitVec.ofNat 16 pid).toNat = pid ↔ pid < 2 ^ 16 := by
    rw [BitVec.toNat_ofNat, Nat.mod_eq_iff_lt (by decide)]
  rw [iteration, procpack, if_neg long]
  simp only [type, if_true, a.carries.header, length, id, sequence, mask, ne_eq, not_true_eq_false,
    if_false, List.nil_append, known, ite_not, Answer.lines]
  split <;> rfl

theorem iteration_other {e : Event} (ignored : ¬ e.IsReply) :
    iteration order pid e = (otherLines e).map .print := by
  cases e with
  | packet p =>
      rw [iteration, procpack, otherLines]
      by_cases short : p.TooShort
      · rw [if_pos short, if_pos short]
        rfl
      · have type : p.icmpType ≠ 18 := fun type => ignored ⟨short, type⟩
        simp only [if_neg short, if_neg type, List.map_nil]
  | interrupted => rfl
  | recvfromFails => rfl

theorem filterMap_line_print (lines : List Line) :
    (lines.map Step.print).filterMap Step.line = lines := by
  rw [List.filterMap_map]
  exact List.filterMap_some

theorem filterMap_line_event (t : Traffic order pid) :
    (iteration order pid t.event).filterMap Step.line = t.lines := by
  cases t with
  | answer a =>
      rw [Traffic.event, iteration_answer, List.filterMap_append, filterMap_line_print]
      exact List.append_nil _
  | other e ignored =>
      rw [Traffic.event, iteration_other ignored, filterMap_line_print]
      rfl

theorem respond_mem_event_iff (t : Traffic order pid) :
    .respond ∈ iteration order pid t.event ↔ t.isAnswer := by
  cases t with
  | answer a => simp [Traffic.event, iteration_answer, Traffic.isAnswer]
  | other e ignored => simp [Traffic.event, iteration_other ignored, Traffic.isAnswer]

/-- The reply of a host of the other byte order. -/
def answerBig : Answer .little 700 where
  packet := packetOf (reply .big (sender .little 700) 0xffffff00)
  hlen := 20
  remote := .big
  mask := 0xffffff00
  carries := packetOf_carries _

end Answers
end SamplePrograms.Icmp.AddressMask
