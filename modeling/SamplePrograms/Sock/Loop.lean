import SamplePrograms.Sock.Crlf

/-!
# `loop.c`

The program copies its standard input to a socket and the socket to its standard output, as `select`
finds them ready, until one of them ends.

## Implementation notes

`select` does not fail. An iteration comes with what `read` returns for each descriptor that is
ready, with whether the socket takes all of a `write`, and with the results of `write` on the standard
output. The state keeps what was read so far. A UDP server reads the socket with `recvfrom`, for
which no bytes are no end; the lines about the sender are left out.
-/

namespace SamplePrograms.Sock

/-- The result of `read`. -/
inductive Read where
  | data (bytes : List Byte)
  | eof
  | error

/-- One return of `select`. -/
structure Ready where
  stdin : Option Read
  sock : Option Read
  sent : Bool
  stdout : List WriteResult

/-- `crlf`, `halfclose`, `udp && server`, and the sizes of the buffers. -/
structure LoopOptions where
  crlf : Bool
  halfclose : Bool
  udpServer : Bool
  readlen : ℕ
  writelen : ℕ

/-- How the loop ends. It may also not come back from `writen`. -/
inductive Exit where
  | stdinEof
  | peerEof
  | errSys
  | errQuit
  | inWriten
  deriving DecidableEq

structure LoopState where
  stdineof : Bool
  fromStdin : List Byte
  toSock : List Byte
  fromSock : List Byte
  toStdout : List Byte
  exit : Option Exit

/-- The bytes to send for some bytes of the standard input, if the buffer has room. -/
def LoopOptions.outgoing (o : LoopOptions) (bytes : List Byte) : Option (List Byte) :=
  if o.crlf then (crlfAdd o.writelen bytes).map fun r => r.1.take r.2 else some bytes

/-- The bytes to print for some bytes of the socket, if the buffer has room. -/
def LoopOptions.incoming (o : LoopOptions) (bytes : List Byte) : Option (List Byte) :=
  if o.crlf then (crlfStrip o.writelen bytes).map fun r => r.1.take r.2 else some bytes

/-- The first half of an iteration, if the descriptor is in the set: `none` stands for `continue`. -/
def copyStdin (o : LoopOptions) (e : Ready) (s : LoopState) : LoopState × Bool :=
  match if s.stdineof then none else e.stdin with
  | none => (s, true)
  | some .error => ({ s with exit := some .errSys }, false)
  | some .eof =>
      if o.halfclose then ({ s with stdineof := true }, false)
      else ({ s with exit := some .stdinEof }, false)
  | some (.data bytes) =>
      let s := { s with fromStdin := s.fromStdin ++ bytes }
      match o.outgoing bytes with
      | none => ({ s with exit := some .errQuit }, false)
      | some out =>
          if e.sent then ({ s with toSock := s.toSock ++ out }, true)
          else ({ s with exit := some .errSys }, false)

/-- The bytes of the socket are printed. -/
def printSock (o : LoopOptions) (e : Ready) (bytes : List Byte) (s : LoopState) : LoopState :=
  let s := { s with fromSock := s.fromSock ++ bytes }
  match o.incoming bytes with
  | none => { s with exit := some .errQuit }
  | some buf =>
      let w := writen buf e.stdout
      let s := { s with toStdout := s.toStdout ++ w.out }
      match w.ending with
      | .returned value => if value = buf.length then s else { s with exit := some .errSys }
      | _ => { s with exit := some .inWriten }

/-- The second half of an iteration. -/
def copySock (o : LoopOptions) (e : Ready) (s : LoopState) : LoopState :=
  match e.sock with
  | none => s
  | some .error => { s with exit := some .errSys }
  | some .eof => if o.udpServer then printSock o e [] s else { s with exit := some .peerEof }
  | some (.data bytes) => printSock o e bytes s

def iteration (o : LoopOptions) (s : LoopState) (e : Ready) : LoopState :=
  match copyStdin o e s with
  | (s, true) => copySock o e s
  | (s, false) => s

/-- `loop`, for what `select` finds. -/
def loop (o : LoopOptions) : LoopState → List Ready → LoopState
  | s, [] => s
  | s, e :: rest => if s.exit.isSome then s else loop o (iteration o s e) rest

/-- The state before the loop. -/
def loopStart : LoopState := ⟨false, [], [], [], [], none⟩

/-! ## Copies -/

section Copies
variable {o : LoopOptions} {s : LoopState} {e : Ready}

/-- The loop goes on, or it ended at the end of the input or of the connection. -/
def LoopState.Fine (s : LoopState) : Prop :=
  s.exit = none ∨ s.exit = some .stdinEof ∨ s.exit = some .peerEof

/-- Everything that was read was passed on, and a half-closed connection stays open. -/
structure Copied (o : LoopOptions) (s : LoopState) : Prop where
  toSock : s.toSock = if o.crlf then addReturns s.fromStdin else s.fromStdin
  toStdout : s.toStdout = if o.crlf then stripReturns s.fromSock else s.fromSock
  halfclose : o.halfclose = true → s.exit ≠ some .stdinEof

theorem outgoing_eq_some {bytes out : List Byte} (h : o.outgoing bytes = some out) :
    out = if o.crlf then addReturns bytes else bytes := by
  rw [LoopOptions.outgoing] at h
  split at h
  · rw [crlfAdd_eq] at h
    split at h
    · rename_i crlf _
      rw [Option.map_some, List.take_length] at h
      rw [if_pos crlf, Option.some.inj h]
    · cases h
  · rename_i crlf
    rw [if_neg crlf, Option.some.inj h]

theorem incoming_eq_some {bytes buf : List Byte} (h : o.incoming bytes = some buf) :
    buf = if o.crlf then stripReturns bytes else bytes := by
  rw [LoopOptions.incoming] at h
  split at h
  · rw [crlfStrip_eq] at h
    split at h
    · rename_i crlf _
      rw [Option.map_some, List.take_length] at h
      rw [if_pos crlf, Option.some.inj h]
    · cases h
  · rename_i crlf
    rw [if_neg crlf, Option.some.inj h]

/-- Without errors a call of `writen` that returns its length has written the buffer. -/
theorem writen_out {buf : List Byte} {results : List WriteResult} (clean : .error ∉ results)
    (h : (writen buf results).ending = .returned buf.length) : (writen buf results).out = buf := by
  cases buf with
  | nil => cases results <;> rfl
  | cons b buf =>
      have whole : writen (b :: buf) results = ⟨(writen (b :: buf) results).out,
          .returned (b :: buf).length, (writen (b :: buf) results).rest⟩ := by
        rw [← h]
      obtain ⟨used, split, ⟨-, -, same⟩ | none⟩ := writen_returned whole
      · exact same fun h => clean (split ▸ List.mem_append_left _ h)
      · cases none

theorem Copied.printSock {bytes : List Byte} (copied : Copied o s) (clean : .error ∉ e.stdout)
    (fine : (printSock o e bytes s).Fine) : Copied o (printSock o e bytes s) := by
  rw [Sock.printSock] at fine ⊢
  cases into : o.incoming bytes with
  | none => simp [into, LoopState.Fine] at fine
  | some buf =>
      simp only [into] at fine ⊢
      split at fine
      · rename_i value returned
        split at fine
        · rename_i whole
          rw [if_pos whole]
          rw [whole] at returned
          refine ⟨copied.toSock, ?_, copied.halfclose⟩
          have printed := writen_out clean returned
          have kept := incoming_eq_some into
          simp only [printed, copied.toStdout]
          rw [kept]
          split
          · rw [stripReturns_append]
          · rfl
        · simp [LoopState.Fine] at fine
      · simp [LoopState.Fine] at fine

theorem Copied.copySock (copied : Copied o s) (clean : .error ∉ e.stdout)
    (fine : (copySock o e s).Fine) : Copied o (copySock o e s) := by
  rw [Sock.copySock] at fine ⊢
  split at fine
  · exact copied
  · simp [LoopState.Fine] at fine
  · split at fine
    · rename_i datagram
      rw [if_pos datagram]
      exact copied.printSock clean fine
    · rename_i stream
      rw [if_neg stream]
      exact ⟨copied.toSock, copied.toStdout, by simp⟩
  · exact copied.printSock clean fine

theorem Copied.copyStdin (copied : Copied o s) (fine : (copyStdin o e s).1.Fine) :
    Copied o (copyStdin o e s).1 := by
  rw [Sock.copyStdin] at fine ⊢
  split at fine
  · exact copied
  · simp [LoopState.Fine] at fine
  · split at fine
    · rename_i half
      rw [if_pos half]
      exact ⟨copied.toSock, copied.toStdout, copied.halfclose⟩
    · rename_i half
      rw [if_neg half]
      exact ⟨copied.toSock, copied.toStdout, fun h => absurd h half⟩
  · rename_i bytes _
    cases out : o.outgoing bytes with
    | none => simp [out, LoopState.Fine] at fine
    | some buf =>
        simp only [out] at fine ⊢
        split at fine
        · rename_i sent
          rw [if_pos sent]
          refine ⟨?_, copied.toStdout, copied.halfclose⟩
          simp only [copied.toSock, outgoing_eq_some out]
          split
          · rw [addReturns_append]
          · rfl
        · simp [LoopState.Fine] at fine

/-- The second half of an iteration follows only if the first half did not end the loop. -/
theorem exit_copyStdin (go : (copyStdin o e s).2 = true) : (copyStdin o e s).1.exit = s.exit := by
  rw [Sock.copyStdin] at go ⊢
  split at go
  · rfl
  · cases go
  · split at go <;> cases go
  · cases out : o.outgoing _ with
    | none => simp [out] at go
    | some buf =>
        simp only [out] at go ⊢
        split at go
        · rename_i sent
          rw [if_pos sent]
        · cases go

theorem Copied.iteration (copied : Copied o s) (running : s.exit = none)
    (clean : .error ∉ e.stdout) (fine : (iteration o s e).Fine) :
    Copied o (iteration o s e) := by
  have exit := exit_copyStdin (o := o) (e := e) (s := s)
  have first := copied.copyStdin (e := e)
  rw [Sock.iteration] at fine ⊢
  cases half : Sock.copyStdin o e s with
  | mk s₁ go =>
      rw [half] at exit first
      cases go with
      | true =>
          simp only [half] at fine ⊢
          exact (first (.inl ((exit rfl).trans running))).copySock clean fine
      | false =>
          simp only [half] at fine ⊢
          exact first fine

theorem Copied.loop {events : List Ready} (clean : ∀ e ∈ events, .error ∉ e.stdout)
    {s : LoopState} (copied : s.Fine → Copied o s) (fine : (loop o s events).Fine) :
    Copied o (loop o s events) := by
  induction events generalizing s with
  | nil => exact copied fine
  | cons e events ih =>
      rw [Sock.loop] at fine ⊢
      split at fine
      · rename_i ended
        rw [if_pos ended]
        exact copied fine
      · rename_i running
        rw [if_neg running]
        have none : s.exit = none := by simpa using running
        refine ih (fun e' h => clean e' (List.mem_cons_of_mem e h)) (fun fine' => ?_) fine
        exact (copied (.inl none)).iteration none (clean e List.mem_cons_self) fine'

/-- A line in two pieces, and an answer while standard input is at its end. -/
def talk : List Ready :=
  [⟨some (.data [72, 105]), none, true, []⟩,
    ⟨some (.data [10]), some (.data [79]), true, [.wrote 1]⟩,
    ⟨some .eof, none, true, []⟩,
    ⟨none, some (.data [75, 13, 10]), true, [.wrote 1, .wrote 1]⟩,
    ⟨none, some .eof, true, []⟩]

/-- `read` gets at most `readlen` bytes. -/
def Ready.Sized (o : LoopOptions) (e : Ready) : Prop :=
  ∀ bytes, e.stdin = some (.data bytes) ∨ e.sock = some (.data bytes) → bytes.length ≤ o.readlen

theorem outgoing_ne_none (large : o.crlf = false ∨ 2 * o.readlen < o.writelen) {bytes : List Byte}
    (sized : bytes.length ≤ o.readlen) : o.outgoing bytes ≠ none := by
  rw [LoopOptions.outgoing]
  split
  · rename_i crlf
    have count : bytes.count newline ≤ bytes.length := List.count_le_length
    have length := length_addReturns bytes
    have room : 2 * o.readlen < o.writelen := large.resolve_left (by simp [crlf])
    rw [crlfAdd_eq, if_pos (.inr (by omega))]
    simp
  · simp

theorem incoming_ne_none (large : o.crlf = false ∨ 2 * o.readlen < o.writelen) {bytes : List Byte}
    (sized : bytes.length ≤ o.readlen) : o.incoming bytes ≠ none := by
  rw [LoopOptions.incoming]
  split
  · rename_i crlf
    have kept : (stripReturns bytes).length ≤ bytes.length := List.length_filter_le ..
    have room : 2 * o.readlen < o.writelen := large.resolve_left (by simp [crlf])
    rw [crlfStrip_eq, if_pos (.inr (by omega))]
    simp
  · simp

theorem exit_printSock (large : o.crlf = false ∨ 2 * o.readlen < o.writelen)
    {bytes : List Byte} (sized : bytes.length ≤ o.readlen) (running : s.exit ≠ some .errQuit) :
    (printSock o e bytes s).exit ≠ some .errQuit := by
  rw [printSock]
  cases into : o.incoming bytes with
  | none => exact absurd into (incoming_ne_none large sized)
  | some buf =>
      simp only
      split
      · split
        · exact running
        · simp
      · simp

theorem exit_copySock (large : o.crlf = false ∨ 2 * o.readlen < o.writelen) (sized : e.Sized o)
    (running : s.exit ≠ some .errQuit) : (copySock o e s).exit ≠ some .errQuit := by
  rw [copySock]
  split
  · exact running
  · simp
  · split
    · exact exit_printSock large (Nat.zero_le _) running
    · simp
  · rename_i bytes got
    exact exit_printSock large (sized bytes (.inr got)) running

theorem exit_copyStdin_ne (large : o.crlf = false ∨ 2 * o.readlen < o.writelen)
    (sized : e.Sized o) (running : s.exit ≠ some .errQuit) :
    (copyStdin o e s).1.exit ≠ some .errQuit := by
  rw [copyStdin]
  split
  · exact running
  · simp
  · split
    · exact running
    · simp
  · rename_i bytes got
    have stdin : e.stdin = some (.data bytes) := by
      split at got
      · cases got
      · exact got
    cases out : o.outgoing bytes with
    | none => exact absurd out (outgoing_ne_none large (sized bytes (.inl stdin)))
    | some buf =>
        simp only
        split
        · exact running
        · simp

theorem exit_iteration (large : o.crlf = false ∨ 2 * o.readlen < o.writelen) (sized : e.Sized o)
    (running : s.exit ≠ some .errQuit) : (iteration o s e).exit ≠ some .errQuit := by
  have first := exit_copyStdin_ne large sized running
  rw [iteration]
  split
  · rename_i half
    rw [half] at first
    exact exit_copySock large sized first
  · rename_i half
    rw [half] at first
    exact first

theorem exit_loop (large : o.crlf = false ∨ 2 * o.readlen < o.writelen) {events : List Ready}
    (sized : ∀ e ∈ events, e.Sized o) {s : LoopState} (running : s.exit ≠ some .errQuit) :
    (loop o s events).exit ≠ some .errQuit := by
  induction events generalizing s with
  | nil => exact running
  | cons e events ih =>
      rw [loop]
      split
      · exact running
      · exact ih (fun e' h => sized e' (List.mem_cons_of_mem e h))
          (exit_iteration large (sized e List.mem_cons_self) running)

/-- The loop never quits for lack of room exactly if there is no conversion or the write buffer is
more than twice as large as the read buffer. -/
theorem loop_errQuit_iff (reads : 0 < o.readlen) :
    (∀ events, (∀ e ∈ events, Ready.Sized o e) → (loop o loopStart events).exit ≠ some .errQuit) ↔
      o.crlf = false ∨ 2 * o.readlen < o.writelen := by
  constructor
  · intro all
    by_contra small
    obtain ⟨crlf, small⟩ := not_or.mp small
    -- a full buffer of newlines
    have none : o.outgoing (List.replicate o.readlen newline) = none := by
      have stored := length_addReturns (List.replicate o.readlen newline)
      rw [List.length_replicate, List.count_replicate_self] at stored
      rw [LoopOptions.outgoing, if_pos (by simpa using crlf), crlfAdd_eq,
        List.count_replicate_self, if_neg (by omega), Option.map_none]
    refine all [⟨some (.data (List.replicate o.readlen newline)), Option.none, true, []⟩] ?_ ?_
    · simp [Ready.Sized]
    · simp [loop, loopStart, iteration, copyStdin, none]
  · intro large events sized
    exact exit_loop large sized (by simp [loopStart])

theorem loop_errQuit_default :
    ¬ ∀ events, (∀ e ∈ events, Ready.Sized ⟨true, false, false, 1024, 1024⟩ e) →
      (loop ⟨true, false, false, 1024, 1024⟩ loopStart events).exit ≠ some .errQuit := by
  have iff := loop_errQuit_iff (o := ⟨true, false, false, 1024, 1024⟩) (by decide)
  exact iff.not.mpr (by decide)

end Copies

end SamplePrograms.Sock
