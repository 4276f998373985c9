import SamplePrograms.Traceroute.Model

/-!
# The lines that `traceroute` prints

Whatever the network does, the completed lines have the numbers from 1 on, and each of them has a
result for every probe. The numbers of the probes count the results.
-/

namespace SamplePrograms.Traceroute
open Icmp

/-! ## Times -/

/-- The time of a reply is the difference of the two times, rounded to milliseconds. -/
theorem deltaT_rounds {now tp : ℤ × ℤ} (valid : 0 ≤ now.2 ∧ now.2 < 1000000)
    (valid' : 0 ≤ tp.2 ∧ tp.2 < 1000000) :
    |1000 * deltaT now tp - ((now.1 * 1000000 + now.2) - (tp.1 * 1000000 + tp.2))| ≤ 500 := by
  have rounds : ∀ usec : ℤ, 0 ≤ usec → (usec + 500).tdiv 1000 = (usec + 500) / 1000 :=
    fun usec nonneg => Int.tdiv_eq_ediv_of_nonneg (by omega)
  rw [abs_le, deltaT, tvsub]
  split
  · simp only
    rw [rounds _ (by omega)]
    omega
  · simp only
    rw [rounds _ (by omega)]
    omega

/-! ## What a step does -/

/-- One iteration of the loop over the probes ends with a star, with the result of a reply, or with
a new start of the line. -/
theorem State.probeOnce_cases {o : Options} {net : Network} {s s' : State}
    (h : s.probeOnce o net = .ok s') :
    ∃ datalen mtuptr result nextmtu queue,
      sendProbe o.block (fun datalen => net.sendto ⟨s.seq + 1, s.ttl, datalen⟩) s.datalen
        s.mtuptr = .ok (datalen, mtuptr, result) ∧
      ((waitForReply o.ports (s.seq + 1) s.nextmtu
            (s.queue ++ net.arrivals ⟨s.seq + 1, s.ttl, datalen⟩) = (nextmtu, none, queue) ∧
          s' = (s.received datalen mtuptr result nextmtu queue).nextProbe [.star]) ∨
        ∃ i a, waitForReply o.ports (s.seq + 1) s.nextmtu
            (s.queue ++ net.arrivals ⟨s.seq + 1, s.ttl, datalen⟩) =
              (nextmtu, some (i, a), queue) ∧
          (i - 1 ≠ 4 ∧ s' = ((s.received datalen mtuptr result nextmtu queue).reply
              a.packet.source (deltaT a.time (net.clock (s.seq + 1)))).annotate i a.packet ∨
            i - 1 = 4 ∧ ((s.received datalen mtuptr result nextmtu queue).reply
              a.packet.source (deltaT a.time (net.clock (s.seq + 1)))).again = .ok s')) := by
  rw [probeOnce] at h
  cases sent : sendProbe o.block (fun datalen => net.sendto ⟨s.seq + 1, s.ttl, datalen⟩)
      s.datalen s.mtuptr with
  | error fault => simp [sent] at h
  | ok r =>
      obtain ⟨datalen, mtuptr, result⟩ := r
      cases got : waitForReply o.ports (s.seq + 1) s.nextmtu
          (s.queue ++ net.arrivals ⟨s.seq + 1, s.ttl, datalen⟩) with
      | mk nextmtu r =>
          obtain ⟨found, queue⟩ := r
          simp only [sent, got] at h
          refine ⟨datalen, mtuptr, result, nextmtu, queue, rfl, ?_⟩
          cases found with
          | none => exact .inl ⟨got, (Except.ok.inj h).symm⟩
          | some r =>
              obtain ⟨i, a⟩ := r
              refine .inr ⟨i, a, got, ?_⟩
              by_cases frag : i - 1 = 4
              · exact .inr ⟨frag, by simpa [frag] using h⟩
              · exact .inl ⟨frag, by simpa [frag] using h.symm⟩

/-- The `switch` adds annotations and counts. -/
theorem State.annotate_eq (s : State) (i : ℤ) (p : Packet) :
    ∃ (marks : List Mark) (gotThere unreachable : ℕ), s.annotate i p =
      { s.nextProbe (marks.map .mark) with gotThere := gotThere, unreachable := unreachable } := by
  rw [annotate]
  split
  · split
    · exact ⟨[.ttl], s.gotThere + 1, s.unreachable, rfl⟩
    · exact ⟨[], s.gotThere + 1, s.unreachable, rfl⟩
  split
  · exact ⟨[.net], s.gotThere, s.unreachable + 1, rfl⟩
  split
  · exact ⟨[.host], s.gotThere, s.unreachable + 1, rfl⟩
  split
  · exact ⟨[.protocol], s.gotThere + 1, s.unreachable, rfl⟩
  split
  · exact ⟨[.srcfail], s.gotThere, s.unreachable + 1, rfl⟩
  · exact ⟨[], s.gotThere, s.unreachable, rfl⟩

theorem State.again_eq {s : State} {datalen : ℤ} {mtuptr : List ℤ} {notice : Notice}
    (h : fragErr s.nextmtu s.mtuptr = .ok (datalen, mtuptr, notice)) :
    s.again = .ok { s with
      datalen := datalen
      mtuptr := mtuptr
      probe := 0
      cells := []
      printed := s.printed ++ [.broken s.ttl s.cells notice] } := by
  simp only [again, h]

theorem State.again_cases {s s' : State} (h : s.again = .ok s') :
    ∃ datalen mtuptr notice, fragErr s.nextmtu s.mtuptr = .ok (datalen, mtuptr, notice) ∧
      s' = { s with
        datalen := datalen
        mtuptr := mtuptr
        probe := 0
        cells := []
        printed := s.printed ++ [.broken s.ttl s.cells notice] } := by
  cases frag : fragErr s.nextmtu s.mtuptr with
  | error fault => simp [again, frag] at h
  | ok r =>
      obtain ⟨datalen, mtuptr, notice⟩ := r
      rw [again_eq frag] at h
      exact ⟨datalen, mtuptr, notice, rfl, (Except.ok.inj h).symm⟩

/-- What holds at the start and is kept by every step holds after every run. -/
theorem run_invariant {o : Options} {net : Network} {I : State → Prop}
    (keep : ∀ s s', I s → s.exited = false → s.step o net = .ok s' → I s') {n : ℕ} {s s' : State}
    (init : I s) (h : run o net n s = .ok s') : I s' := by
  induction n generalizing s with
  | zero =>
      cases h
      exact init
  | succ n ih =>
      rw [run] at h
      split at h
      · cases h
        exact init
      · rename_i running
        cases next : s.step o net with
        | error fault => simp [next] at h
        | ok s₁ =>
            simp only [next] at h
            exact ih (keep s s₁ init (by simpa using running) next) h

/-- Steps that do not fault keep the program running, and it exits if they decrease a measure. -/
theorem run_exits (o : Options) (net : Network) {I : State → Prop} {α : Type*} [Preorder α]
    [WellFoundedLT α] (left : State → α)
    (step : ∀ s, I s → s.exited = false → ∃ s', s.step o net = .ok s' ∧ I s' ∧
      (s'.exited = true ∨ left s' < left s)) {s : State} (init : I s) :
    (∀ n, ∃ s', run o net n s = .ok s') ∧
      ∃ n s', run o net n s = .ok s' ∧ s'.exited = true ∧ I s' := by
  constructor
  · intro n
    induction n generalizing s with
    | zero => exact ⟨s, rfl⟩
    | succ n ih =>
        rw [run]
        split
        · exact ⟨s, rfl⟩
        · rename_i running
          obtain ⟨s₁, next, kept, -⟩ := step s init (by simpa using running)
          simp only [next]
          exact ih kept
  · induction h : left s using WellFoundedLT.induction generalizing s with
    | _ a ih =>
        cases exited : s.exited with
        | true => exact ⟨0, s, rfl, exited, init⟩
        | false =>
            obtain ⟨s₁, next, kept, ended | fewer⟩ := step s init exited
            · refine ⟨1, s₁, ?_, ended, kept⟩
              simp only [run, exited, next, Bool.false_eq_true, if_false]
            · obtain ⟨n, s', later, ended, kept'⟩ := ih (left s₁) (h ▸ fewer) kept rfl
              refine ⟨n + 1, s', ?_, ended, kept'⟩
              simp only [run, exited, next, Bool.false_eq_true, if_false, later]

/-! ## Results -/

/-- The result of a probe. -/
def Cell.isResult : Cell → Bool
  | time _ => true
  | star => true
  | _ => false

/-- The number of results. -/
def results (cells : List Cell) : ℕ := cells.countP Cell.isResult

namespace Line

def ttl : Line → ℕ
  | complete ttl _ => ttl
  | broken ttl _ _ => ttl

def cells : Line → List Cell
  | complete _ cells => cells
  | broken _ cells _ => cells

def isComplete : Line → Bool
  | complete .. => true
  | broken .. => false

@[simp] theorem ttl_complete (ttl : ℕ) (cells : List Cell) : (complete ttl cells).ttl = ttl := rfl

@[simp] theorem cells_complete (ttl : ℕ) (cells : List Cell) :
    (complete ttl cells).cells = cells := rfl

@[simp] theorem cells_broken (ttl : ℕ) (cells : List Cell) (notice : Notice) :
    (broken ttl cells notice).cells = cells := rfl

end Line

/-- The lines that end with a result for the last probe. -/
def completed (printed : List Line) : List Line := printed.filter Line.isComplete

@[simp] theorem results_nil : results [] = 0 := rfl

@[simp] theorem results_append (cells cells' : List Cell) :
    results (cells ++ cells') = results cells + results cells' := List.countP_append

/-- The invariant of the main loop. -/
structure Tidy (o : Options) (s : State) : Prop where
  ttl_pos : 1 ≤ s.ttl
  ttl_le : s.ttl ≤ o.maxTtl
  ttl_one : o.nprobes ≤ 1 → s.ttl = 1
  probe_le : s.probe ≤ o.nprobes
  current : results s.cells = s.probe
  numbers : (completed s.printed).map Line.ttl =
    List.range' 1 (if s.exited then s.ttl else s.ttl - 1)
  full : ∀ line ∈ completed s.printed, results line.cells = o.nprobes
  counted : s.seq = (s.printed.map fun line => results line.cells).sum + results s.cells

theorem Tidy.start {o : Options} (allowed : 1 ≤ o.maxTtl) (datalen : ℤ) (mtuptr : List ℤ) :
    Tidy o (start datalen mtuptr) where
  ttl_pos := le_rfl
  ttl_le := allowed
  ttl_one _ := rfl
  probe_le := Nat.zero_le _
  current := rfl
  numbers := rfl
  full := by simp [Traceroute.start, completed]
  counted := rfl

theorem results_marks (marks : List Mark) : results (marks.map .mark) = 0 := by
  simp [results, Cell.isResult]

@[simp] theorem completed_complete (ttl : ℕ) (cells : List Cell) :
    completed [.complete ttl cells] = [.complete ttl cells] := rfl

@[simp] theorem completed_append (printed printed' : List Line) :
    completed (printed ++ printed') = completed printed ++ completed printed' :=
  List.filter_append ..

/-- What `send_probe` prints is not a result. -/
theorem results_received (s : State) (datalen : ℤ) (mtuptr : List ℤ) (result : SendResult)
    (nextmtu : ℕ) (queue : List Arrival) :
    results (s.received datalen mtuptr result nextmtu queue).cells = results s.cells := by
  have silent : results (result.cells datalen) = 0 := by
    cases result with
    | emsgsize => rfl
    | wrote ret =>
        rw [SendResult.cells]
        split <;> rfl
  rw [State.received, results_append, silent, Nat.add_zero]

/-- A reply is one result. -/
theorem results_reply (s : State) (source : InAddr) (dt : ℤ) :
    results (s.reply source dt).cells = results s.cells + 1 := by
  rw [State.reply]
  split <;> simp [results, Cell.isResult]

section Tidy
variable {o : Options} {s : State}

/-- A probe with its result, and annotations. -/
theorem Tidy.nextProbe (tidy : Tidy o s) (more : s.probe < o.nprobes)
    {s' : State} (ttl : s'.ttl = s.ttl) (probe : s'.probe = s.probe + 1)
    (printed : s'.printed = s.printed) (exited : s'.exited = s.exited) (seq : s'.seq = s.seq + 1)
    (cells : results s'.cells = results s.cells + 1) : Tidy o s' where
  ttl_pos := ttl ▸ tidy.ttl_pos
  ttl_le := ttl ▸ tidy.ttl_le
  ttl_one := ttl ▸ tidy.ttl_one
  probe_le := by omega
  current := by rw [cells, tidy.current, probe]
  numbers := by rw [printed, tidy.numbers, exited, ttl]
  full := printed ▸ tidy.full
  counted := by
    rw [printed, seq, cells, tidy.counted]
    omega

theorem Tidy.probeOnce {net : Network} {s' : State} (tidy : Tidy o s)
    (more : s.probe < o.nprobes) (h : s.probeOnce o net = .ok s') : Tidy o s' := by
  obtain ⟨datalen, mtuptr, result, nextmtu, queue, -, ⟨-, rfl⟩ | ⟨i, a, -, again⟩⟩ :=
    State.probeOnce_cases h
  · refine tidy.nextProbe more rfl rfl rfl rfl rfl ?_
    rw [State.nextProbe, results_append, results_received]
    rfl
  · have one := results_reply (s.received datalen mtuptr result nextmtu queue) a.packet.source
      (deltaT a.time (net.clock (s.seq + 1)))
    rw [results_received] at one
    obtain ⟨-, rfl⟩ | ⟨-, frag⟩ := again
    · obtain ⟨marks, gotThere, unreachable, annotated⟩ := State.annotate_eq
        ((s.received datalen mtuptr result nextmtu queue).reply a.packet.source
          (deltaT a.time (net.clock (s.seq + 1)))) i a.packet
      rw [annotated]
      refine tidy.nextProbe more rfl rfl rfl rfl rfl ?_
      simp only [State.nextProbe, results_append, results_marks, one, Nat.add_zero]
    · obtain ⟨datalen', mtuptr', notice, -, rfl⟩ := State.again_cases frag
      exact
        { ttl_pos := tidy.ttl_pos
          ttl_le := tidy.ttl_le
          ttl_one := tidy.ttl_one
          probe_le := Nat.zero_le _
          current := rfl
          numbers := by
            rw [completed_append]
            exact (congrArg _ (List.append_nil _)).trans tidy.numbers
          full := by
            rw [completed_append]
            exact (List.append_nil (completed s.printed)).symm ▸ tidy.full
          counted := by
            simp only [List.map_append, List.sum_append, List.map_singleton, List.sum_singleton,
              Line.cells_broken, one, results_nil]
            simp only [State.reply, State.received, tidy.counted]
            omega }

theorem Tidy.lineEnd (tidy : Tidy o s) (running : s.exited = false)
    (last : ¬ s.probe < o.nprobes) : Tidy o (s.lineEnd o) := by
  have probes := tidy.probe_le
  have pos := tidy.ttl_pos
  have full : ∀ line ∈ completed (s.printed ++ [.complete s.ttl s.cells]),
      results line.cells = o.nprobes := by
    intro line h
    rw [completed_append, List.mem_append] at h
    obtain h | h := h
    · exact tidy.full line h
    · obtain rfl := List.mem_singleton.mp h
      rw [Line.cells, tidy.current]
      omega
  have numbers : (completed (s.printed ++ [.complete s.ttl s.cells])).map Line.ttl =
      List.range' 1 s.ttl := by
    have before := tidy.numbers
    simp only [running, Bool.false_eq_true, if_false] at before
    obtain ⟨k, ttl⟩ : ∃ k, s.ttl = k + 1 := ⟨s.ttl - 1, by omega⟩
    rw [completed_append, List.map_append, before, ttl, List.range'_concat]
    simp [Nat.add_comm]
  have counted : s.seq = ((s.printed ++ [Line.complete s.ttl s.cells]).map
      fun line => results line.cells).sum + results [] := by
    simpa using tidy.counted
  rw [State.lineEnd]
  split
  · exact
      { ttl_pos := tidy.ttl_pos
        ttl_le := tidy.ttl_le
        ttl_one := tidy.ttl_one
        probe_le := Nat.zero_le _
        current := rfl
        numbers := numbers
        full := full
        counted := counted }
  · rename_i stays
    exact
      { ttl_pos := Nat.le_add_left 1 _
        ttl_le := by
          simp only
          omega
        ttl_one := by omega
        probe_le := Nat.zero_le _
        current := rfl
        numbers := by simpa [running] using numbers
        full := full
        counted := counted }

end Tidy

theorem run_tidy {o : Options} {net : Network} (allowed : 1 ≤ o.maxTtl) {datalen : ℤ}
    {mtuptr : List ℤ} {n : ℕ} {s : State} (h : run o net n (start datalen mtuptr) = .ok s) :
    Tidy o s := by
  refine run_invariant (fun s s' tidy running h => ?_) (Tidy.start allowed datalen mtuptr) h
  rw [State.step] at h
  split at h
  · rename_i more
    exact tidy.probeOnce more h
  · rename_i last
    cases h
    exact tidy.lineEnd running last

/-- In every run the completed lines are numbered from 1 on, up to at most the largest TTL, each has
one result for each probe, and the number of the last probe is the number of results. With one probe
a line there is never more than one line. -/
theorem run_lines {o : Options} {net : Network} (allowed : 1 ≤ o.maxTtl) {datalen : ℤ}
    {mtuptr : List ℤ} {n : ℕ} {s : State} (h : run o net n (start datalen mtuptr) = .ok s) :
    ∃ k ≤ if o.nprobes ≤ 1 then 1 else o.maxTtl,
      (completed s.printed).map Line.ttl = List.range' 1 k ∧
      (∀ line ∈ completed s.printed, results line.cells = o.nprobes) ∧
      s.seq = (s.printed.map fun line => results line.cells).sum + results s.cells := by
  have tidy := run_tidy allowed h
  have le := tidy.ttl_le
  have one := tidy.ttl_one
  refine ⟨_, ?_, tidy.numbers, tidy.full, tidy.counted⟩
  split <;> split <;> omega

/-- A network in which nothing arrives. -/
def silent : Network where
  clock seq := (seq, 0)
  sendto p := .wrote p.datalen
  arrivals _ := []

theorem run_lines_silent :
    ∃ s, run ⟨⟨identOf 700, 33434⟩, 2, 30, 100⟩ silent 7 (start 100 mtus) = .ok s ∧
      ∃ k ≤ if 2 ≤ 1 then 1 else 30, (completed s.printed).map Line.ttl = List.range' 1 k ∧
        (∀ line ∈ completed s.printed, results line.cells = 2) ∧
        s.seq = (s.printed.map fun line => results line.cells).sum + results s.cells := by
  obtain ⟨s, h⟩ : ∃ s, run ⟨⟨identOf 700, 33434⟩, 2, 30, 100⟩ silent 7 (start 100 mtus) = .ok s :=
    ⟨_, rfl⟩
  exact ⟨s, h, run_lines (by decide) h⟩

end SamplePrograms.Traceroute
