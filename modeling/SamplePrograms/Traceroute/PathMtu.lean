import SamplePrograms.Traceroute.Lines

/-!
# The search for the path MTU

On a path of routers each of which forwards what fits its next link, a report that fragmentation is
required makes the packets smaller or moves the program ahead in its table. The program starts with
the largest entry unless it is given a size, and then its block is too small for the entries that it
may try.

## Implementation notes

Reports may get lost, and packets of other programs may come in between. The MTU of a link is at
least 68, which is also the smallest entry of the table.
-/

namespace SamplePrograms.Traceroute
open Icmp

/-! ## Paths -/

/-- A router, with the MTU of the link behind it. Newer routers report this MTU. -/
structure Router where
  address : InAddr
  mtu : ℕ
  reports : Bool

/-- The host that answers a datagram, and its report. -/
def answer (destination : InAddr) : List Router → ℕ → ℤ → InAddr × Report
  | [], _, _ => (destination, .unreachable 3 0)
  | r :: rest, ttl, datalen =>
      if ttl ≤ 1 then (r.address, .timeExceeded)
      else if r.mtu < datalen then
        (r.address, .unreachable 4 (if r.reports then .ofNat 32 r.mtu else 0))
      else answer destination rest (ttl - 1) datalen

/-- The way to a destination, with the MTU of the first link. -/
structure Path where
  mtu : ℕ
  routers : List Router
  destination : InAddr

/-- Every link takes packets of 68 bytes. -/
structure Path.Standard (path : Path) : Prop where
  interface : 68 ≤ path.mtu
  links : ∀ r ∈ path.routers, 68 ≤ r.mtu

/-- A packet that is not about a probe of the process. -/
def Foreign (ports : Ports) (a : Arrival) : Prop :=
  ∀ seq nextmtu, (packetOk ports seq nextmtu a.packet).1 = 0

/-- The report about a probe from the host that answers it. -/
def Reports (ports : Ports) (path : Path) (p : Probe) (a : Arrival) : Prop :=
  ∃ hlen order ip rest, a.packet.Carries hlen
      ((answer path.destination path.routers p.ttl p.datalen).2.message order ip
        (udphdr ports p.seq p.datalen) rest) ∧
    a.packet.source = (answer path.destination path.routers p.ttl p.datalen).1

/-- What arrives while the program waits for a reply. -/
inductive Answered (ports : Ports) (path : Path) (p : Probe) : List Arrival → Prop
  | lost {noise : List Arrival} (foreign : ∀ a ∈ noise, Foreign ports a) :
      Answered ports path p noise
  | report {before after : List Arrival} {a : Arrival} (first : ∀ a ∈ before, Foreign ports a)
      (about : Reports ports path p a) (later : ∀ a ∈ after, Foreign ports a) :
      Answered ports path p (before ++ a :: after)

/-- A network with the path. -/
structure Honest (ports : Ports) (path : Path) (net : Network) : Prop where
  sendto : ∀ p, net.sendto p = if path.mtu < p.datalen then .emsgsize else .wrote p.datalen
  answered : ∀ p, Answered ports path p (net.arrivals p)

/-- The network in which every probe is answered at once. -/
def pathNetwork (ports : Ports) (path : Path) : Network where
  clock seq := (seq, 0)
  sendto p := if path.mtu < p.datalen then .emsgsize else .wrote p.datalen
  arrivals p :=
    let (source, report) := answer path.destination path.routers p.ttl p.datalen
    [⟨{ packetOf (report.message .big plainHeader (udphdr ports p.seq p.datalen) []) with
        source := source }, (p.seq, 1000)⟩]

theorem arrivals_pathNetwork (ports : Ports) (path : Path) (p : Probe) :
    ∃ a, (pathNetwork ports path).arrivals p = [a] ∧ Reports ports path p a := by
  have carries := packetOf_carries
    ((answer path.destination path.routers p.ttl p.datalen).2.message .big plainHeader
      (udphdr ports p.seq p.datalen) [])
  exact ⟨_, rfl, 20, .big, plainHeader, [],
    ⟨carries.header, carries.length, carries.message⟩, rfl⟩

theorem honest_pathNetwork (ports : Ports) (path : Path) :
    Honest ports path (pathNetwork ports path) where
  sendto _ := rfl
  answered p := by
    obtain ⟨a, only, about⟩ := arrivals_pathNetwork ports path p
    rw [only]
    exact @Answered.report _ _ _ [] [] a (by simp) about (by simp)

/-! ## The table -/

/-- The packets are at most as large as the entries that `mtuptr` has passed. -/
def Position (datalen : ℤ) (mtuptr : List ℤ) : Prop :=
  ∃ passed, mtus = passed ++ mtuptr ∧ ∀ mtu ∈ passed, datalen ≤ mtu

theorem mtus_sorted : mtus.Pairwise (· > ·) := by decide

/-- While the packets are too large for some link, the table has another entry. -/
theorem Position.next {datalen : ℤ} {mtuptr : List ℤ} (pos : Position datalen mtuptr)
    (large : 68 < datalen) : ∃ mtu rest, mtuptr = mtu :: rest ∧ 68 ≤ mtu ∧ mtu ≤ 17914 ∧
      Position mtu rest := by
  obtain ⟨passed, split, above⟩ := pos
  have smallest : (68 : ℤ) ∈ mtuptr := by
    have member : (68 : ℤ) ∈ mtus := by decide
    rw [split, List.mem_append] at member
    obtain before | after := member
    · exact absurd (above 68 before) (by omega)
    · exact after
  have sorted := mtus_sorted
  cases mtuptr with
  | nil => exact absurd smallest List.not_mem_nil
  | cons mtu rest =>
      rw [split, List.pairwise_append] at sorted
      obtain ⟨-, behind, order⟩ := sorted
      refine ⟨mtu, rest, rfl, ?_, ?_, passed ++ [mtu], by simp [split], ?_⟩
      · obtain h | h := List.mem_cons.mp smallest
        · exact h.le
        · exact (List.rel_of_pairwise_cons behind h).le
      · have largest : ∀ m ∈ mtus, m ≤ 17914 := by decide
        exact largest mtu (by simp [split])
      · intro m h
        obtain h | h := List.mem_append.mp h
        · exact (order m h mtu List.mem_cons_self).le
        · exact (List.mem_singleton.mp h).ge

theorem entriesBehind_eq_some {nextmtu : ℤ} {l rest : List ℤ}
    (h : entriesBehind nextmtu l = some rest) : ∃ passed, l = passed ++ nextmtu :: rest := by
  induction l with
  | nil => cases h
  | cons mtu l ih =>
      simp only [entriesBehind] at h
      split at h
      · split at h
        · rename_i same
          cases h
          exact ⟨[], by rw [same, List.nil_append]⟩
        · obtain ⟨passed, rfl⟩ := ih h
          exact ⟨mtu :: passed, rfl⟩
      · cases h

/-- A reported MTU that is in the table takes the program behind its position. -/
theorem Position.behind {datalen nextmtu : ℤ} {mtuptr rest : List ℤ}
    (pos : Position datalen mtuptr) (smaller : nextmtu < datalen)
    (h : entriesBehind nextmtu mtus = some rest) :
    Position nextmtu rest ∧ rest.length < mtuptr.length := by
  obtain ⟨passed, split, above⟩ := pos
  obtain ⟨passed', split'⟩ := entriesBehind_eq_some h
  have sorted := mtus_sorted
  constructor
  · refine ⟨passed' ++ [nextmtu], by simp [split'], fun m h => ?_⟩
    rw [split', List.pairwise_append] at sorted
    obtain h | h := List.mem_append.mp h
    · exact (sorted.2.2 m h nextmtu List.mem_cons_self).le
    · exact (List.mem_singleton.mp h).ge
  · rw [split, List.append_eq_append_iff] at split'
    obtain ⟨front, rfl, split'⟩ | ⟨back, rfl, split'⟩ := split'
    · rw [split', List.length_append, List.length_cons]
      omega
    · cases back with
      | nil =>
          rw [← List.nil_append mtuptr, ← split', List.length_cons]
          omega
      | cons b back =>
          rw [List.cons_append, List.cons.injEq] at split'
          obtain ⟨rfl, -⟩ := split'
          exact absurd (above nextmtu (by simp)) (by omega)

/-- A reported MTU that is not in the table leaves the position. -/
theorem Position.smaller {datalen nextmtu : ℤ} {mtuptr : List ℤ} (pos : Position datalen mtuptr)
    (smaller : nextmtu < datalen) : Position nextmtu mtuptr := by
  obtain ⟨passed, split, above⟩ := pos
  exact ⟨passed, split, fun m h => smaller.le.trans (above m h)⟩

/-! ## Probes -/

section Probes
variable {o : Options} {path : Path} {net : Network}

/-- The program tries smaller packets until one fits the first link. -/
theorem sendProbe_ok {block interface : ℕ} {sendto : ℤ → SendResult}
    (accepts : ∀ datalen, sendto datalen =
      if interface < datalen then .emsgsize else .wrote datalen)
    (standard : 68 ≤ interface) (safe : 17914 ≤ block ∨ block ≤ 68) {datalen : ℤ}
    {mtuptr : List ℤ} (nonneg : 0 ≤ datalen) (fits : datalen ≤ block)
    (pos : Position datalen mtuptr) :
    ∃ datalen' mtuptr', sendProbe block sendto datalen mtuptr =
        .ok (datalen', mtuptr', .wrote datalen') ∧
      0 ≤ datalen' ∧ datalen' ≤ block ∧ datalen' ≤ interface ∧ Position datalen' mtuptr' ∧
      (datalen' = datalen ∧ mtuptr' = mtuptr ∨
        interface < datalen ∧ mtuptr'.length < mtuptr.length) := by
  induction mtuptr generalizing datalen with
  | nil =>
      have small : ¬ (interface : ℤ) < datalen := by
        intro large
        obtain ⟨mtu, rest, split, -⟩ := pos.next (by omega)
        cases split
      refine ⟨datalen, [], ?_, nonneg, fits, by omega, pos, .inl ⟨rfl, rfl⟩⟩
      rw [sendProbe, if_neg (by omega), accepts, if_neg small]
  | cons mtu rest ih =>
      by_cases large : (interface : ℤ) < datalen
      · obtain ⟨mtu', rest', split, least, most, pos'⟩ := pos.next (by omega)
        obtain ⟨rfl, rfl⟩ := List.cons.inj split
        obtain ⟨datalen', mtuptr', sent, nonneg', fits', link, pos'', moved⟩ :=
          ih (by omega) (by omega) pos'
        refine ⟨datalen', mtuptr', ?_, nonneg', fits', link, pos'', .inr ⟨large, ?_⟩⟩
        · rw [sendProbe, if_neg (by omega), accepts, if_pos large]
          exact sent
        · rw [List.length_cons]
          obtain ⟨-, rfl⟩ | ⟨-, shorter⟩ := moved
          · exact Nat.lt_succ_self _
          · exact Nat.lt_succ_of_lt shorter
      · refine ⟨datalen, mtu :: rest, ?_, nonneg, fits, by omega, pos, .inl ⟨rfl, rfl⟩⟩
        rw [sendProbe, if_neg (by omega), accepts, if_neg large]

/-- Other packets are passed over. -/
theorem waitForReply_foreign {ports : Ports} {noise : List Arrival}
    (foreign : ∀ a ∈ noise, Foreign ports a) (seq nextmtu : ℕ) (rest : List Arrival) :
    ∃ nextmtu', waitForReply ports seq nextmtu (noise ++ rest) =
      waitForReply ports seq nextmtu' rest := by
  induction noise generalizing nextmtu with
  | nil => exact ⟨nextmtu, rfl⟩
  | cons a noise ih =>
      obtain ⟨nextmtu', passed⟩ := ih (fun a' h => foreign a' (List.mem_cons_of_mem a h))
        (packetOk ports seq nextmtu a.packet).2
      refine ⟨nextmtu', ?_⟩
      rw [List.cons_append, waitForReply]
      simp only [foreign a List.mem_cons_self seq nextmtu, ne_eq, not_true_eq_false, if_false,
        passed]

/-- The program waits in vain, or it gets the report about the probe. -/
theorem waitForReply_cases {ports : Ports} {p : Probe} {queue arrivals : List Arrival}
    (before : ∀ a ∈ queue, Foreign ports a) (answered : Answered ports path p arrivals)
    (nextmtu : ℕ) : ∃ queue', (∀ a ∈ queue', Foreign ports a) ∧
      ((∀ a ∈ arrivals, Foreign ports a) ∧
          (∃ nextmtu', waitForReply ports p.seq nextmtu (queue ++ arrivals) =
            (nextmtu', none, queue')) ∨
        ∃ a ∈ arrivals, Reports ports path p a ∧
          waitForReply ports p.seq nextmtu (queue ++ arrivals) =
            ((answer path.destination path.routers p.ttl p.datalen).2.void.toNat,
              some ((answer path.destination path.routers p.ttl p.datalen).2.result, a),
              queue')) := by
  obtain ⟨nextmtu₁, passed⟩ := waitForReply_foreign before p.seq nextmtu arrivals
  rw [passed]
  cases answered with
  | lost foreign =>
      obtain ⟨nextmtu₂, none⟩ := waitForReply_foreign foreign p.seq nextmtu₁ []
      rw [List.append_nil] at none
      exact ⟨[], by simp, .inl ⟨foreign, nextmtu₂, none⟩⟩
  | @report noise later a first about after =>
      obtain ⟨nextmtu₂, skipped⟩ := waitForReply_foreign first p.seq nextmtu₁ (a :: later)
      refine ⟨later, after, .inr ⟨a, by simp, about, ?_⟩⟩
      obtain ⟨hlen, order, ip, rest, carries, -⟩ := about
      have value : packetOk ports p.seq nextmtu₂ a.packet = _ := packetOk_message carries nextmtu₂
      rw [if_pos ⟨rfl, rfl⟩] at value
      rw [skipped, waitForReply]
      simp only [value, ne_eq, Report.result_ne_zero, not_false_eq_true, if_true]

/-- A router that requires fragmentation has a smaller MTU, which it may report. -/
theorem answer_needsFrag {destination source : InAddr} {routers : List Router} {ttl : ℕ}
    {datalen : ℤ} {report : Report}
    (answered : answer destination routers ttl datalen = (source, report))
    (frag : report.result - 1 = 4) : ∃ r ∈ routers, r.mtu < datalen ∧
      report.void = if r.reports then .ofNat 32 r.mtu else 0 := by
  induction routers generalizing ttl with
  | nil =>
      obtain ⟨-, rfl⟩ := Prod.mk.inj answered
      cases frag
  | cons r routers ih =>
      rw [answer] at answered
      split at answered
      · obtain ⟨-, rfl⟩ := Prod.mk.inj answered
        cases frag
      · split at answered
        · rename_i large
          obtain ⟨-, rfl⟩ := Prod.mk.inj answered
          exact ⟨r, List.mem_cons_self, large, rfl⟩
        · obtain ⟨r', member, smaller, void⟩ := ih answered
          exact ⟨r', List.mem_cons_of_mem r member, smaller, void⟩

/-- `frag_err` makes the packets smaller or moves ahead in the table. -/
theorem fragErr_ok {r : Router} (standard : 68 ≤ r.mtu) {block : ℕ} (small : block < 2 ^ 31)
    (safe : 17914 ≤ block ∨ block ≤ 68) {datalen : ℤ} {mtuptr : List ℤ}
    (fits : datalen ≤ block) (pos : Position datalen mtuptr) (smaller : r.mtu < datalen) :
    ∃ datalen' mtuptr' notice,
      fragErr (if r.reports then .ofNat 32 r.mtu else 0 : BitVec 32).toNat mtuptr =
        .ok (datalen', mtuptr', notice) ∧
      0 ≤ datalen' ∧ datalen' ≤ block ∧ Position datalen' mtuptr' ∧
      (mtuptr'.length < mtuptr.length ∨ mtuptr' = mtuptr ∧ datalen' < datalen) := by
  cases reports : r.reports with
  | true =>
      have value : (BitVec.ofNat 32 r.mtu).toNat = r.mtu := by
        rw [BitVec.toNat_ofNat]
        omega
      have signed : (BitVec.ofNat 32 r.mtu).toInt = r.mtu := by
        rw [BitVec.toInt_eq_toNat_of_lt (by omega), value]
      have reported : (0 : ℤ) < r.mtu := by omega
      rw [if_pos rfl, value]
      simp only [fragErr, signed, if_pos reported]
      cases behind : entriesBehind r.mtu mtus with
      | some rest =>
          obtain ⟨pos', shorter⟩ := pos.behind smaller behind
          exact ⟨_, _, _, rfl, by omega, by omega, pos', .inl shorter⟩
      | none =>
          exact ⟨_, _, _, rfl, by omega, by omega, pos.smaller smaller, .inr ⟨rfl, smaller⟩⟩
  | false =>
      obtain ⟨mtu, rest, rfl, least, most, pos'⟩ := pos.next (by omega)
      exact ⟨mtu, rest, _, rfl, by omega, by omega, pos', .inl (Nat.lt_succ_self _)⟩

end Probes

/-! ## Runs -/

section Runs
variable {o : Options} {path : Path} {net : Network}

/-- The invariant of the search. -/
structure Searching (o : Options) (s : State) : Prop where
  nonneg : 0 ≤ s.datalen
  fits : s.datalen ≤ o.block
  position : Position s.datalen s.mtuptr
  queue : ∀ a ∈ s.queue, Foreign o.ports a

/-- What is left of the TTLs, of the table, of the packet size and of the probes. -/
def State.left (o : Options) (s : State) : ℕ ×ₗ ℕ ×ₗ ℕ ×ₗ ℕ :=
  toLex (o.maxTtl - s.ttl, toLex (s.mtuptr.length, toLex (s.datalen.toNat, o.nprobes - s.probe)))

/-- One iteration of the loop over the probes on an honest path. -/
theorem Searching.probeOnce_cases (honest : Honest o.ports path net) (standard : path.Standard)
    (safe : 17914 ≤ o.block ∨ o.block ≤ 68) {s : State} (search : Searching o s) :
    ∃ (datalen : ℤ) (mtuptr : List ℤ) (nextmtu : ℕ) (queue : List Arrival), datalen ≤ path.mtu ∧
      Searching o (s.received datalen mtuptr (.wrote datalen) nextmtu queue) ∧
      (datalen = s.datalen ∧ mtuptr = s.mtuptr ∨
        path.mtu < s.datalen ∧ mtuptr.length < s.mtuptr.length) ∧
      ((∀ a ∈ net.arrivals ⟨s.seq + 1, s.ttl, datalen⟩, Foreign o.ports a) ∧
          s.probeOnce o net = .ok
            ((s.received datalen mtuptr (.wrote datalen) nextmtu queue).nextProbe [.star]) ∨
        ∃ source report dt p, answer path.destination path.routers s.ttl datalen = (source, report) ∧
          nextmtu = report.void.toNat ∧
          s.probeOnce o net =
            if report.result - 1 = 4 then
              ((s.received datalen mtuptr (.wrote datalen) nextmtu queue).reply source dt).again
            else .ok
              (((s.received datalen mtuptr (.wrote datalen) nextmtu queue).reply source
                dt).annotate report.result p)) := by
  have accepts : ∀ datalen, net.sendto ⟨s.seq + 1, s.ttl, datalen⟩ =
      if (path.mtu : ℤ) < datalen then .emsgsize else .wrote datalen :=
    fun datalen => honest.sendto ⟨s.seq + 1, s.ttl, datalen⟩
  obtain ⟨datalen, mtuptr, sent, nonneg, fits, link, pos, moved⟩ := sendProbe_ok accepts
    standard.interface safe search.nonneg search.fits search.position
  obtain ⟨queue, foreign, ⟨lost, nextmtu, got⟩ | ⟨a, -, about, got⟩⟩ :=
    waitForReply_cases search.queue (honest.answered ⟨s.seq + 1, s.ttl, datalen⟩) s.nextmtu
  · refine ⟨datalen, mtuptr, nextmtu, queue, link, ⟨nonneg, fits, pos, foreign⟩, moved,
      .inl ⟨lost, ?_⟩⟩
    simp only [State.probeOnce, sent, got]
  · obtain ⟨hlen, order, ip, rest, -, source⟩ := about
    refine ⟨datalen, mtuptr, _, queue, link, ⟨nonneg, fits, pos, foreign⟩, moved,
      .inr ⟨_, _, deltaT a.time (net.clock (s.seq + 1)), a.packet, rfl, rfl, ?_⟩⟩
    simp only [State.probeOnce, sent, got, source]

/-- The packets get smaller, the table shorter or the probes fewer. -/
theorem State.left_lt_left {s s' : State} (ttl : s'.ttl = s.ttl)
    (moved : s'.mtuptr.length < s.mtuptr.length ∨ s'.mtuptr = s.mtuptr ∧
      (s'.datalen.toNat < s.datalen.toNat ∨ s'.datalen = s.datalen ∧
        o.nprobes - s'.probe < o.nprobes - s.probe)) : s'.left o < s.left o := by
  rw [State.left, State.left, ttl]
  refine Prod.Lex.toLex_lt_toLex.mpr (.inr ⟨rfl, Prod.Lex.toLex_lt_toLex.mpr ?_⟩)
  obtain shorter | ⟨same, moved⟩ := moved
  · exact .inl shorter
  · refine .inr ⟨congrArg List.length same, Prod.Lex.toLex_lt_toLex.mpr ?_⟩
    obtain smaller | ⟨same, fewer⟩ := moved
    · exact .inl smaller
    · exact .inr ⟨congrArg Int.toNat same, fewer⟩

theorem probe_moved {s s' : State} (more : s.probe < o.nprobes) {datalen : ℤ} {mtuptr : List ℤ}
    (same : s'.datalen = datalen) (same' : s'.mtuptr = mtuptr) (next : s'.probe = s.probe + 1)
    (moved : datalen = s.datalen ∧ mtuptr = s.mtuptr ∨ mtuptr.length < s.mtuptr.length) :
    s'.mtuptr.length < s.mtuptr.length ∨ s'.mtuptr = s.mtuptr ∧
      (s'.datalen.toNat < s.datalen.toNat ∨ s'.datalen = s.datalen ∧
        o.nprobes - s'.probe < o.nprobes - s.probe) := by
  obtain ⟨rfl, rfl⟩ | shorter := moved
  · exact .inr ⟨same', .inr ⟨same, by omega⟩⟩
  · exact .inl (same' ▸ shorter)

theorem Searching.probeOnce (honest : Honest o.ports path net) (standard : path.Standard)
    (small : o.block < 2 ^ 31) (safe : 17914 ≤ o.block ∨ o.block ≤ 68) {s : State}
    (search : Searching o s) (more : s.probe < o.nprobes) :
    ∃ s', s.probeOnce o net = .ok s' ∧ Searching o s' ∧ s'.left o < s.left o := by
  obtain ⟨datalen, mtuptr, nextmtu, queue, link, search', moved, ⟨-, next⟩ |
    ⟨source, report, dt, p, answered, void, next⟩⟩ := search.probeOnce_cases honest standard safe
  all_goals have moved : datalen = s.datalen ∧ mtuptr = s.mtuptr ∨
      mtuptr.length < s.mtuptr.length := moved.imp_right And.right
  · refine ⟨_, next, ⟨search'.nonneg, search'.fits, search'.position, search'.queue⟩,
      State.left_lt_left rfl ?_⟩
    exact probe_moved more rfl rfl rfl moved
  · by_cases frag : report.result - 1 = 4
    · rw [if_pos frag] at next
      obtain ⟨r, member, smaller, reported⟩ := answer_needsFrag answered frag
      obtain ⟨datalen', mtuptr', notice, found, nonneg', fits', pos', moved'⟩ :=
        fragErr_ok (standard.links r member) small safe search'.fits search'.position smaller
      rw [← reported, ← void] at found
      refine ⟨_, next.trans (State.again_eq found), ⟨nonneg', fits', pos', search'.queue⟩,
        State.left_lt_left rfl ?_⟩
      have positive := search'.nonneg
      obtain ⟨rfl, rfl⟩ | shorter := moved
      · obtain shorter | ⟨same, smaller'⟩ := moved'
        · exact .inl shorter
        · exact .inr ⟨same, .inl ((Int.toNat_lt_toNat (by omega)).mpr smaller')⟩
      · obtain shorter' | ⟨same, -⟩ := moved'
        · exact .inl (shorter'.trans shorter)
        · exact .inl (same ▸ shorter)
    · rw [if_neg frag] at next
      obtain ⟨marks, gotThere, unreachable, annotated⟩ := State.annotate_eq
        ((s.received datalen mtuptr (.wrote datalen) nextmtu queue).reply source dt)
        report.result p
      rw [annotated] at next
      refine ⟨_, next, ⟨search'.nonneg, search'.fits, search'.position, search'.queue⟩,
        State.left_lt_left rfl ?_⟩
      exact probe_moved more rfl rfl rfl moved

theorem Searching.lineEnd {s : State} (search : Searching o s) :
    Searching o (s.lineEnd o) ∧
      ((s.lineEnd o).exited = true ∨ (s.lineEnd o).left o < s.left o) := by
  rw [State.lineEnd]
  split
  · exact ⟨⟨search.nonneg, search.fits, search.position, search.queue⟩, .inl rfl⟩
  · rename_i stays
    refine ⟨⟨search.nonneg, search.fits, search.position, search.queue⟩, .inr ?_⟩
    rw [State.left, State.left]
    refine Prod.Lex.toLex_lt_toLex.mpr (.inl ?_)
    simp only
    omega

theorem Searching.step (honest : Honest o.ports path net) (standard : path.Standard)
    (small : o.block < 2 ^ 31) (safe : 17914 ≤ o.block ∨ o.block ≤ 68) {s : State}
    (search : Searching o s) :
    ∃ s', s.step o net = .ok s' ∧ Searching o s' ∧ (s'.exited = true ∨ s'.left o < s.left o) := by
  rw [State.step]
  split
  · rename_i more
    obtain ⟨s', next, search', fewer⟩ := search.probeOnce honest standard small safe more
    exact ⟨s', next, search', .inr fewer⟩
  · exact ⟨_, rfl, search.lineEnd⟩

/-- Every run goes on without a fault, and it ends. -/
theorem Searching.run (honest : Honest o.ports path net) (standard : path.Standard)
    (small : o.block < 2 ^ 31) (safe : 17914 ≤ o.block ∨ o.block ≤ 68) {s : State}
    (search : Searching o s) :
    (∀ n, ∃ s', run o net n s = .ok s') ∧ ∃ n s', run o net n s = .ok s' ∧ s'.exited = true := by
  obtain ⟨all, n, s', ended, exited, -⟩ := run_exits o net (I := Searching o) (State.left o)
    (fun s search _ => search.step honest standard small safe) search
  exact ⟨all, n, s', ended, exited⟩

theorem Searching.start {block : ℕ} {mtuptr : List ℤ} (pos : Position block mtuptr)
    (fits : o.block = block) : Searching o (start block mtuptr) :=
  ⟨Int.natCast_nonneg block, by rw [fits]; exact le_rfl, pos, by simp [Traceroute.start]⟩

theorem position_firstSize {size : Option ℤ} {block : ℕ} {mtuptr : List ℤ}
    (accepted : firstSize size = some (block, mtuptr)) :
    block < 65535 ∧ Position block mtuptr ∧ (size = none → block = 17914) := by
  cases size with
  | none =>
      cases accepted
      refine ⟨by decide, ⟨[17914], rfl, ?_⟩, fun _ => rfl⟩
      intro mtu h
      rw [List.mem_singleton.mp h]
      decide
  | some size =>
      simp only [firstSize, Option.ite_none_left_eq_some, Option.some.injEq, Prod.mk.injEq] at accepted
      obtain ⟨allowed, rfl, rfl⟩ := accepted
      refine ⟨?_, ⟨[], rfl, by simp⟩, by simp⟩
      rw [maxpacket, sizeofOpacket] at allowed
      rw [sizeofOpacket]
      omega

/-- Without a size the program reads neither behind its table nor behind its block, and it ends. -/
theorem run_default {block : ℕ} {mtuptr : List ℤ}
    (accepted : firstSize none = some (block, mtuptr)) (fits : o.block = block)
    (honest : Honest o.ports path net) (standard : path.Standard) :
    (∀ n, ∃ s, run o net n (start block mtuptr) = .ok s) ∧
      ∃ n s, run o net n (start block mtuptr) = .ok s ∧ s.exited = true := by
  obtain ⟨small, pos, size⟩ := position_firstSize accepted
  have large := size rfl
  exact (Searching.start pos fits).run honest standard (by omega) (.inl (by omega))

theorem run_default_short :
    (∀ n, ∃ s, run ⟨⟨identOf 700, 33434⟩, 3, 30, 17914⟩
        (pathNetwork ⟨identOf 700, 33434⟩ ⟨1500, [⟨1, 296, false⟩], 2⟩) n
        (start (17914 : ℕ) mtus.tail) = .ok s) ∧
      ∃ n s, run ⟨⟨identOf 700, 33434⟩, 3, 30, 17914⟩
        (pathNetwork ⟨identOf 700, 33434⟩ ⟨1500, [⟨1, 296, false⟩], 2⟩) n
        (start (17914 : ℕ) mtus.tail) = .ok s ∧ s.exited = true :=
  run_default rfl rfl (honest_pathNetwork _ _) ⟨by decide, by simp⟩

/-- With a size the program never reads behind its block exactly if no link can be too small for the
first packet, or the block has room for the first entry of the table. -/
theorem run_size_iff {size : ℤ} {block : ℕ} {mtuptr : List ℤ}
    (accepted : firstSize (some size) = some (block, mtuptr)) (fits : o.block = block)
    (probes : 0 < o.nprobes) :
    (∀ path net, Path.Standard path → Honest o.ports path net →
        ∀ n, ∃ s, run o net n (start block mtuptr) = .ok s) ↔
      block ≤ 68 ∨ 17914 ≤ block := by
  obtain ⟨small, pos, -⟩ := position_firstSize accepted
  constructor
  · intro all
    by_contra between
    -- the first link takes packets of 68 bytes, and the program goes on with 17914
    obtain ⟨s, h⟩ := all ⟨68, [], 0⟩ _ ⟨le_rfl, by simp⟩ (honest_pathNetwork _ _) 1
    have table : mtuptr = mtus := by
      simp only [firstSize, Option.ite_none_left_eq_some, Option.some.injEq,
        Prod.mk.injEq] at accepted
      exact accepted.2.2.symm
    have sent : sendProbe o.block
        (fun datalen => (pathNetwork o.ports ⟨68, [], 0⟩).sendto ⟨0 + 1, 1, datalen⟩) block mtus =
          .error .pastBlock := by
      have room : ¬ ((block : ℤ) < 0 ∨ (block : ℤ) < block) := by omega
      have large : (68 : ℤ) < block := by omega
      have past : (17914 : ℤ) < 0 ∨ (block : ℤ) < 17914 := by omega
      rw [mtus, sendProbe, fits, if_neg room]
      simp only [pathNetwork, Nat.cast_ofNat, if_pos large]
      rw [sendProbe, if_pos past]
    rw [table] at h
    have stops : State.probeOnce o (pathNetwork o.ports ⟨68, [], 0⟩) (Traceroute.start block mtus) =
        .error .pastBlock := by
      simp only [State.probeOnce, Traceroute.start, sent]
    simp only [Traceroute.run, State.step, Traceroute.start] at h stops
    simp only [probes, if_true, Bool.false_eq_true, if_false, stops] at h
    cases h
  · intro safe path net standard honest
    exact ((Searching.start pos fits).run honest standard (by omega) (by omega)).1

theorem run_size_hundred :
    ¬ ∀ path net, Path.Standard path → Honest ⟨identOf 700, 33434⟩ path net →
      ∀ n, ∃ s, run ⟨⟨identOf 700, 33434⟩, 3, 30, 140⟩ net n (start (140 : ℕ) mtus) = .ok s := by
  have accepted : firstSize (some 100) = some (140, mtus) := rfl
  have iff := run_size_iff (o := ⟨⟨identOf 700, 33434⟩, 3, 30, 140⟩) accepted rfl (by decide)
  exact iff.not.mpr (by decide)

end Runs

end SamplePrograms.Traceroute
