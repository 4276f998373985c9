import SamplePrograms.Traceroute.PathMtu

/-!
# The route that `traceroute` prints

When no report gets lost, the completed lines show the routers of the path in their order, up to the
destination or the largest TTL, and the packets end with a size that every link takes.
-/

namespace SamplePrograms.Traceroute
open Icmp

/-- The hosts on the way. -/
def Path.hops (path : Path) : List InAddr := path.routers.map Router.address ++ [path.destination]

/-- The hosts have different addresses, none of which is zero. -/
def Path.Distinct (path : Path) : Prop := (0 :: path.hops).Nodup

/-- The host where packets with a TTL end. -/
def Path.hop (path : Path) (ttl : ℕ) : InAddr := path.hops.getD (ttl - 1) 0

/-- The links that packets with a TTL take. -/
def Path.Takes (path : Path) (ttl : ℕ) (datalen : ℤ) : Prop :=
  datalen ≤ path.mtu ∧ ∀ r ∈ path.routers.take (ttl - 1), datalen ≤ r.mtu

/-- A line that has an address and then times only, which may be marked for a small TTL. -/
def Shows (a : InAddr) (cells : List Cell) : Prop :=
  ∃ tail, cells = .address a :: tail ∧ ∀ c ∈ tail, (∃ ms, c = .time ms) ∨ c = .mark .ttl

/-! ## Answers -/

/-- A packet gets to its host, or some router on the way has too small a link behind it. -/
theorem answer_cases (destination : InAddr) (routers : List Router) (ttl : ℕ) (pos : 1 ≤ ttl)
    (le : ttl ≤ routers.length + 1) (datalen : ℤ) :
    (∀ r ∈ routers.take (ttl - 1), datalen ≤ r.mtu) ∧
        answer destination routers ttl datalen =
          ((routers.map Router.address ++ [destination]).getD (ttl - 1) 0,
            if ttl = routers.length + 1 then .unreachable 3 0 else .timeExceeded) ∨
      ∃ r ∈ routers.take (ttl - 1), ∃ nextmtu, r.mtu < datalen ∧
        answer destination routers ttl datalen = (r.address, .unreachable 4 nextmtu) := by
  induction routers generalizing ttl with
  | nil =>
      obtain rfl : ttl = 1 := by
        rw [List.length_nil] at le
        omega
      exact .inl ⟨by simp, rfl⟩
  | cons r routers ih =>
      rw [List.length_cons] at le
      obtain ⟨k, rfl⟩ : ∃ k, ttl = k + 1 := ⟨ttl - 1, by omega⟩
      cases k with
      | zero => exact .inl ⟨by simp, by simp [answer]⟩
      | succ k =>
          have on : ¬ k + 1 + 1 ≤ 1 := by omega
          rw [answer, if_neg on]
          by_cases small : (r.mtu : ℤ) < datalen
          · rw [if_pos small]
            exact .inr ⟨r, by simp, _, small, rfl⟩
          · rw [if_neg small]
            obtain ⟨fits, reached⟩ | ⟨r', member, nextmtu, small', stopped⟩ :=
              ih (k + 1) (by omega) (by omega)
            · refine .inl ⟨?_, ?_⟩
              · intro r' h
                rw [Nat.add_sub_cancel, List.take_succ_cons, List.mem_cons] at h
                obtain rfl | h := h
                · omega
                · exact fits r' (by simpa using h)
              · simpa using reached
            · refine .inr ⟨r', ?_, nextmtu, small', stopped⟩
              rw [Nat.add_sub_cancel] at member ⊢
              rw [List.take_succ_cons]
              exact List.mem_cons_of_mem r member

theorem Path.length_hops (path : Path) : path.hops.length = path.routers.length + 1 := by
  simp [hops]

theorem Path.hop_eq {path : Path} {ttl : ℕ} (pos : 1 ≤ ttl) (le : ttl ≤ path.hops.length) :
    path.hops[ttl - 1]? = some (path.hop ttl) := by
  rw [hop, List.getD_eq_getElem?_getD, List.getElem?_eq_getElem (by omega), Option.getD_some]

theorem Path.hop_mem {path : Path} {ttl : ℕ} (pos : 1 ≤ ttl) (le : ttl ≤ path.hops.length) :
    path.hop ttl ∈ path.hops.drop (ttl - 1) := by
  rw [List.mem_iff_getElem?]
  exact ⟨0, by rw [List.getElem?_drop, Nat.add_zero, Path.hop_eq pos le]⟩

/-- A router before the host of a TTL is another host. -/
theorem Path.Distinct.router_ne {path : Path} (distinct : path.Distinct) {ttl : ℕ} (pos : 1 ≤ ttl)
    (le : ttl ≤ path.hops.length) {r : Router} (before : r ∈ path.routers.take (ttl - 1)) :
    r.address ≠ path.hop ttl := by
  have front : r.address ∈ path.hops.take (ttl - 1) := by
    rw [Path.length_hops] at le
    rw [Path.hops, List.take_append_of_le_length (by rw [List.length_map]; omega), ← List.map_take]
    exact List.mem_map_of_mem before
  intro same
  exact List.disjoint_take_drop (List.nodup_cons.mp distinct).2 le_rfl front
    (same ▸ Path.hop_mem pos le)

theorem Path.Distinct.hop_ne_zero {path : Path} (distinct : path.Distinct) {ttl : ℕ} (pos : 1 ≤ ttl)
    (le : ttl ≤ path.hops.length) : path.hop ttl ≠ 0 := by
  intro zero
  have member := List.mem_of_mem_drop (Path.hop_mem pos le)
  rw [zero] at member
  exact (List.nodup_cons.mp distinct).1 member

/-! ## Tracing -/

section Tracing
variable {o : Options} {path : Path} {net : Network}

/-- The line for a TTL so far: nothing, or replies of its host. -/
def OnLine (path : Path) (s : State) : Prop :=
  s.probe = 0 ∧ s.cells = [] ∧ s.lastaddr ≠ path.hop s.ttl ∨
    0 < s.probe ∧ Shows (path.hop s.ttl) s.cells ∧ s.lastaddr = path.hop s.ttl ∧
      path.Takes s.ttl s.datalen

/-- The lines for the TTLs up to a number. -/
def Traced (path : Path) (ttl : ℕ) (printed : List Line) : Prop :=
  List.Forall₂ Shows (path.hops.take ttl) ((completed printed).map Line.cells)

/-- The invariant on a path without losses. -/
structure Tracing (o : Options) (path : Path) (s : State) : Prop where
  running : s.exited = false
  search : Searching o s
  ttl_pos : 1 ≤ s.ttl
  ttl_le : s.ttl ≤ path.hops.length
  ttl_max : s.ttl ≤ o.maxTtl
  probe_le : s.probe ≤ o.nprobes
  line : OnLine path s
  traced : Traced path (s.ttl - 1) s.printed
  gotThere : s.gotThere = if s.ttl = path.hops.length then s.probe else 0
  unreachable : s.unreachable = 0

/-- What holds when the program has exited. -/
structure Arrived (o : Options) (path : Path) (s : State) : Prop where
  traced : Traced path o.maxTtl s.printed
  takes : path.Takes (min path.hops.length o.maxTtl) s.datalen

theorem Traced.complete {s : State} (pos : 1 ≤ s.ttl) (le : s.ttl ≤ path.hops.length)
    (traced : Traced path (s.ttl - 1) s.printed) (shows : Shows (path.hop s.ttl) s.cells) :
    Traced path s.ttl (s.printed ++ [.complete s.ttl s.cells]) := by
  obtain ⟨k, ttl⟩ : ∃ k, s.ttl = k + 1 := ⟨s.ttl - 1, by omega⟩
  have hop := Path.hop_eq pos le
  rw [ttl, Nat.add_sub_cancel] at hop traced
  rw [ttl] at shows
  rw [Traced, ttl, List.take_add_one, hop, completed_append, List.map_append, completed_complete]
  exact List.rel_append traced (.cons shows .nil)

theorem Tracing.lineEnd (distinct : path.Distinct) (two : 2 ≤ o.nprobes) {s : State}
    (tracing : Tracing o path s) (last : ¬ s.probe < o.nprobes) :
    Tracing o path (s.lineEnd o) ∨
      (s.lineEnd o).exited = true ∧ Arrived o path (s.lineEnd o) := by
  have all : s.probe = o.nprobes := by
    have := tracing.probe_le
    omega
  have pos := tracing.ttl_pos
  have le := tracing.ttl_le
  have max := tracing.ttl_max
  obtain ⟨zero, -⟩ | ⟨-, shows, -, takes⟩ := tracing.line
  · omega
  have traced := tracing.traced.complete pos le shows
  have there := tracing.gotThere
  rw [State.lineEnd, tracing.unreachable]
  split
  · rename_i stops
    refine .inr ⟨rfl, ?_⟩
    have ttl : s.ttl = min path.hops.length o.maxTtl := by
      split at there <;> omega
    refine ⟨?_, ttl ▸ takes⟩
    have hops : path.hops.take o.maxTtl = path.hops.take s.ttl := by
      rw [ttl, min_comm, ← List.take_eq_take_min]
    rw [Traced, hops]
    exact traced
  · rename_i stays
    have before : s.ttl ≠ path.hops.length := by
      intro there'
      rw [if_pos there'] at there
      omega
    have next : s.ttl + 1 ≤ path.hops.length := by omega
    refine .inl ?_
    exact
      { running := tracing.running
        search := ⟨tracing.search.nonneg, tracing.search.fits, tracing.search.position,
          tracing.search.queue⟩
        ttl_pos := Nat.le_add_left 1 _
        ttl_le := next
        ttl_max := by
          simp only
          omega
        probe_le := Nat.zero_le _
        line := .inl ⟨rfl, rfl, (distinct.hop_ne_zero (Nat.le_add_left 1 _) next).symm⟩
        traced := traced
        gotThere := by simp
        unreachable := rfl }

theorem Reports.not_foreign {ports : Ports} {p : Probe} {a : Arrival}
    (about : Reports ports path p a) : ¬ Foreign ports a := by
  intro foreign
  obtain ⟨hlen, order, ip, rest, carries, -⟩ := about
  have value : packetOk ports p.seq 0 a.packet = _ := packetOk_message carries 0
  rw [if_pos ⟨rfl, rfl⟩] at value
  have none := foreign p.seq 0
  rw [value] at none
  exact Report.result_ne_zero _ none

/-- A reply of the host adds its address, if it is the first, and a time. -/
theorem OnLine.reply {s s' : State} (line : OnLine path s) (dt : ℤ) (marks : List Cell)
    (marked : ∀ c ∈ marks, c = .mark .ttl) (ttl : s'.ttl = s.ttl) (probe : s'.probe = s.probe + 1)
    (last : s'.lastaddr = path.hop s.ttl) (takes : path.Takes s.ttl s'.datalen)
    (cells : s'.cells = s.cells ++
      (if path.hop s.ttl ≠ s.lastaddr then [.address (path.hop s.ttl)] else []) ++ [.time dt] ++
        marks) : OnLine path s' := by
  refine .inr ⟨by omega, ?_, by rw [last, ttl], by rw [ttl]; exact takes⟩
  rw [ttl]
  obtain ⟨-, empty, other⟩ | ⟨-, ⟨tail, shown, times⟩, same, -⟩ := line
  · refine ⟨.time dt :: marks, ?_, fun c h => ?_⟩
    · rw [cells, empty, if_pos other.symm]
      rfl
    · obtain rfl | h := List.mem_cons.mp h
      · exact .inl ⟨dt, rfl⟩
      · exact .inr (marked c h)
  · refine ⟨tail ++ .time dt :: marks, ?_, fun c h => ?_⟩
    · rw [cells, shown, if_neg (not_not.mpr same.symm), List.append_nil]
      simp
    · obtain h | h := List.mem_append.mp h
      · exact times c h
      obtain rfl | h := List.mem_cons.mp h
      · exact .inl ⟨dt, rfl⟩
      · exact .inr (marked c h)

theorem Tracing.probeOnce (honest : Honest o.ports path net) (standard : path.Standard)
    (complete : ∀ p, ∃ a ∈ net.arrivals p, Reports o.ports path p a)
    (distinct : path.Distinct) (small : o.block < 2 ^ 31) (safe : 17914 ≤ o.block ∨ o.block ≤ 68)
    {s s' : State} (tracing : Tracing o path s) (more : s.probe < o.nprobes)
    (h : s.probeOnce o net = .ok s') : Tracing o path s' := by
  obtain ⟨s₁, next, search, -⟩ := tracing.search.probeOnce honest standard small safe more
  obtain rfl := Except.ok.inj (h.symm.trans next)
  have pos := tracing.ttl_pos
  have le := tracing.ttl_le
  obtain ⟨datalen, mtuptr, nextmtu, queue, link, -, moved, ⟨lost, -⟩ |
    ⟨source, report, dt, p, answered, -, done⟩⟩ :=
      tracing.search.probeOnce_cases honest standard safe
  · obtain ⟨a, member, about⟩ := complete ⟨s.seq + 1, s.ttl, datalen⟩
    exact absurd (lost a member) about.not_foreign
  rw [h] at done
  rw [Path.length_hops] at le
  obtain ⟨fits, reached⟩ | ⟨r, member, mtu, smaller, stopped⟩ :=
    answer_cases path.destination path.routers s.ttl pos le datalen
  · rw [reached] at answered
    obtain ⟨rfl, rfl⟩ := Prod.mk.inj answered
    have takes : path.Takes s.ttl datalen := ⟨link, fits⟩
    have cells : (s.received datalen mtuptr (.wrote datalen) nextmtu queue).cells = s.cells := by
      simp [State.received, SendResult.cells]
    have there := tracing.gotThere
    have here : s.ttl = path.hops.length ↔ s.ttl = path.routers.length + 1 := by
      rw [Path.length_hops]
    by_cases last : s.ttl = path.routers.length + 1
    · rw [if_pos last, if_neg (by decide)] at done
      obtain rfl := Except.ok.inj done
      rw [if_pos (here.mpr last)] at there
      exact
        { running := tracing.running
          search := search
          ttl_pos := pos
          ttl_le := tracing.ttl_le
          ttl_max := tracing.ttl_max
          probe_le := more
          line := tracing.line.reply dt (if (p.buf 8).toNat ≤ 1 then [.mark .ttl] else [])
            (by simp) rfl rfl rfl takes (by rw [← cells]; rfl)
          traced := tracing.traced
          gotThere := (congrArg (· + 1) there).trans (if_pos (here.mpr last)).symm
          unreachable := tracing.unreachable }
    · rw [if_neg last, if_neg (by decide)] at done
      obtain rfl := Except.ok.inj done
      rw [if_neg fun h => last (here.mp h)] at there
      exact
        { running := tracing.running
          search := search
          ttl_pos := pos
          ttl_le := tracing.ttl_le
          ttl_max := tracing.ttl_max
          probe_le := more
          line := tracing.line.reply dt [] (by simp) rfl rfl rfl takes (by rw [← cells]; rfl)
          traced := tracing.traced
          gotThere := there.trans (if_neg fun h => last (here.mp h)).symm
          unreachable := tracing.unreachable }
  · rw [stopped] at answered
    obtain ⟨rfl, rfl⟩ := Prod.mk.inj answered
    rw [if_pos (by rfl)] at done
    obtain ⟨datalen', mtuptr', notice, -, rfl⟩ := State.again_cases done.symm
    obtain ⟨zero, empty, -⟩ | ⟨-, -, -, takes⟩ := tracing.line
    · exact
        { running := tracing.running
          search := search
          ttl_pos := pos
          ttl_le := tracing.ttl_le
          ttl_max := tracing.ttl_max
          probe_le := Nat.zero_le _
          line := .inl ⟨rfl, rfl, distinct.router_ne pos tracing.ttl_le member⟩
          traced := by
            rw [Traced, completed_append]
            exact (List.append_nil (completed s.printed)).symm ▸ tracing.traced
          gotThere := by
            have there := tracing.gotThere
            rw [zero] at there
            exact there
          unreachable := tracing.unreachable }
    · have first := takes.1
      have later := takes.2 r member
      omega

theorem Tracing.step (honest : Honest o.ports path net) (standard : path.Standard)
    (complete : ∀ p, ∃ a ∈ net.arrivals p, Reports o.ports path p a)
    (distinct : path.Distinct) (two : 2 ≤ o.nprobes) (small : o.block < 2 ^ 31)
    (safe : 17914 ≤ o.block ∨ o.block ≤ 68) {s : State} (tracing : Tracing o path s) :
    ∃ s', s.step o net = .ok s' ∧ (Tracing o path s' ∨ s'.exited = true ∧ Arrived o path s') ∧
      (s'.exited = true ∨ s'.left o < s.left o) := by
  obtain ⟨s', next, -, fewer⟩ := tracing.search.step honest standard small safe
  refine ⟨s', next, ?_, fewer⟩
  rw [State.step] at next
  split at next
  · rename_i more
    exact .inl (tracing.probeOnce honest standard complete distinct small safe more next)
  · rename_i last
    obtain rfl := Except.ok.inj next
    exact tracing.lineEnd distinct two last

theorem Tracing.start {block : ℕ} {mtuptr : List ℤ} (distinct : path.Distinct)
    (allowed : 1 ≤ o.maxTtl) (pos : Position block mtuptr) (fits : o.block = block) :
    Tracing o path (start block mtuptr) where
  running := rfl
  search := Searching.start pos fits
  ttl_pos := le_rfl
  ttl_le := by
    rw [Path.length_hops]
    exact Nat.le_add_left 1 _
  ttl_max := allowed
  probe_le := Nat.zero_le _
  line := .inl ⟨rfl, rfl,
    (distinct.hop_ne_zero le_rfl (by rw [Path.length_hops]; exact Nat.le_add_left 1 _)).symm⟩
  traced := .nil
  gotThere := (ite_self 0).symm
  unreachable := rfl

end Tracing

end SamplePrograms.Traceroute
