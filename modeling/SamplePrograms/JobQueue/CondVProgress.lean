import SamplePrograms.JobQueue.CondVAccounting
import SamplePrograms.Library.ThreadWakeups

/-!
# The threads of `prog_condV.c` are never stuck with work left

While a dequeue thread sleeps, every queued job has a thread that cares for it:
an awake dequeue thread before its decrement, or an enqueue thread about to
signal. The locks are nested in one order, so without a crash inside the
critical sections some thread can always go on until only sleepers are left.
-/

namespace SamplePrograms.JobQueue.CondV
open Memory Threads

/-- The thread will count a job down, or wake a thread that will, or find no job. -/
def cares : Status Point Mutex Gate → Bool
  | .running .eSignal => true
  | .running p => p ∈ [.dTest, .dUnlockCount, .dLockQueue, .dRelockCount, .dIf, .dTake, .dAdvance,
      .dAdvanceFault, .dDecrement]
  | .woken _ _ => true
  | .blocked _ _ _ => false

variable {T : Type*} [Fintype T]

/-- Every queued job is cared for while a dequeue thread sleeps. -/
def JobsCovered (s : State T) (status : T → Status Point Mutex Gate) : Prop :=
  Covered .pcondVar s.jobQueueCount cares status

variable [DecidableEq T] {threads : ThreadList T} {σ τ : Config T (State T) Point Mutex Gate}

/-- A statement keeps the jobs covered. -/
theorem JobsCovered.exec (h : JobsCovered σ.shared σ.status) {t : T} {p p' : Point}
    {f : State T → List (State T × Point)} {s' : State T} (here : σ.status t = .running p)
    (hc : (condV threads).code t p = .exec f) (out : (s', p') ∈ f σ.shared) :
    JobsCovered s' (Function.update σ.status t (.running p')) := by
  cases p <;> cases hc
  case eCalloc =>
    cases List.mem_singleton.mp out
    cases hok : threads.callocOk t
    all_goals exact h.update id (by simp [here, cares, callocJob])
  case eData | eLink | ePrint | dAdvance | dPrint | dFree =>
    rcases attempt_map out with ⟨a, -, ho⟩ | ⟨e, -, ho⟩
    all_goals
      cases ho
      exact h.update id (by simp [here, cares])
  case eTest =>
    cases List.mem_singleton.mp out
    by_cases he : σ.shared.jobQueue = none
    · exact h.update id (by simp [here, cares, he])
    · exact h.update id (by simp [here, cares, he])
  case eSetHead | eCount | dTake =>
    cases List.mem_singleton.mp out
    exact h.update id (by simp [here, cares, setHead, takeHead])
  case dTest =>
    cases List.mem_singleton.mp out
    by_cases hz : σ.shared.jobQueueCount = 0
    · exact .of_zero hz
    · rw [if_neg hz]
      exact h.update id (by simp [here, cares])
  case dIf =>
    cases List.mem_singleton.mp out
    by_cases hz : σ.shared.jobQueueCount > 0
    · rw [if_pos hz]
      exact h.update id (by simp [here, cares])
    · exact .of_zero (by omega)
  case dDecrement =>
    cases List.mem_singleton.mp out
    rcases Nat.eq_zero_or_pos σ.shared.jobQueueCount with hz | hpos
    · exact .of_zero (by simp [hz])
    · exact h.update id (by simp [here, cares]; omega)

/-- Every move keeps the jobs covered. -/
theorem JobsCovered.move (h : JobsCovered σ.shared σ.status) (hr : (condV threads).Reachable σ)
    (hm : (condV threads).Move σ τ) : JobsCovered τ.shared τ.status := by
  rcases hm with st | sp
  · cases st with
    | exec here code out => exact h.exec here code out
    | @lock t p m n here code free =>
        apply h.update id
        cases p <;> cases code <;> simp [here, cares]
    | @unlock t p m n here code held =>
        apply h.update id
        cases p <;> cases code <;> simp [here, cares]
    | @wait t p c m n here code held =>
        -- a thread goes to sleep because it has found the count zero
        have hk := (asserts threads).at_point (disciplined threads) hr here
        cases p <;> cases code
        exact .of_zero hk
    | @resume t m n here free =>
        have hw := hr.waits t
        rw [here] at hw
        obtain ⟨p, c, code⟩ := hw
        apply h.update id
        cases p <;> cases code
        simp [here, cares]
    | @signal t p c n W here code sub someone =>
        have hn : t ∉ W := fun hw => by simpa [here] using sub hw
        have hs : wakeAll W σ.status t = .running p := by simp [wakeAll, hn, here]
        have asleep (u : T) (hu : (σ.status u).SleepsOn c) :
            cares (σ.status u) = false ∧ cares (σ.status u).wake = true := by
          cases hst : σ.status u with
          | running q => rw [hst] at hu; exact hu.elim
          | woken m q => rw [hst] at hu; exact hu.elim
          | blocked c' m q => exact ⟨rfl, rfl⟩
        cases p <;> cases code
        have woken := Covered.signal h sub someone (fun u hu => (asleep u hu).1)
          fun u hu => (asleep u hu).2
        exact woken.update id (by simp [hs, cares])
    | @broadcast t p c n here code => cases p <;> cases code
  · cases sp with
    | @wake t c m n here => exact h.update id (by simp [here, cares])

theorem reachable_covered (h : (condV threads).Reachable σ) : JobsCovered σ.shared σ.status :=
  h.invariant (I := fun σ => JobsCovered σ.shared σ.status) (.of_zero rfl)
    fun _ _ hr hi hm => hi.move hr hm

/-- A thread has dereferenced a null pointer inside the critical sections. -/
def Crashed (σ : Config T (State T) Point Mutex Gate) : Prop :=
  ∃ t, σ.status t = .running .eLinkFault ∨ σ.status t = .running .dAdvanceFault

/-- The thread has returned, or has stopped at its last `printf` or at `free`. -/
def Finished (st : Status Point Mutex Gate) : Prop :=
  st = .running .eDone ∨ st = .running .eFault ∨ st = .running .dDone ∨ st = .running .dFault

omit [Fintype T] in
/-- An action that waits is the end of a thread or takes a mutex that is held. -/
theorem waits_cases {t : T} {p : Point} (w : ((condV threads).code t p).Waits σ) :
    Finished (.running p) ∨ p = .eLinkFault ∨ p = .dAdvanceFault ∨
      ∃ m n, (condV threads).code t p = .lock m n ∧ σ.owner m ≠ none := by
  cases p
  case eLockQueue | eLockCount | dLockCount | dLockQueue | dRelockCount =>
    exact .inr (.inr (.inr ⟨_, _, rfl, w⟩))
  case eDone | eFault | dDone | dFault => exact .inl (by simp [Finished])
  case eLinkFault => exact .inr (.inl rfl)
  case dAdvanceFault => exact .inr (.inr (.inl rfl))
  case eData | eLink | ePrint | dAdvance | dPrint | dFree => exact (attempt_ne_nil w).elim
  all_goals simp [condV, code, Action.Waits] at w

/-- The owner of a mutex is running inside its section. -/
theorem owner_running (h : (condV threads).Reachable σ) {t : T} {m : Mutex}
    (owner : σ.owner m = some t) : ∃ p, σ.status t = .running p ∧ holds p m := by
  have hh := (((disciplined threads).owned h).1 t m).mp owner
  rcases running_or_waits h t with ⟨p, hs⟩ | hs | hs
  · rw [hs] at hh
    exact ⟨p, hs, hh⟩
  · rw [hs] at hh
    exact absurd hh (by simp [Status.Holds, holds, held])
  · rw [hs] at hh
    exact absurd hh (by simp [Status.Holds, holds, held])

/-- In a stuck configuration without a crash the owner of a mutex waits for one that is held. -/
theorem stuck_owner (h : (condV threads).Reachable σ) (stuck : (condV threads).Stuck σ)
    (nocrash : ¬ Crashed σ) {t : T} {m : Mutex} (owner : σ.owner m = some t) :
    ∃ p m' n, holds p m ∧ (condV threads).code t p = .lock m' n ∧ σ.owner m' ≠ none := by
  obtain ⟨p, here, hp⟩ := owner_running h owner
  rcases waits_cases (stuck.running (disciplined threads) ((disciplined threads).owned h) here) with
    hf | rfl | rfl | ⟨m', n, hl, taken⟩
  · rcases hf with hf | hf | hf | hf
    all_goals
      cases hf
      exact absurd hp (by simp [holds, held])
  · exact absurd ⟨t, .inl here⟩ nocrash
  · exact absurd ⟨t, .inr here⟩ nocrash
  · exact ⟨p, m', n, hp, hl, taken⟩

/-- In a stuck configuration without a crash no mutex is held: the owner of
`job_queue_count_mutex` never waits, and the owner of `job_queue_mutex` waits
for nothing but the other mutex. -/
theorem stuck_free (h : (condV threads).Reachable σ) (stuck : (condV threads).Stuck σ)
    (nocrash : ¬ Crashed σ) (m : Mutex) : σ.owner m = none := by
  have inner : σ.owner .jobQueueCountMutex = none := by
    apply Option.eq_none_iff_forall_ne_some.mpr
    intro t ht
    obtain ⟨p, m', n, hp, hl, -⟩ := stuck_owner h stuck nocrash ht
    cases p <;> cases hl
    all_goals exact absurd hp (by decide)
  cases m with
  | jobQueueCountMutex => exact inner
  | jobQueueMutex =>
      apply Option.eq_none_iff_forall_ne_some.mpr
      intro t ht
      obtain ⟨p, m', n, hp, hl, taken⟩ := stuck_owner h stuck nocrash ht
      cases p <;> cases hl
      all_goals first | exact absurd hp (by decide) | exact taken inner

/-- In a stuck configuration without a crash the unfinished threads sleep in
`pthread_cond_wait`. -/
theorem stuck_sleeps (h : (condV threads).Reachable σ) (stuck : (condV threads).Stuck σ)
    (nocrash : ¬ Crashed σ) {t : T} (unfinished : ¬ Finished (σ.status t)) :
    σ.status t = .blocked .pcondVar .jobQueueCountMutex .dTest := by
  have own := (disciplined threads).owned h
  have free := stuck_free h stuck nocrash
  rcases running_or_waits h t with ⟨p, hs⟩ | hs | hs
  · rw [hs] at unfinished
    rcases waits_cases (stuck.running (disciplined threads) own hs) with
      hf | rfl | rfl | ⟨m, n, -, taken⟩
    · exact (unfinished hf).elim
    · exact (nocrash ⟨t, .inl hs⟩).elim
    · exact (nocrash ⟨t, .inr hs⟩).elim
    · exact (taken (free m)).elim
  · exact hs
  · exact (stuck.woken hs (free _)).elim

/-- In a stuck configuration without a crash no job is left for a sleeping thread. -/
theorem stuck_count (h : (condV threads).Reachable σ) (stuck : (condV threads).Stuck σ)
    (nocrash : ¬ Crashed σ) {t : T} (unfinished : ¬ Finished (σ.status t)) :
    σ.shared.jobQueueCount = 0 := by
  have sleeps := stuck_sleeps h stuck nocrash unfinished
  have covered := reachable_covered h ⟨t, by rw [sleeps]; rfl⟩
  have nobody : tally true (fun u => cares (σ.status u)) = 0 := by
    refine (tally_eq_zero_iff _ _).mpr fun u => ?_
    by_cases hf : Finished (σ.status u)
    · rcases hf with hf | hf | hf | hf
      all_goals
        rw [hf]
        decide
    · rw [stuck_sleeps h stuck nocrash hf]
      decide
  omega

/-- The fault points inside the critical sections. -/
def crashes : Point → Bool
  | .eLinkFault | .dAdvanceFault => true
  | _ => false

/-- Without allocation failures no thread crashes inside the critical sections. -/
theorem not_crashed (memory : ∀ t, threads.callocOk t = true) (h : (condV threads).Reachable σ) :
    ¬ Crashed σ := by
  have safe : ∀ t, σ.phases crashes t = false := by
    refine h.phase_invariant (I := fun _ st => ∀ t, st t = false)
      (K := fun σ => Accounted σ.shared (σ.phases stage) ∧ Knows σ)
      (fun σ hr => ⟨reachable_accounted (fun t _ => memory t) hr, reachable_knows hr⟩) ?_ ?_ ?_
    · intro t p
      cases p <;> trivial
    · intro t
      cases ht : threads.enqueues t <;> simp [condV, ht, crashes]
    · rintro σ t p f s' p' ⟨⟨l, hl, hn⟩, k⟩ hi here hc out u
      have ht : σ.phases stage t = stage p := by
        rw [Config.phases_apply, here, Status.point_running]
      have next : crashes p' = false := by
        cases p <;> cases hc
        case eLink =>
          obtain ⟨s₁, hs, -, -⟩ := hl.linkJob ht
          cases attempt_ok hs out
          rfl
        case dAdvance =>
          have others := k.alone t (by simp [ht, stage, Stage.Critical])
          obtain ⟨a, l', s₁, -, -, hs, -⟩ :=
            hl.advanceHead ht (advance_nonempty hn ht others (k.known t _ here)) others
          cases attempt_ok hs out
          rfl
        case eData | ePrint | dPrint | dFree =>
          rcases attempt_map out with ⟨a, -, ho⟩ | ⟨e, -, ho⟩ <;> cases ho <;> rfl
        all_goals
          cases List.mem_singleton.mp out
          try split_ifs
          all_goals rfl
      by_cases hu : u = t
      · subst u
        rw [Function.update_self]
        exact next
      · rw [Function.update_of_ne hu]
        exact hi u
  rintro ⟨t, ht | ht⟩
  all_goals
    have hs := safe t
    rw [Config.phases_apply, ht] at hs
    cases hs

/-- When no thread can take a step, no thread has crashed inside the critical
sections, and some thread has not finished, then no mutex is held, every such
thread is a dequeue thread that sleeps in `pthread_cond_wait`, and the count is
zero. Such a crash needs an allocation failure. -/
theorem stuck_without_work (threads : ThreadList T) (σ : Config T (State T) Point Mutex Gate)
    (h : (condV threads).Reachable σ) (stuck : (condV threads).Stuck σ) :
    ((∀ t, threads.callocOk t = true) → ¬ Crashed σ) ∧
    (¬ Crashed σ → (∀ m, σ.owner m = none) ∧
      ∀ t, ¬ Finished (σ.status t) → threads.enqueues t = false ∧
        σ.status t = .blocked .pcondVar .jobQueueCountMutex .dTest ∧
        σ.shared.jobQueueCount = 0) := by
  refine ⟨fun memory => not_crashed memory h, fun nocrash =>
    ⟨stuck_free h stuck nocrash, fun t unfinished => ?_⟩⟩
  have sleeps := stuck_sleeps h stuck nocrash unfinished
  have kind := reachable_enqueues h t
  rw [sleeps] at kind
  exact ⟨kind.symm, sleeps, stuck_count h stuck nocrash unfinished⟩

/-- A single enqueue thread. -/
def oneEnqueue : ThreadList (Fin 1) where
  enqueues _ := true
  threadId t := t
  callocOk _ := true

/-- A single enqueue thread finishes and leaves its job in the queue. -/
theorem stuck_count_not_always :
    ¬ ∀ σ, (condV oneEnqueue).Reachable σ → (condV oneEnqueue).Stuck σ →
      (∀ t, ¬ Finished (σ.status t) →
        σ.status t = .blocked .pcondVar .jobQueueCountMutex .dTest) ∧
      σ.shared.jobQueueCount = 0 := by
  intro all
  have done := (all _
    (Program.runSchedule_reachable (condV oneEnqueue) (List.replicate 11 (0, 0)) rfl)
    (.of_idle fun t => .inl ⟨.eDone, by rw [Subsingleton.elim t 0]; rfl, rfl⟩)).2
  cases done

/-- A single dequeue thread goes to sleep. -/
def oneDequeue : ThreadList (Fin 1) where
  enqueues _ := false
  threadId t := t
  callocOk _ := true

theorem stuck_without_work_oneDequeue : ∃ σ,
    (condV oneDequeue).runSchedule (condV oneDequeue).initial (List.replicate 3 (0, 0)) = some σ ∧
      σ.status 0 = .blocked .pcondVar .jobQueueCountMutex .dTest ∧
      σ.shared.jobQueueCount = 0 := by
  have hr := Program.runSchedule_reachable (condV oneDequeue) (List.replicate 3 (0, 0)) rfl
  have h := stuck_without_work oneDequeue _ hr
    (.of_idle fun t => .inr ⟨_, _, _, by rw [Subsingleton.elim t 0]; rfl⟩)
  refine ⟨_, rfl, ((h.2 (h.1 fun _ => rfl)).2 0 ?_).2⟩
  rintro (hf | hf | hf | hf) <;> cases hf

end SamplePrograms.JobQueue.CondV
