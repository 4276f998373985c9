import SamplePrograms.JobQueue.CondVAccounting

/-!
# When a dequeue thread of `prog_condV.c` leaves the pop section with a job

The wait loop tests the count in one critical section and the pop section
takes the job in another. A dequeue thread that finds the count positive when
it makes the test again leaves with a job. One that finds it zero leaves with
`next_job` null and dereferences it.
-/

namespace SamplePrograms.JobQueue.CondV
open Memory Threads

variable {T : Type*} [DecidableEq T]

/-- A dequeue thread at the test of its pop section finds the count positive. -/
def PopFindsJob (σ : Config T (State T) Point Mutex Gate) : Prop :=
  ∀ t, σ.status t = .running .dIf → 0 < σ.shared.jobQueueCount

/-- A thread has no job before its pop section. It remembers the head until it has
taken it off, and past the pop section it has a job. -/
structure HasJob (s : State T) (st : T → Stage) : Prop where
  outside : ∀ t, st t = .outside → s.nextJob t = none
  taken : ∀ t, st t = .taken → s.nextJob t = s.jobQueue
  obtained : ∀ t, (st t).HasObtained → s.nextJob t ≠ none

/-- A thread that gets its own facts right keeps those of the others, whose
variables it leaves alone. -/
theorem HasJob.update {s s' : State T} {st : T → Stage} (h : HasJob s st) {t : T} {q : Stage}
    (next : ∀ u, u ≠ t → s'.nextJob u = s.nextJob u)
    (head : s'.jobQueue = s.jobQueue ∨ ∀ u, u ≠ t → ¬ (st u).Critical)
    (outside : q = .outside → s'.nextJob t = none)
    (taken : q = .taken → s'.nextJob t = s'.jobQueue)
    (obtained : q.HasObtained → s'.nextJob t ≠ none) : HasJob s' (Function.update st t q) where
  outside := by
    refine (Function.forall_update_iff st fun u q => q = .outside → s'.nextJob u = none).mpr
      ⟨outside, fun u hut hu => ?_⟩
    rw [next u hut]
    exact h.outside u hu
  taken := by
    refine (Function.forall_update_iff st fun u q => q = .taken → s'.nextJob u = s'.jobQueue).mpr
      ⟨taken, fun u hut hu => ?_⟩
    rw [next u hut, h.taken u hu]
    exact (head.resolve_right fun hc => hc u hut (by simp [hu, Stage.Critical])).symm
  obtained := by
    refine (Function.forall_update_iff st fun u q => q.HasObtained → s'.nextJob u ≠ none).mpr
      ⟨obtained, fun u hut hu => ?_⟩
    rw [next u hut]
    exact h.obtained u hu

/-- A thread that does not deal with `next_job` keeps the facts. -/
theorem HasJob.away {s s' : State T} {st : T → Stage} (h : HasJob s st) {t : T} {q : Stage}
    (next : s'.nextJob = s.nextJob)
    (head : s'.jobQueue = s.jobQueue ∨ ∀ u, u ≠ t → ¬ (st u).Critical)
    (outside : q = .outside → st t = .outside) (taken : q ≠ .taken)
    (obtained : q.HasObtained → (st t).HasObtained) : HasJob s' (Function.update st t q) := by
  refine h.update (fun u _ => by rw [next]) head (fun hq => ?_) (fun hq => (taken hq).elim)
    fun hq => ?_
  · rw [next]
    exact h.outside t (outside hq)
  · rw [next]
    exact h.obtained t (obtained hq)

/-- One statement before which the test of the pop section finds a job. -/
theorem HasJob.exec {threads : ThreadList T} {σ : Config T (State T) Point Mutex Gate}
    (h : HasJob σ.shared (σ.phases stage)) (finds : PopFindsJob σ) (k : Knows σ) {t : T}
    {p p' : Point} {f : State T → List (State T × Point)} {s' : State T}
    (here : σ.status t = .running p) (hc : (condV threads).code t p = .exec f)
    (out : (s', p') ∈ f σ.shared) : HasJob s' (Function.update (σ.phases stage) t (stage p')) := by
  have ht : σ.phases stage t = stage p := by rw [Config.phases_apply, here, Status.point_running]
  have alone := k.alone t
  have took := h.taken t
  rw [ht] at alone took
  cases p <;> cases hc
  case eCalloc =>
    cases List.mem_singleton.mp out
    cases hok : threads.callocOk t
    all_goals exact h.away rfl (.inl rfl) (by rw [ht]; decide) (by decide) (by rw [ht]; decide)
  case eData | eLink | ePrint | dPrint | dFree =>
    rcases attempt_map out with ⟨a, -, ho⟩ | ⟨e, -, ho⟩
    all_goals
      cases ho
      exact h.away rfl (.inl rfl) (by rw [ht]; decide) (by decide) (by rw [ht]; decide)
  case eTest | dTest =>
    cases List.mem_singleton.mp out
    apply h.away rfl (.inl rfl)
    all_goals
      split_ifs
      all_goals
        try rw [ht]
        decide
  case eSetHead =>
    cases List.mem_singleton.mp out
    exact h.away rfl (.inr (alone (by simp [stage, Stage.Critical]))) (by rw [ht]; decide)
      (by decide) (by rw [ht]; decide)
  case eCount | dDecrement =>
    cases List.mem_singleton.mp out
    exact h.away rfl (.inl rfl) (by rw [ht]; decide) (by decide) (by rw [ht]; decide)
  case dIf =>
    simp only [if_pos (finds t here)] at out
    cases List.mem_singleton.mp out
    exact h.away rfl (.inl rfl) (by rw [ht]; decide) (by decide) (by rw [ht]; decide)
  case dTake =>
    cases List.mem_singleton.mp out
    exact h.update (fun u hu => Function.update_of_ne hu _ _) (.inl rfl)
      (fun hq => absurd hq (by decide)) (fun _ => Function.update_self _ _ _)
      fun hq => absurd hq (by decide)
  case dAdvance =>
    have others := alone (by simp [stage, Stage.Critical])
    rcases attempt_map out with ⟨job, hj, ho⟩ | ⟨e, -, ho⟩
    · cases ho
      obtain ⟨a, ha, -⟩ := load_eq_ok_iff.mp hj
      refine h.update (fun _ _ => rfl) (.inr others) (fun hq => absurd hq (by decide))
        (fun hq => absurd hq (by decide)) fun _ => ?_
      simp [took rfl, ha]
    · cases ho
      exact h.update (fun _ _ => rfl) (.inl rfl) (fun hq => absurd hq (by decide))
        (fun _ => took rfl) fun hq => absurd hq (by decide)

theorem hasJob_initial (threads : ThreadList T) :
    HasJob (condV threads).init fun t => stage ((condV threads).start t) := by
  refine ⟨fun _ _ => rfl, fun t ht => ?_, fun t ht => ?_⟩
  all_goals cases h : threads.enqueues t <;> simp [condV, h, stage, Stage.HasObtained] at ht

variable [Fintype T] {threads : ThreadList T} {σ : Config T (State T) Point Mutex Gate}

/-- In a run in which every test of the pop section finds a job, a dequeue thread
past its pop section has one. -/
theorem runs_hasJob (h : (condV threads).ReachableWhile PopFindsJob σ) :
    HasJob σ.shared (σ.phases stage) :=
  h.phase_invariant (I := HasJob) (fun _ hr => reachable_knows hr) (stage_kept threads)
    (hasJob_initial threads)
    fun _ _ _ _ _ _ finds k hi here hc out => hi.exec finds k here hc out

/-- A thread whose test finds no job can run on to its `printf` with `next_job` null. -/
theorem leaves_without_job (h : (condV threads).Reachable σ) {t : T}
    (here : σ.status t = .running .dIf) (empty : σ.shared.jobQueueCount = 0)
    (idle : σ.shared.nextJob t = none) :
    ∃ τ, Relation.ReflTransGen (condV threads).Step σ τ ∧ τ.status t = .running .dPrint ∧
      τ.shared.nextJob t = none := by
  have own := ((disciplined threads).owned h).1 t
  have test : (condV threads).Step σ ⟨σ.shared, σ.owner,
      Function.update σ.status t (.running .dReunlockCount)⟩ := by
    refine .exec here rfl (List.mem_singleton.mpr ?_)
    simp [empty]
  have unlockCount : (condV threads).Step _ _ :=
    .unlock (σ := ⟨σ.shared, σ.owner, Function.update σ.status t (.running .dReunlockCount)⟩)
      (t := t) (p := .dReunlockCount) (Function.update_self _ _ _) rfl
      ((own .jobQueueCountMutex).mpr (by rw [here]; simp [holds, held]))
  have unlockQueue : (condV threads).Step _ _ :=
    .unlock (σ := ⟨σ.shared, Function.update σ.owner .jobQueueCountMutex none,
        Function.update (Function.update σ.status t (.running .dReunlockCount)) t
          (.running .dUnlockQueue)⟩)
      (t := t) (p := .dUnlockQueue) (Function.update_self _ _ _) rfl
      ((own .jobQueueMutex).mpr (by rw [here]; simp [holds, held]))
  exact ⟨_, ((Relation.ReflTransGen.single test).tail unlockCount).tail unlockQueue,
    Function.update_self _ _ _, idle⟩

/-- In a run in which every test of the pop section finds a job, `next_job` is not
null when it is dereferenced. The first test in a run that finds no job lets
its thread go on to dereference the null `next_job`. -/
theorem pop_section_obtains (threads : ThreadList T)
    (σ : Config T (State T) Point Mutex Gate) (h : (condV threads).ReachableWhile PopFindsJob σ) :
    (∀ t, σ.status t = .running .dPrint → σ.shared.nextJob t ≠ none) ∧
    (¬ PopFindsJob σ → ∃ t τ, Relation.ReflTransGen (condV threads).Step σ τ ∧
      τ.status t = .running .dPrint ∧ τ.shared.nextJob t = none) := by
  have hj := runs_hasJob h
  refine ⟨fun t ht => hj.obtained t ?_, fun hn => ?_⟩
  · rw [Config.phases_apply, ht]
    decide
  · simp only [PopFindsJob, not_forall, Nat.not_lt, Nat.le_zero] at hn
    obtain ⟨t, here, empty⟩ := hn
    have idle := hj.outside t (by rw [Config.phases_apply, here]; rfl)
    exact ⟨t, leaves_without_job h.reachable here empty idle⟩

/-- Both dequeue threads leave the wait loop before the first takes the only job. -/
def bothLeave (e d d' : T) : List (T × Nat) :=
  List.replicate 10 (e, 0) ++ List.replicate 3 (d, 0) ++ List.replicate 3 (d', 0) ++
    List.replicate 8 (d, 0) ++ List.replicate 5 (d', 0)

/-- Two dequeue threads, one job: the second dereferences a null `next_job`. -/
theorem pop_section_obtains_not_always :
    ¬ ∀ σ, (condV twoDequeue).Reachable σ → ∀ t, σ.status t = .running .dPrint →
      σ.shared.nextJob t ≠ none := by
  intro all
  refine all _ (Program.runSchedule_reachable (condV twoDequeue) (bothLeave 0 1 2) rfl) 2 ?_ ?_
  · rfl
  · rfl

instance : DecidablePred (PopFindsJob (T := T)) := fun σ =>
  inferInstanceAs (Decidable (∀ t, σ.status t = .running .dIf → 0 < σ.shared.jobQueueCount))

/-- A dequeue thread takes the only job and is about to print it. -/
theorem pop_section_obtains_onlyJob : ∃ σ, (condV twoDequeue).runSchedule
    (condV twoDequeue).initial (handOver.take 21) = some σ ∧
      σ.status 1 = .running .dPrint ∧ σ.shared.nextJob 1 ≠ none := by
  have h := pop_section_obtains twoDequeue _ (Program.runSchedule_reachableWhile PopFindsJob
    (handOver.take 21) .refl rfl rfl)
  exact ⟨_, rfl, rfl, h.1 1 rfl⟩

end SamplePrograms.JobQueue.CondV
