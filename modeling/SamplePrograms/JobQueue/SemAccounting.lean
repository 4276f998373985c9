import SamplePrograms.JobQueue.SemModel

/-!
# Every admitted thread of `prog_sem.c` finds a job

The length of the queue is the value of the semaphore, plus the jobs put in and
not yet posted, plus the threads that have passed `sem_wait` and have not taken
their job. So a thread that has passed `sem_wait` finds the queue not empty.
-/

namespace SamplePrograms.JobQueue.Sem
open Memory Threads

variable {T : Type*} [Fintype T] [DecidableEq T]

/-- The jobs are tracked. The queue covers the semaphore and the threads on
their way to it, and every job that was put in is in the queue or obtained. -/
def Accounted (s : State T) (st : T → Stage) : Prop :=
  ∃ l, Tracked s st l ∧
    l.length = s.jobQueueCount + tally .pushed st + tally .admitted st + tally .taken st ∧
    l.length + tally .obtained st = tally .pushed st + tally .queued st

theorem accounted_initial (threads : ThreadList T) :
    Accounted (sem threads).init fun t => stage ((sem threads).start t) := by
  have hs : (fun t => stage ((sem threads).start t)) = fun _ => Stage.outside := by
    funext t
    cases h : threads.enqueues t <;> simp [sem, h, stage]
  rw [hs]
  exact ⟨[], Tracked.initial _ rfl, by simp [sem, initializeVars, tally_const],
    by simp [tally_const]⟩

/-- The units that a thread in a stage adds to the length of the queue. -/
def covers (q : Stage) : Nat := if q = .pushed ∨ q = .admitted ∨ q = .taken then 1 else 0

/-- The account after a statement, from what it changed. -/
theorem Accounted.update {s s' : State T} {st : T → Stage} {t : T} {q : Stage} {l l' : List Nat}
    (account : l.length = s.jobQueueCount + tally .pushed st + tally .admitted st +
      tally .taken st)
    (passed : l.length + tally .obtained st = tally .pushed st + tally .queued st)
    (tracked : Tracked s' (Function.update st t q) l')
    (change : l'.length + s.jobQueueCount + covers (st t) =
      l.length + s'.jobQueueCount + covers q)
    (moved : l'.length + (if q = .obtained then 1 else 0) + (if (st t).HasQueued then 1 else 0) =
      l.length + (if st t = .obtained then 1 else 0) + (if q.HasQueued then 1 else 0)) :
    Accounted s' (Function.update st t q) := by
  have hp := tally_update .pushed q st t
  have ha := tally_update .admitted q st t
  have hk := tally_update .taken q st t
  have hq := tally_update .queued q st t
  have ho := tally_update .obtained q st t
  have covers_eq (r : Stage) : covers r = (if r = .pushed then 1 else 0) +
      (if r = .admitted then 1 else 0) + (if r = .taken then 1 else 0) := by
    cases r <;> rfl
  have queued_eq (r : Stage) : (if r.HasQueued then 1 else 0) =
      (if r = .pushed then 1 else 0) + (if r = .queued then 1 else 0) := by
    cases r <;> rfl
  rw [covers_eq, covers_eq] at change
  rw [queued_eq, queued_eq] at moved
  exact ⟨l', tracked, by omega, by omega⟩

/-- A thread that stays in its stage and changes no job keeps the account. -/
theorem Accounted.stay {s : State T} {st : T → Stage} {t : T} {q : Stage} (h : Accounted s st)
    (ht : st t = q) : Accounted s (Function.update st t q) := by
  rwa [Function.update_eq_self_iff.mpr ht.symm]

omit [DecidableEq T] in
/-- A thread that is to take a job finds one. -/
theorem admitted_nonempty {s : State T} {st : T → Stage} {t : T} {l : List Nat}
    (account : l.length = s.jobQueueCount + tally .pushed st + tally .admitted st +
      tally .taken st) (ht : st t = .admitted ∨ st t = .taken) : l ≠ [] := by
  rintro rfl
  simp only [List.length_nil] at account
  rcases ht with ht | ht
  · have hp := (tally_pos_iff Stage.admitted st).mpr ⟨t, ht⟩
    omega
  · have hp := (tally_pos_iff Stage.taken st).mpr ⟨t, ht⟩
    omega

/-- One statement keeps the account. -/
theorem Accounted.exec {threads : ThreadList T} (memory : ∀ t, threads.callocOk t = true)
    {σ : Config T (State T) Point Mutex Empty} (h : Accounted σ.shared (σ.phases stage))
    (k : ∀ t, (σ.phases stage t).Critical → ∀ u, u ≠ t → ¬ (σ.phases stage u).Critical) {t : T}
    {p p' : Point} {f : State T → List (State T × Point)} {s' : State T}
    (here : σ.status t = .running p) (hc : (sem threads).code t p = .exec f)
    (out : (s', p') ∈ f σ.shared) :
    Accounted s' (Function.update (σ.phases stage) t (stage p')) := by
  have hi := h
  obtain ⟨l, hl, hn, hm⟩ := h
  have ht : σ.phases stage t = stage p := by rw [Config.phases_apply, here, Status.point_running]
  have alone := k t
  have hp := hl.locals t
  rw [ht] at alone hp
  cases p <;> cases hc
  case eCalloc =>
    simp only [memory] at out
    cases List.mem_singleton.mp out
    exact .update hn hm (hl.callocJob ht) (by simp [ht, stage, covers, callocJob])
      (by simp [ht, stage, Stage.HasQueued])
  case eData =>
    obtain ⟨s₁, hs, h₁, hcount⟩ := hl.setData ht (threads.threadId t)
    cases attempt_ok hs out
    exact .update hn hm h₁ (by simp [ht, stage, covers, hcount])
      (by simp [ht, stage, Stage.HasQueued])
  case eTest =>
    cases List.mem_singleton.mp out
    by_cases he : σ.shared.jobQueue = none
    · rw [if_pos he]
      exact .update hn hm (hl.linkedEmpty ht he) (by simp [ht, stage, covers])
        (by simp [ht, stage, Stage.HasQueued])
    · rw [if_neg he]
      exact hi.stay ht
  case eLink =>
    obtain ⟨s₁, hs, h₁, hcount⟩ := hl.linkJob ht
    cases attempt_ok hs out
    exact .update hn hm h₁ (by simp [ht, stage, covers, hcount])
      (by simp [ht, stage, Stage.HasQueued])
  case eSetHead =>
    cases List.mem_singleton.mp out
    obtain ⟨a, -, h₁⟩ := hl.setHead ht (alone (by simp [stage, Stage.Critical]))
    exact .update hn hm h₁ (by simp [ht, stage, covers, setHead]; omega)
      (by simp [ht, stage, Stage.HasQueued])
  case ePost =>
    cases List.mem_singleton.mp out
    exact .update hn hm (hl.relabel rfl rfl rfl rfl (by rw [ht]; decide) (.inl (by rw [ht]; decide))
      hp) (by simp [ht, stage, covers]; omega) (by simp [ht, stage, Stage.HasQueued])
  case ePrint | dPrint =>
    rcases attempt_map out with ⟨job, -, ho⟩ | ⟨e, -, ho⟩
    all_goals
      cases ho
      exact hi.stay ht
  case dSemWait =>
    rw [mem_semWait] at out
    obtain ⟨pos, ho⟩ := out
    cases ho
    exact .update hn hm (hl.relabel rfl rfl rfl rfl (by rw [ht]; decide) (.inl (by rw [ht]; decide))
      trivial) (by simp [ht, stage, covers]; omega) (by simp [ht, stage, Stage.HasQueued])
  case dTake =>
    cases List.mem_singleton.mp out
    exact .update hn hm (hl.takeHead (.inr ht)) (by simp [ht, stage, covers, takeHead])
      (by simp [ht, stage, Stage.HasQueued])
  case dAdvance =>
    obtain ⟨a, l', s₁, rfl, -, hs, h₁, hcount, -⟩ :=
      hl.advanceHead ht (admitted_nonempty hn (.inr ht)) (alone (by simp [stage, Stage.Critical]))
    cases attempt_ok hs out
    exact .update hn hm (h₁ _ (by decide)) (by simp [ht, stage, covers, hcount]; omega)
      (by simp [ht, stage, Stage.HasQueued])
  case dFree =>
    rcases attempt_map out with ⟨jobs, hf, ho⟩ | ⟨e, -, ho⟩
    · cases ho
      have hfree : freeNextJob t σ.shared = .ok { σ.shared with jobs } := by
        rw [freeNextJob, hf]
        rfl
      obtain ⟨h₁, -, -⟩ := hl.freeNextJob (by rw [ht]; decide) hfree
      have h₂ : Accounted { σ.shared with jobs } (σ.phases stage) := ⟨l, h₁, hn, hm⟩
      exact h₂.stay ht
    · cases ho
      exact hi.stay ht

/-- In every run without allocation failures the account holds. -/
theorem reachable_accounted {threads : ThreadList T} (memory : ∀ t, threads.callocOk t = true)
    {σ : Config T (State T) Point Mutex Empty} (h : (sem threads).Reachable σ) :
    Accounted σ.shared (σ.phases stage) :=
  h.phase_invariant (I := Accounted) (fun _ hr => alone hr) (stage_kept threads)
    (accounted_initial threads) fun _ _ _ _ _ _ k hi here hc out => hi.exec memory k here hc out

/-- The thread has returned, or has stopped at its last `printf` or at `free`. -/
def Finished (st : Status Point Mutex Empty) : Prop :=
  st = .running .eDone ∨ st = .running .eFault ∨ st = .running .dDone ∨ st = .running .dFault

/-- When all threads have finished, the stages count the threads of the two kinds. -/
theorem tally_finished {threads : ThreadList T} {σ : Config T (State T) Point Mutex Empty}
    (h : (sem threads).Reachable σ) (finished : ∀ t, Finished (σ.status t)) :
    tally .pushed (σ.phases stage) = 0 ∧
    tally .queued (σ.phases stage) = (Finset.univ.filter fun t => threads.enqueues t = true).card ∧
    tally .obtained (σ.phases stage) =
      (Finset.univ.filter fun t => threads.enqueues t = false).card := by
  have kind (t : T) : σ.phases stage t = .queued ∧ threads.enqueues t = true ∨
      σ.phases stage t = .obtained ∧ threads.enqueues t = false := by
    have hk := reachable_enqueues h t
    rw [Config.phases_apply]
    rcases finished t with hf | hf | hf | hf
    all_goals
      rw [hf] at hk ⊢
      simp [← hk, stage, enqueuePoint]
  refine ⟨(tally_eq_zero_iff _ _).mpr fun t => ?_, ?_, ?_⟩
  · rcases kind t with ⟨hk, -⟩ | ⟨hk, -⟩ <;> simp [hk]
  · refine congrArg Finset.card (Finset.filter_congr fun t _ => ?_)
    rcases kind t with ⟨hk, he⟩ | ⟨hk, he⟩ <;> simp [hk, he]
  · refine congrArg Finset.card (Finset.filter_congr fun t _ => ?_)
    rcases kind t with ⟨hk, he⟩ | ⟨hk, he⟩ <;> simp [hk, he]

/-- In every run without allocation failures a thread that has passed `sem_wait`
finds the queue not empty when it pops. Every job that was put in is in the
list once or with exactly one dequeue thread. When all threads have finished,
the list is as long as there are more enqueue than dequeue threads. -/
theorem admitted_finds_job (threads : ThreadList T) (memory : ∀ t, threads.callocOk t = true)
    {σ : Config T (State T) Point Mutex Empty} (h : (sem threads).Reachable σ) :
    (∀ t, σ.status t = .running .dTake ∨ σ.status t = .running .dAdvance →
      σ.shared.jobQueue ≠ none) ∧
    ∃ l, Segment σ.shared.jobs.cell Job.next σ.shared.jobQueue l none ∧
      (∀ a ∈ l, ∃ t, queuedJob σ.shared (σ.phases stage) t = some a) ∧
      (∀ t, (σ.phases stage t).HasQueued → ∃ a, σ.shared.newJob t = some a ∧
        (∀ u, σ.shared.newJob u = some a → u = t) ∧
        ((l.count a = 1 ∧ ∀ d, obtainedJob σ.shared (σ.phases stage) d ≠ some a) ∨
          (a ∉ l ∧ ∃! d, obtainedJob σ.shared (σ.phases stage) d = some a))) ∧
      ((∀ t, Finished (σ.status t)) →
        l.length + (Finset.univ.filter fun t => threads.enqueues t = false).card =
          (Finset.univ.filter fun t => threads.enqueues t = true).card) := by
  obtain ⟨l, hl, hn, hm⟩ := reachable_accounted memory h
  refine ⟨fun t ht hq => ?_, l, hl.segment, hl.ledger.listed, fun t ht => hl.location ht,
    fun finished => ?_⟩
  · have hs : σ.phases stage t = .admitted ∨ σ.phases stage t = .taken := by
      rw [Config.phases_apply]
      rcases ht with ht | ht
      all_goals
        rw [ht]
        decide
    have hseg := hl.segment
    rw [hq] at hseg
    exact admitted_nonempty hn hs (hseg.unique rfl)
  · obtain ⟨hp, hq, ho⟩ := tally_finished h finished
    omega

/-- One enqueue thread and one dequeue thread. -/
def oneEach : ThreadList (Fin 2) where
  enqueues t := t = 0
  threadId t := t
  callocOk _ := true

/-- The enqueue thread finishes, and the dequeue thread is about to pop. -/
def admitted : List (Fin 2 × Nat) :=
  List.replicate 8 (0, 0) ++ List.replicate 2 (1, 0)

theorem admitted_finds_job_oneEach : ∃ σ,
    (sem oneEach).runSchedule (sem oneEach).initial admitted = some σ ∧
      σ.status 1 = .running .dTake ∧ σ.shared.jobQueue ≠ none := by
  have h := admitted_finds_job oneEach (fun _ => rfl)
    (Program.runSchedule_reachable (sem oneEach) admitted rfl)
  exact ⟨_, rfl, rfl, h.1 1 (.inl rfl)⟩

end SamplePrograms.JobQueue.Sem
