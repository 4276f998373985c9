import SamplePrograms.JobQueue.CondVModel
import SamplePrograms.Library.ThreadSchedule

/-!
# No job of `prog_condV.c` is lost or handed out twice

The list behind `job_queue` is followed through every statement together with
the job of each thread. The count differs from the length of the list only by
the threads that have changed one and not yet the other.
-/

namespace SamplePrograms.JobQueue.CondV
open Memory Threads

variable {T : Type*} [Fintype T] [DecidableEq T]

/-- The jobs are tracked, and the count is the length of the queue up to the
threads between the change of the queue and the change of the count. -/
def Accounted (s : State T) (st : T → Stage) : Prop :=
  ∃ l, Tracked s st l ∧ s.jobQueueCount + tally .pushed st = l.length + tally .removed st

theorem accounted_initial (threads : ThreadList T) :
    Accounted (condV threads).init fun t => stage ((condV threads).start t) := by
  have hs : (fun t => stage ((condV threads).start t)) = fun _ => Stage.outside := by
    funext t
    cases h : threads.enqueues t <;> simp [condV, h, stage]
  rw [hs]
  exact ⟨[], Tracked.initial _ rfl, by simp [condV, initializeVars, tally_const]⟩

/-- The account after a statement, from what it changed. -/
theorem Accounted.update {s s' : State T} {st : T → Stage} {t : T} {q : Stage} {l l' : List Nat}
    (account : s.jobQueueCount + tally .pushed st = l.length + tally .removed st)
    (tracked : Tracked s' (Function.update st t q) l')
    (change : s'.jobQueueCount + (if q = .pushed then 1 else 0) +
        (if st t = .removed then 1 else 0) + l.length =
      s.jobQueueCount + (if st t = .pushed then 1 else 0) +
        (if q = .removed then 1 else 0) + l'.length) :
    Accounted s' (Function.update st t q) := by
  have hp := tally_update .pushed q st t
  have hr := tally_update .removed q st t
  exact ⟨l', tracked, by omega⟩

/-- A thread that stays in its stage and changes no job keeps the account. -/
theorem Accounted.stay {s : State T} {st : T → Stage} {t : T} {q : Stage} (h : Accounted s st)
    (ht : st t = q) : Accounted s (Function.update st t q) := by
  rwa [Function.update_eq_self_iff.mpr ht.symm]

/-- The queue of an account is not empty for the one thread that may take a job. -/
theorem advance_nonempty {s : State T} {st : T → Stage} {t : T} {l : List Nat}
    (account : s.jobQueueCount + tally .pushed st = l.length + tally .removed st)
    (ht : st t = .taken) (others : ∀ u, u ≠ t → ¬ (st u).Critical) (pos : 0 < s.jobQueueCount) :
    l ≠ [] := by
  have hr : tally .removed st = 0 := by
    refine (tally_eq_zero_iff _ _).mpr fun u hu => ?_
    by_cases hut : u = t
    · rw [hut, ht] at hu
      cases hu
    · exact others u hut (by simp [hu, Stage.Critical])
  rintro rfl
  simp only [List.length_nil, hr] at account
  omega

/-- One statement keeps the account. -/
theorem Accounted.exec {threads : ThreadList T} {σ : Config T (State T) Point Mutex Gate}
    (h : Accounted σ.shared (σ.phases stage)) (k : Knows σ) {t : T} {p p' : Point}
    {f : State T → List (State T × Point)} {s' : State T} (here : σ.status t = .running p)
    (hc : (condV threads).code t p = .exec f) (out : (s', p') ∈ f σ.shared)
    (memory : p = .eCalloc → threads.callocOk t = true) :
    Accounted s' (Function.update (σ.phases stage) t (stage p')) := by
  have hi := h
  obtain ⟨l, hl, hn⟩ := h
  have ht : σ.phases stage t = stage p := by rw [Config.phases_apply, here, Status.point_running]
  have hk := k.known t p here
  have alone := k.alone t
  have hp := hl.locals t
  rw [ht] at alone hp
  cases p <;> cases hc
  case eCalloc =>
    simp only [memory rfl, if_true] at out
    cases List.mem_singleton.mp out
    exact .update hn (hl.callocJob ht) (by simp [ht, stage, callocJob])
  case eData =>
    obtain ⟨s₁, hs, h₁, hcount⟩ := hl.setData ht (threads.threadId t)
    cases attempt_ok hs out
    exact .update hn h₁ (by simp [ht, stage, hcount])
  case eTest =>
    cases List.mem_singleton.mp out
    by_cases he : σ.shared.jobQueue = none
    · rw [if_pos he]
      exact .update hn (hl.linkedEmpty ht he) (by simp [ht, stage])
    · rw [if_neg he]
      exact hi.stay ht
  case eLink =>
    obtain ⟨s₁, hs, h₁, hcount⟩ := hl.linkJob ht
    cases attempt_ok hs out
    exact .update hn h₁ (by simp [ht, stage, hcount])
  case eSetHead =>
    cases List.mem_singleton.mp out
    obtain ⟨a, -, h₁⟩ := hl.setHead ht (alone (by simp [stage, Stage.Critical]))
    exact .update hn h₁ (by simp [ht, stage, setHead]; omega)
  case eCount =>
    cases List.mem_singleton.mp out
    exact .update hn (hl.relabel rfl rfl rfl rfl (by rw [ht]; decide) (.inl (by rw [ht]; decide))
      hp) (by simp [ht, stage])
  case ePrint =>
    rcases attempt_map out with ⟨job, -, ho⟩ | ⟨e, -, ho⟩
    all_goals
      cases ho
      exact hi.stay ht
  case dTest =>
    cases List.mem_singleton.mp out
    exact hi.stay (by rw [ht]; split_ifs <;> rfl)
  case dIf =>
    cases List.mem_singleton.mp out
    by_cases hj : σ.shared.jobQueueCount > 0
    · rw [if_pos hj]
      exact hi.stay ht
    · rw [if_neg hj]
      exact .update hn (hl.relabel rfl rfl rfl rfl (by rw [ht]; decide) (.inr hp) trivial)
        (by simp [ht, stage])
  case dTake =>
    cases List.mem_singleton.mp out
    exact .update hn (hl.takeHead (.inl ht)) (by simp [ht, stage, takeHead])
  case dAdvance =>
    have others := alone (by simp [stage, Stage.Critical])
    obtain ⟨a, l', s₁, rfl, -, hs, h₁, hcount, -⟩ :=
      hl.advanceHead ht (advance_nonempty hn ht others hk) others
    cases attempt_ok hs out
    exact .update hn (h₁ _ (by decide)) (by simp [ht, stage, hcount]; omega)
  case dDecrement =>
    cases List.mem_singleton.mp out
    simp only [known] at hk
    exact .update hn (hl.relabel rfl rfl rfl rfl (by rw [ht]; decide) (.inl (by rw [ht]; decide))
      trivial) (by simp [ht, stage]; omega)
  case dPrint =>
    rcases attempt_map out with ⟨job, -, ho⟩ | ⟨e, -, ho⟩
    all_goals
      cases ho
      exact hi.stay ht
  case dFree =>
    rcases attempt_map out with ⟨jobs, hf, ho⟩ | ⟨e, -, ho⟩
    · cases ho
      have hfree : freeNextJob t σ.shared = .ok { σ.shared with jobs } := by
        rw [freeNextJob, hf]
        rfl
      obtain ⟨h₁, hcount, -⟩ := hl.freeNextJob (by rw [ht]; decide) hfree
      have h₂ : Accounted { σ.shared with jobs } (σ.phases stage) := ⟨l, h₁, hn⟩
      exact h₂.stay ht
    · cases ho
      exact hi.stay ht

/-- In every run in which each enqueue thread gets its memory the account holds. -/
theorem reachable_accounted {threads : ThreadList T}
    (memory : ∀ t, threads.enqueues t = true → threads.callocOk t = true)
    {σ : Config T (State T) Point Mutex Gate} (h : (condV threads).Reachable σ) :
    Accounted σ.shared (σ.phases stage) := by
  refine h.phase_invariant (I := Accounted) (fun _ hr => And.intro (reachable_knows hr)
    (reachable_enqueues hr)) (stage_kept threads) (accounted_initial threads) ?_
  rintro σ t p f s' p' ⟨k, kind⟩ hi here hc out
  refine hi.exec k here hc out ?_
  rintro rfl
  have enqueues := kind t
  rw [here] at enqueues
  exact memory t enqueues.symm

/-- While a mutex is free no thread is in the middle of a change. -/
theorem tally_critical {threads : ThreadList T} {σ : Config T (State T) Point Mutex Gate}
    (h : (condV threads).Reachable σ) {m : Mutex} (free : σ.owner m = none) {q : Stage}
    (hq : q.Critical) : tally q (σ.phases stage) = 0 := by
  refine (tally_eq_zero_iff _ _).mpr fun t ht => ?_
  rw [← ht] at hq
  exact ((disciplined threads).owned h).not_holds free (critical_holds h hq m)

/-- While a thread holds a mutex outside a change, no other thread is in the middle of one. -/
theorem tally_critical_of_holds {threads : ThreadList T}
    {σ : Config T (State T) Point Mutex Gate} (h : (condV threads).Reachable σ) {t : T} {p : Point}
    (here : σ.status t = .running p) {m : Mutex} (held : holds p m)
    (outside : ¬ (stage p).Critical) {q : Stage} (hq : q.Critical) :
    tally q (σ.phases stage) = 0 := by
  refine (tally_eq_zero_iff _ _).mpr fun u hu => ?_
  rw [← hu] at hq
  have holds_t : (σ.status t).Holds holds m := by
    rw [here]
    exact held
  obtain rfl := ((disciplined threads).owned h).unique holds_t (critical_holds h hq m)
  rw [Config.phases_apply, here] at hq
  exact outside hq

/-- In every run without allocation failures `job_queue` is a linked list of jobs
put in by enqueue threads, and its length is `job_queue_count` while no mutex is
held. Every job that was put in is in the list once or with exactly one
dequeue thread, and never both. -/
theorem jobs_accounted (threads : ThreadList T) (memory : ∀ t, threads.callocOk t = true)
    {σ : Config T (State T) Point Mutex Gate} (h : (condV threads).Reachable σ) :
    ∃ l, Segment σ.shared.jobs.cell Job.next σ.shared.jobQueue l none ∧
      (σ.owner .jobQueueMutex = none → σ.owner .jobQueueCountMutex = none →
        σ.shared.jobQueueCount = l.length) ∧
      (∀ a ∈ l, ∃ t, queuedJob σ.shared (σ.phases stage) t = some a) ∧
      ∀ t, (σ.phases stage t).HasQueued → ∃ a, σ.shared.newJob t = some a ∧
        (∀ u, σ.shared.newJob u = some a → u = t) ∧
        ((l.count a = 1 ∧ ∀ d, obtainedJob σ.shared (σ.phases stage) d ≠ some a) ∨
          (a ∉ l ∧ ∃! d, obtainedJob σ.shared (σ.phases stage) d = some a)) := by
  obtain ⟨l, hl, hn⟩ := reachable_accounted (fun t _ => memory t) h
  refine ⟨l, hl.segment, fun free _ => ?_, hl.ledger.listed, fun t ht => hl.location ht⟩
  have hp := tally_critical h free (q := .pushed) (by simp [Stage.Critical])
  have hr := tally_critical h free (q := .removed) (by simp [Stage.Critical])
  omega

/-- One enqueue thread and two dequeue threads. -/
def twoDequeue : ThreadList (Fin 3) where
  enqueues t := t = 0
  threadId t := t
  callocOk _ := true

/-- The enqueue thread puts its job in, and a dequeue thread takes it out. -/
def handOver : List (Fin 3 × Nat) :=
  List.replicate 10 (0, 0) ++ List.replicate 11 (1, 0)

theorem jobs_accounted_handOver : ∃ σ,
    (condV twoDequeue).runSchedule (condV twoDequeue).initial handOver = some σ ∧
      ∃ l, Segment σ.shared.jobs.cell Job.next σ.shared.jobQueue l none ∧ l.length = 0 ∧
        ∃ a, σ.shared.newJob 0 = some a ∧
          ((l.count a = 1 ∧ ∀ d, obtainedJob σ.shared (σ.phases stage) d ≠ some a) ∨
            (a ∉ l ∧ ∃! d, obtainedJob σ.shared (σ.phases stage) d = some a)) := by
  obtain ⟨l, hs, hc, -, hj⟩ := jobs_accounted twoDequeue (fun _ => rfl)
    (Program.runSchedule_reachable (condV twoDequeue) handOver rfl)
  obtain ⟨a, ha, -, hloc⟩ := hj 0 (by decide)
  exact ⟨_, rfl, l, hs, (hc rfl rfl).symm, a, ha, hloc⟩

end SamplePrograms.JobQueue.CondV
