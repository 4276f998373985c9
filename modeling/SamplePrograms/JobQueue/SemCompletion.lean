import SamplePrograms.JobQueue.SemAccounting
import SamplePrograms.Library.HeapFrame
import SamplePrograms.Library.ThreadTermination

/-!
# How the threads of `prog_sem.c` end

A dequeue thread frees the job that it has obtained, while the enqueue thread of the job may
still have to print it. So the memory of a job is gone exactly when its dequeue thread has
returned, and the last `printf` of an enqueue thread can read freed memory. No other access can
fail. Every thread runs at most once through its function, so that every run ends.
-/

namespace SamplePrograms.JobQueue.Sem
open Memory Threads

/-- The stage of a thread, and whether it has freed its job. -/
def phase (p : Point) : Stage × Bool := (stage p, p = .dDone)

theorem phase_kept {T : Type*} [DecidableEq T] (threads : ThreadList T) (t : T) (p : Point) :
    ((sem threads).code t p).Keeps phase p := by
  cases p <;> trivial

/-- The freed jobs are those of the dequeue threads that have returned. -/
structure Returned {T : Type*} (s : State T) (st : T → Stage × Bool) : Prop where
  obtained : ∀ d, (st d).1.HasObtained → s.nextJob d ≠ none
  freed : s.jobs.Freed = {a | ∃ d, (st d).2 = true ∧ s.nextJob d = some a}

variable {T : Type*} [Fintype T] [DecidableEq T]

omit [Fintype T] in
theorem returned_initial (threads : ThreadList T) :
    Returned (sem threads).init fun t => phase ((sem threads).start t) where
  obtained d := by
    cases h : threads.enqueues d <;> simp [sem, h, phase, stage, Stage.HasObtained]
  freed := by
    ext a
    simp [sem, initializeVars, Heap.freed_empty]

namespace Returned
variable {s s' : State T} {st : T → Stage × Bool} {t : T} {q : Stage × Bool}

omit [Fintype T] in
/-- A statement that frees nothing and leaves `next_job` alone. -/
theorem frame (h : Returned s st) (freed : s'.jobs.Freed = s.jobs.Freed)
    (next : s'.nextJob = s.nextJob) (flag : q.2 = (st t).2)
    (took : q.1.HasObtained → s.nextJob t ≠ none) : Returned s' (Function.update st t q) where
  obtained d hd := by
    rw [next]
    by_cases hdt : d = t
    · subst hdt
      rw [Function.update_self] at hd
      exact took hd
    · rw [Function.update_of_ne hdt] at hd
      exact h.obtained d hd
  freed := by
    have flags : ∀ d, (Function.update st t q d).2 = (st d).2 := by
      intro d
      by_cases hdt : d = t
      · subst hdt
        rw [Function.update_self, flag]
      · rw [Function.update_of_ne hdt]
    rw [freed, h.freed]
    simp only [flags, next]

omit [Fintype T] in
/-- A thread without a job frees nothing and leaves `next_job` alone. -/
theorem without (h : Returned s st) (freed : s'.jobs.Freed = s.jobs.Freed)
    (next : s'.nextJob = s.nextJob) (flag : q.2 = (st t).2) (early : ¬ q.1.HasObtained) :
    Returned s' (Function.update st t q) :=
  h.frame freed next flag fun took => absurd took early

omit [Fintype T] in
/-- A thread that has not returned sets its `next_job`. -/
theorem takeHead (h : Returned s st) (here : (st t).2 = false) :
    Returned (JobQueue.takeHead t s) (Function.update st t (.taken, false)) where
  obtained d hd := by
    by_cases hdt : d = t
    · subst hdt
      rw [Function.update_self] at hd
      exact absurd hd (by decide)
    · rw [Function.update_of_ne hdt] at hd
      have same : (JobQueue.takeHead t s).nextJob d = s.nextJob d := Function.update_of_ne hdt _ _
      rw [same]
      exact h.obtained d hd
  freed := by
    have freed : (JobQueue.takeHead t s).jobs.Freed = s.jobs.Freed := rfl
    rw [freed, h.freed]
    ext a
    apply exists_congr
    intro d
    by_cases hdt : d = t
    · subst hdt
      simp [here]
    · simp [hdt, JobQueue.takeHead]

omit [Fintype T] in
/-- A thread frees its job and returns. -/
theorem freeNextJob (h : Returned s st) (took : (st t).1.HasObtained)
    {jobs : Heap Job} (given : s.jobs.free (s.nextJob t) = .ok jobs) :
    Returned { s with jobs } (Function.update st t (.obtained, true)) where
  obtained d hd := by
    by_cases hdt : d = t
    · subst hdt
      exact h.obtained d took
    · rw [Function.update_of_ne hdt] at hd
      exact h.obtained d hd
  freed := by
    obtain ⟨none, -⟩ | ⟨a, v, own, -, freed⟩ := Heap.free_cases given
    · exact absurd none (h.obtained t took)
    · have jobs_freed : ({ s with jobs } : State T).jobs.Freed = insert a s.jobs.Freed := freed
      rw [jobs_freed, h.freed]
      ext b
      constructor
      · rintro (rfl | ⟨d, done, hd⟩)
        · exact ⟨t, by rw [Function.update_self], own⟩
        · refine ⟨d, ?_, hd⟩
          by_cases hdt : d = t
          · subst hdt
            rw [Function.update_self]
          · rwa [Function.update_of_ne hdt]
      · rintro ⟨d, done, hd⟩
        by_cases hdt : d = t
        · subst hdt
          exact Or.inl (Option.some.inj (hd.symm.trans own))
        · rw [Function.update_of_ne hdt] at done
          exact Or.inr ⟨d, done, hd⟩

end Returned

section Runs
variable {threads : ThreadList T} {σ : Config T (State T) Point Mutex Empty}

/-- One statement keeps the freed jobs. -/
theorem Returned.exec (memory : ∀ t, threads.callocOk t = true) (hr : (sem threads).Reachable σ)
    (h : Returned σ.shared (σ.phases phase)) {t : T} {p p' : Point}
    {f : State T → List (State T × Point)} {s' : State T} (here : σ.status t = .running p)
    (hc : (sem threads).code t p = .exec f) (out : (s', p') ∈ f σ.shared) :
    Returned s' (Function.update (σ.phases phase) t (phase p')) := by
  have ht : σ.phases phase t = phase p := by rw [Config.phases_apply, here, Status.point_running]
  cases p <;> cases hc
  case eCalloc =>
    simp only [memory] at out
    cases List.mem_singleton.mp out
    exact h.without (Heap.freed_alloc _ _) rfl (by rw [ht]; rfl) (by decide)
  case eData | eLink =>
    rcases attempt_map out with ⟨jobs, written, ho⟩ | ⟨e, -, ho⟩
    · cases ho
      exact h.without (Heap.freed_modify written) rfl (by rw [ht]; rfl) (by decide)
    · cases ho
      exact h.without rfl rfl (by rw [ht]; rfl) (by decide)
  case eTest =>
    cases List.mem_singleton.mp out
    split_ifs
    · exact h.without rfl rfl (by rw [ht]; rfl) (by decide)
    · exact h.without rfl rfl (by rw [ht]; rfl) (by decide)
  case eSetHead | ePost =>
    cases List.mem_singleton.mp out
    exact h.without rfl rfl (by rw [ht]; rfl) (by decide)
  case ePrint =>
    rcases attempt_map out with ⟨job, -, ho⟩ | ⟨e, -, ho⟩
    all_goals
      cases ho
      exact h.without rfl rfl (by rw [ht]; rfl) (by decide)
  case dSemWait =>
    rw [mem_semWait] at out
    cases out.2
    exact h.without rfl rfl (by rw [ht]; rfl) (by decide)
  case dTake =>
    cases List.mem_singleton.mp out
    exact h.takeHead (by rw [ht]; rfl)
  case dAdvance =>
    obtain ⟨l, hl, hn, -⟩ := reachable_accounted memory hr
    have hs : σ.phases stage t = .taken := by rw [Config.phases_apply, here]; rfl
    obtain ⟨a, l', s₁, rfl, own, hok, -, -, same⟩ :=
      hl.advanceHead hs (admitted_nonempty hn (.inr hs)) (alone hr t (by simp [hs, Stage.Critical]))
    have jobs : s₁.jobs = σ.shared.jobs := by
      rw [advanceHead] at hok
      cases hload : load σ.shared.jobs.cell σ.shared.jobQueue with
      | error e =>
          rw [hload] at hok
          cases hok
      | ok job =>
          rw [hload] at hok
          cases hok
          rfl
    cases attempt_ok hok out
    exact h.frame (by rw [jobs]) same (by rw [ht]; rfl) fun _ => by simp [own]
  case dPrint =>
    have took : (σ.phases phase t).1.HasObtained := by rw [ht]; decide
    rcases attempt_map out with ⟨job, -, ho⟩ | ⟨e, -, ho⟩
    all_goals
      cases ho
      exact h.frame rfl rfl (by rw [ht]; rfl) fun _ => h.obtained t took
  case dFree =>
    have took : (σ.phases phase t).1.HasObtained := by rw [ht]; decide
    rcases attempt_map out with ⟨jobs, given, ho⟩ | ⟨e, -, ho⟩
    · cases ho
      exact h.freeNextJob took given
    · cases ho
      exact h.frame rfl rfl (by rw [ht]; rfl) fun _ => h.obtained t took

theorem reachable_returned (memory : ∀ t, threads.callocOk t = true)
    (h : (sem threads).Reachable σ) : Returned σ.shared (σ.phases phase) :=
  h.phase_invariant (I := Returned) (K := (sem threads).Reachable) (fun _ hr => hr)
    (phase_kept threads) (returned_initial threads) fun _ _ _ _ _ _ hr hi here hc out =>
      hi.exec memory hr here hc out

/-! ## Faults -/

omit [Fintype T] [DecidableEq T] in
theorem point_eq_dDone {t : T} (h : (σ.phases phase t).2 = true) :
    (σ.status t).point = .dDone := by
  rw [Config.phases_apply] at h
  exact of_decide_eq_true h

/-- The job of a dequeue thread that has not returned is live. -/
theorem obtained_live (memory : ∀ t, threads.callocOk t = true) (h : (sem threads).Reachable σ)
    {t : T} (took : (σ.phases stage t).HasObtained) (here : (σ.status t).point ≠ .dDone) :
    ∃ a job, σ.shared.nextJob t = some a ∧ σ.shared.jobs.cell a = some job := by
  obtain ⟨l, hl, -, -⟩ := reachable_accounted memory h
  have returned := reachable_returned memory h
  obtain ⟨a, ha⟩ := Option.ne_none_iff_exists'.mp (returned.obtained t took)
  obtain ⟨u, -, hu⟩ := hl.obtained_queued took ha
  have live : a ∉ σ.shared.jobs.Freed := by
    rw [returned.freed]
    rintro ⟨d, done, hd⟩
    have point := point_eq_dDone done
    have hs : (σ.phases stage d).HasObtained := by
      rw [Config.phases_apply, point]
      decide
    have same : d = t := hl.ledger.once d t a (by rw [obtainedJob, if_pos hs, hd])
      (by rw [obtainedJob, if_pos took, ha])
    exact here (same ▸ point)
  obtain ⟨job, hj⟩ := Heap.not_mem_freed (hl.allocated u a hu) live
  exact ⟨a, job, ha, hj⟩

/-- The accesses other than the last `printf` of an enqueue thread. -/
def broken : Point → Bool
  | .eDataFault | .eLinkFault | .dAdvanceFault | .dFault => true
  | _ => false

/-- These accesses do not fail. -/
theorem not_broken (memory : ∀ t, threads.callocOk t = true) (h : (sem threads).Reachable σ)
    (t : T) : broken (σ.status t).point = false := by
  have all : ∀ t, σ.phases broken t = false := by
    refine h.phase_invariant (I := fun _ st => ∀ t, st t = false)
      (K := (sem threads).Reachable) (fun _ hr => hr) ?_ ?_ ?_
    · intro t p
      cases p <;> trivial
    · intro t
      cases ht : threads.enqueues t <;> simp [sem, ht, broken]
    · intro σ t p f s' p' hr hi here hc out u
      obtain ⟨l, hl, hn, -⟩ := reachable_accounted memory hr
      have ht : σ.phases stage t = stage p := by
        rw [Config.phases_apply, here, Status.point_running]
      have next : broken p' = false := by
        cases p <;> cases hc
        case eData =>
          obtain ⟨s₁, hok, -⟩ := hl.setData ht (threads.threadId t)
          cases attempt_ok hok out
          rfl
        case eLink =>
          obtain ⟨s₁, hok, -⟩ := hl.linkJob ht
          cases attempt_ok hok out
          rfl
        case dAdvance =>
          obtain ⟨a, l', s₁, -, -, hok, -⟩ :=
            hl.advanceHead ht (admitted_nonempty hn (.inr ht))
              (alone hr t (by simp [ht, stage, Stage.Critical]))
          cases attempt_ok hok out
          rfl
        case dPrint =>
          obtain ⟨a, job, ha, hj⟩ := obtained_live memory hr (by rw [ht]; decide)
            (by rw [here]; decide)
          have hok : printNextJob t σ.shared = .ok σ.shared := by
            rw [printNextJob, ha, load_live hj]
            rfl
          cases attempt_ok hok out
          rfl
        case dFree =>
          obtain ⟨a, job, ha, hj⟩ := obtained_live memory hr (by rw [ht]; decide)
            (by rw [here]; decide)
          have hok : freeNextJob t σ.shared =
              .ok { σ.shared with jobs := σ.shared.jobs.put a none } := by
            rw [freeNextJob, ha, Heap.free_live hj]
            rfl
          cases attempt_ok hok out
          rfl
        case ePrint =>
          rcases attempt_map out with ⟨job, -, ho⟩ | ⟨e, -, ho⟩ <;> cases ho <;> rfl
        case dSemWait =>
          rw [mem_semWait] at out
          cases out.2
          rfl
        all_goals
          cases List.mem_singleton.mp out
          try split_ifs
          all_goals rfl
      by_cases hu : u = t
      · subst u
        rw [Function.update_self]
        exact next
      · rw [Function.update_of_ne hu]
        exact hi u
  exact all t

/-- No thread ever sleeps. -/
theorem running (h : (sem threads).Reachable σ) (t : T) :
    σ.status t = .running (σ.status t).point := by
  have waits := h.waits t
  cases hs : σ.status t with
  | running p => rfl
  | blocked c m n => exact c.elim
  | woken m n =>
      rw [hs] at waits
      obtain ⟨p, c, -⟩ := waits
      exact c.elim

/-- In every run without allocation failures the only access that can fail is the last `printf` of
an enqueue thread, and it fails exactly when a dequeue thread with the same job has returned. -/
theorem printf_faults_iff (memory : ∀ t, threads.callocOk t = true)
    (h : (sem threads).Reachable σ) :
    (∀ t, broken (σ.status t).point = false) ∧
    ∀ t, σ.status t = .running .ePrint →
      ((∃ e, printNewJob t σ.shared = .error e) ↔
        ∃ d, σ.status d = .running .dDone ∧ σ.shared.nextJob d = σ.shared.newJob t) := by
  refine ⟨not_broken memory h, fun t ht => ?_⟩
  obtain ⟨l, hl, -, -⟩ := reachable_accounted memory h
  have returned := reachable_returned memory h
  have queued : (σ.phases stage t).HasQueued := by
    rw [Config.phases_apply, ht]
    decide
  obtain ⟨a, ha, -⟩ := hl.location queued
  rw [printNewJob, ha]
  have gone : (∃ e, (load σ.shared.jobs.cell (some a)).map (fun _ => σ.shared) = .error e) ↔
      a ∈ σ.shared.jobs.Freed := by
    cases hj : σ.shared.jobs.cell a with
    | none => simp [load, hj, Heap.Freed, hl.allocated t a ha, Except.map]
    | some job => simp [load, hj, Heap.Freed, Except.map]
  rw [gone, returned.freed]
  apply exists_congr
  intro d
  apply and_congr_left
  intro _
  constructor
  · intro done
    rw [running h d, point_eq_dDone done]
  · intro hd
    rw [Config.phases_apply, hd]
    rfl

end Runs

/-- The dequeue thread frees the job before the enqueue thread prints it. -/
def freedEarly (e d : T) : List (T × Nat) := List.replicate 7 (e, 0) ++ List.replicate 7 (d, 0)

theorem printf_faults_iff_freedEarly : ∃ σ,
    (sem oneEach).runSchedule (sem oneEach).initial (freedEarly 0 1) = some σ ∧
      ∃ e, printNewJob 0 σ.shared = .error e := by
  have h := printf_faults_iff (fun _ => rfl)
    (Program.runSchedule_reachable (sem oneEach) (freedEarly 0 1) rfl)
  exact ⟨_, rfl, (h.2 0 rfl).mpr ⟨1, rfl, rfl⟩⟩

/-! ## The end of a run -/

/-- The number of statements that a thread still has before it. -/
def weight : Point → ℕ
  | .eLock => 9
  | .eCalloc => 8
  | .eData => 7
  | .eTest => 6
  | .eLink => 5
  | .eSetHead => 4
  | .ePost => 3
  | .eUnlock => 2
  | .ePrint => 1
  | .dSemWait => 7
  | .dLock => 6
  | .dTake => 5
  | .dAdvance => 4
  | .dUnlock => 3
  | .dPrint => 2
  | .dFree => 1
  | _ => 0

omit [Fintype T] in
theorem lowers (threads : ThreadList T) (pay : ℕ) (t : T) (p : Point) :
    ((sem threads).code t p).Lowers weight pay p := by
  cases p <;> simp only [sem, code, Action.Lowers, List.mem_cons, List.not_mem_nil, or_false,
    forall_eq]
  case eData | eLink | ePrint | dAdvance | dPrint | dFree =>
    intro s o ho
    rcases attempt_map ho with ⟨a, -, rfl⟩ | ⟨e, -, rfl⟩ <;> simp [weight]
  case dSemWait =>
    intro s o ho
    rw [mem_semWait] at ho
    simp [ho.2, weight]
  all_goals
    intros
    try split_ifs
    all_goals simp [weight]

section Ends
variable {threads : ThreadList T} {σ τ : Config T (State T) Point Mutex Empty}

/-- Where no thread can go on, the mutex is free. -/
theorem stuck_free (memory : ∀ t, threads.callocOk t = true) (h : (sem threads).Reachable σ)
    (stuck : (sem threads).Stuck σ) : σ.owner .jobQueueMutex = none := by
  have own := (disciplined threads).owned h
  apply Option.eq_none_iff_forall_ne_some.mpr
  intro t owner
  have inside := (own.1 t .jobQueueMutex).mp owner
  have sound := not_broken memory h t
  have here := running h t
  rw [here] at inside
  have waits := stuck.running (disciplined threads) own here
  revert inside sound waits
  cases (σ.status t).point <;> intro inside sound waits
  case eData | eLink | ePrint | dAdvance | dPrint | dFree => exact attempt_ne_nil waits
  case eDataFault | eLinkFault | dAdvanceFault => cases sound
  all_goals first
    | simp [sem, code, Action.Waits] at waits; done
    | exact absurd inside (by simp [Status.Holds, holds])

/-- Where no thread can go on, a thread has returned or waits at a semaphore of value zero. -/
theorem stuck_cases (memory : ∀ t, threads.callocOk t = true) (h : (sem threads).Reachable σ)
    (stuck : (sem threads).Stuck σ) (t : T) :
    (σ.status t = .running .eDone ∨ σ.status t = .running .eFault) ∨
      σ.status t = .running .dDone ∨
        σ.status t = .running .dSemWait ∧ σ.shared.jobQueueCount = 0 := by
  have free := stuck_free memory h stuck
  have sound := not_broken memory h t
  have here := running h t
  have waits := stuck.running (disciplined threads) ((disciplined threads).owned h) here
  revert here sound waits
  cases (σ.status t).point <;> intro sound here waits
  case eDone | eFault => simp [here]
  case dDone => simp [here]
  case dSemWait =>
    refine Or.inr (Or.inr ⟨here, ?_⟩)
    by_contra positive
    simp [sem, code, Action.Waits, positive] at waits
  case eLock | dLock => exact absurd free waits
  case eData | eLink | ePrint | dAdvance | dPrint | dFree => exact absurd waits attempt_ne_nil
  case eDataFault | eLinkFault | dAdvanceFault | dFault => cases sound
  all_goals simp [sem, code, Action.Waits] at waits

/-- Where no thread can go on, as many dequeue threads have returned as there are enqueue threads
to serve them, if there are enough. -/
theorem stuck_count (memory : ∀ t, threads.callocOk t = true) (h : (sem threads).Reachable σ)
    (stuck : (sem threads).Stuck σ) :
    (Finset.univ.filter fun t => σ.status t = .running .dDone).card =
      min (Finset.univ.filter fun t => threads.enqueues t = true).card
        (Finset.univ.filter fun t => threads.enqueues t = false).card := by
  obtain ⟨l, -, hn, hm⟩ := reachable_accounted memory h
  have cases := stuck_cases memory h stuck
  have kind : ∀ t, enqueuePoint (σ.status t).point = threads.enqueues t := reachable_enqueues h
  have quiet : ∀ q ∈ [Stage.pushed, .admitted, .taken], tally q (σ.phases stage) = 0 := by
    intro q hq
    apply (tally_eq_zero_iff _ _).mpr
    intro t
    rw [Config.phases_apply]
    rcases cases t with (ht | ht) | ht | ⟨ht, -⟩
    all_goals
      rw [ht]
      revert q
      decide
  have pushed := quiet .pushed (by decide)
  have admitted := quiet .admitted (by decide)
  have taken := quiet .taken (by decide)
  have obtained : tally .obtained (σ.phases stage) =
      (Finset.univ.filter fun t => σ.status t = .running .dDone).card := by
    refine congrArg Finset.card (Finset.filter_congr fun t _ => ?_)
    rw [Config.phases_apply]
    rcases cases t with (ht | ht) | ht | ⟨ht, -⟩ <;> simp [ht, stage]
  have queued : tally .queued (σ.phases stage) =
      (Finset.univ.filter fun t => threads.enqueues t = true).card := by
    refine congrArg Finset.card (Finset.filter_congr fun t _ => ?_)
    rw [Config.phases_apply, ← kind t]
    rcases cases t with (ht | ht) | ht | ⟨ht, -⟩ <;> simp [ht, stage, enqueuePoint]
  have some_of : (Finset.univ.filter fun t => σ.status t = .running .dDone) ⊆
      Finset.univ.filter fun t => threads.enqueues t = false := by
    intro t ht
    have hd : σ.status t = .running .dDone := by simpa using ht
    have hk := kind t
    rw [hd] at hk
    simp [← hk, enqueuePoint]
  have at_most := Finset.card_le_card some_of
  by_cases waiting : ∃ t, σ.status t = .running .dSemWait
  · obtain ⟨t, ht⟩ := waiting
    have zero : σ.shared.jobQueueCount = 0 := by
      rcases cases t with (hs | hs) | hs | ⟨-, zero⟩
      · cases ht.symm.trans hs
      · cases ht.symm.trans hs
      · cases ht.symm.trans hs
      · exact zero
    omega
  · have all_of : (Finset.univ.filter fun t => threads.enqueues t = false) ⊆
        Finset.univ.filter fun t => σ.status t = .running .dDone := by
      intro t ht
      have hd : threads.enqueues t = false := by simpa using ht
      have hk := kind t
      rcases cases t with (hs | hs) | hs | ⟨hs, -⟩
      · rw [hs, hd] at hk
        cases hk
      · rw [hs, hd] at hk
        cases hk
      · simpa using hs
      · exact absurd ⟨t, hs⟩ waiting
    have at_least := Finset.card_le_card all_of
    omega

/-- Nobody sleeps, so that every move is a step. -/
theorem move_step (m : (sem threads).Move σ τ) : (sem threads).Step σ τ := by
  rcases m with step | spurious
  · exact step
  · cases spurious with
    | @wake t c m n here => exact c.elim

/-- In every run without allocation failures each thread takes nine steps at most. Where no thread
can go on, all enqueue threads have come to their end, and of the dequeue threads as many have
returned with a job as there are jobs for them. The others wait for the semaphore. -/
theorem run_ends (memory : ∀ t, threads.callocOk t = true) :
    (∀ (run : ℕ → Config T (State T) Point Mutex Empty) (n : ℕ), run 0 = (sem threads).initial →
      (∀ i < n, (sem threads).Move (run i) (run (i + 1))) → n ≤ 9 * Fintype.card T) ∧
    ∀ σ, (sem threads).Reachable σ → (sem threads).Stuck σ →
      (∀ t, threads.enqueues t = true →
        σ.status t = .running .eDone ∨ σ.status t = .running .eFault) ∧
      (∀ t, threads.enqueues t = false →
        σ.status t = .running .dDone ∨ σ.status t = .running .dSemWait) ∧
      (Finset.univ.filter fun t => σ.status t = .running .dDone).card =
        min (Finset.univ.filter fun t => threads.enqueues t = true).card
          (Finset.univ.filter fun t => threads.enqueues t = false).card := by
  constructor
  · intro run n start moves
    have bound := Program.steps_le_weight (w := weight) (lowers threads _) run n fun i hi =>
      move_step (moves i hi)
    have total : (sem threads).initial.weight weight ≤ ∑ _t : T, 9 := by
      apply Finset.sum_le_sum
      intro t _
      cases ht : threads.enqueues t <;> simp [Program.initial, sem, ht, weight]
    rw [start] at bound
    rw [Finset.sum_const_nat fun _ _ => rfl, Finset.card_univ] at total
    omega
  · intro σ h stuck
    refine ⟨fun t ht => ?_, fun t ht => ?_, stuck_count memory h stuck⟩
    · have kind := reachable_enqueues h t
      rcases stuck_cases memory h stuck t with hs | hs | ⟨hs, -⟩
      · exact hs
      · rw [hs, ht] at kind
        cases kind
      · rw [hs, ht] at kind
        cases kind
    · have kind := reachable_enqueues h t
      rcases stuck_cases memory h stuck t with (hs | hs) | hs | ⟨hs, -⟩
      · rw [hs, ht] at kind
        cases kind
      · rw [hs, ht] at kind
        cases kind
      · exact Or.inl hs
      · exact Or.inr hs

end Ends

/-- The threads of `main`: the first third of 40 dequeues. -/
def mainThreads : ThreadList (Fin 40) where
  enqueues t := decide (13 ≤ t.val)
  threadId t := t
  callocOk _ := true

/-- In `main` every dequeue thread gets a job. -/
theorem run_ends_main : (27, 13) = ((Finset.univ.filter fun t =>
      mainThreads.enqueues t = true).card,
        (Finset.univ.filter fun t => mainThreads.enqueues t = false).card) ∧
    ∀ σ, (sem mainThreads).Reachable σ → (sem mainThreads).Stuck σ →
      (Finset.univ.filter fun t => σ.status t = .running .dDone).card = min 27 13 := by
  have counts : (27, 13) = ((Finset.univ.filter fun t => mainThreads.enqueues t = true).card,
      (Finset.univ.filter fun t => mainThreads.enqueues t = false).card) := by decide
  have memory : ∀ t, mainThreads.callocOk t = true := fun _ => rfl
  refine ⟨counts, fun σ h stuck => ?_⟩
  rw [Prod.mk.injEq] at counts
  rw [counts.1, counts.2]
  exact ((run_ends memory).2 σ h stuck).2.2

end SamplePrograms.JobQueue.Sem
