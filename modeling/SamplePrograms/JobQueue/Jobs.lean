import SamplePrograms.Library.Ledger
import SamplePrograms.Library.Memory

/-!
# Jobs, the job queue and its threads

`prog_condV.c` and `prog_sem.c` keep their jobs in the same linked stack
`job_queue`. Enqueue threads push the job they allocate and dequeue threads pop
one. This module has the statements on jobs that the two programs share, and
what each statement does to the place of every job.

## Implementation notes

The `double` of a job is `100.0 + thread_id`. It is exact for every thread id,
so the model keeps the number. The local variables `new_job` and `next_job` of
all threads are part of the state. The count is a natural number, which agrees
with the `unsigned int` below `2 ^ 32` jobs.
-/

namespace SamplePrograms.JobQueue
open Memory

/-- A `struct job`. -/
structure Job where
  data : Nat
  next : Ptr
  deriving DecidableEq

/-- The global variables of the program, and `new_job` and `next_job` of each thread. -/
structure State (T : Type*) where
  jobs : Heap Job
  jobQueue : Ptr
  jobQueueCount : Nat
  newJob : T → Ptr
  nextJob : T → Ptr

/-- The threads of a run: which of them enqueue, their ids, and whether their
`calloc` finds memory. -/
structure ThreadList (T : Type*) where
  enqueues : T → Bool
  threadId : T → Nat
  callocOk : T → Bool

/-- An empty queue before any thread has run. -/
def initializeVars (T : Type*) : State T where
  jobs := Heap.empty
  jobQueue := none
  jobQueueCount := 0
  newJob := fun _ => none
  nextJob := fun _ => none

variable {T : Type*}

section Statements
variable [DecidableEq T] (t : T) (s : State T)

/-- `new_job = calloc(1, sizeof(struct job))`. -/
def callocJob (ok : Bool) : State T :=
  if ok then
    { s with
      jobs := (s.jobs.alloc ⟨0, none⟩).2
      newJob := Function.update s.newJob t (some (s.jobs.alloc ⟨0, none⟩).1) }
  else { s with newJob := Function.update s.newJob t none }

/-- `new_job->data = 100.0 + thread_id`. -/
def setData (threadId : Nat) : Except Fault (State T) :=
  (s.jobs.modify (s.newJob t) fun job => { job with data := 100 + threadId }).map
    fun jobs => { s with jobs }

/-- `new_job->next = job_queue`. -/
def linkJob : Except Fault (State T) :=
  (s.jobs.modify (s.newJob t) fun job => { job with next := s.jobQueue }).map
    fun jobs => { s with jobs }

/-- `job_queue = new_job`. -/
def setHead : State T := { s with jobQueue := s.newJob t }

/-- `next_job = job_queue`. -/
def takeHead : State T := { s with nextJob := Function.update s.nextJob t s.jobQueue }

/-- `job_queue = job_queue->next`. -/
def advanceHead : Except Fault (State T) :=
  (load s.jobs.cell s.jobQueue).map fun job => { s with jobQueue := job.next }

/-- The `new_job->data` in the last `printf` of an enqueue thread. -/
def printNewJob : Except Fault (State T) := (load s.jobs.cell (s.newJob t)).map fun _ => s

/-- The `next_job->data` in the last `printf` of a dequeue thread. -/
def printNextJob : Except Fault (State T) := (load s.jobs.cell (s.nextJob t)).map fun _ => s

/-- `free(next_job)`. -/
def freeNextJob : Except Fault (State T) :=
  (s.jobs.free (s.nextJob t)).map fun jobs => { s with jobs }

end Statements

/-- The outcome of a statement whose faults stop the thread at the point `fault`. -/
def attempt {P : Type*} (r : Except Fault (State T)) (next fault : P) (s : State T) :
    List (State T × P) :=
  match r with
  | .ok s' => [(s', next)]
  | .error _ => [(s, fault)]

/-- A statement that does not fault has one outcome. -/
theorem attempt_ok {P : Type*} {r : Except Fault (State T)} {s s' : State T} {next fault : P}
    {o : State T × P} (h : r = .ok s') (out : o ∈ attempt r next fault s) : o = (s', next) := by
  rw [h] at out
  exact List.mem_singleton.mp out

theorem attempt_ne_nil {P : Type*} {r : Except Fault (State T)} {next fault : P} {s : State T} :
    attempt r next fault s ≠ [] := by
  cases r <;> simp [attempt]

/-- The two outcomes of a statement that may fault. -/
theorem attempt_map {P α : Type*} {x : Except Fault α} {g : α → State T} {next fault : P}
    {s : State T} {o : State T × P} (h : o ∈ attempt (x.map g) next fault s) :
    (∃ a, x = .ok a ∧ o = (g a, next)) ∨ (∃ e, x = .error e ∧ o = (s, fault)) := by
  cases x with
  | ok a => exact .inl ⟨a, rfl, List.mem_singleton.mp h⟩
  | error e => exact .inr ⟨e, rfl, List.mem_singleton.mp h⟩

/-! ## Stages -/

/-- How far a thread has come with its job. A `pushed` or `queued` thread has put
its job into the queue, and it is `queued` when it has also announced the job.
A `removed` or `obtained` thread has left the queue with the job it took, if
any, and it is `obtained` when it has also counted the job down. An `admitted`
thread has been promised a job. -/
inductive Stage where
  | outside
  | fresh
  | linked
  | pushed
  | queued
  | admitted
  | taken
  | removed
  | obtained
  deriving DecidableEq

namespace Stage

/-- The thread has put its job into the queue. -/
def HasQueued (q : Stage) : Prop := q = pushed ∨ q = queued

/-- The thread has taken its job out of the queue. -/
def HasObtained (q : Stage) : Prop := q = removed ∨ q = obtained

/-- The thread is in the middle of a change of the queue or its count. -/
def Critical (q : Stage) : Prop := q = linked ∨ q = pushed ∨ q = taken ∨ q = removed

instance : DecidablePred HasQueued := fun _ => inferInstanceAs (Decidable (_ ∨ _))
instance : DecidablePred HasObtained := fun _ => inferInstanceAs (Decidable (_ ∨ _))

end Stage

section Jobs
variable (s : State T) (st : T → Stage)

/-- The job that a thread has put into the queue. -/
def queuedJob (t : T) : Ptr := if (st t).HasQueued then s.newJob t else none

/-- The job that a thread has taken out of the queue. -/
def obtainedJob (t : T) : Ptr := if (st t).HasObtained then s.nextJob t else none

/-- What the local variables of a thread hold at a stage. -/
def Local (t : T) : Stage → Prop
  | .outside => s.nextJob t = none
  | .fresh => ∃ a job, s.newJob t = some a ∧ s.jobs.cell a = some job ∧ job.next = none
  | .linked => ∃ a job, s.newJob t = some a ∧ s.jobs.cell a = some job ∧ job.next = s.jobQueue
  | .pushed | .queued => s.newJob t ≠ none
  | .taken => s.nextJob t = s.jobQueue
  | _ => True

/-- The queue is a linked list of the jobs that were put in and not taken out,
and every thread owns the job it has not put in yet. -/
structure Tracked (l : List Nat) : Prop where
  ledger : Ledger (queuedJob s st) (obtainedJob s st) l
  segment : Segment s.jobs.cell Job.next s.jobQueue l none
  locals : ∀ t, Local s t (st t)
  distinct : ∀ t u a, s.newJob t = some a → s.newJob u = some a → t = u
  allocated : ∀ t a, s.newJob t = some a → a < s.jobs.next

theorem Tracked.initial (start : Stage) (h : start = .outside) :
    Tracked (initializeVars T) (fun _ => start) [] where
  ledger := by
    subst h
    exact Ledger.empty
  segment := rfl
  locals := by
    subst h
    exact fun _ => rfl
  distinct := by simp [initializeVars]
  allocated := by simp [initializeVars]

end Jobs

/-! ## Frame facts -/

section Frame
variable [DecidableEq T] {s s' : State T} {st : T → Stage} {t : T} {q : Stage} {l : List Nat}

theorem queuedJob_update (s : State T) (st : T → Stage) (t : T) (q : Stage) :
    queuedJob s (Function.update st t q) =
      Function.update (queuedJob s st) t (if q.HasQueued then s.newJob t else none) := by
  funext u
  by_cases hu : u = t
  · subst u
    simp [queuedJob]
  · simp [queuedJob, hu]

theorem obtainedJob_update (s : State T) (st : T → Stage) (t : T) (q : Stage) :
    obtainedJob s (Function.update st t q) =
      Function.update (obtainedJob s st) t (if q.HasObtained then s.nextJob t else none) := by
  funext u
  by_cases hu : u = t
  · subst u
    simp [obtainedJob]
  · simp [obtainedJob, hu]

omit [DecidableEq T] in
/-- The job of a thread that has not been put in may change. -/
theorem queuedJob_congr (same : ∀ u, (st u).HasQueued → s'.newJob u = s.newJob u) :
    queuedJob s' st = queuedJob s st := by
  funext u
  by_cases hu : (st u).HasQueued
  · simp [queuedJob, hu, same u hu]
  · simp [queuedJob, hu]

omit [DecidableEq T] in
theorem obtainedJob_congr (same : ∀ u, (st u).HasObtained → s'.nextJob u = s.nextJob u) :
    obtainedJob s' st = obtainedJob s st := by
  funext u
  by_cases hu : (st u).HasObtained
  · simp [obtainedJob, hu, same u hu]
  · simp [obtainedJob, hu]

theorem queuedJob_keep (h : q.HasQueued ↔ (st t).HasQueued) :
    queuedJob s (Function.update st t q) = queuedJob s st := by
  rw [queuedJob_update]
  exact Function.update_eq_self_iff.mpr (by simp [queuedJob, h])

theorem obtainedJob_keep (h : q.HasObtained ↔ (st t).HasObtained) :
    obtainedJob s (Function.update st t q) = obtainedJob s st := by
  rw [obtainedJob_update]
  exact Function.update_eq_self_iff.mpr (by simp [obtainedJob, h])

omit [DecidableEq T] in
/-- A thread keeps its place when its variables, its unqueued job and, in the
middle of a change, the head of the queue are left alone. -/
theorem Local.frame {u : T} (h : Local s u q) (new : s'.newJob u = s.newJob u)
    (next : s'.nextJob u = s.nextJob u) (head : s'.jobQueue = s.jobQueue ∨ ¬ q.Critical)
    (cell : ∀ a, ¬ q.HasQueued → s.newJob u = some a → s'.jobs.cell a = s.jobs.cell a) :
    Local s' u q := by
  cases q with
  | outside => exact next.trans h
  | fresh =>
      obtain ⟨a, job, ha, hj, hn⟩ := h
      exact ⟨a, job, new.trans ha, (cell a (by decide) ha).trans hj, hn⟩
  | linked =>
      obtain ⟨a, job, ha, hj, hn⟩ := h
      have hq := head.resolve_right fun hc => hc (by simp [Stage.Critical])
      exact ⟨a, job, new.trans ha, (cell a (by decide) ha).trans hj, hn.trans hq.symm⟩
  | pushed => exact fun hn => h (new.symm.trans hn)
  | queued => exact fun hn => h (new.symm.trans hn)
  | taken =>
      have hq := head.resolve_right fun hc => hc (by simp [Stage.Critical])
      calc s'.nextJob u = s.nextJob u := next
        _ = s.jobQueue := h
        _ = s'.jobQueue := hq.symm
  | admitted => trivial
  | removed => trivial
  | obtained => trivial

theorem locals_update (self : Local s' t q) (others : ∀ u, u ≠ t → Local s' u (st u)) (u : T) :
    Local s' u (Function.update st t q u) := by
  by_cases hu : u = t
  · subst u
    simpa using self
  · simpa [hu] using others u hu

end Frame

/-! ## Statements -/

namespace Tracked
variable [DecidableEq T] {s s' : State T} {st : T → Stage} {t : T} {q : Stage} {l : List Nat}

omit [DecidableEq T] in
/-- A job that has not been put in is not in the queue. -/
theorem not_mem (h : Tracked s st l) {a : Nat} (own : ¬ (st t).HasQueued)
    (ha : s.newJob t = some a) : a ∉ l := by
  intro hl
  obtain ⟨u, hu⟩ := h.ledger.listed a hl
  have hq : (st u).HasQueued := by
    by_contra hn
    simp [queuedJob, hn] at hu
  rw [queuedJob, if_pos hq] at hu
  exact own (h.distinct u t a hu ha ▸ hq)

/-- A thread enters another stage without touching jobs or pointers. -/
theorem relabel (h : Tracked s st l) (jobs : s'.jobs = s.jobs) (head : s'.jobQueue = s.jobQueue)
    (new : s'.newJob = s.newJob) (next : s'.nextJob = s.nextJob)
    (put : q.HasQueued ↔ (st t).HasQueued)
    (took : (q.HasObtained ↔ (st t).HasObtained) ∨ s.nextJob t = none)
    (self : Local s t q) : Tracked s' (Function.update st t q) l where
  ledger := by
    have hp : queuedJob s' (Function.update st t q) = queuedJob s st :=
      (queuedJob_congr fun u _ => by rw [new]).trans (queuedJob_keep put)
    have ho : obtainedJob s' (Function.update st t q) = obtainedJob s st := by
      refine (obtainedJob_congr (s := s) fun u _ => by rw [next]).trans ?_
      rcases took with ht | hn
      · exact obtainedJob_keep ht
      · rw [obtainedJob_update]
        exact Function.update_eq_self_iff.mpr (by simp [obtainedJob, hn])
    rw [hp, ho]
    exact h.ledger
  segment := by
    rw [jobs, head]
    exact h.segment
  locals := locals_update
    (self.frame (by rw [new]) (by rw [next]) (.inl head) fun _ _ _ => by rw [jobs])
    fun u _ => (h.locals u).frame (by rw [new]) (by rw [next]) (.inl head) fun _ _ _ => by rw [jobs]
  distinct := by
    rw [new]
    exact h.distinct
  allocated := by
    rw [new, jobs]
    exact h.allocated

/-- A thread allocates its job. -/
theorem callocJob (h : Tracked s st l) (ht : st t = .outside) :
    Tracked (JobQueue.callocJob t s true) (Function.update st t .fresh) l := by
  have other (u : T) (hu : u ≠ t) : (JobQueue.callocJob t s true).newJob u = s.newJob u :=
    Function.update_of_ne hu _ _
  have old (a : Nat) (ha : a < s.jobs.next) :
      (JobQueue.callocJob t s true).jobs.cell a = s.jobs.cell a :=
    Function.update_of_ne (by omega) _ _
  refine ⟨?_, ?_, ?_, ?_, ?_⟩
  · rw [queuedJob_keep (by rw [ht]; decide), obtainedJob_keep (by rw [ht]; decide),
      queuedJob_congr fun u hu => other u fun he => by simp [he, ht, Stage.HasQueued] at hu]
    exact h.ledger
  · refine h.segment.congr fun a ha => old a ?_
    obtain ⟨u, hu⟩ := h.ledger.listed a ha
    by_cases hq : (st u).HasQueued
    · rw [queuedJob, if_pos hq] at hu
      exact h.allocated u a hu
    · simp [queuedJob, hq] at hu
  · refine locals_update ⟨s.jobs.next, ⟨0, none⟩, Function.update_self _ _ _,
      Function.update_self _ _ _, rfl⟩ fun u hu => ?_
    exact (h.locals u).frame (other u hu) rfl (.inl rfl) fun a _ ha => old a (h.allocated u a ha)
  · intro u v a hu hv
    have fresh (w : T) (hw : s.newJob w = some s.jobs.next) : False :=
      Nat.lt_irrefl _ (h.allocated w _ hw)
    by_cases hut : u = t <;> by_cases hvt : v = t
    · rw [hut, hvt]
    · subst u
      cases (Function.update_self t _ s.newJob).symm.trans hu
      exact (fresh v ((other v hvt).symm.trans hv)).elim
    · subst v
      cases (Function.update_self t _ s.newJob).symm.trans hv
      exact (fresh u ((other u hut).symm.trans hu)).elim
    · exact h.distinct u v a ((other u hut).symm.trans hu) ((other v hvt).symm.trans hv)
  · intro u a hu
    by_cases hut : u = t
    · subst u
      cases (Function.update_self t _ s.newJob).symm.trans hu
      exact Nat.lt_succ_self _
    · exact Nat.lt_succ_of_lt (h.allocated u a ((other u hut).symm.trans hu))

/-- A thread writes to the job it has not put in yet. -/
theorem write (h : Tracked s st l) (own : ¬ (st t).HasQueued) {a : Nat} {old new : Job}
    (ha : s.newJob t = some a) (hv : s.jobs.cell a = some old) (put : ¬ q.HasQueued)
    (took : q.HasObtained ↔ (st t).HasObtained)
    (self : Local { s with jobs := s.jobs.put a (some new) } t q) :
    Tracked { s with jobs := s.jobs.put a (some new) } (Function.update st t q) l := by
  have hcell := Heap.put_cell (Heap.lt_next hv) (some new)
  refine ⟨?_, ?_, ?_, h.distinct, h.allocated⟩
  · rw [queuedJob_keep (iff_of_false put own), obtainedJob_keep took]
    exact h.ledger
  · rw [hcell]
    exact h.segment.update (h.not_mem own ha) _
  · refine locals_update self fun u hu => (h.locals u).frame rfl rfl (.inl rfl) fun b _ hb => ?_
    rw [hcell]
    exact Function.update_of_ne (fun he : b = a => hu (h.distinct u t a (he ▸ hb) ha)) _ _

/-- A thread with a fresh job writes its data. -/
theorem setData (h : Tracked s st l) (ht : st t = .fresh) (threadId : Nat) :
    ∃ s', JobQueue.setData t s threadId = .ok s' ∧
      Tracked s' (Function.update st t .fresh) l ∧ s'.jobQueueCount = s.jobQueueCount := by
  have hl := h.locals t
  rw [ht] at hl
  obtain ⟨a, job, ha, hj, hn⟩ := hl
  have he : JobQueue.setData t s threadId = .ok { s with
      jobs := s.jobs.put a (some { job with data := 100 + threadId }) } := by
    rw [JobQueue.setData, ha, Heap.modify_live hj]
    rfl
  refine ⟨_, he, h.write (by rw [ht]; decide) ha hj (by decide) (by rw [ht])
    ⟨a, { job with data := 100 + threadId }, ha, ?_, hn⟩, rfl⟩
  rw [Heap.put_cell (Heap.lt_next hj)]
  exact Function.update_self _ _ _

/-- A thread with a fresh job links it to the head of the queue. -/
theorem linkJob (h : Tracked s st l) (ht : st t = .fresh) :
    ∃ s', JobQueue.linkJob t s = .ok s' ∧
      Tracked s' (Function.update st t .linked) l ∧ s'.jobQueueCount = s.jobQueueCount := by
  have hl := h.locals t
  rw [ht] at hl
  obtain ⟨a, job, ha, hj, hn⟩ := hl
  have he : JobQueue.linkJob t s = .ok { s with
      jobs := s.jobs.put a (some { job with next := s.jobQueue }) } := by
    rw [JobQueue.linkJob, ha, Heap.modify_live hj]
    rfl
  refine ⟨_, he, h.write (by rw [ht]; decide) ha hj (by decide) (by rw [ht]; decide)
    ⟨a, { job with next := s.jobQueue }, ha, ?_, rfl⟩, rfl⟩
  rw [Heap.put_cell (Heap.lt_next hj)]
  exact Function.update_self _ _ _

/-- In an empty queue a fresh job needs no link. -/
theorem linkedEmpty (h : Tracked s st l) (ht : st t = .fresh) (empty : s.jobQueue = none) :
    Tracked s (Function.update st t .linked) l := by
  have hl := h.locals t
  rw [ht] at hl
  obtain ⟨a, job, ha, hj, hn⟩ := hl
  exact h.relabel rfl rfl rfl rfl (by rw [ht]; decide) (.inl (by rw [ht]; decide))
    ⟨a, job, ha, hj, hn.trans empty.symm⟩

/-- A linked job becomes the head of the queue. -/
theorem setHead (h : Tracked s st l) (ht : st t = .linked)
    (alone : ∀ u, u ≠ t → ¬ (st u).Critical) :
    ∃ a, s.newJob t = some a ∧
      Tracked (JobQueue.setHead t s) (Function.update st t .pushed) (a :: l) := by
  have hl := h.locals t
  rw [ht] at hl
  obtain ⟨a, job, ha, hj, hn⟩ := hl
  have old : queuedJob s st t = none := by
    rw [queuedJob, ht]
    rfl
  have new (u : T) : queuedJob s st u ≠ some a := by
    intro hu
    by_cases hq : (st u).HasQueued
    · rw [queuedJob, if_pos hq] at hu
      rw [h.distinct u t a hu ha, ht] at hq
      revert hq
      decide
    · simp [queuedJob, hq] at hu
  refine ⟨a, ha, ?_, ?_, ?_, h.distinct, h.allocated⟩
  · have hp := queuedJob_update (JobQueue.setHead t s) st t .pushed
    rw [if_pos (by decide : Stage.pushed.HasQueued)] at hp
    rw [hp, obtainedJob_keep (by rw [ht]; decide)]
    simp only [JobQueue.setHead, ha]
    exact h.ledger.push old new
  · simp only [JobQueue.setHead, ha]
    exact Segment.cons hj (by rw [hn]; exact h.segment)
  · apply locals_update (by simp [Local, JobQueue.setHead, ha])
    intro u hu
    exact (h.locals u).frame rfl rfl (.inr (alone u hu)) fun _ _ _ => rfl

/-- A thread remembers the head of the queue. -/
theorem takeHead (h : Tracked s st l) (ht : st t = .outside ∨ st t = .admitted) :
    Tracked (JobQueue.takeHead t s) (Function.update st t .taken) l := by
  have put : ¬ (st t).HasQueued := by rcases ht with ht | ht <;> rw [ht] <;> decide
  have took : ¬ (st t).HasObtained := by rcases ht with ht | ht <;> rw [ht] <;> decide
  have other (u : T) (hu : u ≠ t) : (JobQueue.takeHead t s).nextJob u = s.nextJob u :=
    Function.update_of_ne hu _ _
  refine ⟨?_, h.segment, ?_, h.distinct, h.allocated⟩
  · rw [queuedJob_keep (iff_of_false (by decide) put), obtainedJob_keep
      (iff_of_false (by decide) took), obtainedJob_congr (s := s) fun u hu => other u fun he =>
      took (he ▸ hu)]
    exact h.ledger
  · refine locals_update (Function.update_self _ _ _) fun u hu => ?_
    exact (h.locals u).frame rfl (other u hu) (.inl rfl) fun _ _ _ => rfl

/-- A thread takes the head it remembers off a queue that is not empty. -/
theorem advanceHead (h : Tracked s st l) (ht : st t = .taken) (nonempty : l ≠ [])
    (alone : ∀ u, u ≠ t → ¬ (st u).Critical) :
    ∃ a l' s', l = a :: l' ∧ s.nextJob t = some a ∧ JobQueue.advanceHead s = .ok s' ∧
      (∀ q, q.HasObtained → Tracked s' (Function.update st t q) l') ∧
      s'.jobQueueCount = s.jobQueueCount ∧ s'.nextJob = s.nextJob := by
  obtain ⟨a, l', rfl⟩ := List.exists_cons_of_ne_nil nonempty
  obtain ⟨hq, job, hj, hs⟩ := h.segment
  have hl := h.locals t
  rw [ht] at hl
  have hn : s.nextJob t = some a := hl.trans hq
  have he : JobQueue.advanceHead s = .ok { s with jobQueue := job.next } := by
    rw [JobQueue.advanceHead, hq, load_live hj]
    rfl
  refine ⟨a, l', _, rfl, hn, he, fun q took => ?_, rfl, rfl⟩
  have put : ¬ q.HasQueued := by rcases took with rfl | rfl <;> decide
  refine ⟨?_, hs, ?_, h.distinct, h.allocated⟩
  · have ho := obtainedJob_update { s with jobQueue := job.next } st t q
    rw [if_pos took] at ho
    rw [queuedJob_keep (iff_of_false put (by rw [ht]; decide)), ho]
    simp only [hn]
    exact h.ledger.pop (by rw [obtainedJob, ht]; rfl)
  · refine locals_update ?_ fun u hu => ?_
    · rcases took with rfl | rfl <;> trivial
    · exact (h.locals u).frame rfl rfl (.inr (alone u hu)) fun _ _ _ => rfl

omit [DecidableEq T] in
/-- The job that a thread has put in is in the queue once or with one thread. -/
theorem location (h : Tracked s st l) (ht : (st t).HasQueued) :
    ∃ a, s.newJob t = some a ∧ (∀ u, s.newJob u = some a → u = t) ∧
      ((l.count a = 1 ∧ ∀ d, obtainedJob s st d ≠ some a) ∨
        (a ∉ l ∧ ∃! d, obtainedJob s st d = some a)) := by
  have hloc := h.locals t
  have hne : s.newJob t ≠ none := by
    rcases ht with hq | hq
    all_goals
      rw [hq] at hloc
      exact hloc
  obtain ⟨a, ha⟩ := Option.ne_none_iff_exists'.mp hne
  refine ⟨a, ha, fun u hu => h.distinct u t a hu ha, h.ledger.location (t := t) ?_⟩
  rw [queuedJob, if_pos ht, ha]

omit [DecidableEq T] in
/-- A job that a thread has obtained was put in by another thread. -/
theorem obtained_queued (h : Tracked s st l) (ht : (st t).HasObtained) {a : Nat}
    (ha : s.nextJob t = some a) : ∃ u, (st u).HasQueued ∧ s.newJob u = some a := by
  obtain ⟨u, hu⟩ := h.ledger.from_put t a (by rw [obtainedJob, if_pos ht, ha])
  by_cases hq : (st u).HasQueued
  · rw [queuedJob, if_pos hq] at hu
    exact ⟨u, hq, hu⟩
  · simp [queuedJob, hq] at hu

omit [DecidableEq T] in
/-- Freeing the job a thread has obtained leaves the queue alone. -/
theorem freeNextJob (h : Tracked s st l) (ht : (st t).HasObtained)
    (hf : JobQueue.freeNextJob t s = .ok s') :
    Tracked s' st l ∧ s'.jobQueueCount = s.jobQueueCount ∧ s'.nextJob = s.nextJob := by
  cases hn : s.nextJob t with
  | none =>
      rw [JobQueue.freeNextJob, hn] at hf
      cases hf
      exact ⟨h, rfl, rfl⟩
  | some a =>
      cases hc : s.jobs.cell a with
      | none => simp [JobQueue.freeNextJob, hn, Heap.free, hc, Except.map] at hf
      | some job =>
          rw [JobQueue.freeNextJob, hn, Heap.free_live hc] at hf
          cases hf
          have hcell := Heap.put_cell (Heap.lt_next hc) none
          obtain ⟨v, hv, hva⟩ := h.obtained_queued ht hn
          refine ⟨⟨h.ledger, ?_, fun u => ?_, h.distinct, h.allocated⟩, rfl, rfl⟩
          · rw [hcell]
            exact h.segment.update (h.ledger.gone t a (by rw [obtainedJob, if_pos ht, hn])) _
          · refine (h.locals u).frame rfl rfl (.inl rfl) fun b hb hub => ?_
            rw [hcell]
            refine Function.update_of_ne (fun he : b = a => hb ?_) _ _
            rw [h.distinct u v a (he ▸ hub) hva]
            exact hv

end Tracked

end SamplePrograms.JobQueue
