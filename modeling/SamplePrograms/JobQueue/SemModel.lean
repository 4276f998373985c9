import SamplePrograms.JobQueue.Jobs
import SamplePrograms.Library.ThreadInvariants
import SamplePrograms.Library.ThreadSchedule
import Mathlib.Tactic.SplitIfs

/-!
# The semaphore program `prog_sem.c`

The program keeps its jobs in the same queue as `prog_condV.c`, but it counts
them with a semaphore. The semaphore is posted inside the mutex and waited for
outside of it, so its value is the length of the queue less the jobs that are
promised to threads on their way to the queue.

## Implementation notes

The field `jobQueueCount` is the value of the semaphore. A thread can pass
`sem_wait` only while the value is positive.
-/

namespace SamplePrograms.JobQueue.Sem
open Memory Threads

inductive Mutex where
  | jobQueueMutex
  deriving DecidableEq

/-- The points of `thread_callback_enqueue` and of `thread_callback_dequeue`. -/
inductive Point where
  | eLock | eCalloc | eData | eTest | eLink | eSetHead | ePost | eUnlock | ePrint | eDone
  | eDataFault | eLinkFault | eFault
  | dSemWait | dLock | dTake | dAdvance | dUnlock | dPrint | dFree | dDone
  | dAdvanceFault | dFault
  deriving DecidableEq

variable {T : Type*} [DecidableEq T]

/-- The statements of the two thread functions. -/
def code (threads : ThreadList T) (t : T) : Point → Action (State T) Point Mutex Empty
  -- thread_callback_enqueue
  | .eLock => .lock .jobQueueMutex .eCalloc
  | .eCalloc => .exec fun s => [(callocJob t s (threads.callocOk t), .eData)]
  | .eData => .exec fun s => attempt (setData t s (threads.threadId t)) .eTest .eDataFault s
  | .eTest => .exec fun s => [(s, if s.jobQueue = none then .eSetHead else .eLink)]
  | .eLink => .exec fun s => attempt (linkJob t s) .eSetHead .eLinkFault s
  | .eSetHead => .exec fun s => [(setHead t s, .ePost)]
  | .ePost => .exec fun s => [({ s with jobQueueCount := s.jobQueueCount + 1 }, .eUnlock)]
  | .eUnlock => .unlock .jobQueueMutex .ePrint
  | .ePrint => .exec fun s => attempt (printNewJob t s) .eDone .eFault s
  | .eDone | .eDataFault | .eLinkFault | .eFault => .halt
  -- thread_callback_dequeue
  | .dSemWait => .exec fun s =>
      if s.jobQueueCount = 0 then []
      else [({ s with jobQueueCount := s.jobQueueCount - 1 }, .dLock)]
  | .dLock => .lock .jobQueueMutex .dTake
  | .dTake => .exec fun s => [(takeHead t s, .dAdvance)]
  | .dAdvance => .exec fun s => attempt (advanceHead s) .dUnlock .dAdvanceFault s
  | .dUnlock => .unlock .jobQueueMutex .dPrint
  | .dPrint => .exec fun s => attempt (printNextJob t s) .dFree .dFault s
  | .dFree => .exec fun s => attempt (freeNextJob t s) .dDone .dFault s
  | .dDone | .dAdvanceFault | .dFault => .halt

/-- The program after `sem_init`, with the threads of a list. -/
def sem (threads : ThreadList T) : Program T (State T) Point Mutex Empty where
  code := code threads
  start := fun t => if threads.enqueues t then .eLock else .dSemWait
  init := initializeVars T

/-- The points inside the section of `job_queue_mutex`. -/
def holds (p : Point) (_ : Mutex) : Prop :=
  p ∈ [.eCalloc, .eData, .eTest, .eLink, .eSetHead, .ePost, .eUnlock, .eDataFault, .eLinkFault,
    .dTake, .dAdvance, .dUnlock, .dAdvanceFault]

omit [DecidableEq T] in
/-- A thread passes `sem_wait` only while the value is positive. -/
theorem mem_semWait {s : State T} {o : State T × Point} :
    (o ∈ if s.jobQueueCount = 0 then []
      else [({ s with jobQueueCount := s.jobQueueCount - 1 }, Point.dLock)]) ↔
      0 < s.jobQueueCount ∧ o = ({ s with jobQueueCount := s.jobQueueCount - 1 }, .dLock) := by
  by_cases hz : s.jobQueueCount = 0
  · simp [hz]
  · simp [hz, Nat.pos_of_ne_zero hz]

theorem disciplined (threads : ThreadList T) : (sem threads).Disciplined holds where
  start := by
    intro t m
    cases h : threads.enqueues t <;> simp [sem, h, holds]
  code := by
    intro t p
    cases p <;> simp only [sem, code, Action.Respects, List.mem_cons, List.not_mem_nil,
      or_false, forall_eq]
    case eData | eLink | ePrint | dAdvance | dPrint | dFree =>
      intro s o ho m
      rcases attempt_map ho with ⟨a, -, rfl⟩ | ⟨e, -, rfl⟩ <;> simp [holds]
    case dSemWait =>
      intro s o ho m
      rw [mem_semWait] at ho
      simp [ho.2, holds]
    all_goals
      intros
      try split_ifs
      all_goals simp [holds]

/-- The stage of a thread at each point. -/
def stage : Point → Stage
  | .eLock | .eCalloc => .outside
  | .eData | .eTest | .eLink | .eDataFault | .eLinkFault => .fresh
  | .eSetHead => .linked
  | .ePost => .pushed
  | .eUnlock | .ePrint | .eDone | .eFault => .queued
  | .dSemWait => .outside
  | .dLock | .dTake => .admitted
  | .dAdvance | .dAdvanceFault => .taken
  | .dUnlock | .dPrint | .dFree | .dDone | .dFault => .obtained

theorem stage_kept (threads : ThreadList T) (t : T) (p : Point) :
    ((sem threads).code t p).Keeps stage p := by
  cases p <;> trivial

/-- The points of `thread_callback_enqueue`. -/
def enqueuePoint : Point → Bool
  | .eLock | .eCalloc | .eData | .eTest | .eLink | .eSetHead | .ePost | .eUnlock | .ePrint
  | .eDone | .eDataFault | .eLinkFault | .eFault => true
  | _ => false

section Runs
variable [Fintype T] {threads : ThreadList T} {σ : Config T (State T) Point Mutex Empty}

/-- Of two threads in critical stages one is the other. -/
theorem alone (h : (sem threads).Reachable σ) (t : T) (ht : (σ.phases stage t).Critical)
    (u : T) (hu : u ≠ t) : ¬ (σ.phases stage u).Critical := by
  intro hc
  refine hu (h.alone (disciplined threads) (m := .jobQueueMutex)
    (fun p => (stage p).Critical) ?_ ?_ hc ht)
  · intro p hp
    cases p <;> first | simp [holds]; done | simp [stage, Stage.Critical] at hp
  · intro t p c m n hw
    cases p <;> cases hw

/-- Every thread stays in its own function. -/
theorem reachable_enqueues (h : (sem threads).Reachable σ) (t : T) :
    enqueuePoint (σ.status t).point = threads.enqueues t := by
  have start : enqueuePoint ((sem threads).start t) = threads.enqueues t := by
    cases ht : threads.enqueues t <;> simp [sem, ht, enqueuePoint]
  refine (h.phase_const (fun t p => by cases p <;> trivial) ?_ t).trans start
  intro t p f s o hc out
  cases p <;> cases hc
  case eData | eLink | ePrint | dAdvance | dPrint | dFree =>
    rcases attempt_map out with ⟨a, -, rfl⟩ | ⟨e, -, rfl⟩ <;> rfl
  case dSemWait =>
    rw [mem_semWait] at out
    rw [out.2]
    rfl
  all_goals
    cases List.mem_singleton.mp out
    try split_ifs
    all_goals rfl

end Runs

end SamplePrograms.JobQueue.Sem
