import SamplePrograms.JobQueue.Jobs
import SamplePrograms.Library.ThreadInvariants
import Mathlib.Tactic.SplitIfs

/-!
# The condition variable program `prog_condV.c`

Every thread runs `thread_callback_enqueue` or `thread_callback_dequeue` once. A
point stands for the statement about to be executed, in the order of the source.

## Implementation notes

A null or dangling pointer stops its thread at a fault point. The fault points
inside the critical sections keep the mutexes, as a crash there does. The
points at which a thread has returned are `eDone` and `dDone`.
-/

namespace SamplePrograms.JobQueue.CondV
open Memory Threads

inductive Mutex where
  | jobQueueMutex
  | jobQueueCountMutex
  deriving DecidableEq

inductive Gate where
  | pcondVar
  deriving DecidableEq

/-- The points of `thread_callback_enqueue` and of `thread_callback_dequeue`. -/
inductive Point where
  | eCalloc | eData | eLockQueue | eLockCount | eTest | eLink | eSetHead | eCount | eSignal
  | eUnlockCount | eUnlockQueue | ePrint | eDone | eFault | eLinkFault
  | dLockCount | dTest | dWait | dUnlockCount | dLockQueue | dRelockCount | dIf | dTake | dAdvance
  | dDecrement | dReunlockCount | dUnlockQueue | dPrint | dFree | dDone | dFault | dAdvanceFault
  deriving DecidableEq

variable {T : Type*} [DecidableEq T]

/-- The statements of the two thread functions. -/
def code (threads : ThreadList T) (t : T) : Point → Action (State T) Point Mutex Gate
  -- thread_callback_enqueue
  | .eCalloc => .exec fun s => [(callocJob t s (threads.callocOk t),
      if threads.callocOk t then .eData else .eLockQueue)]
  | .eData => .exec fun s => attempt (setData t s (threads.threadId t)) .eLockQueue .eFault s
  | .eLockQueue => .lock .jobQueueMutex .eLockCount
  | .eLockCount => .lock .jobQueueCountMutex .eTest
  | .eTest => .exec fun s => [(s, if s.jobQueue = none then .eSetHead else .eLink)]
  | .eLink => .exec fun s => attempt (linkJob t s) .eSetHead .eLinkFault s
  | .eSetHead => .exec fun s => [(setHead t s, .eCount)]
  | .eCount => .exec fun s => [({ s with jobQueueCount := s.jobQueueCount + 1 }, .eSignal)]
  | .eSignal => .signal .pcondVar .eUnlockCount
  | .eUnlockCount => .unlock .jobQueueCountMutex .eUnlockQueue
  | .eUnlockQueue => .unlock .jobQueueMutex .ePrint
  | .ePrint => .exec fun s => attempt (printNewJob t s) .eDone .eFault s
  | .eDone | .eFault | .eLinkFault => .halt
  -- thread_callback_dequeue
  | .dLockCount => .lock .jobQueueCountMutex .dTest
  | .dTest => .exec fun s => [(s, if s.jobQueueCount = 0 then .dWait else .dUnlockCount)]
  | .dWait => .wait .pcondVar .jobQueueCountMutex .dTest
  | .dUnlockCount => .unlock .jobQueueCountMutex .dLockQueue
  | .dLockQueue => .lock .jobQueueMutex .dRelockCount
  | .dRelockCount => .lock .jobQueueCountMutex .dIf
  | .dIf => .exec fun s => [(s, if s.jobQueueCount > 0 then .dTake else .dReunlockCount)]
  | .dTake => .exec fun s => [(takeHead t s, .dAdvance)]
  | .dAdvance => .exec fun s => attempt (advanceHead s) .dDecrement .dAdvanceFault s
  | .dDecrement => .exec fun s =>
      [({ s with jobQueueCount := s.jobQueueCount - 1 }, .dReunlockCount)]
  | .dReunlockCount => .unlock .jobQueueCountMutex .dUnlockQueue
  | .dUnlockQueue => .unlock .jobQueueMutex .dPrint
  | .dPrint => .exec fun s => attempt (printNextJob t s) .dFree .dFault s
  | .dFree => .exec fun s => attempt (freeNextJob t s) .dDone .dFault s
  | .dDone | .dFault | .dAdvanceFault => .halt

/-- The program after `initialize_vars`, with the threads of a list. -/
def condV (threads : ThreadList T) : Program T (State T) Point Mutex Gate where
  code := code threads
  start := fun t => if threads.enqueues t then .eCalloc else .dLockCount
  init := initializeVars T

/-- The mutexes that a thread holds at a point. -/
def held : Point → List Mutex
  | .eLockCount | .eUnlockQueue | .dRelockCount | .dUnlockQueue => [.jobQueueMutex]
  | .eTest | .eLink | .eLinkFault | .eSetHead | .eCount | .eSignal | .eUnlockCount =>
      [.jobQueueMutex, .jobQueueCountMutex]
  | .dIf | .dTake | .dAdvance | .dAdvanceFault | .dDecrement | .dReunlockCount =>
      [.jobQueueMutex, .jobQueueCountMutex]
  | .dTest | .dWait | .dUnlockCount => [.jobQueueCountMutex]
  | _ => []

def holds (p : Point) (m : Mutex) : Prop := m ∈ held p

instance (p : Point) (m : Mutex) : Decidable (holds p m) :=
  inferInstanceAs (Decidable (m ∈ held p))

theorem disciplined (threads : ThreadList T) : (condV threads).Disciplined holds where
  start := by
    intro t m
    cases h : threads.enqueues t <;> simp [condV, h, holds, held]
  code := by
    intro t p
    cases p <;> simp only [condV, code, Action.Respects, List.mem_cons, List.not_mem_nil,
      or_false, forall_eq]
    case eData | eLink | ePrint | dAdvance | dPrint | dFree =>
      intro s o ho m
      rcases attempt_map ho with ⟨a, -, rfl⟩ | ⟨e, -, rfl⟩ <;> simp [holds, held]
    case eLockCount | dRelockCount => simp [holds, held, or_comm]
    case eUnlockCount | dReunlockCount =>
      refine ⟨by decide, fun m => ?_⟩
      cases m <;> decide
    all_goals
      intros
      try split_ifs
      all_goals simp [holds, held]

/-- The stage of a thread at each point. -/
def stage : Point → Stage
  | .eCalloc => .outside
  | .eData | .eLockQueue | .eLockCount | .eTest | .eLink | .eLinkFault => .fresh
  | .eSetHead => .linked
  | .eCount => .pushed
  | .eSignal | .eUnlockCount | .eUnlockQueue | .ePrint | .eDone | .eFault => .queued
  | .dAdvance | .dAdvanceFault => .taken
  | .dDecrement => .removed
  | .dReunlockCount | .dUnlockQueue | .dPrint | .dFree | .dDone | .dFault => .obtained
  | _ => .outside

theorem stage_kept (threads : ThreadList T) (t : T) (p : Point) :
    ((condV threads).code t p).Keeps stage p := by
  cases p <;> trivial

/-- The points of `thread_callback_enqueue`. -/
def enqueuePoint : Point → Bool
  | .eCalloc | .eData | .eLockQueue | .eLockCount | .eTest | .eLink | .eSetHead | .eCount
  | .eSignal | .eUnlockCount | .eUnlockQueue | .ePrint | .eDone | .eFault | .eLinkFault => true
  | _ => false

/-- The critical stages are inside the sections of both mutexes. -/
theorem holds_of_critical {p : Point} (h : (stage p).Critical) (m : Mutex) : holds p m := by
  cases p <;> cases m <;> first | decide | simp [stage, Stage.Critical] at h

/-- What a thread inside a section of `job_queue_count_mutex` knows about the count. -/
def known (p : Point) (s : State T) : Prop :=
  match p with
  | .dWait => s.jobQueueCount = 0
  | .dTake | .dAdvance | .dDecrement => 0 < s.jobQueueCount
  | _ => True

/-- Outside the sections of `job_queue_count_mutex` no thread changes the count. -/
theorem count_unchanged {threads : ThreadList T} {t : T} {p : Point}
    {f : State T → List (State T × Point)} (h : ¬ holds p .jobQueueCountMutex)
    (hc : (condV threads).code t p = .exec f) {s : State T} {o : State T × Point}
    (ho : o ∈ f s) : o.1.jobQueueCount = s.jobQueueCount := by
  cases p <;> first | exact absurd (by decide) h | cases hc
  case eData | ePrint | dPrint | dFree =>
    rcases attempt_map ho with ⟨a, -, rfl⟩ | ⟨e, -, rfl⟩ <;> rfl
  case eCalloc =>
    rw [List.mem_singleton.mp ho]
    cases h : threads.callocOk t <;> rfl

theorem asserts (threads : ThreadList T) :
    (condV threads).Asserts holds .jobQueueCountMutex fun _ => known where
  outside := by
    intro t p s h
    cases p <;> trivial
  code := by
    intro t p
    cases p <;> simp only [condV, code, Action.Carries, List.mem_cons, List.not_mem_nil,
      or_false, forall_eq]
    case eData | eLink | ePrint | dPrint | dFree | dAdvance =>
      intro s hs o ho
      rcases attempt_map ho with ⟨a, -, rfl⟩ | ⟨e, -, rfl⟩ <;> trivial
    all_goals
      intros
      try split_ifs
      all_goals simp_all [known, takeHead]
  others := by
    intro t u p q f s o _ hq hc ho h
    have same := count_unchanged hq hc ho
    have congr : known p o.1 ↔ known p s := by
      unfold known
      rw [same]
    exact congr.mpr h

section Runs
variable [Fintype T] {threads : ThreadList T} {σ : Config T (State T) Point Mutex Gate}

/-- A thread in a critical stage holds both mutexes. -/
theorem critical_holds (h : (condV threads).Reachable σ) {t : T}
    (critical : (σ.phases stage t).Critical) (m : Mutex) : (σ.status t).Holds holds m := by
  refine h.holds_section (fun p => (stage p).Critical) (fun p hp => holds_of_critical hp m) ?_
    critical
  intro t p c m' n hw hn
  cases p <;> cases hw
  simp [stage, Stage.Critical] at hn

/-- Of two threads in critical stages one is the other. -/
theorem alone (h : (condV threads).Reachable σ) {t u : T} (ht : (σ.phases stage t).Critical)
    (hu : (σ.phases stage u).Critical) : t = u :=
  ((disciplined threads).owned h).unique (critical_holds h ht .jobQueueMutex)
    (critical_holds h hu .jobQueueMutex)

/-- A thread that does not run waits for a job. -/
theorem running_or_waits (h : (condV threads).Reachable σ) (t : T) :
    (∃ p, σ.status t = .running p) ∨
      σ.status t = .blocked .pcondVar .jobQueueCountMutex .dTest ∨
      σ.status t = .woken .jobQueueCountMutex .dTest := by
  have hw := h.waits t
  cases hs : σ.status t with
  | running p => exact .inl ⟨p, rfl⟩
  | blocked c m n =>
      rw [hs] at hw
      obtain ⟨p, hp⟩ := hw
      cases p <;> cases hp
      exact .inr (.inl rfl)
  | woken m n =>
      rw [hs] at hw
      obtain ⟨p, c, hp⟩ := hw
      cases p <;> cases hp
      exact .inr (.inr rfl)

/-- What is known of the thread about to act in a run. -/
structure Knows (σ : Config T (State T) Point Mutex Gate) : Prop where
  known : ∀ t p, σ.status t = .running p → known p σ.shared
  alone : ∀ t, (σ.phases stage t).Critical → ∀ u, u ≠ t → ¬ (σ.phases stage u).Critical

theorem reachable_knows (h : (condV threads).Reachable σ) : Knows σ where
  known := fun _ _ here => (asserts threads).at_point (disciplined threads) h here
  alone := fun _ ht _ hne hu => hne (alone h hu ht)

/-- Every thread stays in its own function. -/
theorem reachable_enqueues (h : (condV threads).Reachable σ) (t : T) :
    enqueuePoint (σ.status t).point = threads.enqueues t := by
  have start : enqueuePoint ((condV threads).start t) = threads.enqueues t := by
    cases ht : threads.enqueues t <;> simp [condV, ht, enqueuePoint]
  refine (h.phase_const (fun t p => by cases p <;> trivial) ?_ t).trans start
  intro t p f s o hc out
  cases p <;> cases hc
  case eData | eLink | ePrint | dAdvance | dPrint | dFree =>
    rcases attempt_map out with ⟨a, -, rfl⟩ | ⟨e, -, rfl⟩ <;> rfl
  all_goals
    cases List.mem_singleton.mp out
    try split_ifs
    all_goals rfl

end Runs

end SamplePrograms.JobQueue.CondV
