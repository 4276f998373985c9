import SamplePrograms.Library.ThreadInvariants

/-!
# The read-write lock of `prog_rwmutex.cpp`

Every thread repeatedly calls `r_lock` and `r_unlock`, or `w_lock` and
`w_unlock`, on one `rw_lock_t`. A point stands for the statement about to be
executed, in the order of the source.

## Implementation notes

The counters are mathematical integers. They count threads, so they agree with
the `int` fields whenever there are fewer than `2 ^ 31` threads.
-/

namespace SamplePrograms.RwLock
open Threads

/-- The counters of `rw_lock_t`. -/
structure Counters where
  noOfReaders : Int
  noOfWriters : Int
  noOfWritersWaiting : Int
  deriving DecidableEq

inductive Mutex where
  | classMutex
  deriving DecidableEq

inductive Gate where
  | readerGate
  | writerGate
  deriving DecidableEq

/-- The statement a thread executes next. At `reading` and `writing` the
thread has returned from its lock call and has not yet called unlock. -/
inductive Point where
  | idle
  | rLock | rLockTest | rLockWait | rLockCount | rLockReturn
  | reading
  | wLock | wLockRegister | wLockTest | wLockWait | wLockDeregister | wLockCount | wLockReturn
  | writing
  | rUnlock | rUnlockCount | rUnlockTest | rUnlockSignal | rUnlockReturn
  | wUnlock | wUnlockCount | wUnlockTest | wUnlockSignal | wUnlockBroadcast | wUnlockReturn
  deriving DecidableEq

variable {T : Type*}

/-- The four methods of `rw_lock_t` and a client that uses them in pairs. -/
def code (_ : T) : Point → Action Counters Point Mutex Gate
  | .idle => .exec fun s => [(s, .rLock), (s, .wLock)]
  -- r_lock
  | .rLock => .lock .classMutex .rLockTest
  | .rLockTest => .exec fun s => [(s, if s.noOfWriters > 0 then .rLockWait else .rLockCount)]
  | .rLockWait => .wait .readerGate .classMutex .rLockTest
  | .rLockCount => .exec fun s => [({ s with noOfReaders := s.noOfReaders + 1 }, .rLockReturn)]
  | .rLockReturn => .unlock .classMutex .reading
  | .reading => .exec fun s => [(s, .rUnlock)]
  -- w_lock
  | .wLock => .lock .classMutex .wLockRegister
  | .wLockRegister => .exec fun s =>
      [({ s with noOfWritersWaiting := s.noOfWritersWaiting + 1 }, .wLockTest)]
  | .wLockTest => .exec fun s =>
      [(s, if s.noOfReaders > 0 ∨ s.noOfWriters > 0 then .wLockWait else .wLockDeregister)]
  | .wLockWait => .wait .writerGate .classMutex .wLockTest
  | .wLockDeregister => .exec fun s =>
      [({ s with noOfWritersWaiting := s.noOfWritersWaiting - 1 }, .wLockCount)]
  | .wLockCount => .exec fun s => [({ s with noOfWriters := s.noOfWriters + 1 }, .wLockReturn)]
  | .wLockReturn => .unlock .classMutex .writing
  | .writing => .exec fun s => [(s, .wUnlock)]
  -- r_unlock
  | .rUnlock => .lock .classMutex .rUnlockCount
  | .rUnlockCount => .exec fun s => [({ s with noOfReaders := s.noOfReaders - 1 }, .rUnlockTest)]
  | .rUnlockTest => .exec fun s =>
      [(s, if s.noOfReaders = 0 ∧ s.noOfWritersWaiting > 0 then .rUnlockSignal
        else .rUnlockReturn)]
  | .rUnlockSignal => .signal .writerGate .rUnlockReturn
  | .rUnlockReturn => .unlock .classMutex .idle
  -- w_unlock
  | .wUnlock => .lock .classMutex .wUnlockCount
  | .wUnlockCount => .exec fun s => [({ s with noOfWriters := s.noOfWriters - 1 }, .wUnlockTest)]
  | .wUnlockTest => .exec fun s =>
      [(s, if s.noOfWritersWaiting > 0 then .wUnlockSignal else .wUnlockBroadcast)]
  | .wUnlockSignal => .signal .writerGate .wUnlockBroadcast
  | .wUnlockBroadcast => .broadcast .readerGate .wUnlockReturn
  | .wUnlockReturn => .unlock .classMutex .idle

/-- A lock constructed with all counters at zero, shared by the threads `T`. -/
def rwLock (T : Type*) : Program T Counters Point Mutex Gate where
  code := code
  start := fun _ => .idle
  init := ⟨0, 0, 0⟩

/-- The points at which a thread is inside a section of `class_mutex`. -/
def holds (p : Point) (_ : Mutex) : Prop :=
  match p with
  | .idle | .rLock | .reading | .wLock | .writing | .rUnlock | .wUnlock => False
  | _ => True

theorem disciplined : (rwLock T).Disciplined holds where
  start := fun t m => id
  code := by
    intro t p
    cases p <;> simp only [rwLock, code, Action.Respects, List.mem_cons, List.not_mem_nil,
      or_false, forall_eq, forall_eq_or_imp]
    all_goals
      intros
      try split_ifs
      all_goals simp [holds]

/-- The stages of a thread. A reader counts from the increment in `r_lock` to
the decrement in `r_unlock`, and a writer likewise. A writer waits from its
registration in `w_lock` until it takes itself off the waiting writers. -/
inductive Stage where
  | out
  | reading
  | waiting
  | granted
  | writing
  deriving DecidableEq

/-- The stage of a thread at each point. -/
def stage : Point → Stage
  | .rLockReturn | .reading | .rUnlock | .rUnlockCount => .reading
  | .wLockTest | .wLockWait | .wLockDeregister => .waiting
  | .wLockCount => .granted
  | .wLockReturn | .writing | .wUnlock | .wUnlockCount => .writing
  | _ => .out

theorem stage_kept (t : T) (p : Point) : ((rwLock T).code t p).Keeps stage p := by
  cases p <;> trivial

/-- What a thread inside a section knows about the counters. -/
def known (p : Point) (s : Counters) : Prop :=
  match p with
  | .rLockWait => 0 < s.noOfWriters
  | .rLockCount => s.noOfWriters ≤ 0
  | .wLockWait => 0 < s.noOfReaders ∨ 0 < s.noOfWriters
  | .wLockDeregister | .wLockCount => s.noOfReaders ≤ 0 ∧ s.noOfWriters ≤ 0
  | _ => True

/-- Outside its sections a thread changes no counter. -/
theorem unchanged_outside {t : T} {p : Point} {f : Counters → List (Counters × Point)}
    (h : ¬ holds p .classMutex) (hc : (rwLock T).code t p = .exec f) {s : Counters}
    {o : Counters × Point} (ho : o ∈ f s) : o.1 = s := by
  cases p <;> first | exact absurd trivial h | cases hc
  all_goals
    simp only [List.mem_cons, List.not_mem_nil, or_false] at ho
    rcases ho with rfl | rfl
    all_goals rfl

theorem asserts : (rwLock T).Asserts holds .classMutex fun _ => known where
  outside := by
    intro t p s h
    cases p <;> first | trivial | exact absurd trivial h
  code := by
    intro t p
    cases p <;> simp only [rwLock, code, Action.Carries, List.mem_cons, List.not_mem_nil,
      or_false, forall_eq, forall_eq_or_imp]
    all_goals
      intros
      try split_ifs
      all_goals simp_all [known]
  others := by
    intro t u p q f s o _ hq hc ho h
    rw [unchanged_outside hq hc ho]
    exact h

end SamplePrograms.RwLock
