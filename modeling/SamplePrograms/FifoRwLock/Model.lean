import SamplePrograms.Library.ThreadInvariants

/-!
# The read-write lock of `prog_rwmutex_1.cpp`

Every thread repeatedly calls `readLock` and `readUnlock`, or `writeLock` and
`writeUnlock`, on one `FifoReadWriteLock`. A point stands for the statement
about to be executed, in the order of the source.

## Implementation notes

The counters are Java integers, so they wrap around at 32 bits. `signalAll`
without the lock wakes nobody and throws; afterwards the thread may end or go
on. Statements take effect in the order in which they are executed.
-/

namespace SamplePrograms.FifoRwLock
open Threads

/-- The fields of `FifoReadWriteLock` other than the lock and its condition. -/
structure Fields where
  readAcquires : BitVec 32
  readReleases : BitVec 32
  writer : Bool
  deriving DecidableEq

inductive Mutex where
  | lock
  deriving DecidableEq

inductive Gate where
  | condition
  deriving DecidableEq

/-- The statement a thread executes next. At `reading` and `writing` the
thread has returned from its lock call and has not yet called unlock. -/
inductive Point where
  | idle
  | readLock | readLockTest | readLockAwait | readLockCount | readLockReturn
  | reading
  | readUnlock | readUnlockCount | readUnlockTest | readUnlockSignalAll | readUnlockReturn
  | writeLock | writeLockTest | writeLockAwait | writeLockSet | writeLockDrainTest
  | writeLockDrainAwait | writeLockReturn
  | writing
  | writeUnlock | writeUnlockSignalAll
  | ended
  deriving DecidableEq

variable {T : Type*}

/-- The four methods of `FifoReadWriteLock` and a client that uses them in pairs. -/
def code (_ : T) : Point → Action Fields Point Mutex Gate
  | .idle => .exec fun s => [(s, .readLock), (s, .writeLock)]
  -- readLock
  | .readLock => .lock .lock .readLockTest
  | .readLockTest => .exec fun s => [(s, if s.writer then .readLockAwait else .readLockCount)]
  | .readLockAwait => .wait .condition .lock .readLockTest
  | .readLockCount => .exec fun s =>
      [({ s with readAcquires := s.readAcquires + 1 }, .readLockReturn)]
  | .readLockReturn => .unlock .lock .reading
  | .reading => .exec fun s => [(s, .readUnlock)]
  -- readUnlock
  | .readUnlock => .lock .lock .readUnlockCount
  | .readUnlockCount => .exec fun s =>
      [({ s with readReleases := s.readReleases + 1 }, .readUnlockTest)]
  | .readUnlockTest => .exec fun s =>
      [(s, if s.readAcquires = s.readReleases then .readUnlockSignalAll else .readUnlockReturn)]
  | .readUnlockSignalAll => .broadcast .condition .readUnlockReturn
  | .readUnlockReturn => .unlock .lock .idle
  -- writeLock
  | .writeLock => .lock .lock .writeLockTest
  | .writeLockTest => .exec fun s => [(s, if s.writer then .writeLockAwait else .writeLockSet)]
  | .writeLockAwait => .wait .condition .lock .writeLockTest
  | .writeLockSet => .exec fun s => [({ s with writer := true }, .writeLockDrainTest)]
  | .writeLockDrainTest => .exec fun s =>
      [(s, if s.readAcquires ≠ s.readReleases then .writeLockDrainAwait else .writeLockReturn)]
  | .writeLockDrainAwait => .wait .condition .lock .writeLockDrainTest
  | .writeLockReturn => .unlock .lock .writing
  | .writing => .exec fun s => [(s, .writeUnlock)]
  -- writeUnlock, which does not take the lock
  | .writeUnlock => .exec fun s => [({ s with writer := false }, .writeUnlockSignalAll)]
  | .writeUnlockSignalAll => .exec fun s => [(s, .idle), (s, .ended)]
  | .ended => .halt

/-- A new lock with the initial field values, shared by the threads `T`. -/
def fifoLock (T : Type*) : Program T Fields Point Mutex Gate where
  code := code
  start := fun _ => .idle
  init := ⟨0, 0, false⟩

/-- The points at which a thread is inside a section of `lock`. -/
def holds (p : Point) (_ : Mutex) : Prop :=
  match p with
  | .idle | .readLock | .reading | .readUnlock | .writeLock | .writing | .writeUnlock
  | .writeUnlockSignalAll | .ended => False
  | _ => True

theorem disciplined : (fifoLock T).Disciplined holds where
  start := fun t m => id
  code := by
    intro t p
    cases p <;> simp only [fifoLock, code, Action.Respects, List.mem_cons, List.not_mem_nil,
      or_false, forall_eq, forall_eq_or_imp]
    all_goals
      intros
      try split_ifs
      all_goals simp [holds]

/-- The stages of a thread. A reader counts from the increment of `readAcquires`
to the increment of `readReleases`. A writer has announced itself from setting
`writer`, and first drains the readers. -/
inductive Stage where
  | out
  | reading
  | draining
  | writing
  deriving DecidableEq

/-- The stage of a thread at each point. -/
def stage : Point → Stage
  | .readLockReturn | .reading | .readUnlock | .readUnlockCount => .reading
  | .writeLockDrainTest | .writeLockDrainAwait => .draining
  | .writeLockReturn | .writing | .writeUnlock => .writing
  | _ => .out

/-- The thread has set `writer` and has not yet cleared it. -/
def Announced (q : Stage) : Prop := q = .draining ∨ q = .writing

instance : DecidablePred Announced := fun q => inferInstanceAs (Decidable (q = _ ∨ q = _))

theorem stage_kept (t : T) (p : Point) : ((fifoLock T).code t p).Keeps stage p := by
  cases p <;> trivial

/-- What a thread inside a section knows about the flag. Other threads may clear
it at any time, so a thread that has found it set knows nothing. -/
def known (p : Point) (s : Fields) : Prop :=
  match p with
  | .readLockCount | .readLockReturn | .writeLockSet => s.writer = false
  | _ => True

/-- Outside its sections a thread changes no field except to clear the flag. -/
theorem cleared_outside {t : T} {p : Point} {f : Fields → List (Fields × Point)}
    (h : ¬ holds p .lock) (hc : (fifoLock T).code t p = .exec f) {s : Fields}
    {o : Fields × Point} (ho : o ∈ f s) : o.1 = s ∨ o.1 = { s with writer := false } := by
  cases p <;> first | exact absurd trivial h | cases hc
  all_goals
    simp only [List.mem_cons, List.not_mem_nil, or_false] at ho
    rcases ho with rfl | rfl
    all_goals simp

theorem asserts : (fifoLock T).Asserts holds .lock fun _ => known where
  outside := by
    intro t p s h
    cases p <;> first | trivial | exact absurd trivial h
  code := by
    intro t p
    cases p <;> simp only [fifoLock, code, Action.Carries, List.mem_cons, List.not_mem_nil,
      or_false, forall_eq, forall_eq_or_imp]
    all_goals
      intros
      try split_ifs
      all_goals simp_all [known]
  others := by
    intro t u p q f s o _ hq hc ho h
    rcases cleared_outside hq hc ho with hs | hs
    · rw [hs]
      exact h
    · rw [hs]
      cases p <;> trivial

end SamplePrograms.FifoRwLock
