import SamplePrograms.RwLock.Wakeup
import SamplePrograms.Library.ThreadTermination

/-!
# The pending calls of the read-write lock complete

When the threads start no new calls, the calls under way come to an end in whatever order the
threads are scheduled. An unlock call pays for the threads that it wakes, so that the run is
finite, and no thread can be left asleep where the run ends.

## Implementation notes

A woken thread may find the lock taken and sleep again. Readers are not kept out by a writer that
waits, so without the premise on new calls a writer may wait forever.
-/

namespace SamplePrograms.RwLock
open Threads

variable {T : Type*}

/-- The lock with threads that start no call. -/
def closing (T : Type*) : Program T Counters Point Mutex Gate :=
  (rwLock T).retire fun p => p = .idle

/-- What a thread may still do at a point, when each of its notifications costs `pay`. -/
def weight (pay : ℕ) : Point → ℕ
  | .idle => 0
  | .rUnlockReturn => 1
  | .rUnlockSignal => 2 + pay
  | .rUnlockTest => 3 + pay
  | .rUnlockCount => 4 + pay
  | .rUnlock => 5 + pay
  | .reading => 6 + pay
  | .rLockReturn => 7 + pay
  | .rLockCount => 8 + pay
  | .rLockWait => 9 + pay
  | .rLockTest => 10 + pay
  | .rLock => 11 + pay
  | .wUnlockReturn => 1
  | .wUnlockBroadcast => 2 + pay
  | .wUnlockSignal => 3 + 2 * pay
  | .wUnlockTest => 4 + 2 * pay
  | .wUnlockCount => 5 + 2 * pay
  | .wUnlock => 6 + 2 * pay
  | .writing => 7 + 2 * pay
  | .wLockReturn => 8 + 2 * pay
  | .wLockCount => 9 + 2 * pay
  | .wLockDeregister => 10 + 2 * pay
  | .wLockWait => 11 + 2 * pay
  | .wLockTest => 12 + 2 * pay
  | .wLockRegister => 13 + 2 * pay
  | .wLock => 14 + 2 * pay

theorem weight_le (pay : ℕ) (p : Point) : weight pay p ≤ 14 + 2 * pay := by
  cases p <;> simp only [weight] <;> omega

theorem lowers (pay : ℕ) (t : T) (p : Point) :
    ((closing T).code t p).Lowers (weight pay) pay p := by
  cases p <;> simp only [closing, Program.retire, rwLock, code, reduceCtorEq, decide_true,
    decide_false, if_true, if_false, Bool.false_eq_true, Action.Lowers, List.mem_cons,
    List.not_mem_nil, or_false, forall_eq]
  all_goals
    intros
    try split_ifs
    all_goals
      simp only [weight]
      omega

/-- A thread that can go no further rests or waits for `class_mutex`. -/
theorem waits_cases {σ : Config T Counters Point Mutex Gate} {t : T} {p : Point}
    (h : ((closing T).code t p).Waits σ) :
    p = .idle ∨ ¬ holds p .classMutex ∧ σ.owner .classMutex ≠ none := by
  cases p
  case idle => exact Or.inl rfl
  case rLock | wLock | rUnlock | wUnlock => exact Or.inr ⟨id, h⟩
  all_goals simp [closing, Program.retire, rwLock, code, Action.Waits] at h

variable [Fintype T] [DecidableEq T]

/-- No thread that sleeps or has been woken has much more to do than at the start of a call. -/
theorem weight_config_le {σ : Config T Counters Point Mutex Gate} (h : (rwLock T).Reachable σ)
    (pay : ℕ) : σ.weight (weight pay) ≤ Fintype.card T * (14 + 2 * pay) := by
  have each : ∀ t, (σ.status t).weight (weight pay) ≤ 14 + 2 * pay := by
    intro t
    have waits := h.waits t
    cases hs : σ.status t with
    | running p => exact weight_le pay p
    | blocked c m n => exact (Nat.sub_le _ _).trans (weight_le pay n)
    | woken m n =>
        rw [hs] at waits
        obtain ⟨p, c, code⟩ := waits
        cases p <;> cases code <;> simp only [Status.weight_woken, weight] <;> omega
  calc
    σ.weight (weight pay) ≤ ∑ _t : T, (14 + 2 * pay) := Finset.sum_le_sum fun t _ => each t
    _ = Fintype.card T * (14 + 2 * pay) := by
      rw [Finset.sum_const_nat fun _ _ => rfl, Finset.card_univ]

section Stuck
variable {σ : Config T Counters Point Mutex Gate}

/-- Where the calls can go no further, `class_mutex` is free. -/
theorem stuck_free (h : (rwLock T).Reachable σ) (stuck : (closing T).Stuck σ) :
    σ.owner .classMutex = none := by
  have own := disciplined.owned h
  apply Option.eq_none_iff_forall_ne_some.mpr
  intro t owner
  have inside := (own.1 t .classMutex).mp owner
  cases hs : σ.status t with
  | running p =>
      rw [hs] at inside
      rcases waits_cases (stuck.running disciplined.retire own hs) with rfl | ⟨outside, -⟩
      · exact inside
      · exact outside inside
  | blocked c m n =>
      rw [hs] at inside
      cases m
      exact inside.1 rfl
  | woken m n =>
      rw [hs] at inside
      cases m
      exact inside.1 rfl

/-- Where the calls can go no further, every thread rests or sleeps. -/
theorem stuck_cases (h : (rwLock T).Reachable σ) (stuck : (closing T).Stuck σ) (t : T) :
    σ.status t = .running .idle ∨ σ.status t = .blocked .readerGate .classMutex .rLockTest ∨
      σ.status t = .blocked .writerGate .classMutex .wLockTest := by
  have free := stuck_free h stuck
  have waits := h.waits t
  cases hs : σ.status t with
  | running p =>
      rcases waits_cases (stuck.running disciplined.retire (disciplined.owned h) hs) with
        rfl | ⟨-, taken⟩
      · exact Or.inl rfl
      · exact absurd free taken
  | blocked c m n =>
      rw [hs] at waits
      obtain ⟨p, code⟩ := waits
      cases p <;> cases code
      · exact Or.inr (Or.inl rfl)
      · exact Or.inr (Or.inr rfl)
  | woken m n =>
      cases m
      exact absurd free (stuck.woken hs)

/-- Where the calls can go no further, no call is under way. -/
theorem stuck_idle (h : (rwLock T).Reachable σ) (stuck : (closing T).Stuck σ) (t : T) :
    σ.status t = .running .idle := by
  have cases := stuck_cases h stuck
  obtain ⟨readers, writers, -, -⟩ := reachable_agrees h
  obtain ⟨served_writers, served_readers⟩ := reachable_served h
  -- nobody is at work, so that the counters are zero and nobody has a duty
  have no_reader : tally .reading (σ.phases stage) = 0 := by
    apply (tally_eq_zero_iff _ _).mpr
    intro u
    rw [Config.phases_apply]
    rcases cases u with hu | hu | hu <;> simp [hu, stage]
  have no_writer : tally .writing (σ.phases stage) = 0 := by
    apply (tally_eq_zero_iff _ _).mpr
    intro u
    rw [Config.phases_apply]
    rcases cases u with hu | hu | hu <;> simp [hu, stage]
  have no_duty : ∀ u, ¬ Forwards (σ.status u) ∧ ¬ Broadcasts (σ.status u) := by
    intro u
    rcases cases u with hu | hu | hu
    all_goals
      rw [hu]
      exact ⟨id, id⟩
  rcases cases t with ht | ht | ht
  · exact ht
  · rcases served_readers ⟨t, by rw [ht]; rfl⟩ with taken | ⟨u, duty⟩
    · omega
    · exact absurd duty (no_duty u).2
  · rcases served_writers ⟨t, by rw [ht]; rfl⟩ with taken | ⟨u, duty⟩
    · omega
    · exact absurd duty (no_duty u).1

end Stuck

open Classical in
/-- From every reachable state, when no new call is started, every run ends but for spurious
wakeups, and where it can go no further every call has returned. -/
theorem calls_complete {σ : Config T Counters Point Mutex Gate} (h : (rwLock T).Reachable σ) :
    (∀ (run : ℕ → Config T Counters Point Mutex Gate) (n : ℕ), run 0 = σ →
      (∀ i < n, (closing T).Move (run i) (run (i + 1))) →
      n ≤ Fintype.card T * (14 + 6 * Fintype.card T) +
        4 * ((Finset.range n).filter fun i => ¬ (closing T).Step (run i) (run (i + 1))).card) ∧
    ∀ τ, Relation.ReflTransGen (closing T).Move σ τ → (closing T).Stuck τ →
      ∀ t, τ.status t = .running .idle := by
  constructor
  · intro run n start moves
    have bound := Program.length_le_weight (lowers (3 * Fintype.card T)) run n moves
    have weight := weight_config_le h (3 * Fintype.card T)
    rw [← start] at weight
    have cost : 14 + 2 * (3 * Fintype.card T) = 14 + 6 * Fintype.card T := by omega
    rw [cost] at weight
    omega
  · intro τ run stuck t
    exact stuck_idle (h.retire run) stuck t

/-- A writer is inside and a reader sleeps. -/
theorem calls_complete_writerInside : ∃ σ,
    (rwLock (Fin 2)).runSchedule (rwLock (Fin 2)).initial (writerInside 0 1) = some σ ∧
      ∀ τ, Relation.ReflTransGen (closing (Fin 2)).Move σ τ → (closing (Fin 2)).Stuck τ →
        ∀ t, τ.status t = .running .idle := by
  have h := calls_complete
    (Program.runSchedule_reachable (rwLock (Fin 2)) (writerInside 0 1) rfl)
  exact ⟨_, rfl, h.2⟩

end SamplePrograms.RwLock
