import SamplePrograms.RwLock.Model
import SamplePrograms.Library.ThreadSchedule
import Mathlib.Tactic.SplitIfs

/-!
# Readers and writers exclude each other

The counters of the lock are the numbers of threads in the stages, and the
stages exclude each other. The proof checks each statement of the lock once;
the runs follow from the phase rule.
-/

namespace SamplePrograms.RwLock
open Threads

variable {T : Type*} [Fintype T] [DecidableEq T]

/-- The counters agree with the stages, and a writer is alone. -/
structure Agrees (s : Counters) (stages : T → Stage) : Prop where
  readers : s.noOfReaders = tally .reading stages
  writers : s.noOfWriters = tally .writing stages
  waiting : s.noOfWritersWaiting = tally .waiting stages
  alone : tally .writing stages = 0 ∨ tally .writing stages = 1 ∧ tally .reading stages = 0

omit [DecidableEq T] in
theorem agrees_initial : Agrees (rwLock T).init fun t => stage ((rwLock T).start t) where
  readers := by simp [rwLock, tally_const, stage]
  writers := by simp [rwLock, tally_const, stage]
  waiting := by simp [rwLock, tally_const, stage]
  alone := Or.inl (tally_const (by decide))

/-- One statement keeps the counters in step with the stages. -/
theorem Agrees.exec {s : Counters} {stages : T → Stage} (h : Agrees s stages) {t : T}
    {p p' : Point} {f : Counters → List (Counters × Point)} {s' : Counters}
    (here : stages t = stage p) (hk : known p s) (hc : (rwLock T).code t p = .exec f)
    (out : (s', p') ∈ f s) : Agrees s' (Function.update stages t (stage p')) := by
  obtain ⟨hr, hw, hq, ha⟩ := h
  have ur := tally_update .reading (stage p') stages t
  have uw := tally_update .writing (stage p') stages t
  have uq := tally_update .waiting (stage p') stages t
  rw [here] at ur uw uq
  cases p <;> cases hc
  all_goals
    simp only [List.mem_cons, List.not_mem_nil, Prod.mk.injEq] at out
    rcases out with ⟨rfl, hp⟩ | ⟨rfl, hp⟩ | hf
  any_goals contradiction
  all_goals
    try split_ifs at hp
    all_goals
      subst hp
      simp only [stage, reduceCtorEq, eq_self, if_true, if_false] at ur uw uq
      simp only [known] at hk
      constructor <;> simp only [stage] <;> omega

/-- In every run the counters agree with the stages and a writer is alone. -/
theorem reachable_agrees {σ : Config T Counters Point Mutex Gate} (h : (rwLock T).Reachable σ) :
    Agrees σ.shared (σ.phases stage) := by
  refine h.phase_invariant (I := Agrees) (K := fun σ => ∀ t p, σ.status t = .running p →
    known p σ.shared) (fun σ hr t p here => asserts.at_point disciplined hr here) stage_kept
    agrees_initial ?_
  intro σ t p f s' p' hk hi here hc out
  exact hi.exec (by rw [Config.phases_apply, here, Status.point_running]) (hk t p here) hc out

/-- A thread in a stage is at one of the points of the stage, and a thread that
sleeps or has been woken is in the loop of its lock call. -/
theorem stage_of_free {σ : Config T Counters Point Mutex Gate} (h : (rwLock T).Reachable σ)
    (free : σ.owner .classMutex = none) (t : T) :
    (σ.phases stage t = .reading ↔
      σ.status t = .running .reading ∨ σ.status t = .running .rUnlock) ∧
    (σ.phases stage t = .writing ↔
      σ.status t = .running .writing ∨ σ.status t = .running .wUnlock) ∧
    (σ.phases stage t = .waiting ↔
      σ.status t = .blocked .writerGate .classMutex .wLockTest ∨
        σ.status t = .woken .classMutex .wLockTest) := by
  have outside := (disciplined.owned h).not_holds (t := t) free
  have waits := h.waits t
  rw [Config.phases_apply]
  cases hs : σ.status t with
  | running p =>
      rw [hs] at outside
      cases p <;> first | exact absurd trivial outside | simp [stage]
  | blocked c m n =>
      rw [hs] at waits
      obtain ⟨p, hp⟩ := waits
      cases p <;> cases hp <;> simp [stage]
  | woken m n =>
      rw [hs] at waits
      obtain ⟨p, c, hp⟩ := waits
      cases p <;> cases hp <;> simp [stage]

/-- In every run at most one thread is between `w_lock` and `w_unlock`, no reader
is between `r_lock` and `r_unlock` together with a writer, and the counters are
the numbers of such threads and of the writers registered but not yet admitted.
While `class_mutex` is free the stages are exactly these intervals. -/
theorem lock_excludes {σ : Config T Counters Point Mutex Gate} (h : (rwLock T).Reachable σ) :
    (∀ t u, σ.phases stage t = .writing → σ.phases stage u = .writing → t = u) ∧
    (∀ t u, σ.phases stage t = .writing → σ.phases stage u ≠ .reading) ∧
    σ.shared.noOfReaders = tally .reading (σ.phases stage) ∧
    σ.shared.noOfWriters = tally .writing (σ.phases stage) ∧
    σ.shared.noOfWritersWaiting = tally .waiting (σ.phases stage) ∧
    0 ≤ σ.shared.noOfReaders ∧ 0 ≤ σ.shared.noOfWriters ∧ 0 ≤ σ.shared.noOfWritersWaiting ∧
    (σ.owner .classMutex = none → ∀ t,
      (σ.phases stage t = .reading ↔
        σ.status t = .running .reading ∨ σ.status t = .running .rUnlock) ∧
      (σ.phases stage t = .writing ↔
        σ.status t = .running .writing ∨ σ.status t = .running .wUnlock) ∧
      (σ.phases stage t = .waiting ↔
        σ.status t = .blocked .writerGate .classMutex .wLockTest ∨
          σ.status t = .woken .classMutex .wLockTest)) := by
  obtain ⟨hr, hw, hq, ha⟩ := reachable_agrees h
  refine ⟨fun t u ht hu => ?_, fun t u ht hu => ?_, hr, hw, hq, by omega, by omega, by omega,
    fun free t => stage_of_free h free t⟩
  · exact tally_unique (by omega) ht hu
  · have hwp := (tally_pos_iff Stage.writing (σ.phases stage)).mpr ⟨t, ht⟩
    have hrp := (tally_pos_iff Stage.reading (σ.phases stage)).mpr ⟨u, hu⟩
    omega

/-- One thread takes the lock as a writer and another goes to sleep in `r_lock`. -/
def writerInside (w r : T) : List (T × Nat) :=
  (w, 1) :: List.replicate 6 (w, 0) ++ List.replicate 4 (r, 0)

theorem lock_excludes_writerInside : ∃ σ,
    (rwLock (Fin 2)).runSchedule (rwLock (Fin 2)).initial (writerInside 0 1) = some σ ∧
      σ.shared.noOfWriters = 1 ∧ σ.status 1 = .blocked .readerGate .classMutex .rLockTest ∧
      (∀ u, σ.phases stage u = .writing → 0 = u) ∧ ∀ u, σ.phases stage u ≠ .reading := by
  have h := lock_excludes (Program.runSchedule_reachable (rwLock (Fin 2)) (writerInside 0 1) rfl)
  exact ⟨_, rfl, rfl, rfl, fun u => h.1 0 u rfl, fun u => h.2.1 0 u rfl⟩

end SamplePrograms.RwLock
