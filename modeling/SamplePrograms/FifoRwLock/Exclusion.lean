import SamplePrograms.FifoRwLock.Model
import SamplePrograms.Library.ThreadSchedule
import Mathlib.Tactic.SplitIfs

/-!
# An announced writer keeps the readers out

The flag is set exactly while one writer has announced itself, and the counters
differ by the number of active readers. A writer leaves the draining stage only
when the counters agree, which with fewer than `2 ^ 32` threads means that no
reader is left.
-/

namespace SamplePrograms.FifoRwLock
open Threads

variable {T : Type*} [Fintype T] [DecidableEq T]

/-- The fields agree with the stages. A writer that has drained the readers is
without them as long as the counters cannot wrap around. -/
structure Agrees (s : Fields) (stages : T → Stage) : Prop where
  flag : tally .draining stages + tally .writing stages = if s.writer then 1 else 0
  readers : s.readAcquires = s.readReleases + BitVec.ofNat 32 (tally .reading stages)
  alone : Fintype.card T < 2 ^ 32 → 0 < tally .writing stages → tally .reading stages = 0

omit [DecidableEq T] in
theorem agrees_initial : Agrees (fifoLock T).init fun t => stage ((fifoLock T).start t) where
  flag := by simp [fifoLock, tally_const, stage]
  readers := by simp [fifoLock, tally_const, stage]
  alone := by simp [fifoLock, tally_const, stage]

omit [DecidableEq T] in
/-- Equal counters mean that no reader is active. -/
theorem Agrees.drained {s : Fields} {stages : T → Stage} (h : Agrees s stages)
    (few : Fintype.card T < 2 ^ 32) (equal : s.readAcquires = s.readReleases) :
    tally .reading stages = 0 := by
  have hr := h.readers
  have hle := (tally_le_card Stage.reading stages).trans_lt few
  rw [equal] at hr
  bv_omega

/-- One statement keeps the fields in step with the stages. -/
theorem Agrees.exec {s : Fields} {stages : T → Stage} (h : Agrees s stages) {t : T}
    {p p' : Point} {f : Fields → List (Fields × Point)} {s' : Fields}
    (here : stages t = stage p) (hk : known p s) (hc : (fifoLock T).code t p = .exec f)
    (out : (s', p') ∈ f s) : Agrees s' (Function.update stages t (stage p')) := by
  have drained := h.drained
  obtain ⟨hf, hr, ha⟩ := h
  have ur := tally_update .reading (stage p') stages t
  have ud := tally_update .draining (stage p') stages t
  have uw := tally_update .writing (stage p') stages t
  rw [here] at ur ud uw
  cases p <;> cases hc
  all_goals
    simp only [List.mem_cons, List.not_mem_nil, Prod.mk.injEq] at out
    rcases out with ⟨rfl, hp⟩ | ⟨rfl, hp⟩ | hf
  any_goals contradiction
  all_goals
    try split_ifs at hp
    all_goals
      subst hp
      simp only [stage, reduceCtorEq, eq_self, if_true, if_false] at ur ud uw
      simp only [known] at hk
      constructor <;> simp only [stage]
      · grind
      · bv_omega
      · grind

/-- In every run the fields agree with the stages. -/
theorem reachable_agrees {σ : Config T Fields Point Mutex Gate} (h : (fifoLock T).Reachable σ) :
    Agrees σ.shared (σ.phases stage) := by
  refine h.phase_invariant (I := Agrees) (K := fun σ => ∀ t p, σ.status t = .running p →
    known p σ.shared) (fun σ hr t p here => asserts.at_point disciplined hr here) stage_kept
    agrees_initial ?_
  intro σ t p f s' p' hk hi here hc out
  exact hi.exec (by rw [Config.phases_apply, here, Status.point_running]) (hk t p here) hc out

/-- The flag is set exactly while a writer has announced itself. -/
theorem writer_iff_announced {σ : Config T Fields Point Mutex Gate}
    (h : (fifoLock T).Reachable σ) :
    σ.shared.writer = true ↔ ∃ t, Announced (σ.phases stage t) := by
  have hf := (reachable_agrees h).flag
  have hd := tally_pos_iff Stage.draining (σ.phases stage)
  have hw := tally_pos_iff Stage.writing (σ.phases stage)
  simp only [Announced, exists_or, ← hd, ← hw]
  cases hs : σ.shared.writer with
  | false =>
      rw [hs] at hf
      simp only [Bool.false_eq_true, if_false] at hf
      simp only [Bool.false_eq_true, false_iff]
      omega
  | true =>
      rw [hs] at hf
      simp only [if_true] at hf
      simp only [true_iff]
      omega

/-- Only one writer has announced itself. -/
theorem announced_unique {σ : Config T Fields Point Mutex Gate} (h : (fifoLock T).Reachable σ)
    {t u : T} (ht : Announced (σ.phases stage t)) (hu : Announced (σ.phases stage u)) : t = u := by
  have hf := (reachable_agrees h).flag
  have hd := tally_pos_iff Stage.draining (σ.phases stage)
  have hw := tally_pos_iff Stage.writing (σ.phases stage)
  have total : tally .draining (σ.phases stage) + tally .writing (σ.phases stage) ≤ 1 := by
    split_ifs at hf <;> omega
  rcases ht with ht | ht <;> rcases hu with hu | hu
  · exact tally_unique (by omega) ht hu
  · have h1 := hd.mpr ⟨t, ht⟩
    have h2 := hw.mpr ⟨u, hu⟩
    omega
  · have h1 := hw.mpr ⟨t, ht⟩
    have h2 := hd.mpr ⟨u, hu⟩
    omega
  · exact tally_unique (by omega) ht hu

/-- A thread becomes an active reader only by the increment in `readLock`, which
it reaches only while the flag is clear. -/
theorem admitted_while_clear {σ τ : Config T Fields Point Mutex Gate}
    (h : (fifoLock T).Reachable σ) (m : (fifoLock T).Move σ τ) {t : T}
    (before : σ.phases stage t ≠ .reading) (after : τ.phases stage t = .reading) :
    σ.shared.writer = false := by
  rcases m.phases stage_kept with ⟨-, hp⟩ | ⟨u, p, f, s', p', here, hc, out, -, hp⟩
  · rw [hp] at after
    exact absurd after before
  · have hu : u = t := by
      by_contra hne
      rw [hp, Function.update_of_ne (Ne.symm hne)] at after
      exact before after
    subst u
    have hk : known p σ.shared := asserts.at_point disciplined h here
    rw [hp, Function.update_self] at after
    rw [Config.phases_apply, here, Status.point_running] at before
    cases p <;> cases hc
    all_goals
      simp only [List.mem_cons, List.not_mem_nil, Prod.mk.injEq] at out
      rcases out with ⟨-, ho⟩ | ⟨-, ho⟩ | ho
    any_goals contradiction
    all_goals
      try split_ifs at ho
      all_goals
        subst ho
        first | exact hk | contradiction

/-- While `lock` is free the active readers are the threads between the return
of `readLock` and the call of `readUnlock`. -/
theorem reading_of_free {σ : Config T Fields Point Mutex Gate} (h : (fifoLock T).Reachable σ)
    (free : σ.owner .lock = none) (t : T) : σ.phases stage t = .reading ↔
      σ.status t = .running .reading ∨ σ.status t = .running .readUnlock := by
  have outside := (disciplined.owned h).not_holds (t := t) free
  have waits := h.waits t
  rw [Config.phases_apply]
  cases hs : σ.status t with
  | running p =>
      rw [hs] at outside
      cases p <;> first | exact absurd trivial outside | simp [stage]
  | blocked c m n =>
      rw [hs] at waits
      obtain ⟨p, hp⟩ := waits
      cases p <;> cases hp <;> simp [stage]
  | woken m n =>
      rw [hs] at waits
      obtain ⟨p, c, hp⟩ := waits
      cases p <;> cases hp <;> simp [stage]

/-- In every run of fewer than `2 ^ 32` threads at most one thread is between the
return of `writeLock` and its `writeUnlock`, and then no reader is active. While
the flag is set one writer has announced itself, no thread becomes an active
reader and none is about to return from `readLock`. The counters differ by the
number of active readers, which while `lock` is free are the threads between
`readLock` and `readUnlock`. -/
theorem fifoLock_excludes (few : Fintype.card T < 2 ^ 32) {σ : Config T Fields Point Mutex Gate}
    (h : (fifoLock T).Reachable σ) :
    (∀ t u, σ.phases stage t = .writing → σ.phases stage u = .writing → t = u) ∧
    (∀ t u, σ.phases stage t = .writing → σ.phases stage u ≠ .reading) ∧
    (σ.shared.writer = true ↔ ∃ w, Announced (σ.phases stage w)) ∧
    (∀ t u, Announced (σ.phases stage t) → Announced (σ.phases stage u) → t = u) ∧
    (σ.shared.writer = true →
      (∀ t, σ.status t ≠ .running .readLockReturn) ∧
      ∀ τ, (fifoLock T).Move σ τ → ∀ t, τ.phases stage t = .reading →
        σ.phases stage t = .reading) ∧
    (σ.shared.readAcquires - σ.shared.readReleases).toNat = tally .reading (σ.phases stage) ∧
    (σ.owner .lock = none → ∀ t, σ.phases stage t = .reading ↔
      σ.status t = .running .reading ∨ σ.status t = .running .readUnlock) := by
  obtain ⟨hf, hr, ha⟩ := reachable_agrees h
  refine ⟨fun t u ht hu => ?_, fun t u ht hu => ?_, writer_iff_announced h,
    fun t u => announced_unique h, fun set => ⟨fun t here => ?_, fun τ m t after => ?_⟩, ?_,
    fun free t => reading_of_free h free t⟩
  · exact announced_unique h (Or.inr ht) (Or.inr hu)
  · have none := ha few ((tally_pos_iff Stage.writing (σ.phases stage)).mpr ⟨t, ht⟩)
    exact (tally_eq_zero_iff Stage.reading (σ.phases stage)).mp none u hu
  · have clear : σ.shared.writer = false := asserts.at_point disciplined h here
    rw [set] at clear
    contradiction
  · by_contra before
    have clear := admitted_while_clear h m before after
    rw [set] at clear
    contradiction
  · have hle := (tally_le_card Stage.reading (σ.phases stage)).trans_lt few
    rw [hr]
    bv_omega

/-- One reader is inside when a writer announces itself and goes to sleep. -/
def writerDrains (r w : T) : List (T × Nat) :=
  List.replicate 5 (r, 0) ++ (w, 1) :: List.replicate 5 (w, 0)

theorem fifoLock_excludes_writerDrains : ∃ σ,
    (fifoLock (Fin 2)).runSchedule (fifoLock (Fin 2)).initial (writerDrains 0 1) = some σ ∧
      σ.shared.writer = true ∧ σ.status 0 = .running .reading ∧
      σ.status 1 = .blocked .condition .lock .writeLockDrainTest ∧
      (σ.shared.readAcquires - σ.shared.readReleases).toNat = tally .reading (σ.phases stage) := by
  have h := fifoLock_excludes (by simp)
    (Program.runSchedule_reachable (fifoLock (Fin 2)) (writerDrains 0 1) rfl)
  exact ⟨_, rfl, rfl, rfl, rfl, h.2.2.2.2.2.1⟩

end SamplePrograms.FifoRwLock
