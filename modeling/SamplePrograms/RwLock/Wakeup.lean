import SamplePrograms.RwLock.Exclusion
import SamplePrograms.Library.ThreadWakeups

/-!
# No wakeup of the read-write lock is lost

A signal can wake a writer that finds the lock taken again and goes back to
sleep. So the invariant does not follow one signal. It says that a sleeping
writer is served: the lock is taken, or some thread is already on the way to
admit or to wake a writer. A sleeping reader waits for an active writer or for
a broadcast about to come.
-/

namespace SamplePrograms.RwLock
open Threads

variable {T : Type*}

/-- The thread will take the lock as a writer or signal a writer, unless it
finds the lock taken or no writer registered. -/
def Forwards : Status Point Mutex Gate → Prop
  | .running .wLockTest | .running .wLockDeregister | .running .wLockCount => True
  | .running .rUnlockTest | .running .rUnlockSignal => True
  | .running .wUnlockTest | .running .wUnlockSignal => True
  | .woken _ .wLockTest => True
  | _ => False

/-- The thread has given the lock back as a writer and will broadcast to the readers. -/
def Broadcasts : Status Point Mutex Gate → Prop
  | .running .wUnlockTest | .running .wUnlockSignal | .running .wUnlockBroadcast => True
  | _ => False

theorem forwards_wake (st : Status Point Mutex Gate) (h : Forwards st) : Forwards st.wake := by
  cases st with
  | running p => exact h
  | woken m n => exact h
  | blocked c m n => exact h.elim

theorem broadcasts_wake (st : Status Point Mutex Gate) (h : Broadcasts st) :
    Broadcasts st.wake := by
  cases st with
  | running p => exact h
  | woken m n => exact h
  | blocked c m n => exact h.elim

/-- The two gates are served. -/
structure GatesServed (s : Counters) (status : T → Status Point Mutex Gate) : Prop where
  writers : Served .writerGate (0 < s.noOfReaders ∨ 0 < s.noOfWriters) Forwards status
  readers : Served .readerGate (0 < s.noOfWriters) Broadcasts status

variable [Fintype T] [DecidableEq T]

/-- A sleeping writer is in the loop of `w_lock`. -/
theorem sleeping_writer {σ : Config T Counters Point Mutex Gate} (h : (rwLock T).Reachable σ)
    {t : T} (hs : (σ.status t).SleepsOn .writerGate) :
    σ.status t = .blocked .writerGate .classMutex .wLockTest := by
  have hw := h.waits t
  cases hst : σ.status t with
  | running p => rw [hst] at hs; exact hs.elim
  | woken m n => rw [hst] at hs; exact hs.elim
  | blocked c m n =>
      rw [hst] at hs hw
      cases hs
      obtain ⟨p, hp⟩ := hw
      cases p <;> cases hp
      rfl

/-- Without registered writers no writer sleeps. -/
theorem no_sleeping_writer {σ : Config T Counters Point Mutex Gate}
    (h : (rwLock T).Reachable σ) (hq : ¬ 0 < σ.shared.noOfWritersWaiting) (u : T) :
    ¬ (σ.status u).SleepsOn .writerGate := by
  intro hu
  have hs : σ.phases stage u = .waiting := by
    rw [Config.phases_apply, sleeping_writer h hu]
    rfl
  have hp := (tally_pos_iff Stage.waiting (σ.phases stage)).mpr ⟨u, hs⟩
  have ha := (reachable_agrees h).waiting
  omega

/-- A statement keeps the gates served: it leaves the lock taken, or takes up the
duty, or has found that no writer is registered. -/
theorem GatesServed.exec {σ : Config T Counters Point Mutex Gate}
    (h : GatesServed σ.shared σ.status) (hr : (rwLock T).Reachable σ) {t : T} {p p' : Point}
    {f : Counters → List (Counters × Point)} {s' : Counters}
    (here : σ.status t = .running p) (hc : (rwLock T).code t p = .exec f)
    (out : (s', p') ∈ f σ.shared) :
    GatesServed s' (Function.update σ.status t (.running p')) := by
  have hq := no_sleeping_writer (hr.move (Or.inl (.exec here hc out)))
  obtain ⟨h1, h2, -, -⟩ := reachable_agrees hr
  cases p <;> cases hc
  all_goals
    simp only [List.mem_cons, List.not_mem_nil, Prod.mk.injEq] at out
    rcases out with ⟨rfl, hp⟩ | ⟨rfl, hp⟩ | hf
  any_goals contradiction
  all_goals
    try split_ifs at hp
    all_goals
      subst hp
      constructor
      · first
        | exact .of_mover trivial
        | exact h.writers.of_other id (by rw [here]; exact id) id
        | exact .of_condition (by omega)
        | exact .of_condition (by dsimp only; omega)
        | exact (em (0 < σ.shared.noOfReaders)).elim (fun hp => .of_condition (Or.inl hp))
            fun hp => .of_nobody (hq (by dsimp only; omega))
      · first
        | exact .of_mover trivial
        | exact h.readers.of_other id (by rw [here]; exact id) id
        | exact .of_condition (by omega)
        | exact .of_condition (by dsimp only; omega)

/-- Every move keeps the gates served. -/
theorem GatesServed.move {σ τ : Config T Counters Point Mutex Gate}
    (h : GatesServed σ.shared σ.status) (hr : (rwLock T).Reachable σ)
    (hm : (rwLock T).Move σ τ) : GatesServed τ.shared τ.status := by
  rcases hm with st | sp
  · cases st with
    | exec here code out => exact h.exec hr here code out
    | @lock t p m n here code free =>
        constructor
        · exact h.writers.of_other id (by rw [here]; cases p <;> cases code <;> exact id) id
        · exact h.readers.of_other id (by rw [here]; cases p <;> cases code <;> exact id) id
    | @unlock t p m n here code held =>
        constructor
        · exact h.writers.of_other id (by rw [here]; cases p <;> cases code <;> exact id) id
        · exact h.readers.of_other id (by rw [here]; cases p <;> cases code <;> exact id) id
    | @wait t p c m n here code held =>
        -- a thread goes to sleep because it has found the lock taken
        have hk := asserts.at_point disciplined hr here
        cases p <;> cases code
        · exact ⟨h.writers.of_other id (by rw [here]; exact id) (by simp), .of_condition hk⟩
        · exact ⟨.of_condition hk, h.readers.of_other id (by rw [here]; exact id) (by simp)⟩
    | @resume t m n here free =>
        have hw := hr.waits t
        rw [here] at hw
        obtain ⟨p, c, code⟩ := hw
        refine ⟨?_, h.readers.of_other id (by rw [here]; exact id) id⟩
        cases p <;> cases code
        · exact h.writers.of_other id (by rw [here]; exact id) id
        · exact .of_mover trivial
    | @signal t p c n W here code sub someone =>
        have hc : c = .writerGate := by cases p <;> cases code <;> rfl
        subst c
        constructor
        · refine .of_signal sub someone (fun u hu => ?_) (by rw [here]; exact id)
          rw [sleeping_writer hr hu]
          trivial
        · cases p <;> cases code
          · have hn : t ∉ W := fun hw => by simpa [here] using sub hw
            have hs : wakeAll W σ.status t = .running .rUnlockSignal := by simp [wakeAll, hn, here]
            exact (h.readers.wakeAll broadcasts_wake W).of_other id (by rw [hs]; exact id) id
          · exact .of_mover trivial
    | @broadcast t p c n here code =>
        have hc : c = .readerGate := by
          cases p <;> cases code
          rfl
        subst c
        refine ⟨?_, .of_broadcast⟩
        have hn : t ∉ σ.sleepers .readerGate := by simp [here]
        have hs : wakeAll (σ.sleepers .readerGate) σ.status t = .running p := by
          simp only [wakeAll, hn, if_false, here]
        refine (h.writers.wakeAll forwards_wake _).of_other id ?_ id
        rw [hs]
        cases p <;> cases code
        exact id
  · cases sp with
    | @wake t c m n here =>
        refine ⟨?_, h.readers.of_other id (by rw [here]; exact id) id⟩
        by_cases hc : c = .writerGate
        · subst c
          have hs := sleeping_writer hr (t := t) (by rw [here]; rfl)
          rw [here] at hs
          cases hs
          exact .of_mover trivial
        · exact h.writers.of_other id (by rw [here]; exact id) id

/-- In every run both gates are served. -/
theorem reachable_served {σ : Config T Counters Point Mutex Gate}
    (h : (rwLock T).Reachable σ) : GatesServed σ.shared σ.status :=
  h.invariant (I := fun σ => GatesServed σ.shared σ.status)
    ⟨.of_nobody fun _ => id, .of_nobody fun _ => id⟩ fun _ _ hr hi hm => hi.move hr hm

/-- The points inside a call of `r_lock` or `w_lock`. -/
def insideLock : Point → Prop
  | .rLock | .rLockTest | .rLockWait | .rLockCount | .rLockReturn => True
  | .wLock | .wLockRegister | .wLockTest | .wLockWait | .wLockDeregister | .wLockCount
  | .wLockReturn => True
  | _ => False

/-- When the lock is given back and `class_mutex` is free, no reader sleeps
without a notification, and if a writer does then another writer has been
woken inside `w_lock`. So the threads inside the lock calls are never all
asleep without a notification. -/
theorem lock_loses_no_wakeup {σ : Config T Counters Point Mutex Gate}
    (h : (rwLock T).Reachable σ) (no_reader : σ.shared.noOfReaders = 0)
    (no_writer : σ.shared.noOfWriters = 0) (free : σ.owner .classMutex = none) :
    (∀ t, ¬ (σ.status t).SleepsOn .readerGate) ∧
    (∀ t, (σ.status t).SleepsOn .writerGate →
      ∃ u, u ≠ t ∧ σ.status u = .woken .classMutex .wLockTest) ∧
    ¬ ((∃ t, insideLock (σ.status t).point) ∧
      ∀ t, insideLock (σ.status t).point → ∃ c, (σ.status t).SleepsOn c) := by
  have outside := fun t => (disciplined.owned h).not_holds (t := t) free
  obtain ⟨hw, hr⟩ := reachable_served h
  have readers : ∀ t, ¬ (σ.status t).SleepsOn .readerGate := by
    intro t ht
    rcases hr ⟨t, ht⟩ with hpos | ⟨u, hu⟩
    · omega
    · have ho := outside u
      cases hs : σ.status u with
      | running p => rw [hs] at ho hu; cases p <;> first | exact hu | exact ho trivial
      | blocked c m n => rw [hs] at hu; exact hu
      | woken m n => rw [hs] at hu; exact hu
  have writers : ∀ t, (σ.status t).SleepsOn .writerGate →
      ∃ u, u ≠ t ∧ σ.status u = .woken .classMutex .wLockTest := by
    intro t ht
    rcases hw ⟨t, ht⟩ with hpos | ⟨u, hu⟩
    · omega
    · have ho := outside u
      cases hs : σ.status u with
      | running p => rw [hs] at ho hu; cases p <;> first | exact hu.elim | exact (ho trivial).elim
      | blocked c m n => rw [hs] at hu; exact hu.elim
      | woken m n =>
          rw [hs] at hu
          refine ⟨u, ?_, by cases m; cases n <;> first | exact hs | exact hu.elim⟩
          rintro rfl
          rw [hs] at ht
          exact ht
  refine ⟨readers, writers, fun ⟨⟨t, ht⟩, all⟩ => ?_⟩
  obtain ⟨c, hc⟩ := all t ht
  cases c with
  | readerGate => exact readers t hc
  | writerGate =>
      obtain ⟨u, -, hu⟩ := writers t hc
      obtain ⟨c, hc⟩ := all u (by rw [hu]; trivial)
      rw [hu] at hc
      exact hc

/-- A writer gives the lock back while another writer sleeps in `w_lock`. -/
def writerLeaves (w v : T) : List (T × Nat) :=
  (w, 1) :: List.replicate 6 (w, 0) ++ (v, 1) :: List.replicate 4 (v, 0) ++ List.replicate 7 (w, 0)

theorem lock_loses_no_wakeup_writerLeaves : ∃ σ,
    (rwLock (Fin 2)).runSchedule (rwLock (Fin 2)).initial (writerLeaves 0 1) = some σ ∧
      σ.status 1 = .woken .classMutex .wLockTest ∧
      ¬ ((∃ t, insideLock (σ.status t).point) ∧
        ∀ t, insideLock (σ.status t).point → ∃ c, (σ.status t).SleepsOn c) := by
  have h := lock_loses_no_wakeup
    (Program.runSchedule_reachable (rwLock (Fin 2)) (writerLeaves 0 1) rfl) rfl rfl rfl
  exact ⟨_, rfl, rfl, h.2.2⟩

end SamplePrograms.RwLock
