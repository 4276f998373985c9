import SamplePrograms.FifoRwLock.Exclusion

/-!
# Waiters of `FifoReadWriteLock`

Every thread in `condition.await` has found the flag set, and only the thread
that set it clears it. Clearing the flag notifies nobody, because `signalAll`
throws without the lock. So a waiter is stranded when it sleeps, or is about to
sleep, at the moment the flag is cleared.
-/

namespace SamplePrograms.FifoRwLock
open Threads

variable {T : Type*}

/-- The points outside the four methods. -/
def outsideMethods (p : Point) : Prop :=
  p = .idle ∨ p = .reading ∨ p = .writing ∨ p = .ended

/-- The lock is given back and every thread in a method is in `await`, but some
thread waits there without having been notified. -/
def Strands (σ : Config T Fields Point Mutex Gate) : Prop :=
  σ.shared.writer = false ∧ σ.shared.readAcquires = σ.shared.readReleases ∧
    (∀ t p, σ.status t = .running p → outsideMethods p) ∧
    ∃ t, (σ.status t).SleepsOn .condition

/-- The thread waits for the flag or is about to, with the flag found set. -/
def Awaits (st : Status Point Mutex Gate) : Prop :=
  st.SleepsOn .condition ∨ st = .running .readLockAwait ∨ st = .running .writeLockAwait

instance (st : Status Point Mutex Gate) : Decidable (Awaits st) :=
  inferInstanceAs (Decidable (_ ∨ _ ∨ _))

/-- A move that clears the flag finds no thread waiting. -/
def ClearsUnawaited (σ τ : Config T Fields Point Mutex Gate) : Prop :=
  σ.shared.writer = true → τ.shared.writer = false → ∀ t, ¬ Awaits (σ.status t)

theorem awaits_wake {st : Status Point Mutex Gate} (h : Awaits st.wake) : Awaits st := by
  cases st with
  | running p => exact h
  | woken m n => exact h
  | blocked c m n => exact Or.inl rfl

variable [Fintype T] [DecidableEq T]

omit [Fintype T] in
/-- A thread that moves to a point away from the waits is the only one whose
status changes, and it does not wait. -/
theorem awaits_update {status : T → Status Point Mutex Gate} {t u : T}
    {st : Status Point Mutex Gate} (moved : ¬ Awaits st)
    (h : Awaits (Function.update status t st u)) : Awaits (status u) := by
  by_cases hu : u = t
  · subst u
    rw [Function.update_self] at h
    exact absurd h moved
  · rwa [Function.update_of_ne hu] at h

/-- A thread begins to wait only in a state with the flag set. -/
theorem begins_waiting {σ τ : Config T Fields Point Mutex Gate} (h : (fifoLock T).Reachable σ)
    (m : (fifoLock T).Move σ τ) {u : T} (before : ¬ Awaits (σ.status u))
    (after : Awaits (τ.status u)) : τ.shared.writer = true := by
  rcases m with st | sp
  · cases st with
    | @exec t p f s' p' here hc out =>
        by_contra clear
        refine before (awaits_update (fun moved => clear ?_) after)
        cases p <;> cases hc
        all_goals
          simp only [List.mem_cons, List.not_mem_nil, Prod.mk.injEq] at out
          rcases out with ⟨rfl, hp⟩ | ⟨rfl, hp⟩ | hf
        any_goals contradiction
        all_goals
          try split_ifs at hp with set
          all_goals
            subst hp
            first | exact set | simp [Awaits] at moved
    | @lock t p m n here code free =>
        refine absurd (awaits_update ?_ after) before
        cases p <;> cases code <;> simp [Awaits]
    | @unlock t p m n here code held =>
        refine absurd (awaits_update ?_ after) before
        cases p <;> cases code <;> simp [Awaits]
    | @wait t p c m n here code held =>
        -- a thread that was not waiting for the flag waits for the readers, with its own flag set
        by_cases hu : u = t
        · subst u
          rw [here] at before
          cases p <;> cases code
          · exact absurd (Or.inr (Or.inl rfl)) before
          · exact absurd (Or.inr (Or.inr rfl)) before
          · refine (writer_iff_announced h).mpr ⟨t, Or.inl ?_⟩
            rw [Config.phases_apply, here]
            rfl
        · refine absurd ?_ before
          simpa [hu] using after
    | @resume t m n here free =>
        refine absurd (awaits_update ?_ after) before
        have waits := h.waits t
        rw [here] at waits
        obtain ⟨p, c, hp⟩ := waits
        cases p <;> cases hp <;> simp [Awaits]
    | @signal t p c n W here code sub someone =>
        cases p <;> cases code
    | @broadcast t p c n here code =>
        have old : Awaits (wakeAll (σ.sleepers c) σ.status u) := by
          refine awaits_update ?_ after
          cases p <;> cases code
          simp [Awaits]
        refine absurd ?_ before
        rw [wakeAll] at old
        split_ifs at old with hw
        · exact awaits_wake old
        · exact old
  · cases sp with
    | @wake t c m n here =>
        exact absurd (awaits_update (by simp [Awaits]) after) before

/-- In a run that clears the flag only while nobody waits for it, nobody waits
for a clear flag. -/
theorem unawaited_while_clear {σ : Config T Fields Point Mutex Gate}
    (h : (fifoLock T).ReachableVia ClearsUnawaited σ) :
    σ.shared.writer = false → ∀ t, ¬ Awaits (σ.status t) := by
  apply h.invariant (I := fun σ => σ.shared.writer = false → ∀ t, ¬ Awaits (σ.status t))
  · intro _ t
    simp [Awaits, Program.initial, fifoLock]
  · intro σ τ hr hok hi m clear t after
    have before : ¬ Awaits (σ.status t) := by
      cases hs : σ.shared.writer with
      | false => exact hi hs t
      | true => exact hok hs clear t
    have set := begins_waiting hr m before after
    rw [set] at clear
    contradiction

/-- In every run in which the flag is cleared only while no thread waits without
a notification and none is about to, having found the flag set, no thread is
stranded. -/
theorem fifoLock_strands_nobody {σ : Config T Fields Point Mutex Gate}
    (h : (fifoLock T).ReachableVia ClearsUnawaited σ) : ¬ Strands σ := by
  rintro ⟨clear, -, -, t, asleep⟩
  exact unawaited_while_clear h clear t (Or.inl asleep)

/-- A writer takes the lock and gives it back alone, and a second one follows. -/
def writersInTurn (w v : T) : List (T × Nat) :=
  (w, 1) :: List.replicate 8 (w, 0) ++ (v, 1) :: List.replicate 8 (v, 0)

theorem fifoLock_strands_nobody_writersInTurn : ∃ σ,
    (fifoLock (Fin 2)).runSchedule (fifoLock (Fin 2)).initial (writersInTurn 0 1) = some σ ∧
      σ.status 1 = .running .idle ∧ ¬ Strands σ := by
  let nobody (σ : Config (Fin 2) Fields Point Mutex Gate) : Prop := ∀ t, ¬ Awaits (σ.status t)
  have start : (fifoLock (Fin 2)).ReachableWhile nobody (fifoLock (Fin 2)).initial := .refl
  have run := Program.runSchedule_reachableWhile nobody (writersInTurn 0 1) start rfl (by decide)
  exact ⟨_, rfl, rfl, fifoLock_strands_nobody (run.via fun _ _ none _ _ => none)⟩

/-- A writer gives the lock back while another one waits for the flag. -/
def writerLeaves (w v : T) : List (T × Nat) :=
  (w, 1) :: List.replicate 6 (w, 0) ++ (v, 1) :: List.replicate 3 (v, 0) ++ List.replicate 2 (w, 0)

/-- The other writer is stranded. -/
theorem fifoLock_strands_waitingWriter :
    ¬ ∀ σ, (fifoLock (Fin 2)).Reachable σ → ¬ Strands σ := by
  intro all
  refine all _ (Program.runSchedule_reachable (fifoLock (Fin 2)) (writerLeaves 0 1) rfl)
    ⟨rfl, rfl, Fin.forall_fin_two.mpr ⟨fun p here => ?_, fun p here => ?_⟩, 1, rfl⟩
  · cases here
    exact Or.inl rfl
  · cases here

end SamplePrograms.FifoRwLock
