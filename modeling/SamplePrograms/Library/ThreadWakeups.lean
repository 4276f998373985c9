import SamplePrograms.Library.ThreadInvariants
import Mathlib.Logic.Basic

/-!
# Rules against lost wakeups

One signal cannot be followed through a run: the thread it wakes may find its
condition false again and go back to sleep. The rules speak instead of the
duty to care for the sleepers of a gate. While a thread sleeps on the gate,
either a condition on the shared state holds, which will be falsified by a
thread that must then signal, or some thread carries the duty already.

The counting rules are for a demand of more than one unit, such as queued jobs.
While a thread sleeps on the gate, enough threads are awake to meet the demand.
-/

namespace SamplePrograms.Threads

section Duty
variable {T P M C : Type*}

/-- While a thread sleeps on the gate, the condition holds or a thread has the duty. -/
def Served (c : C) (cond : Prop) (duty : Status P M C → Prop) (status : T → Status P M C) : Prop :=
  (∃ t, (status t).SleepsOn c) → cond ∨ ∃ t, duty (status t)

variable {c : C} {cond cond' : Prop} {duty : Status P M C → Prop} {status : T → Status P M C}

theorem Served.of_condition (h : cond) : Served c cond duty status := fun _ => Or.inl h

theorem Served.of_nobody (h : ∀ t, ¬ (status t).SleepsOn c) : Served c cond duty status :=
  fun ⟨t, ht⟩ => (h t ht).elim

variable [DecidableEq T]

/-- The thread that moved has the duty. -/
theorem Served.of_mover {t : T} {st : Status P M C} (h : duty st) :
    Served c cond duty (Function.update status t st) :=
  fun _ => Or.inr ⟨t, by simpa using h⟩

/-- The thread that moved had no duty and does not sleep on the gate. -/
theorem Served.of_other (h : Served c cond duty status) (mono : cond → cond') {t : T}
    {st : Status P M C} (old : ¬ duty (status t)) (awake : ¬ st.SleepsOn c) :
    Served c cond' duty (Function.update status t st) := by
  rintro ⟨u, hu⟩
  have hs := ((sleepsOn_update awake u).mp hu).2
  rcases h ⟨u, hs⟩ with hc | ⟨v, hv⟩
  · exact Or.inl (mono hc)
  · have hvt : v ≠ t := fun he => old (he ▸ hv)
    exact Or.inr ⟨v, by simpa [hvt] using hv⟩

/-- Notifications on any gate keep a duty that survives waking. -/
theorem Served.wakeAll (h : Served c cond duty status) (stable : ∀ st, duty st → duty st.wake)
    (W : Finset T) : Served c cond duty (wakeAll W status) := by
  rintro ⟨u, hu⟩
  have hs := ((sleepsOn_wakeAll W status c u).mp hu).2
  refine (h ⟨u, hs⟩).imp_right fun ⟨v, hv⟩ => ⟨v, ?_⟩
  by_cases hw : v ∈ W
  · simpa [Threads.wakeAll, hw] using stable _ hv
  · simpa [Threads.wakeAll, hw] using hv

variable [Fintype T] [DecidableEq C] {S : Type*} {σ : Config T S P M C}

/-- A signal hands the duty to a thread it wakes. -/
theorem Served.of_signal {W : Finset T} (sub : W ⊆ σ.sleepers c)
    (someone : (σ.sleepers c).Nonempty → W.Nonempty)
    (woken : ∀ t, (σ.status t).SleepsOn c → duty (σ.status t).wake) {t : T} {n : P}
    (self : ¬ (σ.status t).SleepsOn c) :
    Served c cond duty (Function.update (Threads.wakeAll W σ.status) t (.running n)) := by
  rintro ⟨u, hu⟩
  have hs := ((sleepsOn_wakeAll _ _ _ _).mp ((sleepsOn_update id u).mp hu).2).2
  obtain ⟨w, hw⟩ := someone ⟨u, (σ.mem_sleepers c u).mpr hs⟩
  have hsw := (σ.mem_sleepers c w).mp (sub hw)
  have hwt : w ≠ t := fun he => self (he ▸ hsw)
  exact Or.inr ⟨w, by simpa [hwt, Threads.wakeAll, hw] using woken w hsw⟩

/-- After a broadcast nobody sleeps on the gate. -/
theorem Served.of_broadcast {t : T} {n : P} : Served c cond duty
    (Function.update (Threads.wakeAll (σ.sleepers c) σ.status) t (.running n)) := by
  apply Served.of_nobody
  intro u hu
  have hs := (sleepsOn_wakeAll _ _ _ _).mp ((sleepsOn_update id u).mp hu).2
  exact hs.1 ((σ.mem_sleepers c u).mpr hs.2)

end Duty

section Demand
variable {T P M C : Type*} [Fintype T]

/-- While a thread sleeps on the gate, as many threads care for it as are in demand. -/
def Covered (c : C) (demand : ℕ) (cares : Status P M C → Bool) (status : T → Status P M C) :
    Prop :=
  (∃ t, (status t).SleepsOn c) → demand ≤ tally true fun t => cares (status t)

variable {c : C} {demand demand' : ℕ} {cares : Status P M C → Bool} {status : T → Status P M C}

theorem Covered.of_zero (h : demand = 0) : Covered c demand cares status :=
  fun _ => h ▸ Nat.zero_le _

variable [DecidableEq T]

/-- The demand may grow by what the thread that moved adds to the care. -/
theorem Covered.update (h : Covered c demand cares status) {t : T} {st : Status P M C}
    (awake : ¬ st.SleepsOn c)
    (balance : demand' + (if cares (status t) = true then 1 else 0) ≤
      demand + (if cares st = true then 1 else 0)) :
    Covered c demand' cares (Function.update status t st) := by
  rintro ⟨u, hu⟩
  have hd := h ⟨u, ((sleepsOn_update awake u).mp hu).2⟩
  have moved : (fun u => cares (Function.update status t st u)) =
      Function.update (fun u => cares (status u)) t (cares st) :=
    Function.comp_update cares status t st
  have count := tally_update true (cares st) (fun u => cares (status u)) t
  rw [moved]
  omega

variable [DecidableEq C] {S : Type*} {σ : Config T S P M C}

/-- A signal adds the care of a thread it wakes. -/
theorem Covered.signal (h : Covered c demand cares σ.status) {W : Finset T}
    (sub : W ⊆ σ.sleepers c) (someone : (σ.sleepers c).Nonempty → W.Nonempty)
    (asleep : ∀ t, (σ.status t).SleepsOn c → cares (σ.status t) = false)
    (woken : ∀ t, (σ.status t).SleepsOn c → cares (σ.status t).wake = true) :
    Covered c (demand + 1) cares (Threads.wakeAll W σ.status) := by
  rintro ⟨u, hu⟩
  have hs := ((sleepsOn_wakeAll _ _ _ _).mp hu).2
  obtain ⟨w, hw⟩ := someone ⟨u, (σ.mem_sleepers c u).mpr hs⟩
  have sleeps {t : T} (ht : t ∈ W) : (σ.status t).SleepsOn c := (σ.mem_sleepers c t).mp (sub ht)
  refine (Nat.succ_le_succ (h ⟨u, hs⟩)).trans (Finset.card_lt_card ?_)
  rw [Finset.ssubset_iff_of_subset]
  · refine ⟨w, ?_, ?_⟩
    · refine Finset.mem_filter.mpr ⟨Finset.mem_univ _, ?_⟩
      simpa [Threads.wakeAll, hw] using woken w (sleeps hw)
    · simpa using asleep w (sleeps hw)
  · intro t ht
    have hc : cares (σ.status t) = true := by simpa using ht
    have hn : t ∉ W := fun hw => by simp [asleep t (sleeps hw)] at hc
    refine Finset.mem_filter.mpr ⟨Finset.mem_univ _, ?_⟩
    simpa [Threads.wakeAll, hn] using hc

end Demand

end SamplePrograms.Threads
