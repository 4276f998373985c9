import SamplePrograms.Library.ThreadInvariants
import Mathlib.Algebra.Order.BigOperators.Group.Finset

/-!
# A weight that bounds every run

Every point of the code gets a weight, which must fall along the code. A thread in a wait loop
gets back to the top of the loop after it was woken. So a notification makes the other threads
heavier, and the thread that sends it must become lighter by as much as they can gain together.

## Implementation notes

A thread that is to resume at a point weighs one more than at the point, and a thread that sleeps
weighs two less. The gap covers the test and the call of the wait in a loop. A spurious wakeup is
paid by nobody, so the bound counts them.
-/

namespace SamplePrograms.Threads

variable {T S P M C : Type*}

/-- What a thread still has to do. -/
def Status.weight (w : P → ℕ) : Status P M C → ℕ
  | .running p => w p
  | .blocked _ _ p => w p - 2
  | .woken _ p => w p + 1

@[simp] theorem Status.weight_running (w : P → ℕ) (p : P) :
    (running p : Status P M C).weight w = w p := rfl
@[simp] theorem Status.weight_blocked (w : P → ℕ) (c : C) (m : M) (p : P) :
    (blocked c m p).weight w = w p - 2 := rfl
@[simp] theorem Status.weight_woken (w : P → ℕ) (m : M) (p : P) :
    (woken m p : Status P M C).weight w = w p + 1 := rfl

theorem Status.weight_wake (w : P → ℕ) (st : Status P M C) :
    st.wake.weight w ≤ st.weight w + 3 := by
  cases st with
  | running p => exact Nat.le_add_right _ _
  | woken m p => exact Nat.le_add_right _ _
  | blocked c m p =>
      simp only [wake, weight_woken, weight_blocked]
      omega

/-- An action makes the thread lighter. A notification pays for the threads it may wake. -/
def Action.Lowers (w : P → ℕ) (pay : ℕ) (p : P) : Action S P M C → Prop
  | .exec f => ∀ s, ∀ o ∈ f s, w o.2 < w p
  | .lock _ n => w n < w p
  | .unlock _ n => w n < w p
  | .wait _ _ n => w n - 2 < w p
  | .signal _ n => w n + pay < w p
  | .broadcast _ n => w n + pay < w p
  | .halt => True

section Weight
variable [Fintype T]

def Config.weight (w : P → ℕ) (σ : Config T S P M C) : ℕ := ∑ t, (σ.status t).weight w

theorem weight_wakeAll [DecidableEq T] (w : P → ℕ) (W : Finset T) (status : T → Status P M C) :
    ∑ t, (wakeAll W status t).weight w ≤ ∑ t, (status t).weight w + 3 * Fintype.card T := by
  have each : ∀ t, (wakeAll W status t).weight w ≤ (status t).weight w + 3 := by
    intro t
    unfold wakeAll
    split_ifs
    · exact Status.weight_wake w _
    · exact Nat.le_add_right _ _
  calc
    ∑ t, (wakeAll W status t).weight w ≤ ∑ t, ((status t).weight w + 3) :=
      Finset.sum_le_sum fun t _ => each t
    _ = ∑ t, (status t).weight w + 3 * Fintype.card T := by
      rw [Finset.sum_add_distrib, Finset.sum_const_nat fun _ _ => rfl, Finset.card_univ,
        Nat.mul_comm]

variable [DecidableEq T]

/-- Only the weight of the thread that moves changes. -/
theorem weight_update (w : P → ℕ) (status : T → Status P M C) (t : T) (st : Status P M C) :
    ∑ u, (Function.update status t st u).weight w + (status t).weight w =
      ∑ u, (status u).weight w + st.weight w := by
  have others : ∑ u ∈ Finset.univ.erase t, (Function.update status t st u).weight w =
      ∑ u ∈ Finset.univ.erase t, (status u).weight w := by
    apply Finset.sum_congr rfl
    intro u hu
    rw [Function.update_of_ne (Finset.ne_of_mem_erase hu)]
  have before := Finset.add_sum_erase Finset.univ (fun u => (status u).weight w) (Finset.mem_univ t)
  have after := Finset.add_sum_erase Finset.univ
    (fun u => (Function.update status t st u).weight w) (Finset.mem_univ t)
  simp only [Function.update_self] at after
  omega

variable {w : P → ℕ}

/-- A notification, seen from the thread that sends it. -/
theorem weight_notify {σ : Config T S P M C} {t : T} {p n : P} (here : σ.status t = .running p)
    (pays : w n + 3 * Fintype.card T < w p) (W : Finset T) (asleep : t ∉ W) :
    ∑ u, (Function.update (wakeAll W σ.status) t (.running n) u).weight w < σ.weight w := by
  have woken := weight_wakeAll w W σ.status
  have moved := weight_update w (wakeAll W σ.status) t (.running n)
  have self : wakeAll W σ.status t = .running p := by rw [wakeAll, if_neg asleep, here]
  rw [self, Status.weight_running, Status.weight_running] at moved
  unfold Config.weight
  omega

theorem Program.Spurious.weight_le {σ τ : Config T S P M C} (h : Program.Spurious σ τ) :
    τ.weight w ≤ σ.weight w + 3 := by
  cases h with
  | @wake t c m n here =>
      have moved := weight_update w σ.status t (.woken m n)
      rw [here, Status.weight_blocked, Status.weight_woken] at moved
      change ∑ u, (Function.update σ.status t (.woken m n) u).weight w ≤
        ∑ u, (σ.status u).weight w + 3
      omega

variable [DecidableEq M] [DecidableEq C] {prog : Program T S P M C}

/-- Every step makes the threads lighter. -/
theorem Program.Step.weight_lt (lowers : ∀ t p, (prog.code t p).Lowers w (3 * Fintype.card T) p)
    {σ τ : Config T S P M C} (h : prog.Step σ τ) : τ.weight w < σ.weight w := by
  have alone {t : T} {st : Status P M C} (light : st.weight w < (σ.status t).weight w) :
      ∑ u, (Function.update σ.status t st u).weight w < σ.weight w := by
    have moved := weight_update w σ.status t st
    unfold Config.weight
    omega
  have awake {t : T} {p : P} {c : C} (here : σ.status t = .running p) : t ∉ σ.sleepers c := by
    simp [here]
  cases h with
  | @exec t p f s' p' here code out =>
      have hl := lowers t p
      rw [code] at hl
      exact alone (by rw [here]; exact hl _ _ out)
  | @lock t p m n here code free =>
      have hl := lowers t p
      rw [code] at hl
      exact alone (by rw [here]; exact hl)
  | @unlock t p m n here code held =>
      have hl := lowers t p
      rw [code] at hl
      exact alone (by rw [here]; exact hl)
  | @wait t p c m n here code held =>
      have hl := lowers t p
      rw [code] at hl
      exact alone (by rw [here]; exact hl)
  | @resume t m n here free => exact alone (by rw [here]; exact Nat.lt_succ_self _)
  | @signal t p c n W here code sub someone =>
      have hl := lowers t p
      rw [code] at hl
      exact weight_notify here hl W fun ht => awake here (sub ht)
  | @broadcast t p c n here code =>
      have hl := lowers t p
      rw [code] at hl
      exact weight_notify here hl _ (awake here)

open Classical in
/-- A run has no more moves than the threads weigh, but for the spurious wakeups. -/
theorem Program.length_le_weight
    (lowers : ∀ t p, (prog.code t p).Lowers w (3 * Fintype.card T) p)
    (run : ℕ → Config T S P M C) (n : ℕ) (moves : ∀ i < n, prog.Move (run i) (run (i + 1))) :
    n + (run n).weight w ≤ (run 0).weight w +
      4 * ((Finset.range n).filter fun i => ¬ prog.Step (run i) (run (i + 1))).card := by
  induction n with
  | zero => simp
  | succ n ih =>
      have before := ih fun i hi => moves i (Nat.lt_succ_of_lt hi)
      rw [Finset.range_add_one, Finset.filter_insert]
      by_cases step : prog.Step (run n) (run (n + 1))
      · have lighter := step.weight_lt lowers
        rw [if_neg (not_not_intro step)]
        omega
      · have heavier := ((moves n (Nat.lt_succ_self n)).resolve_left step).weight_le (w := w)
        rw [if_pos step, Finset.card_insert_of_notMem (by simp)]
        omega

/-- Without spurious wakeups a run has no more steps than the threads weigh. -/
theorem Program.steps_le_weight
    (lowers : ∀ t p, (prog.code t p).Lowers w (3 * Fintype.card T) p)
    (run : ℕ → Config T S P M C) (n : ℕ) (steps : ∀ i < n, prog.Step (run i) (run (i + 1))) :
    n ≤ (run 0).weight w := by
  have bound := length_le_weight lowers run n fun i hi => Or.inl (steps i hi)
  classical
  have none : (Finset.range n).filter (fun i => ¬ prog.Step (run i) (run (i + 1))) = ∅ :=
    Finset.filter_eq_empty_iff.mpr fun i hi => not_not_intro (steps i (Finset.mem_range.mp hi))
  simp only [none, Finset.card_empty] at bound
  omega

end Weight

/-! ## Threads that stop calling -/

section Retire
variable (prog : Program T S P M C) (rests : P → Bool)

/-- The program in which a thread at one of the points goes no further. -/
def Program.retire : Program T S P M C where
  code t p := if rests p then .halt else prog.code t p
  start := prog.start
  init := prog.init

variable {prog rests}

theorem Program.retire_code {t : T} {p : P} {a : Action S P M C} (ha : a ≠ .halt)
    (h : (prog.retire rests).code t p = a) : prog.code t p = a := by
  by_cases hp : rests p = true
  · simp only [retire, hp, if_true] at h
    exact absurd h.symm ha
  · simpa [retire, hp] using h

variable [Fintype T] [DecidableEq T] [DecidableEq M] [DecidableEq C]

theorem Program.Step.of_retire {σ τ : Config T S P M C} (h : (prog.retire rests).Step σ τ) :
    prog.Step σ τ := by
  cases h with
  | exec here code out => exact .exec here (retire_code nofun code) out
  | lock here code free => exact .lock here (retire_code nofun code) free
  | unlock here code held => exact .unlock here (retire_code nofun code) held
  | wait here code held => exact .wait here (retire_code nofun code) held
  | resume here free => exact .resume here free
  | signal here code sub someone => exact .signal here (retire_code nofun code) sub someone
  | broadcast here code => exact .broadcast here (retire_code nofun code)

omit [Fintype T] [DecidableEq T] [DecidableEq M] [DecidableEq C] in
theorem Program.Disciplined.retire {holds : P → M → Prop} (d : prog.Disciplined holds) :
    (prog.retire rests).Disciplined holds where
  start := d.start
  code := by
    intro t p
    by_cases hp : rests p = true
    · simp [Program.retire, hp, Action.Respects]
    · simpa [Program.retire, hp] using d.code t p

/-- What is reachable stays reachable when threads stop calling. -/
theorem Program.Reachable.retire {σ τ : Config T S P M C} (h : prog.Reachable σ)
    (run : Relation.ReflTransGen (prog.retire rests).Move σ τ) : prog.Reachable τ := by
  induction run with
  | refl => exact h
  | tail _ move ih => exact ih.move (move.imp_left Step.of_retire)

end Retire

end SamplePrograms.Threads
