import Mathlib.Data.Nat.Notation
import SamplePrograms.Library.EventRuns

/-!
# The concurrent server of `sock`

With `-F` the server forks for each connection, and `WAIT_CHILD` keeps the parent from accepting the
next one until the child has told it that the terminal is free. `TELL_WAIT` blocks the signals of the
children once, before the first connection, and the first `WAIT_CHILD` restores the signal mask that
was in force before.

## Implementation notes

The signals are not blocked in the mask before `TELL_WAIT`. A signal that was sent is pending until
the handler runs, which may be at any point where it is not blocked, and a call of `sigsuspend`
returns after a handler. A child may take any time until it calls `TELL_PARENT`.
-/

namespace SamplePrograms.Sock.Server
open Events

/-- Where the parent is in `servopen` and `WAIT_CHILD`. -/
inductive Parent where
  | accepting
  | checking
  | suspending
  | suspended
  | leaving
  | restoring
  deriving DecidableEq

structure State where
  parent : Parent
  sigflag : Bool
  blocked : Bool
  pending : Bool
  forked : ℕ
  told : ℕ

/-- What can happen next: the parent accepts a connection and forks, a child calls `TELL_PARENT`,
the handler runs, or the parent goes on in `WAIT_CHILD`. -/
inductive Action where
  | accept
  | tell
  | handler
  | proceed

/-- `WAIT_CHILD`, step by step. -/
def waitChild (s : State) : Option State :=
  match s.parent with
  | .checking => some { s with parent := if s.sigflag then .leaving else .suspending }
  | .suspending => some { s with parent := .suspended }
  | .leaving => some { s with parent := .restoring, sigflag := false }
  | .restoring => some { s with parent := .accepting, blocked := false }
  | _ => none

def step (s : State) : Action → Option State
  | .accept =>
      if s.parent = .accepting then some { s with parent := .checking, forked := s.forked + 1 }
      else none
  | .tell => if s.told < s.forked then some { s with told := s.told + 1, pending := true } else none
  | .handler =>
      if s.pending ∧ (s.parent = .suspended ∨ ¬ s.blocked) then
        some { s with
          pending := false
          sigflag := true
          parent := if s.parent = .suspended then .checking else s.parent }
      else none
  | .proceed => waitChild s

/-- The server after `TELL_WAIT`. -/
def start : State := ⟨.accepting, false, true, false, 0, 0⟩

/-- The states of all runs. -/
abbrev Run : State → Prop := Reaches (fun s a s' => step s a = some s') (fun _ _ => True) start

/-- Nothing can happen any more. -/
def Stuck (s : State) : Prop := ∀ a, step s a = none

/-! ## The invariant -/

/-- The parent is in the loop of `WAIT_CHILD`. -/
def Parent.Waits (p : Parent) : Prop := p = .checking ∨ p = .suspending ∨ p = .suspended

/-- How far the signal of the last child has come. -/
inductive Phase (s : State) : Prop
  | idle (parent : s.parent = .accepting) (told : s.told = s.forked) (flag : s.sigflag = false)
      (pending : s.pending = false)
  | working (parent : s.parent.Waits) (told : s.told + 1 = s.forked) (flag : s.sigflag = false)
      (pending : s.pending = false)
  | sent (parent : s.parent.Waits) (told : s.told = s.forked) (flag : s.sigflag = false)
      (pending : s.pending = true)
  | caught (parent : s.parent.Waits ∨ s.parent = .leaving) (told : s.told = s.forked)
      (flag : s.sigflag = true) (pending : s.pending = false)
      (first : s.blocked = true → s.parent = .checking ∨ s.parent = .leaving)
  | cleared (parent : s.parent = .restoring) (told : s.told = s.forked) (flag : s.sigflag = false)
      (pending : s.pending = false)

/-- The signals stay blocked until the first `WAIT_CHILD` returns. -/
structure Inv (s : State) : Prop where
  phase : Phase s
  blocked : s.blocked = true ↔ s.forked = 0 ∨ s.forked = 1 ∧ s.parent ≠ .accepting
  idle : s.forked = 0 → s.parent = .accepting

theorem inv_start : Inv start where
  phase := .idle rfl rfl rfl rfl
  blocked := by decide
  idle _ := rfl

theorem Inv.accept {s s' : State} (inv : Inv s) (h : step s .accept = some s') : Inv s' := by
  simp only [step, Option.ite_none_right_eq_some, Option.some.injEq] at h
  obtain ⟨accepting, rfl⟩ := h
  cases inv.phase with
  | idle parent told flag pending =>
      refine ⟨.working (.inl rfl) (congrArg (· + 1) told) flag pending, ?_, by simp⟩
      rw [inv.blocked]
      simp [accepting]
  | working parent | sent parent => simp [accepting, Parent.Waits] at parent
  | caught parent => simp [accepting, Parent.Waits] at parent
  | cleared parent => simp [accepting] at parent

theorem Inv.tell {s s' : State} (inv : Inv s) (h : step s .tell = some s') : Inv s' := by
  simp only [step, Option.ite_none_right_eq_some, Option.some.injEq] at h
  obtain ⟨fewer, rfl⟩ := h
  cases inv.phase with
  | working parent told flag pending => exact ⟨.sent parent told flag rfl, inv.blocked, inv.idle⟩
  | idle _ told | sent _ told | caught _ told | cleared _ told => omega

theorem Parent.Waits.ne_accepting {p : Parent} (waits : p.Waits) : p ≠ .accepting := by
  obtain rfl | rfl | rfl := waits <;> decide

/-- A step within `WAIT_CHILD` keeps what depends on the number of connections. -/
theorem Inv.of_phase {s s' : State} (inv : Inv s) (phase : Phase s') (parent : s.parent ≠ .accepting)
    (parent' : s'.parent ≠ .accepting) (blocked : s'.blocked = s.blocked)
    (forked : s'.forked = s.forked) : Inv s' where
  phase := phase
  blocked := by
    rw [blocked, forked, inv.blocked]
    simp only [ne_eq, parent, parent', not_false_eq_true]
  idle none := absurd (inv.idle (forked ▸ none)) parent

theorem Inv.handler {s s' : State} (inv : Inv s) (h : step s .handler = some s') : Inv s' := by
  simp only [step, Option.ite_none_right_eq_some, Option.some.injEq] at h
  obtain ⟨⟨sent, open'⟩, rfl⟩ := h
  cases inv.phase with
  | sent parent told flag pending =>
      have waits := parent.ne_accepting
      by_cases suspended : s.parent = .suspended
      · refine inv.of_phase (.caught (.inl (.inl ?_)) told rfl rfl fun _ => .inl ?_) waits ?_ rfl rfl
        · simp [suspended]
        · simp [suspended]
        · simp [suspended]
      · have unblocked : s.blocked = false := by simpa [suspended] using open'
        refine inv.of_phase (.caught (.inl ?_) told rfl rfl fun h => ?_) waits ?_ rfl rfl
        · simpa [suspended] using parent
        · rw [unblocked] at h
          cases h
        · simpa [suspended] using waits
  | idle _ _ _ pending | working _ _ _ pending | caught _ _ _ pending | cleared _ _ _ pending =>
      rw [pending] at sent
      cases sent

theorem Inv.proceed {s s' : State} (inv : Inv s) (h : step s .proceed = some s') : Inv s' := by
  simp only [step, waitChild] at h
  cases at' : s.parent with
  | accepting | suspended => simp [at'] at h
  | checking =>
      simp only [at', Option.some.injEq] at h
      subst h
      have busy : s.parent ≠ .accepting := by simp [at']
      cases inv.phase with
      | idle parent | cleared parent => simp [at'] at parent
      | working _ told flag pending =>
          exact inv.of_phase (.working (by simp [flag, Parent.Waits]) told flag pending) busy
            (by simp [flag]) rfl rfl
      | sent _ told flag pending =>
          exact inv.of_phase (.sent (by simp [flag, Parent.Waits]) told flag pending) busy
            (by simp [flag]) rfl rfl
      | caught _ told flag pending first =>
          exact inv.of_phase (.caught (by simp [flag]) told flag pending (by simp [flag])) busy
            (by simp [flag]) rfl rfl
  | suspending =>
      simp only [at', Option.some.injEq] at h
      subst h
      have busy : s.parent ≠ .accepting := by simp [at']
      cases inv.phase with
      | idle parent | cleared parent => simp [at'] at parent
      | working _ told flag pending =>
          exact inv.of_phase (.working (.inr (.inr rfl)) told flag pending) busy (by simp) rfl rfl
      | sent _ told flag pending =>
          exact inv.of_phase (.sent (.inr (.inr rfl)) told flag pending) busy (by simp) rfl rfl
      | caught _ told flag pending first =>
          have unblocked : s.blocked = false :=
            Bool.eq_false_iff.mpr fun blocked => by simpa [at'] using first blocked
          exact inv.of_phase (.caught (.inl (.inr (.inr rfl))) told flag pending
            (by simp [unblocked])) busy (by simp) rfl rfl
  | leaving =>
      simp only [at', Option.some.injEq] at h
      subst h
      have busy : s.parent ≠ .accepting := by simp [at']
      cases inv.phase with
      | idle parent | cleared parent => simp [at'] at parent
      | working parent | sent parent => simp [at', Parent.Waits] at parent
      | caught _ told flag pending first =>
          exact inv.of_phase (.cleared rfl told rfl pending) busy (by simp) rfl rfl
  | restoring =>
      simp only [at', Option.some.injEq] at h
      subst h
      cases inv.phase with
      | idle parent => simp [at'] at parent
      | working parent | sent parent => simp [at', Parent.Waits] at parent
      | caught parent => simp [at', Parent.Waits] at parent
      | cleared _ told flag pending =>
          have some' : s.forked ≠ 0 := fun none => by simpa [at'] using inv.idle none
          exact ⟨.idle rfl told flag pending, by simpa using some', fun _ => rfl⟩

theorem inv_of_run {s : State} (run : Run s) : Inv s :=
  run.invariant inv_start fun s a s' inv _ h => by
    cases a with
    | accept => exact inv.accept h
    | tell => exact inv.tell h
    | handler => exact inv.handler h
    | proceed => exact inv.proceed h

/-- The parent accepts a connection only when all children have told it that they are done with the
terminal, and then no signal is left over. -/
theorem accepting_told {s : State} (run : Run s) (accepting : s.parent = .accepting) :
    s.told = s.forked ∧ s.sigflag = false ∧ s.pending = false := by
  cases (inv_of_run run).phase with
  | idle _ told flag pending => exact ⟨told, flag, pending⟩
  | working parent | sent parent => exact absurd accepting parent.ne_accepting
  | caught parent => simp [accepting, Parent.Waits] at parent
  | cleared parent => simp [accepting] at parent

theorem accepting_told_one : ∃ s, Run s ∧ s.forked = 1 ∧ s.told = s.forked ∧
    s.sigflag = false ∧ s.pending = false := by
  have steps : runWhile step (fun _ _ => True) start
      [.accept, .tell, .proceed, .proceed, .handler, .proceed, .proceed, .proceed] =
        some ⟨.accepting, false, false, false, 1, 1⟩ := rfl
  have run : Run ⟨.accepting, false, false, false, 1, 1⟩ := Reaches.start.of_runWhile steps
  exact ⟨_, run, rfl, accepting_told run rfl⟩

/-! ## The lost signal -/

/-- A run is stuck when the handler has run between the check of `sigflag` and `sigsuspend`. -/
theorem Inv.stuck_iff {s : State} (inv : Inv s) :
    Stuck s ↔ s.parent = .suspended ∧ s.sigflag = true := by
  constructor
  · intro stuck
    have waiting : ∀ p : Parent, s.parent = p → p.Waits → p = .suspended := by
      intro p parent waits
      have next := stuck .proceed
      obtain rfl | rfl | rfl := waits
      · simp [step, waitChild, parent] at next
      · simp [step, waitChild, parent] at next
      · rfl
    cases inv.phase with
    | idle parent =>
        have next := stuck .accept
        simp [step, parent] at next
    | working _ told =>
        have next := stuck .tell
        have fewer : s.told < s.forked := by omega
        simp [step, fewer] at next
    | sent parent told flag pending =>
        have next := stuck .handler
        simp [step, pending, waiting _ rfl parent] at next
    | caught parent told flag =>
        obtain parent | parent := parent
        · exact ⟨waiting _ rfl parent, flag⟩
        · have next := stuck .proceed
          simp [step, waitChild, parent] at next
    | cleared parent =>
        have next := stuck .proceed
        simp [step, waitChild, parent] at next
  · rintro ⟨suspended, lost⟩
    cases inv.phase with
    | idle _ _ flag | working _ _ flag | sent _ _ flag | cleared _ _ flag => simp [flag] at lost
    | caught _ told _ pending =>
        intro a
        cases a with
        | accept => simp [step, suspended]
        | tell => simp [step, told]
        | handler => simp [step, pending]
        | proceed => simp [step, waitChild, suspended]

/-- A round in which the handler runs while the parent is suspended. -/
theorem Run.round {s : State} (run : Run s) (idle : s.parent = .accepting) :
    Run ⟨.accepting, false, false, false, s.forked + 1, s.forked + 1⟩ := by
  obtain ⟨told, flag, pending⟩ := accepting_told run idle
  have steps : runWhile step (fun _ _ => True) s
      [.accept, .proceed, .proceed, .tell, .handler, .proceed, .proceed, .proceed] =
        some ⟨.accepting, false, false, false, s.forked + 1, s.forked + 1⟩ := by
    simp [runWhile, step, waitChild, idle, told, flag]
  exact run.of_runWhile steps

/-- A later round in which the handler runs before the parent is suspended. -/
theorem Run.lost {n : ℕ} (run : Run ⟨.accepting, false, false, false, n, n⟩) :
    Run ⟨.suspended, true, false, false, n + 1, n + 1⟩ := by
  have steps : runWhile step (fun _ _ => True) ⟨.accepting, false, false, false, n, n⟩
      [.accept, .proceed, .tell, .handler, .proceed] =
        some ⟨.suspended, true, false, false, n + 1, n + 1⟩ := by
    simp [runWhile, step, waitChild]
  exact run.of_runWhile steps

/-- The rounds before go well. -/
theorem run_rounds (n : ℕ) : Run ⟨.accepting, false, false, false, n + 1, n + 1⟩ := by
  induction n with
  | zero => exact Run.round .start rfl
  | succ n ih => exact Run.round ih rfl

/-- The server can get stuck at every connection but the first. -/
theorem stuck_forked_iff (k : ℕ) : (∃ s, Run s ∧ Stuck s ∧ s.forked = k) ↔ 2 ≤ k := by
  constructor
  · rintro ⟨s, run, stuck, rfl⟩
    have inv := inv_of_run run
    obtain ⟨suspended, lost⟩ := inv.stuck_iff.mp stuck
    have blocked : s.blocked ≠ true := by
      intro blocked
      cases inv.phase with
      | idle _ _ flag | working _ _ flag | sent _ _ flag | cleared _ _ flag => simp [flag] at lost
      | caught _ _ _ _ first => simpa [suspended] using first blocked
    have some' : ¬ (s.forked = 0 ∨ s.forked = 1 ∧ s.parent ≠ .accepting) :=
      fun few => blocked (inv.blocked.mpr few)
    simp only [suspended, ne_eq, reduceCtorEq, not_false_eq_true, and_true] at some'
    omega
  · intro two
    obtain ⟨n, rfl⟩ : ∃ n, k = n + 2 := ⟨k - 2, by omega⟩
    have run := (run_rounds n).lost
    exact ⟨_, run, (inv_of_run run).stuck_iff.mpr ⟨rfl, rfl⟩, rfl⟩

end SamplePrograms.Sock.Server
