import SamplePrograms.Library.Threads

/-!
# Executable schedules

A schedule names the thread that acts next and the outcome it takes when a statement has several.
Running a schedule computes one run of the program. For a single thread whose actions are known a
run can also be put together action by action.
-/

namespace SamplePrograms.Threads.Program

variable {T S P M C : Type*} [Fintype T] [DecidableEq T] [DecidableEq M] [DecidableEq C]
variable (prog : Program T S P M C)

/-- The next action of a running thread; a signal wakes every sleeping thread. -/
def act (σ : Config T S P M C) (t : T) (choice : Nat) : Action S P M C → Option (Config T S P M C)
  | .exec f => (f σ.shared)[choice]?.map fun o =>
      ⟨o.1, σ.owner, Function.update σ.status t (.running o.2)⟩
  | .lock m n => if σ.owner m = none then
      some ⟨σ.shared, Function.update σ.owner m (some t),
        Function.update σ.status t (.running n)⟩ else none
  | .unlock m n => if σ.owner m = some t then
      some ⟨σ.shared, Function.update σ.owner m none,
        Function.update σ.status t (.running n)⟩ else none
  | .wait c m n => if σ.owner m = some t then
      some ⟨σ.shared, Function.update σ.owner m none,
        Function.update σ.status t (.blocked c m n)⟩ else none
  | .signal c n => some ⟨σ.shared, σ.owner,
      Function.update (wakeAll (σ.sleepers c) σ.status) t (.running n)⟩
  | .broadcast c n => some ⟨σ.shared, σ.owner,
      Function.update (wakeAll (σ.sleepers c) σ.status) t (.running n)⟩
  | .halt => none

/-- The next step of a thread, if it has one. -/
def stepThread (σ : Config T S P M C) (t : T) (choice : Nat) : Option (Config T S P M C) :=
  match σ.status t with
  | .running p => act σ t choice (prog.code t p)
  | .blocked _ _ _ => none
  | .woken m n => if σ.owner m = none then
      some ⟨σ.shared, Function.update σ.owner m (some t),
        Function.update σ.status t (.running n)⟩ else none

/-- Run a schedule. -/
def runSchedule (σ : Config T S P M C) : List (T × Nat) → Option (Config T S P M C)
  | [] => some σ
  | (t, choice) :: rest =>
      match prog.stepThread σ t choice with
      | some τ => runSchedule τ rest
      | none => none

/-- The condition holds before every step of a schedule. -/
def scheduleMeets (ok : Config T S P M C → Prop) [DecidablePred ok] (σ : Config T S P M C) :
    List (T × Nat) → Bool
  | [] => true
  | (t, choice) :: rest =>
      match prog.stepThread σ t choice with
      | some τ => decide (ok σ) && scheduleMeets ok τ rest
      | none => false

variable {prog}

theorem stepThread_step {σ τ : Config T S P M C} {t : T} {choice : Nat}
    (h : prog.stepThread σ t choice = some τ) : prog.Step σ τ := by
  unfold stepThread at h
  cases here : σ.status t with
  | blocked c m p => simp [here] at h
  | woken m n =>
      simp only [here, Option.ite_none_right_eq_some, Option.some.injEq] at h
      obtain ⟨free, rfl⟩ := h
      exact .resume here free
  | running p =>
      rw [here] at h
      cases code : prog.code t p with
      | exec f =>
          simp only [code, act, Option.map_eq_some_iff] at h
          obtain ⟨⟨s', p'⟩, out, rfl⟩ := h
          exact .exec here code (List.mem_of_getElem? out)
      | lock m n =>
          simp only [code, act, Option.ite_none_right_eq_some, Option.some.injEq] at h
          obtain ⟨free, rfl⟩ := h
          exact .lock here code free
      | unlock m n =>
          simp only [code, act, Option.ite_none_right_eq_some, Option.some.injEq] at h
          obtain ⟨held, rfl⟩ := h
          exact .unlock here code held
      | wait c m n =>
          simp only [code, act, Option.ite_none_right_eq_some, Option.some.injEq] at h
          obtain ⟨held, rfl⟩ := h
          exact .wait here code held
      | signal c n =>
          simp only [code, act, Option.some.injEq] at h
          subst h
          exact .signal here code (Finset.Subset.refl _) id
      | broadcast c n =>
          simp only [code, act, Option.some.injEq] at h
          subst h
          exact .broadcast here code
      | halt => simp [code, act] at h

/-- A schedule computes a run. -/
theorem runSchedule_run {σ τ : Config T S P M C} {schedule : List (T × Nat)}
    (h : prog.runSchedule σ schedule = some τ) : Relation.ReflTransGen prog.Step σ τ := by
  induction schedule generalizing σ with
  | nil =>
      cases h
      exact .refl
  | cons item rest ih =>
      obtain ⟨t, choice⟩ := item
      simp only [runSchedule] at h
      cases hs : prog.stepThread σ t choice with
      | none => simp [hs] at h
      | some υ =>
          rw [hs] at h
          exact .head (stepThread_step hs) (ih h)

/-- A schedule from the initial configuration ends in a reachable configuration. -/
theorem runSchedule_reachable (prog : Program T S P M C) (schedule : List (T × Nat))
    {τ : Config T S P M C} (h : prog.runSchedule prog.initial schedule = some τ) :
    prog.Reachable τ :=
  Relation.ReflTransGen.mono (fun _ _ st => Or.inl st) _ _ (runSchedule_run h)

/-- A schedule whose steps meet a condition computes such a run. -/
theorem runSchedule_reachableWhile (ok : Config T S P M C → Prop) [DecidablePred ok]
    (schedule : List (T × Nat)) {σ τ : Config T S P M C} (from_initial : prog.ReachableWhile ok σ)
    (h : prog.runSchedule σ schedule = some τ) (meets : prog.scheduleMeets ok σ schedule = true) :
    prog.ReachableWhile ok τ := by
  induction schedule generalizing σ with
  | nil =>
      cases h
      exact from_initial
  | cons item rest ih =>
      obtain ⟨t, choice⟩ := item
      simp only [runSchedule] at h
      simp only [scheduleMeets] at meets
      cases hs : prog.stepThread σ t choice with
      | none => simp [hs] at h
      | some υ =>
          simp only [hs, Bool.and_eq_true, decide_eq_true_eq] at h meets
          exact ih (from_initial.tail ⟨meets.1, Or.inl (stepThread_step hs)⟩) h meets.2

/-! ## One thread after another -/

variable (prog) in
/-- A run brings the thread to a point, with the shared state and the owners of the mutexes. -/
def Arrives (t : T) (p : P) (s : S) (owner : M → Option T) : Prop :=
  ∃ σ, prog.Reachable σ ∧ σ.status t = .running p ∧ σ.shared = s ∧ σ.owner = owner

theorem arrives_start (t : T) : prog.Arrives t (prog.start t) prog.init fun _ => none :=
  ⟨prog.initial, .refl, rfl, rfl, rfl⟩

namespace Arrives
variable {t : T} {p n : P} {s : S} {owner : M → Option T}

theorem exec (h : prog.Arrives t p s owner) {f : S → List (S × P)} {s' : S}
    (code : prog.code t p = .exec f) (out : (s', n) ∈ f s) : prog.Arrives t n s' owner := by
  obtain ⟨σ, reached, here, rfl, rfl⟩ := h
  exact ⟨_, reached.move (Or.inl (.exec here code out)), Function.update_self _ _ _, rfl, rfl⟩

theorem lock (h : prog.Arrives t p s owner) {m : M} (code : prog.code t p = .lock m n)
    (free : owner m = none) : prog.Arrives t n s (Function.update owner m (some t)) := by
  obtain ⟨σ, reached, here, rfl, rfl⟩ := h
  exact ⟨_, reached.move (Or.inl (.lock here code free)), Function.update_self _ _ _, rfl, rfl⟩

/-- A signal may wake all threads that sleep. -/
theorem signal (h : prog.Arrives t p s owner) {c : C} (code : prog.code t p = .signal c n) :
    prog.Arrives t n s owner := by
  obtain ⟨σ, reached, here, rfl, rfl⟩ := h
  exact ⟨_, reached.move (Or.inl (.signal here code (Finset.Subset.refl _) id)),
    Function.update_self _ _ _, rfl, rfl⟩

end Arrives

end SamplePrograms.Threads.Program
