import SamplePrograms.Library.LockDiscipline
import Mathlib.Algebra.BigOperators.Group.Finset.Basic
import Mathlib.Data.Fintype.Card

/-!
# Invariant rules for threads

Two rules derive facts about every run from checks on single actions. The
phase rule forgets everything about a thread except its phase. When the
synchronisation actions keep phases, only statements change the shared state
and the phases. The assertion rule annotates points with facts about the
shared state that hold while the thread keeps a mutex. It needs the checks of
sequential code and that statements outside the mutex respect the facts.
-/

namespace SamplePrograms.Threads

variable {T S P M C Q : Type*}

/-! ## Phases -/

/-- Every action other than a statement keeps the phase. -/
def Action.Keeps (phase : P → Q) (p : P) : Action S P M C → Prop
  | .exec _ => True
  | .lock _ n => phase n = phase p
  | .unlock _ n => phase n = phase p
  | .wait _ _ n => phase n = phase p
  | .signal _ n => phase n = phase p
  | .broadcast _ n => phase n = phase p
  | .halt => True

/-- The phase of each thread. -/
def Config.phases (phase : P → Q) (σ : Config T S P M C) : T → Q :=
  fun t => phase (σ.status t).point

theorem Config.phases_apply (phase : P → Q) (σ : Config T S P M C) (t : T) :
    σ.phases phase t = phase (σ.status t).point := rfl

section Phases
variable [DecidableEq T]

theorem phases_update (phase : P → Q) (s : S) (owner : M → Option T)
    (status : T → Status P M C) (t : T) (st : Status P M C) :
    Config.phases phase ⟨s, owner, Function.update status t st⟩ =
      Function.update (fun u => phase (status u).point) t (phase st.point) := by
  funext u
  by_cases hu : u = t
  · subst u
    simp [Config.phases]
  · simp [Config.phases, hu]

/-- A thread that keeps its phase keeps all phases. -/
theorem phases_update_same (phase : P → Q) (s : S) (owner : M → Option T)
    (status : T → Status P M C) (t : T) (st : Status P M C)
    (h : phase st.point = phase (status t).point) :
    Config.phases phase ⟨s, owner, Function.update status t st⟩ =
      fun u => phase (status u).point := by
  rw [phases_update, h]
  exact Function.update_eq_self t _

variable [Fintype T] [DecidableEq M] [DecidableEq C]
variable {prog : Program T S P M C} {phase : P → Q}

/-- Only statements change the shared state and the phases. -/
theorem Program.Move.phases (keeps : ∀ t p, (prog.code t p).Keeps phase p)
    {σ τ : Config T S P M C} (h : prog.Move σ τ) :
    (τ.shared = σ.shared ∧ τ.phases phase = σ.phases phase) ∨
      ∃ t p f s' p', σ.status t = .running p ∧ prog.code t p = .exec f ∧
        (s', p') ∈ f σ.shared ∧ τ.shared = s' ∧
        τ.phases phase = Function.update (σ.phases phase) t (phase p') := by
  rcases h with st | sp
  · cases st with
    | @exec t p f s' p' here code out =>
        exact Or.inr ⟨t, p, f, s', p', here, code, out, rfl, phases_update _ _ _ _ _ _⟩
    | @lock t p m n here code free =>
        have hk := keeps t p
        rw [code] at hk
        exact Or.inl ⟨rfl, phases_update_same _ _ _ _ _ _ (by rw [here]; exact hk)⟩
    | @unlock t p m n here code held =>
        have hk := keeps t p
        rw [code] at hk
        exact Or.inl ⟨rfl, phases_update_same _ _ _ _ _ _ (by rw [here]; exact hk)⟩
    | @wait t p c m n here code held =>
        have hk := keeps t p
        rw [code] at hk
        exact Or.inl ⟨rfl, phases_update_same _ _ _ _ _ _ (by rw [here]; exact hk)⟩
    | @resume t m n here free =>
        exact Or.inl ⟨rfl, phases_update_same _ _ _ _ _ _ (by rw [here]; rfl)⟩
    | @signal t p c n W here code sub someone =>
        have hk := keeps t p
        rw [code] at hk
        refine Or.inl ⟨rfl, (phases_update_same _ _ _ _ _ _ ?_).trans ?_⟩
        · rw [point_wakeAll, here]
          exact hk
        · funext u
          rw [point_wakeAll]
          rfl
    | @broadcast t p c n here code =>
        have hk := keeps t p
        rw [code] at hk
        refine Or.inl ⟨rfl, (phases_update_same _ _ _ _ _ _ ?_).trans ?_⟩
        · rw [point_wakeAll, here]
          exact hk
        · funext u
          rw [point_wakeAll]
          rfl
  · cases sp with
    | @wake t c m n here =>
        exact Or.inl ⟨rfl, phases_update_same _ _ _ _ _ _ (by rw [here]; rfl)⟩

/-- A property of the shared state and the phases holds in every run when every
statement preserves it. The premise `K` carries facts already known of runs. -/
theorem Program.ReachableWhile.phase_invariant {I : S → (T → Q) → Prop}
    {ok K : Config T S P M C → Prop} (known : ∀ σ, prog.Reachable σ → K σ)
    (keeps : ∀ t p, (prog.code t p).Keeps phase p)
    (init : I prog.init fun t => phase (prog.start t))
    (exec : ∀ σ t p f s' p', ok σ → K σ → I σ.shared (σ.phases phase) →
      σ.status t = .running p → prog.code t p = .exec f → (s', p') ∈ f σ.shared →
      I s' (Function.update (σ.phases phase) t (phase p')))
    {σ : Config T S P M C} (h : prog.ReachableWhile ok σ) : I σ.shared (σ.phases phase) := by
  refine h.invariant (I := fun σ => I σ.shared (σ.phases phase)) init ?_
  intro σ τ hr hok hi hm
  rcases hm.phases keeps with ⟨hs, hp⟩ | ⟨t, p, f, s', p', here, code, out, hs, hp⟩
  · rw [hs, hp]
    exact hi
  · rw [hs, hp]
    exact exec σ t p f s' p' hok (known σ hr) hi here code out

/-- The phase rule for all runs. -/
theorem Program.Reachable.phase_invariant {I : S → (T → Q) → Prop}
    {K : Config T S P M C → Prop} (known : ∀ σ, prog.Reachable σ → K σ)
    (keeps : ∀ t p, (prog.code t p).Keeps phase p)
    (init : I prog.init fun t => phase (prog.start t))
    (exec : ∀ σ t p f s' p', K σ → I σ.shared (σ.phases phase) →
      σ.status t = .running p → prog.code t p = .exec f → (s', p') ∈ f σ.shared →
      I s' (Function.update (σ.phases phase) t (phase p')))
    {σ : Config T S P M C} (h : prog.Reachable σ) : I σ.shared (σ.phases phase) :=
  h.whileTrue.phase_invariant known keeps init fun σ t p f s' p' _ => exec σ t p f s' p'

/-- A phase that every statement keeps is the phase at the start. -/
theorem Program.Reachable.phase_const (keeps : ∀ t p, (prog.code t p).Keeps phase p)
    (exec : ∀ t p f s o, prog.code t p = .exec f → o ∈ f s → phase o.2 = phase p)
    {σ : Config T S P M C} (h : prog.Reachable σ) (t : T) :
    phase (σ.status t).point = phase (prog.start t) := by
  rw [← Config.phases_apply phase]
  refine h.phase_invariant (I := fun _ ph => ∀ t, ph t = phase (prog.start t))
    (K := fun _ => True) (fun _ _ => trivial) keeps (fun _ => rfl) ?_ t
  intro σ t p f s' p' _ hi here hc out u
  by_cases hu : u = t
  · subst u
    rw [Function.update_self, exec t p f _ _ hc out, ← hi t, Config.phases_apply, here,
      Status.point_running]
  · rw [Function.update_of_ne hu]
    exact hi u

end Phases

/-! ## Counting phases -/

section Tally
variable [Fintype T] [DecidableEq Q]

/-- The number of threads in a phase. -/
def tally (q : Q) (ph : T → Q) : ℕ := (Finset.univ.filter fun t => ph t = q).card

theorem tally_pos_iff (q : Q) (ph : T → Q) : 0 < tally q ph ↔ ∃ t, ph t = q := by
  simp [tally, Finset.card_pos, Finset.filter_nonempty_iff]

theorem tally_eq_zero_iff (q : Q) (ph : T → Q) : tally q ph = 0 ↔ ∀ t, ph t ≠ q := by
  simp [tally, Finset.filter_eq_empty_iff]

theorem tally_le_card (q : Q) (ph : T → Q) : tally q ph ≤ Fintype.card T :=
  Finset.card_le_univ _

/-- A phase with at most one thread determines the thread. -/
theorem tally_unique {q : Q} {ph : T → Q} (h : tally q ph ≤ 1) {t u : T}
    (ht : ph t = q) (hu : ph u = q) : t = u :=
  Finset.card_le_one.mp h t (by simp [ht]) u (by simp [hu])

theorem tally_const {q q' : Q} (h : q' ≠ q) : tally q (fun _ : T => q') = 0 := by
  simp [tally_eq_zero_iff, h]

variable [DecidableEq T]

/-- Moving one thread to another phase moves one unit of the tally. -/
theorem tally_update (q q' : Q) (ph : T → Q) (t : T) :
    tally q (Function.update ph t q') + (if ph t = q then 1 else 0) =
      tally q ph + (if q' = q then 1 else 0) := by
  have split (f : T → Q) : tally q f =
      (Finset.univ.filter fun u => u ≠ t ∧ f u = q).card + (if f t = q then 1 else 0) := by
    have hu : (Finset.univ.filter fun u => f u = q) =
        (Finset.univ.filter fun u => u ≠ t ∧ f u = q) ∪
          (if f t = q then {t} else ∅) := by
      ext u
      by_cases hut : u = t
      · subst u
        by_cases h : f t = q <;> simp [h]
      · by_cases h : f t = q <;> simp [h, hut]
    rw [tally, hu, Finset.card_union_of_disjoint]
    · by_cases h : f t = q <;> simp [h]
    · by_cases h : f t = q <;> simp [h]
  have same : (Finset.univ.filter fun u => u ≠ t ∧ Function.update ph t q' u = q) =
      Finset.univ.filter fun u => u ≠ t ∧ ph u = q := by
    ext u
    by_cases hut : u = t <;> simp [hut]
  rw [split (Function.update ph t q'), split ph, same, Function.update_self]
  omega

end Tally

/-! ## Assertions under a mutex -/

/-- The sequential check of an annotation with assertions for thread `t`. After
a wait nothing is known. -/
def Action.Carries (A : P → S → Prop) (p : P) : Action S P M C → Prop
  | .exec f => ∀ s, A p s → ∀ o ∈ f s, A o.2 o.1
  | .lock _ n => ∀ s, A p s → A n s
  | .unlock _ n => ∀ s, A p s → A n s
  | .wait _ _ n => ∀ s, A n s
  | .signal _ n => ∀ s, A p s → A n s
  | .broadcast _ n => ∀ s, A p s → A n s
  | .halt => True

/-- Assertions that are kept while a thread holds the mutex `m`. -/
structure Program.Asserts (prog : Program T S P M C) (holds : P → M → Prop) (m : M)
    (A : T → P → S → Prop) : Prop where
  outside : ∀ t p s, ¬ holds p m → A t p s
  code : ∀ t p, (prog.code t p).Carries (A t) p
  others : ∀ t u p q f s o, t ≠ u → ¬ holds q m → prog.code u q = .exec f → o ∈ f s →
    A t p s → A t p o.1

/-- What the assertion annotation says about one thread. -/
def Status.Satisfies (A : P → S → Prop) (s : S) : Status P M C → Prop
  | .running p => A p s
  | .blocked _ _ p => ∀ s', A p s'
  | .woken _ p => ∀ s', A p s'

theorem Status.satisfies_wake (A : P → S → Prop) (s : S) (st : Status P M C)
    (h : st.Satisfies A s) : st.wake.Satisfies A s := by
  cases st with
  | running p => exact h
  | blocked c m p => exact h
  | woken m p => exact h

section Assertions
variable [Fintype T] [DecidableEq T] [DecidableEq M] [DecidableEq C]
variable {prog : Program T S P M C} {holds : P → M → Prop} {m : M} {A : T → P → S → Prop}

omit [Fintype T] [DecidableEq M] [DecidableEq C] in
theorem satisfies_update {s : S} {status : T → Status P M C} (t : T)
    (h : ∀ u, u ≠ t → (status u).Satisfies (A u) s) {st : Status P M C}
    (ht : st.Satisfies (A t) s) (u : T) :
    (Function.update status t st u).Satisfies (A u) s := by
  by_cases hu : u = t
  · subst u
    simpa using ht
  · simpa [hu] using h u hu

omit [Fintype T] [DecidableEq M] [DecidableEq C] in
theorem satisfies_wakeAll {s : S} {status : T → Status P M C}
    (h : ∀ u, (status u).Satisfies (A u) s) (W : Finset T) (u : T) :
    (wakeAll W status u).Satisfies (A u) s := by
  by_cases hu : u ∈ W
  · simpa [wakeAll, hu] using Status.satisfies_wake _ _ _ (h u)
  · simpa [wakeAll, hu] using h u

omit [Fintype T] [DecidableEq T] [DecidableEq M] [DecidableEq C] in
/-- A statement of another thread respects the assertion at a point. -/
theorem Program.Asserts.interference (a : prog.Asserts holds m A) {σ : Config T S P M C}
    (own : Owned holds σ) {t u : T} (hut : u ≠ t) {p : P} {f : S → List (S × P)} {o : S × P}
    (here : σ.status t = .running p) (code : prog.code t p = .exec f) (out : o ∈ f σ.shared)
    (h : (σ.status u).Satisfies (A u) σ.shared) : (σ.status u).Satisfies (A u) o.1 := by
  cases hst : σ.status u with
  | blocked c m' q => rw [hst] at h; exact h
  | woken m' q => rw [hst] at h; exact h
  | running q =>
      rw [hst] at h
      by_cases hp : holds p m
      · refine a.outside u q o.1 fun hq => hut ?_
        exact own.unique (m := m) (by rw [hst]; exact hq) (by rw [here]; exact hp)
      · exact a.others u t q p f σ.shared o hut hp code out h

theorem Program.Asserts.move (a : prog.Asserts holds m A) {σ τ : Config T S P M C}
    (own : Owned holds σ) (h : ∀ t, (σ.status t).Satisfies (A t) σ.shared)
    (mv : prog.Move σ τ) : ∀ t, (τ.status t).Satisfies (A t) τ.shared := by
  have known {t : T} {p : P} (here : σ.status t = .running p) : A t p σ.shared := by
    have ht := h t
    rw [here] at ht
    exact ht
  rcases mv with st | sp
  · cases st with
    | @exec t p f s' p' here code out =>
        have hc := a.code t p
        rw [code] at hc
        exact satisfies_update t (fun u hu => a.interference own hu here code out (h u))
          (hc _ (known here) _ out)
    | @lock t p m n here code free =>
        have hc := a.code t p
        rw [code] at hc
        exact satisfies_update t (fun u _ => h u) (hc _ (known here))
    | @unlock t p m n here code held =>
        have hc := a.code t p
        rw [code] at hc
        exact satisfies_update t (fun u _ => h u) (hc _ (known here))
    | @wait t p c m n here code held =>
        have hc := a.code t p
        rw [code] at hc
        exact satisfies_update t (fun u _ => h u) hc
    | @resume t m n here free =>
        have ht := h t
        rw [here] at ht
        exact satisfies_update t (fun u _ => h u) (ht σ.shared)
    | @signal t p c n W here code sub someone =>
        have hc := a.code t p
        rw [code] at hc
        exact satisfies_update t (fun u _ => satisfies_wakeAll h W u) (hc _ (known here))
    | @broadcast t p c n here code =>
        have hc := a.code t p
        rw [code] at hc
        exact satisfies_update t (fun u _ => satisfies_wakeAll h _ u) (hc _ (known here))
  · cases sp with
    | @wake t c m n here =>
        have ht := h t
        rw [here] at ht
        exact satisfies_update t (fun u _ => h u) ht

/-- In every run the assertion of a thread's point holds of the shared state. -/
theorem Program.Asserts.at_point (a : prog.Asserts holds m A) (d : prog.Disciplined holds)
    {σ : Config T S P M C} (h : prog.Reachable σ) {t : T} {p : P}
    (here : σ.status t = .running p) : A t p σ.shared := by
  have all : ∀ t, (σ.status t).Satisfies (A t) σ.shared := by
    apply h.invariant (I := fun σ => ∀ t, (σ.status t).Satisfies (A t) σ.shared)
    · intro t
      exact a.outside _ _ _ (d.start t m)
    · intro σ τ hr hi hm
      exact a.move (d.owned hr) hi hm
  have ht := all t
  rw [here] at ht
  exact ht

end Assertions

end SamplePrograms.Threads
