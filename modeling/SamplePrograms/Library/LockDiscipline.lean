import SamplePrograms.Library.Threads

/-!
# Lock discipline

A program point is annotated with the mutexes that a thread holds there. The
annotation is checked one action at a time. Then the owner of a mutex is, in
every run, the one thread whose point holds it.
-/

namespace SamplePrograms.Threads

variable {T S P M C : Type*}

/-- An action agrees with an annotation of the mutexes held at each point. -/
def Action.Respects (holds : P → M → Prop) (p : P) : Action S P M C → Prop
  | .exec f => ∀ s, ∀ o ∈ f s, ∀ m, holds o.2 m ↔ holds p m
  | .lock m n => ∀ m', holds n m' ↔ m' = m ∨ holds p m'
  | .unlock m n => holds p m ∧ ∀ m', holds n m' ↔ m' ≠ m ∧ holds p m'
  | .wait _ m n => holds p m ∧ ∀ m', holds n m' ↔ holds p m'
  | .signal _ n => ∀ m, holds n m ↔ holds p m
  | .broadcast _ n => ∀ m, holds n m ↔ holds p m
  | .halt => True

/-- The mutexes a thread holds: a sleeping or woken thread is without its own. -/
def Status.Holds (holds : P → M → Prop) (m : M) : Status P M C → Prop
  | .running p => holds p m
  | .blocked _ m' p => m ≠ m' ∧ holds p m
  | .woken m' p => m ≠ m' ∧ holds p m

@[simp] theorem Status.holds_running (holds : P → M → Prop) (m : M) (p : P) :
    (running p : Status P M C).Holds holds m ↔ holds p m := Iff.rfl

theorem Status.holds_wake (holds : P → M → Prop) (m : M) (st : Status P M C) :
    st.wake.Holds holds m ↔ st.Holds holds m := by
  cases st <;> rfl

/-- A woken or blocked thread waits for a mutex that its next point holds. -/
def Status.Returns (holds : P → M → Prop) : Status P M C → Prop
  | .running _ => True
  | .blocked _ m p => holds p m
  | .woken m p => holds p m

theorem Status.returns_wake (holds : P → M → Prop) (st : Status P M C) :
    st.wake.Returns holds ↔ st.Returns holds := by
  cases st <;> rfl

/-- The program follows its annotation, and no thread starts with a mutex. -/
structure Program.Disciplined (prog : Program T S P M C) (holds : P → M → Prop) : Prop where
  start : ∀ t m, ¬ holds (prog.start t) m
  code : ∀ t p, (prog.code t p).Respects holds p

variable {prog : Program T S P M C} {holds : P → M → Prop}

/-- The mutex owners are exactly the threads whose point holds the mutex. -/
def Owned (holds : P → M → Prop) (σ : Config T S P M C) : Prop :=
  (∀ t m, σ.owner m = some t ↔ (σ.status t).Holds holds m) ∧
    ∀ t, (σ.status t).Returns holds

/-- Two threads whose points hold one mutex are the same thread. -/
theorem Owned.unique {σ : Config T S P M C} (h : Owned holds σ) {t u : T} {m : M}
    (ht : (σ.status t).Holds holds m) (hu : (σ.status u).Holds holds m) : t = u := by
  have h1 := (h.1 t m).mpr ht
  have h2 := (h.1 u m).mpr hu
  exact Option.some.inj (h1.symm.trans h2)

/-- No point of a thread holds a free mutex. -/
theorem Owned.not_holds {σ : Config T S P M C} (h : Owned holds σ) {t : T} {m : M}
    (free : σ.owner m = none) : ¬ (σ.status t).Holds holds m := by
  intro ht
  have h1 := (h.1 t m).mpr ht
  rw [free] at h1
  cases h1

section Update
variable [DecidableEq T]

/-- Replacing one status keeps ownership when the new owner map agrees with it. -/
theorem Owned.update {σ : Config T S P M C} (h : Owned holds σ) (t : T)
    (st : Status P M C) (s : S) (owner : M → Option T)
    (self : ∀ m, owner m = some t ↔ st.Holds holds m)
    (other : ∀ u, u ≠ t → ∀ m, owner m = some u ↔ σ.owner m = some u)
    (back : st.Returns holds) :
    Owned holds (⟨s, owner, Function.update σ.status t st⟩ : Config T S P M C) := by
  constructor
  · intro u m
    by_cases hu : u = t
    · subst u
      simpa using self m
    · simpa [hu] using (other u hu m).trans (h.1 u m)
  · intro u
    by_cases hu : u = t
    · subst u
      simpa using back
    · simpa [hu] using h.2 u

theorem Owned.wakeAll {σ : Config T S P M C} (h : Owned holds σ) (W : Finset T) :
    Owned holds ⟨σ.shared, σ.owner, wakeAll W σ.status⟩ := by
  constructor
  · intro u m
    by_cases hu : u ∈ W
    · simpa [Threads.wakeAll, hu, Status.holds_wake] using h.1 u m
    · simpa [Threads.wakeAll, hu] using h.1 u m
  · intro u
    by_cases hu : u ∈ W
    · simpa [Threads.wakeAll, hu, Status.returns_wake] using h.2 u
    · simpa [Threads.wakeAll, hu] using h.2 u

end Update

section Discipline
variable [DecidableEq T] [DecidableEq M]

theorem Owned.acquire {σ : Config T S P M C} (h : Owned holds σ) {t : T} {m : M}
    (free : σ.owner m = none) {n : P}
    (hn : ∀ m', holds n m' ↔ m' = m ∨ (σ.status t).Holds holds m') :
    Owned holds ⟨σ.shared, Function.update σ.owner m (some t),
      Function.update σ.status t (.running n)⟩ := by
  refine h.update t _ _ _ (fun m' => ?_) (fun u hu m' => ?_) trivial
  · by_cases hm : m' = m
    · subst m'
      simp [Status.Holds, hn]
    · simpa [hm, Status.Holds, hn] using h.1 t m'
  · by_cases hm : m' = m
    · subst m'
      simp [free, Ne.symm hu]
    · simp [hm]

theorem Owned.release {σ : Config T S P M C} (h : Owned holds σ) {t : T} {m : M}
    (held : σ.owner m = some t) {st : Status P M C}
    (hst : ∀ m', st.Holds holds m' ↔ m' ≠ m ∧ (σ.status t).Holds holds m')
    (back : st.Returns holds) :
    Owned holds ⟨σ.shared, Function.update σ.owner m none,
      Function.update σ.status t st⟩ := by
  refine h.update t _ _ _ (fun m' => ?_) (fun u hu m' => ?_) back
  · by_cases hm : m' = m
    · subst m'
      simp [hst]
    · simpa [hm, hst] using h.1 t m'
  · by_cases hm : m' = m
    · subst m'
      simp [held, Ne.symm hu]
    · simp [hm]

variable [Fintype T] [DecidableEq C]

theorem Owned.move (d : prog.Disciplined holds) {σ τ : Config T S P M C} (h : Owned holds σ)
    (m : prog.Move σ τ) : Owned holds τ := by
  rcases m with st | sp
  · cases st with
    | @exec t p f s' p' here code out =>
        have hc := d.code t p
        rw [code] at hc
        refine h.update t _ _ _ (fun m => ?_) (fun _ _ _ => Iff.rfl) trivial
        rw [h.1 t m, here]
        exact (hc _ _ out m).symm
    | @lock t p m n here code free =>
        have hc := d.code t p
        rw [code] at hc
        exact h.acquire free (by rw [here]; exact hc)
    | @unlock t p m n here code held =>
        have hc := d.code t p
        rw [code] at hc
        exact h.release held (by rw [here]; exact hc.2) trivial
    | @wait t p c m n here code held =>
        have hc := d.code t p
        rw [code] at hc
        refine h.release held (fun m' => ?_) ((hc.2 m).mpr hc.1)
        rw [here]
        exact and_congr_right fun _ => hc.2 m'
    | @resume t m n here free =>
        have hb := h.2 t
        rw [here] at hb
        refine h.acquire free (fun m' => ?_)
        rw [here]
        by_cases hm : m' = m
        · subst m'
          exact iff_of_true hb (Or.inl rfl)
        · simp [Status.Holds, hm]
    | @signal t p c n W here code sub someone =>
        have hc := d.code t p
        rw [code] at hc
        have hns : t ∉ W := fun hw => by simpa [here] using sub hw
        have hw := h.wakeAll W
        refine hw.update t _ _ _ (fun m => ?_) (fun _ _ _ => Iff.rfl) trivial
        rw [h.1 t m, here]
        exact (hc m).symm
    | @broadcast t p c n here code =>
        have hc := d.code t p
        rw [code] at hc
        have hw := h.wakeAll (σ.sleepers c)
        refine hw.update t _ _ _ (fun m => ?_) (fun _ _ _ => Iff.rfl) trivial
        rw [h.1 t m, here]
        exact (hc m).symm
  · cases sp with
    | @wake t c m n here =>
        refine h.update t _ _ _ (fun m' => ?_) (fun _ _ _ => Iff.rfl) ?_
        · rw [h.1 t m', here]
          exact Iff.rfl
        · have hb := h.2 t
          rw [here] at hb
          exact hb

/-- A disciplined program keeps its annotation in every run. -/
theorem Program.Disciplined.owned (d : prog.Disciplined holds) {σ : Config T S P M C}
    (h : prog.Reachable σ) : Owned holds σ := by
  refine h.invariant (I := Owned holds) ?_ (fun _ _ _ hi hm => hi.move d hm)
  refine ⟨fun t m => ?_, fun _ => trivial⟩
  simpa [Program.initial, Status.Holds] using d.start t m

/-- A thread that sleeps or has been woken returns to the point after one of its waits. -/
def Program.Waits (prog : Program T S P M C) (t : T) : Status P M C → Prop
  | .running _ => True
  | .blocked c m n => ∃ p, prog.code t p = .wait c m n
  | .woken m n => ∃ p c, prog.code t p = .wait c m n

omit [DecidableEq T] [DecidableEq M] [Fintype T] [DecidableEq C] in
theorem Program.waits_wake {t : T} {st : Status P M C} (h : prog.Waits t st) :
    prog.Waits t st.wake := by
  cases st with
  | running p => exact h
  | blocked c m n => exact h.imp fun p hp => ⟨c, hp⟩
  | woken m n => exact h

omit [DecidableEq M] [Fintype T] [DecidableEq C] in
theorem Program.waits_update {status : T → Status P M C} (h : ∀ u, prog.Waits u (status u))
    (W : Finset T) (t : T) {st : Status P M C} (ht : prog.Waits t st) (u : T) :
    prog.Waits u (Function.update (Threads.wakeAll W status) t st u) := by
  by_cases hu : u = t
  · subst u
    simpa using ht
  · by_cases hw : u ∈ W
    · simpa [hu, Threads.wakeAll, hw] using waits_wake (h u)
    · simpa [hu, Threads.wakeAll, hw] using h u

theorem Program.Reachable.waits {σ : Config T S P M C} (h : prog.Reachable σ) (t : T) :
    prog.Waits t (σ.status t) := by
  refine h.invariant (I := fun σ => ∀ t, prog.Waits t (σ.status t)) (fun _ => trivial) ?_ t
  intro σ τ _ hi hm
  have alone (u : T) {st : Status P M C} (hs : prog.Waits u st) (v : T) :
      prog.Waits v (Function.update σ.status u st v) := by
    have he : Threads.wakeAll ∅ σ.status = σ.status := by
      funext w
      simp [Threads.wakeAll]
    simpa only [he] using waits_update hi ∅ u hs v
  rcases hm with st | sp
  · cases st with
    | exec => exact alone _ trivial
    | lock => exact alone _ trivial
    | unlock => exact alone _ trivial
    | wait here code held => exact alone _ ⟨_, code⟩
    | resume => exact alone _ trivial
    | signal => exact waits_update hi _ _ trivial
    | broadcast => exact waits_update hi _ _ trivial
  · cases sp with
    | @wake u c m n here =>
        have hu := hi u
        rw [here] at hu
        exact alone u (hu.imp fun p hp => ⟨c, hp⟩)

/-- A thread at a point of a section holds the mutex of the section. No wait may return
into the section. -/
theorem Program.Reachable.holds_section {σ : Config T S P M C} (h : prog.Reachable σ) {m : M}
    (critical : P → Prop) (inside : ∀ p, critical p → holds p m)
    (waits : ∀ t p c m' n, prog.code t p = .wait c m' n → ¬ critical n) {t : T}
    (ht : critical (σ.status t).point) : (σ.status t).Holds holds m := by
  have hw := h.waits t
  cases hs : σ.status t with
  | running p =>
      rw [hs] at ht
      exact inside p ht
  | blocked c m' n =>
      rw [hs] at ht hw
      obtain ⟨p, hp⟩ := hw
      exact (waits t p c m' n hp ht).elim
  | woken m' n =>
      rw [hs] at ht hw
      obtain ⟨p, c, hp⟩ := hw
      exact (waits t p c m' n hp ht).elim

/-- Two threads at points of one section are the same thread. -/
theorem Program.Reachable.alone (d : prog.Disciplined holds) {σ : Config T S P M C}
    (h : prog.Reachable σ) {m : M} (critical : P → Prop) (inside : ∀ p, critical p → holds p m)
    (waits : ∀ t p c m' n, prog.code t p = .wait c m' n → ¬ critical n) {t u : T}
    (ht : critical (σ.status t).point) (hu : critical (σ.status u).point) : t = u :=
  (d.owned h).unique (h.holds_section critical inside waits ht)
    (h.holds_section critical inside waits hu)

/-! ## Stuck configurations -/

/-- The actions that may be unable to go on. -/
def Action.Waits (σ : Config T S P M C) : Action S P M C → Prop
  | .exec f => f σ.shared = []
  | .lock m _ => σ.owner m ≠ none
  | .halt => True
  | _ => False

/-- In a stuck configuration every running thread is at an action that waits. -/
theorem Program.Stuck.running (d : prog.Disciplined holds) {σ : Config T S P M C}
    (own : Owned holds σ) (stuck : prog.Stuck σ) {t : T} {p : P}
    (here : σ.status t = .running p) : (prog.code t p).Waits σ := by
  have hc := d.code t p
  have owner (m : M) (hm : holds p m) : σ.owner m = some t :=
    (own.1 t m).mpr (by rw [here]; exact hm)
  cases code : prog.code t p with
  | exec f => exact List.eq_nil_iff_forall_not_mem.mpr fun o out => stuck _ (.exec here code out)
  | lock m n => exact fun free => stuck _ (.lock here code free)
  | unlock m n =>
      rw [code] at hc
      exact stuck _ (.unlock here code (owner m hc.1))
  | wait c m n =>
      rw [code] at hc
      exact stuck _ (.wait here code (owner m hc.1))
  | signal c n => exact stuck _ (.signal here code (Finset.Subset.refl _) id)
  | broadcast c n => exact stuck _ (.broadcast here code)
  | halt => trivial

theorem Program.Stuck.woken {σ : Config T S P M C} (stuck : prog.Stuck σ) {t : T} {m : M} {n : P}
    (here : σ.status t = .woken m n) : σ.owner m ≠ none :=
  fun free => stuck _ (.resume here free)

/-- A configuration is stuck when every thread has halted or sleeps. -/
theorem Program.Stuck.of_idle {σ : Config T S P M C}
    (h : ∀ t, (∃ p, σ.status t = .running p ∧ prog.code t p = .halt) ∨
      ∃ c m n, σ.status t = .blocked c m n) : prog.Stuck σ := by
  intro τ st
  have halts {t : T} {p : P} {a : Action S P M C} (here : σ.status t = .running p)
      (code : prog.code t p = a) : a = .halt := by
    rcases h t with ⟨q, hq, hh⟩ | ⟨c, m, n, hb⟩
    · cases here.symm.trans hq
      exact code.symm.trans hh
    · cases here.symm.trans hb
  cases st with
  | exec here code out => cases halts here code
  | lock here code free => cases halts here code
  | unlock here code held => cases halts here code
  | wait here code held => cases halts here code
  | @resume t m n here free =>
      rcases h t with ⟨q, hq, -⟩ | ⟨c, m', n', hb⟩
      · cases here.symm.trans hq
      · cases here.symm.trans hb
  | signal here code sub someone => cases halts here code
  | broadcast here code => cases halts here code

end Discipline

end SamplePrograms.Threads
