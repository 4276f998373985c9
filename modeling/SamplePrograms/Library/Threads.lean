import Mathlib.Data.Finset.Card
import Mathlib.Data.Fintype.Basic
import Mathlib.Logic.Function.Basic
import Mathlib.Logic.Relation

/-!
# Threads with mutexes and condition variables

A program gives every thread one action at each program point. The step
relation interleaves the actions of the threads one at a time, so a run is
one interleaving. Condition variables follow the POSIX contract: waiting
releases the mutex and blocks in one step, a signal wakes at least one blocked
thread when there is one, a broadcast wakes all of them, and a woken thread
must take the mutex again before it goes on.

## Implementation notes

Spurious wakeups are a relation of their own. They take part in every run,
but a thread that can only be woken spuriously is not able to take a step.
-/

namespace SamplePrograms.Threads

/-- What the code at one program point does next. The outcomes of `exec` are the
possible results of a statement on the shared state; a statement without an
outcome blocks. -/
inductive Action (S P M C : Type*) where
  | exec (outcomes : S → List (S × P))
  | lock (mutex : M) (next : P)
  | unlock (mutex : M) (next : P)
  | wait (gate : C) (mutex : M) (next : P)
  | signal (gate : C) (next : P)
  | broadcast (gate : C) (next : P)
  | halt

/-- A blocked thread has released its mutex and has not been notified. A woken
thread has been notified and needs the mutex again. -/
inductive Status (P M C : Type*) where
  | running (point : P)
  | blocked (gate : C) (mutex : M) (point : P)
  | woken (mutex : M) (point : P)
  deriving DecidableEq

/-- The code of every thread, where the thread starts, and the initial shared state. -/
structure Program (T S P M C : Type*) where
  code : T → P → Action S P M C
  start : T → P
  init : S

/-- A configuration of a program with threads `T`. -/
structure Config (T S P M C : Type*) where
  shared : S
  owner : M → Option T
  status : T → Status P M C

variable {T S P M C : Type*}

namespace Status

/-- The point at which the thread is or will continue. -/
def point : Status P M C → P
  | running p => p
  | blocked _ _ p => p
  | woken _ p => p

@[simp] theorem point_running (p : P) : (running p : Status P M C).point = p := rfl
@[simp] theorem point_blocked (c : C) (m : M) (p : P) : (blocked c m p).point = p := rfl
@[simp] theorem point_woken (m : M) (p : P) : (woken m p : Status P M C).point = p := rfl

/-- The status after a notification. -/
def wake : Status P M C → Status P M C
  | blocked _ m p => woken m p
  | st => st

@[simp] theorem point_wake (st : Status P M C) : st.wake.point = st.point := by
  cases st <;> rfl

/-- The thread sleeps on the gate without having been notified. -/
def SleepsOn (c : C) : Status P M C → Prop
  | blocked c' _ _ => c' = c
  | _ => False

@[simp] theorem sleepsOn_running (c : C) (p : P) :
    (running p : Status P M C).SleepsOn c ↔ False := Iff.rfl
@[simp] theorem sleepsOn_woken (c : C) (m : M) (p : P) :
    (woken m p : Status P M C).SleepsOn c ↔ False := Iff.rfl
@[simp] theorem sleepsOn_blocked (c c' : C) (m : M) (p : P) :
    (blocked c' m p : Status P M C).SleepsOn c ↔ c' = c := Iff.rfl

instance [DecidableEq C] (c : C) : DecidablePred (SleepsOn (P := P) (M := M) c)
  | running _ => isFalse id
  | blocked c' _ _ => inferInstanceAs (Decidable (c' = c))
  | woken _ _ => isFalse id

end Status

namespace Config
variable [Fintype T] [DecidableEq C]

/-- The threads that sleep on a gate. -/
def sleepers (σ : Config T S P M C) (c : C) : Finset T :=
  Finset.univ.filter fun t => (σ.status t).SleepsOn c

@[simp] theorem mem_sleepers (σ : Config T S P M C) (c : C) (t : T) :
    t ∈ σ.sleepers c ↔ (σ.status t).SleepsOn c := by
  simp [sleepers]

end Config

/-- Notify the threads of a set. -/
def wakeAll [DecidableEq T] (W : Finset T) (status : T → Status P M C) : T → Status P M C :=
  fun t => if t ∈ W then (status t).wake else status t

theorem sleepsOn_wakeAll [DecidableEq T] (W : Finset T) (status : T → Status P M C) (c : C)
    (t : T) : (wakeAll W status t).SleepsOn c ↔ t ∉ W ∧ (status t).SleepsOn c := by
  by_cases h : t ∈ W
  · cases hs : status t <;> simp [wakeAll, h, hs, Status.wake]
  · simp [wakeAll, h]

/-- The thread that moved is awake; the others sleep as before. -/
theorem sleepsOn_update [DecidableEq T] {status : T → Status P M C} {t : T}
    {st : Status P M C} {c : C} (awake : ¬ st.SleepsOn c) (u : T) :
    (Function.update status t st u).SleepsOn c ↔ u ≠ t ∧ (status u).SleepsOn c := by
  by_cases h : u = t
  · subst u
    simpa using awake
  · simp [h]

@[simp] theorem point_wakeAll [DecidableEq T] (W : Finset T) (status : T → Status P M C)
    (t : T) : (wakeAll W status t).point = (status t).point := by
  by_cases h : t ∈ W
  · simp [wakeAll, h]
  · simp [wakeAll, h]

namespace Program
variable [Fintype T] [DecidableEq T] [DecidableEq M] [DecidableEq C]
variable (prog : Program T S P M C)

/-- All mutexes are free and every thread is at its first point. -/
def initial : Config T S P M C where
  shared := prog.init
  owner := fun _ => none
  status := fun t => .running (prog.start t)

/-- One action of one thread. -/
inductive Step (σ : Config T S P M C) : Config T S P M C → Prop
  | exec {t p f s' p'} (here : σ.status t = .running p) (code : prog.code t p = .exec f)
      (out : (s', p') ∈ f σ.shared) :
      Step σ ⟨s', σ.owner, Function.update σ.status t (.running p')⟩
  | lock {t p m n} (here : σ.status t = .running p) (code : prog.code t p = .lock m n)
      (free : σ.owner m = none) :
      Step σ ⟨σ.shared, Function.update σ.owner m (some t),
        Function.update σ.status t (.running n)⟩
  | unlock {t p m n} (here : σ.status t = .running p) (code : prog.code t p = .unlock m n)
      (held : σ.owner m = some t) :
      Step σ ⟨σ.shared, Function.update σ.owner m none,
        Function.update σ.status t (.running n)⟩
  | wait {t p c m n} (here : σ.status t = .running p) (code : prog.code t p = .wait c m n)
      (held : σ.owner m = some t) :
      Step σ ⟨σ.shared, Function.update σ.owner m none,
        Function.update σ.status t (.blocked c m n)⟩
  | resume {t m n} (here : σ.status t = .woken m n) (free : σ.owner m = none) :
      Step σ ⟨σ.shared, Function.update σ.owner m (some t),
        Function.update σ.status t (.running n)⟩
  | signal {t p c n} {W : Finset T} (here : σ.status t = .running p)
      (code : prog.code t p = .signal c n) (sub : W ⊆ σ.sleepers c)
      (someone : (σ.sleepers c).Nonempty → W.Nonempty) :
      Step σ ⟨σ.shared, σ.owner, Function.update (wakeAll W σ.status) t (.running n)⟩
  | broadcast {t p c n} (here : σ.status t = .running p)
      (code : prog.code t p = .broadcast c n) :
      Step σ ⟨σ.shared, σ.owner,
        Function.update (wakeAll (σ.sleepers c) σ.status) t (.running n)⟩

/-- A blocked thread wakes up without a notification. -/
inductive Spurious (σ : Config T S P M C) : Config T S P M C → Prop
  | wake {t c m n} (here : σ.status t = .blocked c m n) :
      Spurious σ ⟨σ.shared, σ.owner, Function.update σ.status t (.woken m n)⟩

/-- Everything that can happen to a configuration. -/
def Move (σ τ : Config T S P M C) : Prop := prog.Step σ τ ∨ Spurious σ τ

/-- The configurations of all runs from the initial one. -/
def Reachable (σ : Config T S P M C) : Prop :=
  Relation.ReflTransGen prog.Move prog.initial σ

/-- The configurations of the runs in which a condition holds before every move. -/
def ReachableWhile (ok : Config T S P M C → Prop) (σ : Config T S P M C) : Prop :=
  Relation.ReflTransGen (fun σ τ => ok σ ∧ prog.Move σ τ) prog.initial σ

/-- The configurations of the runs in which every move meets a condition. -/
def ReachableVia (ok : Config T S P M C → Config T S P M C → Prop) (σ : Config T S P M C) :
    Prop :=
  Relation.ReflTransGen (fun σ τ => ok σ τ ∧ prog.Move σ τ) prog.initial σ

/-- No thread can take a step. -/
def Stuck (σ : Config T S P M C) : Prop := ∀ τ, ¬ prog.Step σ τ

variable {prog}

theorem Reachable.move {σ τ : Config T S P M C} (h : prog.Reachable σ) (m : prog.Move σ τ) :
    prog.Reachable τ := h.tail m

theorem ReachableVia.reachable {ok : Config T S P M C → Config T S P M C → Prop}
    {σ : Config T S P M C} (h : prog.ReachableVia ok σ) : prog.Reachable σ :=
  Relation.ReflTransGen.mono (fun _ _ hm => hm.2) _ _ h

theorem ReachableWhile.via {ok : Config T S P M C → Prop}
    {ok' : Config T S P M C → Config T S P M C → Prop} (meets : ∀ σ τ, ok σ → ok' σ τ)
    {σ : Config T S P M C} (h : prog.ReachableWhile ok σ) : prog.ReachableVia ok' σ :=
  Relation.ReflTransGen.mono (fun σ τ hm => ⟨meets σ τ hm.1, hm.2⟩) _ _ h

theorem ReachableWhile.reachable {ok : Config T S P M C → Prop} {σ : Config T S P M C}
    (h : prog.ReachableWhile ok σ) : prog.Reachable σ :=
  Relation.ReflTransGen.mono (fun _ _ hm => hm.2) _ _ h

theorem Reachable.whileTrue {σ : Config T S P M C} (h : prog.Reachable σ) :
    prog.ReachableWhile (fun _ => True) σ :=
  Relation.ReflTransGen.mono (fun _ _ hm => ⟨trivial, hm⟩) _ _ h

/-- What holds initially and is preserved by every move that meets the condition,
from a reachable configuration, holds in all these runs. -/
theorem ReachableVia.invariant {ok : Config T S P M C → Config T S P M C → Prop}
    {I : Config T S P M C → Prop} (init : I prog.initial)
    (move : ∀ σ τ, prog.Reachable σ → ok σ τ → I σ → prog.Move σ τ → I τ)
    {σ : Config T S P M C} (h : prog.ReachableVia ok σ) : I σ := by
  induction h with
  | refl => exact init
  | tail hr hm ih => exact move _ _ (ReachableVia.reachable hr) hm.1 ih hm.2

/-- What holds initially and is preserved by every move from a reachable
configuration that meets the condition holds in all these runs. -/
theorem ReachableWhile.invariant {ok I : Config T S P M C → Prop} (init : I prog.initial)
    (move : ∀ σ τ, prog.Reachable σ → ok σ → I σ → prog.Move σ τ → I τ)
    {σ : Config T S P M C} (h : prog.ReachableWhile ok σ) : I σ := by
  have via : prog.ReachableVia (fun σ _ => ok σ) σ := h.via fun _ _ hok => hok
  exact via.invariant init move

/-- What holds initially and is preserved by every move from a reachable
configuration holds in every reachable configuration. -/
theorem Reachable.invariant {I : Config T S P M C → Prop} (init : I prog.initial)
    (move : ∀ σ τ, prog.Reachable σ → I σ → prog.Move σ τ → I τ)
    {σ : Config T S P M C} (h : prog.Reachable σ) : I σ :=
  h.whileTrue.invariant init fun σ τ hr _ hi hm => move σ τ hr hi hm

end Program

end SamplePrograms.Threads
