import SamplePrograms.Discovery.Lifecycle
import Mathlib.Tactic.SplitIfs

/-!
# Cancelling a worker

A worker without an engine may not touch the queue again. It does not when it was
cancelled by its own id before it came back from `recvfrom`. So a Stop is in order
when the worker has stored its id before `stopEngine` reads it, and is not on its
way from `recvfrom` to the end of `recvQueueUnlock` when the engine is deleted.
-/

namespace SamplePrograms.Discovery.Lifecycle
open Events

/-- What the window knows of its engine at each of its points. -/
def Knows (σ : System) : Prop :=
  match σ.ui with
  | .discover => True
  | .startEngine k =>
      k < σ.clicks ∧ (σ.engines k).deleted = false ∧ (σ.workers k).point = .notCreated
  | .pthreadCancel k id => k < σ.clicks ∧ (σ.engines k).deleted = false ∧ id = some k
  | .deleteEngine k => k < σ.clicks ∧ (σ.engines k).deleted = false ∧ (σ.workers k).cancelled = true
  | .setText k | .stop k | .readLock k _ | .readUnlock k _ | .stopEngine k =>
      k < σ.clicks ∧ (σ.engines k).deleted = false

/-- Workers come with clicks and store their own ids, and the worker of a deleted
engine has been cancelled and is not busy, unless there never was one. -/
structure Orderly (σ : System) : Prop where
  fresh : ∀ k, σ.clicks ≤ k → (σ.workers k).point = .notCreated
  stored : ∀ k, (σ.workers k).point.stored = true → (σ.workers k).threadId = some k
  gone : ∀ k, (σ.engines k).deleted = true → (σ.workers k).point = .notCreated ∨
    (σ.workers k).cancelled = true ∧ (σ.workers k).point.busy = false
  knows : Knows σ

theorem orderly_initial : Orderly initial where
  fresh := fun _ _ => rfl
  stored := by simp [initial, WorkerPoint.stored]
  gone := by simp [initial]
  knows := trivial

/-- A jump of the window is in order when the window knows what it has to. -/
theorem Orderly.goto {σ : System} (h : Orderly σ) {ui : UiPoint} (knows : Knows (σ.goto ui)) :
    Orderly (σ.goto ui) := ⟨h.fresh, h.stored, h.gone, knows⟩

theorem Orderly.lock {σ : System} (h : Orderly σ) (k : Nat) (party : Option Party) :
    Orderly (σ.lock k party) where
  fresh := h.fresh
  stored := h.stored
  gone := by
    intro j deleted
    rw [System.lock_deleted] at deleted
    exact h.gone j deleted
  knows := by
    have knows := h.knows
    unfold Knows at knows ⊢
    simp only [System.lock_deleted]
    exact knows

/-- The window may change the record of a worker whose engine lives. -/
theorem Orderly.setWorker {σ : System} (h : Orderly σ) {k : Nat} {w : Worker}
    (clicked : k < σ.clicks) (live : (σ.engines k).deleted = false)
    (stored : w.point.stored = true → w.threadId = some k) {ui : UiPoint}
    (knows : Knows ((σ.setWorker k w).goto ui)) : Orderly ((σ.setWorker k w).goto ui) where
  fresh := by
    intro j (late : σ.clicks ≤ j)
    have hne : j ≠ k := by omega
    simpa [System.goto, hne] using h.fresh j late
  stored := by
    intro j
    by_cases hj : j = k
    · subst j
      simpa [System.goto] using stored
    · simpa [System.goto, hj] using h.stored j
  gone := by
    intro j (deleted : (σ.engines j).deleted = true)
    have hne : j ≠ k := by
      rintro rfl
      rw [live] at deleted
      contradiction
    simpa [System.goto, hne] using h.gone j deleted
  knows := knows

/-- What a statement does to the record of its worker `k`. -/
structure Advances (k : Nat) (w w' : Worker) : Prop where
  created : w.point ≠ .notCreated
  remains : w'.point ≠ .notCreated
  cancelled : w'.cancelled = w.cancelled
  stored : w'.point.stored = true →
    w'.threadId = some k ∨ w.point.stored = true ∧ w'.threadId = w.threadId
  idle : w.cancelled = true → w.point.busy = false → w'.point.busy = false

/-- A worker that has stored its id goes on to another point. -/
theorem advances_to {k : Nat} {w : Worker} {p p' : WorkerPoint} (here : w.point = p)
    (old : p.stored = true) (new : p' ≠ .notCreated)
    (idle : w.cancelled = true → p.busy = false → p'.busy = false) :
    Advances k w { w with point := p' } where
  created := by
    intro none
    rw [← here, none] at old
    contradiction
  remains := new
  cancelled := rfl
  stored := fun _ => Or.inr ⟨here ▸ old, rfl⟩
  idle := fun pending => here ▸ idle pending

/-- A statement of a worker changes its own record and locks and unlocks its engine. -/
theorem workerStep_advances {σ σ' : System} {k : Nat} {choice : Bool}
    (h : workerStep σ k choice = some σ') : ∃ engines w',
      σ' = { σ with engines, workers := Function.update σ.workers k w' } ∧
      (∀ j, (engines j).deleted = (σ.engines j).deleted) ∧ Advances k (σ.workers k) w' := by
  have locked := σ.lock_deleted k
  unfold workerStep at h
  cases here : (σ.workers k).point <;> simp only [here] at h
  case notCreated => contradiction
  case setThreadId =>
    cases h
    exact ⟨_, _, rfl, fun _ => rfl, by constructor <;> simp [here, WorkerPoint.busy]⟩
  case recvfrom =>
    split_ifs at h with pending received
    · cases h
      exact ⟨_, _, rfl, fun _ => rfl, advances_to here rfl (by simp) fun _ _ => rfl⟩
    · cases h
      exact ⟨_, _, rfl, fun _ => rfl, advances_to here rfl (by simp) fun set => absurd set pending⟩
    · cases h
      exact ⟨_, _, rfl, fun _ => rfl, advances_to here rfl (by simp) fun _ _ => rfl⟩
  case recvQueueLock =>
    split_ifs at h
    cases h
    exact ⟨_, _, rfl, locked _, advances_to here rfl (by simp) fun _ busy => by contradiction⟩
  case recvQueuePush =>
    cases h
    exact ⟨_, _, rfl, fun _ => rfl, advances_to here rfl (by simp) fun _ busy => by contradiction⟩
  case recvQueueUnlock =>
    cases h
    exact ⟨_, _, rfl, locked _, advances_to here rfl (by simp) fun _ _ => rfl⟩
  case format =>
    cases h
    exact ⟨_, _, rfl, fun _ => rfl, advances_to here rfl (by simp) fun _ busy => by contradiction⟩
  case ended => contradiction
  all_goals
    cases h
    exact ⟨_, _, rfl, fun _ => rfl, advances_to here rfl (by simp) fun _ _ => rfl⟩

/-- A statement of a worker keeps the system orderly. -/
theorem Orderly.workerStep {σ σ' : System} (h : Orderly σ) {k : Nat} {choice : Bool}
    (taken : workerStep σ k choice = some σ') : Orderly σ' := by
  obtain ⟨engines, w', rfl, kept, adv⟩ := workerStep_advances taken
  have clicked : k < σ.clicks := by
    by_contra late
    exact adv.created (h.fresh k (by omega))
  constructor
  · intro j hj
    have hne : j ≠ k := by
      dsimp only at hj
      omega
    simpa [hne] using h.fresh j hj
  · intro j
    by_cases hj : j = k
    · subst j
      intro stored
      simp only [Function.update_self] at stored ⊢
      rcases adv.stored stored with new | ⟨old, same⟩
      · exact new
      · rw [same]
        exact h.stored k old
    · simpa [hj] using h.stored j
  · intro j deleted
    dsimp only at deleted
    rw [kept] at deleted
    by_cases hj : j = k
    · subst j
      rcases h.gone k deleted with none | ⟨pending, idle⟩
      · exact absurd none adv.created
      · right
        simp only [Function.update_self]
        exact ⟨adv.cancelled.trans pending, adv.idle pending idle⟩
    · simpa [hj] using h.gone j deleted
  · have knows := h.knows
    unfold Knows at knows ⊢
    cases hui : σ.ui with
    | startEngine e =>
        simp only [hui] at knows ⊢
        have hne : e ≠ k := fun he => adv.created (he ▸ knows.2.2)
        simpa [hne, kept] using knows
    | deleteEngine e =>
        simp only [hui] at knows ⊢
        by_cases he : e = k
        · subst e
          simpa [kept, adv.cancelled] using knows
        · simpa [he, kept] using knows
    | discover => trivial
    | _ => simpa [hui, kept] using knows

/-- A statement of the window that meets the condition keeps the system orderly. -/
theorem Orderly.uiStep {σ σ' : System} (h : Orderly σ) {choice : Bool}
    (timely : Timely σ (.ui choice) = true) (taken : uiStep σ choice = some σ') : Orderly σ' := by
  have knows := h.knows
  unfold Lifecycle.uiStep at taken
  unfold Knows at knows
  simp only [Timely] at timely
  cases hui : σ.ui <;> simp only [hui] at taken knows timely
  case discover =>
    cases taken
    refine ⟨fun j late => h.fresh j (Nat.le_of_succ_le late), h.stored, fun j deleted => ?_, ?_⟩
    · by_cases hj : j = σ.clicks
      · exact Or.inl (h.fresh j (Nat.le_of_eq hj.symm))
      · exact h.gone j (by simpa [System.goto, hj] using deleted)
    · cases choice with
      | false => trivial
      | true => exact ⟨Nat.lt_succ_self _, by simp [System.goto], h.fresh _ (Nat.le_refl _)⟩
  case startEngine k =>
    obtain ⟨clicked, live, -⟩ := knows
    cases taken
    exact h.setWorker clicked live (fun stored => by contradiction) ⟨clicked, live⟩
  case setText k =>
    cases taken
    exact h.goto knows
  case stop k =>
    cases taken
    exact h.goto knows
  case readLock k lcount =>
    split_ifs at taken
    cases taken
    refine (h.lock k _).goto ?_
    simpa [Knows, System.goto] using knows
  case readUnlock k lcount =>
    cases taken
    refine (h.lock k _).goto ?_
    split_ifs <;> simpa [Knows, System.goto] using knows
  case stopEngine k =>
    cases taken
    exact h.goto ⟨knows.1, knows.2, h.stored k timely⟩
  case pthreadCancel k id =>
    obtain ⟨clicked, live, rfl⟩ := knows
    cases taken
    apply h.setWorker clicked live
    · exact h.stored k
    · exact ⟨clicked, live, by simp [System.goto]⟩
  case deleteEngine k =>
    cases taken
    refine ⟨h.fresh, h.stored, fun j deleted => ?_, trivial⟩
    by_cases hj : j = k
    · subst j
      exact Or.inr ⟨knows.2.2, by simpa [System.goto] using timely⟩
    · exact h.gone j (by simpa [System.goto, hj] using deleted)

/-- In a run of timely statements the system is orderly. -/
theorem reaches_orderly {σ : System}
    (h : Reaches (fun σ e σ' => step σ e = some σ') (fun σ e => Timely σ e = true) initial σ) :
    Orderly σ := by
  apply h.invariant orderly_initial
  intro σ e σ' orderly timely taken
  cases e with
  | ui choice => exact orderly.uiStep timely taken
  | worker k choice => exact orderly.workerStep taken

/-- In every run in which a worker has stored its id when `stopEngine` reads it, and is
not between the return of `recvfrom` and the end of `recvQueueUnlock` when its engine is
deleted, every cancellation is for the worker of the engine, and no worker calls the
queue of a deleted engine. -/
theorem stop_proper {σ : System}
    (h : Reaches (fun σ e σ' => step σ e = some σ') (fun σ e => Timely σ e = true) initial σ)
    (e : Event) : (executes σ e).Proper σ := by
  have orderly := reaches_orderly h
  cases e with
  | ui choice =>
      have knows := orderly.knows
      unfold Knows at knows
      cases hui : σ.ui <;> simp only [executes, hui, Call.Proper]
      case pthreadCancel k id =>
        rw [hui] at knows
        exact knows.2.2
  | worker k choice =>
      have gone := orderly.gone k
      cases here : (σ.workers k).point <;> simp only [executes, here, Call.Proper]
      all_goals
        rw [← Bool.not_eq_true]
        intro deleted
        simpa [here, WorkerPoint.busy] using gone deleted

/-- An engine is started. -/
def discoverClicked : List Event := List.replicate 3 (.ui true)

/-- Stop is clicked, finds nothing in the queue and comes to the cancellation. -/
def stopClicked : List Event := [.ui true, .ui true, .ui false, .ui true]

/-- The worker stores its id and waits for a frame. -/
def workerListens : List Event := List.replicate 3 (.worker 0 true)

theorem stop_proper_listening : ∃ σ, runWhile step (fun σ e => Timely σ e = true) initial
      (discoverClicked ++ workerListens ++ stopClicked) = some σ ∧
    σ.ui = .pthreadCancel 0 (some 0) ∧ (executes σ (.ui true)).Proper σ := by
  have timely : ∃ σ, runWhile step (fun σ e => Timely σ e = true) initial
      (discoverClicked ++ workerListens ++ stopClicked) = some σ ∧
    σ.ui = .pthreadCancel 0 (some 0) := ⟨_, rfl, rfl⟩
  obtain ⟨σ, run, ui⟩ := timely
  exact ⟨σ, run, ui, stop_proper (Reaches.start.of_runWhile run) _⟩

/-- Stop comes before the worker has stored its id, and no id is passed. Or the
worker has received a frame when its engine is deleted, and it locks the queue. -/
theorem stop_improper :
    (¬ ∀ σ, Reaches (fun σ e σ' => step σ e = some σ') (fun _ _ => True) initial σ →
      ∀ choice k id, executes σ (.ui choice) = .pthreadCancel k id → id = some k) ∧
    ¬ ∀ σ, Reaches (fun σ e σ' => step σ e = some σ') (fun _ _ => True) initial σ →
      ∀ k choice, (step σ (.worker k choice)).isSome = true →
        executes σ (.worker k choice) = .recvQueue k → (σ.engines k).deleted = false := by
  constructor
  · intro all
    have early : ∃ σ, runWhile step (fun _ _ => True) initial (discoverClicked ++ stopClicked) =
        some σ ∧ executes σ (.ui true) = .pthreadCancel 0 none := ⟨_, rfl, rfl⟩
    obtain ⟨σ, run, call⟩ := early
    have id := all σ (Reaches.start.of_runWhile run) true 0 none call
    contradiction
  · intro all
    have late : ∃ σ, runWhile step (fun _ _ => True) initial
          (discoverClicked ++ workerListens ++ List.replicate 2 (.worker 0 true) ++ stopClicked ++
            List.replicate 2 (.ui true)) = some σ ∧
        (step σ (.worker 0 true)).isSome = true ∧ executes σ (.worker 0 true) = .recvQueue 0 ∧
        (σ.engines 0).deleted = true := ⟨_, rfl, rfl, rfl, rfl⟩
    obtain ⟨σ, run, next, call, deleted⟩ := late
    have live := all σ (Reaches.start.of_runWhile run) 0 true next call
    rw [deleted] at live
    contradiction

end SamplePrograms.Discovery.Lifecycle
