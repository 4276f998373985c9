import SamplePrograms.Discovery.Ui

/-!
# The button and the engine

The button should read Stop exactly while `discoEngine` points to a live engine
with a running worker. The constructor sets the button alone, and a click sets it
to Stop whatever `startEngine` returns. So the button tells the truth exactly when
the memory of the window held a null pointer and every engine could be started.
-/

namespace SamplePrograms.Discovery.Ui
open Memory Events

/-- `discoEngine` points to a live engine whose worker thread was created. -/
def HasWorker (ui : Window) : Prop :=
  ∃ engine worker : Nat, ∃ state, ui.discoEngine = some engine ∧
    ui.engines.cell engine = some ⟨some worker⟩ ∧ ui.workers.cell worker = some state ∧
    state.created = true

/-- The button reads Stop exactly when there is such an engine, and otherwise it
reads Discover and there is no engine. -/
structure Sound (ui : Window) : Prop where
  stop : ui.pbText = .stop ↔ HasWorker ui
  otherwise : ¬ HasWorker ui → ui.pbText = .discover ∧ ui.discoEngine = none

/-- A click that comes to start an engine finds memory for the worker and creates
its thread. -/
def Starts (ui : Window) : Event → Prop
  | .click outcome _ => ui.pbText = .discover → 0 ≤ outcome.configure →
      outcome.allocated = true ∧ outcome.pthreadCreate = 0
  | _ => True

theorem not_hasWorker_of_null {ui : Window} (h : ui.discoEngine = none) : ¬ HasWorker ui := by
  rintro ⟨engine, worker, state, here, -⟩
  rw [h] at here
  contradiction

/-- A window without an engine is sound when its button reads Discover. -/
theorem sound_of_null {ui : Window} (null : ui.discoEngine = none) (text : ui.pbText = .discover) :
    Sound ui where
  stop := by
    rw [text]
    exact iff_of_false (by simp) (not_hasWorker_of_null null)
  otherwise := fun _ => ⟨text, null⟩

/-- A window whose button reads Stop is sound exactly when it has a worker. -/
theorem sound_of_stop {ui : Window} (text : ui.pbText = .stop) : Sound ui ↔ HasWorker ui := by
  constructor
  · exact fun h => h.stop.mp text
  · exact fun h => ⟨iff_of_true text h, fun hn => absurd h hn⟩

/-- A sound window has a worker, or reads Discover and has no engine. -/
theorem Sound.cases {ui : Window} (h : Sound ui) :
    HasWorker ui ∧ ui.pbText = .stop ∨ ui.pbText = .discover ∧ ui.discoEngine = none := by
  by_cases hw : HasWorker ui
  · exact Or.inl ⟨hw, h.stop.mpr hw⟩
  · exact Or.inr (h.otherwise hw)

/-- The engine of a worker can be read, stopped and deleted. -/
theorem HasWorker.usable {ui : Window} (h : HasWorker ui) :
    (∃ engine, load ui.engines.cell ui.discoEngine = .ok engine) ∧ stopEngine ui = .ok () ∧
      ∃ ui', deleteEngine ui = .ok ui' ∧ ui'.discoEngine = none := by
  obtain ⟨engine, worker, state, null, live, created, running⟩ := h
  have read : load ui.engines.cell ui.discoEngine = .ok ⟨some worker⟩ := by
    rw [null]
    exact load_live live
  have thread : load ui.workers.cell (some worker) = .ok state := load_live created
  have freed : ui.engines.free ui.discoEngine = .ok (ui.engines.put engine none) := by
    rw [null]
    exact Heap.free_live live
  refine ⟨⟨_, read⟩, ?_, ⟨{ ui with engines := ui.engines.put engine none, discoEngine := none },
    ?_, rfl⟩⟩
  · simp only [stopEngine, read, thread, running, bind, Except.bind, if_true, pure, Except.pure]
  · simp only [deleteEngine, freed, bind, Except.bind, pure, Except.pure]

/-- Reading the nodes of a sound window adds rows and changes nothing else. -/
theorem Sound.showDiscoveredNodeInfo {ui : Window} (h : Sound ui) (count : Nat) (data : List Row) :
    ∃ tree, showDiscoveredNodeInfo count data ui = .ok { ui with tree } := by
  rcases h.cases with ⟨hw, -⟩ | ⟨-, null⟩
  · obtain ⟨⟨engine, read⟩, -⟩ := hw.usable
    obtain ⟨a, w, state, here, -⟩ := hw
    have nonnull : ui.discoEngine ≠ none := by simp [here]
    refine ⟨ui.tree ++ data.take count, ?_⟩
    simp only [Ui.showDiscoveredNodeInfo, nonnull, if_false, read, bind, Except.bind, pure,
      Except.pure]
  · exact ⟨ui.tree, if_pos null⟩

/-- Whether a live engine has a worker is said by its thread. -/
theorem hasWorker_iff {ui : Window} {a : Nat} {engine : Engine} (here : ui.discoEngine = some a)
    (live : ui.engines.cell a = some engine) : HasWorker ui ↔ ∃ worker state,
      engine.thread = some worker ∧ ui.workers.cell worker = some state ∧ state.created = true := by
  constructor
  · rintro ⟨b, worker, state, hb, hw, found⟩
    cases here.symm.trans hb
    cases live.symm.trans hw
    exact ⟨worker, state, rfl, found⟩
  · rintro ⟨worker, state, thread, found⟩
    refine ⟨a, worker, state, here, ?_, found⟩
    rw [live, ← thread]

/-- A new engine has a worker exactly when the worker was allocated and its thread created. -/
theorem startEngine_hasWorker {ui : Window} {a : Nat} {engine : Engine}
    (here : ui.discoEngine = some a) (live : ui.engines.cell a = some engine) (outcome : Outcome) :
    ∃ code ui', startEngine outcome ui = .ok (code, ui') ∧
      (HasWorker ui' ↔ outcome.allocated = true ∧ outcome.pthreadCreate = 0) := by
  have positive : ¬ (outcome.pthreadCreate : Int) < 0 := by omega
  have stored (thread : Ptr) : (ui.engines.put a (some ⟨thread⟩)).cell a = some ⟨thread⟩ := by
    rw [Heap.put_cell (Heap.lt_next live)]
    exact Function.update_self _ _ _
  cases allocated : outcome.allocated with
  | true =>
      have set := Heap.modify_live live fun engine => { engine with thread := some ui.workers.next }
      let started : Window := { ui with
        engines := ui.engines.put a (some ⟨some ui.workers.next⟩),
        workers := (ui.workers.alloc ⟨some a, outcome.pthreadCreate = 0⟩).2 }
      refine ⟨0, started, ?_, ?_⟩
      · simp only [startEngine, allocated, if_true, here, Heap.alloc_fst, set, positive, if_false,
          bind, Except.bind, pure, Except.pure, started]
      · rw [@hasWorker_iff started a _ here (stored _)]
        simp [started]
  | false =>
      have set := Heap.modify_live live fun engine => { engine with thread := none }
      let idle : Window := { ui with engines := ui.engines.put a (some ⟨none⟩) }
      refine ⟨-1, idle, ?_, ?_⟩
      · simp only [startEngine, allocated, Bool.false_eq_true, if_false, here, set, bind,
          Except.bind, pure, Except.pure, idle]
      · rw [@hasWorker_iff idle a _ here (stored _)]
        simp

/-- A click on Discover leaves a sound window exactly when it starts an engine or finds
that it cannot be configured. -/
theorem pbClicked_discover {ui : Window} (text : ui.pbText = .discover) (outcome : Outcome)
    (data : List Row) : ∃ ui', pbClicked outcome data ui = .ok ui' ∧
      (Sound ui' ↔ Starts ui (.click outcome data)) := by
  let engines := (ui.engines.alloc ⟨none⟩).2
  have live : engines.cell ui.engines.next = some ⟨none⟩ := by simp [engines]
  by_cases failed : outcome.configure < 0
  · have freed := Heap.free_live live
    refine ⟨{ ui with
      pbEnabled := true, discoEngine := none, engines := engines.put ui.engines.next none }, ?_, ?_⟩
    · simp only [pbClicked, text, failed, if_true, deleteEngine, Heap.alloc_fst, engines, freed,
        bind, Except.bind, pure, Except.pure]
    · refine iff_of_true (sound_of_null rfl text) fun _ ok => ?_
      omega
  · let opened : Window :=
      ⟨.discover, false, some ui.engines.next, ui.tree, engines, ui.workers⟩
    obtain ⟨code, started, run, worker⟩ := @startEngine_hasWorker opened _ _ rfl live outcome
    refine ⟨{ started with pbText := .stop, pbEnabled := true }, ?_, ?_⟩
    · simp only [pbClicked, text, failed, if_false, Heap.alloc_fst, bind, Except.bind, pure,
        Except.pure]
      simp only [opened, engines] at run
      rw [run]
    · refine (sound_of_stop rfl).trans (worker.trans ?_)
      simp only [Starts, text, forall_const]
      exact ⟨fun h _ => h, fun h => h (by omega)⟩

/-- A click on Stop leaves a sound window. -/
theorem pbClicked_stop {ui : Window} (h : Sound ui) (text : ui.pbText = .stop) (outcome : Outcome)
    (data : List Row) : ∃ ui', pbClicked outcome data ui = .ok ui' ∧ Sound ui' := by
  let disabled : Window := ⟨.stop, false, ui.discoEngine, ui.tree, ui.engines, ui.workers⟩
  have worker : HasWorker disabled := h.stop.mp text
  obtain ⟨tree, shown⟩ := ((sound_of_stop rfl).mpr worker).showDiscoveredNodeInfo 1000 data
  have shownWorker : HasWorker { disabled with tree } := worker
  obtain ⟨-, stopped, ui', deleted, null⟩ := shownWorker.usable
  refine ⟨{ ui' with pbText := .discover, pbEnabled := true }, ?_, sound_of_null null rfl⟩
  simp only [pbClicked, text, bind, Except.bind, pure, Except.pure]
  simp only [disabled] at shown stopped deleted
  rw [shown]
  simp only [stopped, deleted]

/-- Every event is handled in a sound window, which stays sound exactly when a click
that comes to start an engine succeeds. -/
theorem Sound.handle {ui : Window} (h : Sound ui) (event : Event) :
    ∃ ui', Handles ui event ui' ∧ (Sound ui' ↔ Starts ui event) := by
  cases event with
  | click outcome data =>
      rcases h.cases with ⟨-, text⟩ | ⟨text, -⟩
      · obtain ⟨ui', run, sound⟩ := pbClicked_stop h text outcome data
        refine ⟨ui', run, iff_of_true sound ?_⟩
        simp [Starts, text]
      · exact pbClicked_discover text outcome data
  | refresh data =>
      obtain ⟨tree, run⟩ := h.showDiscoveredNodeInfo 10 data
      exact ⟨_, run, iff_of_true ⟨h.stop, h.otherwise⟩ trivial⟩
  | clear => exact ⟨_, rfl, iff_of_true ⟨h.stop, h.otherwise⟩ trivial⟩

/-- For every content of the memory of `discoEngine` and every sequence of events with
their outcomes, the window is sound in all its states exactly when the memory holds a
null pointer and every click that comes to start an engine succeeds. A sound window
handles every event without a fault. -/
theorem button_sound_iff (memory : Ptr) (events : List Event) :
    (Throughout Handles Sound (construct memory) events ↔
      memory = none ∧ Along Handles Starts (construct memory) events) ∧
    ∀ ui, Sound ui → ∀ event, ∃ ui', Handles ui event ui' := by
  have exact : ∀ ui event, Sound ui →
      ((∀ ui', Handles ui event ui' → Sound ui') ↔ Starts ui event) := by
    intro ui event h
    obtain ⟨ui', run, sound⟩ := h.handle event
    rw [← sound]
    constructor
    · exact fun all => all ui' run
    · intro hs ui'' run'
      cases run.symm.trans run'
      exact hs
  have new : Sound (construct memory) ↔ memory = none := by
    constructor
    · intro h
      rcases h.cases with ⟨-, text⟩ | ⟨-, null⟩
      · contradiction
      · exact null
    · exact fun null => sound_of_null null rfl
  refine ⟨?_, fun ui h event => (h.handle event).imp fun _ run => run.1⟩
  constructor
  · intro all
    exact ⟨new.mp all.start, (throughout_iff_along exact all.start events).mp all⟩
  · rintro ⟨null, along⟩
    exact (throughout_iff_along exact (new.mpr null) events).mpr along

/-- A click on Discover while no thread can be created, for which `pthread_create`
returns `EAGAIN`. -/
theorem button_sound_noThread :
    ¬ ∀ memory events, Throughout Handles Sound (construct memory) events := by
  intro all
  have text : (construct none).pbText = .discover := rfl
  obtain ⟨ui', run, sound⟩ := pbClicked_discover text ⟨0, true, 11⟩ []
  have after : Sound ui' := (all none [.click ⟨0, true, 11⟩ []]).2 ui' run
  have created := (sound.mp after rfl (by simp)).2
  contradiction

end SamplePrograms.Discovery.Ui
