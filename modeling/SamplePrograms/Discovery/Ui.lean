import SamplePrograms.Library.Memory
import SamplePrograms.Library.EventRuns

/-!
# The discovery window

The slots of `sunsetSolarDiscoveryUi`, and what they call of
`sunsetSolarDiscoEngine`. The window has one push button, which starts and stops
an engine, a tree of discovered nodes, and a context menu for the tree.

## Implementation notes

An event carries the outcomes of the calls that it may lead to: what `configure`
returns, whether the allocation of the worker yields an object or `NULL`, what
`pthread_create` returns, and the objects that `readDiscoData` would return.
The constructor does not initialise `discoEngine`, so the window starts with
whatever was in its memory. Every slot enables the button again before it
returns, so a click is always possible.
-/

namespace SamplePrograms.Discovery.Ui
open Memory

/-- The text of the push button. -/
inductive PbText where
  | discover
  | stop
  deriving DecidableEq

/-- A row of the tree: the name and the value of an object. -/
abbrev Row := List Char × List Char

/-- The worker of an engine, and whether its thread was created. -/
structure WorkerThread where
  discoEngine : Ptr
  created : Bool

/-- An engine, without its queues. -/
structure Engine where
  thread : Ptr

/-- The window and the objects it has made. -/
structure Window where
  pbText : PbText
  pbEnabled : Bool
  discoEngine : Ptr
  tree : List Row
  engines : Heap Engine
  workers : Heap WorkerThread

/-- What the calls of one click on the button return. -/
structure Outcome where
  configure : Int
  allocated : Bool
  pthreadCreate : Nat

inductive Event where
  | click (outcome : Outcome) (data : List Row)
  | refresh (data : List Row)
  | clear

/-- The constructor, in memory with the given contents of `discoEngine`. -/
def construct (memory : Ptr) : Window where
  pbText := .discover
  pbEnabled := true
  discoEngine := memory
  tree := []
  engines := Heap.empty
  workers := Heap.empty

/-- `showDiscoveredNodeInfo`: the loop adds a row for each object that it reads. -/
def showDiscoveredNodeInfo (count : Nat) (data : List Row) (ui : Window) : Except Fault Window :=
  if ui.discoEngine = none then
    pure ui
  else do
    let _ ← load ui.engines.cell ui.discoEngine
    pure { ui with tree := ui.tree ++ data.take count }

/-- `startEngine` of the engine that `discoEngine` points to. -/
def startEngine (outcome : Outcome) (ui : Window) : Except Fault (Int × Window) :=
  if outcome.allocated then do
    let (worker, workers) := ui.workers.alloc ⟨ui.discoEngine, outcome.pthreadCreate = 0⟩
    let engines ← ui.engines.modify ui.discoEngine fun engine =>
      { engine with thread := some worker }
    if (outcome.pthreadCreate : Int) < 0 then
      pure (-1, { ui with engines, workers })
    else
      pure (0, { ui with engines, workers })
  else do
    let engines ← ui.engines.modify ui.discoEngine fun engine => { engine with thread := none }
    pure (-1, { ui with engines })

/-- `stopEngine`. The thread of a worker that was never created has no id. -/
def stopEngine (ui : Window) : Except Fault Unit := do
  let engine ← load ui.engines.cell ui.discoEngine
  let worker ← load ui.workers.cell engine.thread
  if worker.created then pure () else throw .danglingPointer

/-- `delete this->discoEngine; this->discoEngine = NULL`. -/
def deleteEngine (ui : Window) : Except Fault Window := do
  let engines ← ui.engines.free ui.discoEngine
  pure { ui with engines, discoEngine := none }

/-- `pbClicked`, which ignores what `startEngine` returns. -/
def pbClicked (outcome : Outcome) (data : List Row) (ui : Window) : Except Fault Window := do
  let ui := { ui with pbEnabled := false }
  match ui.pbText with
  | .discover =>
      let (engine, engines) := ui.engines.alloc ⟨none⟩
      let ui := { ui with engines, discoEngine := some engine }
      if outcome.configure < 0 then do
        let ui ← deleteEngine ui
        pure { ui with pbEnabled := true }
      else do
        let (_, ui) ← startEngine outcome ui
        pure { ui with pbText := .stop, pbEnabled := true }
  | .stop => do
      let ui ← showDiscoveredNodeInfo 1000 data ui
      stopEngine ui
      let ui ← deleteEngine ui
      pure { ui with pbText := .discover, pbEnabled := true }

/-- The slots: a click, and the two actions of the context menu. -/
def handle (ui : Window) : Event → Except Fault Window
  | .click outcome data => pbClicked outcome data ui
  | .refresh data => showDiscoveredNodeInfo 10 data ui
  | .clear => pure { ui with tree := [] }

/-- The window takes an event without a fault. -/
def Handles (ui : Window) (event : Event) (ui' : Window) : Prop := handle ui event = .ok ui'

end SamplePrograms.Discovery.Ui
