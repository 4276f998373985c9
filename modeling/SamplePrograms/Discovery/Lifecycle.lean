import SamplePrograms.Library.EventRuns
import Mathlib.Logic.Function.Basic

/-!
# Engines and their worker threads

A click on Discover makes an engine and starts its worker thread. A click on Stop
reads what the queue holds, cancels the worker by the id that the worker has stored
in its thread object, and deletes the engine without waiting for the worker. The
window and the workers take their statements in any order.

## Implementation notes

The engine of the `k`th click on Discover and its worker share the number `k`,
which is also the id of the worker's thread. An id is not used again, because no
thread is joined or detached. `pthread_create` succeeds. A cancelled thread ends
at its next `recvfrom`; other cancellation points would only end it earlier. How
many objects a Stop finds in the queue is left open.
-/

namespace SamplePrograms.Discovery.Lifecycle
open Events

/-- Who holds the `recvqueue_lock` of an engine. -/
inductive Party where
  | ui
  | worker
  deriving DecidableEq

structure Engine where
  deleted : Bool
  lockedBy : Option Party

/-- The statement of `thread_dispatcher` and `run` that a worker executes next. -/
inductive WorkerPoint where
  | notCreated
  | setThreadId | setCancelState | openSocket
  | recvfrom | format | recvQueueLock | recvQueuePush | recvQueueUnlock
  | ended
  deriving DecidableEq

/-- A worker, with the `threadId` of its thread object once it is stored. -/
structure Worker where
  point : WorkerPoint
  threadId : Option Nat
  cancelled : Bool

/-- The statement of `pbClicked` that the window executes next. At `discover` and
`stop` it waits for a click on the button, which reads so. -/
inductive UiPoint where
  | discover
  | startEngine (engine : Nat) | setText (engine : Nat)
  | stop (engine : Nat)
  | readLock (engine lcount : Nat) | readUnlock (engine lcount : Nat)
  | stopEngine (engine : Nat) | pthreadCancel (engine : Nat) (id : Option Nat)
  | deleteEngine (engine : Nat)
  deriving DecidableEq

structure System where
  clicks : Nat
  engines : Nat → Engine
  workers : Nat → Worker
  ui : UiPoint

/-- A statement of the window or of a worker. The choice says whether `configure`
succeeds, whether the queue holds an object, and whether a frame is received. -/
inductive Event where
  | ui (choice : Bool)
  | worker (k : Nat) (choice : Bool)
  deriving DecidableEq

/-- The window before the first click. -/
def initial : System where
  clicks := 0
  engines := fun _ => ⟨false, none⟩
  workers := fun _ => ⟨.notCreated, none, false⟩
  ui := .discover

namespace System
variable (σ : System)

def setEngine (k : Nat) (engine : Engine) : System :=
  { σ with engines := Function.update σ.engines k engine }

def setWorker (k : Nat) (worker : Worker) : System :=
  { σ with workers := Function.update σ.workers k worker }

def goto (ui : UiPoint) : System := { σ with ui }

def lock (k : Nat) (party : Option Party) : System :=
  σ.setEngine k { σ.engines k with lockedBy := party }

def advance (k : Nat) (point : WorkerPoint) : System :=
  σ.setWorker k { σ.workers k with point }

@[simp] theorem setWorker_clicks (k : Nat) (w : Worker) : (σ.setWorker k w).clicks = σ.clicks := rfl
@[simp] theorem setWorker_engines (k : Nat) (w : Worker) :
    (σ.setWorker k w).engines = σ.engines := rfl
@[simp] theorem setWorker_workers (k : Nat) (w : Worker) :
    (σ.setWorker k w).workers = Function.update σ.workers k w := rfl
@[simp] theorem setEngine_engines (k : Nat) (engine : Engine) :
    (σ.setEngine k engine).engines = Function.update σ.engines k engine := rfl
@[simp] theorem setEngine_workers (k : Nat) (engine : Engine) :
    (σ.setEngine k engine).workers = σ.workers := rfl
@[simp] theorem lock_clicks (k : Nat) (party : Option Party) :
    (σ.lock k party).clicks = σ.clicks := rfl
@[simp] theorem lock_workers (k : Nat) (party : Option Party) :
    (σ.lock k party).workers = σ.workers := rfl

@[simp] theorem lock_deleted (k : Nat) (party : Option Party) (j : Nat) :
    ((σ.lock k party).engines j).deleted = (σ.engines j).deleted := by
  by_cases hj : j = k <;> simp [lock, hj]

end System

/-- A statement of `pbClicked`. -/
def uiStep (σ : System) (choice : Bool) : Option System :=
  match σ.ui with
  | .discover =>
      let made := { σ with clicks := σ.clicks + 1 }.setEngine σ.clicks ⟨!choice, none⟩
      some (made.goto (if choice then .startEngine σ.clicks else .discover))
  | .startEngine k => some ((σ.setWorker k ⟨.setThreadId, none, false⟩).goto (.setText k))
  | .setText k => some (σ.goto (.stop k))
  | .stop k => some (σ.goto (.readLock k 1000))
  | .readLock k lcount =>
      if (σ.engines k).lockedBy = none then
        some ((σ.lock k (some .ui)).goto (.readUnlock k lcount))
      else none
  | .readUnlock k lcount =>
      some ((σ.lock k none).goto
        (if choice = true ∧ 0 < lcount then .readLock k (lcount - 1) else .stopEngine k))
  | .stopEngine k => some (σ.goto (.pthreadCancel k (σ.workers k).threadId))
  | .pthreadCancel k id =>
      match id with
      | none => some (σ.goto (.deleteEngine k))
      | some j =>
          some ((σ.setWorker j { σ.workers j with cancelled := true }).goto (.deleteEngine k))
  | .deleteEngine k => some ((σ.setEngine k { σ.engines k with deleted := true }).goto .discover)

/-- A statement of the worker `k`. -/
def workerStep (σ : System) (k : Nat) (choice : Bool) : Option System :=
  match (σ.workers k).point with
  | .notCreated => none
  | .setThreadId =>
      some (σ.setWorker k { σ.workers k with point := .setCancelState, threadId := some k })
  | .setCancelState => some (σ.advance k .openSocket)
  | .openSocket => some (σ.advance k .recvfrom)
  | .recvfrom =>
      if (σ.workers k).cancelled then some (σ.advance k .ended)
      else some (σ.advance k (if choice then .format else .recvfrom))
  | .format => some (σ.advance k .recvQueueLock)
  | .recvQueueLock =>
      if (σ.engines k).lockedBy = none then
        some ((σ.lock k (some .worker)).advance k .recvQueuePush)
      else none
  | .recvQueuePush => some (σ.advance k .recvQueueUnlock)
  | .recvQueueUnlock => some ((σ.lock k none).advance k .recvfrom)
  | .ended => none

def step (σ : System) : Event → Option System
  | .ui choice => uiStep σ choice
  | .worker k choice => workerStep σ k choice

/-- The calls that concern the lifetime of an engine. -/
inductive Call where
  | pthreadCancel (engine : Nat) (id : Option Nat)
  | recvQueue (engine : Nat)
  | other

/-- The call that an event executes. -/
def executes (σ : System) : Event → Call
  | .ui _ => match σ.ui with
    | .pthreadCancel k id => .pthreadCancel k id
    | _ => .other
  | .worker k _ => match (σ.workers k).point with
    | .recvQueueLock | .recvQueuePush | .recvQueueUnlock => .recvQueue k
    | _ => .other

/-- Cancellation is for the worker of the engine, and the queue is that of a live engine. -/
def Call.Proper (σ : System) : Call → Prop
  | .pthreadCancel k id => id = some k
  | .recvQueue k => (σ.engines k).deleted = false
  | .other => True

/-- The worker has stored its id. -/
def WorkerPoint.stored : WorkerPoint → Bool
  | .notCreated | .setThreadId => false
  | _ => true

/-- The worker has returned from `recvfrom` and has not completed `recvQueueUnlock`. -/
def WorkerPoint.busy : WorkerPoint → Bool
  | .format | .recvQueueLock | .recvQueuePush | .recvQueueUnlock => true
  | _ => false

/-- `stopEngine` reads an id that is stored, and the engine of an idle worker is deleted. -/
def Timely (σ : System) : Event → Bool
  | .ui _ => match σ.ui with
    | .stopEngine k => (σ.workers k).point.stored
    | .deleteEngine k => !(σ.workers k).point.busy
    | _ => true
  | .worker _ _ => true

end SamplePrograms.Discovery.Lifecycle
