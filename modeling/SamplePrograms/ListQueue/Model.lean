import SamplePrograms.Library.Memory

/-!
# The intrusive queue of `prog_queue.c`

The queue links nodes that its callers allocate. A node is known by its address
only; what else its owner keeps beside it is no concern of the queue.

## Implementation notes

The count is a natural number, which agrees with the `unsigned int` below
`2 ^ 32` queued nodes. The result of `push_Queue_list_imp` is left out: the
function has no `return` statement and no caller uses its value.
-/

namespace SamplePrograms.ListQueue
open Memory

/-- A `Queue_node_t`. -/
structure QueueNode (A : Type*) where
  next : Option A
  prev : Option A
  deriving DecidableEq

/-- The private variables of a `Queue_t`. -/
structure Queue (A : Type*) where
  count : Nat
  head : Option A
  deriving DecidableEq

/-- A queue and the nodes in memory. -/
structure World (A : Type*) where
  self : Queue A
  nodes : Mem A (QueueNode A)

variable {A : Type*}

def initializeQueueListImp (nodes : Mem A (QueueNode A)) : World A := ⟨⟨0, none⟩, nodes⟩

variable [DecidableEq A]

/-- `node->next = p`. -/
def setNext (nodes : Mem A (QueueNode A)) (node p : Option A) :
    Except Fault (Mem A (QueueNode A)) :=
  modify nodes node fun n => { n with next := p }

/-- `node->prev = p`. -/
def setPrev (nodes : Mem A (QueueNode A)) (node p : Option A) :
    Except Fault (Mem A (QueueNode A)) :=
  modify nodes node fun n => { n with prev := p }

theorem setNext_live {nodes : Mem A (QueueNode A)} {a : A} {n : QueueNode A}
    (h : nodes a = some n) (p : Option A) :
    setNext nodes (some a) p = .ok (Function.update nodes a (some { n with next := p })) :=
  modify_live h _

theorem setPrev_live {nodes : Mem A (QueueNode A)} {a : A} {n : QueueNode A}
    (h : nodes a = some n) (p : Option A) :
    setPrev nodes (some a) p = .ok (Function.update nodes a (some { n with prev := p })) :=
  modify_live h _

def pushQueueListImp (w : World A) (node : Option A) : Except Fault (World A) :=
  if w.self.count = 0 then do
    let head := node
    let nodes ← setNext w.nodes head head
    let nodes ← setPrev nodes head head
    pure ⟨⟨w.self.count + 1, head⟩, nodes⟩
  else do
    let next := w.self.head
    let h ← load w.nodes w.self.head
    let prev := h.next
    let nodes ← setNext w.nodes node next
    let nodes ← setPrev nodes node prev
    let nodes ← setNext nodes next node
    let nodes ← setPrev nodes prev node
    pure ⟨⟨w.self.count + 1, w.self.head⟩, nodes⟩

/-- The fields of the head are read before the count is tested. -/
def popQueueListImp (w : World A) : Except Fault (World A × Option A) := do
  let h ← load w.nodes w.self.head
  if w.self.count = 0 then
    pure (w, none)
  else if w.self.count = 1 then do
    let obj := w.self.head
    let nodes ← setNext w.nodes obj none
    let nodes ← setPrev nodes obj none
    pure (⟨⟨w.self.count - 1, w.self.head⟩, nodes⟩, obj)
  else do
    let next := h.next
    let prev := h.prev
    let nodes ← setNext w.nodes next prev
    let nodes ← setNext nodes prev next
    let obj := w.self.head
    let nodes ← setNext nodes obj none
    let nodes ← setPrev nodes obj none
    pure (⟨⟨w.self.count - 1, prev⟩, nodes⟩, obj)

/-- A call of a user of the queue. A push comes with the node and what is in it. -/
inductive Call (A : Type*) where
  | push (node : A) (contents : QueueNode A)
  | pop

/-- A user provides the memory of a node when it pushes the node, and frees it
as soon as it has popped it. -/
def callStep (w : World A) : Call A → Except Fault (World A × Option A)
  | .push node contents => do
      let w ← pushQueueListImp ⟨w.self, Function.update w.nodes node (some contents)⟩ (some node)
      pure (w, none)
  | .pop => do
      let (w, obj) ← popQueueListImp w
      let nodes ← release w.nodes obj
      pure (⟨w.self, nodes⟩, obj)

end SamplePrograms.ListQueue
