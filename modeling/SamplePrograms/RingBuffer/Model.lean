import SamplePrograms.Library.Memory

/-!
# The ring buffer `dataQueue`

`sunsetSolarDiscoDataModel.h` has a template `dataQueue`, and `prog_queue.cpp` has
the same class as `Queue`. The constructor links `sz` cells to a ring. Items are
written at `tail` and read at `front`, and `queueFull` records that the last
push could not move the tail on.

## Implementation notes

A cell that was never written holds no item. The messages on standard output
are answers of the calls: a push says whether it took the item, and a pop on an
empty queue returns no item. In C++ that pop returns an indeterminate value.
-/

namespace SamplePrograms.RingBuffer
open Memory

/-- A `CBuffer`. -/
structure CBuffer (TYPE : Type*) where
  item : Option TYPE
  next : Ptr

/-- The private members of a `dataQueue`, and its cells in memory. -/
structure DataQueue (TYPE : Type*) where
  size : Nat
  queueFull : Bool
  front : Ptr
  tail : Ptr
  buffers : Heap (CBuffer TYPE)

variable {TYPE : Type*}

/-- The local variables of the constructor. -/
structure Building (TYPE : Type*) where
  buffers : Heap (CBuffer TYPE)
  front : Ptr
  prev : Ptr

/-- `p->next = q`. -/
def setNext (buffers : Heap (CBuffer TYPE)) (p q : Ptr) : Except Fault (Heap (CBuffer TYPE)) :=
  buffers.modify p fun c => { c with next := q }

/-- One iteration of the loop of the constructor. -/
def linkCell (b : Building TYPE) (index : Nat) : Except Fault (Building TYPE) := do
  let (a, buffers) := b.buffers.alloc ⟨none, none⟩
  let next : Ptr := some a
  let buffers ← setNext buffers next b.front
  if index = 0 then
    pure ⟨buffers, next, next⟩
  else do
    let buffers ← setNext buffers b.prev next
    pure ⟨buffers, b.front, next⟩

/-- The constructor. -/
def dataQueue (TYPE : Type*) (sz : Nat) : Except Fault (DataQueue TYPE) := do
  let b ← (List.range sz).foldlM linkCell ⟨Heap.empty, none, none⟩
  pure ⟨sz, false, b.front, b.front, b.buffers⟩

def isEmpty (q : DataQueue TYPE) : Bool := q.front == q.tail

/-- The answer is false when the queue says that it is full and ignores the item. -/
def push (q : DataQueue TYPE) (item : TYPE) : Except Fault (DataQueue TYPE × Bool) := do
  if q.queueFull = false then do
    let buffers ← q.buffers.modify q.tail fun c => { c with item := some item }
    let c ← load buffers.cell q.tail
    if c.next = none ∨ c.next = q.front then
      pure ({ q with buffers, queueFull := true }, true)
    else
      pure ({ q with buffers, tail := c.next }, true)
  else
    pure (q, false)

/-- What a pop returns: the contents of a cell, or nothing from an empty queue. -/
inductive Popped (TYPE : Type*) where
  | noItem
  | item (contents : Option TYPE)
  deriving DecidableEq

def pop (q : DataQueue TYPE) : Except Fault (DataQueue TYPE × Popped TYPE) := do
  if q.front = q.tail then
    pure (q, .noItem)
  else do
    let c ← load q.buffers.cell q.front
    pure ({ q with front := c.next, queueFull := false }, .item c.item)

/-- A call on the queue. -/
inductive Call (TYPE : Type*) where
  | push (item : TYPE)
  | pop
  | isEmpty
  deriving DecidableEq

/-- What a call answers. -/
inductive Answer (TYPE : Type*) where
  | pushed (accepted : Bool)
  | popped (result : Popped TYPE)
  | empty (result : Bool)
  deriving DecidableEq

/-- One call on the queue. -/
def callStep (q : DataQueue TYPE) : Call TYPE → Except Fault (DataQueue TYPE × Answer TYPE)
  | .push item => (push q item).map fun r => (r.1, .pushed r.2)
  | .pop => (pop q).map fun r => (r.1, .popped r.2)
  | .isEmpty => .ok (q, .empty (isEmpty q))

end SamplePrograms.RingBuffer
