import SamplePrograms.RingBuffer.Refinement

/-!
# The ring buffer is first in, first out

The reference queue has room for one item less than the ring has cells, and it
discards an item for which it has no room. A user who sees what `pop` returns
and what `isEmpty` says cannot tell the ring buffer from it.
-/

namespace SamplePrograms.RingBuffer
open Memory Calls

variable {TYPE : Type*}

/-- What a user sees of an answer: a push returns nothing. -/
def observe : Answer TYPE → Option (Answer TYPE)
  | .pushed _ => none
  | answer => some answer

/-- The reference queue with room for `cap` items. -/
def fifo (TYPE : Type*) (cap : Nat) : Machine (List TYPE) (Call TYPE) (Option (Answer TYPE)) where
  next := fun items call => match call with
    | .push x => if items.length < cap then items ++ [x] else items
    | .pop => items.tail
    | .isEmpty => items
  answer := fun items call => match call with
    | .push _ => none
    | .pop => match items with
        | [] => some (.popped .noItem)
        | x :: _ => some (.popped (.item (some x)))
    | .isEmpty => some (.empty items.isEmpty)
  legal := fun _ _ => True

/-- The items are those of the reference queue, and a stuck queue has no room. -/
def SameItems (cap : Nat) (b : Contents TYPE) (items : List TYPE) : Prop :=
  b.items = items ∧ (b.stuck = true → ¬ items.length < cap)

/-- Every call on the list is seen as the call on the reference queue. -/
theorem SameItems.step {cap : Nat} {b : Contents TYPE} {items : List TYPE}
    (h : SameItems cap b items) (call : Call TYPE) :
    observe ((bounded TYPE cap).answer b call) = (fifo TYPE cap).answer items call ∧
      SameItems cap ((bounded TYPE cap).next b call) ((fifo TYPE cap).next items call) := by
  obtain ⟨rfl, hs⟩ := h
  cases call with
  | push x =>
      refine ⟨rfl, ?_⟩
      by_cases stuck : b.stuck = true
      · simp [bounded, fifo, stuck, hs stuck, SameItems]
      · by_cases room : b.items.length < cap
        · simp [bounded, fifo, stuck, room, SameItems]
        · simp [bounded, fifo, stuck, room, SameItems]
  | pop =>
      obtain ⟨items, stuck⟩ := b
      cases items with
      | nil => exact ⟨rfl, rfl, hs⟩
      | cons x rest => exact ⟨rfl, rfl, by simp [bounded]⟩
  | isEmpty => exact ⟨rfl, rfl, hs⟩

/-- The items of the pushes that the reference queue has room for. -/
def stored (cap : Nat) : List TYPE → List (Call TYPE) → List TYPE
  | _, [] => []
  | items, .push x :: rest =>
      if items.length < cap then x :: stored cap (items ++ [x]) rest else stored cap items rest
  | items, .pop :: rest => stored cap items.tail rest
  | items, .isEmpty :: rest => stored cap items rest

/-- The contents of the cells that pops return. -/
def returnedCells : List (Answer TYPE) → List (Option TYPE)
  | [] => []
  | .popped (.item contents) :: rest => contents :: returnedCells rest
  | _ :: rest => returnedCells rest

/-- What is returned, followed by what is left, is what was stored. -/
theorem returned_append {cap : Nat} {b : Contents TYPE} {items : List TYPE}
    (h : SameItems cap b items) (calls : List (Call TYPE)) :
    returnedCells ((bounded TYPE cap).answers b calls) ++
        ((bounded TYPE cap).after b calls).items.map some =
      (items ++ stored cap items calls).map some := by
  induction calls generalizing b items with
  | nil => simp [returnedCells, stored, h.1]
  | cons call rest ih =>
      obtain ⟨-, next⟩ := h.step call
      have hrest := ih next
      obtain ⟨rfl, hs⟩ := h
      cases call with
      | push x =>
          rw [Machine.answers_cons, Machine.after_cons]
          by_cases room : b.items.length < cap
          · have hf : (fifo TYPE cap).next b.items (.push x) = b.items ++ [x] := if_pos room
            rw [hf] at hrest
            simpa [bounded, returnedCells, stored, room] using hrest
          · have hf : (fifo TYPE cap).next b.items (.push x) = b.items := if_neg room
            rw [hf] at hrest
            simpa [bounded, returnedCells, stored, room] using hrest
      | pop =>
          obtain ⟨items, stuck⟩ := b
          rw [Machine.answers_cons, Machine.after_cons]
          cases items with
          | nil => simpa [bounded, fifo, returnedCells, stored] using hrest
          | cons x tail => simpa [bounded, fifo, returnedCells, stored] using hrest
      | isEmpty =>
          rw [Machine.answers_cons, Machine.after_cons]
          simpa [bounded, fifo, returnedCells, stored] using hrest

/-- For every number of cells and every sequence of calls, no call faults, and what
a user sees are the answers of the reference queue with room for one item less.
The cells returned are written ones, and they hold items of the stored pushes,
each once and in their order. -/
theorem dataQueue_fifo (sz : Nat) (hsz : 1 ≤ sz) (calls : List (Call TYPE)) :
    ∃ q q' answers, dataQueue TYPE sz = .ok q ∧ runCalls callStep q calls = .ok (q', answers) ∧
      answers.map observe = (fifo TYPE (sz - 1)).answers [] calls ∧
      ∃ left, returnedCells answers ++ left = (stored (sz - 1) [] calls).map some := by
  obtain ⟨q, q', new, run, -⟩ := runCalls_dataQueue hsz calls
  have same : SameItems (sz - 1) (⟨[], false⟩ : Contents TYPE) [] := ⟨rfl, by simp⟩
  refine ⟨q, q', _, new, run, ?_, _, returned_append same calls⟩
  exact answers_view (fun b items call h => SameItems.step h call) same calls

/-- In a ring of two cells the second push is discarded. -/
theorem dataQueue_fifo_two : ∃ q q' answers, dataQueue Nat 2 = .ok q ∧
    runCalls callStep q [.push 1, .push 2, .isEmpty, .pop, .pop, .isEmpty] = .ok (q', answers) ∧
      answers.map observe = [none, none, some (.empty false), some (.popped (.item (some 1))),
        some (.popped .noItem), some (.empty true)] := by
  obtain ⟨q, q', answers, new, run, seen, -⟩ := dataQueue_fifo 2 (by decide)
    ([.push 1, .push 2, .isEmpty, .pop, .pop, .isEmpty] : List (Call Nat))
  exact ⟨q, q', answers, new, run, seen⟩

end SamplePrograms.RingBuffer
