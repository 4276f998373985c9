import SamplePrograms.RingBuffer.Refinement

/-!
# Accepted items that the ring buffer loses

Whether a push is accepted depends on `queueFull`, and whether the queue is empty
depends on `front` and `tail`. The push that finds the ring filled up is still
accepted, but its item stays in the cell at `tail` and is overwritten later. So
exactly the sequences that never push onto a filled ring lose no item.
-/

namespace SamplePrograms.RingBuffer
open Memory Calls

variable {TYPE : Type*}

/-- The item of a push that was not ignored. -/
def acceptedBy : Call TYPE → Answer TYPE → List TYPE
  | .push x, .pushed true => [x]
  | _, _ => []

/-- The items of the pushes that were not ignored. -/
def accepted (calls : List (Call TYPE)) (answers : List (Answer TYPE)) : List TYPE :=
  (calls.zipWith acceptedBy answers).flatten

/-- The item that a pop returned. -/
def returnedBy : Answer TYPE → List TYPE
  | .popped (.item (some x)) => [x]
  | _ => []

/-- The items that the pops returned. -/
def returned (answers : List (Answer TYPE)) : List TYPE := answers.flatMap returnedBy

@[simp] theorem accepted_nil : accepted ([] : List (Call TYPE)) [] = [] := rfl

@[simp] theorem accepted_cons (call : Call TYPE) (calls : List (Call TYPE)) (answer : Answer TYPE)
    (answers : List (Answer TYPE)) :
    accepted (call :: calls) (answer :: answers) =
      acceptedBy call answer ++ accepted calls answers := rfl

@[simp] theorem returned_nil : returned ([] : List (Answer TYPE)) = [] := rfl

@[simp] theorem returned_cons (answer : Answer TYPE) (answers : List (Answer TYPE)) :
    returned (answer :: answers) = returnedBy answer ++ returned answers := rfl

/-- After enough pops the items returned are the items accepted, in their order. -/
def AllReturned (sz : Nat) (calls : List (Call TYPE)) : Prop :=
  ∃ n, ∀ m, n ≤ m → ∃ q q' answers, dataQueue TYPE sz = .ok q ∧
    runCalls callStep q (calls ++ List.replicate m .pop) = .ok (q', answers) ∧
    returned answers = accepted (calls ++ List.replicate m .pop) answers

/-- However many pops follow, the queue says that it is empty only when every
accepted item has been returned. -/
def EmptyWhenReturned (sz : Nat) (calls : List (Call TYPE)) : Prop :=
  ∀ m, ∃ q q' answers, dataQueue TYPE sz = .ok q ∧
    runCalls callStep q (calls ++ List.replicate m .pop) = .ok (q', answers) ∧
    (isEmpty q' = true → returned answers = accepted (calls ++ List.replicate m .pop) answers)

/-- No push is made while the queue holds `cap` items. The number is that of the
items in the queue before the calls. -/
def Fits (cap : Nat) : Nat → List (Call TYPE) → Prop
  | _, [] => True
  | n, .push _ :: rest => n < cap ∧ Fits cap (n + 1) rest
  | n, .pop :: rest => Fits cap (n - 1) rest
  | n, .isEmpty :: rest => Fits cap n rest

/-- One for a push that is accepted without room for its item. -/
def overflow (cap : Nat) (b : Contents TYPE) : Call TYPE → Nat
  | .push _ => if b.stuck = false ∧ ¬ b.items.length < cap then 1 else 0
  | _ => 0

/-- The number of pushes that are accepted without room for their item. -/
def overflows (cap : Nat) : Contents TYPE → List (Call TYPE) → Nat
  | _, [] => 0
  | b, call :: rest => overflow cap b call + overflows cap ((bounded TYPE cap).next b call) rest

variable {cap : Nat} {b : Contents TYPE}

theorem overflows_append (first second : List (Call TYPE)) :
    overflows cap b (first ++ second) =
      overflows cap b first + overflows cap ((bounded TYPE cap).after b first) second := by
  induction first generalizing b with
  | nil => simp [overflows]
  | cons call rest ih =>
      simp only [List.cons_append, overflows, ih, Machine.after_cons]
      omega

theorem overflows_pops (m : Nat) : overflows cap b (List.replicate m .pop) = 0 := by
  induction m generalizing b with
  | zero => rfl
  | succ m ih => simp [List.replicate_succ, overflows, overflow, ih]

/-- Pops take the items off one after another. -/
theorem items_after_pops (cap m : Nat) :
    ((bounded TYPE cap).after b (List.replicate m .pop)).items = b.items.drop m := by
  induction m generalizing b with
  | zero => rfl
  | succ m ih =>
      rw [List.replicate_succ, Machine.after_cons, ih]
      obtain ⟨items, stuck⟩ := b
      cases items with
      | nil => simp [bounded]
      | cons x rest => rfl

/-! ## One call -/

/-- A call without overflow moves its item in at the end or out at the front. -/
theorem step_order (cap : Nat) (call : Call TYPE) (h : overflow cap b call = 0) :
    b.items ++ acceptedBy call ((bounded TYPE cap).answer b call) =
      returnedBy ((bounded TYPE cap).answer b call) ++ ((bounded TYPE cap).next b call).items := by
  obtain ⟨items, stuck⟩ := b
  cases call with
  | push x =>
      cases stuck with
      | true => simp [bounded, acceptedBy, returnedBy]
      | false =>
          have room : items.length < cap := by
            by_contra hn
            simp [overflow, hn] at h
          simp [bounded, acceptedBy, returnedBy, room]
  | pop =>
      cases items with
      | nil => rfl
      | cons x rest => simp [bounded, acceptedBy, returnedBy]
  | isEmpty => simp [bounded, acceptedBy, returnedBy]

/-- A call moves as many items in as out, but for an overflow. -/
theorem step_length (cap : Nat) (call : Call TYPE) :
    b.items.length + (acceptedBy call ((bounded TYPE cap).answer b call)).length =
      (returnedBy ((bounded TYPE cap).answer b call)).length +
        ((bounded TYPE cap).next b call).items.length + overflow cap b call := by
  by_cases h : overflow cap b call = 0
  · have order := congrArg List.length (step_order cap call h)
    rw [List.length_append, List.length_append] at order
    omega
  · obtain ⟨items, stuck⟩ := b
    cases call with
    | push x =>
        cases stuck with
        | true => simp [overflow] at h
        | false =>
            have full : ¬ items.length < cap := fun room => by simp [overflow, room] at h
            simp [bounded, acceptedBy, returnedBy, overflow, full]
    | pop => exact absurd rfl h
    | isEmpty => exact absurd rfl h

/-! ## Sequences of calls -/

/-- Without overflows what was there and what is accepted is returned in order or left. -/
theorem accepted_order (cap : Nat) (calls : List (Call TYPE)) (h : overflows cap b calls = 0) :
    b.items ++ accepted calls ((bounded TYPE cap).answers b calls) =
      returned ((bounded TYPE cap).answers b calls) ++
        ((bounded TYPE cap).after b calls).items := by
  induction calls generalizing b with
  | nil => simp
  | cons call rest ih =>
      simp only [overflows] at h
      have first := step_order cap call (b := b) (by omega)
      have others := ih (b := (bounded TYPE cap).next b call) (by omega)
      rw [Machine.answers_cons, Machine.after_cons, accepted_cons, returned_cons]
      calc b.items ++ (acceptedBy call _ ++ accepted rest _)
          = (b.items ++ acceptedBy call _) ++ accepted rest _ := by rw [List.append_assoc]
        _ = returnedBy _ ++ (((bounded TYPE cap).next b call).items ++ accepted rest _) := by
          rw [first, List.append_assoc]
        _ = returnedBy _ ++ returned _ ++ _ := by rw [others, List.append_assoc]

/-- Every item that was there or is accepted is returned, is left, or overflows. -/
theorem accepted_length (cap : Nat) (calls : List (Call TYPE)) :
    b.items.length + (accepted calls ((bounded TYPE cap).answers b calls)).length =
      (returned ((bounded TYPE cap).answers b calls)).length +
        ((bounded TYPE cap).after b calls).items.length + overflows cap b calls := by
  induction calls generalizing b with
  | nil => simp [overflows]
  | cons call rest ih =>
      have first := step_length cap call (b := b)
      have others := ih (b := (bounded TYPE cap).next b call)
      rw [Machine.answers_cons, Machine.after_cons, accepted_cons, returned_cons, overflows,
        List.length_append, List.length_append]
      omega

/-- Pushes that fit are the pushes without overflow. -/
theorem overflows_eq_zero_iff (cap : Nat) (calls : List (Call TYPE)) (notStuck : b.stuck = false)
    (room : b.items.length ≤ cap) :
    overflows cap b calls = 0 ↔ Fits cap b.items.length calls := by
  induction calls generalizing b with
  | nil => simp [overflows, Fits]
  | cons call rest ih =>
      obtain ⟨items, stuck⟩ := b
      cases notStuck
      cases call with
      | push x =>
          by_cases hlt : items.length < cap
          · have hrest := ih (b := ⟨items ++ [x], false⟩) rfl (by
            simpa using Nat.succ_le_of_lt hlt)
            simpa [overflows, overflow, Fits, bounded, hlt] using hrest
          · simp [overflows, overflow, Fits, hlt]
      | pop =>
          cases items with
          | nil => simpa [overflows, overflow, Fits, bounded] using ih (b := ⟨[], false⟩) rfl room
          | cons x tail =>
              have hrest := ih (b := ⟨tail, false⟩) rfl (Nat.le_of_succ_le room)
              simpa [overflows, overflow, Fits, bounded] using hrest
      | isEmpty =>
          simpa [overflows, overflow, Fits, bounded] using ih (b := ⟨items, false⟩) rfl room

section Runs
variable {sz : Nat}

/-- A new queue after a list of calls and some pops. -/
theorem run_pops (hsz : 1 ≤ sz) (calls : List (Call TYPE)) (m : Nat) :
    ∃ q q' answers, dataQueue TYPE sz = .ok q ∧
      runCalls callStep q (calls ++ List.replicate m .pop) = .ok (q', answers) ∧
      isEmpty q' =
        (((bounded TYPE (sz - 1)).after ⟨[], false⟩ calls).items.drop m).isEmpty ∧
      (overflows (sz - 1) ⟨[], false⟩ calls = 0 →
        accepted (calls ++ List.replicate m .pop) answers = returned answers ++
          ((bounded TYPE (sz - 1)).after ⟨[], false⟩ calls).items.drop m) ∧
      (accepted (calls ++ List.replicate m .pop) answers).length =
        (returned answers).length +
          (((bounded TYPE (sz - 1)).after ⟨[], false⟩ calls).items.drop m).length +
            overflows (sz - 1) ⟨[], false⟩ calls := by
  obtain ⟨q, q', new, run, h⟩ := runCalls_dataQueue hsz (calls ++ List.replicate m .pop)
  have same : overflows (sz - 1) (⟨[], false⟩ : Contents TYPE) (calls ++ List.replicate m .pop) =
      overflows (sz - 1) ⟨[], false⟩ calls := by
    rw [overflows_append, overflows_pops, Nat.add_zero]
  have left := items_after_pops (sz - 1) m
    (b := (bounded TYPE (sz - 1)).after ⟨[], false⟩ calls)
  rw [← Machine.after_append] at left
  refine ⟨q, q', _, new, run, ?_, fun none => ?_, ?_⟩
  · rw [h.isEmpty, left]
  · have order := accepted_order (sz - 1) (calls ++ List.replicate m .pop) (same.trans none)
    rw [left] at order
    simpa only [List.nil_append] using order
  · have length := accepted_length (b := ⟨[], false⟩) (sz - 1) (calls ++ List.replicate m .pop)
    rw [left, same] at length
    simpa only [List.length_nil, Nat.zero_add] using length

/-- Every accepted item is returned exactly when no push overflows. -/
theorem allReturned_iff (hsz : 1 ≤ sz) (calls : List (Call TYPE)) :
    AllReturned sz calls ↔ overflows (sz - 1) ⟨[], false⟩ calls = 0 := by
  let left := ((bounded TYPE (sz - 1)).after ⟨[], false⟩ calls).items
  constructor
  · rintro ⟨n, all⟩
    obtain ⟨q, q', answers, new, run, same⟩ := all (max n left.length) (Nat.le_max_left _ _)
    obtain ⟨p, p', answers', new', run', -, -, length⟩ :=
      run_pops hsz calls (max n left.length)
    cases new.symm.trans new'
    cases run.symm.trans run'
    rw [List.drop_of_length_le (Nat.le_max_right _ _), ← same] at length
    simp only [List.length_nil] at length
    omega
  · intro none
    refine ⟨left.length, fun m hm => ?_⟩
    obtain ⟨q, q', answers, new, run, -, order, -⟩ := run_pops hsz calls m
    refine ⟨q, q', answers, new, run, ?_⟩
    rw [order none, List.drop_of_length_le hm, List.append_nil]

/-- The queue says that it is empty only when every accepted item has been
returned exactly when no push overflows. -/
theorem emptyWhenReturned_iff (hsz : 1 ≤ sz) (calls : List (Call TYPE)) :
    EmptyWhenReturned sz calls ↔ overflows (sz - 1) ⟨[], false⟩ calls = 0 := by
  let left := ((bounded TYPE (sz - 1)).after ⟨[], false⟩ calls).items
  constructor
  · intro all
    obtain ⟨q, q', answers, new, run, same⟩ := all left.length
    obtain ⟨p, p', answers', new', run', empty, -, length⟩ := run_pops hsz calls left.length
    cases new.symm.trans new'
    cases run.symm.trans run'
    have drained : left.drop left.length = [] := List.drop_of_length_le (Nat.le_refl _)
    rw [drained] at empty length
    rw [← same empty] at length
    simp only [List.length_nil] at length
    omega
  · intro none m
    obtain ⟨q, q', answers, new, run, empty, order, -⟩ := run_pops hsz calls m
    refine ⟨q, q', answers, new, run, fun he => ?_⟩
    rw [empty, List.isEmpty_iff] at he
    rw [order none, he, List.append_nil]

/-- For every number of cells and every sequence of calls: every accepted item is
returned once in its order after enough pops, and likewise the queue is empty
only when every accepted item has been returned, exactly when no push is made
while the queue holds one item less than the ring has cells. -/
theorem accepted_returned_iff (sz : Nat) (hsz : 1 ≤ sz) (calls : List (Call TYPE)) :
    (AllReturned sz calls ↔ Fits (sz - 1) 0 calls) ∧
      (EmptyWhenReturned sz calls ↔ Fits (sz - 1) 0 calls) := by
  have fits := overflows_eq_zero_iff (b := ⟨[], false⟩) (sz - 1) calls rfl (Nat.zero_le _)
  constructor
  · exact (allReturned_iff hsz calls).trans fits
  · exact (emptyWhenReturned_iff hsz calls).trans fits

/-- A ring of two cells accepts a second item and never returns it. -/
theorem accepted_returned_not_always :
    ¬ ∀ (sz : Nat) (calls : List (Call Nat)), 1 ≤ sz →
      AllReturned sz calls ∧ EmptyWhenReturned sz calls := by
  intro all
  have none := (allReturned_iff (by decide) _).mp (all 2 [.push 1, .push 2] (by decide)).1
  revert none
  decide

/-- A ring of three cells returns two items. -/
theorem accepted_returned_two :
    AllReturned 3 [Call.push 1, .push 2] ∧ EmptyWhenReturned 3 [Call.push 1, .push 2] := by
  have h := accepted_returned_iff 3 (by decide) [Call.push 1, .push 2]
  have fits : Fits 2 0 [Call.push 1, .push 2] := by simp [Fits]
  exact ⟨h.1.mpr fits, h.2.mpr fits⟩

end Runs

end SamplePrograms.RingBuffer
