import SamplePrograms.EjbTest.Model
import Mathlib.Data.List.Basic

/-!
# What a test run reports

Two views of the state are enough to say what a run reports: the status of the transaction of the
thread, and a log of the methods of the test case that were called. The test passes when its
method has returned. Otherwise the last throwable of the log is reported. A method that marks its
transaction for rollback and returns leaves the transaction behind, so that the next method is not
called.

## Implementation notes

The two views are assumptions on the container and on the test case. The log is a ghost. The
container works: it starts a transaction when there is none, and completes the one there is.
-/

namespace SamplePrograms.EjbTest
open TryCatch

/-- The transaction of a thread. -/
inductive Status where
  | active
  | markedRollback
  | noTransaction
  deriving DecidableEq

/-- The codes of `javax.transaction.Status`. -/
def Status.code : Status → Nat
  | active => 0
  | markedRollback => 1
  | noTransaction => 6

inductive Method where
  | setUpEJB
  | runBare
  | tearDownEJB
  deriving DecidableEq

/-- A call of a method, what it threw, and how it left the transaction. -/
structure Entry where
  method : Method
  thrown : Option Throwable
  status : Status
  deriving DecidableEq

/-- The methods return a log entry for each call, and do not complete the transaction they are
called in. -/
def Logs {S : Type} (status : S → Status) (log : S → List Entry) (m : Method)
    (method : Java S Unit) : Prop :=
  ∀ s, status s = .active → ∃ s', status s' ≠ .noTransaction ∧
    (method s = .ok () s' ∧ log s' = log s ++ [⟨m, none, status s'⟩] ∨
      ∃ e, method s = .error e s' ∧ log s' = log s ++ [⟨m, some e, status s'⟩])

/-- The transaction service works, and throws `taken` where a transaction is left. -/
structure Works {S : Type} (transaction : UserTransaction S) (status : S → Status)
    (log : S → List Entry) (taken : Throwable) : Prop where
  begins : ∀ s, status s = .noTransaction →
    ∃ s', transaction.begin s = .ok () s' ∧ status s' = .active ∧ log s' = log s
  refuses : ∀ s, status s ≠ .noTransaction → transaction.begin s = .error taken s
  tells : ∀ s, transaction.getStatus s = .ok (status s).code s
  commits : ∀ s, status s = .active →
    ∃ s', transaction.commit s = .ok () s' ∧ status s' = .noTransaction ∧ log s' = log s
  rollsBack : ∀ s, status s ≠ .noTransaction →
    ∃ s', transaction.rollback s = .ok () s' ∧ status s' = .noTransaction ∧ log s' = log s
  checked : taken.isRemoteTestException = false

/-! ## One method in its transaction -/

section Phase
variable {S : Type} {transaction : UserTransaction S} {status : S → Status}
variable {log : S → List Entry} {taken : Throwable} {s : S}

/-- The handler of `inTransaction`. -/
def handle (transaction : UserTransaction S) (e : Throwable) : Java S Unit := do
  tryCatch transaction.rollback fun unused =>
    if unused.isSystemException then pure () else throw unused
  if e.isRemoteTestException then throw e
  throw (.remoteTestException e)

theorem Works.handle (works : Works transaction status log taken) (e : Throwable)
    (left : status s ≠ .noTransaction) :
    ∃ s', EjbTest.handle transaction e s =
        .error (if e.isRemoteTestException then e else .remoteTestException e) s' ∧
      status s' = .noTransaction ∧ log s' = log s := by
  obtain ⟨s', rolled, free, same⟩ := works.rollsBack s left
  refine ⟨s', ?_, free, same⟩
  rw [EjbTest.handle, bind_ok (tryCatch_ok rolled _)]
  cases e.isRemoteTestException <;> rfl

/-- A transaction that was left behind keeps the method from being called. -/
theorem inTransaction_taken (method : Java S Unit) (works : Works transaction status log taken)
    (left : status s ≠ .noTransaction) :
    ∃ s', inTransaction transaction method s = .error (.remoteTestException taken) s' ∧
      status s' = .noTransaction ∧ log s' = log s := by
  obtain ⟨s', handled, free, same⟩ := works.handle taken left
  refine ⟨s', ?_, free, same⟩
  rw [works.checked, if_neg Bool.false_ne_true] at handled
  rw [inTransaction, tryCatch_error (bind_error (works.refuses s left) _)]
  exact handled

/-- What a method does to a thread without a transaction. -/
inductive Ends (status : S → Status) (log : S → List Entry) (m : Method) (s : S) :
    EStateM.Result Throwable S Unit → Prop
  | returned {s'} (free : status s' = .noTransaction)
      (logged : log s' = log s ++ [⟨m, none, .active⟩]) : Ends status log m s (.ok () s')
  | marked {s'} (left : status s' = .markedRollback)
      (logged : log s' = log s ++ [⟨m, none, .markedRollback⟩]) : Ends status log m s (.ok () s')
  | threw {s'} {e : Throwable} {st : Status} (free : status s' = .noTransaction)
      (logged : log s' = log s ++ [⟨m, some e, st⟩]) :
      Ends status log m s (.error (.remoteTestException e) s')

theorem inTransaction_ends {m : Method} {method : Java S Unit} (works : Works transaction status log taken)
    (logs : Logs status log m method) (free : status s = .noTransaction) :
    Ends status log m s (inTransaction transaction method s) := by
  obtain ⟨s₁, begun, active, same₁⟩ := works.begins s free
  obtain ⟨s₂, left, ran⟩ := logs s₁ active
  rcases ran with ⟨returned, logged⟩ | ⟨e, threw, logged⟩
  · have called : tryCatch method (fun e => throw (Throwable.remoteTestException e)) s₁ =
        .ok () s₂ := tryCatch_ok returned _
    cases mark : status s₂ with
    | noTransaction => exact absurd mark left
    | active =>
        obtain ⟨s₃, committed, free₃, same₃⟩ := works.commits s₂ mark
        have run : inTransaction transaction method s = .ok () s₃ := by
          apply tryCatch_ok
          rw [bind_ok begun, bind_ok called, bind_ok (works.tells s₂), mark]
          exact committed
        rw [run]
        apply Ends.returned free₃
        rw [same₃, logged, same₁, mark]
    | markedRollback =>
        have run : inTransaction transaction method s = .ok () s₂ := by
          apply tryCatch_ok
          rw [bind_ok begun, bind_ok called, bind_ok (works.tells s₂), mark]
          rfl
        rw [run]
        apply Ends.marked mark
        rw [logged, same₁, mark]
  · have called : tryCatch method (fun e => throw (Throwable.remoteTestException e)) s₁ =
        .error (.remoteTestException e) s₂ := tryCatch_error threw _
    obtain ⟨s₃, handled, free₃, same₃⟩ := works.handle (.remoteTestException e) left
    have run : inTransaction transaction method s = .error (.remoteTestException e) s₃ := by
      rw [inTransaction, tryCatch_error]
      · exact handled
      · rw [bind_ok begun, bind_error called]
    rw [run]
    apply Ends.threw free₃
    rw [same₃, logged, same₁]

end Phase

/-! ## The run on the server -/

/-- The test method was called and has returned. -/
def passed (log : List Entry) : Bool := log.any fun e => e.method = .runBare ∧ e.thrown = none

/-- The throwable of the last call that threw one. -/
def lastThrown (log : List Entry) : Option Throwable := (log.filterMap Entry.thrown).getLast?

/-- What a run reports, by the log of its calls and the transaction it leaves. -/
structure Reports (taken : Throwable) (log : List Entry) (left : Status)
    (result : Except Throwable Unit) : Prop where
  result : result = if passed log then .ok ()
    else .error (.remoteTestException ((lastThrown log).getD taken))
  order : (log.map Entry.method).Sublist [.setUpEJB, .runBare, .tearDownEJB]
  tornDown : (∃ e ∈ log, e.method = .tearDownEJB) ↔
    (∃ e ∈ log, e.method = .setUpEJB ∧ e.thrown = none) ∧
      ¬ ∃ e ∈ log, e.method = .runBare ∧ e.thrown = none ∧ e.status = .markedRollback
  leaves : left = if ∃ e ∈ log, e.method = .tearDownEJB ∧ e.thrown = none ∧
      e.status = .markedRollback then .markedRollback else .noTransaction

section Run
variable {S : Type} {container : Container S} {testCase : TestCase S} {status : S → Status}
variable {log : S → List Entry} {taken : Throwable} {props : Properties} {s : S}

/-- The transaction that an entry leaves. -/
def Entry.left (e : Entry) : Status :=
  if e.thrown = none ∧ e.status = .markedRollback then .markedRollback else .noTransaction

/-- The tear down of a thread without a transaction. What it throws takes the place of the throwable
of the test method, and is dropped when there is none. -/
theorem finishRun_free (works : Works container.userTransaction status log taken)
    (logs : Logs status log .tearDownEJB (testCase.tearDownEJB props))
    (free : status s = .noTransaction) (exception : Option Throwable) :
    ∃ s' e, e.method = .tearDownEJB ∧ log s' = log s ++ [e] ∧ status s' = e.left ∧
      finishRun container testCase props exception s =
        match exception with
        | none => .ok () s'
        | some t => .error (match e.thrown with
          | some thrown => .remoteTestException thrown
          | none => t) s' := by
  have ends := inTransaction_ends works logs free
  unfold finishRun tearDownEJB
  cases run : inTransaction container.userTransaction (testCase.tearDownEJB props) s with
  | ok u s' =>
      have caught := tryCatch_ok (bind_ok run fun _ => (pure exception : Java S (Option Throwable)))
        fun e => if e.isRemoteTestException then pure (if exception.isSome then some e else exception)
          else throw e
      rw [bind_ok caught]
      rw [run] at ends
      cases ends with
      | returned free logged =>
          exact ⟨s', _, rfl, logged, by simpa [Entry.left] using free, by cases exception <;> rfl⟩
      | marked left logged =>
          exact ⟨s', _, rfl, logged, by simpa [Entry.left] using left, by cases exception <;> rfl⟩
  | error e s' =>
      rw [run] at ends
      cases ends with
      | @threw _ e st free logged =>
          have caught := tryCatch_error
            (bind_error run fun _ => (pure exception : Java S (Option Throwable)))
            fun e => if e.isRemoteTestException then
              pure (if exception.isSome then some e else exception) else throw e
          refine ⟨s', _, rfl, logged, by simpa [Entry.left] using free, ?_⟩
          cases exception with
          | none =>
              rw [bind_ok (caught.trans rfl)]
              rfl
          | some t =>
              rw [bind_ok (caught.trans rfl)]
              rfl

/-- Where a transaction is left, nothing is torn down and nobody learns of it. -/
theorem finishRun_taken (testCase : TestCase S) (props : Properties) (works : Works container.userTransaction status log taken)
    (left : status s ≠ .noTransaction) :
    ∃ s', finishRun container testCase props none s = .ok () s' ∧ status s' = .noTransaction ∧
      log s' = log s := by
  obtain ⟨s', threw, free, same⟩ := inTransaction_taken (testCase.tearDownEJB props) works left
  refine ⟨s', ?_, free, same⟩
  have caught := tryCatch_error
    (bind_error threw fun _ => (pure none : Java S (Option Throwable)))
    fun e => if e.isRemoteTestException then pure (if (none : Option Throwable).isSome then some e
      else none) else throw e
  unfold finishRun tearDownEJB
  rw [bind_ok (caught.trans rfl)]
  rfl

/-- The container and the test case of a run. -/
structure Tested (container : Container S) (testCase : TestCase S) (status : S → Status)
    (log : S → List Entry) (taken : Throwable) (props : Properties) : Prop where
  works : Works container.userTransaction status log taken
  setUp : Logs status log .setUpEJB (testCase.setUpEJB props)
  body : Logs status log .runBare testCase.runBare
  tearDown : Logs status log .tearDownEJB (testCase.tearDownEJB props)

/-- The end of a run agrees with its report. -/
def Reporting (taken : Throwable) (status : S → Status) (log : S → List Entry) :
    EStateM.Result Throwable S Unit → Prop
  | .ok () s' => Reports taken (log s') (status s') (.ok ())
  | .error e s' => Reports taken (log s') (status s') (.error e)

/-- The report of a set up that threw. -/
theorem reports_setUp (taken e : Throwable) (st : Status) :
    Reports taken [⟨.setUpEJB, some e, st⟩] .noTransaction (.error (.remoteTestException e)) where
  result := by simp [passed, lastThrown]
  order := by simp
  tornDown := by simp
  leaves := by simp

/-- The report of a set up that left its transaction behind. -/
theorem reports_marked (taken : Throwable) (thrown : Option Throwable) (st : Status) :
    Reports taken [⟨.setUpEJB, none, .markedRollback⟩, ⟨.tearDownEJB, thrown, st⟩]
      (Entry.left ⟨.tearDownEJB, thrown, st⟩)
      (.error (match thrown with
        | some e => .remoteTestException e
        | none => .remoteTestException taken)) where
  result := by cases thrown <;> simp [passed, lastThrown]
  order := by simp
  tornDown := by simp
  leaves := by simp [Entry.left]

/-- The report of a test method that left its transaction behind. -/
theorem reports_untorn (taken : Throwable) :
    Reports taken [⟨.setUpEJB, none, .active⟩, ⟨.runBare, none, .markedRollback⟩] .noTransaction
      (.ok ()) where
  result := by simp [passed]
  order := by simp
  tornDown := by simp
  leaves := by simp

/-- The report of a test method that returned. -/
theorem reports_passed (taken : Throwable) (thrown : Option Throwable) (st : Status) :
    Reports taken [⟨.setUpEJB, none, .active⟩, ⟨.runBare, none, .active⟩,
      ⟨.tearDownEJB, thrown, st⟩] (Entry.left ⟨.tearDownEJB, thrown, st⟩) (.ok ()) where
  result := by simp [passed]
  order := by simp
  tornDown := by simp
  leaves := by simp [Entry.left]

/-- The report of a test method that threw. -/
theorem reports_threw (taken e : Throwable) (mid : Status) (thrown : Option Throwable)
    (st : Status) :
    Reports taken [⟨.setUpEJB, none, .active⟩, ⟨.runBare, some e, mid⟩,
      ⟨.tearDownEJB, thrown, st⟩] (Entry.left ⟨.tearDownEJB, thrown, st⟩)
      (.error (match thrown with
        | some thrown => .remoteTestException thrown
        | none => .remoteTestException e)) where
  result := by cases thrown <;> simp [passed, lastThrown]
  order := by simp
  tornDown := by simp
  leaves := by simp [Entry.left]

/-- A run whose test method threw. -/
theorem runTestInstance_threw {e : Throwable} {s₁ s₂ : S}
    (ran : setUpEJB container testCase props s = .ok () s₁)
    (threw : runTestCase container testCase s₁ = .error (.remoteTestException e) s₂) :
    runTestInstance container testCase props s =
      finishRun container testCase props (some (.remoteTestException e)) s₂ := by
  rw [runTestInstance, bind_ok ran, bind_ok (outcome_error threw)]
  rfl

/-- A run whose test method returned. -/
theorem runTestInstance_returned {s₁ s₂ : S}
    (ran : setUpEJB container testCase props s = .ok () s₁)
    (returned : runTestCase container testCase s₁ = .ok () s₂) :
    runTestInstance container testCase props s = finishRun container testCase props none s₂ := by
  rw [runTestInstance, bind_ok ran, bind_ok (outcome_ok returned)]

end Run

/-! ## A transaction service and test cases with a script -/

/-- The status of the transaction, and the log. -/
abbrev World := Status × List Entry

def notSupported : Throwable := .other "NotSupportedException" "transaction already started"

def service : UserTransaction World where
  begin s := if s.1 = .noTransaction then .ok () (.active, s.2) else .error notSupported s
  getStatus s := .ok s.1.code s
  commit s :=
    if s.1 = .active then .ok () (.noTransaction, s.2)
    else .error (.other "RollbackException" "") (.noTransaction, s.2)
  rollback s :=
    if s.1 = .noTransaction then .error (.other "IllegalStateException" "") s
    else .ok () (.noTransaction, s.2)

theorem service_works : Works service Prod.fst Prod.snd notSupported where
  begins s free := ⟨(.active, s.2), by simp [service, free], rfl, rfl⟩
  refuses s left := by simp [service, left]
  tells s := rfl
  commits s active := ⟨(.noTransaction, s.2), by simp [service, active], rfl, rfl⟩
  rollsBack s left := ⟨(.noTransaction, s.2), by simp [service, left], rfl, rfl⟩
  checked := rfl

/-- A method that throws what it is told. -/
def scripted (m : Method) (thrown : Option Throwable) : Java World Unit := fun s =>
  match thrown with
  | none => .ok () (s.1, s.2 ++ [⟨m, none, s.1⟩])
  | some e => .error e (s.1, s.2 ++ [⟨m, some e, s.1⟩])

theorem scripted_logs (m : Method) (thrown : Option Throwable) :
    Logs Prod.fst Prod.snd m (scripted m thrown) := by
  intro s active
  refine ⟨(s.1, s.2 ++ [⟨m, thrown, s.1⟩]), by simp [active], ?_⟩
  cases thrown with
  | none => exact Or.inl ⟨rfl, rfl⟩
  | some e => exact Or.inr ⟨e, rfl, rfl⟩

def scriptedCase (setUp body tearDown : Option Throwable) : TestCase World where
  setUpEJB _ := scripted .setUpEJB setUp
  runBare := scripted .runBare body
  tearDownEJB _ := scripted .tearDownEJB tearDown

/-- A container with one test class. -/
def oneClass (testCase : TestCase World) : Container World where
  userTransaction := service
  listBindings := .ok []
  loadClass name := if name = "EchoTest" then some ⟨name, some fun _ => .ok testCase⟩ else none

theorem scriptedCase_tested (setUp body tearDown : Option Throwable) (props : Properties) :
    Tested (oneClass (scriptedCase setUp body tearDown)) (scriptedCase setUp body tearDown)
      Prod.fst Prod.snd notSupported props where
  works := service_works
  setUp := scripted_logs _ _
  body := scripted_logs _ _
  tearDown := scripted_logs _ _

end SamplePrograms.EjbTest
