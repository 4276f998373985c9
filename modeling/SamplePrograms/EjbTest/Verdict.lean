import SamplePrograms.EjbTest.Report

/-!
# The verdict of the client

The client asks the bean to run its test and hands what comes back to JUnit. So the verdict depends
on the log of the server alone: a failed assertion on the server is a failure on the client, every
other throwable is an error, and the message is that of the server.

## Implementation notes

The calls of the home and the removal of the bean succeed. An empty property table of the client is
a table, and only without one the bindings of the bean are taken.
-/

namespace SamplePrograms.EjbTest
open TryCatch

variable {S : Type}

/-- The properties that the methods get. -/
def suppliedProps (container : Container S) (client : Client S) : Option Properties :=
  match client.props with
  | some props => some props
  | none =>
      match container.listBindings with
      | .error _ => none
      | .ok bindings =>
          some (bindings.foldl (fun props binding => setProperty props binding.1 binding.2) [])

/-- What JUnit says about a throwable on the server. -/
def verdictOf (t : Throwable) : Verdict :=
  if t.isAssertionFailedError then .failure (.remoteAssertionFailedError t)
  else .error (.remoteTestException t)

/-- The throwable of a verdict. -/
def Verdict.thrown : Verdict → Option Throwable
  | passed => none
  | failure t => some t
  | error t => some t

theorem thrown_verdictOf (t : Throwable) :
    (verdictOf t).thrown.map Throwable.getMessage = some t.getMessage := by
  unfold verdictOf
  split <;> rfl

/-- A call that leaves the transaction and the log as they are. -/
def Passes (status : S → Status) (log : S → List Entry) (call : Java S Unit) : Prop :=
  ∀ s, ∃ s', call s = .ok () s' ∧ status s' = status s ∧ log s' = log s

section Client
variable {container : Container S} {client : Client S} {testCase : TestCase S}
variable {status : S → Status} {log : S → List Entry} {taken : Throwable} {props : Properties}
variable {s : S}

/-- The client calls `run` with the properties it has. -/
theorem callRun_eq (supplied : suppliedProps container client = some props) (s : S) :
    callRun container client s =
      tryCatch (run container client.className client.methodName props)
        (fun e => if e.isRemoteTestException then throw e else throw (client.remoteException e))
        s := by
  unfold suppliedProps at supplied
  unfold callRun
  cases own : client.props with
  | some given =>
      rw [own] at supplied
      cases supplied
      rfl
  | none =>
      rw [own] at supplied
      cases listed : container.listBindings with
      | error e =>
          rw [listed] at supplied
          cases supplied
      | ok bindings =>
          rw [listed] at supplied
          cases supplied
          simp only [runWithBindings, listed]
          rfl

/-- The verdict after a call that passed. -/
theorem verdict_passed {s₁ s₂ s₃ : S} (created : client.getEJBTestRunner s = .ok () s₁)
    (called : callRun container client s₁ = .ok () s₂) (removed : client.remove s₂ = .ok () s₃) :
    verdict container client s = (.passed, s₃) := by
  have ran : runBare container client s = .ok () s₃ := by
    rw [runBare, bind_ok (outcome_ok created)]
    change (outcome (callRun container client) >>= _) s₁ = _
    rw [bind_ok (outcome_ok called), bind_ok removed]
    rfl
  rw [verdict, ran]

/-- The verdict after a call that threw. -/
theorem verdict_threw {s₁ s₂ s₃ : S} {t : Throwable}
    (created : client.getEJBTestRunner s = .ok () s₁)
    (called : callRun container client s₁ = .error (.remoteTestException t) s₂)
    (removed : client.remove s₂ = .ok () s₃) :
    verdict container client s = (verdictOf t, s₃) := by
  have ran : runBare container client s = .error (rethrown (.remoteTestException t)) s₃ := by
    rw [runBare, bind_ok (outcome_ok created)]
    change (outcome (callRun container client) >>= _) s₁ = _
    rw [bind_ok (outcome_error called), bind_ok removed]
    rfl
  rw [verdict, ran]
  by_cases failed : t.isAssertionFailedError = true
  · simp only [rethrown, verdictOf, if_pos failed]
    rfl
  · simp only [rethrown, verdictOf, if_neg failed]
    rfl

end Client

/-! ## A failed assertion and a tear down that throws -/

/-- A client of the test class of `oneClass`. -/
def echoClient : Client World where
  className := "EchoTest"
  methodName := "testEcho"
  props := none
  getEJBTestRunner := pure ()
  remove := pure ()
  remoteException := id

theorem passes_pure : Passes (S := World) Prod.fst Prod.snd (pure ()) :=
  fun s => ⟨s, rfl, rfl, rfl⟩

example : (verdict (oneClass (scriptedCase none (some (.assertionFailedError "expected 1"))
    (some (.other "IOException" "disk")))) echoClient (.noTransaction, [])).1 =
      .error (.remoteTestException (.other "IOException" "disk")) := by decide

end SamplePrograms.EjbTest
