import SamplePrograms.Library.TryCatch

/-!
# The test runner of `org.jboss.test.util.ejb`

A test case that is run on a client asks a session bean to run its test method on the server. The
bean makes another instance of the test class and calls its `setUpEJB`, the test method and its
`tearDownEJB`, each in a transaction of its own. What is thrown travels back to the client inside a
`RemoteTestException`, and the client throws a failed assertion as a failed assertion again.

## Implementation notes

The container with its transactions, the class loader and the test classes are parameters. The
state is theirs. Stack traces and class loaders of threads are left out.
-/

namespace SamplePrograms.EjbTest
open TryCatch

/-- The throwables, as far as the classes tell them apart. -/
inductive Throwable where
  | assertionFailedError (message : String)
  | remoteAssertionFailedError (remoteAssertionFailedError : Throwable)
  | remoteTestException (remoteThrowable : Throwable)
  | systemException (message : String)
  | ejbException (message : String)
  | other (className message : String)
  deriving DecidableEq

namespace Throwable

def getMessage : Throwable → String
  | assertionFailedError message => message
  | remoteAssertionFailedError remote => remote.getMessage
  | remoteTestException remote => remote.getMessage
  | systemException message => message
  | ejbException message => message
  | other _ message => message

/-- `instanceof AssertionFailedError`. -/
def isAssertionFailedError : Throwable → Bool
  | assertionFailedError _ | remoteAssertionFailedError _ => true
  | _ => false

/-- `instanceof RemoteTestException`. -/
def isRemoteTestException : Throwable → Bool
  | remoteTestException _ => true
  | _ => false

/-- `instanceof SystemException`. -/
def isSystemException : Throwable → Bool
  | systemException _ => true
  | _ => false

end Throwable

/-- A Java method of the container, the runner or a test class. -/
abbrev Java (S A : Type) := EStateM Throwable S A

abbrev Properties := List (String × String)

def setProperty (props : Properties) (name value : String) : Properties :=
  (name, value) :: props.filter fun p => p.1 ≠ name

/-- The `UserTransaction` of the session context. -/
structure UserTransaction (S : Type) where
  begin : Java S Unit
  getStatus : Java S Nat
  commit : Java S Unit
  rollback : Java S Unit

/-- `Status.STATUS_ACTIVE`. -/
def statusActive : Nat := 0

/-- An instance of a test class. On the server `runBare` calls that of `junit.framework.TestCase`. -/
structure TestCase (S : Type) where
  setUpEJB : Properties → Java S Unit
  runBare : Java S Unit
  tearDownEJB : Properties → Java S Unit

/-- A test class, with its constructor from a method name if it has one. -/
structure TestClass (S : Type) where
  name : String
  constructor : Option (String → Except Throwable (TestCase S))

/-! ## The bean -/

/-- What `EJBTestRunnerBean` finds in its container. -/
structure Container (S : Type) where
  userTransaction : UserTransaction S
  listBindings : Except Throwable (List (String × String))
  loadClass : String → Option (TestClass S)

section Bean
variable {S : Type}

/-- The common body of `setUpEJB`, `runTestCase` and `tearDownEJB`. -/
def inTransaction (transaction : UserTransaction S) (method : Java S Unit) : Java S Unit :=
  tryCatch
    (do
      transaction.begin
      tryCatch method fun e => throw (.remoteTestException e)
      let status ← transaction.getStatus
      if status = statusActive then transaction.commit)
    fun e => do
      tryCatch transaction.rollback fun unused =>
        if unused.isSystemException then pure () else throw unused
      if e.isRemoteTestException then throw e
      throw (.remoteTestException e)

variable (container : Container S)

def setUpEJB (testCase : TestCase S) (props : Properties) : Java S Unit :=
  inTransaction container.userTransaction (testCase.setUpEJB props)

def runTestCase (testCase : TestCase S) : Java S Unit :=
  inTransaction container.userTransaction testCase.runBare

def tearDownEJB (testCase : TestCase S) (props : Properties) : Java S Unit :=
  inTransaction container.userTransaction (testCase.tearDownEJB props)

def getTestInstance (className methodName : String) : Except Throwable (TestCase S) :=
  match container.loadClass className with
  | none => .error (.ejbException ("Test class not found : " ++ className))
  | some testClass =>
      match testClass.constructor with
      | none =>
          .error (.ejbException ("Test class does not have a constructor " ++
            "which has a single String argument."))
      | some constructor =>
          match constructor methodName with
          | .error _ => .error (.ejbException ("Cannot instantiate test class: " ++ testClass.name))
          | .ok testCase => .ok testCase

/-- The `finally` block of `run`, with what the test method threw. -/
def finishRun (testCase : TestCase S) (props : Properties) (exception : Option Throwable) :
    Java S Unit := do
  -- the exception of the tear down is kept if there is one of the test method already
  let exception ← tryCatch
    (do
      tearDownEJB container testCase props
      pure exception)
    fun e =>
      if e.isRemoteTestException then pure (if exception.isSome then some e else exception)
      else throw e
  match exception with
  | some e => throw e
  | none => pure ()

/-- `run` from the call of `setUpEJB` on. -/
def runTestInstance (testCase : TestCase S) (props : Properties) : Java S Unit := do
  setUpEJB container testCase props
  match ← outcome (runTestCase container testCase) with
  | .ok () => finishRun container testCase props none
  | .error e =>
      if e.isRemoteTestException then finishRun container testCase props (some e)
      else do
        finishRun container testCase props none
        throw e

/-- `run` with the properties of the caller. -/
def run (className methodName : String) (props : Properties) : Java S Unit :=
  match getTestInstance container className methodName with
  | .error e => throw e
  | .ok testCase => runTestInstance container testCase props

/-- `run` with the properties of the bean. -/
def runWithBindings (className methodName : String) : Java S Unit := do
  let bindings ← match container.listBindings with
    | .error e => throw (.remoteTestException e)
    | .ok bindings => pure bindings
  run container className methodName
    (bindings.foldl (fun props binding => setProperty props binding.1 binding.2) [])

/-! ## The client -/

/-- An `EJBTestCase` on the client, with the calls of the home and of the bean that go through the
container. A throwable that is no application exception reaches the client as another one. -/
structure Client (S : Type) where
  className : String
  methodName : String
  props : Option Properties
  getEJBTestRunner : Java S Unit
  remove : Java S Unit
  remoteException : Throwable → Throwable

/-- The remote call of `run`. -/
def callRun (client : Client S) : Java S Unit :=
  tryCatch
    (match client.props with
    | some props => run container client.className client.methodName props
    | none => runWithBindings container client.className client.methodName)
    fun e => if e.isRemoteTestException then throw e else throw (client.remoteException e)

/-- The `catch` clause of `runBare`. -/
def rethrown : Throwable → Throwable
  | .remoteTestException remote =>
      if remote.isAssertionFailedError then .remoteAssertionFailedError remote
      else .remoteTestException remote
  | e => e

/-- `runBare` on the client. -/
def runBare (client : Client S) : Java S Unit := do
  match ← outcome client.getEJBTestRunner with
  | .error e => throw (rethrown e)
  | .ok () =>
      let ran ← outcome (callRun container client)
      client.remove
      match ran with
      | .error e => throw (rethrown e)
      | .ok () => pure ()

/-- What the test result says about a test case that has run. -/
inductive Verdict where
  | passed
  | failure (t : Throwable)
  | error (t : Throwable)
  deriving DecidableEq

/-- The verdict with the state after the run. -/
def verdict (client : Client S) (s : S) : Verdict × S :=
  match runBare container client s with
  | .ok () s' => (.passed, s')
  | .error t s' => (if t.isAssertionFailedError then .failure t else .error t, s')

end Bean

end SamplePrograms.EjbTest
