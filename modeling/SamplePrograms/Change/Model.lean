import SamplePrograms.Library.ForLoop
import SamplePrograms.Library.Stdio

/-!
# Change in coins of 4, of 1/2 and of 1/4 asiap

Change of `N` asiap is to be returned in `N` coins, with at least one of each
kind. `Main.java` has two searches that return the first solution they find.
`Solution3.c` has one that stores every solution it finds over the one before,
and a main program that answers one line of its input after another.

## Implementation notes

A loop over a 32-bit counter that has not ended after as many iterations as the
counter has values never ends. The double sums are those of Lean. The C library
leaves open what `%u` stores for a number outside the range of `unsigned int`.
The parameter `sol_size` is not used in the source.
-/

namespace SamplePrograms.Change
open ForLoop Stdio

/-- The number of values of a 32-bit counter. -/
def wordCount : ℕ := 2 ^ 32

/-- The test `(n*4 + m*0.5 + o*0.25) == N`, from the value of the integer `n*4` on. -/
def amountsTo (n4 m o N : ℤ) : Bool :=
  Float.Model.ofInt n4 + .ofInt m * .ofScientific 5 (-1) + .ofInt o * .ofScientific 25 (-2) ==
    .ofInt N

/-! ## `Main.java` -/

/-- The two loops of a search, where `m` begins with `first` and grows by `step`. The
exception is the array that is returned. -/
def searchBins (first step N : BitVec 32) : ExceptT (List (BitVec 32)) Option Unit :=
  forLoop (fun n => n.slt N) (fun n => n + 1) (fun _ n =>
    forLoop (fun m => m.slt (N - n)) (fun m => m + step) (fun _ m =>
      let o := N - n - m
      if amountsTo (n * 4).toInt m.toInt o.toInt N.toInt then throw [n, m, o] else pure ())
      wordCount first ()) wordCount 1 ()

def threeBins (first step N : BitVec 32) : Option (List (BitVec 32)) :=
  (searchBins first step N).run.map fun
    | .error solution => solution
    | .ok () => []

def findAllCombinationsOfNIntoThreeBinsOptimized (N : BitVec 32) : Option (List (BitVec 32)) :=
  threeBins 3 3 N

def findAllCombinationsOfNIntoThreeBins (N : BitVec 32) : Option (List (BitVec 32)) :=
  threeBins 1 1 N

/-! ## `Solution3.c` -/

/-- The three elements of the array `sol`. -/
structure Solution where
  n : BitVec 32
  m : BitVec 32
  o : BitVec 32
  deriving DecidableEq

def Solution.zero : Solution := ⟨0, 0, 0⟩

def findSolution (N : BitVec 32) (sol : Solution) : Option Solution :=
  forLoop (fun n => n.ult N) (fun n => n + 1) (fun sol n =>
    forLoop (fun m => m.ult (N - n)) (fun m => m + 1) (fun sol m =>
      let o := N - n - m
      if amountsTo (n * 4).toNat m.toNat o.toNat N.toNat then pure ⟨n, m, o⟩ else pure sol)
      wordCount 1 sol) wordCount 1 sol

/-- The lines printed for a solution. -/
def solutionLines (n m o : ℤ) : List String :=
  [toString n ++ " coins of 4 asiap each", toString m ++ " coins of 1/2 asiap each",
    toString o ++ " coins of 1/4 asiap each", "==="]

/-- The lines printed when there is no solution. -/
def noSolutionLines : List String := ["No Solution found ", "==="]

/-- The variables of `main`. -/
structure Vars where
  var : BitVec 32
  solution : Solution

def Vars.initial : Vars := ⟨0, .zero⟩

/-- The variable after `sscanf(buf,"%u",&var)`. -/
def scanVar (buf : List Char) (var : BitVec 32) : BitVec 32 :=
  match scanInt buf with
  | some (value, _) => .ofInt 32 value
  | none => var

/-- The body of the loop of `main`, with the lines that it prints. -/
def processLine (v : Vars) (buf : List Char) : Option (Vars × List String) := do
  let var := scanVar buf v.var
  let solution ← findSolution var v.solution
  pure (⟨var, solution⟩,
    if solution.n = 0 then noSolutionLines
    else solutionLines solution.n.toInt solution.m.toInt solution.o.toInt)

/-- The loop of `main`, with the lines that it prints for each line that it reads. -/
def mainLoop (v : Vars) : List (List Char) → Option (List (List String))
  | [] => pure []
  | buf :: rest => do
      let (v, printed) ← processLine v buf
      let others ← mainLoop v rest
      pure (printed :: others)

def main (stdin : List Char) : Option (List (List String)) :=
  mainLoop .initial (fgetsAll 48 stdin)

end SamplePrograms.Change
