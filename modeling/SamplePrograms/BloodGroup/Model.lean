import SamplePrograms.Library.Stdio
import Mathlib.Logic.Function.Basic

/-!
# The input lines of `bloodgroup.c`

The main program reads one line after another into an array of three arguments,
the father, the mother and the child, and calls one of two functions that print
an answer.

## Implementation notes

A character array is the C string in it. The two printing functions only read
the array, so that a call is the array that it gets. The parameter `length` of
`process_each_input_line` is not used in the source.
-/

namespace SamplePrograms.BloodGroup
open Stdio

/-- An `input_set_t`. -/
structure InputSet where
  bloodGroup : List Char
  rhFactor : List Char
  outputReq : Nat
  deriving DecidableEq

abbrev InputArgs := Fin 3 → InputSet

/-- The array `input_args` before the first line. -/
def initArgs : InputArgs := fun _ => ⟨[], [], 0⟩

namespace InputSet

def setGroup (s : InputSet) (group : List Char) : InputSet := { s with bloodGroup := group }
def setRh (s : InputSet) (rh : List Char) : InputSet := { s with rhFactor := rh }
def ask (s : InputSet) : InputSet := { s with outputReq := 1 }

end InputSet

/-- Change the argument at an index. -/
def modifyAt (args : InputArgs) (i : Fin 3) (f : InputSet → InputSet) : InputArgs :=
  Function.update args i (f (args i))

/-- The loop of `process_each_input_line` from the given index on. -/
def processFrom (args : InputArgs) (index : Nat) : List Char → InputArgs
  | [] => args
  | 'A' :: 'B' :: rest =>
      if h : index < 3 then
        processFrom (modifyAt args ⟨index, h⟩ (·.setGroup ['A', 'B'])) index rest
      else args
  | c :: rest =>
      if h : index < 3 then
        match c with
        | 'A' => processFrom (modifyAt args ⟨index, h⟩ (·.setGroup ['A'])) index rest
        | 'B' => processFrom (modifyAt args ⟨index, h⟩ (·.setGroup ['B'])) index rest
        | '?' => processFrom (modifyAt args ⟨index, h⟩ (·.ask)) (index + 1) rest
        | '+' => processFrom (modifyAt args ⟨index, h⟩ (·.setRh ['+'])) (index + 1) rest
        | '-' => processFrom (modifyAt args ⟨index, h⟩ (·.setRh ['-'])) (index + 1) rest
        | _ => processFrom args index rest
      else args

def processEachInputLine (input : InputArgs) (line : List Char) : InputArgs :=
  processFrom input 0 line

/-- A call of `child_blood_group_print` or `parent_blood_group_print`. -/
inductive Call where
  | child (args : InputArgs)
  | parent (args : InputArgs)

/-- The array that a call gets. -/
def Call.args : Call → InputArgs
  | child args => args
  | parent args => args

/-- The call after a line. -/
def printCall (args : InputArgs) : Call :=
  if (args (Fin.last 2)).outputReq ≠ 0 then .child args else .parent args

/-- The loop of `main`. The first argument is the value of `input_count + 1`, which
the loop tests. At the end of the input the line stays as it is. -/
def mainLoop : Nat → List Char → List Char → InputArgs → List Call
  | 0, _, _, _ => []
  | n + 1, stdin, line, args =>
      let (line, stdin) := (fgets 79 stdin).getD (line, stdin)
      let args := processEachInputLine args line
      printCall args :: mainLoop n stdin line args

/-- `main` from `scanf` on. Without a number the count stays zero. -/
def main (stdin : List Char) : List Call :=
  match scanInt stdin with
  | some (inputCount, rest) => mainLoop (BitVec.ofInt 32 (inputCount + 1)).toNat rest [] initArgs
  | none => mainLoop 1 (scanSign (stdin.dropWhile isSpace)).2 [] initArgs

/-! ## Histories -/

/-- The arguments after the lines of a history. -/
def argsAfter (history : List (List Char)) : InputArgs :=
  history.foldl processEachInputLine initArgs

/-- The call for a line after a history. -/
def callAfter (history : List (List Char)) (line : List Char) : Call :=
  printCall (processEachInputLine (argsAfter history) line)

theorem argsAfter_concat (history : List (List Char)) (line : List Char) :
    argsAfter (history ++ [line]) = processEachInputLine (argsAfter history) line := by
  simp [argsAfter]

/-- The lines that the loop of `main` processes. -/
def mainLines : Nat → List Char → List Char → List (List Char)
  | 0, _, _ => []
  | n + 1, stdin, line =>
      let (line, stdin) := (fgets 79 stdin).getD (line, stdin)
      line :: mainLines n stdin line

/-- Every call of a run is the call for its line after the lines before it. -/
theorem mainLoop_calls (n : Nat) (stdin line : List Char) (history : List (List Char)) (k : Nat) :
    (mainLoop n stdin line (argsAfter history))[k]? =
      (mainLines n stdin line)[k]?.map
        (callAfter (history ++ (mainLines n stdin line).take k)) := by
  induction n generalizing stdin line history k with
  | zero => rfl
  | succ n ih =>
      simp only [mainLoop, mainLines]
      cases k with
      | zero => simp [callAfter]
      | succ k =>
          rw [List.getElem?_cons_succ, List.getElem?_cons_succ, ← argsAfter_concat, ih,
            List.take_succ_cons, List.append_assoc, List.singleton_append]

end SamplePrograms.BloodGroup
