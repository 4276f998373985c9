import SamplePrograms.Library.Doubles
import SamplePrograms.Library.Stdio

/-!
# The improbability drive of `CodeWar2014/Solution1.cxx`

For each number of its input the program prints a distance whose prime factors are
to have that many arrangements.

## Implementation notes

The function `pow` of the C library is a parameter. The operands of the product are
evaluated from the left to the right. An access outside `prime_list` and the
conversion of a double that does not fit are undefined, and so is what `%lu` stores
for a number outside the range of `unsigned long`.
-/

namespace SamplePrograms.Improbability
open Stdio

/-- The array `prime_list`. -/
def primeList : List ℕ := [2, 3, 5, 7, 11, 13]

/-- The prime at the index, and the index after it. -/
def getNextPrime (primeIndex : BitVec 32) : Option (ℕ × BitVec 32) :=
  primeList[primeIndex.toNat]?.map fun prime => (prime, primeIndex + 1)

/-- The index that `reset_prime_index` stores. -/
def resetPrimeIndex : BitVec 32 := 0

/-- The conversion of a double to `unsigned long`. -/
def toUnsignedLong (x : Float.Model) : Option (BitVec 64) :=
  match x.unpack with
  | .notANumber => none
  | y =>
      let truncated := y.toInt (-1) (2 ^ 64)
      if 0 ≤ truncated ∧ truncated < 2 ^ 64 then some (.ofInt 64 truncated) else none

section
variable (pow : Float.Model → Float.Model → Float.Model)

/-- The returned value and the index after the call. -/
def calImprobability (primeIndex : BitVec 32) (var : BitVec 64) :
    Option (BitVec 64 × BitVec 32) :=
  if var = 1 then some (4, primeIndex)
  else do
    let (base, primeIndex) ← getNextPrime primeIndex
    let (factor, primeIndex) ← getNextPrime primeIndex
    let retVal ← toUnsignedLong (pow (.ofInt base) (.ofInt (var - 1).toNat) * .ofInt factor)
    pure (retVal, primeIndex)

/-- The variable after `sscanf(buf,"%lu",&var)`. -/
def scanVar (buf : List Char) (var : BitVec 64) : BitVec 64 :=
  match scanInt buf with
  | some (value, _) => .ofInt 64 value
  | none => var

/-- The variable `var` of `main` and the static index. -/
structure Vars where
  var : BitVec 64
  primeIndex : BitVec 32

def Vars.initial : Vars := ⟨0, 0⟩

/-- The numbers of a line that is printed. -/
structure Printed where
  var : BitVec 64
  output : BitVec 64
  deriving DecidableEq

/-- The body of the loop of `main`. -/
def processLine (v : Vars) (buf : List Char) : Option (Vars × Printed) := do
  let var := scanVar buf v.var
  let (output, _) ← calImprobability pow v.primeIndex var
  pure (⟨var, resetPrimeIndex⟩, ⟨var, output⟩)

/-- The loop of `main`, with the line that it prints for each line that it reads. -/
def mainLoop (v : Vars) : List (List Char) → Option (List Printed)
  | [] => pure []
  | buf :: rest => do
      let (v, printed) ← processLine pow v buf
      let others ← mainLoop v rest
      pure (printed :: others)

def main (stdin : List Char) : Option (List Printed) :=
  mainLoop pow .initial (fgetsAll 48 stdin)

end

end SamplePrograms.Improbability
