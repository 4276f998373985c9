import SamplePrograms.Library.ForLoop

/-!
# The strikes of `BandhAnalysis/Solution1.cpp`

A party calls a strike on every multiple of its parameter, except on Saturdays
and Sundays. The program counts the days on which some party calls one.

## Implementation notes

The numbers that `processPartyInput` reads are a list. A loop over a 64-bit index
that has not ended after as many iterations as the index has values never ends.
-/

namespace SamplePrograms.BandhAnalysis
open ForLoop

/-- `DAYS_INTERVAL`. -/
def daysInterval : ℕ := 7

structure Party where
  bparam : BitVec 32
  totDaysCount : BitVec 64

/-- The product of an `unsigned long` and an `unsigned int`. -/
def mulParam (index : BitVec 64) (bp : BitVec 32) : BitVec 64 := index * bp.setWidth 64

/-- The parties of a test case, from the parameters that are read. -/
def partyVector (daysCount : BitVec 64) (params : List (BitVec 32)) : List Party :=
  params.map fun bp => ⟨bp, daysCount⟩

def processPartyInput (testCasesList : List (List Party)) (daysCount : BitVec 64)
    (params : List (BitVec 32)) : List (List Party) :=
  testCasesList ++ [partyVector daysCount params]

/-- The variables of the inner loop. -/
structure Counter where
  index : BitVec 64
  condVal : BitVec 64

def Counter.first (bp : BitVec 32) : Counter := ⟨1, mulParam 1 bp⟩

/-- The end of the body, where the index is increased. -/
def Counter.next (bp : BitVec 32) (c : Counter) : Counter :=
  ⟨c.index + 1, mulParam (c.index + 1) bp⟩

/-- Whether `rd` is the remainder of a working day. Saturday and Sunday are excluded. -/
def isWorkingDay (rd : BitVec 32) : Bool :=
  0 < rd.toNat && rd.toNat < daysInterval - 1

/-- The body of the inner loop up to the end. -/
def visitDay (bp : BitVec 32) (workingSet : Finset (BitVec 64)) (c : Counter) :
    Finset (BitVec 64) :=
  let rd := (c.condVal % BitVec.ofNat 64 daysInterval).setWidth 32
  if isWorkingDay rd then insert (mulParam c.index bp) workingSet else workingSet

/-- The number of values of a 64-bit index. -/
def indexCount : ℕ := 2 ^ 64

/-- The inner loop. -/
def partyDays (daysCount : BitVec 64) (bp : BitVec 32) (workingSet : Finset (BitVec 64)) :
    Option (Finset (BitVec 64)) :=
  forLoop (fun c => c.condVal.ule daysCount) (Counter.next bp)
    (fun workingSet c => pure (visitDay bp workingSet c)) indexCount (.first bp) workingSet

/-- There is no first party in an empty list. -/
def processOneTestCase (partyList : List Party) : Option (BitVec 32) := do
  let first ← partyList.head?
  let daysCount := first.totDaysCount
  let workingSet ←
    partyList.foldlM (fun workingSet pr => partyDays daysCount pr.bparam workingSet) ∅
  pure (.ofNat 32 workingSet.card)

/-- The answers that `main` prints for the test cases it has read. -/
def main (testCases : List (BitVec 64 × List (BitVec 32))) : Option (List (BitVec 32)) :=
  (testCases.foldl (fun l t => processPartyInput l t.1 t.2) []).mapM processOneTestCase

end SamplePrograms.BandhAnalysis
