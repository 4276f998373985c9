import SamplePrograms.Library.BoundedArray

/-!
# The sorting program `prog_quicksort.c`

The function `quicksort` partitions a range of an array around its first element and sorts
the two sides. The function `partition` enters its `do` loop at the label `partLS`, behind
the exchange of two elements. Both scans of the loop read an element before they compare the
index with its bound.

## Implementation notes

The elements are integers, since they are only compared and moved. The indices are
integers as well. None that the program computes is more than one outside the range that is
sorted, so none overflows if the length of the array is an `int`. The `do` loop and the
recursion run on fuel.
-/

namespace SamplePrograms.Quicksort
open BoundedArray

variable {n : ℕ}

/-- `while (y[up] <= piv && up < l) up++`. -/
def scanUp (piv l up : ℤ) : Action ℤ n ℤ := do
  let y ← read up
  if h : y ≤ piv ∧ up < l then scanUp piv l (up + 1) else pure up
termination_by (l - up).toNat

/-- `while (y[down] > piv && down > f) down--`. -/
def scanDown (piv f down : ℤ) : Action ℤ n ℤ := do
  let y ← read down
  if h : y > piv ∧ down > f then scanDown piv f (down - 1) else pure down
termination_by (down - f).toNat

/-- The statements before the label `partLS`. -/
def exchange (up down : ℤ) : Action ℤ n Unit := do
  let temp ← read up
  let y ← read down
  write up y
  write down temp

/-- The `do` loop from the label `partLS` on. -/
def partLS (piv f l : ℤ) : ℕ → ℤ → ℤ → Action ℤ n ℤ
  | 0, _, _ => outOfFuel
  | fuel + 1, up, down => do
      let up ← scanUp piv l up
      let down ← scanDown piv f down
      if down > up then do
        exchange up down
        partLS piv f l fuel up down
      else pure down

def partition (fuel : ℕ) (f l : ℤ) : Action ℤ n ℤ := do
  let piv ← read f
  let down ← partLS piv f l fuel f l
  let y ← read down
  write f y
  write down piv
  pure down

def quicksort : ℕ → ℤ → ℤ → Action ℤ n Unit
  | 0, _, _ => outOfFuel
  | fuel + 1, first, last =>
      if first < last then do
        let pivIndex ← partition fuel first last
        quicksort fuel first (pivIndex - 1)
        quicksort fuel (pivIndex + 1) last
      else pure ()

end SamplePrograms.Quicksort
