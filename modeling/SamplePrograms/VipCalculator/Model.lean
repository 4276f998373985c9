import Mathlib
import SamplePrograms.Library.BreakLoop

/-!
# The three calculators of `businessAutomation`

A value averaging plan buys shares at the price of the day, the NAV, until the
holding is worth a target that grows with each installment. The amount of an
installment is cut to a maximum and a minimum. `vipCalculator.py` and
`vipCalculator-cagr.py` differ in the average installment return only.
`vipCalculator-FundsIndia.py` has targets of its own and checks the minimum once
more.

## Implementation notes

Numbers are exact rationals. A division by zero is an exception. The NAVs are
those that `float` reads from the lines of the file. The power function of the
`math` module is a parameter, and it raises no exception.
-/

namespace SamplePrograms.VipCalculator
open BreakLoop

inductive PyError where
  | zeroDivision
  deriving DecidableEq

/-- The division of Python. -/
def div (a b : ℚ) : Except PyError ℚ := if b = 0 then .error .zeroDivision else .ok (a / b)

theorem div_ok {b : ℚ} (h : b ≠ 0) (a : ℚ) : div a b = .ok (a / b) := if_neg h

/-- The numbers of a `vipInvestment`. -/
structure VipInvestment where
  initInvest : ℚ
  minInvest : ℚ
  maxInvest : ℚ
  expectedRet : ℚ
  installmentCount : ℤ

/-- The values for options that are not given. -/
def VipInvestment.default : VipInvestment := ⟨5000, 1000, 10000, 15, 12⟩

/-- The arguments of `__printRow`. -/
structure Row where
  nav : ℚ
  valAvg : ℚ
  shareOwn : ℚ
  shareBro : ℚ
  currInvst : ℚ
  deriving DecidableEq

/-- The numbers that `__printSummary` prints. -/
structure Summary where
  instCount : ℕ
  shareOwn : ℚ
  totalInvst : ℚ
  averageCost : ℚ
  deriving DecidableEq

/-- What a run prints, where an exception takes the place of the summary. -/
structure Printed where
  rows : List Row
  summary : Except PyError Summary

def printSummary (instCount : ℕ) (shareOwn totalInvst : ℚ) : Except PyError Summary := do
  let averageCost ← div totalInvst shareOwn
  pure ⟨instCount, shareOwn, totalInvst, averageCost⟩

/-- The limits of an installment. -/
inductive Limit where
  | upper
  | lower
  deriving DecidableEq

/-- The shares that an installment buys, its amount, and the limit that was applied. -/
structure Purchase where
  shareBro : ℚ
  currInvst : ℚ
  limit : Option Limit
  deriving DecidableEq

/-- An installment that is cut to a limit. -/
def cutTo (currInvst nav : ℚ) (limit : Limit) : Except PyError Purchase := do
  let shareBro ← div currInvst nav
  pure ⟨shareBro, currInvst, some limit⟩

/-- The variables of the loop that the summary prints. -/
structure Holding where
  count : ℕ
  shareOwn : ℚ
  totalInvst : ℚ

def Holding.empty : Holding := ⟨0, 0, 0⟩

/-- The holding after an installment. -/
def Holding.add (h : Holding) (p : Purchase) : Holding :=
  ⟨h.count + 1, h.shareOwn + p.shareBro, h.totalInvst + p.currInvst⟩

/-- Whether the loop is left. The test comes after the installment. -/
def Holding.reached (h : Holding) (self : VipInvestment) (target : ℚ) : Bool :=
  h.totalInvst < target && self.installmentCount ≤ h.count

/-- The loop over the NAVs, and the summary. -/
def runLoop {σ : Type} (body : σ → ℚ → Except PyError (Pass σ Row)) (holding : σ → Holding)
    (start : σ) (navs : List ℚ) : Printed :=
  let run := forEach body start navs
  { rows := run.1
    summary := do
      let v ← run.2
      printSummary (holding v).count (holding v).shareOwn (holding v).totalInvst }

/-! ## `vipCalculator.py` and `vipCalculator-cagr.py` -/

/-- The variables of the loop. -/
structure Vars where
  holding : Holding
  amount : ℚ

def purchase (self : VipInvestment) (valAvg nav shareOwn : ℚ) : Except PyError Purchase := do
  let shareReq ← div valAvg nav
  if shareReq ≥ shareOwn then
    let shareBro := shareReq - shareOwn
    let currInvst := nav * shareBro
    if currInvst > self.maxInvest then
      cutTo self.maxInvest nav .upper
    else
      pure ⟨shareBro, currInvst, none⟩
  else
    cutTo self.minInvest nav .lower

/-- The body of the loop. -/
def installment (self : VipInvestment) (avgInvstRet : ℚ) (v : Vars) (nav : ℚ) :
    Except PyError (Pass Vars Row) := do
  let count := v.holding.count + 1
  let valAvg := count * v.amount
  let p ← purchase self valAvg nav v.holding.shareOwn
  let holding := v.holding.add p
  pure
    { row := ⟨nav, valAvg, holding.shareOwn, p.shareBro, p.currInvst⟩
      next := ⟨holding, avgInvstRet⟩
      leave := holding.reached self valAvg }

/-- The variables before the loop. -/
def start (self : VipInvestment) : Vars := ⟨.empty, self.initInvest⟩

/-- The loop and the summary, once the average installment return is known. -/
def averageRet (self : VipInvestment) (avgInvstRet : ℚ) (navs : List ℚ) : Printed :=
  runLoop (installment self avgInvstRet) Vars.holding (start self) navs

/-- The run, unless there is no average installment return. -/
def runWith (self : VipInvestment) (avgInvstRet : Except PyError ℚ) (navs : List ℚ) : Printed :=
  match avgInvstRet with
  | .error e => ⟨[], .error e⟩
  | .ok avgInvstRet => averageRet self avgInvstRet navs

/-- The average installment return of `vipCalculator.py`. -/
def avgInvstRet (self : VipInvestment) : Except PyError ℚ :=
  let totalInvst := self.initInvest * self.installmentCount
  let totalRet := totalInvst + totalInvst * self.expectedRet / 100
  div totalRet self.installmentCount

/-- `findRet` of `vipCalculator.py`. -/
def findRet (self : VipInvestment) (navs : List ℚ) : Printed :=
  runWith self (avgInvstRet self) navs

namespace Cagr

/-- The loop over the full years. -/
def yearLoop (pow : ℚ → ℚ → ℚ) (annualInvst growth yearCount totalRet : ℚ) : ℚ :=
  if 0 < yearCount then
    yearLoop pow annualInvst growth (yearCount - 1) (totalRet + annualInvst * pow growth yearCount)
  else totalRet
  termination_by ⌈yearCount⌉₊
  decreasing_by
    rw [Nat.ceil_sub_one]
    exact Nat.sub_lt (Nat.ceil_pos.mpr ‹_›) Nat.one_pos

def growth (self : VipInvestment) : ℚ := 1 + self.expectedRet / 100

def totalRet (pow : ℚ → ℚ → ℚ) (self : VipInvestment) : ℚ :=
  let annualInvst := self.initInvest * 12
  let yearCount : ℚ := self.installmentCount / 12
  let yearRem : ℚ := (self.installmentCount % 12 : ℤ)
  yearLoop pow annualInvst (growth self) yearCount 0 +
    self.initInvest * yearRem * pow (growth self) (yearRem / 12)

def avgInvstRet (pow : ℚ → ℚ → ℚ) (self : VipInvestment) : Except PyError ℚ :=
  div (totalRet pow self) self.installmentCount

/-- `findRet` of `vipCalculator-cagr.py`. -/
def findRet (pow : ℚ → ℚ → ℚ) (self : VipInvestment) (navs : List ℚ) : Printed :=
  runWith self (avgInvstRet pow self) navs

end Cagr

/-! ## `vipCalculator-FundsIndia.py` -/

namespace FundsIndia

/-- The variables of the loop. -/
structure Vars where
  holding : Holding
  prevTargetPV : ℚ

def purchase (self : VipInvestment) (currTargetPV nav shareOwn : ℚ) :
    Except PyError Purchase := do
  let shareReq ← div currTargetPV nav
  if shareReq ≥ shareOwn then
    let shareBro := shareReq - shareOwn
    let currInvst := nav * shareBro
    if currInvst > self.maxInvest then
      cutTo self.maxInvest nav .upper
    else if currInvst < self.minInvest then
      cutTo self.minInvest nav .lower
    else
      pure ⟨shareBro, currInvst, none⟩
  else
    cutTo self.minInvest nav .lower

def currTarget (self : VipInvestment) (prevTargetPV : ℚ) : ℚ :=
  prevTargetPV * (self.expectedRet / 100) / 12 + (prevTargetPV + self.initInvest)

/-- The body of the loop. -/
def installment (self : VipInvestment) (v : Vars) (nav : ℚ) : Except PyError (Pass Vars Row) := do
  let currTargetPV := currTarget self v.prevTargetPV
  let p ← purchase self currTargetPV nav v.holding.shareOwn
  let holding := v.holding.add p
  pure
    { row := ⟨nav, currTargetPV, holding.shareOwn, p.shareBro, p.currInvst⟩
      next := ⟨holding, currTargetPV⟩
      leave := holding.reached self currTargetPV }

/-- The variables before the loop. -/
def start : Vars := ⟨.empty, 0⟩

/-- `findRet` of `vipCalculator-FundsIndia.py`. -/
def findRet (self : VipInvestment) (navs : List ℚ) : Printed :=
  runLoop (installment self) Vars.holding start navs

end FundsIndia

end SamplePrograms.VipCalculator
