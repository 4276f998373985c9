import SamplePrograms.VipCalculator.Purchases
import SamplePrograms.VipCalculator.Returns

/-!
# Targets and limits of the installments

`vipCalculator-FundsIndia.py` keeps every installment between the limits, and an
installment that neither limit cuts brings the holding to its target, which is
the future value of the installments. `vipCalculator-cagr.py` does not apply the
minimum when the shares are worth less than the target, but by less than the
minimum.
-/

namespace SamplePrograms.VipCalculator
open BreakLoop

/-- The amount is between the limits. -/
def Within (self : VipInvestment) (currInvst : ℚ) : Prop :=
  self.minInvest ≤ currInvst ∧ currInvst ≤ self.maxInvest

/-! ## `vipCalculator-FundsIndia.py` -/

namespace FundsIndia

/-- The future value of a number of installments, with a twelfth of the rate for each month. -/
def futureValue (self : VipInvestment) (installments : ℕ) : ℚ :=
  self.initInvest * ∑ j ∈ Finset.range installments, (1 + self.expectedRet / 1200) ^ j

theorem currTarget_futureValue (self : VipInvestment) (n : ℕ) :
    currTarget self (futureValue self n) = futureValue self (n + 1) := by
  simp only [currTarget, futureValue, geom_sum_succ]
  ring

/-- Where the holding is after an installment: on the target if no limit was applied, below
it after the maximum, above it after the minimum. -/
def Tracks (limit : Option Limit) (value target : ℚ) : Prop :=
  match limit with
  | none => value = target
  | some .upper => value < target
  | some .lower => target < value

/-- The purchase is between the limits, and the holding tracks the target. -/
theorem purchase_tracks {self : VipInvestment} (minInvest : 0 ≤ self.minInvest)
    (limits : self.minInvest ≤ self.maxInvest) {nav : ℚ} (positive : 0 < nav)
    (currTargetPV shareOwn : ℚ) :
    ∃ p, FundsIndia.purchase self currTargetPV nav shareOwn = .ok p ∧
      Within self p.currInvst ∧ Tracks p.limit (nav * (shareOwn + p.shareBro)) currTargetPV := by
  have value : ∀ currInvst limit, nav * (shareOwn + (bought nav currInvst limit).shareBro) =
      currTargetPV + (currInvst - gap currTargetPV nav shareOwn) := by
    intro currInvst limit
    rw [bought, mul_add, mul_div_cancel₀ _ positive.ne', gap]
    ring
  refine ⟨_, purchase_eq self positive currTargetPV shareOwn, ?_⟩
  by_cases below : gap currTargetPV nav shareOwn < 0
  · simp only [if_pos below, value]
    refine ⟨⟨le_rfl, limits⟩, ?_⟩
    show currTargetPV < _
    linarith
  by_cases above : self.maxInvest < gap currTargetPV nav shareOwn
  · simp only [if_neg below, if_pos above, value]
    refine ⟨⟨limits, le_rfl⟩, ?_⟩
    show _ < currTargetPV
    linarith
  by_cases less : gap currTargetPV nav shareOwn < self.minInvest
  · simp only [if_neg below, if_neg above, if_pos less, value]
    refine ⟨⟨le_rfl, limits⟩, ?_⟩
    show currTargetPV < _
    linarith
  · simp only [if_neg below, if_neg above, if_neg less, value]
    refine ⟨⟨not_lt.mp less, not_lt.mp above⟩, ?_⟩
    show _ = currTargetPV
    rw [sub_self, add_zero]

/-- An installment as it should be, when `k` installments came before it. -/
def Planned (self : VipInvestment) (k : ℕ) (i : Iteration Vars ℚ Row) : Prop :=
  Within self i.row.currInvst ∧ i.row.valAvg = futureValue self (k + 1) ∧
    ∃ p, FundsIndia.purchase self i.row.valAvg i.entry i.before.holding.shareOwn = .ok p ∧
      i.row.currInvst = p.currInvst ∧
      i.row.shareOwn = i.before.holding.shareOwn + p.shareBro ∧
      Tracks p.limit (i.entry * i.row.shareOwn) i.row.valAvg

/-- Every installment is between the limits, its target is the future value of the
installments so far, and the holding tracks the target. -/
theorem findRet_planned (self : VipInvestment) (navs : List ℚ) (minInvest : 0 ≤ self.minInvest)
    (limits : self.minInvest ≤ self.maxInvest) (positive : ∀ nav ∈ navs, 0 < nav) :
    (∃ v, (forEach (installment self) start navs).2 = .ok v) ∧
      (findRet self navs).rows = (trace (installment self) start navs).map Iteration.row ∧
      ∀ k i, (trace (installment self) start navs)[k]? = some i → Planned self k i := by
  obtain ⟨final, planned⟩ := @forEach_indexed _ _ _ _ (installment self) start navs
    (fun k v => v.prevTargetPV = futureValue self k) (Planned self)
    (by simp [start, futureValue]) (by
      intro k v nav hnav target
      obtain ⟨p, run, limited, tracks⟩ := purchase_tracks minInvest limits (positive nav hnav)
        (currTarget self v.prevTargetPV) v.holding.shareOwn
      have next : currTarget self v.prevTargetPV = futureValue self (k + 1) := by
        rw [target, currTarget_futureValue]
      exact ⟨_, installment_ok self v nav run, ⟨limited, next, p, run, rfl, rfl, tracks⟩, next⟩)
  exact ⟨final, forEach_rows _ _ _, planned⟩

theorem findRet_planned_default :
    (trace (installment .default) start [10, 22, 8]).map Iteration.row =
        (findRet .default [10, 22, 8]).rows ∧
      ∀ k i, (trace (installment .default) start [10, 22, 8])[k]? = some i →
        Planned .default k i := by
  obtain ⟨-, rows, planned⟩ := findRet_planned .default [10, 22, 8]
    (by norm_num [VipInvestment.default]) (by norm_num [VipInvestment.default]) (by norm_num)
  exact ⟨rows.symm, planned⟩

end FundsIndia

/-! ## `vipCalculator-cagr.py` -/

/-- The amount that is missing to the target before an installment. -/
def missing (v : Vars) (nav : ℚ) : ℚ :=
  gap ((v.holding.count + 1 : ℕ) * v.amount) nav v.holding.shareOwn

/-- Something is missing, or nothing, but less than the minimum. -/
def BelowMinimum (self : VipInvestment) (v : Vars) (nav : ℚ) : Prop :=
  0 ≤ missing v nav ∧ missing v nav < self.minInvest

/-- An installment is between the limits unless too little is missing. -/
theorem installment_within {self : VipInvestment} (limits : self.minInvest ≤ self.maxInvest)
    (avgInvstRet : ℚ) (v : Vars) {nav : ℚ} (positive : 0 < nav) :
    ∃ pass, installment self avgInvstRet v nav = .ok pass ∧
      (Within self pass.row.currInvst ↔ ¬ BelowMinimum self v nav) := by
  have run := installment_ok self avgInvstRet v nav (purchase_eq self positive _ _)
  refine ⟨_, run, ?_⟩
  simp only [BelowMinimum, missing, Within]
  generalize gap _ nav v.holding.shareOwn = missing
  by_cases below : missing < 0
  · simp [below, bought, limits]
  by_cases above : self.maxInvest < missing
  · simp [below, above, bought, limits, (limits.trans_lt above).le]
  · simp only [if_neg below, if_neg above, bought]
    rw [not_lt] at below above
    simp [below, above]

namespace Cagr

/-- The installments of a run. -/
def installments (pow : ℚ → ℚ → ℚ) (self : VipInvestment) (navs : List ℚ) :
    List (Iteration Vars ℚ Row) :=
  match avgInvstRet pow self with
  | .error _ => []
  | .ok avgInvstRet => trace (installment self avgInvstRet) (start self) navs

theorem findRet_rows (pow : ℚ → ℚ → ℚ) (self : VipInvestment) (navs : List ℚ) :
    (findRet pow self navs).rows = (installments pow self navs).map Iteration.row := by
  rw [findRet, installments]
  cases avgInvstRet pow self with
  | error e => rfl
  | ok avg => exact forEach_rows _ _ _

theorem avgInvstRet_default : avgInvstRet intPow .default = .ok 5750 := by
  have year : yearLoop intPow 60000 (23 / 20) 1 0 = 69000 := by
    rw [yearLoop, if_pos one_pos, yearLoop, if_neg (by norm_num)]
    norm_num [intPow]
  have total : totalRet intPow .default = 69000 := by
    norm_num [totalRet, VipInvestment.default, growth, year]
  rw [avgInvstRet, total]
  norm_num [div, VipInvestment.default]

/-- All installments of a run are between the limits exactly when before none of them too
little is missing. -/
theorem findRet_within_iff (pow : ℚ → ℚ → ℚ) (self : VipInvestment) (navs : List ℚ)
    (limits : self.minInvest ≤ self.maxInvest) (positive : ∀ nav ∈ navs, 0 < nav) :
    (∀ row ∈ (findRet pow self navs).rows, Within self row.currInvst) ↔
      ∀ i ∈ installments pow self navs, ¬ BelowMinimum self i.before i.entry := by
  have each : ∀ i ∈ installments pow self navs,
      (Within self i.row.currInvst ↔ ¬ BelowMinimum self i.before i.entry) := by
    unfold installments
    cases avgInvstRet pow self with
    | error e => simp
    | ok avg =>
        apply trace_forall
        intro v nav hnav
        exact installment_within limits avg v (positive nav hnav)
  rw [findRet_rows, List.forall_mem_map]
  exact forall₂_congr each

theorem findRet_within_iff_default :
    (findRet intPow .default [10, 8]).rows =
        [⟨10, 5000, 500, 500, 5000⟩, ⟨8, 11500, 1437 + 1 / 2, 937 + 1 / 2, 7500⟩] ∧
      ∀ i ∈ installments intPow .default [10, 8], ¬ BelowMinimum .default i.before i.entry := by
  have rows : (findRet intPow .default [10, 8]).rows =
      [⟨10, 5000, 500, 500, 5000⟩, ⟨8, 11500, 1437 + 1 / 2, 937 + 1 / 2, 7500⟩] := by
    rw [findRet, avgInvstRet_default]
    decide +kernel
  refine ⟨rows, (findRet_within_iff intPow .default [10, 8]
    (by norm_num [VipInvestment.default]) (by norm_num)).mp ?_⟩
  rw [rows]
  norm_num [Within, VipInvestment.default]

/-- The price grows so that only 500 are missing to the second target. -/
theorem findRet_below_minimum :
    (∀ nav ∈ [10, 22], (0 : ℚ) < nav) ∧ Within .default VipInvestment.default.initInvest ∧
      ¬ ∀ row ∈ (findRet intPow .default [10, 22]).rows, Within .default row.currInvst := by
  refine ⟨by norm_num, by norm_num [Within, VipInvestment.default], ?_⟩
  intro within
  have rows : (findRet intPow .default [10, 22]).rows =
      [⟨10, 5000, 500, 500, 5000⟩, ⟨22, 11500, 500 + 500 / 22, 500 / 22, 500⟩] := by
    rw [findRet, avgInvstRet_default]
    decide +kernel
  have second := within _ (by rw [rows]; exact List.mem_cons_of_mem _ List.mem_cons_self)
  norm_num [Within, VipInvestment.default] at second

end Cagr

end SamplePrograms.VipCalculator
