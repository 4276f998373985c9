import SamplePrograms.VipCalculator.Model
import SamplePrograms.Library.HarmonicMean

/-!
# What the installments buy

Each installment spends an amount that is not negative at the price of the day,
so the average cost of a share is a weighted harmonic mean of the prices.
-/

namespace SamplePrograms.VipCalculator
open BreakLoop HarmonicMean

/-! ## One purchase -/

/-- The shares for an amount. -/
def bought (nav currInvst : ℚ) (limit : Option Limit) : Purchase :=
  ⟨currInvst / nav, currInvst, limit⟩

/-- What is missing between the value of the shares and the target. -/
def gap (target nav shareOwn : ℚ) : ℚ := target - nav * shareOwn

section Purchase
variable {nav : ℚ}

theorem cutTo_eq (positive : 0 < nav) (currInvst : ℚ) (limit : Limit) :
    cutTo currInvst nav limit = .ok (bought nav currInvst (some limit)) := by
  rw [cutTo, div_ok positive.ne']
  rfl

theorem shareOwn_le_iff (positive : 0 < nav) (target shareOwn : ℚ) :
    target / nav ≥ shareOwn ↔ 0 ≤ gap target nav shareOwn := by
  rw [ge_iff_le, le_div_iff₀ positive, gap, sub_nonneg, mul_comm]

/-- The shares that are required beyond those owned cost the gap. -/
theorem sub_shareOwn_eq (positive : 0 < nav) (target shareOwn : ℚ) :
    target / nav - shareOwn = gap target nav shareOwn / nav := by
  rw [gap, sub_div, mul_div_cancel_left₀ _ positive.ne']

/-- The gap is invested up to the maximum, and the minimum when the shares are worth too much. -/
theorem purchase_eq (self : VipInvestment) (positive : 0 < nav) (valAvg shareOwn : ℚ) :
    purchase self valAvg nav shareOwn = .ok (
      let missing := gap valAvg nav shareOwn
      if missing < 0 then bought nav self.minInvest (some .lower)
      else if self.maxInvest < missing then bought nav self.maxInvest (some .upper)
      else bought nav missing none) := by
  rw [purchase, div_ok positive.ne']
  simp only [bind, Except.bind, shareOwn_le_iff positive, sub_shareOwn_eq positive,
    mul_div_cancel₀ _ positive.ne', cutTo_eq positive, gt_iff_lt, pure, Except.pure]
  by_cases below : gap valAvg nav shareOwn < 0
  · rw [if_neg (not_le.mpr below), if_pos below]
  · rw [if_pos (not_lt.mp below), if_neg below]
    split <;> rfl

/-- The gap is invested between the limits. -/
theorem FundsIndia.purchase_eq (self : VipInvestment) (positive : 0 < nav)
    (currTargetPV shareOwn : ℚ) :
    FundsIndia.purchase self currTargetPV nav shareOwn = .ok (
      let missing := gap currTargetPV nav shareOwn
      if missing < 0 then bought nav self.minInvest (some .lower)
      else if self.maxInvest < missing then bought nav self.maxInvest (some .upper)
      else if missing < self.minInvest then bought nav self.minInvest (some .lower)
      else bought nav missing none) := by
  rw [FundsIndia.purchase, div_ok positive.ne']
  simp only [bind, Except.bind, shareOwn_le_iff positive, sub_shareOwn_eq positive,
    mul_div_cancel₀ _ positive.ne', cutTo_eq positive, gt_iff_lt, pure, Except.pure]
  by_cases below : gap currTargetPV nav shareOwn < 0
  · rw [if_neg (not_le.mpr below), if_pos below]
  · rw [if_pos (not_lt.mp below), if_neg below]
    split
    · rfl
    · split <;> rfl

end Purchase

/-! ## The holding -/

/-- An installment adds what it bought to the holding. -/
structure Buys {σ : Type} (holding : σ → Holding) (v : σ) (nav : ℚ) (pass : Pass σ Row) :
    Prop where
  price : pass.row.nav = nav
  nonneg : 0 ≤ pass.row.currInvst
  count : (holding pass.next).count = (holding v).count + 1
  shareOwn : (holding pass.next).shareOwn = (holding v).shareOwn + pass.row.currInvst / nav
  totalInvst : (holding pass.next).totalInvst = (holding v).totalInvst + pass.row.currInvst

/-- The amount of a row. -/
abbrev spentIn (rows : List Row) : ℚ := spent Row.currInvst rows

/-- The shares of the rows, at the price of each. -/
abbrev unitsIn (rows : List Row) : ℚ := units Row.nav Row.currInvst rows

/-- The summary has a positive number of shares. Its totals are the sums over the rows, one
for each NAV that was processed, and its average cost lies between the lowest and the
highest of these. -/
def SoundSummary (navs : List ℚ) (printed : Printed) : Prop :=
  ∃ summary, printed.summary = .ok summary ∧ 0 < summary.shareOwn ∧
    printed.rows.map Row.nav <+: navs ∧ summary.instCount = printed.rows.length ∧
    summary.totalInvst = (printed.rows.map Row.currInvst).sum ∧
    summary.shareOwn = (printed.rows.map fun row => row.currInvst / row.nav).sum ∧
    ∃ lowest ∈ printed.rows, ∃ highest ∈ printed.rows,
      (∀ row ∈ printed.rows, lowest.nav ≤ row.nav ∧ row.nav ≤ highest.nav) ∧
      lowest.nav ≤ summary.averageCost ∧ summary.averageCost ≤ highest.nav

section Loop
variable {σ : Type} {body : σ → ℚ → Except PyError (Pass σ Row)} {holding : σ → Holding}
  {start : σ} {navs : List ℚ}

/-- The holding is what the rows bought. -/
structure Accounts (holding : σ → Holding) (start : σ) (rows : List Row) (v : σ) : Prop where
  first : rows = [] → v = start
  some : rows ≠ [] → 0 < unitsIn rows
  positive : ∀ row ∈ rows, 0 < row.nav
  nonneg : ∀ row ∈ rows, 0 ≤ row.currInvst
  count : (holding v).count = rows.length
  shareOwn : (holding v).shareOwn = unitsIn rows
  totalInvst : (holding v).totalInvst = spentIn rows

theorem Accounts.empty (empty : holding start = .empty) : Accounts holding start [] start where
  first := fun _ => rfl
  some := fun h => absurd rfl h
  positive := by simp
  nonneg := by simp
  count := by rw [empty]; rfl
  shareOwn := by rw [empty]; rfl
  totalInvst := by rw [empty]; rfl

theorem Accounts.step {rows : List Row} {v : σ} (h : Accounts holding start rows v) {nav : ℚ}
    (positive : 0 < nav) {pass : Pass σ Row} (buys : Buys holding v nav pass)
    (first : v = start → 0 < pass.row.currInvst) :
    Accounts holding start (rows ++ [pass.row]) pass.next where
  first := by simp
  some := by
    intro _
    have this : 0 ≤ pass.row.currInvst / pass.row.nav :=
      div_nonneg buys.nonneg (buys.price ▸ positive.le)
    rw [unitsIn, units_append, units_singleton]
    by_cases none : rows = []
    · have more : 0 < pass.row.currInvst / pass.row.nav :=
        div_pos (first (h.first none)) (buys.price ▸ positive)
      simpa [none, units] using more
    · exact add_pos_of_pos_of_nonneg (h.some none) this
  positive := by
    intro row hrow
    rcases List.mem_append.mp hrow with old | new
    · exact h.positive row old
    · rw [List.mem_singleton.mp new, buys.price]
      exact positive
  nonneg := by
    intro row hrow
    rcases List.mem_append.mp hrow with old | new
    · exact h.nonneg row old
    · rw [List.mem_singleton.mp new]
      exact buys.nonneg
  count := by rw [buys.count, h.count, List.length_append, List.length_singleton]
  shareOwn := by
    rw [buys.shareOwn, h.shareOwn, unitsIn, unitsIn, units_append, units_singleton, buys.price]
  totalInvst := by
    rw [buys.totalInvst, h.totalInvst, spentIn, spentIn, spent_append, spent_singleton]

/-- A holding that accounts for its rows has a sound summary. -/
theorem Accounts.soundSummary {rows : List Row} {v : σ} (h : Accounts holding start rows v)
    (nonempty : rows ≠ []) (processed : rows.map Row.nav <+: navs) :
    SoundSummary navs
      ⟨rows, printSummary (holding v).count (holding v).shareOwn (holding v).totalInvst⟩ := by
  have some := h.some nonempty
  have printed : printSummary (holding v).count (holding v).shareOwn (holding v).totalInvst =
      .ok ⟨rows.length, unitsIn rows, spentIn rows, spentIn rows / unitsIn rows⟩ := by
    rw [h.count, h.shareOwn, h.totalInvst, printSummary, div_ok some.ne']
    rfl
  obtain ⟨lowest, low, highest, high, bounds⟩ := exists_bounds nonempty Row.nav
  have mean := mean_bounds h.positive h.nonneg bounds some
  exact ⟨_, printed, some, processed, rfl, rfl, rfl, lowest, low, highest, high, bounds, mean⟩

/-- A loop whose installments buy at the NAVs has a sound summary. -/
theorem runLoop_soundSummary (nonempty : navs ≠ []) (positive : ∀ nav ∈ navs, 0 < nav)
    (empty : holding start = .empty)
    (step : ∀ v nav, 0 < nav → ∃ pass, body v nav = .ok pass ∧ Buys holding v nav pass ∧
      (v = start → 0 < pass.row.currInvst)) :
    SoundSummary navs (runLoop body holding start navs) := by
  obtain ⟨v, final, accounts, entries⟩ := @forEach_inv _ _ _ _ body start navs
    (fun done v => Accounts holding start (done.map Iteration.row) v ∧
      done.map (Row.nav ∘ Iteration.row) = done.map Iteration.entry)
    ⟨.empty empty, rfl⟩ (by
      rintro done v nav hnav ⟨accounts, entries⟩
      obtain ⟨pass, run, buys, first⟩ := step v nav (positive nav hnav)
      refine ⟨pass, run, ?_, ?_⟩
      · rw [List.map_append]
        exact accounts.step (positive nav hnav) buys first
      · simp [entries, buys.price])
  rw [← forEach_rows] at accounts
  have processed : (forEach body start navs).1.map Row.nav <+: navs := by
    rw [forEach_rows, List.map_map, entries]
    exact trace_entries body start navs
  have some : (forEach body start navs).1 ≠ [] := by
    obtain ⟨nav, rest, rfl⟩ := List.exists_cons_of_ne_nil nonempty
    obtain ⟨pass, run, -⟩ := step start nav (positive nav List.mem_cons_self)
    rw [forEach_ok run]
    split <;> simp
  have sound := accounts.soundSummary some processed
  rw [runLoop, final]
  exact sound

end Loop

/-! ## The calculators -/

/-- The numbers of a plan that invests something in its first installment. -/
structure Positive (vip : VipInvestment) : Prop where
  initInvest : 0 < vip.initInvest
  maxInvest : 0 < vip.maxInvest
  minInvest : 0 ≤ vip.minInvest

/-- The purchase spends an amount that is not negative, and something if no shares are owned
and the target is positive. -/
def Spends (nav target shareOwn : ℚ) (result : Except PyError Purchase) : Prop :=
  ∃ currInvst limit, result = .ok (bought nav currInvst limit) ∧ 0 ≤ currInvst ∧
    (shareOwn = 0 → 0 < target → 0 < currInvst)

section Calculators
variable {self : VipInvestment} {nav : ℚ}

theorem gap_of_shareOwn_zero {shareOwn : ℚ} (none : shareOwn = 0) (target nav : ℚ) :
    gap target nav shareOwn = target := by
  rw [gap, none, mul_zero, sub_zero]

/-- A purchase whose limits apply first spends as it should if the rest does. -/
theorem Positive.spends (h : Positive self) {target shareOwn : ℚ} {rest : Purchase}
    (others : 0 ≤ gap target nav shareOwn → ∃ currInvst limit, rest = bought nav currInvst limit ∧
      0 ≤ currInvst ∧ (0 < gap target nav shareOwn → 0 < currInvst)) :
    Spends nav target shareOwn (.ok (
      let missing := gap target nav shareOwn
      if missing < 0 then bought nav self.minInvest (some .lower)
      else if self.maxInvest < missing then bought nav self.maxInvest (some .upper)
      else rest)) := by
  by_cases below : gap target nav shareOwn < 0
  · refine ⟨_, _, congrArg Except.ok (if_pos below), h.minInvest, ?_⟩
    intro none some
    rw [gap_of_shareOwn_zero none] at below
    exact absurd some below.not_gt
  · simp only [if_neg below]
    by_cases above : self.maxInvest < gap target nav shareOwn
    · exact ⟨_, _, congrArg Except.ok (if_pos above), h.maxInvest.le, fun _ _ => h.maxInvest⟩
    · obtain ⟨currInvst, limit, rfl, nonneg, positive⟩ := others (not_lt.mp below)
      refine ⟨_, _, congrArg Except.ok (if_neg above), nonneg, ?_⟩
      intro none some
      exact positive (by rwa [gap_of_shareOwn_zero none])

theorem Positive.purchase (h : Positive self) (positive : 0 < nav) (valAvg shareOwn : ℚ) :
    Spends nav valAvg shareOwn (purchase self valAvg nav shareOwn) := by
  rw [purchase_eq self positive]
  exact h.spends fun nonneg => ⟨_, _, rfl, nonneg, id⟩

theorem Positive.fundsIndia_purchase (h : Positive self) (positive : 0 < nav)
    (currTargetPV shareOwn : ℚ) :
    Spends nav currTargetPV shareOwn (FundsIndia.purchase self currTargetPV nav shareOwn) := by
  rw [FundsIndia.purchase_eq self positive]
  apply h.spends
  intro nonneg
  by_cases less : gap currTargetPV nav shareOwn < self.minInvest
  · exact ⟨_, _, if_pos less, h.minInvest, fun some => some.trans less⟩
  · exact ⟨_, _, if_neg less, nonneg, id⟩

/-- A purchase that spends something makes an installment that buys. -/
theorem Spends.exists_pass {σ : Type} {holding : σ → Holding} {v : σ} {target : ℚ}
    {result : Except PyError Purchase} (h : Spends nav target (holding v).shareOwn result)
    {step : Except PyError (Pass σ Row)} {pass : Purchase → Pass σ Row}
    (run : ∀ p, result = .ok p → step = .ok (pass p))
    (row : ∀ p, (pass p).row.nav = nav ∧ (pass p).row.currInvst = p.currInvst)
    (next : ∀ p, holding (pass p).next = (holding v).add p) :
    ∃ pass, step = .ok pass ∧ Buys holding v nav pass ∧
      ((holding v).shareOwn = 0 → 0 < target → 0 < pass.row.currInvst) := by
  obtain ⟨currInvst, limit, result, nonneg, some⟩ := h
  have amount : (pass (bought nav currInvst limit)).row.currInvst = currInvst := (row _).2
  refine ⟨_, run _ result, ⟨(row _).1, ?_, ?_, ?_, ?_⟩, ?_⟩
  · rwa [amount]
  · rw [next]
    rfl
  · rw [next, amount]
    rfl
  · rw [next, amount]
    rfl
  · rwa [amount]

theorem installment_ok (self : VipInvestment) (avgInvstRet : ℚ) (v : Vars) (nav : ℚ)
    {p : Purchase}
    (h : purchase self ((v.holding.count + 1 : ℕ) * v.amount) nav v.holding.shareOwn = .ok p) :
    installment self avgInvstRet v nav = .ok
      { row := ⟨nav, (v.holding.count + 1 : ℕ) * v.amount, (v.holding.add p).shareOwn, p.shareBro,
          p.currInvst⟩
        next := ⟨v.holding.add p, avgInvstRet⟩
        leave := (v.holding.add p).reached self ((v.holding.count + 1 : ℕ) * v.amount) } := by
  simp only [installment, h, bind, Except.bind, pure, Except.pure]

theorem FundsIndia.installment_ok (self : VipInvestment) (v : FundsIndia.Vars) (nav : ℚ)
    {p : Purchase}
    (h : FundsIndia.purchase self (currTarget self v.prevTargetPV) nav v.holding.shareOwn =
      .ok p) :
    FundsIndia.installment self v nav = .ok
      { row := ⟨nav, currTarget self v.prevTargetPV, (v.holding.add p).shareOwn, p.shareBro,
          p.currInvst⟩
        next := ⟨v.holding.add p, currTarget self v.prevTargetPV⟩
        leave := (v.holding.add p).reached self (currTarget self v.prevTargetPV) } := by
  simp only [FundsIndia.installment, h, bind, Except.bind, pure, Except.pure]

variable {navs : List ℚ}

theorem Positive.averageRet (h : Positive self) (avgInvstRet : ℚ) (nonempty : navs ≠ [])
    (positive : ∀ nav ∈ navs, 0 < nav) : SoundSummary navs (averageRet self avgInvstRet navs) := by
  rw [VipCalculator.averageRet]
  refine runLoop_soundSummary nonempty positive ?_ fun v nav hnav => ?_
  · rfl
  obtain ⟨pass, run, buys, some⟩ := (h.purchase hnav _ _).exists_pass
    (fun p => installment_ok self avgInvstRet v nav) (fun _ => ⟨rfl, rfl⟩) fun _ => rfl
  refine ⟨pass, run, buys, ?_⟩
  rintro rfl
  apply some rfl
  simpa [start, Holding.empty] using h.initInvest

theorem Positive.fundsIndia_findRet (h : Positive self) (nonempty : navs ≠ [])
    (positive : ∀ nav ∈ navs, 0 < nav) : SoundSummary navs (FundsIndia.findRet self navs) := by
  rw [FundsIndia.findRet]
  refine runLoop_soundSummary nonempty positive ?_ fun v nav hnav => ?_
  · rfl
  obtain ⟨pass, run, buys, some⟩ := (h.fundsIndia_purchase hnav _ _).exists_pass
    (fun p => FundsIndia.installment_ok self v nav) (fun _ => ⟨rfl, rfl⟩) fun _ => rfl
  refine ⟨pass, run, buys, ?_⟩
  rintro rfl
  apply some rfl
  simpa [FundsIndia.start, FundsIndia.currTarget] using h.initInvest

/-- The run with an average installment return that is a quotient by the count. -/
theorem runWith_div (count : 1 ≤ self.installmentCount) (totalRet : ℚ) (navs : List ℚ) :
    runWith self (div totalRet self.installmentCount) navs =
      averageRet self (totalRet / self.installmentCount) navs := by
  have some : (self.installmentCount : ℚ) ≠ 0 := by
    exact_mod_cast (by omega : self.installmentCount ≠ 0)
  rw [div_ok some]
  rfl

/-- All three calculators end with a sound summary, whatever the average installment return. -/
theorem findRet_soundSummary (self : VipInvestment) (navs : List ℚ)
    (count : 1 ≤ self.installmentCount) (initInvest : 0 < self.initInvest)
    (maxInvest : 0 < self.maxInvest) (minInvest : 0 ≤ self.minInvest) (nonempty : navs ≠ [])
    (positive : ∀ nav ∈ navs, 0 < nav) :
    (∀ avgInvstRet, SoundSummary navs (averageRet self avgInvstRet navs)) ∧
      SoundSummary navs (findRet self navs) ∧
      (∀ pow, SoundSummary navs (Cagr.findRet pow self navs)) ∧
      SoundSummary navs (FundsIndia.findRet self navs) := by
  have h : Positive self := ⟨initInvest, maxInvest, minInvest⟩
  refine ⟨fun avg => h.averageRet avg nonempty positive, ?_, ?_,
    h.fundsIndia_findRet nonempty positive⟩
  · rw [findRet, avgInvstRet, runWith_div count]
    exact h.averageRet _ nonempty positive
  · intro pow
    rw [Cagr.findRet, Cagr.avgInvstRet, runWith_div count]
    exact h.averageRet _ nonempty positive

/-- The price doubles and falls again. -/
theorem findRet_soundSummary_default :
    SoundSummary [10, 22, 8] (findRet .default [10, 22, 8]) ∧
      SoundSummary [10, 22, 8] (FundsIndia.findRet .default [10, 22, 8]) := by
  obtain ⟨-, simple, -, fundsIndia⟩ := findRet_soundSummary .default [10, 22, 8] (by decide)
    (by norm_num [VipInvestment.default]) (by norm_num [VipInvestment.default])
    (by norm_num [VipInvestment.default]) (by simp) (by norm_num)
  exact ⟨simple, fundsIndia⟩

end Calculators

end SamplePrograms.VipCalculator
