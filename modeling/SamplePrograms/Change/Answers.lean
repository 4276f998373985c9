import SamplePrograms.Change.FindSolution
import Mathlib.Data.List.Forall2

/-!
# The answers of `Solution3.c`

The array `solution` lives as long as the program. After the first line with change
its number of coins of 4 asiap is never zero again, so that a later line without
change is answered with the solution of an earlier one.
-/

namespace SamplePrograms.Change
open Stdio

/-- A line that holds an unsigned number below `2 ^ 30`. -/
def HoldsAmount (buf : List Char) (N : ℕ) : Prop :=
  N < 2 ^ 30 ∧ ∃ rest, scanInt buf = some ((N : ℤ), rest)

/-- The lines printed are the right answer for the amount. -/
def IsAnswer (N : ℕ) (printed : List String) : Prop :=
  (HasChange N → ∃ n m o, IsChange N n m o ∧ printed = solutionLines n m o) ∧
  (¬ HasChange N → printed = noSolutionLines)

/-- Every line of the input is answered right. -/
def AnswersRight (stdin : List Char) (amounts : List ℕ) : Prop :=
  ∃ out, main stdin = some out ∧ List.Forall₂ IsAnswer amounts out

theorem solutionLines_ne (n m o : ℤ) : solutionLines n m o ≠ noSolutionLines := by
  intro same
  have lengths : 4 = 2 := congrArg List.length same
  omega

/-- The lines printed for what is stored. -/
def printedFor (solution : Solution) : List String :=
  if solution.n = 0 then noSolutionLines
  else solutionLines solution.n.toInt solution.m.toInt solution.o.toInt

section Run
variable {buf : List Char} {N : ℕ}

theorem scanVar_toNat (h : HoldsAmount buf N) (var : BitVec 32) : (scanVar buf var).toNat = N := by
  obtain ⟨small, rest, scanned⟩ := h
  simp only [scanVar, scanned]
  rw [BitVec.ofInt_natCast, BitVec.toNat_ofNat, Nat.mod_eq_of_lt (by omega)]

theorem HoldsAmount.safe (h : HoldsAmount buf N) (var : BitVec 32) :
    SafeAmount (scanVar buf var).toNat := by
  apply IsSmall.safe
  have below := h.1
  rw [scanVar_toNat h, IsSmall]
  omega

theorem processLine_eq {v : Vars} {solution : Solution}
    (run : findSolution (scanVar buf v.var) v.solution = some solution) :
    processLine v buf = some (⟨scanVar buf v.var, solution⟩, printedFor solution) := by
  simp only [processLine, run, Option.bind_eq_bind, Option.bind_some]
  rfl

/-- An amount with change is answered right. -/
theorem processLine_of_hasChange (h : HoldsAmount buf N) (change : HasChange N) (v : Vars) :
    ∃ v' printed, processLine v buf = some (v', printed) ∧ IsAnswer N printed ∧
      v'.solution.n ≠ 0 := by
  have var := scanVar_toNat h v.var
  obtain ⟨found, run, ne_zero, right⟩ := (findSolution_of_safe (h.safe v.var) v.solution).1
    (var.symm ▸ change)
  refine ⟨_, _, processLine_eq run, ?_, ne_zero⟩
  · rw [Solution.IsChangeFor, var] at right
    have below := h.1
    have whole {i : BitVec 32} (fewer : (i.toNat : ℤ) ≤ N) : i.toInt = i.toNat := by
      apply BitVec.toInt_eq_toNat_of_lt
      omega
    have n_pos := right.n_pos
    have m_pos := right.m_pos
    have o_pos := right.o_pos
    have coins := right.coins
    rw [printedFor, if_neg ne_zero, whole (by omega), whole (by omega), whole (by omega)]
    exact ⟨fun _ => ⟨_, _, _, right, rfl⟩, fun none_right => absurd change none_right⟩

/-- An amount without change is answered with what is stored. -/
theorem processLine_of_not_hasChange (h : HoldsAmount buf N) (change : ¬ HasChange N) (v : Vars) :
    ∃ v' printed, processLine v buf = some (v', printed) ∧
      (IsAnswer N printed ↔ v.solution.n = 0) ∧ v'.solution = v.solution := by
  have var := scanVar_toNat h v.var
  have run := (findSolution_of_safe (h.safe v.var) v.solution).2 (var.symm ▸ change)
  refine ⟨_, _, processLine_eq run, ?_, rfl⟩
  constructor
  · intro right
    by_contra stale
    have printed := right.2 change
    rw [printedFor, if_neg stale] at printed
    exact solutionLines_ne _ _ _ printed
  · intro fresh
    rw [printedFor, if_pos fresh]
    exact ⟨fun some_right => absurd some_right change, fun _ => rfl⟩

/-- A line is answered right unless it has no change and a solution is stored. -/
theorem processLine_spec (h : HoldsAmount buf N) (v : Vars) :
    ∃ v' printed, processLine v buf = some (v', printed) ∧
      (IsAnswer N printed ↔ (v.solution.n ≠ 0 → HasChange N)) ∧
      (v'.solution.n ≠ 0 ↔ v.solution.n ≠ 0 ∨ HasChange N) := by
  by_cases change : HasChange N
  · obtain ⟨v', printed, run, right, stored⟩ := processLine_of_hasChange h change v
    exact ⟨v', printed, run, iff_of_true right fun _ => change,
      iff_of_true stored (Or.inr change)⟩
  · obtain ⟨v', printed, run, right, kept⟩ := processLine_of_not_hasChange h change v
    refine ⟨v', printed, run, right.trans ?_, ?_⟩
    · exact ⟨fun fresh stale => absurd fresh stale,
      fun h => by_contra fun stale => change (h stale)⟩
    · rw [kept]
      exact ⟨Or.inl, fun h => h.resolve_right change⟩

/-- The loop answers right if and only if no line without change comes after a solution is
stored. -/
theorem mainLoop_spec {lines : List (List Char)} {amounts : List ℕ}
    (h : List.Forall₂ HoldsAmount lines amounts) (v : Vars) :
    ∃ out, mainLoop v lines = some out ∧
      (List.Forall₂ IsAnswer amounts out ↔
        (v.solution.n ≠ 0 → ∀ N ∈ amounts, HasChange N) ∧
        amounts.Pairwise fun N N' : ℕ => HasChange N → HasChange N') := by
  induction h generalizing v with
  | nil => exact ⟨[], rfl, iff_of_true .nil ⟨fun _ _ h => absurd h List.not_mem_nil, .nil⟩⟩
  | @cons buf N lines amounts first others ih =>
    obtain ⟨v', printed, line, right, stored⟩ := processLine_spec first v
    obtain ⟨out, rest, rights⟩ := ih v'
    refine ⟨printed :: out, ?_, ?_⟩
    · simp only [mainLoop, line, rest, Option.bind_eq_bind, Option.bind_some, Option.pure_def]
    · rw [List.forall₂_cons, right, rights, stored, List.pairwise_cons, List.forall_mem_cons]
      constructor
      · rintro ⟨now, later, pairs⟩
        exact ⟨fun stale => ⟨now stale, later (Or.inl stale)⟩,
          fun N' hN' change => later (Or.inr change) N' hN', pairs⟩
      · rintro ⟨stale, change, pairs⟩
        refine ⟨fun h => (stale h).1, ?_, pairs⟩
        rintro (h | h) N' hN'
        · exact (stale h).2 N' hN'
        · exact change N' hN' h

end Run

/-! ## When the answers are right -/

/-- Every line is answered right if and only if no line without change comes after a line
with change. -/
theorem answersRight_iff {stdin : List Char} {amounts : List ℕ}
    (h : List.Forall₂ HoldsAmount (fgetsAll 48 stdin) amounts) :
    AnswersRight stdin amounts ↔
      amounts.Pairwise fun N N' : ℕ => HasChange N → HasChange N' := by
  obtain ⟨out, run, rights⟩ := mainLoop_spec h .initial
  constructor
  · rintro ⟨out', run', right⟩
    obtain rfl : out = out' := Option.some.inj (run.symm.trans run')
    exact (rights.mp right).2
  · intro pairs
    exact ⟨out, run, rights.mpr ⟨fun stale => absurd rfl stale, pairs⟩⟩

/-- The amounts 10 and 20 in this order are answered right. -/
theorem answersRight_ten_twenty : AnswersRight ['1', '0', '\n', '2', '0', '\n'] [10, 20] := by
  have fit : ∀ l ∈ [['1', '0'], ['2', '0']], '\n' ∉ l ∧ l.length ≤ 48 := by decide
  have lines : fgetsAll 48 ['1', '0', '\n', '2', '0', '\n'] =
      [['1', '0', '\n'], ['2', '0', '\n']] := (isText_flatMap fit).fgetsAll
  apply (answersRight_iff (lines ▸ .cons ⟨by decide, _, rfl⟩ (.cons ⟨by decide, _, rfl⟩ .nil))).mpr
  have none_right : ¬ HasChange (10 : ℕ) := by
    rw [hasChange_iff]
    decide
  exact .cons (fun _ _ change => absurd change none_right) (List.pairwise_singleton _ _)

/-- In the other order the amount 10 is answered with the solution for 20. -/
theorem main_twenty_ten :
    main ['2', '0', '\n', '1', '0', '\n'] =
      some [solutionLines 3 15 2, solutionLines 3 15 2] ∧ ¬ HasChange 10 ∧
    ¬ AnswersRight ['2', '0', '\n', '1', '0', '\n'] [20, 10] := by
  have fit : ∀ l ∈ [['2', '0'], ['1', '0']], '\n' ∉ l ∧ l.length ≤ 48 := by decide
  have lines : fgetsAll 48 ['2', '0', '\n', '1', '0', '\n'] =
      [['2', '0', '\n'], ['1', '0', '\n']] := (isText_flatMap fit).fgetsAll
  have first : findSolution 20 .zero = some ⟨3, 15, 2⟩ := by
    obtain ⟨j, more, left, ⟨low, high⟩, found⟩ :=
      findSolution_of_passes (N := 20) (j := 3) .zero (by decide) (by decide)
    have amount : (20 : BitVec 32).toNat = 20 := rfl
    simp only [fourTimes, amount] at low high left
    have few : 4 * j % 2 ^ 32 = 4 * j := Nat.mod_eq_of_lt (by omega)
    have same : j = 3 := by omega
    rw [found, same]
    decide
  have second : findSolution 10 ⟨3, 15, 2⟩ = some ⟨3, 15, 2⟩ :=
    findSolution_of_not_passes _ (by decide)
  have run : main ['2', '0', '\n', '1', '0', '\n'] =
      some [solutionLines 3 15 2, solutionLines 3 15 2] := by
    have line20 : processLine .initial ['2', '0', '\n'] =
        some (⟨20, 3, 15, 2⟩, solutionLines 3 15 2) := processLine_eq first
    have line10 : processLine ⟨20, 3, 15, 2⟩ ['1', '0', '\n'] =
        some (⟨10, 3, 15, 2⟩, solutionLines 3 15 2) := processLine_eq second
    simp only [main, lines, mainLoop, line20, line10, Option.bind_eq_bind, Option.bind_some]
    rfl
  have none_right : ¬ HasChange 10 := by
    rw [hasChange_iff]
    decide
  refine ⟨run, none_right, ?_⟩
  rintro ⟨out, run', right⟩
  obtain rfl : _ = out := Option.some.inj (run.symm.trans run')
  obtain ⟨-, right⟩ := List.forall₂_cons.mp right
  exact solutionLines_ne _ _ _ ((List.forall₂_cons.mp right).1.2 none_right)

end SamplePrograms.Change
