import Mathlib
import SamplePrograms.BloodGroup.Independence

/-!
# What the scanner stores, and what the tables are asked for

The scanner stores every token of a query except a group O. The tables return
the slot one past their end for a name that they do not have, and `main` asks for
such a name at once: the first line that it processes is what the count leaves of
its own line.

## Implementation notes

`parent_blood_group_print` reads a field `required_argument`, which an
`input_set_t` does not have. The field is a parameter.
-/

namespace SamplePrograms.BloodGroup
open Stdio

/-! ## The scanner -/

/-- The argument for a token, as the query has it. -/
def Token.argument : Token → InputSet
  | unknown => ⟨[], [], 1⟩
  | known group rh => ⟨group.text, rh.text, 0⟩

/-- The scanner stores a token as the query has it if its group is not O. -/
theorem Token.write_eq_argument_iff (t : Token) :
    t.write ⟨[], [], 0⟩ = t.argument ↔ ∀ rh, t ≠ .known .o rh := by
  cases t with
  | unknown => simp [write, argument, InputSet.ask]
  | known group rh =>
      cases group <;>
        simp [write, argument, InputSet.setGroup, InputSet.setRh, Group.text]

/-- A query on a zeroed array is stored as it is exactly when no token has the group O. -/
theorem processEachInputLine_argument_iff {tokens : List Token} {line : List Char}
    (query : IsQueryLine tokens line) :
    (∀ (i : Fin 3) t, tokens[i.val]? = some t →
        processEachInputLine initArgs line i = t.argument) ↔
      ∀ rh, .known .o rh ∉ tokens := by
  have stored : ∀ (i : Fin 3) t, tokens[i.val]? = some t →
      (processEachInputLine initArgs line i = t.argument ↔ ∀ rh, t ≠ .known .o rh) := by
    intro i t ht
    rw [processEachInputLine_query query initArgs ht, ← t.write_eq_argument_iff]
    rfl
  constructor
  · intro all rh hmem
    obtain ⟨i, hi, ht⟩ := List.getElem_of_mem hmem
    rw [query.1] at hi
    have ht' : tokens[i]? = some (.known .o rh) := List.getElem?_eq_some_iff.mpr ⟨_, ht⟩
    exact (stored ⟨i, hi⟩ _ ht').mp (all ⟨i, hi⟩ _ ht') rh rfl
  · intro none i t ht
    apply (stored i t ht).mpr
    rintro rh rfl
    exact none rh (List.mem_of_getElem? ht)

theorem processEachInputLine_argument_child :
    processEachInputLine initArgs
        (lineOf [.known .a .negative, .known .ab .positive, .unknown]) 1 =
      ⟨['A', 'B'], ['+'], 0⟩ := by
  have known : ∀ rh, .known .o rh ∉ [.known .a .negative, .known .ab .positive, Token.unknown] := by
    simp
  exact (processEachInputLine_argument_iff ⟨rfl, isTokenLine_lineOf _⟩).mpr known 1 _ rfl

/-- The group of an O- mother is not stored. -/
theorem processEachInputLine_group_o :
    IsQueryLine [.known .a .positive, .known .o .negative, .unknown]
        (lineOf [.known .a .positive, .known .o .negative, .unknown]) ∧
      processEachInputLine initArgs
          (lineOf [.known .a .positive, .known .o .negative, .unknown]) 1 ≠
        (Token.known .o .negative).argument :=
  ⟨⟨rfl, isTokenLine_lineOf _⟩, by decide⟩

/-! ## The tables -/

/-- The names in `blood_group_table`, in its order. -/
def bloodGroupTable : List (List Char) := [['A'], ['A', 'B'], ['B'], ['O']]

/-- The names in `rrh_factor_table`, in its order. -/
def rrhFactorTable : List (List Char) := [['+'], ['-']]

/-- The index of the slot that a search of a table by name returns. -/
def getFromTable (table : List (List Char)) (name : List Char) : Nat :=
  table.findIdx fun entry => entry == name

def getBloodGroupFromTable (name : List Char) : Nat := getFromTable bloodGroupTable name

def getRrhfactorFromTable (key : List Char) : Nat := getFromTable rrhFactorTable key

/-- A call of one of the two searches. -/
inductive Lookup where
  | bloodGroup (name : List Char)
  | rrhFactor (key : List Char)

/-- The slot that the call returns is in the table. -/
def Lookup.Found : Lookup → Prop
  | bloodGroup name => getBloodGroupFromTable name < bloodGroupTable.length
  | rrhFactor key => getRrhfactorFromTable key < rrhFactorTable.length

instance (l : Lookup) : Decidable l.Found :=
  match l with
  | .bloodGroup _ => inferInstanceAs (Decidable (_ < _))
  | .rrhFactor _ => inferInstanceAs (Decidable (_ < _))

/-- The two searches for one argument. -/
def argLookups (s : InputSet) : List Lookup := [.bloodGroup s.bloodGroup, .rrhFactor s.rhFactor]

def firstParent (args : InputArgs) : InputSet := args ⟨0, by decide⟩
def secondParent (args : InputArgs) : InputSet := args ⟨1, by decide⟩

/-- The searches of a call. The parent whose `required_argument` is not set is the second. -/
def lookups (requiredArgument : InputSet → Bool) : Call → List Lookup
  | .child args => argLookups (firstParent args) ++ argLookups (secondParent args)
  | .parent args =>
      argLookups
        (if requiredArgument (firstParent args) then firstParent args else secondParent args)

theorem getFromTable_lt_iff (table : List (List Char)) (name : List Char) :
    getFromTable table name < table.length ↔ name ∈ table := by
  rw [getFromTable, List.findIdx_lt_length]
  simp

/-- The searches for an argument find their names if it has a group and a sign of the tables. -/
theorem argLookups_found_iff (s : InputSet) :
    (∀ l ∈ argLookups s, l.Found) ↔
      s.bloodGroup ∈ bloodGroupTable ∧ s.rhFactor ∈ rrhFactorTable := by
  simp [argLookups, Lookup.Found, getBloodGroupFromTable, getRrhfactorFromTable,
    getFromTable_lt_iff]

/-- No search for an argument of a zeroed array finds a name. -/
theorem lookups_initArgs (requiredArgument : InputSet → Bool) :
    ¬ ∀ l ∈ lookups requiredArgument (.parent initArgs), l.Found := by
  rw [lookups, argLookups_found_iff]
  split <;> decide

/-! ## The run -/

/-- A line with a count, and as many lines with queries, each with one question mark. -/
def IsInputFile (n : Nat) (stdin : List Char) : Prop :=
  ∃ lead trail lines body, stdin = lead ++ (Nat.toDigits 10 n ++ (trail ++ '\n' :: body)) ∧
    (∀ c ∈ lead, isSpace c) ∧ (∀ c ∈ trail, isSpace c) ∧ IsText 79 lines body ∧
    lines.length = n ∧
    ∀ line ∈ lines, ∃ tokens, IsQueryLine tokens line ∧ tokens.count .unknown = 1

theorem takeLine_blank {w : List Char} (space : ∀ c ∈ w, isSpace c) (n : Nat) (rest : List Char) :
    ∀ c ∈ (takeLine n (w ++ '\n' :: rest)).1, isSpace c := by
  induction n generalizing w with
  | zero => simp [takeLine]
  | succ n ih =>
      cases w with
      | nil => simp [takeLine, isSpace]
      | cons c w =>
          have first := space c List.mem_cons_self
          rw [List.cons_append, takeLine]
          split
          · simpa using first
          · exact List.forall_mem_cons.mpr
              ⟨first, ih fun c' hc => space c' (List.mem_cons_of_mem c hc)⟩

/-- A line of white space leaves the array as it is. -/
theorem processEachInputLine_blank (args : InputArgs) {line : List Char}
    (space : ∀ c ∈ line, isSpace c) : processEachInputLine args line = args := by
  have skipped := processFrom_blank args 0 space []
  rw [List.append_nil] at skipped
  rw [processEachInputLine, skipped, processFrom]

/-- The first call is for the rest of the line with the count. -/
theorem mainLoop_blank (n : Nat) {trail : List Char} (space : ∀ c ∈ trail, isSpace c)
    (body : List Char) :
    ∃ others,
      mainLoop (n + 1) (trail ++ '\n' :: body) [] initArgs = .parent initArgs :: others := by
  have line : fgets 79 (trail ++ '\n' :: body) = some (takeLine 80 (trail ++ '\n' :: body)) := by
    simp [fgets]
  simp only [mainLoop, line, Option.getD_some,
    processEachInputLine_blank initArgs (takeLine_blank space 80 body)]
  exact ⟨_, rfl⟩

/-- The loop of `main` begins with the rest of the line with the count. -/
theorem main_eq {lead trail : List Char} (blank : ∀ c ∈ lead, isSpace c)
    (space : ∀ c ∈ trail, isSpace c) (n : Nat) (body : List Char) :
    main (lead ++ (Nat.toDigits 10 n ++ (trail ++ '\n' :: body))) =
      mainLoop ((n + 1) % 2 ^ 32) (trail ++ '\n' :: body) [] initArgs := by
  obtain ⟨c, rest, split, stop⟩ : ∃ c rest, trail ++ '\n' :: body = c :: rest ∧
      c.isDigit = false := by
    cases trail with
    | nil => exact ⟨_, _, rfl, rfl⟩
    | cons c trail =>
        refine ⟨c, trail ++ '\n' :: body, rfl, ?_⟩
        rw [Bool.eq_false_iff]
        intro digit
        have white := space c List.mem_cons_self
        rw [isSpace_of_isDigit digit] at white
        cases white
  have iterations : (BitVec.ofInt 32 ((n : Int) + 1)).toNat = (n + 1) % 2 ^ 32 := by
    rw [BitVec.toNat_ofInt]
    omega
  rw [split, main, scanInt_toDigits blank n stop]
  simp only [iterations]

/-- Every search of the run finds its name exactly when the number of iterations, one more
than the count, wraps around to zero. -/
theorem main_lookups_iff (requiredArgument : InputSet → Bool) {n : Nat} {stdin : List Char}
    (file : IsInputFile n stdin) :
    (∀ call ∈ main stdin, ∀ l ∈ lookups requiredArgument call, l.Found) ↔ 2 ^ 32 ∣ n + 1 := by
  obtain ⟨lead, trail, lines, body, rfl, blank, space, -⟩ := file
  rw [main_eq blank space, Nat.dvd_iff_mod_eq_zero]
  cases iterations : (n + 1) % 2 ^ 32 with
  | zero => simp [mainLoop]
  | succ k =>
      obtain ⟨others, calls⟩ := mainLoop_blank k space body
      rw [calls]
      simp [lookups_initArgs]

/-- A file with one query. -/
def oneQuery : List Char :=
  '1' :: '\n' :: lineOf [.known .a .negative, .known .b .negative, .unknown]

theorem isInputFile_oneQuery : IsInputFile 1 oneQuery := by
  refine ⟨[], [], [lineOf [.known .a .negative, .known .b .negative, .unknown]], _, rfl, by simp,
    by simp, ?_, rfl, ?_⟩
  · exact .line (l := ['A', '-', ' ', 'B', '-', ' ', '?', ' ']) (by decide) (by decide) .nil
  · intro line hline
    rw [List.mem_singleton.mp hline]
    exact ⟨_, ⟨rfl, isTokenLine_lineOf _⟩, by decide⟩

theorem main_lookups_iff_oneQuery :
    ¬ ∀ call ∈ main oneQuery, ∀ l ∈ lookups (fun _ => false) call, l.Found := by
  rw [main_lookups_iff _ isInputFile_oneQuery]
  decide

/-- The first search of the run is for the empty name. -/
theorem main_lookup_missing :
    IsInputFile 1 oneQuery ∧
      ∃ call ∈ main oneQuery, ∃ l ∈ lookups (fun _ => false) call, ¬ l.Found := by
  refine ⟨isInputFile_oneQuery, ?_⟩
  refine ⟨.parent initArgs, ?_, .bloodGroup [], ?_, by decide⟩
  · exact List.mem_cons_self
  · exact List.mem_cons_self

end SamplePrograms.BloodGroup
