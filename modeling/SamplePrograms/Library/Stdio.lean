import Mathlib.Data.List.Basic
import Mathlib.Data.List.TakeWhile

/-!
# Reading text with `fgets` and `scanf`

The standard input is the list of the characters that are still to be read.

## Implementation notes

The number of a `%d` conversion is an integer without a bound. The C library
leaves open what it stores for a number outside the range of `int`.
-/

namespace SamplePrograms.Stdio

/-! ## Lines -/

/-- Up to `n` characters, through the first newline, and the input after them. -/
def takeLine : Nat → List Char → List Char × List Char
  | 0, input => ([], input)
  | _ + 1, [] => ([], [])
  | n + 1, c :: rest =>
      if c = '\n' then ([c], rest)
      else ((c :: (takeLine n rest).1), (takeLine n rest).2)

/-- `fgets` with a buffer for `n` characters, a newline and the final zero. There
is no line at the end of the input. -/
def fgets (n : Nat) (input : List Char) : Option (List Char × List Char) :=
  if input = [] then none else some (takeLine (n + 1) input)

theorem takeLine_length_le (n : Nat) (input : List Char) :
    (takeLine n input).2.length ≤ input.length := by
  induction n generalizing input with
  | zero => exact le_refl _
  | succ n ih =>
      cases input with
      | nil => exact le_refl _
      | cons c rest =>
          unfold takeLine
          split
          · simp
          · exact (ih rest).trans (Nat.le_succ _)

theorem takeLine_length_lt {n : Nat} {input : List Char} (h : input ≠ []) :
    (takeLine (n + 1) input).2.length < input.length := by
  cases input with
  | nil => exact absurd rfl h
  | cons c rest =>
      unfold takeLine
      split
      · simp
      · exact Nat.lt_succ_of_le (takeLine_length_le n rest)

/-- A line that fits is taken with its newline. -/
theorem takeLine_newline {n : Nat} {line : List Char} (rest : List Char) (noNewline : '\n' ∉ line)
    (fits : line.length < n) : takeLine n (line ++ '\n' :: rest) = (line ++ ['\n'], rest) := by
  induction line generalizing n with
  | nil =>
      obtain ⟨m, rfl⟩ := Nat.exists_eq_succ_of_ne_zero (Nat.ne_of_gt fits)
      simp [takeLine]
  | cons c line ih =>
      obtain ⟨m, rfl⟩ := Nat.exists_eq_succ_of_ne_zero (Nat.ne_of_gt (Nat.zero_lt_of_lt fits))
      rw [List.mem_cons, not_or] at noNewline
      have shorter : line.length < m := by simpa using fits
      simp [takeLine, Ne.symm noNewline.1, ih noNewline.2 shorter]

/-- A last line without a newline is taken whole. -/
theorem takeLine_last {n : Nat} {line : List Char} (noNewline : '\n' ∉ line)
    (fits : line.length < n) : takeLine n line = (line, []) := by
  induction line generalizing n with
  | nil =>
      obtain ⟨m, rfl⟩ := Nat.exists_eq_succ_of_ne_zero (Nat.ne_of_gt fits)
      rfl
  | cons c line ih =>
      obtain ⟨m, rfl⟩ := Nat.exists_eq_succ_of_ne_zero (Nat.ne_of_gt (Nat.zero_lt_of_lt fits))
      rw [List.mem_cons, not_or] at noNewline
      have shorter : line.length < m := by simpa using fits
      simp [takeLine, Ne.symm noNewline.1, ih noNewline.2 shorter]

/-- The lines that a loop over `fgets` sees until the end of the input. -/
def fgetsAll (n : Nat) (input : List Char) : List (List Char) :=
  if h : input = [] then []
  else (takeLine (n + 1) input).1 :: fgetsAll n (takeLine (n + 1) input).2
  termination_by input.length
  decreasing_by exact takeLine_length_lt h

@[simp] theorem fgetsAll_nil (n : Nat) : fgetsAll n [] = [] := by
  simp [fgetsAll]

theorem fgetsAll_newline {n : Nat} {line : List Char} (rest : List Char) (noNewline : '\n' ∉ line)
    (fits : line.length ≤ n) :
    fgetsAll n (line ++ '\n' :: rest) = (line ++ ['\n']) :: fgetsAll n rest := by
  rw [fgetsAll, dif_neg (by simp), takeLine_newline rest noNewline (Nat.lt_succ_of_le fits)]

theorem fgetsAll_last {n : Nat} {line : List Char} (some : line ≠ []) (noNewline : '\n' ∉ line)
    (fits : line.length ≤ n) : fgetsAll n line = [line] := by
  rw [fgetsAll, dif_neg some, takeLine_last noNewline (Nat.lt_succ_of_le fits), fgetsAll_nil]

/-- A text of lines that fit. Each ends in a newline, but the last one may lack it. -/
inductive IsText (n : Nat) : List (List Char) → List Char → Prop
  | nil : IsText n [] []
  | line {l lines rest} (noNewline : '\n' ∉ l) (fits : l.length ≤ n)
      (others : IsText n lines rest) :
      IsText n ((l ++ ['\n']) :: lines) (l ++ '\n' :: rest)
  | last {l} (some : l ≠ []) (noNewline : '\n' ∉ l) (fits : l.length ≤ n) : IsText n [l] l

/-- Lines that fit make a text, each with a newline. -/
theorem isText_flatMap {n : Nat} {lines : List (List Char)}
    (fit : ∀ l ∈ lines, '\n' ∉ l ∧ l.length ≤ n) :
    IsText n (lines.map fun l => l ++ ['\n']) (lines.flatMap fun l => l ++ ['\n']) := by
  induction lines with
  | nil => exact .nil
  | cons l lines ih =>
      have first := fit l List.mem_cons_self
      have others := ih fun l' hl' => fit l' (List.mem_cons_of_mem l hl')
      rw [List.flatMap_cons, List.append_assoc, List.singleton_append, List.map_cons]
      exact .line first.1 first.2 others

/-- The loop sees the lines of a text one by one. -/
theorem IsText.fgetsAll {n : Nat} {lines : List (List Char)} {text : List Char}
    (h : IsText n lines text) : fgetsAll n text = lines := by
  induction h with
  | nil => exact fgetsAll_nil n
  | line noNewline fits _ ih => rw [fgetsAll_newline _ noNewline fits, ih]
  | last some noNewline fits => exact fgetsAll_last some noNewline fits

/-! ## Numbers -/

def isSpace (c : Char) : Bool :=
  c = ' ' || c = '\t' || c = '\n' || c = '\x0b' || c = '\x0c' || c = '\r'

/-- The value of a list of decimal digits. -/
def digitsValue (digits : List Char) : Nat :=
  digits.foldl (fun value c => 10 * value + (c.toNat - '0'.toNat)) 0

/-- The sign and the text after it. -/
def scanSign : List Char → Int × List Char
  | '-' :: rest => (-1, rest)
  | '+' :: rest => (1, rest)
  | text => (1, text)

/-- The conversion `%d`, which skips white space first. -/
def scanInt (text : List Char) : Option (Int × List Char) :=
  let (sign, text) := scanSign (text.dropWhile isSpace)
  let digits := text.takeWhile Char.isDigit
  if digits = [] then none
  else some (sign * digitsValue digits, text.dropWhile Char.isDigit)

/-- The numbers that a format of `n` conversions `%d` stores. -/
def scanInts : Nat → List Char → List Int
  | 0, _ => []
  | n + 1, text =>
      match scanInt text with
      | none => []
      | some (value, rest) => value :: scanInts n rest

theorem isSpace_of_isDigit {c : Char} (digit : c.isDigit) : isSpace c = false := by
  simp only [isSpace, Bool.or_eq_false_iff, decide_eq_false_iff_not]
  refine ⟨⟨⟨⟨⟨?_, ?_⟩, ?_⟩, ?_⟩, ?_⟩, ?_⟩ <;> rintro rfl <;> cases digit

theorem scanSign_of_isDigit {c : Char} (digit : c.isDigit) (rest : List Char) :
    scanSign (c :: rest) = (1, c :: rest) := by
  have minus : c ≠ '-' := by
    rintro rfl
    cases digit
  have plus : c ≠ '+' := by
    rintro rfl
    cases digit
  simp [scanSign, minus, plus]

/-- A number is read up to the first character that is no digit. -/
theorem scanInt_toDigits {lead rest : List Char} (blank : ∀ c ∈ lead, isSpace c) (n : Nat)
    {c : Char} (stop : c.isDigit = false) :
    scanInt (lead ++ (Nat.toDigits 10 n ++ c :: rest)) = some ((n : Int), c :: rest) := by
  have digits : ∀ d ∈ Nat.toDigits 10 n, d.isDigit := fun d hd =>
    Nat.isDigit_of_mem_toDigits (by decide) (by decide) hd
  have value : digitsValue (Nat.toDigits 10 n) = n := Nat.ofDigitChars_ten_toDigits
  have taken : (Nat.toDigits 10 n ++ c :: rest).takeWhile Char.isDigit = Nat.toDigits 10 n := by
    rw [List.takeWhile_append_of_pos digits, List.takeWhile_cons_of_neg (by simp [stop]),
      List.append_nil]
  have left : (Nat.toDigits 10 n ++ c :: rest).dropWhile Char.isDigit = c :: rest := by
    rw [List.dropWhile_append_of_pos digits, List.dropWhile_cons_of_neg (by simp [stop])]
  obtain ⟨d, ds, first⟩ := List.exists_cons_of_ne_nil (Nat.toDigits_ne_nil (b := 10) (n := n))
  have digit : d.isDigit := digits d (by simp [first])
  have skipped : (lead ++ (Nat.toDigits 10 n ++ c :: rest)).dropWhile isSpace =
      Nat.toDigits 10 n ++ c :: rest := by
    rw [List.dropWhile_append_of_pos blank, first, List.cons_append,
      List.dropWhile_cons_of_neg (by simp [isSpace_of_isDigit digit])]
  have signed : scanSign (Nat.toDigits 10 n ++ c :: rest) =
      (1, Nat.toDigits 10 n ++ c :: rest) := by
    rw [first, List.cons_append, scanSign_of_isDigit digit]
  simp [scanInt, skipped, signed, taken, left, value, Nat.toDigits_ne_nil]

/-- A text of white space has no number. -/
theorem scanInts_blank (n : Nat) {text : List Char} (blank : ∀ c ∈ text, isSpace c) :
    scanInts n text = [] := by
  cases n with
  | zero => rfl
  | succ n =>
      have skipped : text.dropWhile isSpace = [] := List.dropWhile_eq_nil_iff.mpr blank
      simp [scanInts, scanInt, skipped, scanSign]

/-! ## Printed numbers -/

/-- What `printf` prints for a conversion `%d`. -/
def printInt (i : Int) : List Char :=
  if i < 0 then '-' :: Nat.toDigits 10 i.natAbs else Nat.toDigits 10 i.natAbs

/-- A minus sign negates the number behind it. -/
theorem scanInt_minus {lead : List Char} (blank : ∀ c ∈ lead, isSpace c) {d : Char}
    (digit : d.isDigit) (text : List Char) :
    scanInt (lead ++ '-' :: d :: text) = (scanInt (d :: text)).map fun r => (-r.1, r.2) := by
  have skipped : (lead ++ '-' :: d :: text).dropWhile isSpace = '-' :: d :: text := by
    rw [List.dropWhile_append_of_pos blank, List.dropWhile_cons_of_neg (by decide)]
  have kept : (d :: text).dropWhile isSpace = d :: text :=
    List.dropWhile_cons_of_neg (by simp [isSpace_of_isDigit digit])
  rw [scanInt, scanInt, skipped, kept, scanSign_of_isDigit digit]
  simp [scanSign, digit]

/-- A printed number is read back. -/
theorem scanInt_printInt {lead rest : List Char} (blank : ∀ c ∈ lead, isSpace c) (i : Int)
    {c : Char} (stop : c.isDigit = false) :
    scanInt (lead ++ (printInt i ++ c :: rest)) = some (i, c :: rest) := by
  have digits := @scanInt_toDigits [] rest (by simp) i.natAbs c stop
  unfold printInt
  split
  · obtain ⟨d, ds, first⟩ :=
      List.exists_cons_of_ne_nil (Nat.toDigits_ne_nil (b := 10) (n := i.natAbs))
    have digit : d.isDigit :=
      Nat.isDigit_of_mem_toDigits (by decide) (by decide) (first ▸ List.mem_cons_self)
    rw [first, List.nil_append, List.cons_append] at digits
    rw [first, List.cons_append, List.cons_append, scanInt_minus blank digit, digits,
      Option.map_some]
    congr 2
    omega
  · rw [scanInt_toDigits blank _ stop]
    congr 2
    omega

/-- Numbers with a blank behind each, and a last number with a newline, are read back. -/
theorem scanInts_printed {lead : List Char} (blank : ∀ c ∈ lead, isSpace c) (xs : List Int)
    (last : Int) :
    scanInts (xs.length + 1)
        (lead ++ (xs.flatMap fun i => printInt i ++ [' ']) ++ (printInt last ++ ['\n'])) =
      xs ++ [last] := by
  induction xs generalizing lead with
  | nil =>
      have read := @scanInt_printInt lead [] blank last '\n' rfl
      simp [scanInts, read]
  | cons x xs ih =>
      have read := @scanInt_printInt lead
        ((xs.flatMap fun i => printInt i ++ [' ']) ++ (printInt last ++ ['\n'])) blank x ' ' rfl
      have rest := @ih [' '] (by simp [isSpace])
      simp only [List.flatMap_cons, List.append_assoc, List.length_cons, List.cons_append,
        List.nil_append] at read rest ⊢
      rw [scanInts, read]
      simpa using rest

end SamplePrograms.Stdio
