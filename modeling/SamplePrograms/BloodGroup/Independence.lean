import SamplePrograms.BloodGroup.Model
import Mathlib.Data.List.Induction
import Mathlib.Data.Fintype.Basic
import Mathlib.Tactic.FinCases

/-!
# What a line leaves behind for later lines

No line resets the argument array. A question mark stays set in its position
for ever, and a group O, which the program does not read, leaves the group of an
earlier line in place.
-/

namespace SamplePrograms.BloodGroup
open Stdio

theorem modifyAt_self (args : InputArgs) (i : Fin 3) (f : InputSet → InputSet) :
    modifyAt args i f i = f (args i) := by
  simp [modifyAt]

theorem modifyAt_of_ne (args : InputArgs) {i j : Fin 3} (h : j ≠ i) (f : InputSet → InputSet) :
    modifyAt args i f j = args j := by
  simp [modifyAt, h]

/-! ## Question marks -/

/-- The characters that end the text of an argument. -/
def isMark (c : Char) : Bool := c = '?' || c = '+' || c = '-'

/-- The line has a question mark for the argument `i`, when its first argument is at `index`. -/
def AsksFrom (index : Nat) (line : List Char) (i : Nat) : Prop :=
  index ≤ i ∧ (line.filter isMark)[i - index]? = some '?'

instance (index : Nat) (line : List Char) (i : Nat) : Decidable (AsksFrom index line i) :=
  inferInstanceAs (Decidable (_ ∧ _))

/-- The line has a question mark for an argument. -/
abbrev Asks (line : List Char) (i : Fin 3) : Prop := AsksFrom 0 line i

theorem not_asksFrom_nil (index i : Nat) : ¬ AsksFrom index [] i := by
  simp [AsksFrom]

theorem asksFrom_skip {c : Char} (h : isMark c = false) (index : Nat) (line : List Char) (i : Nat) :
    AsksFrom index (c :: line) i ↔ AsksFrom index line i := by
  simp [AsksFrom, h]

theorem asksFrom_mark {c : Char} (h : isMark c = true) (index : Nat) (line : List Char) (i : Nat) :
    AsksFrom index (c :: line) i ↔ (i = index ∧ c = '?') ∨ AsksFrom (index + 1) line i := by
  simp only [AsksFrom, List.filter_cons_of_pos h]
  rcases Nat.lt_trichotomy i index with lt | rfl | gt
  · have before : ¬ index ≤ i := by omega
    have before' : ¬ index + 1 ≤ i := by omega
    simp [before, before', Nat.ne_of_lt lt]
  · have before : ¬ i + 1 ≤ i := by omega
    simp [before]
  · have next : i - index = i - (index + 1) + 1 := by omega
    have after : index ≤ i := by omega
    have after' : index + 1 ≤ i := by omega
    rw [next, List.getElem?_cons_succ]
    simp [after, after', Nat.ne_of_gt gt]

theorem not_asksFrom_of_le {index : Nat} (h : ¬ index < 3) (line : List Char) (i : Fin 3) :
    ¬ AsksFrom index line i := fun asks => h (Nat.lt_of_le_of_lt asks.1 i.isLt)

theorem outputReq_modifyAt (args : InputArgs) (i j : Fin 3) {f : InputSet → InputSet}
    (keeps : ∀ s, (f s).outputReq = s.outputReq) :
    (modifyAt args i f j).outputReq = (args j).outputReq := by
  by_cases h : j = i
  · subst h
    rw [modifyAt_self, keeps]
  · rw [modifyAt_of_ne args h]

@[simp] theorem outputReq_setGroup (args : InputArgs) (i j : Fin 3) (group : List Char) :
    (modifyAt args i (·.setGroup group) j).outputReq = (args j).outputReq :=
  outputReq_modifyAt args i j fun _ => rfl

@[simp] theorem outputReq_setRh (args : InputArgs) (i j : Fin 3) (rh : List Char) :
    (modifyAt args i (·.setRh rh) j).outputReq = (args j).outputReq :=
  outputReq_modifyAt args i j fun _ => rfl

/-- The step of the scan at a sign. -/
theorem outputReq_sign {args : InputArgs} {index : Nat} (h : index < 3) {c : Char}
    (mark : isMark c = true) (sign : c ≠ '?') (rh rest : List Char) (i : Fin 3) :
    (if AsksFrom (index + 1) rest i then 1
      else (modifyAt args ⟨index, h⟩ (·.setRh rh) i).outputReq) =
    if AsksFrom index (c :: rest) i then 1 else (args i).outputReq := by
  simp only [asksFrom_mark mark, sign, and_false, false_or, outputReq_setRh]

/-- A question mark sets `output_req`, and nothing clears it. -/
theorem outputReq_processFrom (args : InputArgs) (index : Nat) (line : List Char) (i : Fin 3) :
    (processFrom args index line i).outputReq =
      if AsksFrom index line i then 1 else (args i).outputReq := by
  fun_induction processFrom args index line with
  | case1 args index => simp [not_asksFrom_nil]
  | case2 args index rest h ih =>
      rw [ih, outputReq_setGroup]
      simp only [asksFrom_skip (show isMark 'A' = false from rfl),
        asksFrom_skip (show isMark 'B' = false from rfl)]
  | case3 args index rest h => rw [if_neg (not_asksFrom_of_le h _ i)]
  | case4 args index rest h _ ih =>
      rw [ih, outputReq_setGroup]
      simp only [asksFrom_skip (show isMark 'A' = false from rfl)]
  | case5 args index rest h _ ih =>
      rw [ih, outputReq_setGroup]
      simp only [asksFrom_skip (show isMark 'B' = false from rfl)]
  | case6 args index rest h _ ih =>
      rw [ih]
      simp only [asksFrom_mark (show isMark '?' = true from rfl), and_true]
      by_cases here : i = ⟨index, h⟩
      · subst here
        simp [modifyAt_self, InputSet.ask]
      · have other : i.val ≠ index := fun e => here (Fin.ext e)
        simp [modifyAt_of_ne args here, other]
  | case7 args index rest h _ ih =>
      rw [ih]
      exact outputReq_sign h rfl (by decide) _ rest i
  | case8 args index rest h _ ih =>
      rw [ih]
      exact outputReq_sign h rfl (by decide) _ rest i
  | case9 args index c rest _ h notA notB notAsk notPlus notMinus ih =>
      have skip : isMark c = false := by
        simp only [isMark, Bool.or_eq_false_iff, decide_eq_false_iff_not]
        exact ⟨⟨notAsk, notPlus⟩, notMinus⟩
      rw [ih]
      simp only [asksFrom_skip skip]
  | case10 args index c rest _ h => rw [if_neg (not_asksFrom_of_le h _ i)]

/-- Some line of the history has a question mark for the argument. -/
def Asked (history : List (List Char)) (i : Fin 3) : Prop := ∃ line ∈ history, Asks line i

instance (history : List (List Char)) (i : Fin 3) : Decidable (Asked history i) :=
  inferInstanceAs (Decidable (∃ line ∈ history, Asks line i))

theorem outputReq_argsAfter (history : List (List Char)) (i : Fin 3) :
    (argsAfter history i).outputReq = if Asked history i then 1 else 0 := by
  induction history using List.reverseRecOn with
  | nil => simp [argsAfter, initArgs, Asked]
  | append_singleton history line ih =>
      rw [argsAfter_concat, processEachInputLine, outputReq_processFrom, ih]
      by_cases now : Asks line i
      · have asked : Asked (history ++ [line]) i := ⟨line, by simp, now⟩
        rw [if_pos now, if_pos asked]
      · have same : Asked (history ++ [line]) i ↔ Asked history i := by
          simp [Asked, now]
        simp only [now, same, if_false]

/-- Two histories leave the same `output_req` when both asked for the argument or neither did. -/
theorem outputReq_argsAfter_eq_iff (first second : List (List Char)) (i : Fin 3) :
    (argsAfter first i).outputReq = (argsAfter second i).outputReq ↔
      (Asked first i ↔ Asked second i) := by
  rw [outputReq_argsAfter, outputReq_argsAfter]
  by_cases h : Asked first i <;> by_cases h' : Asked second i <;> simp [h, h']

/-! ## Query lines -/

inductive Group where
  | a
  | b
  | ab
  | o
  deriving DecidableEq

inductive Rh where
  | positive
  | negative
  deriving DecidableEq

/-- An argument of a query. -/
inductive Token where
  | unknown
  | known (group : Group) (rh : Rh)
  deriving DecidableEq

def Group.text : Group → List Char
  | a => ['A']
  | b => ['B']
  | ab => ['A', 'B']
  | o => ['O']

def Rh.text : Rh → List Char
  | positive => ['+']
  | negative => ['-']

def Token.text : Token → List Char
  | unknown => ['?']
  | known group rh => group.text ++ rh.text

/-- Tokens with white space around them. -/
inductive IsTokenLine : List Token → List Char → Prop
  | blank {w} (space : ∀ c ∈ w, isSpace c) : IsTokenLine [] w
  | token {w t tokens rest} (space : ∀ c ∈ w, isSpace c) (others : IsTokenLine tokens rest) :
      IsTokenLine (t :: tokens) (w ++ (t.text ++ rest))

/-- A query has three tokens. -/
def IsQueryLine (tokens : List Token) (line : List Char) : Prop :=
  tokens.length = 3 ∧ IsTokenLine tokens line

/-- What a token writes into its argument. The group O is skipped. -/
def Token.write : Token → InputSet → InputSet
  | unknown, s => s.ask
  | known .o rh, s => s.setRh rh.text
  | known group rh, s => (s.setGroup group.text).setRh rh.text

theorem processFrom_of_le (args : InputArgs) {index : Nat} (h : ¬ index < 3) (line : List Char) :
    processFrom args index line = args := by
  fun_cases processFrom args index line
  all_goals first | rfl | contradiction

theorem processFrom_space (args : InputArgs) (index : Nat) {c : Char} (space : isSpace c)
    (rest : List Char) : processFrom args index (c :: rest) = processFrom args index rest := by
  by_cases h : index < 3
  · simp only [isSpace, Bool.or_eq_true, decide_eq_true_eq] at space
    rcases space with ((((rfl | rfl) | rfl) | rfl) | rfl) | rfl <;> simp [processFrom, h]
  · rw [processFrom_of_le args h, processFrom_of_le args h]

theorem processFrom_blank (args : InputArgs) (index : Nat) {w : List Char}
    (space : ∀ c ∈ w, isSpace c) (rest : List Char) :
    processFrom args index (w ++ rest) = processFrom args index rest := by
  induction w with
  | nil => rfl
  | cons c w ih =>
      rw [List.cons_append, processFrom_space args index (space c List.mem_cons_self)]
      exact ih fun c' hc => space c' (List.mem_cons_of_mem c hc)

theorem modifyAt_modifyAt (args : InputArgs) (i : Fin 3) (f g : InputSet → InputSet) :
    modifyAt (modifyAt args i f) i g = modifyAt args i (g ∘ f) := by
  simp [modifyAt]

theorem processFrom_token (args : InputArgs) {index : Nat} (h : index < 3) (t : Token)
    (rest : List Char) :
    processFrom args index (t.text ++ rest) =
      processFrom (modifyAt args ⟨index, h⟩ t.write) (index + 1) rest := by
  cases t with
  | unknown =>
      simp [Token.text, processFrom, h]
      rfl
  | known group rh =>
      cases group <;> cases rh <;>
        simp [Token.text, Group.text, Rh.text, processFrom, h, modifyAt_modifyAt] <;> rfl

/-- Each token writes its own argument. -/
theorem processFrom_tokens {tokens : List Token} {line : List Char}
    (h : IsTokenLine tokens line) (args : InputArgs) {index : Nat}
    (fits : index + tokens.length ≤ 3) (i : Fin 3) :
    (i.val < index → processFrom args index line i = args i) ∧
      ∀ k t, tokens[k]? = some t → i.val = index + k →
        processFrom args index line i = t.write (args i) := by
  induction h generalizing args index with
  | @blank w space =>
      have whole := processFrom_blank args index space []
      rw [List.append_nil] at whole
      rw [whole]
      simp [processFrom]
  | @token w t tokens rest space others ih =>
      rw [List.length_cons] at fits
      have inside : index < 3 := by omega
      rw [processFrom_blank args index space, processFrom_token args inside]
      have fits' : index + 1 + tokens.length ≤ 3 := by omega
      obtain ⟨before, after⟩ := ih (modifyAt args ⟨index, inside⟩ t.write) fits'
      constructor
      · intro lt
        have other : i ≠ ⟨index, inside⟩ := fun e => Nat.ne_of_lt lt (congrArg Fin.val e)
        rw [before (Nat.lt_succ_of_lt lt), modifyAt_of_ne args other]
      · intro k t' ht' hi
        cases k with
        | zero =>
            have here : i = ⟨index, inside⟩ := Fin.ext hi
            cases ht'
            rw [before (by omega), here, modifyAt_self]
        | succ k =>
            have other : i ≠ ⟨index, inside⟩ := fun e => by
              have := congrArg Fin.val e
              simp only at this
              omega
            rw [after k t' ht' (by omega), modifyAt_of_ne args other]

theorem processEachInputLine_query {tokens : List Token} {line : List Char}
    (query : IsQueryLine tokens line) (args : InputArgs) {i : Fin 3} {t : Token}
    (ht : tokens[i.val]? = some t) :
    processEachInputLine args line i = t.write (args i) := by
  have fits : 0 + tokens.length ≤ 3 := by
    rw [query.1]
  exact (processFrom_tokens query.2 args fits i).2 i t ht (Nat.zero_add i).symm

/-! ## Two runs -/

/-- Two arguments agree in what a token determines. -/
def Token.Agrees : Token → InputSet → InputSet → Prop
  | unknown, s, s' => s.outputReq = s'.outputReq
  | known _ _, s, s' => s = s'

/-- The arguments of two calls agree in what the tokens of a line determine. -/
def SameArgs (tokens : List Token) (args args' : InputArgs) : Prop :=
  ∀ (i : Fin 3) t, tokens[i.val]? = some t → t.Agrees (args i) (args' i)

/-- Two calls of one function with the same arguments, as far as a line determines them. -/
inductive SameCall (tokens : List Token) : Call → Call → Prop
  | child {args args'} (same : SameArgs tokens args args') :
      SameCall tokens (.child args) (.child args')
  | parent {args args'} (same : SameArgs tokens args args') :
      SameCall tokens (.parent args) (.parent args')

theorem Token.Agrees.outputReq {t : Token} {s s' : InputSet} (h : t.Agrees s s') :
    s.outputReq = s'.outputReq := by
  cases t with
  | unknown => exact h
  | known group rh => exact congrArg InputSet.outputReq h

/-- Which function is called is decided by an argument that the line determines. -/
theorem sameCall_printCall {tokens : List Token} (three : tokens.length = 3)
    (args args' : InputArgs) :
    SameCall tokens (printCall args) (printCall args') ↔ SameArgs tokens args args' := by
  constructor
  · intro h
    unfold printCall at h
    split at h <;> split at h <;> cases h <;> assumption
  · intro same
    have last : (args (Fin.last 2)).outputReq = (args' (Fin.last 2)).outputReq := by
      obtain ⟨t, ht⟩ : ∃ t, tokens[2]? = some t := by simp [three]
      exact (same (Fin.last 2) t ht).outputReq
    unfold printCall
    rw [last]
    split
    · exact .child same
    · exact .parent same

/-- What a token leaves of the arguments before it. -/
theorem Token.agrees_write (t : Token) (s s' : InputSet) :
    t.Agrees (t.write s) (t.write s') ↔
      ∀ group rh, t = .known group rh →
        s.outputReq = s'.outputReq ∧ (group = .o → s.bloodGroup = s'.bloodGroup) := by
  obtain ⟨g, r, q⟩ := s
  obtain ⟨g', r', q'⟩ := s'
  cases t with
  | unknown => simp [Agrees, write, InputSet.ask]
  | known group rh =>
      cases group <;> simp [Agrees, write, InputSet.setGroup, InputSet.setRh, and_comm]

/-- A query gives the same call after two histories exactly when each position with a
group was asked for in both or in neither, and each position with the group O has
the same old group. -/
theorem callAfter_same_iff (first second : List (List Char)) {tokens : List Token}
    {line : List Char} (query : IsQueryLine tokens line) :
    SameCall tokens (callAfter first line) (callAfter second line) ↔
      ∀ (i : Fin 3) group rh, tokens[i.val]? = some (.known group rh) →
        (Asked first i ↔ Asked second i) ∧
          (group = .o → (argsAfter first i).bloodGroup = (argsAfter second i).bloodGroup) := by
  rw [callAfter, callAfter, sameCall_printCall query.1]
  constructor
  · intro same i group rh ht
    have agrees := same i _ ht
    rw [processEachInputLine_query query _ ht, processEachInputLine_query query _ ht,
      Token.agrees_write] at agrees
    rw [← outputReq_argsAfter_eq_iff]
    exact agrees group rh rfl
  · intro fresh i t ht
    rw [processEachInputLine_query query _ ht, processEachInputLine_query query _ ht,
      Token.agrees_write]
    rintro group rh rfl
    rw [outputReq_argsAfter_eq_iff]
    exact fresh i group rh ht

/-- The text of a line, with a blank after each token. -/
def lineOf : List Token → List Char
  | [] => ['\n']
  | t :: tokens => t.text ++ ' ' :: lineOf tokens

theorem IsTokenLine.space {tokens : List Token} {line : List Char} (h : IsTokenLine tokens line)
    {c : Char} (hc : isSpace c) : IsTokenLine tokens (c :: line) := by
  cases h with
  | blank space => exact .blank (List.forall_mem_cons.mpr ⟨hc, space⟩)
  | token space others =>
      rw [← List.cons_append]
      exact .token (List.forall_mem_cons.mpr ⟨hc, space⟩) others

theorem isTokenLine_lineOf (tokens : List Token) : IsTokenLine tokens (lineOf tokens) := by
  induction tokens with
  | nil => exact .blank (by simp [lineOf, isSpace])
  | cons t tokens ih => exact .token (w := []) (by simp) (ih.space rfl)

/-- A child is asked for after another child. -/
theorem callAfter_child :
    SameCall [.known .a .negative, .known .b .negative, .unknown]
      (callAfter [['\n']] (lineOf [.known .a .negative, .known .b .negative, .unknown]))
      (callAfter [['\n'], lineOf [.known .b .positive, .known .b .negative, .unknown]]
        (lineOf [.known .a .negative, .known .b .negative, .unknown])) := by
  apply (callAfter_same_iff _ _ ⟨rfl, isTokenLine_lineOf _⟩).mpr
  intro i group rh ht
  fin_cases i
  · cases ht
    decide
  · cases ht
    decide
  · cases ht

/-- A mother is asked for after a child. The program asks for the child again. -/
theorem callAfter_mother :
    IsQueryLine [.known .a .positive, .unknown, .known .o .negative]
        (lineOf [.known .a .positive, .unknown, .known .o .negative]) ∧
      ¬ SameCall [.known .a .positive, .unknown, .known .o .negative]
        (callAfter [['\n']] (lineOf [.known .a .positive, .unknown, .known .o .negative]))
        (callAfter [['\n'], lineOf [.known .a .negative, .known .b .negative, .unknown]]
          (lineOf [.known .a .positive, .unknown, .known .o .negative])) := by
  refine ⟨⟨rfl, isTokenLine_lineOf _⟩, ?_⟩
  rw [callAfter, callAfter, sameCall_printCall rfl]
  intro same
  have outputReq := (same (Fin.last 2) (.known .o .negative) rfl).outputReq
  revert outputReq
  decide

end SamplePrograms.BloodGroup
