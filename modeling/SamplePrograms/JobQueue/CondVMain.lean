import SamplePrograms.Library.Stdio
import SamplePrograms.JobQueue.Jobs
import Mathlib

/-!
# The number of threads that `prog_condV.c` starts

The main program takes the number of threads from its last option `-t` and looks only for one that
is too great. It draws the number of dequeue threads with a remainder by one less. Without the
option the divisor wraps around, and with the number one it is zero. From two threads on some are
dequeue threads and some enqueue threads, and the loops stay inside their arrays.

## Implementation notes

An `unsigned int` is a 32-bit word, and `count` is compared as one. The options are those that
`getopt` finds. The value of `atoi` is that of `strtol` with 64 bits, cut off to an `int`. What the
two arrays hold before the loops is arbitrary. Starting a thread gives its handle, or fails.
-/

namespace SamplePrograms.JobQueue.CondV
open Stdio

/-- `MAX_THREAD_COUNT`. -/
def maxThreadCount : Nat := 400

/-- What `getopt` returns, with `optarg` for the option `t`. -/
inductive Opt where
  | t (optarg : List Char)
  | h
  | unknown

def atoi (text : List Char) : BitVec 32 :=
  match scanInt text with
  | some (value, _) =>
      BitVec.ofInt 32 (max (-9223372036854775808) (min 9223372036854775807 value))
  | none => 0

/-- The option loop. It has no result if it exits. -/
def optionLoop (maxThrCount : BitVec 32) : List Opt → Option (BitVec 32)
  | [] => some maxThrCount
  | .h :: _ => none
  | .t optarg :: rest =>
      if (atoi optarg).toNat > maxThreadCount then none else optionLoop (atoi optarg) rest
  | .unknown :: _ => none

/-- What stops the main program. -/
inductive MainFault where
  | divisionByZero
  | outOfBounds
  deriving DecidableEq

/-- `(rand()%(max_thr_count - 1)) + 1`. -/
def initThrCount (rand maxThrCount : BitVec 32) : Except MainFault (BitVec 32) :=
  if maxThrCount - 1 = 0 then .error .divisionByZero else .ok (rand % (maxThrCount - 1) + 1)

/-- The function that a thread runs. -/
inductive Callback where
  | dequeue
  | enqueue

/-- The arrays `thread_list` and `thread_list_int`. -/
structure ThreadArrays (H : Type) where
  threadList : Fin maxThreadCount → H
  threadListInt : Fin maxThreadCount → Nat

section Loops
variable {H : Type}

/-- The body of the two loops that start threads. -/
def startThread (create : Nat → Option H) (arrays : ThreadArrays H) (i : Fin maxThreadCount) :
    ThreadArrays H where
  threadList :=
    match create i with
    | some handle => Function.update arrays.threadList i handle
    | none => arrays.threadList
  threadListInt := Function.update arrays.threadListInt i i

/-- A loop that starts threads up to a bound, with the count it ends at. -/
def startLoop (create : Nat → Option H) (bound : BitVec 32) (count : Nat)
    (arrays : ThreadArrays H) : Except MainFault (Nat × ThreadArrays H) :=
  if BitVec.ofNat 32 count < bound then
    if h : count < maxThreadCount then
      startLoop create bound (count + 1) (startThread create arrays ⟨count, h⟩)
    else .error .outOfBounds
  else .ok (count, arrays)
termination_by maxThreadCount - count

/-- The join loop, with the handles that it joins. -/
def joinLoop (arrays : ThreadArrays H) (bound : BitVec 32) (ind : Nat) :
    Except MainFault (List H) :=
  if BitVec.ofNat 32 ind < bound then
    if h : ind < maxThreadCount then do
      let rest ← joinLoop arrays bound (ind + 1)
      pure (arrays.threadList ⟨ind, h⟩ :: rest)
    else .error .outOfBounds
  else .ok []
termination_by maxThreadCount - ind

/-- The two loops that start threads. -/
def startThreads (create : Callback → Nat → Option H) (init maxThrCount : BitVec 32)
    (arrays : ThreadArrays H) : Except MainFault (ThreadArrays H) := do
  let (count, arrays) ← startLoop (create .dequeue) init 0 arrays
  let (_, arrays) ← startLoop (create .enqueue) maxThrCount count arrays
  pure arrays

/-- `main` behind the option loop, with the handles that it joins. -/
def mainAfterOptions (create : Callback → Nat → Option H) (rand maxThrCount : BitVec 32)
    (arrays : ThreadArrays H) : Except MainFault (ThreadArrays H × List H) := do
  let init ← initThrCount rand maxThrCount
  let arrays ← startThreads create init maxThrCount arrays
  let joined ← joinLoop arrays maxThrCount 0
  pure (arrays, joined)

/-! ## The loops -/

/-- The comparison of the loops below the length of the arrays. -/
theorem ofNat_lt_iff {count : Nat} (bound : BitVec 32) (fits : count ≤ maxThreadCount) :
    BitVec.ofNat 32 count < bound ↔ count < bound.toNat := by
  have small : count < 4294967296 := by
    rw [maxThreadCount] at fits
    omega
  rw [BitVec.lt_def, BitVec.toNat_ofNat, Nat.mod_eq_of_lt small]

/-- The arrays after the threads from one count up to another were started. -/
def ThreadArrays.started (arrays : ThreadArrays H) (create : Nat → Option H) (low high : Nat) :
    ThreadArrays H where
  threadList i :=
    if low ≤ i ∧ i < high then (create i).getD (arrays.threadList i) else arrays.threadList i
  threadListInt i := if low ≤ i ∧ i < high then i else arrays.threadListInt i

theorem ThreadArrays.started_self (arrays : ThreadArrays H) (create : Nat → Option H) (n : Nat) :
    arrays.started create n n = arrays := by
  have none_between : ∀ i : Fin maxThreadCount, ¬ (n ≤ i ∧ (i : Nat) < n) := fun i h => by omega
  simp [started, none_between]

/-- The thread of the first count is started first. -/
theorem ThreadArrays.started_succ (arrays : ThreadArrays H) (create : Nat → Option H)
    {low high : Nat} (below : low < high) (inside : low < maxThreadCount) :
    (startThread create arrays ⟨low, inside⟩).started create (low + 1) high =
      arrays.started create low high := by
  rw [started, started, mk.injEq]
  constructor
  · funext i
    by_cases here : i = ⟨low, inside⟩
    · subst here
      cases made : create low with
      | none => simp [startThread, made, below]
      | some handle => simp [startThread, made, below]
    · have apart : (i : Nat) ≠ low := fun h => here (Fin.ext h)
      have same : (startThread create arrays ⟨low, inside⟩).threadList i = arrays.threadList i := by
        cases made : create low with
        | none => simp [startThread, made]
        | some handle => simp [startThread, made, here]
      have range : (low + 1 ≤ i ∧ (i : Nat) < high) ↔ (low ≤ i ∧ (i : Nat) < high) := by omega
      simp only [same, range]
  · funext i
    by_cases here : i = ⟨low, inside⟩
    · subst here
      simp [startThread, below]
    · have apart : (i : Nat) ≠ low := fun h => here (Fin.ext h)
      have range : (low + 1 ≤ i ∧ (i : Nat) < high) ↔ (low ≤ i ∧ (i : Nat) < high) := by omega
      simp only [startThread, Function.update_of_ne here, range]

/-- A loop with a bound inside the arrays starts a thread for each count below it. -/
theorem startLoop_ok (create : Nat → Option H) {bound : BitVec 32}
    (fits : bound.toNat ≤ maxThreadCount) {count : Nat} (below : count ≤ bound.toNat)
    (arrays : ThreadArrays H) : startLoop create bound count arrays =
      .ok (bound.toNat, arrays.started create count bound.toNat) := by
  obtain ⟨k, rest⟩ := Nat.exists_eq_add_of_le below
  induction k generalizing count arrays with
  | zero =>
      have stop : ¬ BitVec.ofNat 32 count < bound := by
        rw [ofNat_lt_iff bound (by omega)]
        omega
      rw [startLoop, if_neg stop, rest, Nat.add_zero, arrays.started_self]
  | succ k ih =>
      have more : BitVec.ofNat 32 count < bound := (ofNat_lt_iff bound (by omega)).mpr (by omega)
      have inside : count < maxThreadCount := by omega
      rw [startLoop, if_pos more, dif_pos inside, ih (by omega) _ (by omega),
        arrays.started_succ create (by omega) inside]

/-- A loop with a greater bound leaves the arrays. -/
theorem startLoop_outOfBounds (create : Nat → Option H) {bound : BitVec 32}
    (wide : maxThreadCount < bound.toNat) {count : Nat} (inside : count ≤ maxThreadCount)
    (arrays : ThreadArrays H) : startLoop create bound count arrays = .error .outOfBounds := by
  obtain ⟨k, rest⟩ := Nat.exists_eq_add_of_le inside
  have more : BitVec.ofNat 32 count < bound := (ofNat_lt_iff bound inside).mpr (by omega)
  induction k generalizing count arrays with
  | zero => rw [startLoop, if_pos more, dif_neg (by omega)]
  | succ k ih =>
      rw [startLoop, if_pos more, dif_pos (by omega)]
      exact ih (by omega) _ (by omega) ((ofNat_lt_iff bound (by omega)).mpr (by omega))

/-- The join loop joins the thread of each count below its bound. -/
theorem joinLoop_ok (arrays : ThreadArrays H) {bound : BitVec 32}
    (fits : bound.toNat ≤ maxThreadCount) {ind : Nat} (below : ind ≤ bound.toNat) :
    ∃ joined, joinLoop arrays bound ind = .ok joined ∧
      ∀ k (hk : ind + k < bound.toNat),
        joined[k]? = some (arrays.threadList ⟨ind + k, hk.trans_le fits⟩) := by
  obtain ⟨n, rest⟩ := Nat.exists_eq_add_of_le below
  induction n generalizing ind with
  | zero =>
      have stop : ¬ BitVec.ofNat 32 ind < bound := by
        rw [ofNat_lt_iff bound (by omega)]
        omega
      exact ⟨[], by rw [joinLoop, if_neg stop], fun k hk => by omega⟩
  | succ n ih =>
      have more : BitVec.ofNat 32 ind < bound := (ofNat_lt_iff bound (by omega)).mpr (by omega)
      have inside : ind < maxThreadCount := by omega
      have below' : ind + 1 ≤ bound.toNat := by omega
      obtain ⟨joined, run, handles⟩ := ih below' (by omega)
      refine ⟨arrays.threadList ⟨ind, inside⟩ :: joined, ?_, ?_⟩
      · rw [joinLoop, if_pos more, dif_pos inside, run]
        rfl
      · intro k hk
        cases k with
        | zero => rfl
        | succ k =>
            have next : ind + 1 + k = ind + (k + 1) := by omega
            rw [List.getElem?_cons_succ, handles k (by omega)]
            simp only [next]

/-- The main program with a number of dequeue threads up to the number of threads. -/
theorem mainAfterOptions_ok (create : Callback → Nat → Option H) {rand init maxThrCount : BitVec 32}
    (drawn : initThrCount rand maxThrCount = .ok init) (le : init.toNat ≤ maxThrCount.toNat)
    (bounded : maxThrCount.toNat ≤ maxThreadCount) (arrays : ThreadArrays H) :
    ∃ arrays' joined, arrays' = (arrays.started (create .dequeue) 0 init.toNat).started
        (create .enqueue) init.toNat maxThrCount.toNat ∧
      mainAfterOptions create rand maxThrCount arrays = .ok (arrays', joined) ∧
      ∀ k (hk : k < maxThrCount.toNat),
        joined[k]? = some (arrays'.threadList ⟨k, hk.trans_le bounded⟩) := by
  have dequeues := startLoop_ok (create .dequeue) (le.trans bounded) (Nat.zero_le _) arrays
  have enqueues := startLoop_ok (create .enqueue) bounded le
    (arrays.started (create .dequeue) 0 init.toNat)
  obtain ⟨arrays', ready⟩ : ∃ arrays', arrays' = (arrays.started (create .dequeue) 0
    init.toNat).started (create .enqueue) init.toNat maxThrCount.toNat := ⟨_, rfl⟩
  rw [← ready] at enqueues
  obtain ⟨joined, joins, handles⟩ := joinLoop_ok arrays' bounded (Nat.zero_le _)
  refine ⟨arrays', joined, ready, ?_, fun k hk => ?_⟩
  · simp only [mainAfterOptions, drawn, startThreads, dequeues, enqueues, joins, bind,
      Except.bind, pure, Except.pure]
  · have handle := handles k (by omega)
    simp only [Nat.zero_add] at handle
    exact handle

end Loops

/-! ## The numbers -/

/-- The option loop ends with the number of the last option. -/
theorem optionLoop_eq_some {start last : BitVec 32} {opts : List Opt}
    (accepted : optionLoop start opts = some last) : opts = [] ∧ last = start ∨
      ∃ arg, opts.getLast? = some (.t arg) ∧ last = atoi arg ∧ last.toNat ≤ maxThreadCount := by
  induction opts generalizing start with
  | nil => exact .inl ⟨rfl, (Option.some.inj accepted).symm⟩
  | cons opt rest ih =>
      cases opt with
      | h => cases accepted
      | unknown => cases accepted
      | t optarg =>
          rw [optionLoop, Option.ite_none_left_eq_some] at accepted
          obtain ⟨small, later⟩ := accepted
          right
          rcases ih later with ⟨rfl, rfl⟩ | ⟨arg, isLast, value, bounded⟩
          · exact ⟨optarg, rfl, rfl, not_lt.mp small⟩
          · refine ⟨arg, ?_, value, bounded⟩
            rw [List.getLast?_cons, isLast]
            rfl

/-- With at least two threads there are threads of both kinds. -/
theorem initThrCount_ok (rand : BitVec 32) {maxThrCount : BitVec 32} (two : 2 ≤ maxThrCount.toNat) :
    ∃ init, initThrCount rand maxThrCount = .ok init ∧ 1 ≤ init.toNat ∧
      init.toNat < maxThrCount.toNat := by
  have divisor : (maxThrCount - 1).toNat = maxThrCount.toNat - 1 := by bv_omega
  have nonzero : maxThrCount - 1 ≠ 0 := by bv_omega
  have below : (rand % (maxThrCount - 1)).toNat < (maxThrCount - 1).toNat := by
    rw [BitVec.toNat_umod]
    exact Nat.mod_lt _ (by omega)
  refine ⟨_, if_neg nonzero, ?_, ?_⟩
  · bv_omega
  · bv_omega

/-- With fewer threads there are not. -/
theorem two_le_of_initThrCount {rand init maxThrCount : BitVec 32}
    (drawn : initThrCount rand maxThrCount = .ok init) (less : init.toNat < maxThrCount.toNat) :
    2 ≤ maxThrCount.toNat := by
  by_contra few
  have one : maxThrCount - 1 = 0 := by bv_omega
  rw [initThrCount, if_pos one] at drawn
  cases drawn

/-! ## The main program -/

/-- The number of dequeue threads is computed, there are threads of both kinds and not too many,
and the loops stay inside their arrays. -/
def StartsSafely {H : Type} (create : Callback → Nat → Option H) (rand maxThrCount : BitVec 32)
    (arrays : ThreadArrays H) : Prop :=
  (∃ init, initThrCount rand maxThrCount = .ok init ∧ 1 ≤ init.toNat ∧
    init.toNat < maxThrCount.toNat ∧ maxThrCount.toNat ≤ maxThreadCount) ∧
  ∃ result, mainAfterOptions create rand maxThrCount arrays = .ok result

/-- The main program starts its threads safely exactly if the last option asks for at least two
threads. -/
theorem startsSafely_iff {H : Type} (create : Callback → Nat → Option H) (rand : BitVec 32)
    (arrays : ThreadArrays H) {opts : List Opt} {maxThrCount : BitVec 32}
    (accepted : optionLoop 0 opts = some maxThrCount) :
    StartsSafely create rand maxThrCount arrays ↔
      ∃ arg, opts.getLast? = some (.t arg) ∧ 2 ≤ (atoi arg).toNat := by
  constructor
  · rintro ⟨⟨init, drawn, -, less, -⟩, -⟩
    have two := two_le_of_initThrCount drawn less
    rcases optionLoop_eq_some accepted with ⟨-, rfl⟩ | ⟨arg, isLast, rfl, -⟩
    · cases less
    · exact ⟨arg, isLast, two⟩
  · rintro ⟨arg, isLast, two⟩
    rcases optionLoop_eq_some accepted with ⟨rfl, -⟩ | ⟨arg', isLast', rfl, bounded⟩
    · cases isLast
    · cases isLast.symm.trans isLast'
      obtain ⟨init, drawn, positive, less⟩ := initThrCount_ok rand two
      refine ⟨⟨init, drawn, positive, less, bounded⟩, ?_⟩
      obtain ⟨arrays', joined, -, run, -⟩ :=
        mainAfterOptions_ok create drawn less.le bounded arrays
      exact ⟨_, run⟩

/-- The threads of the main program. The dequeue threads come first. -/
def mainThreads (init maxThrCount : BitVec 32) (callocOk : Fin maxThrCount.toNat → Bool) :
    ThreadList (Fin maxThrCount.toNat) where
  enqueues t := init.toNat ≤ t
  threadId t := t
  callocOk := callocOk

/-- Each thread is started with its own function and reads its own number, and is joined. -/
theorem main_starts_threads {rand init maxThrCount : BitVec 32}
    (drawn : initThrCount rand maxThrCount = .ok init) (le : init.toNat ≤ maxThrCount.toNat)
    (bounded : maxThrCount.toNat ≤ maxThreadCount) (callocOk : Fin maxThrCount.toNat → Bool)
    (arrays : ThreadArrays (Callback × Nat)) : ∃ arrays' joined,
      mainAfterOptions (fun callback i => some (callback, i)) rand maxThrCount arrays =
        .ok (arrays', joined) ∧
      ∀ t, arrays'.threadListInt (t.castLE bounded) =
          (mainThreads init maxThrCount callocOk).threadId t ∧
        joined[t.val]? = some (if (mainThreads init maxThrCount callocOk).enqueues t then
          (.enqueue, t.val) else (.dequeue, t.val)) := by
  obtain ⟨arrays', joined, ready, run, handles⟩ :=
    mainAfterOptions_ok (fun callback i => some (callback, i)) drawn le bounded arrays
  refine ⟨arrays', joined, run, fun t => ?_⟩
  rw [handles t t.isLt, ready]
  by_cases first : init.toNat ≤ t
  · simp [ThreadArrays.started, mainThreads, first]
  · have before : (t : Nat) < init.toNat := not_le.mp first
    simp [ThreadArrays.started, mainThreads, first, before]

/-- Every thread can be started, and its handle is its number. -/
def numbered (_ : Callback) (i : Nat) : Option Nat := some i

/-- Arrays that were cleared. -/
def cleared : ThreadArrays Nat := ⟨fun _ => 0, fun _ => 0⟩

/-- The last of two options counts. -/
theorem startsSafely_five : optionLoop 0 [.t ['1'], .t ['5']] = some 5 ∧
    StartsSafely numbered 1804289383 5 cleared := by
  have accepted : optionLoop 0 [.t ['1'], .t ['5']] = some 5 := rfl
  exact ⟨accepted,
    (startsSafely_iff numbered 1804289383 cleared accepted).mpr ⟨['5'], rfl, by decide⟩⟩

/-- Without an option the first loop leaves the arrays, and one thread makes the divisor zero. -/
theorem startsSafely_not_always :
    (optionLoop 0 [] = some 0 ∧
      mainAfterOptions numbered 1804289383 0 cleared = .error .outOfBounds ∧
      ¬ StartsSafely numbered 1804289383 0 cleared) ∧
    optionLoop 0 [.t ['1']] = some 1 ∧
      mainAfterOptions numbered 1804289383 1 cleared = .error .divisionByZero ∧
      ¬ StartsSafely numbered 1804289383 1 cleared := by
  have leaves : mainAfterOptions numbered 1804289383 0 cleared = .error .outOfBounds := by
    have drawn : initThrCount 1804289383 0 = .ok 1804289384 := by decide
    have wide : maxThreadCount < (1804289384 : BitVec 32).toNat := by decide
    have first := startLoop_outOfBounds (numbered .dequeue) wide (Nat.zero_le _) cleared
    simp only [mainAfterOptions, drawn, startThreads, first, bind, Except.bind]
  refine ⟨⟨rfl, leaves, ?_⟩, rfl, rfl, ?_⟩
  · rintro ⟨-, result, run⟩
    cases leaves.symm.trans run
  · rintro ⟨⟨init, drawn, -⟩, -⟩
    cases drawn

end SamplePrograms.JobQueue.CondV
