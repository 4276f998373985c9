import Mathlib.Algebra.GroupWithZero.Nat
import Mathlib.Data.List.Basic
import Mathlib.Tactic.Common

/-!
# `crlf.c` and `writen.c`

The conversions of line ends and the function that writes a whole buffer.

## Implementation notes

A destination is the list of the bytes that are stored there. `err_quit` ends the process. For a
call of `write` that does not fail the kernel takes some number of the bytes that are left. The
return value of `write` becomes unsigned in `writen`, so that it cannot be negative there.
-/

namespace SamplePrograms.Sock

abbrev Byte := BitVec 8

def newline : Byte := 10

def carriageReturn : Byte := 13

/-! ## Line ends -/

/-- The loop of `crlf_add`: what is stored, and `lenout`. -/
def crlfAddLoop (dstsize : ℕ) : ℕ → List Byte → Option (List Byte × ℕ)
  | lenout, [] => some ([], lenout)
  | lenout, c :: src =>
      if c = newline then
        if dstsize ≤ lenout + 1 then none
        else (crlfAddLoop dstsize (lenout + 1) src).map fun r =>
          (carriageReturn :: c :: r.1, r.2)
      else (crlfAddLoop dstsize lenout src).map fun r => (c :: r.1, r.2)

/-- `crlf_add`, or nothing when it calls `err_quit`. -/
def crlfAdd (dstsize : ℕ) (src : List Byte) : Option (List Byte × ℕ) :=
  if dstsize < src.length then none else crlfAddLoop dstsize src.length src

/-- The loop of `crlf_strip`. -/
def crlfStripLoop (dstsize : ℕ) : ℕ → List Byte → Option (List Byte × ℕ)
  | lenout, [] => some ([], lenout)
  | lenout, c :: src =>
      if c ≠ carriageReturn then
        if dstsize ≤ lenout + 1 then none
        else (crlfStripLoop dstsize (lenout + 1) src).map fun r => (c :: r.1, r.2)
      else crlfStripLoop dstsize lenout src

/-- `crlf_strip`, or nothing when it calls `err_quit`. -/
def crlfStrip (dstsize : ℕ) (src : List Byte) : Option (List Byte × ℕ) :=
  crlfStripLoop dstsize 0 src

/-- A return before every newline. -/
def addReturns (src : List Byte) : List Byte :=
  src.flatMap fun c => if c = newline then [carriageReturn, c] else [c]

/-- No returns. -/
def stripReturns (src : List Byte) : List Byte := src.filter (· ≠ carriageReturn)

theorem addReturns_append (src src' : List Byte) :
    addReturns (src ++ src') = addReturns src ++ addReturns src' := List.flatMap_append

theorem stripReturns_append (src src' : List Byte) :
    stripReturns (src ++ src') = stripReturns src ++ stripReturns src' := List.filter_append ..

theorem length_addReturns (src : List Byte) :
    (addReturns src).length = src.length + src.count newline := by
  induction src with
  | nil => rfl
  | cons c src ih =>
      rw [addReturns, List.flatMap_cons, List.length_append, ← addReturns, ih, List.length_cons,
        List.count_cons]
      by_cases h : c = newline
      · simp [h]
        omega
      · simp [h]
        omega

/-- What was there before a return was added comes back without its own returns. -/
theorem stripReturns_addReturns (src : List Byte) :
    stripReturns (addReturns src) = stripReturns src := by
  induction src with
  | nil => rfl
  | cons c src ih =>
      have step : stripReturns (if c = newline then [carriageReturn, c] else [c]) =
          stripReturns [c] := by
        split
        · rfl
        · rfl
      rw [addReturns, List.flatMap_cons, ← addReturns, stripReturns_append, ih, step,
        ← stripReturns_append]
      rfl

theorem crlfAddLoop_eq (dstsize lenout : ℕ) (src : List Byte) :
    crlfAddLoop dstsize lenout src =
      if src.count newline = 0 ∨ lenout + src.count newline < dstsize then
        some (addReturns src, lenout + src.count newline)
      else none := by
  induction src generalizing lenout with
  | nil => simp [crlfAddLoop, addReturns]
  | cons c src ih =>
      by_cases nl : c = newline
      · have stored : addReturns (c :: src) = carriageReturn :: c :: addReturns src := by
          simp [addReturns, nl]
        have count : (c :: src).count newline = src.count newline + 1 := by
          simp [nl]
        rw [crlfAddLoop, if_pos nl, stored, count, ih]
        by_cases full : dstsize ≤ lenout + 1
        · rw [if_pos full, if_neg (by omega)]
        · rw [if_neg full]
          by_cases room : lenout + (src.count newline + 1) < dstsize
          · rw [if_pos (by omega), if_pos (.inr room), Option.map_some]
            simp only [Nat.add_assoc, Nat.add_comm 1]
          · rw [if_neg (by omega), if_neg (by omega), Option.map_none]
      · have stored : addReturns (c :: src) = c :: addReturns src := by
          simp [addReturns, nl]
        have count : (c :: src).count newline = src.count newline := by
          simp [nl]
        rw [crlfAddLoop, if_neg nl, stored, count, ih]
        split <;> rfl

/-- There must be room for one byte more than is stored, unless there is no newline. -/
theorem crlfAdd_eq (dstsize : ℕ) (src : List Byte) :
    crlfAdd dstsize src =
      if src.length ≤ dstsize ∧ src.count newline = 0 ∨ (addReturns src).length < dstsize then
        some (addReturns src, (addReturns src).length)
      else none := by
  have length := length_addReturns src
  rw [crlfAdd, crlfAddLoop_eq, ← length]
  by_cases long : dstsize < src.length
  · rw [if_pos long, if_neg (by omega)]
  · rw [if_neg long]
    exact if_congr (by omega) rfl rfl

theorem crlfStripLoop_eq (dstsize lenout : ℕ) (src : List Byte) :
    crlfStripLoop dstsize lenout src =
      if (stripReturns src).length = 0 ∨ lenout + (stripReturns src).length < dstsize then
        some (stripReturns src, lenout + (stripReturns src).length)
      else none := by
  induction src generalizing lenout with
  | nil => simp [crlfStripLoop, stripReturns]
  | cons c src ih =>
      by_cases cr : c = carriageReturn
      · have kept : stripReturns (c :: src) = stripReturns src := by
          simp [stripReturns, cr]
        rw [crlfStripLoop, if_neg (not_not.mpr cr), kept, ih]
      · have kept : stripReturns (c :: src) = c :: stripReturns src := by
          simp [stripReturns, cr]
        rw [crlfStripLoop, if_pos cr, kept, ih, List.length_cons]
        by_cases full : dstsize ≤ lenout + 1
        · rw [if_pos full, if_neg (by omega)]
        · rw [if_neg full]
          by_cases room : lenout + ((stripReturns src).length + 1) < dstsize
          · rw [if_pos (by omega), if_pos (.inr room), Option.map_some]
            simp only [Nat.add_assoc, Nat.add_comm 1]
          · rw [if_neg (by omega), if_neg (by omega), Option.map_none]

/-- There must be room for one byte more than is stored, unless nothing is. -/
theorem crlfStrip_eq (dstsize : ℕ) (src : List Byte) :
    crlfStrip dstsize src =
      if (stripReturns src).length = 0 ∨ (stripReturns src).length < dstsize then
        some (stripReturns src, (stripReturns src).length)
      else none := by
  rw [crlfStrip, crlfStripLoop_eq, Nat.zero_add]

/-! ## `writen` -/

/-- The result of a call of `write`: it takes at most the given number of bytes, or it fails. -/
inductive WriteResult where
  | wrote (k : ℕ)
  | error
  deriving DecidableEq

/-- How `writen` ends: it returns, it writes from in front of the buffer, or it is still in a call
of `write`. -/
inductive WritenEnd where
  | returned (value : ℕ)
  | underrun
  | blocked
  deriving DecidableEq

/-- What was written, the end, and the results of `write` that are left. -/
structure Writen where
  out : List Byte
  ending : WritenEnd
  rest : List WriteResult

/-- The loop of `writen` from an offset on. The value -1 of a failed call becomes the largest
`size_t`, so that the program steps back by one byte. -/
def writenLoop (buf : List Byte) : ℕ → List Byte → List WriteResult → Writen
  | ptr, out, [] => ⟨out, if ptr < buf.length then .blocked else .returned buf.length, []⟩
  | ptr, out, r :: rest =>
      if ptr < buf.length then
        match r with
        | .wrote 0 => ⟨out, .returned 0, rest⟩
        | .wrote (k + 1) =>
            let nwritten := min (k + 1) (buf.length - ptr)
            writenLoop buf (ptr + nwritten) (out ++ (buf.drop ptr).take nwritten) rest
        | .error =>
            match ptr with
            | 0 => ⟨out, .underrun, rest⟩
            | ptr + 1 => writenLoop buf ptr out rest
      else ⟨out, .returned buf.length, r :: rest⟩

def writen (buf : List Byte) (results : List WriteResult) : Writen := writenLoop buf 0 [] results

theorem writenLoop_returned {buf : List Byte} {results rest : List WriteResult} {ptr value : ℕ}
    {out out' : List Byte} (within : ptr ≤ buf.length)
    (h : writenLoop buf ptr out results = ⟨out', .returned value, rest⟩) :
    ∃ used, results = used ++ rest ∧
      (value = buf.length ∧ out'.length = out.length + (buf.length - ptr) + used.count .error ∧
          (.error ∉ used → out' = out ++ buf.drop ptr) ∨
        value = 0) := by
  induction results generalizing ptr out with
  | nil =>
      simp only [writenLoop, Writen.mk.injEq] at h
      obtain ⟨rfl, ending, rfl⟩ := h
      split at ending
      · cases ending
      · obtain rfl : ptr = buf.length := by omega
        cases ending
        exact ⟨[], rfl, .inl ⟨rfl, by simp, by simp⟩⟩
  | cons r results ih =>
      by_cases more : ptr < buf.length
      · cases r with
        | wrote k =>
            cases k with
            | zero =>
                simp only [writenLoop, if_pos more, Writen.mk.injEq, WritenEnd.returned.injEq] at h
                exact ⟨[.wrote 0], by simp [h.2.2], .inr h.2.1.symm⟩
            | succ k =>
                simp only [writenLoop, if_pos more] at h
                obtain ⟨used, rfl, all | none⟩ := ih (by omega) h
                · obtain ⟨rfl, length, same⟩ := all
                  refine ⟨.wrote (k + 1) :: used, rfl, .inl ⟨rfl, ?_, fun clean => ?_⟩⟩
                  · rw [length, List.length_append, List.length_take, List.length_drop,
                      List.count_cons_of_ne (by simp)]
                    omega
                  · rw [same fun h => clean (List.mem_cons_of_mem _ h), List.append_assoc,
                      ← List.drop_drop, List.take_append_drop]
                · exact ⟨.wrote (k + 1) :: used, rfl, .inr none⟩
        | error =>
            cases ptr with
            | zero => simp [writenLoop, more] at h
            | succ ptr =>
                simp only [writenLoop, if_pos more] at h
                obtain ⟨used, rfl, ⟨rfl, length, -⟩ | none⟩ := ih (by omega) h
                · refine ⟨.error :: used, rfl, .inl ⟨rfl, ?_, by simp⟩⟩
                  rw [length, List.count_cons_self]
                  omega
                · exact ⟨.error :: used, rfl, .inr none⟩
      · obtain rfl : ptr = buf.length := by omega
        simp only [writenLoop, if_neg more, Writen.mk.injEq, WritenEnd.returned.injEq] at h
        obtain ⟨rfl, rfl, rfl⟩ := h
        exact ⟨[], rfl, .inl ⟨rfl, by simp, by simp⟩⟩

/-- Each failed call makes `writen` write a byte twice, and it never returns the error. -/
theorem writen_returned {buf : List Byte} {results rest : List WriteResult} {out : List Byte}
    {value : ℕ} (h : writen buf results = ⟨out, .returned value, rest⟩) :
    ∃ used, results = used ++ rest ∧
      (value = buf.length ∧ out.length = buf.length + used.count .error ∧
          (.error ∉ used → out = buf) ∨
        value = 0) := by
  simpa using writenLoop_returned (Nat.zero_le _) h

theorem writen_returned_twice :
    ∃ used, [WriteResult.wrote 2, .error, .wrote 9] = used ++ [] ∧
      (3 = [(97 : Byte), 98, 99].length ∧
          [(97 : Byte), 98, 98, 99].length = [(97 : Byte), 98, 99].length + used.count .error ∧
          (.error ∉ used → [(97 : Byte), 98, 98, 99] = [97, 98, 99]) ∨
        3 = 0) :=
  writen_returned rfl

theorem writenLoop_of_wrote {buf : List Byte} {pieces : List ℕ} (ptr : ℕ) (out : List Byte)
    (positive : ∀ k ∈ pieces, 0 < k) (enough : buf.length ≤ ptr + pieces.sum)
    (within : ptr ≤ buf.length) (rest : List WriteResult) :
    ∃ rest', writenLoop buf ptr out (pieces.map .wrote ++ rest) =
      ⟨out ++ buf.drop ptr, .returned buf.length, rest'⟩ := by
  induction pieces generalizing ptr out with
  | nil =>
      obtain rfl : ptr = buf.length := by simpa using Nat.le_antisymm within enough
      refine ⟨rest, ?_⟩
      cases rest <;> simp [writenLoop]
  | cons k pieces ih =>
      by_cases more : ptr < buf.length
      · obtain ⟨j, rfl⟩ : ∃ j, k = j + 1 := ⟨k - 1, by
          have := positive k List.mem_cons_self
          omega⟩
        rw [List.sum_cons] at enough
        obtain ⟨rest', done⟩ := ih (ptr + min (j + 1) (buf.length - ptr))
          (out ++ (buf.drop ptr).take (min (j + 1) (buf.length - ptr)))
          (fun k h => positive k (List.mem_cons_of_mem _ h)) (by omega) (by omega)
        refine ⟨rest', ?_⟩
        simp only [List.map_cons, List.cons_append, writenLoop, if_pos more]
        rw [done, List.append_assoc, ← List.drop_drop, List.take_append_drop]
      · obtain rfl : ptr = buf.length := by omega
        exact ⟨.wrote k :: (pieces.map .wrote ++ rest), by simp [writenLoop]⟩

/-- Without errors everything is written, in pieces of any size. -/
theorem writen_of_wrote {buf : List Byte} {pieces : List ℕ} (positive : ∀ k ∈ pieces, 0 < k)
    (enough : buf.length ≤ pieces.sum) (rest : List WriteResult) :
    ∃ rest', writen buf (pieces.map .wrote ++ rest) = ⟨buf, .returned buf.length, rest'⟩ := by
  simpa [writen] using
    writenLoop_of_wrote 0 [] positive (by simpa using enough) (Nat.zero_le _) rest

end SamplePrograms.Sock
