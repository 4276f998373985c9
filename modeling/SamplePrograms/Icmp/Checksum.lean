import Mathlib
import SamplePrograms.Library.OnesComplement

/-!
# The checksum of ICMP messages

`in_cksum` adds the words of a message in the byte order of the host and complements the sum. The
words of the other byte order add up to 256 times the sum, up to multiples of 65535, so that the
two bytes of the checksum do not depend on the host.

## Implementation notes

A message is the list of its bytes. A message of more than 65536 bytes, which no IP packet holds,
could overflow the sum. The checksum field of a message has an even offset.
-/

namespace SamplePrograms.Icmp
open OnesComplement

abbrev Byte := BitVec 8

/-- The order of the two bytes of a `u_short` in memory. -/
inductive ByteOrder where
  | little
  | big
  deriving DecidableEq

namespace ByteOrder

/-- The `u_short` at two bytes. -/
def word : ByteOrder → Byte → Byte → BitVec 16
  | little, first, second => .ofNat 16 (first.toNat + 256 * second.toNat)
  | big, first, second => .ofNat 16 (256 * first.toNat + second.toNat)

/-- The two bytes of a `u_short`. -/
def bytes : ByteOrder → BitVec 16 → List Byte
  | little, w => [.ofNat 8 w.toNat, .ofNat 8 (w.toNat / 256)]
  | big, w => [.ofNat 8 (w.toNat / 256), .ofNat 8 w.toNat]

end ByteOrder

/-- The loop of `in_cksum`, and the odd byte, which becomes the first byte of a zero word. -/
def addWords (order : ByteOrder) (sum : BitVec 32) : List Byte → BitVec 32
  | [] => sum
  | [odd] => sum + (order.word odd 0).setWidth 32
  | first :: second :: rest => addWords order (sum + (order.word first second).setWidth 32) rest

def inCksum (order : ByteOrder) (addr : List Byte) : BitVec 16 :=
  let sum := addWords order 0 addr
  let sum := sum.sshiftRight 16 + (sum &&& 0xffff#32)
  let sum := sum + sum.sshiftRight 16
  (~~~sum).setWidth 16

/-- A message with its checksum, which is computed while the field is zero. -/
def sealed (order : ByteOrder) (front back : List Byte) : List Byte :=
  front ++ order.bytes (inCksum order (front ++ [0, 0] ++ back)) ++ back

/-! ## Words -/

theorem word_little (first second : Byte) :
    (ByteOrder.little.word first second).toNat = first.toNat + 256 * second.toNat := by
  have low := first.isLt
  have high := second.isLt
  rw [ByteOrder.word, BitVec.toNat_ofNat]
  omega

theorem word_big (first second : Byte) :
    (ByteOrder.big.word first second).toNat = 256 * first.toNat + second.toNat := by
  have low := first.isLt
  have high := second.isLt
  rw [ByteOrder.word, BitVec.toNat_ofNat]
  omega

/-- The word at the two bytes of a word is this word. -/
theorem exists_bytes (order : ByteOrder) (w : BitVec 16) :
    ∃ first second, order.bytes w = [first, second] ∧ order.word first second = w := by
  have lt := w.isLt
  cases order with
  | little =>
      refine ⟨_, _, rfl, ?_⟩
      apply BitVec.eq_of_toNat_eq
      rw [word_little, BitVec.toNat_ofNat, BitVec.toNat_ofNat]
      omega
  | big =>
      refine ⟨_, _, rfl, ?_⟩
      apply BitVec.eq_of_toNat_eq
      rw [word_big, BitVec.toNat_ofNat, BitVec.toNat_ofNat]
      omega

/-- The sum of the words of a message. -/
def wordSum (order : ByteOrder) : List Byte → ℕ
  | [] => 0
  | [odd] => (order.word odd 0).toNat
  | first :: second :: rest => (order.word first second).toNat + wordSum order rest

theorem wordSum_append (order : ByteOrder) {front : List Byte} (even : Even front.length)
    (back : List Byte) : wordSum order (front ++ back) = wordSum order front + wordSum order back := by
  induction front using wordSum.induct with
  | case1 => simp [wordSum]
  | case2 odd => exact absurd even (by simp)
  | case3 first second rest ih =>
      have even' : Even rest.length := by
        simpa [Nat.even_add_one, ← Nat.not_even_iff_odd] using even
      simp only [List.cons_append, wordSum, ih even', Nat.add_assoc]

theorem wordSum_le (order : ByteOrder) (addr : List Byte) :
    2 * wordSum order addr ≤ 65535 * (addr.length + 1) := by
  induction addr using wordSum.induct with
  | case1 => simp [wordSum]
  | case2 odd =>
      have := (order.word odd 0).isLt
      simp only [wordSum, List.length_singleton]
      omega
  | case3 first second rest ih =>
      have := (order.word first second).isLt
      simp only [wordSum, List.length_cons]
      omega

theorem addWords_eq (order : ByteOrder) (addr : List Byte) (sum : BitVec 32) :
    addWords order sum addr = sum + .ofNat 32 (wordSum order addr) := by
  induction addr using wordSum.induct generalizing sum with
  | case1 => simp [addWords, wordSum]
  | case2 odd =>
      rw [addWords, wordSum, BitVec.ofNat_toNat]
  | case3 first second rest ih =>
      rw [addWords, ih, wordSum, BitVec.ofNat_add, BitVec.add_assoc,
        BitVec.ofNat_toNat]

/-! ## The two folds -/

theorem toNat_sshiftRight_of_lt {sum : BitVec 32} (small : sum.toNat < 2 ^ 31) :
    (sum.sshiftRight 16).toNat = sum.toNat / 65536 := by
  have positive : sum.msb = false := by
    rw [BitVec.msb_eq_false_iff_two_mul_lt]
    omega
  rw [BitVec.toNat_sshiftRight_of_msb_false positive, Nat.shiftRight_eq_div_pow]

theorem toNat_fold {sum : BitVec 32} (small : sum.toNat < 2 ^ 31) :
    (sum.sshiftRight 16 + (sum &&& 0xffff#32)).toNat = carry 65536 sum.toNat := by
  have low : (sum &&& 0xffff#32).toNat = sum.toNat % 65536 := by
    rw [BitVec.toNat_and]
    exact Nat.and_two_pow_sub_one_eq_mod sum.toNat 16
  rw [BitVec.toNat_add, toNat_sshiftRight_of_lt small, low, carry]
  omega

/-- The second fold leaves the high word in place, and the truncation removes it. -/
theorem toNat_answer {sum : BitVec 32} (small : sum.toNat ≤ 2 * 65535) :
    ((~~~(sum + sum.sshiftRight 16)).setWidth 16).toNat = 65535 - carry 65536 sum.toNat := by
  rw [BitVec.toNat_setWidth, BitVec.toNat_not, BitVec.toNat_add,
    toNat_sshiftRight_of_lt (by omega), carry]
  omega

/-- The checksum is the complement of the digit that stands for the sum of the words. -/
theorem toNat_inCksum (order : ByteOrder) {addr : List Byte} (fits : addr.length ≤ 65536) :
    (inCksum order addr).toNat = 65535 - digit 65536 (wordSum order addr) := by
  have bound := wordSum_le order addr
  have value : (addWords order 0 addr).toNat = wordSum order addr := by
    rw [addWords_eq, BitVec.ofNat_eq_ofNat, BitVec.zero_add, BitVec.toNat_ofNat,
      Nat.mod_eq_of_lt (by omega)]
  have small : (addWords order 0 addr).toNat < 2 ^ 31 := by omega
  have once := toNat_fold small
  have square : wordSum order addr < 65536 * 65536 := by omega
  have folded := carry_le (b := 65536) (by decide) square
  rw [inCksum, toNat_answer (by rw [once, value]; exact folded), once, value,
    carry_carry (by decide) square]

theorem inCksum_eq_zero_iff (order : ByteOrder) {addr : List Byte} (fits : addr.length ≤ 65536) :
    inCksum order addr = 0 ↔ 65535 ∣ wordSum order addr ∧ wordSum order addr ≠ 0 := by
  have lt := digit_lt (b := 65536) (by decide) (wordSum order addr)
  have last := digit_eq_last_iff (b := 65536) (s := wordSum order addr) (by decide)
  have zero : (0 : BitVec 16).toNat = 0 := rfl
  rw [← BitVec.toNat_inj, toNat_inCksum order fits, zero]
  omega

/-! ## Byte orders -/

/-- Each word of the big order is 256 times the other word, up to multiples of 65535. -/
theorem word_orders (first second : Byte) :
    256 * (ByteOrder.little.word first second).toNat =
      (ByteOrder.big.word first second).toNat + 65535 * second.toNat := by
  rw [word_little, word_big]
  omega

theorem wordSum_orders (addr : List Byte) :
    65535 ∣ wordSum .big addr ↔ 65535 ∣ wordSum .little addr := by
  obtain ⟨k, split⟩ : ∃ k, 256 * wordSum .little addr = wordSum .big addr + 65535 * k := by
    induction addr using wordSum.induct with
    | case1 => exact ⟨0, rfl⟩
    | case2 odd => exact ⟨0, word_orders odd 0⟩
    | case3 first second rest ih =>
        obtain ⟨k, split⟩ := ih
        have step := word_orders first second
        exact ⟨second.toNat + k, by simp only [wordSum]; omega⟩
  omega

theorem toNat_word_eq_zero_iff (order : ByteOrder) (first second : Byte) :
    (order.word first second).toNat = 0 ↔ first = 0 ∧ second = 0 := by
  rw [← BitVec.toNat_inj, ← BitVec.toNat_inj]
  cases order with
  | little =>
      rw [word_little]
      simp
  | big =>
      rw [word_big]
      simp

theorem wordSum_eq_zero_iff (order : ByteOrder) (addr : List Byte) :
    wordSum order addr = 0 ↔ ∀ byte ∈ addr, byte = 0 := by
  induction addr using wordSum.induct with
  | case1 => simp [wordSum]
  | case2 odd => simp [wordSum, toNat_word_eq_zero_iff]
  | case3 first second rest ih =>
      rw [wordSum, Nat.add_eq_zero_iff, toNat_word_eq_zero_iff, ih]
      simp [and_assoc]

/-- A receiver accepts the same messages on every host. -/
theorem inCksum_eq_zero_order (order order' : ByteOrder) {addr : List Byte}
    (fits : addr.length ≤ 65536) : inCksum order addr = 0 ↔ inCksum order' addr = 0 := by
  have zero : wordSum order addr ≠ 0 ↔ wordSum order' addr ≠ 0 := by
    rw [Ne, Ne, wordSum_eq_zero_iff, wordSum_eq_zero_iff]
  have multiple : 65535 ∣ wordSum order addr ↔ 65535 ∣ wordSum order' addr := by
    cases order <;> cases order' <;> simp only [wordSum_orders]
  rw [inCksum_eq_zero_iff order fits, inCksum_eq_zero_iff order' fits, zero, multiple]

/-! ## Messages -/

section Messages
variable {front back : List Byte}

theorem wordSum_field (order : ByteOrder) (even : Even front.length) (first second : Byte) :
    wordSum order (front ++ [first, second] ++ back) =
      (wordSum order front + wordSum order back) + (order.word first second).toNat := by
  rw [List.append_assoc, wordSum_append order even, List.cons_append, List.cons_append,
    List.nil_append, wordSum]
  omega

theorem length_field (first second : Byte) :
    (front ++ [first, second] ++ back).length = front.length + 2 + back.length := by
  simp
  omega

/-- A message with its checksum is accepted on every host. -/
theorem inCksum_sealed (sender receiver : ByteOrder) (even : Even front.length)
    (fits : front.length + 2 + back.length ≤ 65536) :
    inCksum receiver (sealed sender front back) = 0 := by
  obtain ⟨first, second, bytes, word⟩ :=
    exists_bytes sender (inCksum sender (front ++ [0, 0] ++ back))
  have length : ∀ a b : Byte, (front ++ [a, b] ++ back).length ≤ 65536 :=
    fun a b => (length_field a b).trans_le fits
  have cleared : wordSum sender (front ++ [0, 0] ++ back) =
      wordSum sender front + wordSum sender back := by
    rw [wordSum_field sender even, (toNat_word_eq_zero_iff sender 0 0).mpr ⟨rfl, rfl⟩, Nat.add_zero]
  have value : (sender.word first second).toNat =
      65536 - 1 - digit 65536 (wordSum sender front + wordSum sender back) := by
    rw [word, toNat_inCksum sender (length 0 0), cleared]
  have full := digit_add_complement (b := 65536) (by decide)
    (wordSum sender front + wordSum sender back)
  rw [← value, ← wordSum_field sender even] at full
  rw [sealed, bytes, inCksum_eq_zero_order receiver sender (length first second),
    inCksum_eq_zero_iff sender (length first second)]
  exact (digit_eq_last_iff (by decide)).mp full

theorem inCksum_sealed_little :
    inCksum .big (sealed .little [13, 0] [57, 48, 1]) = 0 :=
  inCksum_sealed .little .big (by decide) (by decide)

theorem word_inj (order : ByteOrder) {first second first' second' : Byte} :
    (order.word first second).toNat = (order.word first' second').toNat ↔
      [first, second] = [first', second'] := by
  have bytes := And.intro first.isLt (And.intro second.isLt (And.intro first'.isLt second'.isLt))
  rw [List.cons.injEq, List.cons.injEq, ← BitVec.toNat_inj, ← BitVec.toNat_inj]
  cases order with
  | little =>
      rw [word_little, word_little]
      simp
      omega
  | big =>
      rw [word_big, word_big]
      simp
      omega

/-- A change of one word of an accepted message is accepted exactly if it replaces zero by the
largest word, or the other way round, in a message with another byte that is not zero. -/
theorem damage_accepted_iff (order : ByteOrder) {first second first' second' : Byte}
    (even : Even front.length) (fits : front.length + 2 + back.length ≤ 65536)
    (accepted : inCksum order (front ++ [first, second] ++ back) = 0) :
    inCksum order (front ++ [first', second'] ++ back) = 0 ↔
      [first, second] = [first', second'] ∨
        ([first, second] = [0, 0] ∧ [first', second'] = [255, 255] ∨
          [first, second] = [255, 255] ∧ [first', second'] = [0, 0]) ∧
        ∃ byte ∈ front ++ back, byte ≠ 0 := by
  have length : ∀ a b : Byte, (front ++ [a, b] ++ back).length ≤ 65536 :=
    fun a b => (length_field a b).trans_le fits
  have zero : (order.word 0 0).toNat = 0 := (toNat_word_eq_zero_iff order 0 0).mpr ⟨rfl, rfl⟩
  have largest : (order.word 255 255).toNat = 65536 - 1 := by cases order <;> rfl
  have rest : wordSum order front + wordSum order back ≠ 0 ↔ ∃ byte ∈ front ++ back, byte ≠ 0 := by
    rw [← wordSum_append order even, Ne, wordSum_eq_zero_iff]
    simp
  have last : ∀ a b : Byte, inCksum order (front ++ [a, b] ++ back) = 0 ↔
      digit 65536 (wordSum order front + wordSum order back + (order.word a b).toNat) =
        65536 - 1 := by
    intro a b
    rw [← wordSum_field order even, digit_eq_last_iff (by decide)]
    exact inCksum_eq_zero_iff order (length a b)
  have same := digit_add_eq_iff (b := 65536) (s := wordSum order front + wordSum order back)
    (by decide) (order.word first second).isLt (order.word first' second').isLt
  rw [(last first second).mp accepted, eq_comm, ← last] at same
  have unset : ∀ a b : Byte, [a, b] = [0, 0] ↔ (order.word a b).toNat = 0 := by
    intro a b
    rw [← word_inj order, zero]
  have full : ∀ a b : Byte, [a, b] = [255, 255] ↔ (order.word a b).toNat = 65536 - 1 := by
    intro a b
    rw [← word_inj order, largest]
  rw [same, rest, ← word_inj order, unset, unset, full, full]

/-- Zero and the largest word are not told apart. -/
theorem damage_accepted_zero : inCksum .little ([8, 0] ++ [255, 255] ++ [247, 255]) = 0 := by
  have accepted : inCksum .little ([8, 0] ++ [0, 0] ++ [247, 255]) = 0 := by decide
  apply (damage_accepted_iff .little (by decide) (by decide) accepted).mpr
  exact Or.inr ⟨Or.inl ⟨rfl, rfl⟩, 8, by simp, by decide⟩

end Messages

end SamplePrograms.Icmp
