import Mathlib

/-!
# Exact arithmetic of doubles

A natural number below `2 ^ 53` times a power of two is a double. Sums and
products of such numbers that are of this form again are exact.

## Implementation notes

Doubles are those of Lean, which are rounded to nearest, with ties to even. The
exponents are kept away from the ends of the range, where doubles are subnormal
or infinite.
-/

namespace SamplePrograms.Doubles
open Float.Model Float.Model.UnpackedFloat

/-! ## Shifts -/

theorem log2_mul_pow {m : ℕ} (hm : 0 < m) (k : ℕ) : (m * 2 ^ k).log2 = m.log2 + k := by
  induction k with
  | zero => simp
  | succ k ih =>
      have pos : m * 2 ^ k ≠ 0 := (Nat.mul_pos hm (Nat.two_pow_pos k)).ne'
      have double : m * 2 ^ (k + 1) = 2 * (m * 2 ^ k) := by ring
      rw [double, Nat.log2_two_mul pos, ih, Nat.add_assoc]

/-- A shift to the right drops no bits of a multiple of a power of two. -/
theorem shiftRight_mul_pow (c k : ℕ) :
    (ExtendedMantissa.mk (c * 2 ^ k) false false) >>> k = .mk c false false := by
  induction k generalizing c with
  | zero => simp [HShiftRight.hShiftRight, Nat.repeat]
  | succ k ih =>
      have last : (ExtendedMantissa.mk (c * 2 ^ (k + 1)) false false) >>> (k + 1) =
          ((ExtendedMantissa.mk (c * 2 ^ (k + 1)) false false) >>> k).shiftRightOne := rfl
      have even : c * 2 ^ (k + 1) = (2 * c) * 2 ^ k := by ring
      rw [last, even, ih]
      simp [ExtendedMantissa.shiftRightOne]

/-! ## Rounding -/

/-- The mantissa has as many bits as a double has room for. -/
def IsFull (c : ℕ) : Prop := c.log2 = 52

theorem IsFull.pos {c : ℕ} (h : IsFull c) : 0 < c := by
  apply Nat.pos_of_ne_zero
  rintro rfl
  cases h

theorem targetExponent_eq {m : ℕ} {e : ℤ} (normal : -1022 ≤ m.log2 + e) :
    Format.binary64.targetExponent (totalExponent m e) = m.log2 + e - 52 := by
  simp only [Format.targetExponent, totalExponent, Format.mantissaBits, Format.minExponent]
  omega

/-- A number that is a double rounds to it, if its mantissa is long enough. -/
theorem roundWithAccuracy_mul_pow {c : ℕ} (full : IsFull c) (j : ℕ) {e : ℤ}
    (normal : -1074 ≤ e + j) :
    roundWithAccuracy .binary64 .positive (c * 2 ^ j) e .exact =
      .finite .positive c (e + j) full.pos := by
  have log : (c * 2 ^ j).log2 = 52 + j := by rw [log2_mul_pow full.pos, full]
  have target : Format.binary64.targetExponent (totalExponent (c * 2 ^ j) e) = e + j := by
    rw [targetExponent_eq (by omega), log]
    omega
  have target' : Format.binary64.targetExponent (totalExponent c (e + j)) = e + j := by
    have log' : c.log2 = 52 := full
    rw [targetExponent_eq (by omega), log']
    omega
  have first : shiftToTargetExponent .binary64 (c * 2 ^ j) e .exact =
      (.mk c false false, e + j) := by
    have amount : (e + j - e).toNat = j := by omega
    simp only [shiftToTargetExponent, shiftToExponent, target, amount,
      ExtendedMantissa.ofMantissaAndAccuracy, shiftRight_mul_pow]
  have second : shiftToTargetExponent .binary64 c (e + j) .exact =
      (.mk c false false, e + j) := by
    simp [shiftToTargetExponent, shiftToExponent, target',
      ExtendedMantissa.ofMantissaAndAccuracy, HShiftRight.hShiftRight, Nat.repeat]
  have kept : (ExtendedMantissa.mk c false false).roundedMantissa = c := rfl
  simp only [roundWithAccuracy, first, kept, second, dif_neg full.pos.ne']

/-- The zeros that fill a mantissa up. -/
def padding (m : ℕ) : ℕ := 52 - m.log2

theorem isFull_padded {m : ℕ} (hm : 0 < m) (small : m < 2 ^ 53) : IsFull (m * 2 ^ padding m) := by
  have log : m.log2 < 53 := (Nat.log2_lt hm.ne').mpr small
  rw [IsFull, log2_mul_pow hm, padding]
  omega

/-- The double `m * 2 ^ e`. -/
def dyadic (m : ℕ) (e : ℤ) : UnpackedFloat :=
  if h : 0 < m ∧ m < 2 ^ 53 then
    .finite .positive (m * 2 ^ padding m) (e - padding m) (isFull_padded h.1 h.2).pos
  else .zero .positive

theorem dyadic_pos {m : ℕ} (hm : 0 < m) (small : m < 2 ^ 53) (e : ℤ) :
    dyadic m e =
      .finite .positive (m * 2 ^ padding m) (e - padding m) (isFull_padded hm small).pos :=
  dif_pos ⟨hm, small⟩

/-- The exponents at which the doubles in question are normal. -/
def InRange (e : ℤ) : Prop := -1022 ≤ e ∧ e ≤ 900

theorem padding_mul_pow {m : ℕ} (hm : 0 < m) {k : ℕ} (small : m * 2 ^ k < 2 ^ 53) :
    padding m = padding (m * 2 ^ k) + k := by
  have log := (Nat.log2_lt (Nat.mul_pos hm (Nat.two_pow_pos k)).ne').mpr small
  rw [log2_mul_pow hm] at log
  rw [padding, padding, log2_mul_pow hm]
  omega

/-- Zeros at the end of the mantissa belong to the exponent. -/
theorem dyadic_mul_pow {m k : ℕ} (small : m * 2 ^ k < 2 ^ 53) (e : ℤ) :
    dyadic (m * 2 ^ k) e = dyadic m (e + k) := by
  rcases Nat.eq_zero_or_pos m with rfl | hm
  · simp [dyadic]
  · have small' : m < 2 ^ 53 := (Nat.le_mul_of_pos_right m (Nat.two_pow_pos k)).trans_lt small
    rw [dyadic_pos (Nat.mul_pos hm (Nat.two_pow_pos k)) small, dyadic_pos hm small']
    have pad := padding_mul_pow hm small
    congr 1
    · rw [pad, pow_add]
      ring
    · omega

theorem roundWithAccuracy_dyadic {m K : ℕ} (hm : 0 < m) (small : m < 2 ^ 53)
    (long : padding m ≤ K) {e : ℤ} (range : InRange e) :
    roundWithAccuracy .binary64 .positive (m * 2 ^ K) (e - K) .exact = dyadic m e := by
  obtain ⟨j, rfl⟩ := Nat.exists_eq_add_of_le long
  have pad : padding m ≤ 52 := Nat.sub_le _ _
  have low := range.1
  rw [dyadic_pos hm small, pow_add, ← mul_assoc,
    roundWithAccuracy_mul_pow (isFull_padded hm small) j (by omega)]
  congr 1
  omega

/-- Rounding a double gives the double. -/
theorem round_dyadic {m : ℕ} (K : ℕ) (hm : 0 < m) (small : m < 2 ^ 53) {e : ℤ}
    (range : InRange e) :
    UnpackedFloat.round .binary64 .positive (m * 2 ^ K) (e - K) = dyadic m e := by
  have log := (Nat.log2_lt hm.ne').mpr small
  have low := range.1
  have target : Format.binary64.targetExponent (totalExponent (m * 2 ^ K) (e - K)) =
      e - padding m := by
    rw [targetExponent_eq] <;> rw [log2_mul_pow hm]
    · rw [padding]
      omega
    · omega
  have decreased : decreaseExponent (m * 2 ^ K) (e - K) (e - padding m) =
      (m * 2 ^ max K (padding m), e - (max K (padding m) : ℕ)) := by
    have amount : (e - K - (e - padding m)).toNat = padding m - K := by omega
    have sum : max K (padding m) = K + (padding m - K) := by omega
    simp only [decreaseExponent, amount, Nat.shiftLeft_eq]
    rw [sum, pow_add, ← mul_assoc]
    congr 1
    omega
  simp only [UnpackedFloat.round, target, decreased]
  exact roundWithAccuracy_dyadic hm small (le_max_right _ _) range

theorem normalize_dyadic {m : ℕ} (K : ℕ) (small : m < 2 ^ 53) {e : ℤ} (range : InRange e) :
    UnpackedFloat.normalize .binary64 ((m * 2 ^ K : ℕ) : ℤ) (e - K) .positive = dyadic m e := by
  rcases Nat.eq_zero_or_pos m with rfl | hm
  · simp [UnpackedFloat.normalize, dyadic]
  · have pos : 0 < ((m * 2 ^ K : ℕ) : ℤ) :=
      Int.natCast_pos.mpr (Nat.mul_pos hm (Nat.two_pow_pos K))
    have greater : compare ((m * 2 ^ K : ℕ) : ℤ) 0 = .gt := Int.compare_eq_gt.mpr pos
    simp only [UnpackedFloat.normalize, greater, Int.toNat_natCast]
    exact round_dyadic K hm small range

theorem decreaseExponent_padded (m : ℕ) (e : ℤ) {K : ℕ} (more : padding m ≤ K) :
    decreaseExponent (m * 2 ^ padding m) (e - padding m) (e - K) = (m * 2 ^ K, e - K) := by
  have amount : (e - padding m - (e - K)).toNat = K - padding m := by omega
  have sum : K = padding m + (K - padding m) := by omega
  simp only [decreaseExponent, amount, Nat.shiftLeft_eq]
  rw [mul_assoc, ← pow_add, ← sum]
  congr 1
  omega

/-! ## The doubles -/

/-- The double holds a number. -/
def Holds (x : Float.Model) (m : ℕ) (e : ℤ) : Prop := x.unpack = dyadic m e

theorem unpackSign_packComponents (x : BitVec 11) (c : BitVec 52) :
    unpackSign (packComponents .binary64 .positive x c) = 0#1 := by
  ext i hi
  have first : i = 0 := by omega
  subst first
  have bit : (0#1 ++ x ++ c).getLsbD 63 = false := by
    rw [BitVec.getLsbD_append, BitVec.getLsbD_append]
    rfl
  simp [unpackSign, packComponents, Sign.toBitVec, bit]

/-- The implicit bit of a full mantissa is put back. -/
theorem implicit_append {c : ℕ} (full : IsFull c) : (1#1 ++ BitVec.ofNat 52 c).toNat = c := by
  obtain ⟨least, most⟩ := (Nat.log2_eq_iff full.pos.ne').mp full
  have rest : c % 2 ^ 52 < 2 ^ 52 := Nat.mod_lt c (by decide)
  rw [BitVec.toNat_append, BitVec.toNat_ofNat c, ← Nat.shiftLeft_add_eq_or_of_lt rest,
    Nat.shiftLeft_eq, BitVec.toNat_ofNat]
  omega

/-- The bits of a double hold the double. -/
theorem unpack_pack_full {c : ℕ} (full : IsFull c) {e : ℤ} (low : -1074 ≤ e) (high : e ≤ 900) :
    (Float.Model.pack (.finite .positive c e full.pos)).unpack =
      .finite .positive c e full.pos := by
  let x := BitVec.ofNat 11 (e + 1075).toNat
  have value : x.toNat = (e + 1075).toNat := by
    rw [BitVec.toNat_ofNat]
    omega
  have finite : x ≠ -1#11 := by
    intro h
    have ones : x.toNat = 2047 := congrArg BitVec.toNat h
    omega
  have normal : x ≠ 0#11 := by
    intro h
    have zeros : x.toNat = 0 := congrArg BitVec.toNat h
    omega
  have bits : UnpackedFloat.pack .binary64 (.finite .positive c e full.pos) =
      packComponents .binary64 .positive x (BitVec.ofNat 52 c) := by
    have biased : (e + Format.binary64.exponentBias + (52 : ℕ)).toNat = (e + 1075).toNat := by
      simp only [Format.exponentBias]
      omega
    have inRange : ¬ 2 ^ 11 ≤ (e + 1075).toNat + 1 := by omega
    have log : c.log2 = 52 := full
    simp only [UnpackedFloat.pack, biased, if_neg inRange, log, Format.mantissaBits]
    rfl
  have exponent := @unpackExponent_packComponents .binary64 .positive x (.ofNat 52 c)
  have mantissa := @unpackMantissa_packComponents .binary64 .positive x (.ofNat 52 c)
  have sign := unpackSign_packComponents x (BitVec.ofNat 52 c)
  have bias : (x.toNat : ℤ) - (Format.binary64.exponentBias + (52 : ℕ)) = e := by
    simp only [Format.exponentBias]
    omega
  simp only [Float.Model.unpack, Float.Model.pack, bits, UInt64.toBitVec_ofBitVec]
  unfold UnpackedFloat.unpack
  rw [if_neg (by rwa [exponent]), if_neg (by rwa [exponent])]
  simp only [exponent, mantissa, sign, implicit_append full, bias]
  rfl

theorem unpack_pack_dyadic {m : ℕ} {e : ℤ} (range : InRange e) :
    (Float.Model.pack (dyadic m e)).unpack = dyadic m e := by
  by_cases h : 0 < m ∧ m < 2 ^ 53
  · have pad : padding m ≤ 52 := Nat.sub_le _ _
    obtain ⟨low, high⟩ := range
    rw [dyadic_pos h.1 h.2]
    exact unpack_pack_full (isFull_padded h.1 h.2) (by omega) (by omega)
  · rw [dyadic, dif_neg h]
    rfl

namespace Holds
variable {x y : Float.Model} {m n : ℕ} {d e : ℤ}

theorem pack (range : InRange e) : Holds (.pack (dyadic m e)) m e := unpack_pack_dyadic range

/-- Zeros at the end of the number belong to the exponent. -/
theorem rescale (h : Holds x m e) {k : ℕ} (small : m * 2 ^ k < 2 ^ 53) {d : ℤ} (sum : d + k = e) :
    Holds x (m * 2 ^ k) d := by
  rw [Holds, dyadic_mul_pow small, sum]
  exact h

/-- A sum that is a double is exact. -/
theorem add (hx : Holds x m e) (hy : Holds y n e) (small : m + n < 2 ^ 53) (range : InRange e) :
    Holds (x + y) (m + n) e := by
  have sum : UnpackedFloat.add .binary64 (dyadic m e) (dyadic n e) = dyadic (m + n) e := by
    rcases Nat.eq_zero_or_pos m with rfl | hm
    · rw [Nat.zero_add]
      rcases Nat.eq_zero_or_pos n with rfl | hn
      · rfl
      · rw [dyadic_pos hn (by omega)]
        rfl
    rcases Nat.eq_zero_or_pos n with rfl | hn
    · rw [Nat.add_zero, dyadic_pos hm (by omega)]
      rfl
    let K := max (padding m) (padding n)
    have least : min (e - padding m) (e - padding n) = e - K := by omega
    have left := decreaseExponent_padded m e (le_max_left (padding m) (padding n))
    have right := decreaseExponent_padded n e (le_max_right (padding m) (padding n))
    have total : Sign.positive.apply ((m * 2 ^ K : ℕ) : ℤ) +
        Sign.positive.apply ((n * 2 ^ K : ℕ) : ℤ) = (((m + n) * 2 ^ K : ℕ) : ℤ) := by
      simp only [Sign.apply]
      push_cast
      ring
    rw [dyadic_pos hm (by omega), dyadic_pos hn (by omega)]
    simp only [UnpackedFloat.add, least, left, right, total, K]
    exact normalize_dyadic _ small range
  show (Float.Model.pack (UnpackedFloat.add .binary64 x.unpack y.unpack)).unpack = _
  rw [hx, hy, sum]
  exact unpack_pack_dyadic range

/-- A product that is a double is exact. -/
theorem mul (hx : Holds x m d) (hy : Holds y n e) (hm : m < 2 ^ 53) (hn : n < 2 ^ 53)
    (small : m * n < 2 ^ 53) (range : InRange (d + e)) : Holds (x * y) (m * n) (d + e) := by
  have product :
      UnpackedFloat.mul .binary64 (dyadic m d) (dyadic n e) = dyadic (m * n) (d + e) := by
    rcases Nat.eq_zero_or_pos m with rfl | posm
    · rw [Nat.zero_mul]
      rcases Nat.eq_zero_or_pos n with rfl | posn
      · rfl
      · rw [dyadic_pos posn hn]
        rfl
    rcases Nat.eq_zero_or_pos n with rfl | posn
    · rw [Nat.mul_zero, dyadic_pos posm hm]
      rfl
    have mantissas : m * 2 ^ padding m * (n * 2 ^ padding n) =
        m * n * 2 ^ (padding m + padding n) := by ring
    have exponents : d - padding m + (e - padding n) =
        d + e - (padding m + padding n : ℕ) := by omega
    rw [dyadic_pos posm hm, dyadic_pos posn hn]
    simp only [UnpackedFloat.mul]
    rw [mantissas, exponents]
    have long : padding (m * n) ≤ padding m + padding n := by
      have bits : m.log2 + n.log2 ≤ (m * n).log2 := by
        rw [Nat.le_log2 (Nat.mul_pos posm posn).ne', pow_add]
        exact Nat.mul_le_mul (Nat.log2_self_le posm.ne') (Nat.log2_self_le posn.ne')
      simp only [padding]
      omega
    exact roundWithAccuracy_dyadic (Nat.mul_pos posm posn) small long range
  show (Float.Model.pack (UnpackedFloat.mul .binary64 x.unpack y.unpack)).unpack = _
  rw [hx, hy, product]
  exact unpack_pack_dyadic range

/-- The comparison of doubles is that of the numbers. -/
theorem beq (hx : Holds x m e) (hy : Holds y n e) (hm : m < 2 ^ 53) (hn : n < 2 ^ 53) :
    (x == y) = decide (m = n) := by
  have comparison : UnpackedFloat.beq (dyadic m e) (dyadic n e) = decide (m = n) := by
    rcases Nat.eq_zero_or_pos m with rfl | posm
    · rcases Nat.eq_zero_or_pos n with rfl | posn
      · rfl
      · rw [dyadic_pos posn hn, decide_eq_false posn.ne]
        rfl
    rcases Nat.eq_zero_or_pos n with rfl | posn
    · rw [dyadic_pos posm hm, decide_eq_false posm.ne']
      rfl
    have same : (e - padding m = e - padding n ∧ m * 2 ^ padding m = n * 2 ^ padding n) ↔
        m = n := by
      constructor
      · rintro ⟨exponents, mantissas⟩
        have pad : padding m = padding n := by omega
        rw [pad] at mantissas
        exact Nat.eq_of_mul_eq_mul_right (Nat.two_pow_pos _) mantissas
      · rintro rfl
        exact ⟨rfl, rfl⟩
    rw [dyadic_pos posm hm, dyadic_pos posn hn, Bool.eq_iff_iff, decide_eq_true_iff, ← same]
    simp [UnpackedFloat.beq, UnpackedFloat.compare, Ordering.then_eq_eq]
  show UnpackedFloat.beq x.unpack y.unpack = _
  rw [hx, hy, comparison]

/-- The truncation of a natural number is the number. -/
theorem toInt_eq {k : ℕ} (hx : Holds x m k) (hm : m < 2 ^ 53) (least most : ℤ) :
    x.unpack.toInt least most = (m * 2 ^ k : ℕ) := by
  rw [hx]
  rcases Nat.eq_zero_or_pos m with rfl | pos
  · simp [dyadic, UnpackedFloat.toInt]
  have decreased : decreaseExponent (m * 2 ^ padding m) (k - padding m) 0 =
      (m * 2 ^ k * 2 ^ (padding m - k), -((padding m - k : ℕ) : ℤ)) := by
    have amount : ((k : ℤ) - padding m - 0).toNat = k - padding m := by omega
    have sum : padding m + (k - padding m) = k + (padding m - k) := by omega
    simp only [decreaseExponent, amount, Nat.shiftLeft_eq]
    rw [mul_assoc, ← pow_add, sum, pow_add, ← mul_assoc]
    congr 1
    omega
  have shift : (0 - -((padding m - k : ℕ) : ℤ)).toNat = padding m - k := by omega
  rw [dyadic_pos pos hm]
  simp only [UnpackedFloat.toInt, roundToInt, decreased, shiftToExponent, shift,
    ExtendedMantissa.ofMantissaAndAccuracy, shiftRight_mul_pow, Sign.apply]

end Holds

theorem holds_ofInt {m : ℕ} (small : m < 2 ^ 53) : Holds (.ofInt m) m 0 := by
  have range : InRange 0 := ⟨by decide, by decide⟩
  have rounded : UnpackedFloat.ofInt .binary64 m = dyadic m 0 := by
    simpa [UnpackedFloat.ofInt] using normalize_dyadic 0 small range
  rw [Float.Model.ofInt, rounded]
  exact .pack range

end SamplePrograms.Doubles
