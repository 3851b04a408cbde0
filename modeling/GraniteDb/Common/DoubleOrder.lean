/- Conversion of an integer to a double never reverses the order of two integers. -/

import GraniteDb.Common.Double

set_option linter.dupNamespace false

namespace GraniteDb.Common.Double

open Nat (log2 div_add_mod mul_le_mul_right)

namespace Double

section Rounding

theorem roundDiv_mono {num num' den : Nat} (less : num ≤ num') :
    roundDiv num den ≤ roundDiv num' den := by
  have quotients : num / den ≤ num' / den := Nat.div_le_div_right less
  have parts := div_add_mod num den
  have parts' := div_add_mod num' den
  rw [roundDiv, roundDiv]
  obtain below | same := Nat.lt_or_eq_of_le quotients
  · split_ifs <;> omega
  · rw [← same] at parts' ⊢
    have remainders : num % den ≤ num' % den := by omega
    split_ifs with first second
    · exact Nat.le_refl _
    · omega
    · exact Nat.le_succ _
    · exact Nat.le_refl _

theorem roundDiv_bounds {num den low high : Nat} (pos : 0 < den) (atLeast : low * den ≤ num)
    (under : num < high * den) : low ≤ roundDiv num den ∧ roundDiv num den ≤ high := by
  have below : low ≤ num / den := (Nat.le_div_iff_mul_le pos).mpr atLeast
  have above : num / den < high := (Nat.div_lt_iff_lt_mul pos).mpr under
  rw [roundDiv]
  split_ifs <;> omega

theorem floorLog2_one (n : Nat) (pos : 0 < n) : floorLog2 n 1 = log2 n := by
  have low : 2 ^ log2 n ≤ n := Nat.log2_self_le (by omega)
  have one : log2 1 = 0 := by decide
  simp [floorLog2, one, low]

variable {n : Nat}

theorem roundShifted_mono {n' : Nat} (shift : Int) (less : n ≤ n') :
    roundShifted n 1 shift ≤ roundShifted n' 1 shift := by
  rw [roundShifted, roundShifted]
  split_ifs
  · exact roundDiv_mono (mul_le_mul_right _ less)
  · exact roundDiv_mono less

theorem roundShifted_bounds (pos : 0 < n) :
    2 ^ 52 ≤ roundShifted n 1 (52 - log2 n) ∧ roundShifted n 1 (52 - log2 n) ≤ 2 ^ 53 := by
  have low : 2 ^ log2 n ≤ n := Nat.log2_self_le (by omega)
  have high : n < 2 ^ (log2 n + 1) := Nat.lt_log2_self
  rw [roundShifted]
  split_ifs with left
  · have shift : ((52 : Int) - log2 n).toNat = 52 - log2 n := by omega
    rw [shift]
    refine roundDiv_bounds Nat.one_pos ?_ ?_
    · calc 2 ^ 52 * 1 = 2 ^ log2 n * 2 ^ (52 - log2 n) := by
            rw [Nat.mul_one, ← pow_add]
            congr 1
            omega
        _ ≤ n * 2 ^ (52 - log2 n) := mul_le_mul_right _ low
    · calc n * 2 ^ (52 - log2 n) < 2 ^ (log2 n + 1) * 2 ^ (52 - log2 n) :=
            Nat.mul_lt_mul_of_pos_right high (by positivity)
        _ = 2 ^ 53 * 1 := by
            rw [Nat.mul_one, ← pow_add]
            congr 1
            omega
  · have shift : (-((52 : Int) - log2 n)).toNat = log2 n - 52 := by omega
    rw [shift, Nat.one_mul]
    refine roundDiv_bounds (by positivity) ?_ ?_
    · calc 2 ^ 52 * 2 ^ (log2 n - 52) = 2 ^ log2 n := by
            rw [← pow_add]
            congr 1
            omega
        _ ≤ n := low
    · calc n < 2 ^ (log2 n + 1) := high
        _ = 2 ^ 53 * 2 ^ (log2 n - 52) := by
            rw [← pow_add]
            congr 1
            omega

theorem roundBits_eq (pos : 0 < n) (small : n < 2 ^ 64) :
    roundBits n 1 = (log2 n + 1022) * 2 ^ 52 + roundShifted n 1 (52 - log2 n) := by
  have logSmall : log2 n < 64 := (Nat.log2_lt (by omega)).mpr small
  have bounds := roundShifted_bounds pos
  have unclamped : max (log2 n : Int) (-1022) = log2 n := by omega
  have biased : ((log2 n : Int) + 1022).toNat = log2 n + 1022 := by omega
  rw [roundBits, if_neg (by omega), floorLog2_one n pos]
  simp only [unclamped, biased]
  omega

theorem roundBits_mono {n' : Nat} (less : n ≤ n') (small : n' < 2 ^ 64) :
    roundBits n 1 ≤ roundBits n' 1 := by
  obtain rfl | pos := Nat.eq_zero_or_pos n
  · rw [roundBits, if_pos rfl]
    exact Nat.zero_le _
  · have logs : log2 n ≤ log2 n' := (Nat.le_log2 (by omega)).mpr
      (Nat.le_trans (Nat.log2_self_le (by omega)) less)
    rw [roundBits_eq pos (by omega), roundBits_eq (by omega) small]
    obtain below | same := Nat.lt_or_eq_of_le logs
    · have bounds := roundShifted_bounds pos
      have bounds' := roundShifted_bounds (Nat.lt_of_lt_of_le pos less)
      omega
    · rw [same]
      have inside := roundShifted_mono (52 - (log2 n' : Int)) less
      omega

theorem roundBits_lt (small : n < 2 ^ 64) : roundBits n 1 < 2 ^ 63 := by
  obtain rfl | pos := Nat.eq_zero_or_pos n
  · rw [roundBits, if_pos rfl]
    omega
  · have logSmall : log2 n < 64 := (Nat.log2_lt (by omega)).mpr small
    have bounds := roundShifted_bounds pos
    rw [roundBits_eq pos small]
    omega

end Rounding

/-- The magnitude of the double with these bits, whose sign bit is not set. -/
def magnitudeOf (bits : Nat) : Nat :=
  if bits / 2 ^ 52 = 0 then bits % 2 ^ 52
  else (2 ^ 52 + bits % 2 ^ 52) * 2 ^ (bits / 2 ^ 52 - 1)

theorem magnitudeOf_mono {b b' : Nat} (less : b ≤ b') : magnitudeOf b ≤ magnitudeOf b' := by
  have quotients : b / 2 ^ 52 ≤ b' / 2 ^ 52 := Nat.div_le_div_right less
  have parts := div_add_mod b (2 ^ 52)
  have parts' := div_add_mod b' (2 ^ 52)
  have low : b % 2 ^ 52 < 2 ^ 52 := Nat.mod_lt _ (by omega)
  rw [magnitudeOf, magnitudeOf]
  obtain below | same := Nat.lt_or_eq_of_le quotients
  · rw [if_neg (by omega : ¬ b' / 2 ^ 52 = 0)]
    have unit : 1 ≤ 2 ^ (b' / 2 ^ 52 - 1) := Nat.one_le_two_pow
    split_ifs with zero
    · calc b % 2 ^ 52 ≤ (2 ^ 52 + b' % 2 ^ 52) * 1 := by omega
        _ ≤ _ := Nat.mul_le_mul_left _ unit
    · calc (2 ^ 52 + b % 2 ^ 52) * 2 ^ (b / 2 ^ 52 - 1) ≤ 2 ^ 52 * 2 * 2 ^ (b / 2 ^ 52 - 1) :=
            mul_le_mul_right _ (by omega)
        _ = 2 ^ 52 * 2 ^ (b / 2 ^ 52) := by
            rw [Nat.mul_assoc, ← Nat.pow_succ']
            congr 2
            omega
        _ ≤ 2 ^ 52 * 2 ^ (b' / 2 ^ 52 - 1) :=
            Nat.mul_le_mul_left _ (Nat.pow_le_pow_right (by omega) (by omega))
        _ ≤ _ := mul_le_mul_right _ (Nat.le_add_right _ _)
  · rw [← same] at parts' ⊢
    have fractions : b % 2 ^ 52 ≤ b' % 2 ^ 52 := by omega
    split_ifs
    · exact fractions
    · exact mul_le_mul_right _ (by omega)

theorem scaled_eq {n : Int} (small : n.natAbs < 2 ^ 64) : (ofInt n).scaled =
    if n < 0 then -(magnitudeOf (roundBits n.natAbs 1) : Int)
    else magnitudeOf (roundBits n.natAbs 1) := by
  have bound := roundBits_lt small
  have bits : (ofInt n).bits.toNat =
      (decide (n < 0)).toNat * 2 ^ 63 + roundBits n.natAbs 1 := by
    rw [ofInt, ofRatio, BitVec.toNat_ofNat]
    cases decide (n < 0) <;> simp only [Bool.toNat_false, Bool.toNat_true] <;> omega
  generalize roundBits n.natAbs 1 = b at bound bits
  have sign : (ofInt n).negative = decide (n < 0) := by
    rw [negative, BitVec.msb_eq_decide, bits]
    cases decide (n < 0) <;> simp only [Bool.toNat_false, Bool.toNat_true] <;> simp
    omega
  have exponent : (ofInt n).exponentField = b / 2 ^ 52 := by
    rw [exponentField, bits]
    cases decide (n < 0) <;> simp only [Bool.toNat_false, Bool.toNat_true] <;> omega
  have rest : (ofInt n).fraction = b % 2 ^ 52 := by
    rw [fraction, bits]
    cases decide (n < 0) <;> simp only [Bool.toNat_false, Bool.toNat_true] <;> omega
  rw [scaled, sign, magnitude, exponent, rest, magnitudeOf]
  simp only [decide_eq_true_eq]

theorem scaled_ofInt_mono {m n : Int} (less : m ≤ n) (smallM : m.natAbs < 2 ^ 64)
    (smallN : n.natAbs < 2 ^ 64) : (ofInt m).scaled ≤ (ofInt n).scaled := by
  rw [scaled_eq smallM, scaled_eq smallN]
  split_ifs with below below'
  · have sizes := magnitudeOf_mono (roundBits_mono (show n.natAbs ≤ m.natAbs by omega) smallM)
    omega
  · omega
  · omega
  · have sizes := magnitudeOf_mono (roundBits_mono (show m.natAbs ≤ n.natAbs by omega) smallN)
    omega

end Double

end GraniteDb.Common.Double
