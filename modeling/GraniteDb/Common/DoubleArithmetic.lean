/- Arithmetic on doubles, and the integer that a converted integer becomes. -/

import GraniteDb.Common.DoubleOrder

set_option linter.dupNamespace false

namespace GraniteDb.Common.Double

open Nat (log2)

namespace Double

def nan : Double := ⟨BitVec.ofNat 64 (4095 * 2 ^ 51)⟩

def neg (x : Double) : Double := ⟨x.bits ^^^ BitVec.ofNat 64 (2 ^ 63)⟩

def sub (x y : Double) : Double := if y.isNaN then y else x.add y.neg

def signed (negative : Bool) (magnitudeBits : Nat) : Double :=
  ⟨BitVec.ofNat 64 (negative.toNat * 2 ^ 63 + magnitudeBits)⟩

def infinity (negative : Bool) : Double := signed negative (2047 * 2 ^ 52)

def mul (x y : Double) : Double :=
  let sign := x.negative != y.negative
  if x.isNaN then x
  else if y.isNaN then y
  else if x.isInf || y.isInf then
    if x.magnitude = 0 || y.magnitude = 0 then nan else infinity sign
  else ofRatio sign (x.magnitude * y.magnitude) (2 ^ 2148)

def div (x y : Double) : Double :=
  let sign := x.negative != y.negative
  if x.isNaN then x
  else if y.isNaN then y
  else if x.isInf then if y.isInf then nan else infinity sign
  else if y.isInf then signed sign 0
  else if y.magnitude = 0 then if x.magnitude = 0 then nan else infinity sign
  else ofRatio sign x.magnitude y.magnitude

def FitsInt64 (n : Int) : Prop := -2 ^ 63 ≤ n ∧ n < 2 ^ 63

instance (n : Int) : Decidable (FitsInt64 n) := by
  unfold FitsInt64
  infer_instance

/-- `static_cast<int64_t>`: the integer part, and no defined value where it is out of range. An
infinity and what is no number have a magnitude out of range. -/
def toInt64 (d : Double) : Option Int :=
  let n := d.scaled.tdiv (2 ^ 1074)
  if FitsInt64 n then some n else none

/-- A natural number with all but its first 53 binary digits rounded away. -/
def nearestNat (n : Nat) : Nat := roundDiv n (2 ^ (log2 n - 52)) * 2 ^ (log2 n - 52)

def nearest (n : Int) : Int := if n < 0 then -(nearestNat n.natAbs : Int) else nearestNat n.natAbs

theorem roundDiv_one (n : Nat) : roundDiv n 1 = n := by
  rw [roundDiv, Nat.div_one, Nat.mod_one]
  simp

theorem magnitudeOf_significand {r : Nat} (k : Nat) (low : 2 ^ 52 ≤ r) (high : r ≤ 2 ^ 53) :
    magnitudeOf (k * 2 ^ 52 + r) = r * 2 ^ k := by
  rw [magnitudeOf]
  obtain less | ends := Nat.lt_or_eq_of_le high
  · have field : (k * 2 ^ 52 + r) / 2 ^ 52 = k + 1 := by omega
    have rest : (k * 2 ^ 52 + r) % 2 ^ 52 = r - 2 ^ 52 := by omega
    rw [field, rest, if_neg (by omega), Nat.add_sub_cancel, Nat.add_sub_cancel' low]
  · have field : (k * 2 ^ 52 + r) / 2 ^ 52 = k + 2 := by omega
    have rest : (k * 2 ^ 52 + r) % 2 ^ 52 = 0 := by omega
    have next : k + 2 - 1 = k + 1 := by omega
    have double : 2 ^ 52 * 2 ^ (k + 1) = 2 ^ 53 * 2 ^ k := by
      rw [← pow_add, ← pow_add]
      congr 1
      omega
    rw [field, rest, if_neg (by omega), next, ends, Nat.add_zero, double]

theorem magnitudeOf_roundBits {n : Nat} (small : n < 2 ^ 64) :
    magnitudeOf (roundBits n 1) = nearestNat n * 2 ^ 1074 := by
  obtain rfl | pos := Nat.eq_zero_or_pos n
  · have zero : nearestNat 0 = 0 := by decide
    rw [zero, Nat.zero_mul]
    decide
  · obtain ⟨low, high⟩ := roundShifted_bounds pos
    rw [roundBits_eq pos small, magnitudeOf_significand _ low high, roundShifted, nearestNat]
    by_cases left : log2 n ≤ 52
    · have shift : ((52 : Int) - log2 n).toNat = 52 - log2 n := by omega
      have none : log2 n - 52 = 0 := by omega
      have total : 52 - log2 n + (log2 n + 1022) = 1074 := by omega
      rw [if_pos (by omega), shift, none, pow_zero, roundDiv_one, roundDiv_one, Nat.mul_assoc,
        ← pow_add, total, Nat.mul_one]
    · have shift : (-((52 : Int) - log2 n)).toNat = log2 n - 52 := by omega
      have total : log2 n - 52 + 1074 = log2 n + 1022 := by omega
      rw [if_neg (by omega), shift, Nat.one_mul, Nat.mul_assoc, ← pow_add, total]

theorem scaled_nearest {n : Int} (small : n.natAbs < 2 ^ 64) :
    (ofInt n).scaled = nearest n * 2 ^ 1074 := by
  rw [scaled_eq small, magnitudeOf_roundBits small, nearest, Int.natCast_mul, Int.natCast_pow]
  split
  · exact (Int.neg_mul _ _).symm
  · rfl

theorem toInt64_ofInt {n : Int} (small : n.natAbs < 2 ^ 64) :
    (ofInt n).toInt64 = if FitsInt64 (nearest n) then some (nearest n) else none := by
  have whole : (nearest n * 2 ^ 1074).tdiv (2 ^ 1074) = nearest n :=
    Int.mul_tdiv_cancel _ (by positivity)
  rw [toInt64, scaled_nearest small, whole]

end Double

end GraniteDb.Common.Double
