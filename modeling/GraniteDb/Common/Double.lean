/- IEEE binary64 numbers as bit patterns, with rounding, comparison and printing. -/

import Mathlib.Algebra.Order.Ring.Int
import Mathlib.Data.Nat.Digits.Defs
import Mathlib.Tactic.Positivity.Basic

set_option linter.dupNamespace false

namespace GraniteDb.Common.Double

open Nat (log2)

structure Double where
  bits : BitVec 64
  deriving DecidableEq

namespace Double

def negative (d : Double) : Bool := d.bits.msb

def exponentField (d : Double) : Nat := d.bits.toNat / 2 ^ 52 % 2 ^ 11

def fraction (d : Double) : Nat := d.bits.toNat % 2 ^ 52

def isNaN (d : Double) : Bool := d.exponentField == 2047 && d.fraction != 0

def isInf (d : Double) : Bool := d.exponentField == 2047 && d.fraction == 0

/-- The magnitude times `2 ^ 1074`, an integer for every finite number. For an infinity the
same formula gives an integer above that of every finite number. -/
def magnitude (d : Double) : Nat :=
  if d.exponentField = 0 then d.fraction
  else (2 ^ 52 + d.fraction) * 2 ^ (d.exponentField - 1)

/-- The value times `2 ^ 1074`. -/
def scaled (d : Double) : Int := if d.negative then -d.magnitude else d.magnitude

/-- `x < y` of the language: false when an operand is not a number. -/
def lt (x y : Double) : Bool := !x.isNaN && !y.isNaN && x.scaled < y.scaled

/-- The binary exponent of `num / den`, for positive arguments. -/
def floorLog2 (num den : Nat) : Int :=
  let guess : Int := (log2 num : Int) - log2 den
  let enough : Bool :=
    if 0 ≤ guess then den * 2 ^ guess.toNat ≤ num else den ≤ num * 2 ^ (-guess).toNat
  if enough then guess else guess - 1

def roundDiv (num den : Nat) : Nat :=
  let q := num / den
  let r := num % den
  if den < 2 * r ∨ (2 * r = den ∧ q % 2 = 1) then q + 1 else q

/-- `num / den * 2 ^ shift`, rounded to the nearest integer. -/
def roundShifted (num den : Nat) (shift : Int) : Nat :=
  if 0 ≤ shift then roundDiv (num * 2 ^ shift.toNat) den
  else roundDiv num (den * 2 ^ (-shift).toNat)

/-- The bits of the double nearest to `num / den`, an infinity when it is out of range. -/
def roundBits (num den : Nat) : Nat :=
  if num = 0 then 0
  else
    let e := max (floorLog2 num den) (-1022)
    let bits := (e + 1022).toNat * 2 ^ 52 + roundShifted num den (52 - e)
    min bits (2047 * 2 ^ 52)

/-- The double nearest to `± num / den`. -/
def ofRatio (negative : Bool) (num den : Nat) : Double :=
  ⟨BitVec.ofNat 64 (negative.toNat * 2 ^ 63 + roundBits num den)⟩

/-- `static_cast<double>` of an integer. -/
def ofInt (n : Int) : Double := ofRatio (n < 0) n.natAbs 1

/-- `x + y`; the infinities and zeros as IEEE 754 has them. -/
def add (x y : Double) : Double :=
  if x.isNaN then x
  else if y.isNaN then y
  else if x.isInf && y.isInf && x.negative != y.negative then ⟨BitVec.ofNat 64 (4095 * 2 ^ 51)⟩
  else if x.isInf then x
  else if y.isInf then y
  else if x.scaled + y.scaled = 0 then
    if x.negative && y.negative then x else ⟨0⟩
  else ofRatio (x.scaled + y.scaled < 0) (x.scaled + y.scaled).natAbs (2 ^ 1074)

def decimal (n : Nat) : List UInt8 :=
  if n = 0 then [48] else (Nat.digits 10 n).reverse.map fun d => UInt8.ofNat (48 + d)

def decimalInt (n : Int) : List UInt8 := if n < 0 then 45 :: decimal n.natAbs else decimal n.natAbs

/-- The largest `x` with `10 ^ x ≤ num / den`, searched downwards from `high`. -/
def floorLog10 (num den : Nat) : Nat → Int → Int
  | 0, high => high
  | fuel + 1, high =>
    let fits : Bool :=
      if 0 ≤ high then den * 10 ^ high.toNat ≤ num else den ≤ num * 10 ^ (-high).toNat
    if fits then high else floorLog10 num den fuel (high - 1)

/-- `num / den` in units of `10 ^ unit`, rounded. -/
def roundUnits (num den : Nat) (unit : Int) : Nat :=
  if 0 ≤ unit then roundDiv num (den * 10 ^ unit.toNat)
  else roundDiv (num * 10 ^ (-unit).toNat) den

def stripZeros (digits : List UInt8) : List UInt8 :=
  (digits.reverse.dropWhile (· == 48)).reverse

def withPoint (digits : List UInt8) (whole : Nat) : List UInt8 :=
  let tail := stripZeros (digits.drop whole)
  if tail = [] then digits.take whole else digits.take whole ++ 46 :: tail

def exponentDigits (n : Nat) : List UInt8 := if n < 10 then 48 :: decimal n else decimal n

/-- A positive finite number with the stream's default precision of six digits. -/
def printPositive (num den : Nat) : List UInt8 :=
  let low := floorLog10 num den 700 310
  let rounded := roundUnits num den (low - 5)
  let x := if rounded = 10 ^ 6 then low + 1 else low
  let digits := decimal (if rounded = 10 ^ 6 then 10 ^ 5 else rounded)
  if x < -4 ∨ 6 ≤ x then
    withPoint digits 1 ++ 101 :: (if x < 0 then 45 else 43) :: exponentDigits x.natAbs
  else if 0 ≤ x then withPoint digits (x.toNat + 1)
  else 48 :: 46 :: (List.replicate ((-x).toNat - 1) 48 ++ stripZeros digits)

/-- `out << d`. -/
def print (d : Double) : List UInt8 :=
  let sign : List UInt8 := if d.negative then [45] else []
  if d.isNaN then sign ++ [110, 97, 110]
  else if d.isInf then sign ++ [105, 110, 102]
  else if d.magnitude = 0 then sign ++ [48]
  else sign ++ printPositive d.magnitude (2 ^ 1074)

section Exact

private theorem significand_bounds {n : Nat} (pos : 0 < n) (small : n < 2 ^ 53) :
    log2 n < 53 ∧ 2 ^ 52 ≤ n * 2 ^ (52 - log2 n) ∧ n * 2 ^ (52 - log2 n) < 2 ^ 53 := by
  have low : 2 ^ log2 n ≤ n := Nat.log2_self_le (by omega)
  have high : n < 2 ^ (log2 n + 1) := Nat.lt_log2_self
  have logSmall : log2 n < 53 := (Nat.log2_lt (by omega)).mpr small
  refine ⟨logSmall, ?_, ?_⟩
  · calc 2 ^ 52 = 2 ^ log2 n * 2 ^ (52 - log2 n) := by rw [← pow_add]; congr 1; omega
      _ ≤ n * 2 ^ (52 - log2 n) := Nat.mul_le_mul_right _ low
  · calc n * 2 ^ (52 - log2 n) < 2 ^ (log2 n + 1) * 2 ^ (52 - log2 n) :=
          Nat.mul_lt_mul_of_pos_right high (by positivity)
      _ = 2 ^ 53 := by rw [← pow_add]; congr 1; omega

private theorem roundBits_one {n : Nat} (pos : 0 < n) (small : n < 2 ^ 53) :
    roundBits n 1 = (log2 n + 1022) * 2 ^ 52 + n * 2 ^ (52 - log2 n) := by
  obtain ⟨logSmall, _, under⟩ := significand_bounds pos small
  have low : 2 ^ log2 n ≤ n := Nat.log2_self_le (by omega)
  have exponent : floorLog2 n 1 = log2 n := by
    have one : log2 1 = 0 := by decide
    simp [floorLog2, one, low]
  have rounded : roundShifted n 1 (52 - log2 n) = n * 2 ^ (52 - log2 n) := by
    have shift : ((52 : Int) - log2 n).toNat = 52 - log2 n := by omega
    rw [roundShifted, if_pos (by omega), shift]
    simp [roundDiv, Nat.mod_one]
  have unclamped : max (log2 n : Int) (-1022) = log2 n := by omega
  have biased : ((log2 n : Int) + 1022).toNat = log2 n + 1022 := by omega
  unfold roundBits
  rw [if_neg (by omega), exponent]
  simp only [unclamped, rounded, biased]
  omega

variable {n : Int}

private theorem ofInt_fields (pos : 0 < n.natAbs) (small : n.natAbs < 2 ^ 53) :
    (ofInt n).negative = decide (n < 0) ∧ (ofInt n).exponentField = log2 n.natAbs + 1023 ∧
      2 ^ 52 + (ofInt n).fraction = n.natAbs * 2 ^ (52 - log2 n.natAbs) := by
  obtain ⟨logSmall, atLeast, under⟩ := significand_bounds pos small
  have rounded := roundBits_one pos small
  generalize n.natAbs * 2 ^ (52 - log2 n.natAbs) = digits at atLeast under rounded ⊢
  have bits : (ofInt n).bits.toNat = (decide (n < 0)).toNat * 2 ^ 63 +
      ((log2 n.natAbs + 1022) * 2 ^ 52 + digits) := by
    rw [ofInt, ofRatio, BitVec.toNat_ofNat, rounded]
    cases decide (n < 0) <;> simp only [Bool.toNat_false, Bool.toNat_true] <;> omega
  refine ⟨?_, ?_, ?_⟩
  · rw [negative, BitVec.msb_eq_decide, bits]
    cases decide (n < 0) <;> simp only [Bool.toNat_false, Bool.toNat_true] <;> simp
    omega
  · rw [exponentField, bits]
    cases decide (n < 0) <;> simp only [Bool.toNat_false, Bool.toNat_true] <;> omega
  · rw [fraction, bits]
    cases decide (n < 0) <;> simp only [Bool.toNat_false, Bool.toNat_true] <;> omega

theorem scaled_ofInt (small : n.natAbs < 2 ^ 53) : (ofInt n).scaled = n * 2 ^ 1074 := by
  rcases Nat.eq_zero_or_pos n.natAbs with zero | pos
  · have isZero : n = 0 := by omega
    subst isZero
    decide +kernel
  obtain ⟨sign, exponent, significand⟩ := ofInt_fields pos small
  have logSmall := (significand_bounds pos small).1
  have exponents : 52 - log2 n.natAbs + (log2 n.natAbs + 1023 - 1) = 1074 := by omega
  have size : (ofInt n).magnitude = n.natAbs * 2 ^ 1074 := by
    rw [magnitude, exponent, if_neg (by omega), significand, Nat.mul_assoc, ← pow_add, exponents]
  have asInt : ((n.natAbs * 2 ^ 1074 : Nat) : Int) = n.natAbs * 2 ^ 1074 := by
    rw [Nat.cast_mul, Nat.cast_pow]
    rfl
  rw [scaled, sign, size, asInt]
  by_cases below : n < 0
  · have value : -(n.natAbs : Int) = n := by omega
    rw [if_pos (decide_eq_true below), ← Int.neg_mul, value]
  · have value : (n.natAbs : Int) = n := by omega
    rw [if_neg (by simpa using below), value]

private theorem isNaN_ofInt (small : n.natAbs < 2 ^ 53) : (ofInt n).isNaN = false := by
  rcases Nat.eq_zero_or_pos n.natAbs with zero | pos
  · have isZero : n = 0 := by omega
    subst isZero
    decide +kernel
  have exponent := (ofInt_fields pos small).2.1
  have logSmall := (significand_bounds pos small).1
  have finite : (ofInt n).exponentField ≠ 2047 := by omega
  simp [isNaN, finite]

theorem lt_ofInt {a b : Int} (smallA : a.natAbs < 2 ^ 53) (smallB : b.natAbs < 2 ^ 53) :
    (ofInt a).lt (ofInt b) = decide (a < b) := by
  have scale : (0 : Int) < 2 ^ 1074 := Int.pow_pos (by decide)
  rw [lt, isNaN_ofInt smallA, isNaN_ofInt smallB, scaled_ofInt smallA, scaled_ofInt smallB]
  generalize (2 : Int) ^ 1074 = factor at scale
  simp [Int.mul_lt_mul_right scale]

end Exact

end Double

end GraniteDb.Common.Double
