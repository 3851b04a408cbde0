/- Comparison of values is comparison of ranks in a linear order. -/

import GraniteDb.Execution.Expressions
import Mathlib.Data.List.Lex
import Mathlib.Data.Prod.Lex
import Mathlib.Order.WithBot
import Mathlib.Data.Int.ConditionallyCompleteOrder

namespace GraniteDb.Execution.ValueOrder

open Common.Double Common.Value Execution.Expressions

/-- NULL comes first; numbers and truth values by a number, strings by their bytes. -/
abbrev Rank := WithBot (Int ×ₗ List Nat)

def number (n : Int) : Rank := some (toLex (n, []))

def seenRank : Value → Rank
  | .null _ => ⊥
  | .boolean b => number b.toNat
  | .int32 n => number (Double.ofInt n.toInt).scaled
  | .int64 n => number (Double.ofInt n.toInt).scaled
  | .double d => number d.scaled
  | .varchar s => some (toLex (0, s.map UInt8.toNat))

def isNaN : Value → Bool
  | .double d => d.isNaN
  | _ => false

theorem roundBits_le (num den : Nat) : Double.roundBits num den ≤ 2047 * 2 ^ 52 := by
  unfold Double.roundBits
  split
  · exact Nat.zero_le _
  · exact Nat.min_le_right _ _

theorem isNaN_ofInt (n : Int) : (Double.ofInt n).isNaN = false := by
  have bound := roundBits_le n.natAbs 1
  have bits : (Double.ofInt n).bits.toNat =
      (decide (n < 0)).toNat * 2 ^ 63 + Double.roundBits n.natAbs 1 := by
    rw [Double.ofInt, Double.ofRatio, BitVec.toNat_ofNat]
    cases decide (n < 0) <;> simp only [Bool.toNat_false, Bool.toNat_true] <;> omega
  have exponent : (Double.ofInt n).exponentField = Double.roundBits n.natAbs 1 / 2 ^ 52 := by
    rw [Double.exponentField, bits]
    cases decide (n < 0) <;> simp only [Bool.toNat_false, Bool.toNat_true] <;> omega
  have fraction : (Double.ofInt n).fraction = Double.roundBits n.natAbs 1 % 2 ^ 52 := by
    rw [Double.fraction, bits]
    cases decide (n < 0) <;> simp only [Bool.toNat_false, Bool.toNat_true] <;> omega
  rw [Double.isNaN, exponent, fraction]
  simp only [Bool.and_eq_false_iff, beq_eq_false_iff_ne, bne_eq_false_iff_eq]
  omega

theorem compare_number (m n : Int) : compare (number m) (number n) = compare m n := by
  rcases lt_trichotomy m n with less | rfl | greater
  · rw [compare_lt_iff_lt.mpr less, compare_lt_iff_lt]
    exact WithBot.coe_lt_coe.mpr (Prod.Lex.toLex_lt_toLex.mpr (.inl less))
  · exact (compare_eq_iff_eq.mpr rfl).trans (compare_eq_iff_eq.mpr rfl).symm
  · rw [compare_gt_iff_gt.mpr greater, compare_gt_iff_gt]
    exact WithBot.coe_lt_coe.mpr (Prod.Lex.toLex_lt_toLex.mpr (.inl greater))

theorem compareDoubles_eq {x y : Double} (left : x.isNaN = false) (right : y.isNaN = false) :
    compareDoubles x y = compare (number x.scaled) (number y.scaled) := by
  rw [compare_number]
  unfold compareDoubles Double.lt
  simp only [left, right, Bool.not_false, Bool.true_and, decide_eq_true_eq]
  split
  · rename_i less
    exact (compare_lt_iff_lt.mpr less).symm
  · split
    · rename_i greater
      exact (compare_gt_iff_gt.mpr greater).symm
    · exact (compare_eq_iff_eq.mpr (by omega)).symm

theorem bytes_lt_iff {x y : List UInt8} : x < y ↔ x.map UInt8.toNat < y.map UInt8.toNat := by
  induction x generalizing y with
  | nil => cases y <;> simp
  | cons a x ih =>
    cases y with
    | nil => simp
    | cons b y =>
      simp only [List.map_cons, List.cons_lt_cons_iff, ih, UInt8.lt_iff_toNat_lt,
        UInt8.toNat_inj]

theorem compareBytes_eq (x y : List UInt8) :
    compareBytes x y = compare (seenRank (.varchar x)) (seenRank (.varchar y)) := by
  have ranked {a b : List UInt8} : seenRank (.varchar a) < seenRank (.varchar b) ↔ a < b := by
    rw [bytes_lt_iff]
    show ((_ : Int ×ₗ List Nat) : Rank) < (_ : Int ×ₗ List Nat) ↔ _
    rw [WithBot.coe_lt_coe, Prod.Lex.toLex_lt_toLex]
    simp
  unfold compareBytes
  split
  · rename_i less
    exact (compare_lt_iff_lt.mpr (ranked.mpr less)).symm
  · rename_i notLess
    split
    · rename_i greater
      exact (compare_gt_iff_gt.mpr (ranked.mpr greater)).symm
    · rename_i notGreater
      refine (compare_eq_iff_eq.mpr (le_antisymm ?_ ?_)).symm
      · exact not_lt.mp fun greater => notGreater (ranked.mp greater)
      · exact not_lt.mp fun less => notLess (ranked.mp less)

theorem compareBools_eq (x y : Bool) :
    compareBools x y = compare (seenRank (.boolean x)) (seenRank (.boolean y)) := by
  rw [seenRank, seenRank, compare_number]
  cases x <;> cases y <;> decide

theorem seenRank_of_valueToDouble {v : Value} {x : Double} (isNumber : valueToDouble v = some x)
    (ordered : isNaN v = false) : seenRank v = number x.scaled ∧ x.isNaN = false := by
  cases v with
  | int32 n | int64 n =>
    cases isNumber
    exact ⟨rfl, isNaN_ofInt _⟩
  | double d =>
    cases isNumber
    exact ⟨rfl, ordered⟩
  | null _ | boolean _ | varchar _ => cases isNumber

def kind : Value → Nat
  | .null _ => 0
  | .boolean _ => 1
  | .varchar _ => 2
  | _ => 3

theorem compareValues_iff {a b : Value} {o : Ordering} (left : isNaN a = false)
    (right : isNaN b = false) : compareValues a b = some o ↔
      kind a ≠ 0 ∧ kind a = kind b ∧ o = compare (seenRank a) (seenRank b) := by
  have numbers {x y : Double} (isX : valueToDouble a = some x) (isY : valueToDouble b = some y) :
      compareDoubles x y = compare (seenRank a) (seenRank b) := by
    obtain ⟨rankA, numberA⟩ := seenRank_of_valueToDouble isX left
    obtain ⟨rankB, numberB⟩ := seenRank_of_valueToDouble isY right
    rw [rankA, rankB]
    exact compareDoubles_eq numberA numberB
  cases a with
  | null _ => simp [compareValues, Value.isNull, kind]
  | boolean x =>
    cases b with
    | boolean y =>
      simp only [compareValues, Value.isNull, valueToDouble, kind, ← compareBools_eq]
      simp [eq_comm]
    | _ => simp [compareValues, Value.isNull, valueToDouble, kind]
  | varchar x =>
    cases b with
    | varchar y =>
      simp only [compareValues, Value.isNull, valueToDouble, kind, ← compareBytes_eq]
      simp [eq_comm]
    | _ => simp [compareValues, Value.isNull, valueToDouble, kind]
  | int32 _ | int64 _ | double _ =>
    cases b with
    | int32 _ | int64 _ | double _ =>
      rw [← numbers rfl rfl]
      simp [compareValues, Value.isNull, valueToDouble, kind, eq_comm]
    | _ => simp [compareValues, Value.isNull, valueToDouble, kind]

theorem kind_ne_zero {v : Value} (present : v.isNull = false) : kind v ≠ 0 := by
  cases v with
  | null _ => cases present
  | _ => exact Nat.succ_ne_zero _

theorem compareValues_ranks {a b : Value} (present : a.isNull = false) (left : isNaN a = false)
    (right : isNaN b = false) (kinds : kind a = kind b) :
    compareValues a b = some (compare (seenRank a) (seenRank b)) :=
  (compareValues_iff left right).mpr ⟨kind_ne_zero present, kinds, rfl⟩

end GraniteDb.Execution.ValueOrder
