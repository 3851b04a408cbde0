/- Which values share the text that hashing operators use for them. -/

import GraniteDb.Execution.ValueOrder

namespace GraniteDb.Execution.ValueText

open Common.Double Common.Value Execution.Expressions Execution.ValueOrder

theorem mem_decimal {n : Nat} {c : UInt8} (member : c ∈ Double.decimal n) :
    48 ≤ c.toNat ∧ c.toNat ≤ 57 := by
  unfold Double.decimal at member
  split at member
  · rw [List.mem_singleton.mp member]
    decide
  · obtain ⟨d, isDigit, rfl⟩ := List.mem_map.mp member
    have less := Nat.digits_lt_base (by omega) (List.mem_reverse.mp isDigit)
    rw [UInt8.toNat_ofNat']
    omega

theorem decimal_ne_nil (n : Nat) : Double.decimal n ≠ [] := by
  unfold Double.decimal
  split
  · simp
  · rename_i pos
    simpa [Nat.digits_eq_nil_iff_eq_zero] using pos

theorem decimal_injective {m n : Nat} (same : Double.decimal m = Double.decimal n) : m = n := by
  have value (k : Nat) :
      Nat.ofDigits 10 ((Double.decimal k).reverse.map fun c => c.toNat - 48) = k := by
    unfold Double.decimal
    split
    · rename_i zero
      rw [zero]
      rfl
    · rw [← List.map_reverse, List.reverse_reverse, List.map_map]
      have digit : ∀ d ∈ Nat.digits 10 k, ((fun c : UInt8 => c.toNat - 48) ∘
          fun d => UInt8.ofNat (48 + d)) d = d := by
        intro d member
        have less := Nat.digits_lt_base (by omega) member
        simp only [Function.comp_apply, UInt8.toNat_ofNat']
        omega
      rw [List.map_congr_left digit, List.map_id', Nat.ofDigits_digits]
  have both := value m
  rw [same, value n] at both
  exact both.symm

theorem decimalInt_injective {m n : Int} (same : Double.decimalInt m = Double.decimalInt n) :
    m = n := by
  have sign {k : Nat} {l : List UInt8} (eq : Double.decimal k = 45 :: l) : False := by
    have char := mem_decimal (n := k) (c := 45) (by rw [eq]; exact List.mem_cons_self)
    have value : (45 : UInt8).toNat = 45 := rfl
    omega
  unfold Double.decimalInt at same
  by_cases left : m < 0
  · by_cases right : n < 0
    · rw [if_pos left, if_pos right, List.cons.injEq] at same
      have abs := decimal_injective same.2
      omega
    · rw [if_pos left, if_neg right] at same
      exact (sign same.symm).elim
  · by_cases right : n < 0
    · rw [if_neg left, if_pos right] at same
      exact (sign same).elim
    · rw [if_neg left, if_neg right] at same
      have abs := decimal_injective same
      omega

theorem head_decimalInt (n : Int) : ∃ c l, Double.decimalInt n = c :: l ∧ c.toNat ≤ 57 := by
  unfold Double.decimalInt
  split
  · exact ⟨45, _, rfl, by decide⟩
  · cases digits : Double.decimal n.natAbs with
    | nil => exact absurd digits (decimal_ne_nil _)
    | cons c l =>
      exact ⟨c, l, rfl, (mem_decimal (by rw [digits]; exact List.mem_cons_self)).2⟩

theorem serialize_eq_iff {v w : Value} : serializeValueForHash v = serializeValueForHash w ↔
    v.typeId = w.typeId ∧ serializePayload v = serializePayload w := by
  have code (t : TypeId) : ∃ c, Double.decimal (typeCode t) = [c] ∧ c.toNat = 48 + typeCode t := by
    cases t <;> exact ⟨_, rfl, rfl⟩
  unfold serializeValueForHash
  obtain ⟨c, left, value⟩ := code v.typeId
  obtain ⟨d, right, value'⟩ := code w.typeId
  rw [left, right]
  constructor
  · intro same
    simp only [List.cons_append, List.nil_append, List.cons.injEq, true_and] at same
    refine ⟨?_, same.2⟩
    have codes : typeCode v.typeId = typeCode w.typeId := by
      have chars := congrArg UInt8.toNat same.1
      omega
    revert codes
    cases v.typeId <;> cases w.typeId <;> simp [typeCode]
  · intro same
    have chars : c = d := by
      apply UInt8.toNat_inj.mp
      rw [value, value', same.1]
    rw [chars, same.2]

def nullText : List UInt8 := [78, 85, 76, 76]

theorem decimalInt_ne_null (n : Int) : Double.decimalInt n ≠ nullText := by
  obtain ⟨c, l, eq, small⟩ := head_decimalInt n
  rw [eq]
  intro same
  have first := (List.cons.inj same).1
  rw [first] at small
  revert small
  decide

theorem boolText_ne_null (b : Bool) : serializePayload (.boolean b) ≠ nullText := by
  cases b <;> decide

def isInteger : TypeId → Bool
  | .int32 | .int64 => true
  | _ => false

def integer : Value → Option Int
  | .int32 n => some n.toInt
  | .int64 n => some n.toInt
  | _ => none

def Exact : Value → Prop
  | .int64 n => n.toInt.natAbs ≤ 2 ^ 53
  | .double _ => False
  | _ => True

instance (v : Value) : Decidable (Exact v) := by
  cases v <;> unfold Exact <;> infer_instance

theorem scaled_ofInt {n : Int} (small : n.natAbs ≤ 2 ^ 53) :
    (Double.ofInt n).scaled = n * 2 ^ 1074 := by
  by_cases less : n.natAbs < 2 ^ 53
  · exact Double.scaled_ofInt less
  · have ends : n = 2 ^ 53 ∨ n = -2 ^ 53 := by omega
    rcases ends with rfl | rfl
    · decide +kernel
    · decide +kernel

theorem rank_integer {v : Value} {n : Int} (isInteger : integer v = some n) (exactly : Exact v) :
    seenRank v = number (n * 2 ^ 1074) := by
  cases v with
  | int32 m =>
    cases isInteger
    have lower := @BitVec.le_toInt 32 m
    have upper := @BitVec.toInt_lt 32 m
    rw [seenRank, scaled_ofInt (by omega)]
  | int64 m =>
    cases isInteger
    rw [seenRank, scaled_ofInt exactly]
  | _ => cases isInteger

end GraniteDb.Execution.ValueText
