/- Comparison of values and evaluation of expression trees over one or two rows. -/

import GraniteDb.Common.Value

namespace GraniteDb.Execution.Expressions

open Common.Double Common.Value

inductive TupleSide
  | left
  | right
  | single
  deriving DecidableEq

def valueToDouble : Value → Option Double
  | .int32 n => some (.ofInt n.toInt)
  | .int64 n => some (.ofInt n.toInt)
  | .double d => some d
  | _ => none

/-- `std::fabs(d) > 1e-12`, the constant being the double nearest to it. -/
def exceedsEpsilon (d : Double) : Bool :=
  !d.isNaN && (Double.ofRatio false 1 (10 ^ 12)).magnitude < d.magnitude

def valueAsBool : Value → Bool
  | .null _ => false
  | .boolean b => b
  | .int32 n => n != 0
  | .int64 n => n != 0
  | .double d => exceedsEpsilon d
  | .varchar s => s != []

/-- The order of two doubles as `CompareValues` reports it: what is neither less nor
greater is equal, also when an operand is not a number. -/
def compareDoubles (x y : Double) : Ordering :=
  if x.lt y then .lt else if y.lt x then .gt else .eq

@[simp] theorem compareDoubles_self (x : Double) : compareDoubles x x = .eq := by
  simp [compareDoubles, Double.lt]

def compareBytes (x y : List UInt8) : Ordering :=
  if x < y then .lt else if y < x then .gt else .eq

def compareBools (x y : Bool) : Ordering :=
  if x < y then .lt else if y < x then .gt else .eq

/-- `CompareValues`; `none` is an exception. -/
def compareValues (a b : Value) : Option Ordering :=
  if a.isNull || b.isNull then none
  else
    match valueToDouble a, valueToDouble b with
    | some x, some y => some (compareDoubles x y)
    | _, _ =>
      match a, b with
      | .boolean x, .boolean y => some (compareBools x y)
      | .varchar x, .varchar y => some (compareBytes x y)
      | _, _ => none

/-- The types whose values the comparison tells apart, up to the integers of 64 bits. -/
def comparesExactly : TypeId → Bool
  | .boolean | .int32 | .int64 | .varchar => true
  | _ => false

theorem eq_of_compareBytes {x y : List UInt8} (same : compareBytes x y = .eq) : x = y := by
  unfold compareBytes at same
  split at same
  · cases same
  · rename_i notLess
    split at same
    · cases same
    · rename_i notGreater
      exact List.le_antisymm notGreater notLess

private theorem eq_of_compareBools {x y : Bool} (same : compareBools x y = .eq) : x = y := by
  revert same
  cases x <;> cases y <;> decide

private theorem eq_of_compareDoubles_int32 {x y : BitVec 32}
    (same : compareDoubles (.ofInt x.toInt) (.ofInt y.toInt) = .eq) : x = y := by
  have small (z : BitVec 32) : z.toInt.natAbs < 2 ^ 53 := by
    have lower := @BitVec.le_toInt 32 z
    have upper := @BitVec.toInt_lt 32 z
    omega
  unfold compareDoubles at same
  rw [Double.lt_ofInt (small x) (small y), Double.lt_ofInt (small y) (small x)] at same
  split at same
  · cases same
  · rename_i notLess
    split at same
    · cases same
    · rename_i notGreater
      simp only [decide_eq_true_eq] at notLess notGreater
      exact BitVec.eq_of_toInt_eq (by omega)

theorem eq_of_compareValues {l r : Value} (same : compareValues l r = some .eq)
    (type : l.typeId = r.typeId) (exactly : comparesExactly r.typeId = true) :
    l = r ∨ ∃ a b, l = .int64 a ∧ r = .int64 b ∧ a ≠ b := by
  cases l <;> cases r <;> simp_all [Value.typeId, comparesExactly, compareValues, valueToDouble,
    Value.isNull]
  · exact eq_of_compareBools same
  · exact eq_of_compareDoubles_int32 same
  · exact em _
  · exact eq_of_compareBytes same

/-- The number `SerializeValueForHash` prints for a type. -/
def typeCode : TypeId → Nat
  | .invalid => 0
  | .boolean => 1
  | .int32 => 2
  | .int64 => 3
  | .double => 4
  | .varchar => 5

/-- The text after the `#` of `SerializeValueForHash`. -/
def serializePayload : Value → List UInt8
  | .null _ => [78, 85, 76, 76]
  | .boolean b => [if b then 49 else 48]
  | .int32 n => Double.decimalInt n.toInt
  | .int64 n => Double.decimalInt n.toInt
  | .double d => d.print
  | .varchar s => s

def serializeValueForHash (v : Value) : List UInt8 :=
  Double.decimal (typeCode v.typeId) ++ 35 :: serializePayload v

inductive ComparisonType
  | eq
  | neq
  | lt
  | lte
  | gt
  | gte
  deriving DecidableEq

def ComparisonType.holds : ComparisonType → Ordering → Bool
  | .eq, o => o == .eq
  | .neq, o => o != .eq
  | .lt, o => o == .lt
  | .lte, o => o != .gt
  | .gt, o => o == .gt
  | .gte, o => o != .lt

/-- `AbstractExpression`, for the node types a query's conditions are built from. -/
inductive Expression
  | constant (value : Value)
  | column (side : TupleSide) (columnIdx : Nat)
  | comparison (type : ComparisonType) (left right : Expression)
  | conjunction (left right : Expression)
  | disjunction (left right : Expression)
  deriving DecidableEq

/-- The comparison of `ComparisonExpression::Evaluate` on evaluated operands. -/
def evaluateComparison (type : ComparisonType) (l r : Value) : Option Value :=
  if l.isNull || r.isNull then some (.boolean false)
  else (compareValues l r).map fun o => .boolean (type.holds o)

/-- `Evaluate`; a missing tuple is a null pointer, and `none` is an exception. -/
def Expression.evaluate (left right : Option Row) : Expression → Option Value
  | .constant v => some v
  | .column .right i => right.bind fun row => row[i]?
  | .column _ i => left.bind fun row => row[i]?
  | .comparison type a b => do
    let l ← a.evaluate left right
    let r ← b.evaluate left right
    evaluateComparison type l r
  | .conjunction a b => do
    let l ← a.evaluate left right
    if valueAsBool l then
      let r ← b.evaluate left right
      some (.boolean (valueAsBool r))
    else some (.boolean false)
  | .disjunction a b => do
    let l ← a.evaluate left right
    if valueAsBool l then some (.boolean true)
    else
      let r ← b.evaluate left right
      some (.boolean (valueAsBool r))

/-- Evaluation over a single row, as the scans and filters call it. -/
def Expression.evaluateRow (e : Expression) (row : Row) : Option Value :=
  e.evaluate (some row) none

/-- The row makes the expression true: it evaluates, and its value counts as true. -/
def Expression.Accepts (e : Expression) (row : Row) : Prop :=
  ∃ v, e.evaluateRow row = some v ∧ valueAsBool v = true

end GraniteDb.Execution.Expressions
