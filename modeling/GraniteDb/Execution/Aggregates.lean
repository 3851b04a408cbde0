/- The transitions of COUNT, SUM, MIN and MAX, and the rows built from them. -/

import GraniteDb.Sql.SelectAst

namespace GraniteDb.Execution.Aggregates

open Common.Double Common.Value Execution.Expressions
open Sql.SelectAst (AggregateType)
open Option (bind_some bind_eq_bind)

/-- `Evaluate` of an expression over one row, whatever its class is; `none` is an exception. -/
abbrev Evaluation := Row → Option Value

/-- An entry of `agg_types_` with the one of `agg_exprs_`: the constructors refuse lists of
different lengths. `COUNT(*)` has no expression. -/
structure AggregateCall where
  type : AggregateType
  expr : Option Evaluation

def isNumericType : TypeId → Bool
  | .int32 | .int64 | .double => true
  | _ => false

def valueToInt64 : Value → Option (BitVec 64)
  | .int32 n => some (n.signExtend 64)
  | .int64 n => some n
  | _ => none

/-- `AggTransition`. The counters are added to in 64 bits. -/
structure AggTransition where
  type : AggregateType
  outputType : TypeId
  initialized : Bool
  count : BitVec 64
  sumInt : BitVec 64
  sumDouble : Double
  extreme : Value
  deriving DecidableEq

def makeInitialTransitions (calls : List AggregateCall) (valueTypes : List TypeId) :
    List AggTransition :=
  List.zipWith (fun call type => ⟨call.type, type, false, 0, 0, ⟨0⟩, .null type⟩) calls valueTypes

/-- `MIN` and `MAX`: a first value, and then one that compares as it should. -/
def applyExtreme (wanted : Ordering) (agg : AggTransition) (v : Value) : Option AggTransition :=
  if !agg.initialized then some { agg with initialized := true, extreme := v }
  else (compareValues v agg.extreme).map fun o =>
    if o = wanted then { agg with initialized := true, extreme := v } else agg

/-- `SUM`, on a value that is not NULL. -/
def applySum (agg : AggTransition) (v : Value) : Option AggTransition :=
  if !isNumericType v.typeId then none
  else if agg.outputType = .double ∨ v.typeId = .double then
    (valueToDouble v).map fun d =>
      { agg with initialized := true, sumDouble := agg.sumDouble.add d }
  else
    (valueToInt64 v).map fun n => { agg with initialized := true, sumInt := agg.sumInt + n }

def applyCount (agg : AggTransition) : AggTransition :=
  { agg with initialized := true, count := agg.count + 1 }

def applyValue (type : AggregateType) (agg : AggTransition) (v : Value) : Option AggTransition :=
  match type with
  | .count => some (applyCount agg)
  | .sum => applySum agg v
  | .min => applyExtreme .lt agg v
  | .max => applyExtreme .gt agg v

/-- A turn of the loop of `ApplyAggregateRow`; a missing expression is a null pointer. -/
def applyAggregate (row : Row) (call : AggregateCall) (agg : AggTransition) :
    Option AggTransition :=
  match call.expr with
  | none => if call.type = .count then some (applyCount agg) else none
  | some expr => do
    let v ← expr row
    if v.isNull then some agg else applyValue call.type agg v

def applyAggregateRow (calls : List AggregateCall) (row : Row) (aggs : List AggTransition) :
    Option (List AggTransition) :=
  (calls.zip aggs).mapM fun c => applyAggregate row c.1 c.2

/-- The value `BuildAggregateOutputTuple` shows for an aggregate. -/
def outputValue (agg : AggTransition) (valueType : TypeId) : Value :=
  if !agg.initialized then
    match agg.type with
    | .count => .int64 0
    | _ => .null valueType
  else
    match agg.type with
    | .count => .int64 agg.count
    | .sum => if agg.outputType = .double then .double agg.sumDouble else .int64 agg.sumInt
    | .min | .max => agg.extreme

def buildAggregateOutputTuple (groupVals : List Value) (aggs : List AggTransition)
    (valueTypes : List TypeId) : Row :=
  groupVals ++ List.zipWith outputValue aggs valueTypes

section Folds

def valuesOf (expr : Evaluation) (rows : List Row) : List Value :=
  rows.filterMap fun row => (expr row).filter fun v => !v.isNull

variable {call : AggregateCall} {expr : Evaluation} {rows : List Row}

theorem foldlM_applyAggregate (has : call.expr = some expr)
    (evaluates : ∀ row ∈ rows, expr row ≠ none) (agg : AggTransition) :
    rows.foldlM (fun agg row => applyAggregate row call agg) agg =
      (valuesOf expr rows).foldlM (applyValue call.type) agg := by
  induction rows generalizing agg with
  | nil => rfl
  | cons row rows ih =>
    have later := ih fun other member => evaluates other (List.mem_cons_of_mem _ member)
    cases value : expr row with
    | none => exact (evaluates row List.mem_cons_self value).elim
    | some v =>
      rw [List.foldlM_cons, applyAggregate, has]
      simp only [value, bind_eq_bind, bind_some, valuesOf, List.filterMap_cons]
      cases present : v.isNull with
      | true =>
        simp only [if_true, bind_some, Option.filter, present, Bool.not_true,
          Bool.false_eq_true, if_false]
        exact later agg
      | false =>
        simp only [Bool.false_eq_true, if_false, Option.filter, present, Bool.not_false,
          if_true, List.foldlM_cons, bind_eq_bind]
        exact Option.bind_congr fun next _ => later next

theorem foldlM_countRows (star : call.expr = none) (count : call.type = .count)
    (agg : AggTransition) : rows.foldlM (fun agg row => applyAggregate row call agg) agg =
      some { agg with
        initialized := agg.initialized || !rows.isEmpty
        count := agg.count + BitVec.ofNat 64 rows.length } := by
  induction rows generalizing agg with
  | nil => simp
  | cons row rows ih =>
    rw [List.foldlM_cons, applyAggregate, star]
    simp only [count, if_true, bind_eq_bind, bind_some, ih, applyCount,
      Bool.true_or, List.isEmpty_cons, Bool.not_false, Bool.or_true, List.length_cons,
      Option.some.injEq, AggTransition.mk.injEq, true_and, and_true]
    rw [BitVec.add_assoc, Nat.add_comm, BitVec.ofNat_add]
    rfl

theorem foldlM_row_cons {calls : List AggregateCall} {agg : AggTransition}
    {aggs finals : List AggTransition} :
    rows.foldlM (fun aggs row => applyAggregateRow (call :: calls) row aggs) (agg :: aggs) =
        some finals ↔
      ∃ final later, finals = final :: later ∧
        rows.foldlM (fun agg row => applyAggregate row call agg) agg = some final ∧
        rows.foldlM (fun aggs row => applyAggregateRow calls row aggs) aggs = some later := by
  induction rows generalizing agg aggs with
  | nil =>
    simp only [List.foldlM_nil, Option.pure_def, Option.some.injEq]
    constructor
    · intro same
      exact ⟨agg, aggs, same.symm, rfl, rfl⟩
    · intro parts
      obtain ⟨final, later, rfl, rfl, rfl⟩ := parts
      rfl
  | cons row rows ih =>
    have split : applyAggregateRow (call :: calls) row (agg :: aggs) =
        (applyAggregate row call agg).bind fun next =>
          (applyAggregateRow calls row aggs).map fun nexts => next :: nexts := by
      rw [applyAggregateRow, List.zip_cons_cons, List.mapM_cons, ← applyAggregateRow]
      cases applyAggregate row call agg with
      | none => rfl
      | some next => cases applyAggregateRow calls row aggs <;> rfl
    rw [List.foldlM_cons, List.foldlM_cons, List.foldlM_cons, split]
    cases applyAggregate row call agg with
    | none => simp
    | some next =>
      cases applyAggregateRow calls row aggs with
      | none => simp
      | some nexts =>
        simp only [bind_eq_bind, bind_some, Option.map_some]
        exact ih

end Folds

end GraniteDb.Execution.Aggregates
