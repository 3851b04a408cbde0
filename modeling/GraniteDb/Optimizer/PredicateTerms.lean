/- What a column-op-constant predicate evaluates to on a row. -/

import GraniteDb.Optimizer.BaseAccess

namespace GraniteDb.Optimizer.PredicateTerms

open Common.Value Execution.Expressions Execution.Operators Lib.Pull Optimizer.PhysicalPath

def termHolds (p : QueryPredicateSpec) (row : Row) : Bool :=
  match row[p.columnIdx]? with
  | none => false
  | some v => ((compareValues v p.constant).map p.cmp.holds).getD false

def Evaluates (p : QueryPredicateSpec) (row : Row) : Prop :=
  ∃ v, row[p.columnIdx]? = some v ∧ p.constant.isNull = false ∧
    (v.isNull = true ∨ (compareValues v p.constant).isSome = true)

theorem compareValues_isSome {a b : Value} (left : a.isNull = false) (right : b.isNull = false)
    (types : a.typeId = b.typeId) : (compareValues a b).isSome = true := by
  cases a with
  | null _ => cases left
  | _ =>
    cases b <;> first
      | (cases right; done)
      | (cases types; done)
      | rfl

variable {row : Row} {predicates : List QueryPredicateSpec}

theorem evaluateRow_term {p : QueryPredicateSpec} (evaluates : Evaluates p row) :
    (predicateExpr p p.columnIdx).evaluateRow row = some (.boolean (termHolds p row)) := by
  obtain ⟨v, read, literal, defined⟩ := evaluates
  simp only [predicateExpr, Expression.evaluateRow, Expression.evaluate, Option.bind_eq_bind,
    Option.bind_some, read, termHolds, evaluateComparison]
  cases isNull : v.isNull with
  | true => simp [compareValues, isNull]
  | false =>
    rcases defined with absent | compared
    · rw [isNull] at absent
      cases absent
    · obtain ⟨o, isOrder⟩ := Option.isSome_iff_exists.mp compared
      simp [isOrder, literal]

theorem evaluateRow_conjunction {a b : Expression} {x y : Bool}
    (left : a.evaluateRow row = some (.boolean x)) (right : b.evaluateRow row = some (.boolean y)) :
    (Expression.conjunction a b).evaluateRow row = some (.boolean (x && y)) := by
  rw [Expression.evaluateRow] at left right
  rw [Expression.evaluateRow, Expression.evaluate, left]
  cases x with
  | false => rfl
  | true =>
    simp only [Option.bind_eq_bind, Option.bind_some, valueAsBool, if_true, right]
    rfl

theorem evaluateRow_foldl (evaluates : ∀ p ∈ predicates, Evaluates p row) {first : Expression}
    {x : Bool} (isFirst : first.evaluateRow row = some (.boolean x)) :
    ((predicates.map fun p => predicateExpr p p.columnIdx).foldl Expression.conjunction
      first).evaluateRow row =
        some (.boolean (x && predicates.all fun p => termHolds p row)) := by
  induction predicates generalizing first x with
  | nil => rw [List.all_nil, Bool.and_true]; exact isFirst
  | cons p rest ih =>
    have here := evaluateRow_term (evaluates p List.mem_cons_self)
    have later := ih (fun q member => evaluates q (List.mem_cons_of_mem _ member))
      (evaluateRow_conjunction isFirst here)
    rw [List.all_cons, ← Bool.and_assoc]
    exact later

theorem withFilter_ofList {rows : List Row}
    (evaluates : ∀ row ∈ rows, ∀ p ∈ predicates, Evaluates p row) :
    withFilter (.ofList rows) (buildSingleTuplePredicateExpr predicates) =
      .ofList (rows.filter fun row => predicates.all fun p => termHolds p row) := by
  cases predicates with
  | nil => exact congrArg Pull.ofList (List.filter_eq_self.mpr fun _ _ => rfl).symm
  | cons p rest =>
    refine Pull.filter_ofList fun row member => ?_
    have value := evaluateRow_foldl
      (fun q inRest => evaluates row member q (List.mem_cons_of_mem _ inRest))
      (evaluateRow_term (evaluates row member p List.mem_cons_self))
    rw [condition, value, List.all_cons]
    rfl

end GraniteDb.Optimizer.PredicateTerms
