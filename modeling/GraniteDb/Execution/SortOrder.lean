/- Comparing rows by sort keys on columns is a total preorder on the rows of a schema. -/

import GraniteDb.Execution.Operators
import GraniteDb.Execution.TupleFile
import GraniteDb.Execution.ValueOrder
import GraniteDb.Lib.RunMerging

namespace GraniteDb.Execution.SortOrder

open Common.Value Execution.Expressions Execution.Operators Execution.TupleFile Execution.ValueOrder
open Lib.RunMerging
open Access.HeapFile (Column validateValue_type)

/-- `SortExecutor::CompareTuples` and `TopNExecutor::CompareTuples`. -/
def compareTuples (keys : List SortKeySpec) (a b : Row) : Option Ordering :=
  compareTupleBySortKeys a b keys

def OnColumns (schema : List Column) (keys : List SortKeySpec) : Prop :=
  ∀ spec ∈ keys, ∃ i, spec.expr = .column .single i ∧ i < schema.length

def keyValue (row : Row) (spec : SortKeySpec) : Value :=
  (spec.expr.evaluateRow row).getD (.null .invalid)

def sortKeyValues (keys : List SortKeySpec) (row : Row) : List Value := keys.map (keyValue row)

def keyRank (spec : SortKeySpec) (row : Row) : Rank := seenRank (keyValue row spec)

def rankOrder : List SortKeySpec → Row → Row → Ordering
  | [] => fun _ _ => .eq
  | spec :: rest =>
    compareLex (if spec.ascending then compareOn (keyRank spec)
      else fun a b => compareOn (keyRank spec) b a) (rankOrder rest)

theorem compareOn_keyRank (spec : SortKeySpec) : Std.TransCmp (compareOn (keyRank spec)) where
  eq_swap {a b} := by
    rw [compareOn, compareOn]
    rcases lt_trichotomy (keyRank spec a) (keyRank spec b) with less | same | greater
    · rw [compare_lt_iff_lt.mpr less, compare_gt_iff_gt.mpr less]
      rfl
    · rw [compare_eq_iff_eq.mpr same, compare_eq_iff_eq.mpr same.symm]
      rfl
    · rw [compare_gt_iff_gt.mpr greater, compare_lt_iff_lt.mpr greater]
      rfl
  isLE_trans {a b c} first second := by
    rw [compareOn, Ordering.isLE_iff_ne_gt, compare_gt_iff_gt, not_lt] at first second ⊢
    exact first.trans second

instance transCmp_rankOrder (keys : List SortKeySpec) : Std.TransCmp (rankOrder keys) := by
  induction keys with
  | nil => exact { eq_swap := rfl, isLE_trans := fun _ _ => rfl }
  | cons spec rest ih =>
    have ranks := compareOn_keyRank spec
    rw [rankOrder]
    split
    · infer_instance
    · infer_instance

section Compared

variable {schema : List Column} {keys : List SortKeySpec}

theorem compareValuesWithNulls_eq {col : Column} {a b : Value} (exact_ : col.type ≠ .double)
    (left : Access.HeapFile.validateValue col a = none)
    (right : Access.HeapFile.validateValue col b = none) :
    compareValuesWithNulls a b = some (compare (seenRank a) (seenRank b)) := by
  cases nullA : a.isNull with
  | true =>
    obtain ⟨type, rfl⟩ : ∃ type, a = .null type := by
      cases a <;> first | exact ⟨_, rfl⟩ | cases nullA
    cases nullB : b.isNull with
    | true =>
      obtain ⟨type', rfl⟩ : ∃ type, b = .null type := by
        cases b <;> first | exact ⟨_, rfl⟩ | cases nullB
      have same : compare (seenRank (.null type)) (seenRank (.null type')) = .eq :=
        compare_eq_iff_eq.mpr rfl
      rw [same]
      rfl
    | false =>
      have below : compare (seenRank (.null type)) (seenRank b) = .lt := by
        rw [compare_lt_iff_lt]
        cases b <;> first | exact WithBot.bot_lt_coe _ | cases nullB
      rw [below]
      simp [compareValuesWithNulls, nullA, nullB]
  | false =>
    cases nullB : b.isNull with
    | true =>
      obtain ⟨type', rfl⟩ : ∃ type, b = .null type := by
        cases b <;> first | exact ⟨_, rfl⟩ | cases nullB
      have above : compare (seenRank a) (seenRank (.null type')) = .gt := by
        rw [compare_gt_iff_gt]
        cases a <;> first | exact WithBot.bot_lt_coe _ | cases nullA
      rw [above]
      simp [compareValuesWithNulls, nullA, nullB]
    | false =>
      have typeA := validateValue_type left nullA
      have typeB := validateValue_type right nullB
      have numberA : isNaN a = false := by
        cases a <;> first | rfl | exact absurd typeA.symm exact_
      have numberB : isNaN b = false := by
        cases b <;> first | rfl | exact absurd typeB.symm exact_
      have kinds : kind a = kind b := by
        rw [← typeB] at typeA
        cases a <;> cases b <;>
          first | rfl | (cases nullA; done) | (cases nullB; done) | cases typeA
      rw [← compareValues_ranks nullA numberA numberB kinds]
      simp [compareValuesWithNulls, nullA, nullB]

theorem keyValue_column {row : Row} {i : Nat} {ascending : Bool} :
    keyValue row ⟨.column .single i, ascending⟩ = columnValue i row := rfl

section

variable (onColumns : OnColumns schema keys)

include onColumns

theorem compareTuples_eq
    (noDouble : ∀ col ∈ schema, col.type ≠ .double) {a b : Row} (validA : Valid schema a)
    (validB : Valid schema b) : compareTuples keys a b = some (rankOrder keys a b) := by
  rw [compareTuples]
  induction keys with
  | nil => rfl
  | cons spec rest ih =>
    have later := ih fun spec member => onColumns spec (List.mem_cons_of_mem _ member)
    obtain ⟨i, isColumn, inside⟩ := onColumns spec List.mem_cons_self
    obtain ⟨expr, ascending⟩ := spec
    have isColumn : expr = .column .single i := isColumn
    subst isColumn
    have column : schema[i]? = some schema[i] := List.getElem?_eq_getElem inside
    obtain ⟨valueA, fitsA⟩ := columnValue_eq column validA
    obtain ⟨valueB, fitsB⟩ := columnValue_eq column validB
    have here := compareValuesWithNulls_eq (noDouble _ (List.getElem_mem inside)) fitsA fitsB
    have evaluatedA : (Expression.column .single i).evaluateRow a = some (columnValue i a) := valueA
    have evaluatedB : (Expression.column .single i).evaluateRow b = some (columnValue i b) := valueB
    have same : compareOn (keyRank ⟨.column .single i, ascending⟩) a b =
        compare (seenRank (columnValue i a)) (seenRank (columnValue i b)) := rfl
    have swapped := (compareOn_keyRank ⟨.column .single i, ascending⟩).eq_swap (a := b) (b := a)
    simp only [compareTupleBySortKeys, evaluatedA, evaluatedB, here, Option.bind_eq_bind,
      Option.bind_some, rankOrder, compareLex, ← same]
    cases ascending with
    | true =>
      cases order : compareOn (keyRank ⟨.column .single i, true⟩) a b with
      | eq => simpa [order] using later
      | lt => simp [order]
      | gt => simp [order]
    | false =>
      simp only [Bool.false_eq_true, if_false, swapped]
      cases order : compareOn (keyRank ⟨.column .single i, false⟩) a b with
      | eq => simpa using later
      | lt => simp
      | gt => simp

theorem compareTuples_compared
    (noDouble : ∀ col ∈ schema, col.type ≠ .double) :
    Compared (compareTuples keys) (Valid schema) where
  defined validA validB := by
    rw [compareTuples_eq onColumns noDouble validA validB]
    rfl
  swap {a b} validA validB := by
    rw [compareTuples_eq onColumns noDouble validA validB,
      compareTuples_eq onColumns noDouble validB validA]
    have swapped : rankOrder keys b a = (rankOrder keys a b).swap := Std.OrientedCmp.eq_swap
    exact congrArg some swapped
  trans {a b c} validA validB validC first second := by
    rw [compareTuples_eq onColumns noDouble validA validB, ne_eq, Option.some.injEq,
      Ordering.ne_gt_iff_isLE] at first
    rw [compareTuples_eq onColumns noDouble validB validC, ne_eq, Option.some.injEq,
      Ordering.ne_gt_iff_isLE] at second
    rw [compareTuples_eq onColumns noDouble validA validC, ne_eq, Option.some.injEq,
      Ordering.ne_gt_iff_isLE]
    exact Std.TransCmp.isLE_trans first second

theorem compareTuples_congr {a b a' b' : Row}
    (validA : Valid schema a) (validB : Valid schema b) (validA' : Valid schema a')
    (validB' : Valid schema b') (sameA : sortKeyValues keys a = sortKeyValues keys a')
    (sameB : sortKeyValues keys b = sortKeyValues keys b') :
    compareTuples keys a b = compareTuples keys a' b' := by
  rw [compareTuples, compareTuples]
  induction keys with
  | nil => rfl
  | cons spec rest ih =>
    rw [sortKeyValues, sortKeyValues, List.map_cons, List.map_cons, List.cons.injEq] at sameA sameB
    have later := ih (fun spec member => onColumns spec (List.mem_cons_of_mem _ member))
      sameA.2 sameB.2
    obtain ⟨i, isColumn, inside⟩ := onColumns spec List.mem_cons_self
    obtain ⟨expr, ascending⟩ := spec
    have isColumn : expr = .column .single i := isColumn
    subst isColumn
    have column : schema[i]? = some schema[i] := List.getElem?_eq_getElem inside
    have evaluates {row : Row} (valid : Valid schema row) :
        (Expression.column .single i).evaluateRow row =
          some (keyValue row ⟨.column .single i, ascending⟩) := (columnValue_eq column valid).1
    simp only [compareTupleBySortKeys, evaluates validA, evaluates validB, evaluates validA',
      evaluates validB', sameA.1, sameB.1, later]

end

end Compared

end GraniteDb.Execution.SortOrder
