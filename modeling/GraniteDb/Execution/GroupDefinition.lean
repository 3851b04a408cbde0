/- What GROUP BY means, and when the hash aggregation gives it. -/

import GraniteDb.Execution.HashAggregate
import GraniteDb.Execution.ValueText
import Mathlib.Data.List.Dedup
import Mathlib.Data.List.MinMax

namespace GraniteDb.Execution.GroupDefinition

open Common.Value Lib.Grouping Execution.Expressions Execution.ValueOrder Execution.ValueText
open Execution.TupleFile Execution.Partitions Execution.Aggregates Execution.HashAggregate
open Recovery.WalRecords (Bytes)
open Option (bind_some map_some getD_some bind_eq_bind)
open List (mem_map mem_dedup map_map mem_map_of_mem length_map map_congr_left)
open List (length_cons map_id' argmin_mem foldlM_cons)

def exactRank : Value → Rank
  | .int32 n => number n.toInt
  | .int64 n => number n.toInt
  | v => seenRank v

/-- What an aggregate of some rows is, when values are ranked in some way: all rows count for
`COUNT(*)`, and otherwise those with a value. -/
noncomputable def aggregateBy (rank : Value → Rank) (call : AggregateCall) (valueType : TypeId)
    (rows : List Row) : Value :=
  match call.expr with
  | none => .int64 (BitVec.ofNat 64 rows.length)
  | some expr =>
    let values := valuesOf expr rows
    match call.type with
    | .count => .int64 (BitVec.ofNat 64 values.length)
    | .sum =>
      if values = [] then .null valueType
      else .int64 (BitVec.ofInt 64 (values.filterMap integer).sum)
    | .min => (values.argmin rank).getD (.null valueType)
    | .max => (values.argmax rank).getD (.null valueType)

def tupleOf (e : AggregateExecutor) (row : Row) : List Value :=
  (groupValues e.groupByExprs row).getD []

def members (e : AggregateExecutor) (tuple : List Value) (rows : List Row) : List Row :=
  rows.filter fun row => tupleOf e row = tuple

noncomputable def groupRow (rank : Value → Rank) (e : AggregateExecutor) (valueTypes : List TypeId)
    (rows : List Row) (tuple : List Value) : Row :=
  tuple ++ List.zipWith (fun call valueType => aggregateBy rank call valueType
    (members e tuple rows)) e.calls valueTypes

/-- GROUP BY: a row for each distinct tuple of group values; without group expressions all rows
are one group, also when there are none. -/
noncomputable def groupBy (e : AggregateExecutor) (valueTypes : List TypeId) (rows : List Row) :
    Multiset Row :=
  let tuples := if e.groupByExprs = [] then [[]] else (rows.map (tupleOf e)).dedup
  (tuples.map (groupRow exactRank e valueTypes rows) : List Row)

/-- An expression has a value on every row: NULLs of one type, and others of one of some types. -/
def Shows (types : TypeId → Bool) (rows : List Row) (expr : Evaluation) : Prop :=
  ∃ type nullType, types type = true ∧ ∀ row ∈ rows, ∃ v, expr row = some v ∧
    v.typeId = if v.isNull then nullType else type

/-- Integers are summed, not into a DOUBLE, and only `COUNT` needs no expression. -/
def Meaningful (rows : List Row) (call : AggregateCall) (valueType : TypeId) : Prop :=
  match call.type, call.expr with
  | .count, none => True
  | .sum, some expr => Shows isInteger rows expr ∧ valueType ≠ .double
  | _, some expr => Shows comparesExactly rows expr
  | _, none => False

/-- An aggregation over rows whose strings and NULLs a file does not change. -/
structure Regular (e : AggregateExecutor) (valueTypes : List TypeId) (rows : List Row) : Prop where
  valid : ∀ row ∈ rows, Valid e.childSchema row
  whole : ∀ row ∈ rows, back e.childSchema row = row
  groups : ∀ expr ∈ e.groupByExprs, Shows comparesExactly rows expr
  calls : ∀ c ∈ e.calls.zip valueTypes, Meaningful rows c.1 c.2
  types : aggregateValueTypesFromSchema e.outputSchema e.groupByExprs.length e.calls.length =
    some valueTypes
  budget : 1 ≤ e.memoryBudgetBytes

/-- The extreme value comes before all that the comparison takes for equal to it, and the
comparison takes none for more extreme. -/
def Leads (wanted : Ordering) (extreme : Value) (values : List Value) : Prop :=
  ∀ v ∈ values, compareValues v extreme ≠ some wanted ∧
    (compareValues v extreme = some .eq → values.idxOf extreme ≤ values.idxOf v)

/-- The comparison finds the extreme value that an aggregate asks for. -/
def FindsExtreme (call : AggregateCall) (rows : List Row) : Prop :=
  match call.type, call.expr with
  | .min, some expr =>
    ∀ m, (valuesOf expr rows).argmin exactRank = some m → Leads .lt m (valuesOf expr rows)
  | .max, some expr =>
    ∀ m, (valuesOf expr rows).argmax exactRank = some m → Leads .gt m (valuesOf expr rows)
  | _, _ => True

/-- What the hash aggregation needs: records that a file keeps, group values that their texts
tell apart, and extremes that the comparison finds. -/
structure Grouped (e : AggregateExecutor) (rows : List Row) : Prop where
  fits : ∀ row ∈ rows, Fits e.childSchema row
  distinct : ∀ r ∈ rows, ∀ s ∈ rows, groupKey (tupleOf e r) = groupKey (tupleOf e s) →
    tupleOf e r = tupleOf e s
  extremes : ∀ row ∈ rows, ∀ call ∈ e.calls, FindsExtreme call (members e (tupleOf e row) rows)

section Extremes

universe u v w

variable {α : Type u} [DecidableEq α] {β : Type v} [LinearOrder β] {γ : Type w} [LinearOrder γ]

theorem argmin_eq_iff {f : α → β} {g : α → γ} {l : List α} : l.argmin f = l.argmin g ↔
    ∀ m, l.argmin g = some m → ∀ a ∈ l, f m ≤ f a ∧ (f a ≤ f m → l.idxOf m ≤ l.idxOf a) := by
  constructor
  · intro same m least
    obtain ⟨-, lower, first⟩ := List.mem_argmin_iff.mp (same.trans least : l.argmin f = some m)
    exact fun a member => ⟨lower a member, first a member⟩
  · intro leads
    cases least : l.argmin g with
    | none => rw [List.argmin_eq_none.mp least, List.argmin_nil]
    | some m =>
      exact List.mem_argmin_iff.mpr ⟨argmin_mem least, fun a member =>
        (leads m least a member).1, fun a member => (leads m least a member).2⟩

theorem argmax_eq_iff {f : α → β} {g : α → γ} {l : List α} : l.argmax f = l.argmax g ↔
    ∀ m, l.argmax g = some m → ∀ a ∈ l, f a ≤ f m ∧ (f m ≤ f a → l.idxOf m ≤ l.idxOf a) :=
  @argmin_eq_iff α _ βᵒᵈ _ γᵒᵈ _ f g l

end Extremes

section Values

variable {rows : List Row} {expr : Evaluation} {values : List Value}

def Ranked (values : List Value) : Prop :=
  ∀ v ∈ values, ∀ w ∈ values, compareValues v w = some (compare (seenRank v) (seenRank w))

theorem mem_valuesOf {v : Value} : v ∈ valuesOf expr rows ↔
    v.isNull = false ∧ ∃ row ∈ rows, expr row = some v := by
  rw [valuesOf, List.mem_filterMap]
  constructor
  · intro found
    obtain ⟨row, member, shown⟩ := found
    obtain ⟨value, present⟩ := Option.filter_eq_some_iff.mp shown
    exact ⟨by simpa using present, row, member, value⟩
  · intro found
    obtain ⟨present, row, member, value⟩ := found
    exact ⟨row, member, Option.filter_eq_some_iff.mpr ⟨value, by simpa using present⟩⟩

variable {types : TypeId → Bool}

theorem Shows.evaluates (shows_ : Shows types rows expr) :
    ∀ row ∈ rows, expr row ≠ none := by
  obtain ⟨_, _, _, all⟩ := shows_
  intro row member none_
  obtain ⟨v, value, -⟩ := all row member
  rw [none_] at value
  cases value

theorem Shows.subset {own : List Row} (shows_ : Shows types rows expr)
    (sub : own ⊆ rows) : Shows types own expr := by
  obtain ⟨type, nullType, allowed, all⟩ := shows_
  exact ⟨type, nullType, allowed, fun row member => all row (sub member)⟩

theorem shows_column {schema : List Access.HeapFile.Column} {col : Access.HeapFile.Column}
    {i : Nat} (column : schema[i]? = some col)
    (allowed : types col.type = true) (valid : ∀ row ∈ rows, Valid schema row)
    (whole : ∀ row ∈ rows, back schema row = row) : Shows types rows fun row => row[i]? := by
  refine ⟨col.type, col.type, allowed, ?_⟩
  intro row member
  have value := (columnValue_eq column (valid row member)).1
  have kept_ := columnValue_back column (valid row member)
  rw [whole row member, value, Option.some.injEq] at kept_
  refine ⟨_, value, ?_⟩
  cases present : (columnValue i row).isNull with
  | true =>
    rw [kept_, keptValue, present, if_pos rfl]
    rfl
  | false =>
    exact Access.HeapFile.validateValue_type (columnValue_eq column (valid row member)).2 present

theorem Meaningful.subset {call : AggregateCall} {valueType : TypeId} {own : List Row}
    (meaningful : Meaningful rows call valueType) (sub : own ⊆ rows) :
    Meaningful own call valueType := by
  obtain ⟨type, expr⟩ := call
  cases expr with
  | none =>
    cases type with
    | count => trivial
    | _ => cases meaningful
  | some expr =>
    cases type with
    | sum => exact ⟨meaningful.1.subset sub, meaningful.2⟩
    | _ => exact Shows.subset meaningful sub

theorem Shows.ranked (shows_ : Shows comparesExactly rows expr) :
    Ranked (valuesOf expr rows) := by
  obtain ⟨type, nullType, allowed, all⟩ := shows_
  have typed : ∀ v ∈ valuesOf expr rows, v.isNull = false ∧ v.typeId = type := by
    intro v member
    obtain ⟨present, row, inRows, value⟩ := mem_valuesOf.mp member
    obtain ⟨w, value', typed⟩ := all row inRows
    rw [value] at value'
    cases value'
    rw [present, if_neg Bool.false_ne_true] at typed
    exact ⟨present, typed⟩
  have kinds {v w : Value} (type_ : v.typeId = w.typeId) (exactly : comparesExactly v.typeId = true)
      (left : v.isNull = false) (right : w.isNull = false) :
      isNaN v = false ∧ isNaN w = false ∧ kind v ≠ 0 ∧ kind v = kind w := by
    cases v with
    | null _ => cases left
    | double _ => cases exactly
    | _ =>
      cases w with
      | null _ => cases right
      | _ => first | exact ⟨rfl, rfl, Nat.succ_ne_zero _, rfl⟩ | cases type_
  intro v inValues w inValues'
  obtain ⟨left, typeV⟩ := typed v inValues
  obtain ⟨right, typeW⟩ := typed w inValues'
  obtain ⟨numberV, numberW, some_, same⟩ := kinds (typeV.trans typeW.symm)
    (by rw [typeV, allowed]) left right
  exact (compareValues_iff numberV numberW).mpr ⟨some_, same, rfl⟩

variable {agg : AggTransition}

private theorem foldlM_applyExtreme {wanted : Ordering} {first : List Value → Option Value}
    (nil : first [] = none) (mem : ∀ {l : List Value} {m : Value}, first l = some m → m ∈ l)
    (concat : ∀ (l : List Value) (v : Value), first (l ++ [v]) = some (match first l with
      | none => v
      | some m => if compare (seenRank v) (seenRank m) = wanted then v else m))
    (ranked : Ranked values) (fresh : agg.initialized = false) :
    values.foldlM (applyExtreme wanted) agg = some { agg with
      initialized := !values.isEmpty
      extreme := (first values).getD agg.extreme } := by
  induction values using List.reverseRecOn with
  | nil => simp [nil, ← fresh]
  | append_singleton values v ih =>
    have before := ih fun a inA b inB =>
      ranked a (List.mem_append_left _ inA) b (List.mem_append_left _ inB)
    rw [List.foldlM_append, before, concat]
    cases values with
    | nil => simp [applyExtreme, nil]
    | cons head tail =>
      cases found : first (head :: tail) with
      | none =>
        have absurd_ := concat (head :: tail).dropLast ((head :: tail).getLast (by simp))
        rw [List.dropLast_append_getLast, found] at absurd_
        cases absurd_
      | some m =>
        have compared := ranked v (List.mem_append_right _ (List.mem_singleton_self v)) m
          (List.mem_append_left _ (mem found))
        simp only [bind_eq_bind, bind_some, foldlM_cons, List.foldlM_nil,
          applyExtreme, List.isEmpty_cons, Bool.not_false, Bool.not_true, Bool.false_eq_true,
          if_false, getD_some, compared, map_some]
        by_cases better : compare (seenRank v) (seenRank m) = wanted
        · simp [better]
        · simp [better]

theorem foldlM_applyExtreme_lt (ranked : Ranked values)
    (fresh : agg.initialized = false) : values.foldlM (applyExtreme .lt) agg = some { agg with
      initialized := !values.isEmpty
      extreme := (values.argmin seenRank).getD agg.extreme } := by
  apply foldlM_applyExtreme (List.argmin_nil _) argmin_mem _ ranked fresh
  intro l v
  rw [List.argmin_concat]
  cases l.argmin seenRank with
  | none => rfl
  | some m =>
    simp only [compare_lt_iff_lt]
    split <;> rfl

theorem foldlM_applyExtreme_gt (ranked : Ranked values)
    (fresh : agg.initialized = false) : values.foldlM (applyExtreme .gt) agg = some { agg with
      initialized := !values.isEmpty
      extreme := (values.argmax seenRank).getD agg.extreme } := by
  apply foldlM_applyExtreme (List.argmax_nil _) List.argmax_mem _ ranked fresh
  intro l v
  rw [List.argmax_concat]
  cases l.argmax seenRank with
  | none => rfl
  | some m =>
    simp only [compare_gt_iff_gt]
    split <;> rfl

theorem foldlM_applyCount (values : List Value) (agg : AggTransition) :
    values.foldlM (applyValue .count) agg = some { agg with
      initialized := agg.initialized || !values.isEmpty
      count := agg.count + BitVec.ofNat 64 values.length } := by
  induction values generalizing agg with
  | nil => simp
  | cons v values ih =>
    rw [foldlM_cons]
    simp only [applyValue, bind_eq_bind, bind_some, ih, applyCount, Bool.true_or,
      List.isEmpty_cons, Bool.not_false, Bool.or_true, length_cons, Option.some.injEq,
      AggTransition.mk.injEq, true_and, and_true]
    rw [BitVec.add_assoc, Nat.add_comm, BitVec.ofNat_add]
    rfl

theorem foldlM_applySum (shows_ : Shows isInteger rows expr)
    (type : agg.outputType ≠ .double) :
    (valuesOf expr rows).foldlM applySum agg = some { agg with
      initialized := agg.initialized || !(valuesOf expr rows).isEmpty
      sumInt := agg.sumInt + BitVec.ofInt 64 ((valuesOf expr rows).filterMap integer).sum } := by
  have integers : ∀ v ∈ valuesOf expr rows, isInteger v.typeId = true ∧ v.isNull = false := by
    obtain ⟨type, nullType, allowed, all⟩ := shows_
    intro v member
    obtain ⟨present, row, inRows, value⟩ := mem_valuesOf.mp member
    obtain ⟨w, value', typed⟩ := all row inRows
    rw [value] at value'
    cases value'
    rw [present, if_neg Bool.false_ne_true] at typed
    exact ⟨by rw [typed, allowed], present⟩
  generalize valuesOf expr rows = values at integers ⊢
  induction values generalizing agg with
  | nil => simp
  | cons v values ih =>
    have later (next : AggTransition) (type : next.outputType ≠ .double) :=
      @ih next type fun w member => integers w (List.mem_cons_of_mem _ member)
    obtain ⟨isInt, present⟩ := integers v List.mem_cons_self
    obtain ⟨n, isN, sum⟩ : ∃ n, integer v = some n ∧ applySum agg v =
        some { agg with initialized := true, sumInt := agg.sumInt + BitVec.ofInt 64 n } := by
      cases v with
      | null _ => cases present
      | int32 n =>
        refine ⟨n.toInt, rfl, ?_⟩
        simp [applySum, isNumericType, Value.typeId, type, valueToInt64, BitVec.signExtend]
      | int64 n =>
        refine ⟨n.toInt, rfl, ?_⟩
        simp [applySum, isNumericType, Value.typeId, type, valueToInt64]
      | _ => cases isInt
    rw [foldlM_cons, sum]
    simp only [bind_eq_bind, bind_some]
    rw [later { agg with initialized := true, sumInt := agg.sumInt + BitVec.ofInt 64 n } type]
    simp only [List.filterMap_cons, isN, List.sum_cons, Bool.true_or, List.isEmpty_cons,
      Bool.not_false, Bool.or_true, BitVec.ofInt_add, BitVec.add_assoc]

end Values

section Groups

variable {e : AggregateExecutor} {valueTypes : List TypeId} {rows : List Row}

private def initial (call : AggregateCall) (valueType : TypeId) : AggTransition :=
  ⟨call.type, valueType, false, 0, 0, ⟨0⟩, .null valueType⟩

theorem outputValue_fold {call : AggregateCall} {valueType : TypeId}
    (meaningful : Meaningful rows call valueType) : ∃ final,
      rows.foldlM (fun agg row => applyAggregate row call agg) (initial call valueType) =
        some final ∧
      outputValue final valueType = aggregateBy seenRank call valueType rows := by
  obtain ⟨type, expr⟩ := call
  cases expr with
  | none =>
    cases type with
    | count =>
      refine ⟨_, foldlM_countRows rfl rfl _, ?_⟩
      cases rows with
      | nil => rfl
      | cons row rows => simp [outputValue, initial, aggregateBy]
    | _ => cases meaningful
  | some expr =>
    cases type with
    | count =>
      rw [foldlM_applyAggregate rfl (Shows.evaluates meaningful), foldlM_applyCount]
      refine ⟨_, rfl, ?_⟩
      simp only [aggregateBy]
      cases valuesOf expr rows with
      | nil => rfl
      | cons v values => simp [outputValue, initial]
    | sum =>
      obtain ⟨shows_, type⟩ := meaningful
      rw [foldlM_applyAggregate rfl shows_.evaluates]
      refine ⟨_, foldlM_applySum shows_ type, ?_⟩
      simp only [aggregateBy]
      cases valuesOf expr rows with
      | nil => rfl
      | cons v values => simp [outputValue, initial, type]
    | min =>
      rw [foldlM_applyAggregate rfl (Shows.evaluates meaningful)]
      refine ⟨_, foldlM_applyExtreme_lt (Shows.ranked meaningful) rfl, ?_⟩
      simp only [aggregateBy]
      cases valuesOf expr rows with
      | nil => rfl
      | cons v values => simp [outputValue, initial]
    | max =>
      rw [foldlM_applyAggregate rfl (Shows.evaluates meaningful)]
      refine ⟨_, foldlM_applyExtreme_gt (Shows.ranked meaningful) rfl, ?_⟩
      simp only [aggregateBy]
      cases valuesOf expr rows with
      | nil => rfl
      | cons v values => simp [outputValue, initial]

theorem outputValues_fold {calls : List AggregateCall}
    (meaningful : ∀ c ∈ calls.zip valueTypes, Meaningful rows c.1 c.2)
    (types : valueTypes.length = calls.length) : ∃ finals,
      rows.foldlM (fun aggs row => applyAggregateRow calls row aggs)
        (makeInitialTransitions calls valueTypes) = some finals ∧
      List.zipWith outputValue finals valueTypes =
        List.zipWith (fun call valueType => aggregateBy seenRank call valueType rows) calls
          valueTypes := by
  induction calls generalizing valueTypes with
  | nil =>
    refine ⟨[], ?_, rfl⟩
    rw [makeInitialTransitions, List.zipWith_nil_left]
    induction rows with
    | nil => rfl
    | cons row rows ih => exact ih (by simp)
  | cons call calls ih =>
    cases valueTypes with
    | nil => cases types
    | cons valueType valueTypes =>
      obtain ⟨final, folded, shown⟩ := outputValue_fold (meaningful _ List.mem_cons_self)
      obtain ⟨finals, foldeds, showns⟩ := ih
        (fun c member => meaningful c (List.mem_cons_of_mem _ member)) (by simpa using types)
      refine ⟨final :: finals, ?_, ?_⟩
      · exact foldlM_row_cons.mpr ⟨final, finals, rfl, folded, foldeds⟩
      · rw [List.zipWith_cons_cons, List.zipWith_cons_cons, shown, showns]

theorem groupValues_tupleOf (regular : Regular e valueTypes rows) {row : Row} (member : row ∈ rows) :
    groupValues e.groupByExprs row = some (tupleOf e row) ∧
      (tupleOf e row).length = e.groupByExprs.length := by
  have evaluates : ∀ expr ∈ e.groupByExprs, expr row ≠ none := fun expr inExprs =>
    (regular.groups expr inExprs).evaluates row member
  have all : ∃ vals, groupValues e.groupByExprs row = some vals ∧
      vals.length = e.groupByExprs.length := by
    unfold groupValues
    generalize e.groupByExprs = exprs at evaluates
    induction exprs with
    | nil => exact ⟨[], rfl, rfl⟩
    | cons expr exprs ih =>
      obtain ⟨vals, values, length⟩ := ih fun other inExprs =>
        evaluates other (List.mem_cons_of_mem _ inExprs)
      cases value : expr row with
      | none => exact (evaluates expr List.mem_cons_self value).elim
      | some v => exact ⟨v :: vals, by simp [value, values], by simp [length]⟩
  obtain ⟨vals, values, length⟩ := all
  rw [tupleOf, values, getD_some]
  exact ⟨rfl, length⟩

def keyOf (e : AggregateExecutor) (row : Row) : Bytes := groupKey (tupleOf e row)

theorem keptEntries_regular (regular : Regular e valueTypes rows) :
    keptEntries e.childSchema (keyText e) rows =
      if ∀ row ∈ rows, Fits e.childSchema row then
        some (rows.map fun row => (keyOf e row, row))
      else none := by
  have same : rows.map (back e.childSchema) = rows := by
    rw [map_congr_left regular.whole, map_id']
  have keys : entriesOf (keyText e) rows = some (rows.map fun row => (keyOf e row, row)) := by
    rw [entriesOf_iff, map_map]
    refine ⟨map_id' rows, ?_⟩
    intro entry member
    obtain ⟨row, inRows, rfl⟩ := mem_map.mp member
    rw [keyText, buildGroupKey, (groupValues_tupleOf regular inRows).1]
    rfl
  rw [keptEntries, mapM_kept]
  split
  · rw [same, bind_some, keys]
  · rfl

/-- The groups the executor builds: each text once, the values of one of its rows, and the
aggregates of all of them. -/
structure GroupsOf (e : AggregateExecutor) (valueTypes : List TypeId) (rows : List Row)
    (groups : List (Bytes × GroupState)) : Prop where
  nodup : (groups.map Prod.fst).Nodup
  keys : ∀ text, text ∈ groups.map Prod.fst ↔ ∃ row ∈ rows, keyOf e row = text
  vals : ∀ g ∈ groups, ∃ row ∈ rows, keyOf e row = g.1 ∧ g.2.groupVals = tupleOf e row
  aggs : ∀ g ∈ groups, List.zipWith outputValue g.2.aggs valueTypes =
    List.zipWith (fun call valueType => aggregateBy seenRank call valueType
      (rows.filter fun row => keyOf e row = g.1)) e.calls valueTypes

theorem length_valueTypes {outputSchema : List Access.HeapFile.Column} {groupCount aggCount : Nat}
    (types : aggregateValueTypesFromSchema outputSchema groupCount aggCount = some valueTypes) :
    valueTypes.length = aggCount := by
  have lengths (indices : List Nat) (found : List TypeId) : (indices.mapM fun i =>
      (outputSchema[groupCount + i]?).map fun col => col.type) = some found →
      found.length = indices.length := by
    induction indices generalizing found with
    | nil =>
      intro none_
      cases none_
      rfl
    | cons i indices ih =>
      intro all
      simp only [List.mapM_cons, bind_eq_bind, Option.bind_eq_some_iff] at all
      obtain ⟨type, -, later, rest, shape⟩ := all
      cases shape
      rw [length_cons, length_cons, ih later rest]
  have length := lengths _ _ types
  rwa [List.length_range] at length

theorem groupsOf_regular (regular : Regular e valueTypes rows) : ∃ groups,
    groupsOf e valueTypes (rows.map fun row => (keyOf e row, row)) = some groups ∧
      GroupsOf e valueTypes rows groups := by
  have types := length_valueTypes regular.types
  let items := (rows.map fun row => (keyOf e row, row)).map (itemOf e)
  have keys (text : Bytes) : text ∈ items.map Prod.fst ↔ ∃ row ∈ rows, keyOf e row = text := by
    simp only [items, map_map, mem_map, Function.comp_apply, itemOf]
  have owns (text : Bytes) : own text items =
      (rows.filter fun row => keyOf e row = text).map fun row => (tupleOf e row, row) := by
    simp only [own, items, map_map, List.filter_map, Function.comp_def, itemOf, beq_eq_decide]
    rfl
  have folds (text : Bytes) : ∃ finals,
      ((own text items).map Prod.snd).foldlM (fun aggs row => applyAggregateRow e.calls row aggs)
        (makeInitialTransitions e.calls valueTypes) = some finals ∧
      List.zipWith outputValue finals valueTypes =
        List.zipWith (fun call valueType => aggregateBy seenRank call valueType
          (rows.filter fun row => keyOf e row = text)) e.calls valueTypes := by
    have same : (own text items).map Prod.snd = rows.filter fun row => keyOf e row = text := by
      rw [owns, map_map]
      exact map_id' _
    rw [same]
    apply outputValues_fold _ types
    intro c member
    exact (regular.calls c member).subset fun _ inGroup => (List.mem_filter.mp inGroup).1
  have some_ (text : Bytes) (member : text ∈ items.map Prod.fst) : own text items ≠ [] := by
    obtain ⟨row, inRows, same⟩ := (keys text).mp member
    rw [owns]
    intro none_
    have inGroup : row ∈ rows.filter fun row => keyOf e row = text := by
      simp [inRows, same]
    rw [List.map_eq_nil_iff.mp none_] at inGroup
    cases inGroup
  have summaries : ∀ text ∈ items.map Prod.fst,
      summary (enterGroup e valueTypes) ⟨[], []⟩ text items ≠ none := by
    intro text member fails
    obtain ⟨finals, folded, -⟩ := folds text
    have aggs := enterGroup_fresh types (some_ text member)
    rw [← summary, fails, folded] at aggs
    cases aggs
  obtain ⟨groups, found, is⟩ := table_of_summaries summaries
  refine ⟨groups, found, is.nodup, fun text => (is.keys text).trans (keys text), ?_, ?_⟩
  · intro g member
    have inItems := (is.keys g.1).mp (mem_map_of_mem member)
    obtain ⟨item, inOwn, vals⟩ := enterGroup_fresh_vals (is.states g member) (some_ g.1 inItems)
    rw [owns] at inOwn
    obtain ⟨row, inGroup, rfl⟩ := mem_map.mp inOwn
    obtain ⟨inRows, same⟩ := List.mem_filter.mp inGroup
    exact ⟨row, inRows, of_decide_eq_true same, vals⟩
  · intro g member
    have inItems := (is.keys g.1).mp (mem_map_of_mem member)
    have aggs := enterGroup_fresh types (some_ g.1 inItems)
    obtain ⟨finals, folded, shown⟩ := folds g.1
    rw [← summary, is.states g member, folded, map_some, Option.some.injEq] at aggs
    rw [aggs, shown]

theorem GroupsOf.rows_perm {groups : List (Bytes × GroupState)}
    (built : GroupsOf e valueTypes rows groups)
    (distinct : ∀ r ∈ rows, ∀ s ∈ rows, keyOf e r = keyOf e s → tupleOf e r = tupleOf e s) :
    (groups.map (outputRow valueTypes)).Perm
      (((rows.map (tupleOf e)).dedup).map (groupRow seenRank e valueTypes rows)) := by
  have texts : ∀ g ∈ groups, groupKey g.2.groupVals = g.1 := by
    intro g member
    obtain ⟨row, -, same, vals⟩ := built.vals g member
    rw [vals, ← same, keyOf]
  have outputs : groups.map (outputRow valueTypes) =
      (groups.map fun g => g.2.groupVals).map (groupRow seenRank e valueTypes rows) := by
    rw [map_map]
    apply map_congr_left
    intro g member
    obtain ⟨row, inRows, same, vals⟩ := built.vals g member
    have group : rows.filter (fun other => keyOf e other = g.1) = members e g.2.groupVals rows := by
      apply List.filter_congr
      intro other inRows'
      rw [vals, ← same, decide_eq_decide]
      constructor
      · exact distinct other inRows' row inRows
      · intro tuples
        rw [keyOf, keyOf, tuples]
    rw [outputRow, buildAggregateOutputTuple, built.aggs g member, group]
    rfl
  rw [outputs]
  apply List.Perm.map
  have nodup : (groups.map fun g => g.2.groupVals).Nodup := by
    apply List.Nodup.of_map groupKey
    have same : (groups.map fun g => g.2.groupVals).map groupKey = groups.map Prod.fst := by
      rw [map_map]
      exact map_congr_left texts
    rw [same]
    exact built.nodup
  rw [List.perm_ext_iff_of_nodup nodup (List.nodup_dedup _)]
  intro tuple
  rw [mem_dedup, mem_map, mem_map]
  constructor
  · intro found
    obtain ⟨g, member, rfl⟩ := found
    obtain ⟨row, inRows, -, vals⟩ := built.vals g member
    exact ⟨row, inRows, vals.symm⟩
  · intro found
    obtain ⟨row, inRows, rfl⟩ := found
    obtain ⟨g, member, same⟩ := mem_map.mp ((built.keys _).mpr ⟨row, inRows, rfl⟩)
    obtain ⟨other, inRows', same', vals⟩ := built.vals g member
    exact ⟨g, member, vals.trans (distinct other inRows' row inRows (same'.trans same))⟩

theorem GroupsOf.distinct {groups : List (Bytes × GroupState)}
    (built : GroupsOf e valueTypes rows groups)
    (number : groups.length = ((rows.map (tupleOf e)).dedup).length) :
    ∀ r ∈ rows, ∀ s ∈ rows, keyOf e r = keyOf e s → tupleOf e r = tupleOf e s := by
  have sub : groups.map Prod.fst ⊆ ((rows.map (tupleOf e)).dedup).map groupKey := by
    intro text member
    obtain ⟨row, inRows, same⟩ := (built.keys text).mp member
    exact mem_map.mpr ⟨tupleOf e row, mem_dedup.mpr (mem_map_of_mem inRows), same⟩
  have perm := (built.nodup.subperm sub).perm_of_length_le (by
    rw [length_map, length_map, number])
  have inj := List.inj_on_of_nodup_map (perm.nodup_iff.mp built.nodup)
  intro r inRows s inRows' same
  exact inj (mem_dedup.mpr (mem_map_of_mem inRows))
    (mem_dedup.mpr (mem_map_of_mem inRows')) same

theorem groupRows_perm_iff {tuples : List (List Value)} {rank rank' : Value → Rank} {n : Nat}
    (lengths : ∀ t ∈ tuples, t.length = n) :
    (tuples.map (groupRow rank e valueTypes rows)).Perm
        (tuples.map (groupRow rank' e valueTypes rows)) ↔
      ∀ t ∈ tuples, ∀ c ∈ e.calls.zip valueTypes,
        aggregateBy rank c.1 c.2 (members e t rows) =
          aggregateBy rank' c.1 c.2 (members e t rows) := by
  have pointwise (f g : AggregateCall → TypeId → Value) :
      List.zipWith f e.calls valueTypes = List.zipWith g e.calls valueTypes ↔
        ∀ c ∈ e.calls.zip valueTypes, f c.1 c.2 = g c.1 c.2 := by
    rw [← List.map_uncurry_zip_eq_zipWith, ← List.map_uncurry_zip_eq_zipWith, List.map_inj_left]
    rfl
  have same (t : List Value) := pointwise
    (fun call valueType => aggregateBy rank call valueType (members e t rows))
    fun call valueType => aggregateBy rank' call valueType (members e t rows)
  constructor
  · intro perm t member
    rw [← same]
    obtain ⟨t', member', same⟩ := mem_map.mp (perm.subset (mem_map_of_mem member))
    obtain ⟨rfl, values⟩ := List.append_inj same (by rw [lengths t' member', lengths t member])
    exact values.symm
  · intro all
    rw [map_congr_left]
    intro t member
    rw [groupRow, groupRow, (same t).mpr (all t member)]

theorem aggregateBy_iff {call : AggregateCall} {valueType : TypeId}
    (meaningful : Meaningful rows call valueType) :
    aggregateBy seenRank call valueType rows = aggregateBy exactRank call valueType rows ↔
      FindsExtreme call rows := by
  have getD_iff {x y : Option Value} (d : Value) (both : x = none ↔ y = none) :
      x.getD d = y.getD d ↔ x = y := by
    cases x with
    | none => simp [both.mp rfl]
    | some v =>
      cases y with
      | none => cases both.mpr rfl
      | some w => rw [getD_some, getD_some, Option.some.injEq]
  obtain ⟨type, expr⟩ := call
  cases expr with
  | none =>
    cases type with
    | count => exact iff_of_true rfl trivial
    | _ => cases meaningful
  | some expr =>
    cases type with
    | count => exact iff_of_true rfl trivial
    | sum => exact iff_of_true rfl trivial
    | min =>
      have ranked := Shows.ranked meaningful
      simp only [aggregateBy, FindsExtreme]
      rw [getD_iff _ (by rw [List.argmin_eq_none, List.argmin_eq_none]), argmin_eq_iff]
      apply forall_congr'
      intro m
      apply forall_congr'
      intro least
      apply forall₂_congr
      intro v member
      rw [ranked v member m (argmin_mem least), Ne, Option.some.injEq, Option.some.injEq,
        compare_lt_iff_lt, not_lt, compare_eq_iff_eq]
      apply and_congr_right
      intro lower
      rw [le_antisymm_iff, and_iff_left lower]
    | max =>
      have ranked := Shows.ranked meaningful
      simp only [aggregateBy, FindsExtreme]
      rw [getD_iff _ (by rw [List.argmax_eq_none, List.argmax_eq_none]), argmax_eq_iff]
      apply forall_congr'
      intro m
      apply forall_congr'
      intro greatest
      apply forall₂_congr
      intro v member
      rw [ranked v member m (List.argmax_mem greatest), Ne, Option.some.injEq,
        Option.some.injEq, compare_gt_iff_gt, not_lt, compare_eq_iff_eq]
      apply and_congr_right
      intro upper
      rw [le_antisymm_iff, and_iff_right upper]

end Groups

section Main

variable {e : AggregateExecutor} {valueTypes : List TypeId} {rows : List Row}

theorem Regular.meaningful (regular : Regular e valueTypes rows) (tuple : List Value) :
    ∀ c ∈ e.calls.zip valueTypes, Meaningful (members e tuple rows) c.1 c.2 := by
  intro c member
  exact Meaningful.subset (regular.calls c member) fun _ inGroup => (List.mem_filter.mp inGroup).1

theorem emptyTuple_eq (regular : Regular e valueTypes []) :
    buildAggregateOutputTuple [] (makeInitialTransitions e.calls valueTypes) valueTypes =
      groupRow exactRank e valueTypes [] [] := by
  obtain ⟨finals, folded, shown⟩ := outputValues_fold regular.calls (length_valueTypes regular.types)
  cases folded
  have ranks : (fun call valueType => aggregateBy seenRank call valueType []) =
      fun call valueType => aggregateBy exactRank call valueType [] := by
    funext call valueType
    unfold aggregateBy
    cases call.expr with
    | none => rfl
    | some expr => cases call.type <;> rfl
  rw [buildAggregateOutputTuple, shown, ranks]
  rfl

theorem tuples_eq (regular : Regular e valueTypes rows) (some_ : rows ≠ []) :
    (if e.groupByExprs = [] then [[]] else (rows.map (tupleOf e)).dedup) =
      (rows.map (tupleOf e)).dedup := by
  split
  · rename_i global
    have empty : ∀ row ∈ rows, tupleOf e row = [] := by
      intro row member
      have length := (groupValues_tupleOf regular member).2
      rw [global] at length
      exact List.length_eq_zero_iff.mp length
    rw [map_congr_left empty]
    cases rows with
    | nil => exact (some_ rfl).elim
    | cons row rows =>
      rw [List.map_const', length_cons, List.replicate_dedup (Nat.succ_ne_zero _)]
  · rfl

/-- The hash aggregation gives the rows of GROUP BY exactly when a file keeps the records, the texts
tell the groups apart and the comparison finds the extremes. -/
theorem groupBy_iff (regular : Regular e valueTypes rows) (maps : UnorderedMaps) :
    (∃ p, Outputs e maps (.ofList rows) p ∧ p.multiset = some (groupBy e valueTypes rows)) ↔
      Grouped e rows := by
  obtain ⟨p, outputs, answers⟩ := outputs_answer maps regular.valid regular.budget
  rw [regular.types, bind_some] at answers
  have unique : (∃ p, Outputs e maps (.ofList rows) p ∧
      p.multiset = some (groupBy e valueTypes rows)) ↔
      p.multiset = some (groupBy e valueTypes rows) := by
    constructor
    · intro found
      obtain ⟨p', outputs', same⟩ := found
      rw [outputs.unique outputs', same]
    · intro same
      exact ⟨p, outputs, same⟩
  rw [unique, answers]
  by_cases none_ : rows = []
  · subst none_
    refine iff_of_true ?_ ⟨by simp, by simp, by simp⟩
    rw [if_pos rfl, groupBy]
    by_cases global : e.groupByExprs = []
    · rw [if_pos global, if_pos global, emptyTuple_eq regular]
      rfl
    · rw [if_neg global, if_neg global]
      rfl
  rw [if_neg none_, keptEntries_regular regular, groupBy, tuples_eq regular none_]
  by_cases fits : ∀ row ∈ rows, Fits e.childSchema row
  case neg =>
    rw [if_neg fits]
    exact iff_of_false (by simp) fun grouped => fits grouped.fits
  rw [if_pos fits, bind_some, answer]
  obtain ⟨groups, found, built⟩ := groupsOf_regular regular
  have lengths : ∀ t ∈ (rows.map (tupleOf e)).dedup, t.length = e.groupByExprs.length := by
    intro t member
    obtain ⟨row, inRows, rfl⟩ := mem_map.mp (mem_dedup.mp member)
    exact (groupValues_tupleOf regular inRows).2
  have extremes : (∀ t ∈ (rows.map (tupleOf e)).dedup, ∀ c ∈ e.calls.zip valueTypes,
      aggregateBy seenRank c.1 c.2 (members e t rows) =
        aggregateBy exactRank c.1 c.2 (members e t rows)) ↔
      ∀ row ∈ rows, ∀ call ∈ e.calls, FindsExtreme call (members e (tupleOf e row) rows) := by
    have zipped (call : AggregateCall) (member : call ∈ e.calls) :
        ∃ valueType, (call, valueType) ∈ e.calls.zip valueTypes := by
      have unzipped := @List.map_fst_zip _ _ _ valueTypes
        (Nat.le_of_eq (length_valueTypes regular.types).symm)
      rw [← unzipped] at member
      obtain ⟨c, inZip, rfl⟩ := mem_map.mp member
      exact ⟨c.2, inZip⟩
    constructor
    · intro all row inRows call member
      obtain ⟨valueType, inZip⟩ := zipped call member
      exact (aggregateBy_iff (regular.meaningful _ _ inZip)).mp
        (all _ (mem_dedup.mpr (mem_map_of_mem inRows)) _ inZip)
    · intro all t member c inZip
      obtain ⟨row, inRows, rfl⟩ := mem_map.mp (mem_dedup.mp member)
      exact (aggregateBy_iff (regular.meaningful _ _ inZip)).mpr
        (all row inRows c.1 (List.of_mem_zip inZip).1)
  rw [found, map_some, Option.some.injEq, Multiset.coe_eq_coe]
  constructor
  · intro perm
    have number := perm.length_eq
    rw [length_map, length_map] at number
    have distinct := built.distinct number
    have ranks := (built.rows_perm distinct).symm.trans perm
    rw [groupRows_perm_iff lengths, extremes] at ranks
    exact ⟨fits, distinct, ranks⟩
  · intro grouped
    have ranks := (groupRows_perm_iff lengths).mpr (extremes.mpr grouped.extremes)
    exact (built.rows_perm grouped.distinct).trans ranks

def countStrings : AggregateExecutor :=
  ⟨[⟨⟨"a", .varchar⟩, true, 0⟩], [fun row => row[0]?], [⟨.count, none⟩],
    [⟨⟨"a", .varchar⟩, true, 0⟩, ⟨⟨"count", .int64⟩, true, 0⟩], 4096⟩

private theorem regular_countStrings {rows : List Row}
    (valid : ∀ row ∈ rows, Valid [⟨⟨"a", .varchar⟩, true, 0⟩] row)
    (whole : ∀ row ∈ rows, back [⟨⟨"a", .varchar⟩, true, 0⟩] row = row) :
    Regular countStrings [.int64] rows := by
  refine ⟨valid, whole, ?_, ?_, rfl, by decide⟩
  · intro expr member
    rw [List.mem_singleton.mp member]
    exact shows_column rfl rfl valid whole
  · intro c member
    rw [List.mem_singleton.mp member]
    trivial

theorem groupBy_iff_strings :
    (∃ p, Outputs countStrings ⟨List.length, id, fun _ => .refl _⟩
        (.ofList [[.varchar [97]], [.null .varchar], [.varchar [97]]]) p ∧
      p.multiset = some (groupBy countStrings [.int64]
        [[.varchar [97]], [.null .varchar], [.varchar [97]]])) ↔
      Grouped countStrings [[.varchar [97]], [.null .varchar], [.varchar [97]]] :=
  groupBy_iff (regular_countStrings (by decide) (by decide)) ⟨List.length, id, fun _ => .refl _⟩

/-- NULL and the string "NULL" are two groups, and the executor makes one of them. -/
theorem null_joins_its_text : ¬ ∀ (e : AggregateExecutor) (valueTypes : List TypeId)
    (rows : List Row) (maps : UnorderedMaps), Regular e valueTypes rows →
    ∃ p, Outputs e maps (.ofList rows) p ∧ p.multiset = some (groupBy e valueTypes rows) := by
  intro all
  have regular : Regular countStrings [.int64] [[.null .varchar], [.varchar nullText]] :=
    regular_countStrings (by decide) (by decide)
  obtain ⟨p, outputs, same⟩ := all _ _ _ ⟨List.length, id, fun _ => .refl _⟩ regular
  obtain ⟨p', outputs', answers⟩ := outputs_answer ⟨List.length, id, fun _ => .refl _⟩ regular.valid
    regular.budget
  obtain rfl := outputs.unique outputs'
  have one : p.multiset.map Multiset.card = some 1 := by
    rw [answers]
    decide +kernel
  have two : Multiset.card (groupBy countStrings [.int64]
      [[.null .varchar], [.varchar nullText]]) = 2 := by
    rw [groupBy, Multiset.coe_card, length_map]
    decide +kernel
  rw [same, map_some, two] at one
  cases one

end Main

end GraniteDb.Execution.GroupDefinition
