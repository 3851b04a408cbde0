/- Which plans of a join leave the bound positions where the binder put them. -/

import GraniteDb.Execution.HashJoin
import GraniteDb.Optimizer.JoinGraph
import GraniteDb.Sql.BinderFacts
import Mathlib.Data.List.Dedup

namespace GraniteDb.Sql.JoinLayout

open Common.Value Catalog.CatalogManager Execution.Expressions Execution.Operators
open Execution.HashJoin (textPairs probeBatches_perm)
open Lib.Pull Lib.Batches Optimizer.PhysicalPath Optimizer.PlanEnumerator Optimizer.JoinSteps
open Optimizer.JoinGraph Optimizer.LogicalQuery Sql.SelectAst Sql.Binder Sql.SelectPlanner
open Sql.BinderFacts
open Option (bind_eq_bind bind_eq_some_iff map_eq_some_iff)

section Paths

variable {catalog : CatalogManager} {query : OptimizerQuery}

theorem enumerated_relations {path : PhysicalPath} (enumerated : Enumerated catalog query path) :
    path.relations.Nodup ∧ path.relations ⊆ query.relations := by
  induction enumerated with
  | @base right listed _ =>
    refine ⟨List.pairwise_singleton _ _, ?_⟩
    intro r member
    rw [List.mem_singleton.mp member]
    exact listed
  | @join left right joinPred estimate path _ listed fresh _ _ tried ih =>
    obtain ⟨node, rfl, _⟩ := tryBuildJoinPaths_shape tried
    obtain ⟨nodup, sub⟩ := ih
    constructor
    · refine List.nodup_append.mpr ⟨nodup, List.pairwise_singleton _ _, ?_⟩
      rintro a inLeft b inRight rfl
      exact fresh (List.mem_singleton.mp inRight ▸ inLeft)
    · refine List.append_subset.mpr ⟨sub, ?_⟩
      intro r member
      rw [List.mem_singleton.mp member]
      exact listed

theorem relations_length_pos (path : PhysicalPath) : 0 < path.relations.length := by
  induction path with
  | base b => simp [PhysicalPath.relations]
  | join node left right ihLeft _ =>
    rw [PhysicalPath.relations, List.length_append]
    omega

theorem retained_schema {right : BasePath} (retained : Retained catalog query right)
    {rel : RelationCatalogEntry} (found : catalog.getRelation right.relationId = some rel) :
    right.outputSchema = rel.schema := by
  obtain ⟨rel', found', estRows, candidate⟩ := retained
  rw [found] at found'
  cases found'
  exact (candidate_facts candidate).2.1

structure PairPlan (catalog : CatalogManager) (query : OptimizerQuery) (path : PhysicalPath)
    (node : JoinNode) (outer inner : BasePath) : Prop where
  shape : path = .join node (.base outer) (.base inner)
  outerRetained : Retained catalog query outer
  innerRetained : Retained catalog query inner
  linked : node.joinPredicate ∈
    getJoinsBetweenSubsetAndRelation query [outer.relationId] inner.relationId
  enumerated : Enumerated catalog query (.base outer)
  listed : inner.relationId ∈ query.relations
  tried : ∃ estimate, path ∈
    tryBuildJoinPaths catalog (.base outer) inner node.joinPredicate estimate

theorem pairPlan_of_optimized {path : PhysicalPath} (optimized : Optimized catalog query path)
    {a b : Nat} (members : ∀ r, r ∈ query.relations ↔ r = a ∨ r = b) (different : a ≠ b) :
    ∃ node outer inner, PairPlan catalog query path node outer inner ∧
      ((outer.relationId = a ∧ inner.relationId = b) ∨
        (outer.relationId = b ∧ inner.relationId = a)) := by
  have inA := optimized.complete a ((members a).mpr (.inl rfl))
  have inB := optimized.complete b ((members b).mpr (.inr rfl))
  obtain ⟨nodup, sub⟩ := enumerated_relations optimized.enumerated
  cases optimized.enumerated with
  | base listed retained =>
    rw [PhysicalPath.relations, List.mem_singleton] at inA inB
    exact absurd (inA.trans inB.symm) different
  | @join left right joinPred estimate _ outerEnumerated listed fresh retained between tried =>
    obtain ⟨node, rfl, same⟩ := tryBuildJoinPaths_shape tried
    -- Only two relations are there, so the outer input is a base access.
    have few : (PhysicalPath.join node left (.base right)).relations.length ≤ 2 := by
      have within : (PhysicalPath.join node left (.base right)).relations ⊆ [a, b] := by
        intro r member
        simpa using (members r).mp (sub member)
      exact (List.subperm_of_subset nodup within).length_le
    cases left with
    | join node' left' right' =>
      have one := relations_length_pos left'
      have two := relations_length_pos right'
      simp only [PhysicalPath.relations, List.length_append, List.length_singleton] at few
      omega
    | base outer =>
      cases outerEnumerated with
      | base outerListed outerRetained =>
        refine ⟨node, outer, right, ⟨rfl, outerRetained, retained, same ▸ between,
          .base outerListed outerRetained, listed, estimate, same ▸ tried⟩, ?_⟩
        have apart : right.relationId ≠ outer.relationId := by
          simpa [PhysicalPath.relations] using fresh
        rcases (members _).mp outerListed with isA | isB
        · rcases (members _).mp listed with isA' | isB'
          · exact absurd (isA'.trans isA.symm) apart
          · exact .inl ⟨isA, isB'⟩
        · rcases (members _).mp listed with isA' | isB'
          · exact .inr ⟨isB, isA'⟩
          · exact absurd (isB'.trans isB.symm) apart
      | join _ _ _ _ _ tried' =>
        obtain ⟨_, shape, _⟩ := tryBuildJoinPaths_shape tried'
        cases shape

/-- A plan that joins the inputs of another in the opposite order, by the same algorithm. -/
inductive Mirrored : PhysicalPath → PhysicalPath → Prop
  | swap {node node' : JoinNode} {outer inner : BasePath} :
      node.joinType = .nestedLoop ∨ node.joinType = .hashJoin → node'.joinType = node.joinType →
      node'.joinPredicate = node.joinPredicate →
      Mirrored (.join node (.base outer) (.base inner)) (.join node' (.base inner) (.base outer))

end Paths

section Mirrored

variable {left right : Pull Row} {a b : Nat} {rows rows' : List Row}

def equality (a b : Nat) : Expression := .comparison .eq (.column .left a) (.column .right b)

private theorem length_joinOn {α β γ δ : Type} (same : α → β → Bool) (pair : α → β → γ)
    (pair' : α → β → δ) (l : List α) (r : List β) :
    (joinOn same pair l r).length = (joinOn same pair' l r).length := by
  rw [joinOn_product, joinOn_product, List.length_map, List.length_map]

private theorem nestedLoopJoin_collect {predicate : Expression}
    (drained : (nestedLoopJoin left right predicate).collect = some rows) :
    rows = joinOn (fun l r => (predicate.evaluate (some l) (some r)).map valueAsBool == some true)
      (· ++ ·) left.items right.items := by
  induction left generalizing rows with
  | done =>
    cases drained
    rfl
  | thrown => cases drained
  | item l rest ih =>
    rw [nestedLoopJoin, Pull.bind, Pull.collect_append] at drained
    obtain ⟨first, here, drained⟩ := bind_eq_some_iff.mp drained
    obtain ⟨later, tail, rfl⟩ := map_eq_some_iff.mp drained
    rw [Pull.collect_map] at here
    obtain ⟨kept, filtered, rfl⟩ := map_eq_some_iff.mp here
    rw [(Pull.collect_filter filtered).2, ih tail]
    rfl

private theorem equality_swap (l r : Row) :
    (((equality a b).evaluate (some l) (some r)).map valueAsBool == some true) =
      (((equality b a).evaluate (some r) (some l)).map valueAsBool == some true) := by
  have turn {a b : Nat} {l r : Row}
      (holds : ((equality a b).evaluate (some l) (some r)).map valueAsBool = some true) :
      ((equality b a).evaluate (some r) (some l)).map valueAsBool = some true := by
    obtain ⟨v, evaluated, isTrue⟩ := map_eq_some_iff.mp holds
    obtain ⟨x, y, readLeft, readRight, alike⟩ := alike_of_comparison evaluated isTrue
    exact comparison_of_alike readRight readLeft alike.symm
  rw [Bool.eq_iff_iff, beq_iff_eq, beq_iff_eq]
  exact ⟨turn, turn⟩

theorem nestedLoopJoin_swap
    (drained : (nestedLoopJoin left right (equality a b)).collect = some rows)
    (drained' : (nestedLoopJoin right left (equality b a)).collect = some rows') :
    rows.length = rows'.length := by
  rw [nestedLoopJoin_collect drained, nestedLoopJoin_collect drained', (joinOn_comm ..).length_eq,
    length_joinOn _ _ (· ++ ·), joinOn_congr (fun r _ l _ => equality_swap l r) fun _ _ _ _ _ => rfl]

variable {partitioning : Partitioning}

private theorem hashJoin_collect {leftKey rightKey : Expression}
    {buildLeftSide : Bool}
    (drained : (hashJoin partitioning left right leftKey rightKey buildLeftSide).collect =
      some rows) :
    ∃ l r, keyed leftKey left.items = some l ∧ keyed rightKey right.items = some r ∧
      rows.length = if partitioning.batches = 0 then 0 else (textPairs l r).length := by
  unfold hashJoin Pull.drain at drained
  cases leftRows : left.collect with
  | none =>
    rw [leftRows] at drained
    cases drained
  | some ls =>
    cases rightRows : right.collect with
    | none =>
      simp only [leftRows, rightRows] at drained
      cases drained
    | some rs =>
      simp only [leftRows, rightRows] at drained
      rw [Pull.collect_some leftRows, Pull.collect_some rightRows]
      split at drained
      · rename_i l r isLeft isRight
        refine ⟨l, r, isLeft, isRight, ?_⟩
        rw [Pull.collect_ofList] at drained
        cases drained
        by_cases none_ : partitioning.batches = 0
        · rw [if_pos none_]
          simp [probeBatches, none_]
        · rw [if_neg none_]
          exact (probeBatches_perm (Nat.pos_of_ne_zero none_) buildLeftSide l r).length_eq
      · cases drained

theorem hashJoin_swap {leftKey rightKey : Expression}
    {side side' : Bool}
    (drained : (hashJoin partitioning left right leftKey rightKey side).collect = some rows)
    (drained' : (hashJoin partitioning right left rightKey leftKey side').collect = some rows') :
    rows.length = rows'.length := by
  obtain ⟨l, r, isLeft, isRight, count⟩ := hashJoin_collect drained
  obtain ⟨r', l', isRight', isLeft', count'⟩ := hashJoin_collect drained'
  rw [isLeft] at isLeft'
  rw [isRight] at isRight'
  cases isLeft'
  cases isRight'
  have same : (textPairs l r).length = (textPairs r l).length := by
    rw [textPairs, textPairs, (joinOn_comm ..).length_eq,
      length_joinOn _ _ fun x y => x.2 ++ y.2,
      joinOn_congr (fun _ _ _ _ => Bool.beq_comm) fun _ _ _ _ _ => rfl]
  rw [count, count', same]

theorem mirrored_count {catalog : CatalogManager}
    {query : OptimizerQuery} {node node' : JoinNode} {outer inner : BasePath}
    (algorithm : node.joinType = .nestedLoop ∨ node.joinType = .hashJoin)
    (sameType : node'.joinType = node.joinType)
    (samePredicate : node'.joinPredicate = node.joinPredicate)
    (apart : inner.relationId ≠ outer.relationId)
    (between : node.joinPredicate ∈
      getJoinsBetweenSubsetAndRelation query [outer.relationId] inner.relationId)
    {exec exec' : Pull Row}
    (built : (PhysicalPath.join node (.base outer) (.base inner)).buildExecutor partitioning
      catalog = some exec)
    (built' : (PhysicalPath.join node' (.base inner) (.base outer)).buildExecutor partitioning
      catalog = some exec')
    (drained : exec.collect = some rows) (drained' : exec'.collect = some rows') :
    rows.length = rows'.length := by
  have between' : node.joinPredicate ∈
      getJoinsBetweenSubsetAndRelation query [inner.relationId] outer.relationId := by
    have links := List.mem_filter.mp between
    have test := links.2
    refine List.mem_filter.mpr ⟨links.1, ?_⟩
    simp only [List.contains_eq_mem, List.mem_singleton, Bool.and_eq_true, Bool.or_eq_true,
      decide_eq_true_eq, beq_iff_eq, Bool.not_eq_true', decide_eq_false_iff_not] at test ⊢
    grind
  have fresh : inner.relationId ∉ (PhysicalPath.base outer).relations := by
    simpa [PhysicalPath.relations] using apart
  have fresh' : outer.relationId ∉ (PhysicalPath.base inner).relations := by
    simpa [PhysicalPath.relations] using apart.symm
  have columns := @columns_relations _ _ [outer.relationId] _ fresh between
  have swapped : outerColumn [inner.relationId] node.joinPredicate =
        innerColumn [outer.relationId] node.joinPredicate ∧
      innerColumn [inner.relationId] node.joinPredicate =
        outerColumn [outer.relationId] node.joinPredicate := by
    unfold outerColumn innerColumn
    rcases joinsBetween_sides between with ⟨inside, isInner⟩ | ⟨_, isInner⟩
    · have outside : node.joinPredicate.leftRelationId ∉ [inner.relationId] := by
        rw [List.mem_singleton.mp inside]
        simpa using apart.symm
      rw [if_pos inside, if_pos inside, if_neg outside, if_neg outside]
      exact ⟨rfl, rfl⟩
    · have outside : node.joinPredicate.leftRelationId ∉ [outer.relationId] := by
        rw [isInner]
        simpa using apart
      have inside := List.mem_singleton.mpr isInner
      rw [if_neg outside, if_neg outside, if_pos inside, if_pos inside]
      exact ⟨rfl, rfl⟩
  simp only [PhysicalPath.buildExecutor, bind_eq_bind, bind_eq_some_iff] at built built'
  obtain ⟨left, builtLeft, right, builtRight, built⟩ := built
  obtain ⟨right', builtRight', left', builtLeft', built'⟩ := built'
  rw [builtLeft] at builtLeft'
  rw [builtRight] at builtRight'
  cases builtLeft'
  cases builtRight'
  rw [joinExecutor, joinSides_eq fresh between] at built
  rw [joinExecutor, samePredicate, joinSides_eq fresh' between', sameType] at built'
  have atOuter (c : ColumnRef) (inside : c.1 = outer.relationId) :
      (PhysicalPath.base outer).relationOffset c.1 = some 0 := by
    simp [PhysicalPath.relationOffset, inside]
  have atInner (c : ColumnRef) (inside : c.1 = inner.relationId) :
      (PhysicalPath.base inner).relationOffset c.1 = some 0 := by
    simp [PhysicalPath.relationOffset, inside]
  simp only [PhysicalPath.relations, atOuter _ (List.mem_singleton.mp columns.1),
    atInner _ columns.2, bind_eq_bind, Option.bind_some, Nat.zero_add] at built
  simp only [PhysicalPath.relations, swapped, atOuter _ (List.mem_singleton.mp columns.1),
    atInner _ columns.2, bind_eq_bind, Option.bind_some, Nat.zero_add] at built'
  rcases algorithm with isNested | isHash
  · simp only [isNested, Option.some.injEq] at built built'
    subst built built'
    exact nestedLoopJoin_swap drained drained'
  · simp only [isHash, Option.some.injEq] at built built'
    subst built built'
    exact hashJoin_swap drained drained'

end Mirrored

theorem collectLogicalQuery_output (source : LogicalPlanNode) (output : BoundOutput) :
    collectLogicalQuery (outputLogical source output) = collectLogicalQuery source := by
  unfold outputLogical
  simp only
  split <;> split <;> rfl

theorem collectLogicalQuery_table (table : TableBinding) (predicate : Option Expression) :
    collectLogicalQuery (tableLogical table predicate) = some ⟨[table.relationId],
      predicate.toList.flatMap (collectConjunctiveBasePredicates table.relationId), []⟩ := by
  cases predicate <;> simp [tableLogical, collectLogicalQuery]

theorem resolvedRelation_table (table : TableBinding) (predicate : Option Expression) :
    resolvedRelation (tableLogical table predicate) = table.relationId := by
  cases predicate <;> rfl

theorem selectQuery_join {catalog : CatalogManager} {ast : SelectStatementAST}
    {stmt : BoundSelectStatement} (bound : bindSelect catalog ast = some stmt)
    (joined : stmt.hasJoin = true) {query : OptimizerQuery}
    (planned : selectQuery stmt = some query) :
    ∃ source output first second pushdown firstPredicate secondPredicate keys,
      JoinSource catalog ast source first second pushdown firstPredicate secondPredicate keys ∧
      stmt.logicalPlan = outputLogical source.logicalPlan output ∧
      stmt.tables = [first, second] ∧ stmt.sourceSchema = first.schema ++ second.schema ∧
      stmt.wherePredicate = source.wherePredicate ∧
      (∀ r, r ∈ query.relations ↔ r = first.relationId ∨ r = second.relationId) ∧
      query.predicates =
        firstPredicate.toList.flatMap (collectConjunctiveBasePredicates first.relationId) ++
          secondPredicate.toList.flatMap (collectConjunctiveBasePredicates second.relationId) ∧
      query.joins = [⟨first.relationId, keys.1, second.relationId, keys.2⟩] := by
  obtain ⟨source, output, _, sourceBound, _, tables, schema, hasJoin, predicate, _, _, _, _, _, _,
    plan⟩ := bindSelect_facts bound
  rcases bindSource_cases sourceBound with ⟨table, single⟩ | ⟨first, second, pushdown,
    firstPredicate, secondPredicate, keys, join⟩
  · rw [hasJoin, single.joined] at joined
    cases joined
  refine ⟨source, output, first, second, pushdown, firstPredicate, secondPredicate, keys, join, plan,
    tables.trans join.tables, schema.trans join.schema, predicate, ?_⟩
  obtain ⟨q, collected, rfl⟩ := Option.map_eq_some_iff.mp planned
  rw [plan, collectLogicalQuery_output, join.plan, collectLogicalQuery,
    collectLogicalQuery_table, collectLogicalQuery_table] at collected
  simp only [Option.bind_eq_bind, Option.bind_some, resolvedRelation_table] at collected
  split at collected
  · cases collected
  · cases collected
    refine ⟨fun r => ?_, rfl, rfl⟩
    rw [List.mem_dedup, (List.perm_insertionSort _ _).mem_iff]
    simp

section Positions

/-- The table and the column of a position of the source, as the binder has fixed them. -/
def boundColumnRef (tables : List TableBinding) (position : Nat) : Option ColumnRef :=
  (absoluteSourceIndexToOrderKey tables position).map fun key => (key.relationId, key.columnIdx)

/-- Each position of the source row that the statement reads is the position the plan has for
the column it was bound to. -/
def ReadsBoundColumns (stmt : BoundSelectStatement) (path : PhysicalPath) : Prop :=
  ∀ i ∈ sourceColumns stmt, ∃ c, boundColumnRef stmt.tables i = some c ∧
    ∃ offset, path.relationOffset c.1 = some offset ∧ offset + c.2 = i

/-- The plan joins the tables in the order of the `FROM` clause. -/
def FromLeft (stmt : BoundSelectStatement) (path : PhysicalPath) : Prop :=
  path.relations = stmt.tables.map (·.relationId)

/-- What the statement evaluates on each source row. -/
def seen (stmt : BoundSelectStatement) (rows : Pull Row) : Pull (List (Option Value)) :=
  rows.map fun row => (sourceExprs stmt).map (·.evaluateRow row)

/-- The source rows of the plan stand so to those of every plan with the `FROM` table as the left
input, over the same contents. -/
def AgainstFromLeft (partitioning : Partitioning) (catalog : CatalogManager)
    (query : OptimizerQuery) (stmt : BoundSelectStatement) (path : PhysicalPath)
    (agree : Pull Row → Pull Row → Prop) : Prop :=
  ∀ path' rows rows', Optimized catalog query path' → FromLeft stmt path' →
    sourceRows partitioning catalog stmt path = some rows →
    sourceRows partitioning catalog stmt path' = some rows' → agree rows rows'

/-- The executor is given, in whatever order, what it is given when the `FROM` table is the left
input. -/
def ReturnsFromLeftRows (partitioning : Partitioning) (catalog : CatalogManager)
    (query : OptimizerQuery) (stmt : BoundSelectStatement) (path : PhysicalPath) : Prop :=
  FromLeft stmt path ∨ AgainstFromLeft partitioning catalog query stmt path fun rows rows' =>
    (seen stmt rows).multiset = (seen stmt rows').multiset

/-- The two streams have as many rows, or fail both. -/
def AsMany (rows rows' : Pull Row) : Prop :=
  rows.collect.map List.length = rows'.collect.map List.length

variable {stmt : BoundSelectStatement}

theorem seen_multiset_iff {width : Nat}
    (reads : ∀ e ∈ sourceExprs stmt, ReadsWithin width e) (nothing : sourceColumns stmt = [])
    (rows rows' : Pull Row) :
    (seen stmt rows).multiset = (seen stmt rows').multiset ↔ AsMany rows rows' := by
  have constant (row : Row) : (sourceExprs stmt).map (·.evaluateRow row) =
      (sourceExprs stmt).map (·.evaluateRow []) := by
    refine List.map_congr_left fun e member => (reads e member).evaluateRow fun i read => ?_
    have isRead : i ∈ sourceColumns stmt :=
      sourceColumns_eq stmt ▸ List.mem_flatMap.mpr ⟨e, member, read⟩
    rw [nothing] at isRead
    cases isRead
  have counted (rows : Pull Row) : (seen stmt rows).multiset =
      rows.collect.map fun l => Multiset.replicate l.length
        ((sourceExprs stmt).map (·.evaluateRow [])) := by
    rw [seen, funext constant, Pull.multiset, Pull.collect_map, Option.map_map]
    simp [Function.comp_def, Multiset.coe_replicate]
  rw [counted, counted, AsMany]
  cases rows.collect with
  | none => cases rows'.collect <;> simp
  | some l =>
    cases rows'.collect with
    | none => simp
    | some l' =>
      simp only [Option.map_some, Option.some.injEq]
      exact (Multiset.replicate_left_injective _).eq_iff

variable {first second : TableBinding}

theorem boundColumnRef_first (firstOffset : first.offset = 0) {i : Nat}
    (inside : i < first.schema.length) :
    boundColumnRef [first, second] i = some (first.relationId, i) := by
  simp [boundColumnRef, absoluteSourceIndexToOrderKey, firstOffset, inside]

theorem boundColumnRef_second (firstOffset : first.offset = 0)
    (secondOffset : second.offset = first.schema.length) {i : Nat}
    (beyond : first.schema.length ≤ i) (inside : i < first.schema.length + second.schema.length) :
    boundColumnRef [first, second] i = some (second.relationId, i - first.schema.length) := by
  have notFirst : ¬ i < first.schema.length := Nat.not_lt.mpr beyond
  simp [boundColumnRef, absoluteSourceIndexToOrderKey, firstOffset, secondOffset, notFirst,
    beyond, inside]

variable {catalog : CatalogManager}

theorem residual_reads {ast : SelectStatementAST} {source : BoundSource}
    {pushdown : Pushdown} {firstPredicate secondPredicate : Option Expression} {keys : Nat × Nat}
    (join : JoinSource catalog ast source first second pushdown firstPredicate secondPredicate keys)
    {e : Expression} (isWhere : source.wherePredicate = some e) :
    ReadsWithin (first.schema ++ second.schema).length e := by
  obtain ⟨parts, bound, joinedParts⟩ := Option.map_eq_some_iff.mp join.residual
  rw [isWhere] at joinedParts
  refine conjoin_reads joinedParts fun part member => ?_
  obtain ⟨conj, _, isBound⟩ := mem_of_mapM_some bound member
  obtain ⟨info, found, rfl⟩ := Option.map_eq_some_iff.mp isBound
  exact bindSourceExpr_reads found

private theorem sourceRows_join {partitioning : Partitioning}
    {node : JoinNode} {left right : PhysicalPath}
    (joined : stmt.hasJoin = true) {rows : Pull Row}
    (built : sourceRows partitioning catalog stmt (.join node left right) = some rows) :
    ∃ exec, (PhysicalPath.join node left right).buildExecutor partitioning catalog = some exec ∧
      rows = withFilter exec stmt.wherePredicate := by
  simp only [sourceRows, singleBaseTable, joined, if_true] at built
  obtain ⟨exec, isExec, rfl⟩ := map_eq_some_iff.mp built
  exact ⟨exec, isExec, rfl⟩

private theorem withFilter_count {width : Nat}
    (reads : ∀ e ∈ sourceExprs stmt, ReadsWithin width e) (nothing : sourceColumns stmt = []) :
    ∃ keeps : Bool, ∀ exec l, (withFilter exec stmt.wherePredicate).collect = some l →
      ∃ all, exec.collect = some all ∧ l.length = if keeps then all.length else 0 := by
  cases isWhere : stmt.wherePredicate with
  | none => exact ⟨true, fun exec l drained => ⟨l, drained, rfl⟩⟩
  | some e =>
    have listed : e ∈ sourceExprs stmt := by simp [sourceExprs, isWhere]
    have constant (row : Row) : condition e row = condition e [] := by
      rw [condition, condition, (reads e listed).evaluateRow fun i read => ?_]
      have isRead : i ∈ sourceColumns stmt :=
        sourceColumns_eq stmt ▸ List.mem_flatMap.mpr ⟨e, listed, read⟩
      rw [nothing] at isRead
      cases isRead
    refine ⟨condition e [] == some true, fun exec l drained => ?_⟩
    obtain ⟨all, rfl⟩ := Pull.collect_filter drained
    refine ⟨exec.items, all, ?_⟩
    simp only [constant]
    cases condition e [] == some true <;> simp

private theorem positions_iff {ast : SelectStatementAST}
    {source : BoundSource} {pushdown : Pushdown}
    {firstPredicate secondPredicate : Option Expression} {keys : Nat × Nat}
    (join : JoinSource catalog ast source first second pushdown firstPredicate secondPredicate keys)
    (tables : stmt.tables = [first, second]) (different : first.relationId ≠ second.relationId)
    (inside : ∀ i ∈ sourceColumns stmt, i < first.schema.length + second.schema.length)
    {query : OptimizerQuery} {path : PhysicalPath} {node : JoinNode} {outer inner : BasePath}
    (pair : PairPlan catalog query path node outer inner)
    (sides : (outer.relationId = first.relationId ∧ inner.relationId = second.relationId) ∨
      (outer.relationId = second.relationId ∧ inner.relationId = first.relationId)) :
    ReadsBoundColumns stmt path ↔ FromLeft stmt path ∨ sourceColumns stmt = [] := by
  obtain ⟨firstRel, firstFound, firstSchema⟩ := join.firstRelation
  obtain ⟨secondRel, secondFound, secondSchema⟩ := join.secondRelation
  rw [pair.shape, FromLeft, tables]
  rcases sides with ⟨isOuter, isInner⟩ | ⟨isOuter, isInner⟩
  · -- The `FROM` table is on the left.
    have width : outer.outputSchema.length = first.schema.length := by
      rw [retained_schema pair.outerRetained (isOuter ▸ firstFound), firstSchema]
    refine ⟨fun _ => .inl (by simp [PhysicalPath.relations, isOuter, isInner]), fun _ => ?_⟩
    intro i member
    by_cases inFirst : i < first.schema.length
    · refine ⟨_, tables ▸ boundColumnRef_first join.firstOffset inFirst, 0, ?_, Nat.zero_add i⟩
      simp [PhysicalPath.relationOffset, isOuter, isInner, different]
    · have beyond := Nat.not_lt.mp inFirst
      refine ⟨_, tables ▸ boundColumnRef_second join.firstOffset join.secondOffset beyond
        (inside i member), first.schema.length, ?_, Nat.add_sub_cancel' beyond⟩
      simp [PhysicalPath.relationOffset, PhysicalPath.outputSchema, isInner, width]
  · -- The joined table is on the left.
    have width : outer.outputSchema.length = second.schema.length := by
      rw [retained_schema pair.outerRetained (isOuter ▸ secondFound), secondSchema]
    have swapped : (PhysicalPath.join node (.base outer) (.base inner)).relations ≠
        [first, second].map (·.relationId) := by
      simp [PhysicalPath.relations, isOuter, different.symm]
    constructor
    · intro reads
      refine .inr (List.eq_nil_iff_forall_not_mem.mpr fun i member => ?_)
      obtain ⟨c, isBound, offset, lies, position⟩ := reads i member
      rw [tables] at isBound
      have firstPos := Nat.zero_lt_of_lt join.firstKey
      have secondPos := Nat.zero_lt_of_lt join.secondKey
      by_cases inFirst : i < first.schema.length
      · rw [boundColumnRef_first join.firstOffset inFirst] at isBound
        cases isBound
        simp only [PhysicalPath.relationOffset, PhysicalPath.outputSchema, isInner, if_true,
          Option.some.injEq, width] at lies
        omega
      · have beyond := Nat.not_lt.mp inFirst
        rw [boundColumnRef_second join.firstOffset join.secondOffset beyond (inside i member)]
          at isBound
        cases isBound
        simp only [PhysicalPath.relationOffset, isInner, different.symm, if_false, isOuter,
          if_true, Option.some.injEq] at lies
        omega
    · rintro (isLeft | nothing)
      · exact absurd isLeft swapped
      · intro i member
        rw [nothing] at member
        cases member

/-- `(1, 2)` in table `t`, `(2, 7)` in table `u`. -/
def pairCatalog : CatalogManager where
  relations := [pairRelation 1 [(1, 2)], pairRelation 2 [(2, 7)]]
  names := [("t", 1), ("u", 2)]

/-- `SELECT t.a FROM t JOIN u ON t.b = u.a`. -/
def pairSelect : SelectStatementAST where
  distinct := false
  selectItems := [.item (.columnRef "t" "a") ""]
  fromTable := ⟨"t", "t"⟩
  joinTable := some ⟨"u", "u"⟩
  joinPredicate := some (.binary (.compare .eq) (.columnRef "t" "b") (.columnRef "u" "a"))
  wherePredicate := none
  groupByExprs := []
  orderByItems := []
  limit := none

def pairQuery : OptimizerQuery where
  relations := [1, 2]
  predicates := []
  joins := [⟨1, 1, 2, 0⟩]
  requiredOrder := []
  groupOrder := []
  hasAggregate := false
  limitCount := none

def firstScan : BasePath := seqCandidate (pairRelation 1 [(1, 2)]) [] ⟨0⟩

def secondScan : BasePath := seqCandidate (pairRelation 2 [(2, 7)]) [] ⟨0⟩

def pairPath (outer inner : BasePath) : PhysicalPath :=
  .join (nestedNode (.base outer) ⟨1, 1, 2, 0⟩) (.base outer) (.base inner)

theorem firstScan_retained : Retained pairCatalog pairQuery firstScan :=
  ⟨_, rfl, ⟨0⟩, List.mem_cons_self⟩

theorem secondScan_retained : Retained pairCatalog pairQuery secondScan :=
  ⟨_, rfl, ⟨0⟩, List.mem_cons_self⟩

theorem pairPath_optimized : Optimized pairCatalog pairQuery (pairPath firstScan secondScan) ∧
    Optimized pairCatalog pairQuery (pairPath secondScan firstScan) := by
  have complete : ∀ relationId ∈ pairQuery.relations, relationId ∈ [1] ++ [2] ∧
      relationId ∈ [2] ++ [1] := by decide
  constructor
  · exact ⟨.join (.base (by decide) firstScan_retained) (by decide) (by decide)
      secondScan_retained (by decide) (nestedNode_tried _ _ _ _),
      fun relationId listed => (complete relationId listed).1⟩
  · exact ⟨.join (.base (by decide) secondScan_retained) (by decide) (by decide)
      firstScan_retained (by decide) (nestedNode_tried _ _ _ _),
      fun relationId listed => (complete relationId listed).2⟩

def firstBinding : TableBinding := ⟨"t", "t", 1, [⟨"a", .int32⟩, ⟨"b", .int32⟩], 0⟩

def secondBinding : TableBinding := ⟨"u", "u", 2, [⟨"a", .int32⟩, ⟨"b", .int32⟩], 2⟩

def pairStatement : BoundSelectStatement where
  tables := [firstBinding, secondBinding]
  sourceSchema := firstBinding.schema ++ secondBinding.schema
  hasJoin := true
  wherePredicate := none
  hasAggregate := false
  distinct := false
  dedupViaGroupBy := false
  requiresDedup := false
  orderByOnOutput := false
  groupByExprs := []
  aggTypes := []
  aggInputExprs := []
  aggregateSchema := []
  projectExprs := [.column .single 0]
  outputSchema := [⟨"a", .int32⟩]
  orderBy := []
  limit := none
  logicalPlan := .project (.join (.get 1) (.get 2)
    (.comparison .eq (.column .left 1) (.column .right 0)))

def plainPartitioning : Partitioning := ⟨fun _ => 0, 1⟩

/-- `SELECT 1 FROM t JOIN u ON t.b = u.a`, which reads no position of its source. -/
def oneSelect : SelectStatementAST :=
  { pairSelect with selectItems := [.item (.literal (.int32 1)) "one"] }

def oneStatement : BoundSelectStatement :=
  { pairStatement with
    projectExprs := [.constant (.int32 1)]
    outputSchema := [⟨"one", .int32⟩] }

end Positions

end GraniteDb.Sql.JoinLayout
