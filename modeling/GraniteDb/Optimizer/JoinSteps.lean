/- What one join step of a plan does, and the layout of the rows of a whole plan. -/

import GraniteDb.Optimizer.BaseAccess

namespace GraniteDb.Optimizer.JoinSteps

open Common.Types Common.Value Access.IndexScan Catalog.CatalogManager Execution.Expressions
open Execution.Operators Lib.Pull Optimizer.PhysicalPath Optimizer.PlanEnumerator
open Optimizer.BaseAccess
open Option (bind_eq_bind bind_eq_some_iff map_eq_some_iff)

@[simp] theorem columnExpr_evaluateRow (columnIdx : Nat) (row : Row) :
    (columnExpr columnIdx).evaluateRow row = row[columnIdx]? := rfl

/-- How a join of a kind takes the key `a` of an outer row and the key `b` of an inner row for the
same. Where it goes by a further key, that is `among` the keys of the outer rows. -/
inductive KeysMet (joinType : JoinAlgorithmType) (usesMemoize : Bool) (among : Value → Prop)
    (a b : Value) : Prop
  | nested : joinType = .nestedLoop → Alike a b → KeysMet joinType usesMemoize among a b
  | hashed : joinType = .hashJoin → serializeValueForHash a = serializeValueForHash b →
      KeysMet joinType usesMemoize among a b
  | merged {k : Value} : joinType = .mergeJoin → among k → Alike a k → Alike b k →
      KeysMet joinType usesMemoize among a b
  | looked : joinType = .indexNestedLoop → compareEncoded b a = some .eq →
      KeysMet joinType usesMemoize among a b
  | memoized {k : Value} : joinType = .indexNestedLoop → usesMemoize = true → among k →
      serializeValueForHash a = serializeValueForHash k → compareEncoded b k = some .eq →
      KeysMet joinType usesMemoize among a b

theorem KeysMet.mono {joinType : JoinAlgorithmType} {usesMemoize : Bool}
    {among among' : Value → Prop} {a b : Value} (met : KeysMet joinType usesMemoize among a b)
    (sub : ∀ k, among k → among' k) : KeysMet joinType usesMemoize among' a b := by
  cases met with
  | nested algorithm alike => exact .nested algorithm alike
  | hashed algorithm text => exact .hashed algorithm text
  | merged algorithm isKey sameLeft sameRight =>
    exact .merged algorithm (sub _ isKey) sameLeft sameRight
  | looked algorithm same => exact .looked algorithm same
  | memoized algorithm memoize isKey text same =>
    exact .memoized algorithm memoize (sub _ isKey) text same

def KeyOf (outer : List Row) (leftCol : Nat) (k : Value) : Prop :=
  ∃ l ∈ outer, l[leftCol]? = some k

theorem alike_nonNull {a b : Value} (alike : Alike a b) : a.isNull = false ∧ b.isNull = false :=
  compareValues_nonNull alike

theorem alike_of_comparison {leftCol rightCol : Nat} {l r : Row} {v : Value}
    (evaluated : (Expression.comparison .eq (.column .left leftCol)
      (.column .right rightCol)).evaluate (some l) (some r) = some v)
    (isTrue : valueAsBool v = true) :
    ∃ a b, l[leftCol]? = some a ∧ r[rightCol]? = some b ∧ Alike a b := by
  simp only [Expression.evaluate, bind_eq_bind, Option.bind_some,
    bind_eq_some_iff] at evaluated
  obtain ⟨a, readLeft, b, readRight, outcome⟩ := evaluated
  refine ⟨a, b, readLeft, readRight, ?_⟩
  unfold evaluateComparison at outcome
  split at outcome
  · cases outcome
    cases isTrue
  · obtain ⟨o, compared, rfl⟩ := map_eq_some_iff.mp outcome
    have same : o = .eq := by simpa [valueAsBool, ComparisonType.holds] using isTrue
    rw [same] at compared
    exact compared

theorem comparison_of_alike {leftCol rightCol : Nat} {l r : Row} {a b : Value}
    (readLeft : l[leftCol]? = some a) (readRight : r[rightCol]? = some b) (alike : Alike a b) :
    ((Expression.comparison .eq (.column .left leftCol) (.column .right rightCol)).evaluate
      (some l) (some r)).map valueAsBool = some true := by
  have nonNull := alike_nonNull alike
  have compared : compareValues a b = some .eq := alike
  simp [Expression.evaluate, readLeft, readRight, evaluateComparison, nonNull, compared,
    ComparisonType.holds, valueAsBool]

section Inner

variable {rel : RelationCatalogEntry}

theorem mem_inner {columnIdx : Nat} {entry : IndexCatalogEntry}
    (onColumn : rel.findIndexOnColumn columnIdx = some entry) {index : BTreeIndex}
    (btree : entry.btreeIndex = some index) {key : Value} {rows : List Row}
    (looked : lookupRows rel.heap index key = some rows) {r : Row} (member : r ∈ rows) :
    (∃ rid, (rid, r) ∈ rel.heap) ∧ ∃ b, r[columnIdx]? = some b ∧
      compareEncoded b key = some .eq := by
  obtain ⟨e, inIndex, found, same⟩ := mem_lookupRows looked member
  have single : entry.keyColumns.map (·.columnIdx) = [columnIdx] := by
    simpa [IndexCatalogEntry.matchesSingleColumn] using List.find?_some onColumn
  have hasKey := hasKey_of_entry (List.mem_of_find?_eq_some onColumn)
    (entry_of_btree btree inIndex) found
  refine ⟨⟨e.rid, mem_of_getTuple found⟩, e.key, ?_, same⟩
  have columns := congrArg (List.map fun columnIdx => r[columnIdx]?) single
  rw [List.map_map] at columns
  have key' : entry.keyColumns.map (fun col => r[col.columnIdx]?) = [some e.key] := hasKey
  have shape := columns.symm.trans key'
  simpa using shape

theorem stored_length {rid : RID} {row : Row} (stored : (rid, row) ∈ rel.heap) :
    row.length = rel.schema.length :=
  (rel.fits _ stored).length

end Inner

section Step

/-- What a join step promises of the inner part of its rows: it comes from the inner executor, or is
stored in the inner relation and the joined row meets the inner access's residual predicates. -/
inductive FromInner (catalog : CatalogManager) (node : JoinNode) (left : PhysicalPath)
    (right : BasePath) (rightExec : Pull Row) (rightCol : Nat) (row r : Row) : Prop
  | pulled : r ∈ rightExec.items → FromInner catalog node left right rightExec rightCol row r
  | fetched {rel : RelationCatalogEntry} {rid : RID} {b : Value} :
      node.joinType = .indexNestedLoop → catalog.getRelation right.relationId = some rel →
      (rid, r) ∈ rel.heap → r[rightCol]? = some b → b.isNull = false →
      (∀ p ∈ right.accessSpec.residualPredicates, ∃ offset,
        (PhysicalPath.join node left (.base right)).relationOffset p.relationId = some offset ∧
          SatisfiesAt p (offset + p.columnIdx) row) →
      FromInner catalog node left right rightExec rightCol row r

structure JoinedRow (catalog : CatalogManager) (node : JoinNode) (left : PhysicalPath)
    (right : BasePath) (leftExec rightExec : Pull Row) (leftOffset : Nat) (row l r : Row) :
    Prop where
  outer : l ∈ leftExec.items
  shape : row = l ++ r
  keys : ∃ a b,
    l[leftOffset + (joinSides node.joinPredicate left (.base right)).leftColumnIdx]? = some a ∧
    r[(joinSides node.joinPredicate left (.base right)).rightColumnIdx]? = some b ∧
    KeysMet node.joinType node.usesMemoize (KeyOf leftExec.items
      (leftOffset + (joinSides node.joinPredicate left (.base right)).leftColumnIdx)) a b
  inner : FromInner catalog node left right rightExec
    (joinSides node.joinPredicate left (.base right)).rightColumnIdx row r

variable {row : Row} {right : BasePath}

theorem mem_withFilter_joined {child : Pull Row} {predicates : List QueryPredicateSpec}
    {relationOffset : Nat → Option Nat} {joinedFilter : Option Expression}
    (built : buildJoinedTuplePredicateExpr predicates relationOffset = some joinedFilter)
    (member : row ∈ (withFilter child joinedFilter).items) :
    row ∈ child.items ∧ ∀ p ∈ predicates, ∃ offset, relationOffset p.relationId = some offset ∧
      SatisfiesAt p (offset + p.columnIdx) row := by
  obtain ⟨parts, made, rfl⟩ := map_eq_some_iff.mp built
  obtain ⟨inChild, accepted⟩ := mem_withFilter_conjoin member
  refine ⟨inChild, fun p inPredicates => ?_⟩
  clear member inChild built
  induction predicates generalizing parts with
  | nil => cases inPredicates
  | cons q rest ih =>
    simp only [List.mapM_cons, bind_eq_bind, bind_eq_some_iff] at made
    obtain ⟨part, first, tail, inner, same⟩ := made
    cases same
    obtain ⟨offset, found, rfl⟩ := map_eq_some_iff.mp first
    rcases List.mem_cons.mp inPredicates with rfl | later
    · exact ⟨offset, found, accepted _ List.mem_cons_self⟩
    · exact ih tail inner (fun part member => accepted part (List.mem_cons_of_mem _ member)) later

theorem base_offset {relationId offset : Nat}
    (found : (PhysicalPath.base right).relationOffset relationId = some offset) :
    relationId = right.relationId ∧ offset = 0 := by
  simp only [PhysicalPath.relationOffset] at found
  split at found
  · rename_i same
    exact ⟨same, (Option.some.inj found).symm⟩
  · cases found

private theorem mem_indexJoin {catalog : CatalogManager} {node : JoinNode} {left : PhysicalPath}
    {leftExec rightExec exec : Pull Row} {leftCol rightCol : Nat}
    (algorithm : node.joinType = .indexNestedLoop)
    (built : indexJoin catalog node left right leftExec leftCol rightCol = some exec)
    (member : row ∈ exec.items) :
    ∃ l ∈ leftExec.items, ∃ r, row = l ++ r ∧
      (∃ a b, l[leftCol]? = some a ∧ r[rightCol]? = some b ∧
        KeysMet node.joinType node.usesMemoize (KeyOf leftExec.items leftCol) a b) ∧
      FromInner catalog node left right rightExec rightCol row r := by
  simp only [indexJoin, bind_eq_bind, bind_eq_some_iff] at built
  obtain ⟨rel, found, entry, onColumn, index, btree, joinedFilter, filtered, same⟩ := built
  cases same
  obtain ⟨joined, residual⟩ := mem_withFilter_joined filtered member
  split at joined
  · rename_i memoize
    obtain ⟨l, outer, l', outer', key, key', read, read', text, rows, looked, r, inRows, shape⟩ :=
      mem_memoizedIndexNestedLoopJoin joined
    obtain ⟨⟨rid, stored⟩, b, column, same⟩ := mem_inner onColumn btree looked inRows
    exact ⟨l, outer, r, shape,
      ⟨key, b, read, column, .memoized algorithm memoize ⟨l', outer', read'⟩ text same⟩,
      .fetched algorithm found stored column
        (alike_nonNull (compareValues_of_compareEncoded same)).1 residual⟩
  · obtain ⟨l, outer, key, read, rows, looked, r, inRows, shape⟩ := mem_indexNestedLoopJoin joined
    obtain ⟨⟨rid, stored⟩, b, column, same⟩ := mem_inner onColumn btree looked inRows
    exact ⟨l, outer, r, shape, ⟨key, b, read, column, .looked algorithm same⟩,
      .fetched algorithm found stored column
        (alike_nonNull (compareValues_of_compareEncoded same)).1 residual⟩

theorem mem_joinExecutor {partitioning : Partitioning} {catalog : CatalogManager} {node : JoinNode}
    {left : PhysicalPath} {leftExec rightExec exec : Pull Row}
    (built : joinExecutor partitioning catalog node left (.base right) leftExec rightExec = some
      exec)
    (member : row ∈ exec.items) :
    ∃ leftOffset,
      left.relationOffset (joinSides node.joinPredicate left (.base right)).leftRelationId =
        some leftOffset ∧
      ∃ l r, JoinedRow catalog node left right leftExec rightExec leftOffset row l r := by
  simp only [joinExecutor, bind_eq_bind, bind_eq_some_iff] at built
  obtain ⟨leftOffset, leftFound, rightOffset, rightFound, built⟩ := built
  obtain ⟨_, rfl⟩ := base_offset rightFound
  rw [Nat.zero_add] at built
  refine ⟨leftOffset, leftFound, ?_⟩
  cases algorithm : node.joinType with
  | nestedLoop =>
    simp only [algorithm] at built
    cases built
    obtain ⟨l, outer, r, pulled, shape, v, evaluated, isTrue⟩ := mem_nestedLoopJoin member
    obtain ⟨a, b, readLeft, readRight, alike⟩ := alike_of_comparison evaluated isTrue
    exact ⟨l, r, outer, shape, ⟨a, b, readLeft, readRight, .nested algorithm alike⟩,
      .pulled pulled⟩
  | hashJoin =>
    simp only [algorithm] at built
    cases built
    obtain ⟨l, outer, r, pulled, shape, a, b, readLeft, readRight, text⟩ := mem_hashJoin member
    exact ⟨l, r, outer, shape, ⟨a, b, readLeft, readRight, .hashed algorithm text⟩,
      .pulled pulled⟩
  | mergeJoin =>
    simp only [algorithm] at built
    cases built
    obtain ⟨l, outer, r, pulled, shape, key, ⟨l', outer', read⟩, hasLeft, hasRight⟩ :=
      mem_mergeJoin member
    obtain ⟨a, readLeft, sameLeft⟩ := hasLeft
    obtain ⟨b, readRight, sameRight⟩ := hasRight
    have ofSorted {x : Row} {needsSort : Bool} {keys : List SortKeySpec}
        (sorted : x ∈ (if needsSort = true then sort leftExec keys else leftExec).items) :
        x ∈ leftExec.items := by
      split at sorted
      · exact mem_sort sorted
      · exact sorted
    have inner : r ∈ rightExec.items := by
      split at pulled
      · exact mem_sort pulled
      · exact mem_materialize pulled
    exact ⟨l, r, ofSorted outer, shape, ⟨a, b, readLeft, readRight,
      .merged algorithm ⟨l', ofSorted outer', read⟩ sameLeft sameRight⟩, .pulled inner⟩
  | indexNestedLoop =>
    simp only [algorithm] at built
    obtain ⟨l, outer, r, shape, keys, inner⟩ := mem_indexJoin algorithm built member
    exact ⟨l, r, outer, shape, keys, inner⟩

end Step

section Layout

variable {path : PhysicalPath} {catalog : CatalogManager} {query : OptimizerQuery}

theorem tryBuildJoinPaths_shape {left : PhysicalPath} {right : BasePath}
    {joinPred : QueryJoinPredicateSpec} {estimate : JoinEstimate}
    (tried : path ∈ tryBuildJoinPaths catalog left right joinPred estimate) :
    ∃ node, path = .join node left (.base right) ∧ node.joinPredicate = joinPred := by
  simp only [tryBuildJoinPaths, List.mem_append, List.mem_cons, List.not_mem_nil, or_false,
    List.mem_ite_nil_right] at tried
  rcases tried with (rfl | rfl | rfl) | ⟨_, rfl | ⟨_, rfl⟩⟩
  all_goals exact ⟨_, rfl, rfl⟩

theorem relationOffset_isSome {relationId : Nat} :
    (path.relationOffset relationId).isSome = true ↔ relationId ∈ path.relations := by
  induction path with
  | base b =>
    simp only [PhysicalPath.relationOffset, PhysicalPath.relations, List.mem_singleton]
    split <;> simp_all
  | join node left right ihLeft ihRight =>
    simp only [PhysicalPath.relationOffset, PhysicalPath.relations, List.mem_append]
    cases found : right.relationOffset relationId with
    | some offset =>
      have inRight := ihRight.mp (by rw [found]; rfl)
      simp [inRight]
    | none =>
      have notRight : relationId ∉ right.relations := fun inRight => by
        have isSome := ihRight.mpr inRight
        rw [found] at isSome
        cases isSome
      simp [notRight, ihLeft]

theorem candidate_facts {rel : RelationCatalogEntry} {predicates : List QueryPredicateSpec}
    {estRows : GraniteDb.Common.Double.Double} {path : BasePath}
    (candidate : path ∈ makeBaseCandidates rel predicates query estRows) :
    path.relationId = rel.relationId ∧ path.outputSchema = rel.schema ∧
      path.allPredicates = predicates := by
  rcases List.mem_cons.mp candidate with rfl | indexed
  · exact ⟨rfl, rfl, rfl⟩
  · obtain ⟨⟨entry, position⟩, _, made⟩ := List.mem_filterMap.mp indexed
    unfold indexCandidate at made
    simp only at made
    split at made
    · cases made
    · cases made
      exact ⟨rfl, rfl, rfl⟩

def WideRows (partitioning : Partitioning) (catalog : CatalogManager) (path : PhysicalPath) :
    Prop :=
  ∀ exec, path.buildExecutor partitioning catalog = some exec → ∀ row ∈ exec.items,
    row.length = path.outputSchema.length

theorem inner_stored {node : JoinNode} {left : PhysicalPath} {right : BasePath}
    (retained : Retained catalog query right) {rightExec : Pull Row}
    (built : right.buildExecutor catalog = some rightExec) {rightCol : Nat} {row r : Row}
    (inner : FromInner catalog node left right rightExec rightCol row r) :
    ∃ rel, catalog.getRelation right.relationId = some rel ∧ right.outputSchema = rel.schema ∧
      ∃ rid, (rid, r) ∈ rel.heap := by
  obtain ⟨rel, found, estRows, candidate⟩ := retained
  have schema := (candidate_facts candidate).2.1
  cases inner with
  | pulled member => exact ⟨rel, found, schema, (mem_buildExecutor candidate found built member).1⟩
  | fetched _ found' stored _ _ _ =>
    have same := found.symm.trans found'
    cases same
    exact ⟨rel, found, schema, _, stored⟩

theorem wideRows {partitioning : Partitioning} (enumerated : Enumerated catalog query path) :
    WideRows partitioning catalog path := by
  induction enumerated with
  | @base right _ retained =>
    intro exec built row member
    obtain ⟨rel, found, estRows, candidate⟩ := retained
    obtain ⟨⟨rid, stored⟩, _⟩ := mem_buildExecutor candidate found built member
    rw [stored_length stored]
    exact congrArg List.length (candidate_facts candidate).2.1.symm
  | @join left right joinPred estimate path _ _ _ retained _ tried ih =>
    obtain ⟨node, rfl, _⟩ := tryBuildJoinPaths_shape tried
    intro exec built row member
    simp only [PhysicalPath.buildExecutor, bind_eq_bind, bind_eq_some_iff] at built
    obtain ⟨leftExec, builtLeft, rightExec, builtRight, joined⟩ := built
    obtain ⟨_, _, l, r, step⟩ := mem_joinExecutor joined member
    obtain ⟨rel, _, schema, rid, stored⟩ := inner_stored retained builtRight step.inner
    rw [step.shape, List.length_append, ih leftExec builtLeft l step.outer, stored_length stored,
      PhysicalPath.outputSchema, List.length_append, PhysicalPath.outputSchema, schema]

end Layout

end GraniteDb.Optimizer.JoinSteps
