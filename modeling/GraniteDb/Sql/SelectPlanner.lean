/- The optimizer query of a bound SELECT, and the source rows of its executor. -/

import GraniteDb.Execution.BitmapScan
import GraniteDb.Sql.Binder

namespace GraniteDb.Sql.SelectPlanner

open Common.Types Common.Value Catalog.CatalogManager Execution.Expressions Execution.Operators
open Execution.BitmapScan Lib.Pull Optimizer.PhysicalPath Optimizer.PlanEnumerator
open Optimizer.LogicalQuery Sql.Binder

/-- `AbsoluteSourceIndexToOrderKey`: the table and the column of a position of the source. -/
def absoluteSourceIndexToOrderKey (tables : List TableBinding) (absoluteSourceIdx : Nat) :
    Option PlanOrderKey :=
  (tables.find? fun table => table.offset ≤ absoluteSourceIdx &&
    absoluteSourceIdx < table.offset + table.schema.length).map fun table =>
      ⟨table.relationId, absoluteSourceIdx - table.offset, true⟩

def sourceOrderKey (tables : List TableBinding) : Expression → Option PlanOrderKey
  | .column .single columnIdx => absoluteSourceIndexToOrderKey tables columnIdx
  | _ => none

def buildGroupOrder (stmt : BoundSelectStatement) : List PlanOrderKey :=
  (stmt.groupByExprs.mapM (sourceOrderKey stmt.tables)).getD []

def buildRequiredSourceOrder (stmt : BoundSelectStatement) : List PlanOrderKey :=
  if stmt.hasAggregate || stmt.orderByOnOutput then []
  else
    (stmt.orderBy.mapM fun (key : SortKeySpec) =>
      if key.ascending then sourceOrderKey stmt.tables key.expr else none).getD []

def buildDedupSourceOrder (stmt : BoundSelectStatement) : List PlanOrderKey :=
  if !stmt.requiresDedup || stmt.hasAggregate then []
  else (stmt.projectExprs.mapM (sourceOrderKey stmt.tables)).getD []

/-- The test of `CanSkipSortAfterStreamAggregate` for the `ORDER BY` key at a position. -/
def followsGroupOrder (stmt : BoundSelectStatement) (key : SortKeySpec) (position : Nat) : Bool :=
  key.ascending &&
    match key.expr with
    | .column .single outputIdx =>
      match stmt.projectExprs[outputIdx]? with
      | some (.column .single projectIdx) =>
        projectIdx == position && projectIdx < stmt.groupByExprs.length
      | _ => false
    | _ => false

def canSkipSortAfterStreamAggregate (stmt : BoundSelectStatement) : Bool :=
  stmt.orderBy.zipIdx.all fun key => followsGroupOrder stmt key.1 key.2

def requiredAccessOrder (stmt : BoundSelectStatement) : List PlanOrderKey :=
  if stmt.hasAggregate && !(buildGroupOrder stmt).isEmpty && canSkipSortAfterStreamAggregate stmt
  then buildGroupOrder stmt
  else if !(buildRequiredSourceOrder stmt).isEmpty then buildRequiredSourceOrder stmt
  else buildDedupSourceOrder stmt

/-- The query `BuildSelectExecutor` has optimized; `none` is an exception. -/
def selectQuery (stmt : BoundSelectStatement) : Option OptimizerQuery :=
  optimizerQuery stmt.logicalPlan (requiredAccessOrder stmt) (buildGroupOrder stmt)
    stmt.hasAggregate none

/-- `skipped_order_by_sort`, as it is before the access is refined. -/
def skippedOrderBySort (stmt : BoundSelectStatement) (path : PhysicalPath) : Bool :=
  if stmt.orderBy.isEmpty then true
  else if !stmt.hasAggregate && !stmt.orderByOnOutput then
    !(buildRequiredSourceOrder stmt).isEmpty && path.satisfiesOrder (buildRequiredSourceOrder stmt)
  else if stmt.hasAggregate then canSkipSortAfterStreamAggregate stmt
  else false

def collectColumnRefs : Expression → List Nat
  | .constant _ => []
  | .column .single columnIdx => [columnIdx]
  | .column _ _ => []
  | .comparison _ l r => collectColumnRefs l ++ collectColumnRefs r
  | .conjunction l r => collectColumnRefs l ++ collectColumnRefs r
  | .disjunction l r => collectColumnRefs l ++ collectColumnRefs r

def collectReferencedSourceColumns (stmt : BoundSelectStatement) : List Nat :=
  stmt.projectExprs.flatMap collectColumnRefs ++
    stmt.wherePredicate.toList.flatMap collectColumnRefs ++
    (stmt.orderBy.map (·.expr)).flatMap collectColumnRefs ++
    stmt.groupByExprs.flatMap collectColumnRefs ++
    stmt.aggInputExprs.reduceOption.flatMap collectColumnRefs

def pathBounds (path : BasePath) (useLower : Bool) : KeyBounds where
  equalityKey :=
    if path.accessType = .indexScanEq then path.accessSpec.indexPredicates.head?.map (·.constant)
    else none
  lower := if useLower then path.accessSpec.lowerBound.map (·.constant) else none
  upper := path.accessSpec.upperBound.map (·.constant)
  lowerInclusive := (path.accessSpec.lowerBound.map (·.cmp == .gte)).getD true
  upperInclusive := (path.accessSpec.upperBound.map (·.cmp == .lte)).getD true

/-- `CollectBaseRids` of an index. -/
def collectIndexRids (path : BasePath) (entry : IndexCatalogEntry) : Option (List RID) :=
  match entry.btreeIndex with
  | some index => bitmapIndexScan index (pathBounds path (path.accessType == .indexScanRange))
  | none =>
    entry.genericBTreeIndex.bind fun index =>
      if path.fullScan then some index.fullScanRids
      else index.scanPrefixRange path.accessSpec.scanSpec

def collectBaseRids (path : BasePath) (rel : RelationCatalogEntry) : Option (List RID) :=
  match path.accessType, path.accessIndex with
  | .seqScan, _ => some (rel.heap.map Prod.fst)
  | _, none => some (rel.heap.map Prod.fst)
  | _, some position => (rel.indexes[position]?).bind (collectIndexRids path)

def collectConjunctiveBitmapTerms : Expression → Option (List QueryPredicateSpec)
  | .conjunction l r => do
    let left ← collectConjunctiveBitmapTerms l
    let right ← collectConjunctiveBitmapTerms r
    some (left ++ right)
  | .disjunction _ _ => none
  | e => (extractBasePredicate 0 e).map fun p => [p]

def collectBitmapDnfGroups : Expression → Option (List (List QueryPredicateSpec))
  | .disjunction l r => do
    let left ← collectBitmapDnfGroups l
    let right ← collectBitmapDnfGroups r
    some (left ++ right)
  | e => (collectConjunctiveBitmapTerms e).bind fun group => if group = [] then none else some [group]

/-- The bounds of the leaf for one comparison; `!=` has none. -/
def leafBounds (p : QueryPredicateSpec) : Option KeyBounds :=
  match p.cmp with
  | .eq => some ⟨some p.constant, none, none, true, true⟩
  | .gt => some ⟨none, some p.constant, none, false, true⟩
  | .gte => some ⟨none, some p.constant, none, true, true⟩
  | .lt => some ⟨none, none, some p.constant, true, false⟩
  | .lte => some ⟨none, none, some p.constant, true, true⟩
  | .neq => none

def makeBitmapLeaf (rel : RelationCatalogEntry) (p : QueryPredicateSpec) :
    Option (Option (List RID)) := do
  let entry ← rel.findIndexOnColumn p.columnIdx
  let index ← entry.btreeIndex
  let bounds ← leafBounds p
  some (bitmapIndexScan index bounds)

def combine (several : List (Option (List RID)) → Option (List RID)) :
    List (Option (List RID)) → Option (List RID)
  | [child] => child
  | children => several children

/-- The RIDs of the bitmap heap scan, where the `WHERE` gives one; the outer `none` is no
bitmap. -/
def bitmapRids (rel : RelationCatalogEntry) (predicate : Expression) :
    Option (Option (List RID)) := do
  let groups ← collectBitmapDnfGroups predicate
  let children ← groups.mapM fun group => group.mapM (makeBitmapLeaf rel)
  if 2 ≤ (groups.map List.length).sum then
    some (combine bitmapOr (children.map (combine bitmapAnd)))
  else none

def singleBaseTable (stmt : BoundSelectStatement) : PhysicalPath → Option BasePath
  | .base path =>
    match stmt.tables with
    | [table] => if !stmt.hasJoin && path.relationId == table.relationId then some path else none
    | _ => none
  | .join _ _ _ => none

def canUseLateMaterialization (stmt : BoundSelectStatement) (path : BasePath) : Bool :=
  !stmt.hasAggregate && !stmt.requiresDedup && stmt.limit.isSome && path.accessIndex.isSome &&
    path.accessSpec.residualPredicates.isEmpty &&
    (stmt.orderBy.isEmpty || skippedOrderBySort stmt (.base path))

/-- `can_use_index_only`, with the index. -/
def indexOnlyEntry (stmt : BoundSelectStatement) (path : BasePath) (rel : RelationCatalogEntry) :
    Option IndexCatalogEntry :=
  if stmt.hasAggregate then none
  else
    (path.accessIndex.bind (rel.indexes[·]?)).filter fun entry =>
      (collectReferencedSourceColumns stmt).all fun columnIdx =>
        entry.keyColumns.any fun col => col.columnIdx == columnIdx

def indexOnlyRows (path : BasePath) (rel : RelationCatalogEntry) (entry : IndexCatalogEntry) :
    Option (Pull Row) :=
  match entry.btreeIndex with
  | some index =>
    some (indexOnlyScan rel.schema entry.keyColumns
      (singleColumnKeys index (pathBounds path true)))
  | none =>
    entry.genericBTreeIndex.map fun index =>
      indexOnlyScan rel.schema entry.keyColumns
        (genericKeys index path.accessSpec.scanSpec path.fullScan)

def bitmapRows (stmt : BoundSelectStatement) (rel : RelationCatalogEntry) : Option (Pull Row) :=
  if !stmt.hasAggregate && (requiredAccessOrder stmt).isEmpty then
    (stmt.wherePredicate.bind (bitmapRids rel)).map (heapRows rel.heap)
  else none

def singleTableRows (catalog : CatalogManager) (stmt : BoundSelectStatement) (path : BasePath) :
    Option (Pull Row) := do
  let rel ← catalog.getRelation path.relationId
  match indexOnlyEntry stmt path rel with
  | some entry => (indexOnlyRows path rel entry).map (withFilter · stmt.wherePredicate)
  | none =>
    if canUseLateMaterialization stmt path then
      some (heapRows rel.heap (collectBaseRids path rel))
    else
      match bitmapRows stmt rel with
      | some rows => some (withFilter rows stmt.wherePredicate)
      | none => path.buildExecutor catalog

/-- The rows that reach grouping, `DISTINCT`, `ORDER BY`, `LIMIT` and projection in the executor
that `BuildSelectExecutor` makes of an access path; `none` is an exception. -/
def sourceRows (partitioning : Partitioning) (catalog : CatalogManager)
    (stmt : BoundSelectStatement) (path : PhysicalPath) : Option (Pull Row) :=
  match singleBaseTable stmt path with
  | some base => singleTableRows catalog stmt base
  | none =>
    (path.buildExecutor partitioning catalog).map fun rows =>
      if stmt.hasJoin then withFilter rows stmt.wherePredicate else rows

/-- The positions of the source row that the statement reads: the residual `WHERE` of a join,
`GROUP BY`, the select list, and `ORDER BY` unless it is on the output. -/
def sourceColumns (stmt : BoundSelectStatement) : List Nat :=
  stmt.wherePredicate.toList.flatMap collectColumnRefs ++
    stmt.groupByExprs.flatMap collectColumnRefs ++
    stmt.aggInputExprs.reduceOption.flatMap collectColumnRefs ++
    (if stmt.hasAggregate then [] else stmt.projectExprs.flatMap collectColumnRefs) ++
    (if stmt.hasAggregate || stmt.orderByOnOutput then []
      else (stmt.orderBy.map (·.expr)).flatMap collectColumnRefs)

end GraniteDb.Sql.SelectPlanner
