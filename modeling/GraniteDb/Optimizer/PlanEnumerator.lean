/- The base and join candidates of a query, and the plans that can be enumerated. -/

import GraniteDb.Optimizer.PhysicalPath

namespace GraniteDb.Optimizer.PlanEnumerator

open Common.Double Access.IndexScan Catalog.CatalogManager Execution.Expressions
open Optimizer.PhysicalPath

structure OptimizerQuery where
  relations : List Nat
  predicates : List QueryPredicateSpec
  joins : List QueryJoinPredicateSpec
  requiredOrder : List PlanOrderKey
  groupOrder : List PlanOrderKey
  hasAggregate : Bool
  limitCount : Option Nat
  deriving DecidableEq

def getPredicatesForRelation (query : OptimizerQuery) (relationId : Nat) :
    List QueryPredicateSpec :=
  query.predicates.filter fun p => p.relationId == relationId

/-- `GetJoinsBetweenSubsetAndRelation`; the subset is given by its relations. -/
def getJoinsBetweenSubsetAndRelation (query : OptimizerQuery) (subset : List Nat)
    (relationId : Nat) : List QueryJoinPredicateSpec :=
  query.joins.filter fun j =>
    let leftInSubset := subset.contains j.leftRelationId
    let rightInSubset := subset.contains j.rightRelationId
    query.relations.contains j.leftRelationId && query.relations.contains j.rightRelationId &&
      ((leftInSubset && j.rightRelationId == relationId && !rightInSubset) ||
        (rightInSubset && j.leftRelationId == relationId && !leftInSubset))

def isLowerBoundCmp (cmp : ComparisonType) : Bool := cmp == .gt || cmp == .gte

def isUpperBoundCmp (cmp : ComparisonType) : Bool := cmp == .lt || cmp == .lte

structure ColumnMatch where
  equality : Option Nat
  lower : Option Nat
  upper : Option Nat
  deriving DecidableEq

/-- The loop over the predicates for one key column: it stops at an equality. -/
def matchColumn (used : List Nat) (columnIdx : Nat) :
    List (QueryPredicateSpec × Nat) → Option Nat → Option Nat → ColumnMatch
  | [], lower, upper => ⟨none, lower, upper⟩
  | (p, i) :: rest, lower, upper =>
    if used.contains i || p.columnIdx != columnIdx then matchColumn used columnIdx rest lower upper
    else if p.isEquality then ⟨some i, lower, upper⟩
    else
      matchColumn used columnIdx rest
        (if isLowerBoundCmp p.cmp && lower.isNone then some i else lower)
        (if isUpperBoundCmp p.cmp && upper.isNone then some i else upper)

/-- What the loop over the key columns has taken from the predicates. -/
structure Taken where
  used : List Nat
  indexPredicates : List QueryPredicateSpec
  lowerBound : Option QueryPredicateSpec
  upperBound : Option QueryPredicateSpec
  deriving DecidableEq

def takePredicates (predicates : List QueryPredicateSpec) :
    List IndexKeyColumnDefinition → Taken → Taken
  | [], taken => taken
  | col :: cols, taken =>
    let found := matchColumn taken.used col.columnIdx predicates.zipIdx none none
    match found.equality with
    | some i =>
      takePredicates predicates cols
        { taken with
          used := i :: taken.used
          indexPredicates := taken.indexPredicates ++ predicates[i]?.toList }
    | none =>
      { taken with
        used := found.lower.toList ++ found.upper.toList ++ taken.used
        lowerBound := found.lower.bind (predicates[·]?)
        upperBound := found.upper.bind (predicates[·]?) }

def splitPredicates (predicates : List QueryPredicateSpec)
    (keyColumns : List IndexKeyColumnDefinition) : IndexAccessSpec × Bool :=
  let taken := takePredicates predicates keyColumns ⟨[], [], none, none⟩
  ({ indexPredicates := taken.indexPredicates
     residualPredicates :=
       (predicates.zipIdx.filter fun p => !taken.used.contains p.2).map Prod.fst
     equalityPrefixCount := taken.indexPredicates.length
     lowerBound := taken.lowerBound
     upperBound := taken.upperBound },
    !taken.used.isEmpty)

def buildIndexOrderKeys (relationId : Nat) (keyColumns : List IndexKeyColumnDefinition) :
    List PlanOrderKey :=
  keyColumns.map fun col => ⟨relationId, col.columnIdx, true⟩

def indexAccessType (spec : IndexAccessSpec) (usedAny : Bool) (keyColumnCount : Nat) :
    AccessPathType :=
  if !usedAny then .indexScanOrdered
  else if spec.lowerBound.isSome || spec.upperBound.isSome then .indexScanRange
  else if keyColumnCount = 1 then .indexScanEq
  else .indexScanRange

def orderCandidate (query : OptimizerQuery) : Bool :=
  !query.requiredOrder.isEmpty || (query.hasAggregate && !query.groupOrder.isEmpty) ||
    query.limitCount.isSome

def seqCandidate (rel : RelationCatalogEntry) (predicates : List QueryPredicateSpec)
    (estRows : Double) : BasePath where
  relationId := rel.relationId
  outputSchema := rel.schema
  accessType := .seqScan
  accessIndex := none
  allPredicates := predicates
  accessSpec := ⟨[], predicates, 0, none, none⟩
  outputOrder := []
  fixedOrderPrefix := []
  estRows := estRows

/-- The candidate of the index at a position, unless it is of no use. -/
def indexCandidate (rel : RelationCatalogEntry) (predicates : List QueryPredicateSpec)
    (query : OptimizerQuery) (estRows : Double) (position : Nat) (entry : IndexCatalogEntry) :
    Option BasePath :=
  let (spec, usedAny) := splitPredicates predicates entry.keyColumns
  let outputOrder := buildIndexOrderKeys rel.relationId entry.keyColumns
  if !usedAny && !orderCandidate query then none
  else some
    { relationId := rel.relationId
      outputSchema := rel.schema
      accessType := indexAccessType spec usedAny entry.keyColumns.length
      accessIndex := some position
      allPredicates := predicates
      accessSpec := spec
      outputOrder := outputOrder
      fixedOrderPrefix := outputOrder.take spec.equalityPrefixCount
      estRows := estRows }

/-- `MakeBaseCandidates`; the row estimate comes from the statistics. -/
def makeBaseCandidates (rel : RelationCatalogEntry) (predicates : List QueryPredicateSpec)
    (query : OptimizerQuery) (estRows : Double) : List BasePath :=
  seqCandidate rel predicates estRows ::
    rel.indexes.zipIdx.filterMap fun (entry, position) =>
      indexCandidate rel predicates query estRows position entry

/-- What the statistics say about a join: the rows it yields, and whether the outer keys repeat
enough for memoizing to be considered. -/
structure JoinEstimate where
  rows : Double
  repeatedOuterKeys : Bool
  deriving DecidableEq

def tryBuildJoinPaths (catalog : CatalogManager) (left : PhysicalPath) (right : BasePath)
    (joinPred : QueryJoinPredicateSpec) (estimate : JoinEstimate) : List PhysicalPath :=
  let containsLeft := (left.relationOffset joinPred.leftRelationId).isSome
  let leftRelId := if containsLeft then joinPred.leftRelationId else joinPred.rightRelationId
  let leftColIdx := if containsLeft then joinPred.leftColumnIdx else joinPred.rightColumnIdx
  let rightColIdx := if containsLeft then joinPred.rightColumnIdx else joinPred.leftColumnIdx
  let makeJoinPath (node : JoinNode) : PhysicalPath := .join node left (.base right)
  let hash : JoinNode :=
    { joinType := .hashJoin
      joinPredicate := joinPred
      mergeLeftNeedsSort := false
      mergeRightNeedsSort := false
      usesMemoize := false
      outputOrder := []
      fixedOrderPrefix := []
      estRows := estimate.rows }
  let nested : JoinNode :=
    { hash with
      joinType := .nestedLoop
      outputOrder := left.outputOrder
      fixedOrderPrefix := left.fixedOrderPrefix }
  let leftJoinOrder : List PlanOrderKey := [⟨leftRelId, leftColIdx, true⟩]
  let leftSorted := left.satisfiesOrder leftJoinOrder
  let rightSorted :=
    (PhysicalPath.base right).satisfiesOrder [⟨right.relationId, rightColIdx, true⟩]
  let merge : JoinNode :=
    { hash with
      joinType := .mergeJoin
      mergeLeftNeedsSort := !leftSorted
      mergeRightNeedsSort := !rightSorted
      outputOrder := if leftSorted then left.outputOrder else leftJoinOrder
      fixedOrderPrefix := if leftSorted then left.fixedOrderPrefix else [] }
  let innerIndex := (catalog.getRelation right.relationId).bind fun rel =>
    (rel.findIndexOnColumn rightColIdx).bind IndexCatalogEntry.btreeIndex
  let inlj : JoinNode := { nested with joinType := .indexNestedLoop }
  [makeJoinPath nested, makeJoinPath hash, makeJoinPath merge] ++
    (if innerIndex.isSome then
      makeJoinPath inlj ::
        (if estimate.repeatedOuterKeys then [makeJoinPath { inlj with usesMemoize := true }]
        else [])
    else [])

def Retained (catalog : CatalogManager) (query : OptimizerQuery) (right : BasePath) : Prop :=
  ∃ rel ∈ catalog.getRelation right.relationId, ∃ estRows,
    right ∈ makeBaseCandidates rel (getPredicatesForRelation query right.relationId) query estRows

/-- The plans the dynamic program of `Optimize` can build. Which of them it keeps is a matter
of costs. -/
inductive Enumerated (catalog : CatalogManager) (query : OptimizerQuery) : PhysicalPath → Prop
  | base {right : BasePath} : right.relationId ∈ query.relations → Retained catalog query right →
      Enumerated catalog query (.base right)
  | join {left : PhysicalPath} {right : BasePath} {joinPred : QueryJoinPredicateSpec}
      {estimate : JoinEstimate} {path : PhysicalPath} :
      Enumerated catalog query left → right.relationId ∈ query.relations →
      right.relationId ∉ left.relations → Retained catalog query right →
      joinPred ∈ getJoinsBetweenSubsetAndRelation query left.relations right.relationId →
      path ∈ tryBuildJoinPaths catalog left right joinPred estimate →
      Enumerated catalog query path

/-- A plan that `Optimize` can return: one that covers the query's relations. -/
structure Optimized (catalog : CatalogManager) (query : OptimizerQuery) (path : PhysicalPath) :
    Prop where
  enumerated : Enumerated catalog query path
  complete : ∀ relationId ∈ query.relations, relationId ∈ path.relations

end GraniteDb.Optimizer.PlanEnumerator
