/- Physical plans of base accesses and joins, and the executors built from them. -/

import GraniteDb.Execution.Operators

set_option linter.dupNamespace false

namespace GraniteDb.Optimizer.PhysicalPath

open Common.Double Common.Value Access.IndexScan Catalog.CatalogManager Execution.Expressions
open Execution.Operators Lib.Pull

inductive AccessPathType
  | seqScan
  | indexScanEq
  | indexScanRange
  | indexScanOrdered
  deriving DecidableEq

inductive JoinAlgorithmType
  | nestedLoop
  | indexNestedLoop
  | hashJoin
  | mergeJoin
  deriving DecidableEq

structure PlanOrderKey where
  relationId : Nat
  columnIdx : Nat
  ascending : Bool
  deriving DecidableEq

structure QueryPredicateSpec where
  relationId : Nat
  columnIdx : Nat
  cmp : ComparisonType
  constant : Value
  deriving DecidableEq

def QueryPredicateSpec.isEquality (p : QueryPredicateSpec) : Bool := p.cmp == .eq

structure QueryJoinPredicateSpec where
  leftRelationId : Nat
  leftColumnIdx : Nat
  rightRelationId : Nat
  rightColumnIdx : Nat
  deriving DecidableEq

structure IndexAccessSpec where
  indexPredicates : List QueryPredicateSpec
  residualPredicates : List QueryPredicateSpec
  equalityPrefixCount : Nat
  lowerBound : Option QueryPredicateSpec
  upperBound : Option QueryPredicateSpec
  deriving DecidableEq

/-- The predicates that the access to the index is left with: `AccessPredicatesAsVector`. -/
def IndexAccessSpec.accessPredicates (spec : IndexAccessSpec) : List QueryPredicateSpec :=
  spec.indexPredicates ++ spec.lowerBound.toList ++ spec.upperBound.toList

/-- A path of kind `BASE`. The index is given by its position among the relation's indexes. -/
structure BasePath where
  relationId : Nat
  outputSchema : Schema
  accessType : AccessPathType
  accessIndex : Option Nat
  allPredicates : List QueryPredicateSpec
  accessSpec : IndexAccessSpec
  outputOrder : List PlanOrderKey
  fixedOrderPrefix : List PlanOrderKey
  estRows : Double
  deriving DecidableEq

/-- What a path of kind `JOIN` has beside its inputs. -/
structure JoinNode where
  joinType : JoinAlgorithmType
  joinPredicate : QueryJoinPredicateSpec
  mergeLeftNeedsSort : Bool
  mergeRightNeedsSort : Bool
  usesMemoize : Bool
  outputOrder : List PlanOrderKey
  fixedOrderPrefix : List PlanOrderKey
  estRows : Double
  deriving DecidableEq

inductive PhysicalPath
  | base (path : BasePath)
  | join (node : JoinNode) (left right : PhysicalPath)
  deriving DecidableEq

namespace PhysicalPath

def estRows : PhysicalPath → Double
  | base b => b.estRows
  | join node _ _ => node.estRows

def outputOrder : PhysicalPath → List PlanOrderKey
  | base b => b.outputOrder
  | join node _ _ => node.outputOrder

def fixedOrderPrefix : PhysicalPath → List PlanOrderKey
  | base b => b.fixedOrderPrefix
  | join node _ _ => node.fixedOrderPrefix

/-- `output_schema`: joins concatenate. -/
def outputSchema : PhysicalPath → Schema
  | base b => b.outputSchema
  | join _ left right => left.outputSchema ++ right.outputSchema

def relations : PhysicalPath → List Nat
  | base b => [b.relationId]
  | join _ left right => left.relations ++ right.relations

def relationOffset : PhysicalPath → Nat → Option Nat
  | base b, relationId => if relationId = b.relationId then some 0 else none
  | join _ left right, relationId =>
    match right.relationOffset relationId with
    | some offset => some (left.outputSchema.length + offset)
    | none => left.relationOffset relationId

def isFixedOrderKey (path : PhysicalPath) (key : PlanOrderKey) : Bool :=
  path.fixedOrderPrefix.any fun fixed =>
    fixed.relationId == key.relationId && fixed.columnIdx == key.columnIdx

/-- The loop of `SatisfiesOrder` over the order keys not yet matched. -/
def satisfiesOrderFrom (path : PhysicalPath) : List PlanOrderKey → List PlanOrderKey → Bool
  | [], _ => true
  | need :: needs, out =>
    if path.isFixedOrderKey need then path.satisfiesOrderFrom needs out
    else
      match out.dropWhile path.isFixedOrderKey with
      | [] => false
      | have_ :: rest => have_ == need && path.satisfiesOrderFrom needs rest

def satisfiesOrder (path : PhysicalPath) (requiredOrder : List PlanOrderKey) : Bool :=
  path.satisfiesOrderFrom requiredOrder path.outputOrder

end PhysicalPath

/-- `column op constant` over one row. -/
def predicateExpr (p : QueryPredicateSpec) (columnIdx : Nat) : Expression :=
  .comparison p.cmp (.column .single columnIdx) (.constant p.constant)

def conjoin : List Expression → Option Expression
  | [] => none
  | e :: rest => some (rest.foldl .conjunction e)

def buildSingleTuplePredicateExpr (predicates : List QueryPredicateSpec) : Option Expression :=
  conjoin (predicates.map fun p => predicateExpr p p.columnIdx)

/-- `BuildJoinedTuplePredicateExpr`; the outer `none` is an exception. -/
def buildJoinedTuplePredicateExpr (predicates : List QueryPredicateSpec)
    (relationOffset : Nat → Option Nat) : Option (Option Expression) :=
  (predicates.mapM fun p =>
    (relationOffset p.relationId).map fun offset => predicateExpr p (offset + p.columnIdx)).map
    conjoin

def withFilter (child : Pull Row) : Option Expression → Pull Row
  | none => child
  | some predicate => filter child predicate

/-- The scan of a composite index: constants of the equality prefix, and the bounds. -/
def IndexAccessSpec.scanSpec (spec : IndexAccessSpec) : PrefixScanSpec where
  equalityPrefix := (spec.indexPredicates.take spec.equalityPrefixCount).map (·.constant)
  lowerBound := spec.lowerBound.map (·.constant)
  upperBound := spec.upperBound.map (·.constant)
  lowerInclusive := (spec.lowerBound.map (·.cmp == .gte)).getD true
  upperInclusive := (spec.upperBound.map (·.cmp == .lte)).getD true

def BasePath.scanMode (path : BasePath) : ScanMode :=
  match path.accessType, path.accessSpec.indexPredicates with
  | .indexScanEq, p :: _ => .equality p.constant
  | .indexScanRange, _ =>
    if path.accessSpec.lowerBound.isSome || path.accessSpec.upperBound.isSome then
      .range (path.accessSpec.lowerBound.map (·.constant))
        (path.accessSpec.upperBound.map (·.constant))
        ((path.accessSpec.lowerBound.map (·.cmp == .gte)).getD true)
        ((path.accessSpec.upperBound.map (·.cmp == .lte)).getD true)
    else .full
  | _, _ => .full

def BasePath.fullScan (path : BasePath) : Bool :=
  path.accessType == .indexScanOrdered && path.accessSpec.scanSpec.equalityPrefix.isEmpty &&
    path.accessSpec.scanSpec.lowerBound.isNone && path.accessSpec.scanSpec.upperBound.isNone

def BasePath.indexAccess (path : BasePath) (heap : HeapFile) (entry : IndexCatalogEntry) :
    Option (Pull Row) :=
  match entry.btreeIndex with
  | some index => some (indexScan heap index path.scanMode)
  | none =>
    entry.genericBTreeIndex.map fun index =>
      genericIndexScan heap index path.accessSpec.scanSpec path.fullScan

/-- The access executor of a base path, before its filter; `none` is an exception. -/
def BasePath.access (path : BasePath) (rel : RelationCatalogEntry) : Option (Pull Row) :=
  match path.accessType, path.accessIndex with
  | .seqScan, _ => some (seqScan rel.heap)
  | _, none => some (seqScan rel.heap)
  | _, some position => (rel.indexes[position]?).bind (path.indexAccess rel.heap)

def BasePath.buildExecutor (path : BasePath) (catalog : CatalogManager) : Option (Pull Row) := do
  let rel ← catalog.getRelation path.relationId
  let exec ← path.access rel
  some (withFilter exec (buildSingleTuplePredicateExpr path.accessSpec.residualPredicates))

/-- The two sides of a join predicate, as the relations lie in the tree. -/
structure JoinSides where
  leftRelationId : Nat
  leftColumnIdx : Nat
  rightRelationId : Nat
  rightColumnIdx : Nat
  deriving DecidableEq

/-- The predicate is turned around if its left relation is in the right input only. -/
def joinSides (p : QueryJoinPredicateSpec) (left right : PhysicalPath) : JoinSides :=
  if (left.relationOffset p.leftRelationId).isNone &&
      (right.relationOffset p.leftRelationId).isSome then
    ⟨p.rightRelationId, p.rightColumnIdx, p.leftRelationId, p.leftColumnIdx⟩
  else ⟨p.leftRelationId, p.leftColumnIdx, p.rightRelationId, p.rightColumnIdx⟩

def columnExpr (columnIdx : Nat) : Expression := .column .single columnIdx

/-- `<=` on row estimates, which chooses the build side of a hash join. -/
def buildLeftSide (left right : PhysicalPath) : Bool :=
  !left.estRows.isNaN && !right.estRows.isNaN && !right.estRows.lt left.estRows

/-- The index nested-loop join: the right input's own access is not used, only the residual
predicates of its access are applied again. -/
def indexJoin (catalog : CatalogManager) (node : JoinNode) (left : PhysicalPath)
    (right : BasePath) (leftExec : Pull Row) (leftCol rightColInRel : Nat) :
    Option (Pull Row) := do
  let rel ← catalog.getRelation right.relationId
  let entry ← rel.findIndexOnColumn rightColInRel
  let index ← entry.btreeIndex
  let joined :=
    if node.usesMemoize then
      memoizedIndexNestedLoopJoin rel.heap index (columnExpr leftCol) [] leftExec
    else indexNestedLoopJoin leftExec rel.heap index (columnExpr leftCol)
  let joinedFilter ← buildJoinedTuplePredicateExpr right.accessSpec.residualPredicates
    (PhysicalPath.join node left (.base right)).relationOffset
  some (withFilter joined joinedFilter)

/-- `BuildExecutor` of a join over the executors of its inputs. -/
def joinExecutor (partitioning : Partitioning) (catalog : CatalogManager) (node : JoinNode)
    (left right : PhysicalPath) (leftExec rightExec : Pull Row) : Option (Pull Row) := do
  let sides := joinSides node.joinPredicate left right
  let leftOffset ← left.relationOffset sides.leftRelationId
  let rightOffset ← right.relationOffset sides.rightRelationId
  let leftCol := leftOffset + sides.leftColumnIdx
  let rightCol := rightOffset + sides.rightColumnIdx
  match node.joinType with
  | .nestedLoop =>
    some (nestedLoopJoin leftExec rightExec
      (.comparison .eq (.column .left leftCol) (.column .right rightCol)))
  | .hashJoin =>
    some (hashJoin partitioning leftExec rightExec (columnExpr leftCol) (columnExpr rightCol)
      (buildLeftSide left right))
  | .mergeJoin =>
    let sortedLeft :=
      if node.mergeLeftNeedsSort then sort leftExec [⟨columnExpr leftCol, true⟩] else leftExec
    let sortedRight :=
      if node.mergeRightNeedsSort then sort rightExec [⟨columnExpr rightCol, true⟩]
      else materialize rightExec
    some (mergeJoin sortedLeft sortedRight (columnExpr leftCol) (columnExpr rightCol))
  | .indexNestedLoop =>
    match right with
    | .base rightBase => indexJoin catalog node left rightBase leftExec leftCol sides.rightColumnIdx
    | .join _ _ _ => none

/-- `BuildExecutor`; `none` is an exception while the executors are built. -/
def PhysicalPath.buildExecutor (partitioning : Partitioning) (catalog : CatalogManager) :
    PhysicalPath → Option (Pull Row)
  | .base path => path.buildExecutor catalog
  | .join node left right => do
    let leftExec ← left.buildExecutor partitioning catalog
    let rightExec ← right.buildExecutor partitioning catalog
    joinExecutor partitioning catalog node left right leftExec rightExec

end GraniteDb.Optimizer.PhysicalPath
