/- Logical plans, and the query for the optimizer that is collected from one. -/

import GraniteDb.Optimizer.PlanEnumerator

set_option linter.dupNamespace false

namespace GraniteDb.Optimizer.LogicalQuery

open Execution.Expressions Optimizer.PhysicalPath Optimizer.PlanEnumerator

/-- `LogicalPlanNode`, with what the optimizer reads of each node. -/
inductive LogicalPlanNode
  | get (relationId : Nat)
  | filter (child : LogicalPlanNode) (predicate : Expression)
  | join (left right : LogicalPlanNode) (predicate : Expression)
  | project (child : LogicalPlanNode)
  | sort (child : LogicalPlanNode)
  | aggregate (child : LogicalPlanNode)
  deriving DecidableEq

def extractBasePredicate (relationId : Nat) : Expression → Option QueryPredicateSpec
  | .comparison cmp (.column .single columnIdx) (.constant value) =>
    some ⟨relationId, columnIdx, cmp, value⟩
  | _ => none

def extractJoinPredicate (leftRelationId rightRelationId : Nat) :
    Expression → Option QueryJoinPredicateSpec
  | .comparison .eq (.column .left l) (.column .right r) =>
    some ⟨leftRelationId, l, rightRelationId, r⟩
  | .comparison .eq (.column .right r) (.column .left l) =>
    some ⟨leftRelationId, l, rightRelationId, r⟩
  | _ => none

/-- `CollectConjunctiveBasePredicates`: what is no `column op constant` is passed over. -/
def collectConjunctiveBasePredicates (relationId : Nat) : Expression → List QueryPredicateSpec
  | .conjunction l r =>
    collectConjunctiveBasePredicates relationId l ++ collectConjunctiveBasePredicates relationId r
  | e => (extractBasePredicate relationId e).toList

/-- The relation an input of a join resolves to, 0 if there is none. -/
def resolvedRelation : LogicalPlanNode → Nat
  | .get relationId => relationId
  | .filter (.get relationId) _ => relationId
  | _ => 0

structure LogicalQuery where
  relations : List Nat
  predicates : List QueryPredicateSpec
  joins : List QueryJoinPredicateSpec
  deriving DecidableEq

/-- `CollectLogicalQuery`; `none` is an exception. -/
def collectLogicalQuery : LogicalPlanNode → Option LogicalQuery
  | .get relationId => some ⟨[relationId], [], []⟩
  | .filter (.get relationId) predicate =>
    some ⟨[relationId], collectConjunctiveBasePredicates relationId predicate, []⟩
  | .filter _ _ => none
  | .join left right predicate => do
    let l ← collectLogicalQuery left
    let r ← collectLogicalQuery right
    if resolvedRelation left = 0 ∨ resolvedRelation right = 0 then none
    else
      let j ← extractJoinPredicate (resolvedRelation left) (resolvedRelation right) predicate
      some ⟨l.relations ++ r.relations, l.predicates ++ r.predicates, l.joins ++ r.joins ++ [j]⟩
  | .project child => collectLogicalQuery child
  | .sort child => collectLogicalQuery child
  | .aggregate child => collectLogicalQuery child

/-- The query `OptimizeLogicalPlan` passes to `Optimize`: the relations are sorted by id, and
each is listed once. -/
def optimizerQuery (root : LogicalPlanNode) (requiredOrder groupOrder : List PlanOrderKey)
    (hasAggregate : Bool) (limitCount : Option Nat) : Option OptimizerQuery :=
  (collectLogicalQuery root).map fun q =>
    { relations := (q.relations.insertionSort (· ≤ ·)).dedup
      predicates := q.predicates
      joins := q.joins
      requiredOrder := requiredOrder
      groupOrder := groupOrder
      hasAggregate := hasAggregate
      limitCount := limitCount }

end GraniteDb.Optimizer.LogicalQuery
