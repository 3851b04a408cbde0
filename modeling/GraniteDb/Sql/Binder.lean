/- Binding of a SELECT: columns to positions, WHERE to pushdowns, and the outputs. -/

import GraniteDb.Optimizer.LogicalQuery
import GraniteDb.Sql.SelectAst

namespace GraniteDb.Sql.Binder

open Common.Value Catalog.CatalogManager Execution.Expressions Execution.Operators
open Optimizer.PhysicalPath Optimizer.LogicalQuery Sql.SelectAst

/-- `TableBinding`; of the relation only the schema is read. -/
structure TableBinding where
  tableName : String
  aliasName : String
  relationId : Nat
  schema : Schema
  offset : Nat
  deriving DecidableEq

structure BoundSelectStatement where
  tables : List TableBinding
  sourceSchema : Schema
  hasJoin : Bool
  wherePredicate : Option Expression
  hasAggregate : Bool
  distinct : Bool
  dedupViaGroupBy : Bool
  requiresDedup : Bool
  orderByOnOutput : Bool
  groupByExprs : List Expression
  aggTypes : List AggregateType
  aggInputExprs : List (Option Expression)
  aggregateSchema : Schema
  projectExprs : List Expression
  outputSchema : Schema
  orderBy : List SortKeySpec
  limit : Option Nat
  logicalPlan : LogicalPlanNode
  deriving DecidableEq

/-- `BoundExprInfo`. A display name is read only of a simple column, whose name it is. -/
structure BoundExprInfo where
  expr : Expression
  type : TypeId
  simpleColumn : Option Nat
  displayName : String
  deriving DecidableEq

def findColumnIndex (schema : Schema) (columnName : String) : Option Nat :=
  (schema.zipIdx.find? fun col => col.1.name == columnName).map Prod.snd

def TableBinding.qualifies (table : TableBinding) (qualifier : String) : Bool :=
  qualifier == "" || qualifier == table.aliasName || qualifier == table.tableName

/-- The positions of the columns of a table that a reference may mean. -/
def TableBinding.candidates (table : TableBinding) (qualifier columnName : String) : List Nat :=
  if table.qualifies qualifier then
    (table.schema.zipIdx.filter fun col => col.1.name == columnName).map Prod.snd
  else []

/-- The absolute position of a referenced column; `none` is an unknown or an ambiguous
reference. -/
def resolveColumn (tables : List TableBinding) (qualifier columnName : String) : Option Nat :=
  match tables.flatMap fun table =>
      (table.candidates qualifier columnName).map (table.offset + ·) with
  | [position] => some position
  | _ => none

def boundColumn (schema : Schema) (columnIdx : Nat) : Option BoundExprInfo :=
  schema[columnIdx]?.map fun col => ⟨.column .single columnIdx, col.type, some columnIdx, col.name⟩

def bindSourceExpr (tables : List TableBinding) (sourceSchema : Schema) :
    ExprAST → Option BoundExprInfo
  | .literal value => some ⟨.constant value, value.typeId, none, ""⟩
  | .columnRef qualifier columnName =>
    (resolveColumn tables qualifier columnName).bind (boundColumn sourceSchema)
  | .binary op l r => do
    let left ← bindSourceExpr tables sourceSchema l
    let right ← bindSourceExpr tables sourceSchema r
    match op with
    | .and => some ⟨.conjunction left.expr right.expr, .boolean, none, "bool_expr"⟩
    | .or => some ⟨.disjunction left.expr right.expr, .boolean, none, "bool_expr"⟩
    | .compare type => some ⟨.comparison type left.expr right.expr, .boolean, none, "cmp_expr"⟩
  | .functionStar _ _ => none
  | .functionCall _ _ _ => none

def bindBooleanSourceExpr (tables : List TableBinding) (sourceSchema : Schema) (ast : ExprAST) :
    Option Expression :=
  (bindSourceExpr tables sourceSchema ast).map (·.expr)

def bindOutputExpr (outputSchema : Schema) : ExprAST → Option BoundExprInfo
  | .columnRef qualifier columnName =>
    if qualifier = "" then
      (findColumnIndex outputSchema columnName).bind (boundColumn outputSchema)
    else none
  | _ => none

def defaultSelectItemName : ExprAST → String
  | .columnRef _ columnName => columnName
  | .functionStar _ name => name
  | .functionCall _ name _ => name
  | _ => "expr"

def inferAggregateOutputType (type : AggregateType) (inputType : TypeId) : Option TypeId :=
  match type with
  | .count => some .int64
  | .sum =>
    if inputType = .int32 ∨ inputType = .int64 ∨ inputType = .double then
      some (if inputType = .double then .double else .int64)
    else none
  | .min | .max => some inputType

def bindTable (catalog : CatalogManager) (ref : TableRefAST) (offset : Nat) : Option TableBinding :=
  (catalog.getRelationByName ref.tableName).map fun rel =>
    { tableName := ref.tableName
      aliasName := if ref.aliasName = "" then ref.tableName else ref.aliasName
      relationId := rel.relationId
      schema := rel.schema
      offset := offset }

def bindTables (catalog : CatalogManager) (stmt : SelectStatementAST) :
    Option (TableBinding × Option TableBinding) := do
  let left ← bindTable catalog stmt.fromTable 0
  match stmt.joinTable with
  | none => some (left, none)
  | some ref =>
    let right ← bindTable catalog ref left.schema.length
    if left.aliasName = right.aliasName then none else some (left, some right)

def collectConjuncts : ExprAST → List ExprAST
  | .binary .and l r => collectConjuncts l ++ collectConjuncts r
  | e => [e]

def referencedTables (tables : List TableBinding) (qualifier columnName : String) : List Nat :=
  (tables.zipIdx.filter fun table =>
    !(table.1.candidates qualifier columnName).isEmpty).map Prod.snd

/-- `collect_referenced_table_indexes`, as a set; `none` is an unknown or an ambiguous
reference. -/
def collectReferencedTableIndexes (tables : List TableBinding) : ExprAST → Option (List Nat)
  | .literal _ => some []
  | .columnRef qualifier columnName =>
    match referencedTables tables qualifier columnName with
    | [tableIdx] => some [tableIdx]
    | _ => none
  | .binary _ l r => do
    let left ← collectReferencedTableIndexes tables l
    let right ← collectReferencedTableIndexes tables r
    some (left ∪ right)
  | .functionStar _ _ => some []
  | .functionCall _ _ arg => collectReferencedTableIndexes tables arg

structure Pushdown where
  left : List ExprAST
  right : List ExprAST
  residual : List ExprAST
  deriving DecidableEq

/-- The loop over the conjuncts of a join's `WHERE`. -/
def splitConjuncts (tables : List TableBinding) : List ExprAST → Option Pushdown
  | [] => some ⟨[], [], []⟩
  | conj :: rest => do
    let refs ← collectReferencedTableIndexes tables conj
    let later ← splitConjuncts tables rest
    match refs with
    | [0] => some { later with left := conj :: later.left }
    | [_] => some { later with right := conj :: later.right }
    | _ => some { later with residual := conj :: later.residual }

/-- The conjuncts of the `WHERE` by where they go. -/
def pushdownConjuncts (tables : List TableBinding) (hasJoin : Bool) (wherePredicate : Option ExprAST) :
    Option Pushdown :=
  let conjuncts := (wherePredicate.map collectConjuncts).getD []
  if hasJoin then splitConjuncts tables conjuncts else some ⟨conjuncts, [], []⟩

/-- `bind_pushdown_predicates`; the inner `none` stands for no conjuncts. -/
def bindPushdownPredicates (conjs : List ExprAST) (table : TableBinding) :
    Option (Option Expression) :=
  (conjs.mapM (bindBooleanSourceExpr [{ table with offset := 0 }] table.schema)).map conjoin

def bindResidual (conjs : List ExprAST) (tables : List TableBinding) (sourceSchema : Schema) :
    Option (Option Expression) :=
  (conjs.mapM (bindBooleanSourceExpr tables sourceSchema)).map conjoin

def tableLogical (table : TableBinding) (predicate : Option Expression) : LogicalPlanNode :=
  match predicate with
  | none => .get table.relationId
  | some p => .filter (.get table.relationId) p

/-- The keys of a `JOIN ON`: a column of the left table and one of the right table. -/
def bindJoinKeys (tables : List TableBinding) (sourceSchema : Schema) (leftColumnCount : Nat)
    (joinPredicate : Option ExprAST) : Option (Nat × Nat) :=
  match joinPredicate with
  | some (.binary (.compare .eq) l r) => do
    let left ← (bindSourceExpr tables sourceSchema l).bind (·.simpleColumn)
    let right ← (bindSourceExpr tables sourceSchema r).bind (·.simpleColumn)
    if left < leftColumnCount ∧ leftColumnCount ≤ right then
      some (left, right - leftColumnCount)
    else if right < leftColumnCount ∧ leftColumnCount ≤ left then
      some (right, left - leftColumnCount)
    else none
  | _ => none

/-- What the source of a statement is bound to, before its outputs. -/
structure BoundSource where
  tables : List TableBinding
  sourceSchema : Schema
  hasJoin : Bool
  wherePredicate : Option Expression
  logicalPlan : LogicalPlanNode
  deriving DecidableEq

/-- `BindSelect` of one table with its `WHERE`. -/
def bindSingleSource (table : TableBinding) (wherePredicate : Option ExprAST) :
    Option BoundSource := do
  let pushdown ← pushdownConjuncts [table] false wherePredicate
  let predicate ← bindPushdownPredicates pushdown.left table
  some
    { tables := [table]
      sourceSchema := table.schema
      hasJoin := false
      wherePredicate := predicate
      logicalPlan := tableLogical table predicate }

/-- `BindSelect` of a join with its `WHERE`. -/
def bindJoinSource (left right : TableBinding) (wherePredicate joinPredicate : Option ExprAST) :
    Option BoundSource := do
  let tables := [left, right]
  let sourceSchema := left.schema ++ right.schema
  let pushdown ← pushdownConjuncts tables true wherePredicate
  let leftPredicate ← bindPushdownPredicates pushdown.left left
  let rightPredicate ← bindPushdownPredicates pushdown.right right
  let residual ← bindResidual pushdown.residual tables sourceSchema
  let keys ← bindJoinKeys tables sourceSchema left.schema.length joinPredicate
  some
    { tables := tables
      sourceSchema := sourceSchema
      hasJoin := true
      wherePredicate := residual
      logicalPlan := .join (tableLogical left leftPredicate) (tableLogical right rightPredicate)
        (.comparison .eq (.column .left keys.1) (.column .right keys.2)) }

/-- The source part of `BindSelect`. -/
def bindSource (catalog : CatalogManager) (stmt : SelectStatementAST) : Option BoundSource :=
  (bindTables catalog stmt).bind fun tables =>
    match tables.2 with
    | none => bindSingleSource tables.1 stmt.wherePredicate
    | some right => bindJoinSource tables.1 right stmt.wherePredicate stmt.joinPredicate

structure BoundOutput where
  hasAggregate : Bool
  orderByOnOutput : Bool
  groupByExprs : List Expression
  aggTypes : List AggregateType
  aggInputExprs : List (Option Expression)
  aggregateSchema : Schema
  projectExprs : List Expression
  outputSchema : Schema
  orderBy : List SortKeySpec
  deriving DecidableEq

def outputName (aliasName default_ : String) : String :=
  if aliasName = "" then default_ else aliasName

def outputAlias (outputSchema : Schema) : ExprAST → Option Nat
  | .columnRef qualifier columnName =>
    if qualifier = "" then findColumnIndex outputSchema columnName else none
  | _ => none

def isStar : SelectItemAST → Bool
  | .star => true
  | .item _ _ => false

def isAggregate : SelectItemAST → Bool
  | .item (.functionStar _ _) _ => true
  | .item (.functionCall _ _ _) _ => true
  | _ => false

/-- The columns of the `GROUP BY`, each a simple column. -/
def bindGroupColumns (source : BoundSource) (exprs : List ExprAST) :
    Option (List BoundExprInfo) :=
  exprs.mapM fun e => (bindSourceExpr source.tables source.sourceSchema e).filter
    (·.simpleColumn.isSome)

def distinctColumns (columns : List BoundExprInfo) : List BoundExprInfo :=
  columns.foldl (fun seen g =>
    if seen.any fun s => s.simpleColumn == g.simpleColumn then seen else seen ++ [g]) []

structure Projected where
  expr : Expression
  column : Column
  sourceColumn : Option Nat
  deriving DecidableEq

def projectStar (sourceSchema : Schema) : List Projected :=
  sourceSchema.zipIdx.map fun col => ⟨.column .single col.2, col.1, some col.2⟩

/-- In a grouped statement an item is a column of the `GROUP BY`. -/
def isGrouped (groups : Option (List BoundExprInfo)) (bound : BoundExprInfo) : Bool :=
  match groups with
  | none => true
  | some columns =>
    bound.simpleColumn.isSome && columns.any fun g => g.simpleColumn == bound.simpleColumn

def projectItem (source : BoundSource) (groups : Option (List BoundExprInfo)) :
    SelectItemAST → Option Projected
  | .star => none
  | .item e aliasName => do
    let bound ← bindSourceExpr source.tables source.sourceSchema e
    if isGrouped groups bound then
      some ⟨bound.expr, ⟨outputName aliasName (defaultSelectItemName e), bound.type⟩,
        bound.simpleColumn⟩
    else none

def projectItems (source : BoundSource) (stmt : SelectStatementAST) (groups : List BoundExprInfo) :
    Option (List Projected) :=
  if stmt.selectItems.any isStar then some (projectStar source.sourceSchema)
  else
    stmt.selectItems.mapM
      (projectItem source (if stmt.groupByExprs.isEmpty then none else some groups))

/-- An item of the `ORDER BY` of a statement without aggregates. -/
def bindOrderItem (source : BoundSource) (onOutput : Bool) (projected : List Projected)
    (item : OrderByItemAST) : Option SortKeySpec :=
  let outputSchema := projected.map (·.column)
  let expr : Option Expression := match outputAlias outputSchema item.expr with
    | some outputIdx =>
      if onOutput then some (.column .single outputIdx)
      else (projected[outputIdx]?.bind (·.sourceColumn)).map (.column .single)
    | none =>
      if onOutput then (bindOutputExpr outputSchema item.expr).map (·.expr)
      else (bindSourceExpr source.tables source.sourceSchema item.expr).map (·.expr)
  expr.map fun e => ⟨e, item.ascending⟩

def bindProjection (source : BoundSource) (stmt : SelectStatementAST) (requiresDedup : Bool) :
    Option BoundOutput := do
  let groups ← bindGroupColumns source stmt.groupByExprs
  let projected ← projectItems source stmt groups
  let orderBy ← stmt.orderByItems.mapM (bindOrderItem source requiresDedup projected)
  some
    { hasAggregate := false
      orderByOnOutput := requiresDedup
      groupByExprs := []
      aggTypes := []
      aggInputExprs := []
      aggregateSchema := []
      projectExprs := projected.map (·.expr)
      outputSchema := projected.map (·.column)
      orderBy := orderBy }

structure AggregateInput where
  type : AggregateType
  input : Option Expression
  column : Column
  deriving DecidableEq

/-- An output of a statement with aggregates: a position of the aggregate's row. -/
structure AggregateOutput where
  position : Nat
  column : Column
  deriving DecidableEq

/-- The loop over the select list of a statement with aggregates. -/
def bindAggregateItems (source : BoundSource) (groups : List BoundExprInfo) :
    List SelectItemAST → Nat → Option (List AggregateOutput × List AggregateInput)
  | [], _ => some ([], [])
  | .star :: _, _ => none
  | .item (.functionStar type name) aliasName :: rest, seen => do
    if type ≠ .count then none
    else
      let (outputs, inputs) ← bindAggregateItems source groups rest (seen + 1)
      let column : Column := ⟨outputName aliasName name, .int64⟩
      some (⟨groups.length + seen, column⟩ :: outputs, ⟨type, none, column⟩ :: inputs)
  | .item (.functionCall type name arg) aliasName :: rest, seen => do
    let input ← bindSourceExpr source.tables source.sourceSchema arg
    let outputType ← inferAggregateOutputType type input.type
    let (outputs, inputs) ← bindAggregateItems source groups rest (seen + 1)
    let column : Column := ⟨outputName aliasName name, outputType⟩
    some (⟨groups.length + seen, column⟩ :: outputs, ⟨type, some input.expr, column⟩ :: inputs)
  | .item e aliasName :: rest, seen => do
    let scalar ← bindSourceExpr source.tables source.sourceSchema e
    if scalar.simpleColumn.isNone then none
    else
      let position ← groups.findIdx? fun g => g.simpleColumn == scalar.simpleColumn
      let (outputs, inputs) ← bindAggregateItems source groups rest seen
      some (⟨position, ⟨outputName aliasName scalar.displayName, scalar.type⟩⟩ :: outputs, inputs)

def bindAggregateOrderItem (outputSchema : Schema) (item : OrderByItemAST) : Option SortKeySpec :=
  (bindOutputExpr outputSchema item.expr).map fun bound => ⟨bound.expr, item.ascending⟩

def bindAggregate (source : BoundSource) (stmt : SelectStatementAST) : Option BoundOutput := do
  let columns ← bindGroupColumns source stmt.groupByExprs
  let groups := distinctColumns columns
  let (outputs, inputs) ← bindAggregateItems source groups stmt.selectItems 0
  let outputSchema := outputs.map (·.column)
  let orderBy ← stmt.orderByItems.mapM (bindAggregateOrderItem outputSchema)
  some
    { hasAggregate := true
      orderByOnOutput := true
      groupByExprs := groups.map (·.expr)
      aggTypes := inputs.map (·.type)
      aggInputExprs := inputs.map (·.input)
      aggregateSchema := groups.map (fun g => ⟨g.displayName, g.type⟩) ++ inputs.map (·.column)
      projectExprs := outputs.map fun out => .column .single out.position
      outputSchema := outputSchema
      orderBy := orderBy }

def outputLogical (source : LogicalPlanNode) (output : BoundOutput) : LogicalPlanNode :=
  let projected : LogicalPlanNode :=
    .project (if output.hasAggregate then .aggregate source else source)
  if output.orderBy.isEmpty then projected else .sort projected

def bindOutput (source : BoundSource) (stmt : SelectStatementAST) (requiresDedup : Bool) :
    Option BoundOutput :=
  if stmt.selectItems.any isAggregate then bindAggregate source stmt
  else bindProjection source stmt requiresDedup

/-- `BindSelect`; `none` is an exception. -/
def bindSelect (catalog : CatalogManager) (stmt : SelectStatementAST) :
    Option BoundSelectStatement := do
  let source ← bindSource catalog stmt
  let hasAggregate := stmt.selectItems.any isAggregate
  let dedupViaGroupBy := !stmt.groupByExprs.isEmpty && !hasAggregate
  let requiresDedup := stmt.distinct || dedupViaGroupBy
  if stmt.selectItems.any isStar && (!stmt.groupByExprs.isEmpty || hasAggregate) then none
  else
    let output ← bindOutput source stmt requiresDedup
    some
      { tables := source.tables
        sourceSchema := source.sourceSchema
        hasJoin := source.hasJoin
        wherePredicate := source.wherePredicate
        hasAggregate := output.hasAggregate
        distinct := stmt.distinct
        dedupViaGroupBy := dedupViaGroupBy
        requiresDedup := requiresDedup
        orderByOnOutput := output.orderByOnOutput
        groupByExprs := output.groupByExprs
        aggTypes := output.aggTypes
        aggInputExprs := output.aggInputExprs
        aggregateSchema := output.aggregateSchema
        projectExprs := output.projectExprs
        outputSchema := output.outputSchema
        orderBy := output.orderBy
        limit := stmt.limit
        logicalPlan := outputLogical source.logicalPlan output }

end GraniteDb.Sql.Binder
