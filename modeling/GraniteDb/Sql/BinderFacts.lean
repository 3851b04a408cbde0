/- What an accepted SELECT is bound to: its tables, its positions and its logical plan. -/

import GraniteDb.Sql.SelectPlanner
import Mathlib.Data.List.ReduceOption

namespace GraniteDb.Sql.BinderFacts

open Catalog.CatalogManager Execution.Expressions Execution.Operators Optimizer.PhysicalPath
open Sql.SelectAst Sql.Binder Sql.SelectPlanner
open Option (bind_eq_some_iff bind_eq_bind map_eq_some_iff)
open List (mem_map mem_cons mem_cons_of_mem mem_cons_self not_mem_nil)

theorem mem_of_mapM_some {α β : Type} {f : α → Option β} {l : List α} {r : List β}
    (mapped : l.mapM f = some r) {b : β} (member : b ∈ r) : ∃ a ∈ l, f a = some b := by
  induction l generalizing r with
  | nil =>
    cases mapped
    cases member
  | cons a l ih =>
    simp only [List.mapM_cons, bind_eq_bind, bind_eq_some_iff] at mapped
    obtain ⟨b', first, rest, inner, same⟩ := mapped
    cases same
    rcases mem_cons.mp member with rfl | later
    · exact ⟨a, mem_cons_self, first⟩
    · obtain ⟨a', inL, found⟩ := ih inner later
      exact ⟨a', mem_cons_of_mem _ inL, found⟩

theorem exists_of_mapM_some {α β : Type} {f : α → Option β} {l : List α} {r : List β}
    (mapped : l.mapM f = some r) {a : α} (member : a ∈ l) : ∃ b ∈ r, f a = some b := by
  induction l generalizing r with
  | nil => cases member
  | cons a' l ih =>
    simp only [List.mapM_cons, bind_eq_bind, bind_eq_some_iff] at mapped
    obtain ⟨b', first, rest, inner, same⟩ := mapped
    cases same
    rcases mem_cons.mp member with rfl | later
    · exact ⟨b', mem_cons_self, first⟩
    · obtain ⟨b, inR, found⟩ := ih inner later
      exact ⟨b, mem_cons_of_mem _ inR, found⟩

section Expressions

def ReadsWithin (width : Nat) : Expression → Prop
  | .constant _ => True
  | .column .single columnIdx => columnIdx < width
  | .column _ _ => False
  | .comparison _ l r | .conjunction l r | .disjunction l r =>
    ReadsWithin width l ∧ ReadsWithin width r

theorem ReadsWithin.lt {width : Nat} {e : Expression} (reads : ReadsWithin width e) :
    ∀ i ∈ collectColumnRefs e, i < width := by
  induction e with
  | constant _ => exact fun _ none_ => absurd none_ not_mem_nil
  | column side columnIdx =>
    cases side with
    | single =>
      intro i member
      rw [List.mem_singleton.mp member]
      exact reads
    | left | right => exact reads.elim
  | comparison _ l r ihLeft ihRight | conjunction l r ihLeft ihRight
  | disjunction l r ihLeft ihRight =>
    intro i member
    rcases List.mem_append.mp member with inLeft | inRight
    · exact ihLeft reads.1 i inLeft
    · exact ihRight reads.2 i inRight

theorem ReadsWithin.evaluateRow {width : Nat} {e : Expression} (reads : ReadsWithin width e)
    {row row' : Common.Value.Row} (same : ∀ i ∈ collectColumnRefs e, row[i]? = row'[i]?) :
    e.evaluateRow row = e.evaluateRow row' := by
  unfold Expression.evaluateRow
  induction e with
  | constant _ => rfl
  | column side columnIdx =>
    cases side with
    | single => exact same columnIdx mem_cons_self
    | left | right => exact reads.elim
  | comparison _ l r ihLeft ihRight | conjunction l r ihLeft ihRight
  | disjunction l r ihLeft ihRight =>
    have left := ihLeft reads.1 fun i member => same i (List.mem_append_left _ member)
    have right := ihRight reads.2 fun i member => same i (List.mem_append_right _ member)
    simp only [Expression.evaluate, left, right]

variable {schema : Schema} {bound : BoundExprInfo}

theorem boundColumn_facts {columnIdx : Nat} (is : boundColumn schema columnIdx = some bound) :
    columnIdx < schema.length ∧ bound.simpleColumn = some columnIdx ∧
      bound.expr = .column .single columnIdx := by
  obtain ⟨col, read, rfl⟩ := map_eq_some_iff.mp is
  exact ⟨(List.getElem?_eq_some_iff.mp read).1, rfl, rfl⟩

theorem bindSourceExpr_reads {tables : List TableBinding} {ast : ExprAST}
    (is : bindSourceExpr tables schema ast = some bound) :
    ReadsWithin schema.length bound.expr := by
  induction ast generalizing bound with
  | literal value =>
    cases is
    trivial
  | columnRef qualifier columnName =>
    obtain ⟨position, _, isColumn⟩ := bind_eq_some_iff.mp is
    obtain ⟨inside, _, shape⟩ := boundColumn_facts isColumn
    rw [shape]
    exact inside
  | binary op l r ihLeft ihRight =>
    simp only [bindSourceExpr, bind_eq_bind, bind_eq_some_iff] at is
    obtain ⟨left, isLeft, right, isRight, shape⟩ := is
    cases op with
    | and | or | compare type =>
      cases shape
      exact ⟨ihLeft isLeft, ihRight isRight⟩
  | functionStar type name => cases is
  | functionCall type name arg _ => cases is

theorem simpleColumn_facts {tables : List TableBinding} {ast : ExprAST}
    (is : bindSourceExpr tables schema ast = some bound) {columnIdx : Nat}
    (simple : bound.simpleColumn = some columnIdx) :
    columnIdx < schema.length ∧ bound.expr = .column .single columnIdx := by
  cases ast with
  | literal value =>
    cases is
    cases simple
  | columnRef qualifier columnName =>
    obtain ⟨position, _, isColumn⟩ := bind_eq_some_iff.mp is
    obtain ⟨inside, isSimple, shape⟩ := boundColumn_facts isColumn
    rw [isSimple] at simple
    cases simple
    exact ⟨inside, shape⟩
  | binary op l r =>
    simp only [bindSourceExpr, bind_eq_bind, bind_eq_some_iff] at is
    obtain ⟨_, _, _, _, shape⟩ := is
    cases op with
    | and | or | compare type =>
      cases shape
      cases simple
  | functionStar type name => cases is
  | functionCall type name arg => cases is

theorem foldl_conjunction_reads {width : Nat} {parts : List Expression} {first : Expression}
    (firstReads : ReadsWithin width first) (reads : ∀ e ∈ parts, ReadsWithin width e) :
    ReadsWithin width (parts.foldl Expression.conjunction first) := by
  induction parts generalizing first with
  | nil => exact firstReads
  | cons e rest ih =>
    exact ih ⟨firstReads, reads e mem_cons_self⟩ fun e' member => reads e' (mem_cons_of_mem _ member)

theorem conjoin_reads {width : Nat} {parts : List Expression} {whole : Expression}
    (joined : conjoin parts = some whole) (reads : ∀ e ∈ parts, ReadsWithin width e) :
    ReadsWithin width whole := by
  cases parts with
  | nil => cases joined
  | cons first rest =>
    cases joined
    exact foldl_conjunction_reads (reads first mem_cons_self)
      fun e member => reads e (mem_cons_of_mem _ member)

end Expressions

variable {catalog : CatalogManager}

theorem bindTable_facts {ref : TableRefAST} {offset : Nat}
    {table : TableBinding} (bound : bindTable catalog ref offset = some table) :
    table.offset = offset ∧
      ∃ rel, catalog.getRelation table.relationId = some rel ∧ table.schema = rel.schema := by
  obtain ⟨rel, found, rfl⟩ := map_eq_some_iff.mp bound
  obtain ⟨relationId, _, found⟩ := bind_eq_some_iff.mp found
  refine ⟨rfl, rel, ?_, rfl⟩
  rw [show rel.relationId = relationId from getRelation_id found]
  exact found

theorem bindJoinKeys_inside {tables : List TableBinding} {leftSchema rightSchema : Schema}
    {joinPredicate : Option ExprAST} {keys : Nat × Nat}
    (bound : bindJoinKeys tables (leftSchema ++ rightSchema) leftSchema.length joinPredicate =
      some keys) : keys.1 < leftSchema.length ∧ keys.2 < rightSchema.length := by
  unfold bindJoinKeys at bound
  split at bound
  · simp only [bind_eq_bind, bind_eq_some_iff] at bound
    obtain ⟨left, ⟨leftInfo, leftBound, leftSimple⟩, right, ⟨rightInfo, rightBound, rightSimple⟩,
      outcome⟩ := bound
    have leftInside := (simpleColumn_facts leftBound leftSimple).1
    have rightInside := (simpleColumn_facts rightBound rightSimple).1
    rw [List.length_append] at leftInside rightInside
    split at outcome
    · cases outcome
      simp only
      omega
    · split at outcome
      · cases outcome
        simp only
        omega
      · cases outcome
  · cases bound

structure JoinSource (catalog : CatalogManager) (ast : SelectStatementAST) (source : BoundSource)
    (first second : TableBinding) (pushdown : Pushdown)
    (firstPredicate secondPredicate : Option Expression) (keys : Nat × Nat) : Prop where
  tables : source.tables = [first, second]
  schema : source.sourceSchema = first.schema ++ second.schema
  joined : source.hasJoin = true
  firstOffset : first.offset = 0
  secondOffset : second.offset = first.schema.length
  firstRelation : ∃ rel, catalog.getRelation first.relationId = some rel ∧
    first.schema = rel.schema
  secondRelation : ∃ rel, catalog.getRelation second.relationId = some rel ∧
    second.schema = rel.schema
  conjuncts : pushdownConjuncts [first, second] true ast.wherePredicate = some pushdown
  firstBound : bindPushdownPredicates pushdown.left first = some firstPredicate
  secondBound : bindPushdownPredicates pushdown.right second = some secondPredicate
  residual : bindResidual pushdown.residual [first, second] (first.schema ++ second.schema) =
    some source.wherePredicate
  firstKey : keys.1 < first.schema.length
  secondKey : keys.2 < second.schema.length
  plan : source.logicalPlan =
    .join (tableLogical first firstPredicate) (tableLogical second secondPredicate)
      (.comparison .eq (.column .left keys.1) (.column .right keys.2))

structure SingleSource (catalog : CatalogManager) (ast : SelectStatementAST)
    (source : BoundSource) (table : TableBinding) : Prop where
  tables : source.tables = [table]
  schema : source.sourceSchema = table.schema
  joined : source.hasJoin = false
  offset : table.offset = 0
  relation : ∃ rel, catalog.getRelation table.relationId = some rel ∧ table.schema = rel.schema
  predicate : bindPushdownPredicates ((ast.wherePredicate.map collectConjuncts).getD []) table =
    some source.wherePredicate
  plan : source.logicalPlan = tableLogical table source.wherePredicate

theorem bindSource_cases {ast : SelectStatementAST}
    {source : BoundSource} (bound : bindSource catalog ast = some source) :
    (∃ table, SingleSource catalog ast source table) ∨
      ∃ first second pushdown firstPredicate secondPredicate keys,
        JoinSource catalog ast source first second pushdown firstPredicate secondPredicate keys := by
  obtain ⟨⟨first, second?⟩, tables, inner⟩ := bind_eq_some_iff.mp bound
  simp only [bindTables, bind_eq_bind, bind_eq_some_iff] at tables
  obtain ⟨left, leftBound, rest⟩ := tables
  obtain ⟨leftOffset, leftRelation⟩ := bindTable_facts leftBound
  cases joinTable : ast.joinTable with
  | none =>
    rw [joinTable] at rest
    cases rest
    simp only [bindSingleSource, pushdownConjuncts, bind_eq_bind, Bool.false_eq_true,
      if_false, Option.bind_some, bind_eq_some_iff] at inner
    obtain ⟨predicate, predicateBound, same⟩ := inner
    cases same
    exact .inl ⟨first, rfl, rfl, rfl, leftOffset, leftRelation, predicateBound, rfl⟩
  | some ref =>
    rw [joinTable] at rest
    simp only [bind_eq_some_iff] at rest
    obtain ⟨right, rightBound, rest⟩ := rest
    obtain ⟨rightOffset, rightRelation⟩ := bindTable_facts rightBound
    split at rest
    · cases rest
    · cases rest
      simp only [bindJoinSource, bind_eq_bind, bind_eq_some_iff] at inner
      obtain ⟨pushdown, conjuncts, firstPredicate, firstBound, secondPredicate, secondBound,
        residual, residualBound, keys, keysBound, same⟩ := inner
      cases same
      obtain ⟨firstKey, secondKey⟩ := bindJoinKeys_inside keysBound
      exact .inr ⟨first, right, pushdown, firstPredicate, secondPredicate, keys, rfl, rfl, rfl,
        leftOffset, rightOffset, leftRelation, rightRelation, conjuncts, firstBound, secondBound,
        residualBound, firstKey, secondKey, rfl⟩

theorem bindSource_tables {ast : SelectStatementAST}
    {source : BoundSource} (bound : bindSource catalog ast = some source) :
    ∃ left right?, bindTables catalog ast = some (left, right?) ∧
      source.tables = left :: right?.toList := by
  obtain ⟨⟨left, right?⟩, tables, inner⟩ := bind_eq_some_iff.mp bound
  refine ⟨left, right?, tables, ?_⟩
  cases right? with
  | none =>
    simp only [bindSingleSource, bind_eq_bind, bind_eq_some_iff] at inner
    obtain ⟨_, _, _, _, same⟩ := inner
    cases same
    rfl
  | some right =>
    simp only [bindJoinSource, bind_eq_bind, bind_eq_some_iff] at inner
    obtain ⟨_, _, _, _, _, _, _, _, _, _, same⟩ := inner
    cases same
    rfl

section Outputs

variable {ast : SelectStatementAST} {stmt : BoundSelectStatement} {source : BoundSource}
  {groups : List BoundExprInfo}

theorem bindSelect_facts {catalog : CatalogManager} (bound : bindSelect catalog ast = some stmt) :
    ∃ source output requiresDedup, bindSource catalog ast = some source ∧
      bindOutput source ast requiresDedup = some output ∧
      stmt.tables = source.tables ∧ stmt.sourceSchema = source.sourceSchema ∧
      stmt.hasJoin = source.hasJoin ∧ stmt.wherePredicate = source.wherePredicate ∧
      stmt.hasAggregate = output.hasAggregate ∧ stmt.orderByOnOutput = output.orderByOnOutput ∧
      stmt.groupByExprs = output.groupByExprs ∧ stmt.aggInputExprs = output.aggInputExprs ∧
      stmt.projectExprs = output.projectExprs ∧ stmt.orderBy = output.orderBy ∧
      stmt.logicalPlan = outputLogical source.logicalPlan output := by
  simp only [bindSelect, bind_eq_bind, bind_eq_some_iff] at bound
  obtain ⟨source, sourceBound, rest⟩ := bound
  split at rest
  · cases rest
  · obtain ⟨output, outputBound, same⟩ := bind_eq_some_iff.mp rest
    cases same
    exact ⟨source, output, _, sourceBound, outputBound, rfl, rfl, rfl, rfl, rfl, rfl, rfl, rfl,
      rfl, rfl, rfl⟩

theorem bindSelect_congr {catalog catalog' : CatalogManager}
    (bound : bindSelect catalog ast = some stmt) (names : catalog'.names = catalog.names)
    (same : ∀ table ∈ stmt.tables, ∃ rel, catalog'.getRelation table.relationId = some rel ∧
      rel.schema = table.schema) : bindSelect catalog' ast = some stmt := by
  obtain ⟨source, _, _, sourceBound, _, isTables, _⟩ := bindSelect_facts bound
  obtain ⟨left, right?, tables, both⟩ := bindSource_tables sourceBound
  rw [isTables, both] at same
  have sameTable {ref : TableRefAST} {offset : Nat} {table : TableBinding}
      (listed : table ∈ left :: right?.toList) (isTable : bindTable catalog ref offset = some table) :
      bindTable catalog' ref offset = some table := by
    obtain ⟨rel, isRelation, rfl⟩ := map_eq_some_iff.mp isTable
    obtain ⟨relationId, isName, found⟩ := bind_eq_some_iff.mp isRelation
    obtain ⟨rel', found', schema⟩ := same _ listed
    rw [show rel.relationId = relationId from getRelation_id found] at found'
    refine map_eq_some_iff.mpr ⟨rel', bind_eq_some_iff.mpr ⟨relationId, ?_, found'⟩, ?_⟩
    · rw [names]
      exact isName
    · rw [schema, show rel'.relationId = relationId from getRelation_id found',
        show rel.relationId = relationId from getRelation_id found]
  have sameTables : bindTables catalog' ast = bindTables catalog ast := by
    rw [tables]
    simp only [bindTables, bind_eq_bind, bind_eq_some_iff] at tables ⊢
    obtain ⟨left', isLeft, rest⟩ := tables
    cases joinTable : ast.joinTable with
    | none =>
      simp only [joinTable] at rest ⊢
      cases rest
      exact ⟨left, sameTable mem_cons_self isLeft, rfl⟩
    | some ref =>
      simp only [joinTable, bind_eq_some_iff] at rest ⊢
      obtain ⟨right, isRight, rest⟩ := rest
      split at rest
      · cases rest
      · rename_i apart
        cases rest
        refine ⟨left, sameTable mem_cons_self isLeft, right,
          sameTable (mem_cons_of_mem _ (List.mem_singleton_self _)) isRight, ?_⟩
        rw [if_neg apart]
  rw [← bound, bindSelect, bindSelect, bindSource, bindSource, sameTables]

private theorem groupColumns_reads {exprs : List ExprAST}
    (bound : bindGroupColumns source exprs = some groups) :
    ∀ g ∈ groups, ReadsWithin source.sourceSchema.length g.expr := by
  intro g member
  obtain ⟨e, _, found⟩ := mem_of_mapM_some bound member
  exact bindSourceExpr_reads (Option.filter_eq_some_iff.mp found).1

private theorem distinctColumns_subset (columns : List BoundExprInfo) :
    distinctColumns columns ⊆ columns := by
  have grown (rest seen : List BoundExprInfo) : (rest.foldl (fun seen g =>
      if seen.any fun s => s.simpleColumn == g.simpleColumn then seen else seen ++ [g]) seen) ⊆
        seen ++ rest := by
    induction rest generalizing seen with
    | nil => simp
    | cons g rest ih =>
      rw [List.foldl_cons]
      split
      · intro x member
        rcases List.mem_append.mp (ih seen member) with old | later
        · exact List.mem_append_left _ old
        · exact List.mem_append_right _ (mem_cons_of_mem _ later)
      · intro x member
        simpa using ih _ member
  have whole := grown columns []
  rwa [List.nil_append] at whole

private theorem projectItems_reads {projected : List Projected}
    (bound : projectItems source ast groups = some projected) :
    ∀ p ∈ projected, ReadsWithin source.sourceSchema.length p.expr ∧
      ∀ i, p.sourceColumn = some i → i < source.sourceSchema.length := by
  intro p member
  unfold projectItems at bound
  split at bound
  · cases bound
    obtain ⟨⟨col, i⟩, listed, rfl⟩ := mem_map.mp member
    have inside : i < source.sourceSchema.length :=
      (List.getElem?_eq_some_iff.mp (List.mem_zipIdx_iff_getElem?.mp listed)).1
    refine ⟨inside, ?_⟩
    rintro j ⟨⟩
    exact inside
  · obtain ⟨item, _, found⟩ := mem_of_mapM_some bound member
    generalize (if ast.groupByExprs.isEmpty then none else some groups) = columns at found
    cases item with
    | star => cases found
    | item e aliasName =>
      simp only [projectItem, bind_eq_bind, bind_eq_some_iff] at found
      obtain ⟨info, isBound, rest⟩ := found
      split at rest
      · cases rest
        exact ⟨bindSourceExpr_reads isBound, fun i simple => (simpleColumn_facts isBound simple).1⟩
      · cases rest

private theorem orderItem_reads {projected : List Projected}
    (projectedReads : ∀ p ∈ projected, ∀ i, p.sourceColumn = some i → i <
      source.sourceSchema.length)
    {item : OrderByItemAST} {key : SortKeySpec}
    (bound : bindOrderItem source false projected item = some key) :
    ReadsWithin source.sourceSchema.length key.expr := by
  simp only [bindOrderItem, Bool.false_eq_true, if_false] at bound
  obtain ⟨e, isExpr, rfl⟩ := map_eq_some_iff.mp bound
  split at isExpr
  · obtain ⟨i, isColumn, rfl⟩ := map_eq_some_iff.mp isExpr
    obtain ⟨p, atIdx, isSource⟩ := bind_eq_some_iff.mp isColumn
    exact projectedReads p (List.mem_of_getElem? atIdx) i isSource
  · obtain ⟨info, isBound, rfl⟩ := map_eq_some_iff.mp isExpr
    exact bindSourceExpr_reads isBound

private theorem aggregateItems_reads {items : List SelectItemAST} {seen : Nat}
    {outputs : List AggregateOutput} {inputs : List AggregateInput}
    (bound : bindAggregateItems source groups items seen = some (outputs, inputs)) :
    ∀ input ∈ inputs, ∀ e, input.input = some e →
      ReadsWithin source.sourceSchema.length e := by
  induction items generalizing seen outputs inputs with
  | nil =>
    cases bound
    exact fun _ none_ => absurd none_ not_mem_nil
  | cons item rest ih =>
    cases item with
    | star => cases bound
    | item e aliasName =>
      cases e with
      | literal _ | columnRef _ _ | binary _ _ _ =>
        -- A scalar item leaves the inputs as they are.
        simp only [bindAggregateItems, bind_eq_bind, bind_eq_some_iff] at bound
        obtain ⟨info, _, rest'⟩ := bound
        split at rest'
        · cases rest'
        · simp only [bind_eq_some_iff] at rest'
          obtain ⟨position, _, both, inner, same⟩ := rest'
          cases same
          exact ih inner
      | functionStar type name =>
        simp only [bindAggregateItems, bind_eq_bind] at bound
        split at bound
        · cases bound
        · obtain ⟨both, inner, same⟩ := bind_eq_some_iff.mp bound
          cases same
          intro input member e isInput
          rcases mem_cons.mp member with rfl | later
          · cases isInput
          · exact ih inner input later e isInput
      | functionCall type name arg =>
        simp only [bindAggregateItems, bind_eq_bind, bind_eq_some_iff] at bound
        obtain ⟨info, isBound, outputType, _, both, inner, same⟩ := bound
        cases same
        intro input member e isInput
        rcases mem_cons.mp member with rfl | later
        · cases isInput
          exact bindSourceExpr_reads isBound
        · exact ih inner input later e isInput

/-- What the statement evaluates on source rows: the residual `WHERE` of a join, `GROUP BY`, the
select list, and `ORDER BY` unless it is on the output. -/
def sourceExprs (stmt : BoundSelectStatement) : List Expression :=
  stmt.wherePredicate.toList ++ stmt.groupByExprs ++ stmt.aggInputExprs.reduceOption ++
    (if stmt.hasAggregate then [] else stmt.projectExprs) ++
    (if stmt.hasAggregate || stmt.orderByOnOutput then [] else stmt.orderBy.map (·.expr))

theorem sourceColumns_eq (stmt : BoundSelectStatement) :
    sourceColumns stmt = (sourceExprs stmt).flatMap collectColumnRefs := by
  unfold sourceColumns sourceExprs
  split <;> split <;> simp

theorem sourceExprs_reads {catalog : CatalogManager} (bound : bindSelect catalog ast = some stmt)
    (whereReads : ∀ e, stmt.wherePredicate = some e → ReadsWithin stmt.sourceSchema.length e) :
    ∀ e ∈ sourceExprs stmt, ReadsWithin stmt.sourceSchema.length e := by
  obtain ⟨source, output, requiresDedup, _, outputBound, _, schema, _, _, hasAggregate, onOutput,
    groupBy, aggInputs, project, orderBy, _⟩ := bindSelect_facts bound
  intro e member
  simp only [sourceExprs, List.mem_append, or_assoc] at member
  rcases member with inWhere | member
  · exact whereReads e (Option.mem_toList.mp inWhere)
  rw [hasAggregate, onOutput, groupBy, aggInputs, project, orderBy] at member
  rw [schema]
  unfold bindOutput at outputBound
  split at outputBound
  · simp only [bindAggregate, bind_eq_bind, bind_eq_some_iff] at outputBound
    obtain ⟨columns, groups, ⟨outputs, inputs⟩, items, order, _, same⟩ := outputBound
    cases same
    simp only [if_true, Bool.true_or, not_mem_nil, or_false] at member
    rcases member with isGroup | isInput
    · obtain ⟨g, listed, rfl⟩ := mem_map.mp isGroup
      exact groupColumns_reads groups g (distinctColumns_subset columns listed)
    · obtain ⟨input, listed, same⟩ := mem_map.mp (List.reduceOption_mem_iff.mp isInput)
      exact aggregateItems_reads items input listed e same
  · simp only [bindProjection, bind_eq_bind, bind_eq_some_iff] at outputBound
    obtain ⟨groups, _, projected, items, order, ordered, same⟩ := outputBound
    cases same
    have reads := projectItems_reads items
    simp only [List.reduceOption_nil, not_mem_nil, false_or, Bool.false_eq_true, if_false,
      Bool.false_or] at member
    rcases member with isProject | inOrder
    · obtain ⟨p, listed, rfl⟩ := mem_map.mp isProject
      exact (reads p listed).1
    · cases requiresDedup with
      | true => simp at inOrder
      | false =>
        simp only [Bool.false_eq_true, if_false] at inOrder
        obtain ⟨key, listed, rfl⟩ := mem_map.mp inOrder
        obtain ⟨item, _, isBound⟩ := mem_of_mapM_some ordered listed
        exact orderItem_reads (fun p member => (reads p member).2) isBound

end Outputs

end GraniteDb.Sql.BinderFacts
