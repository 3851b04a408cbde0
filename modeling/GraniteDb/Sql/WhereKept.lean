/- For which statements and plans every source row makes the whole WHERE true. -/

import GraniteDb.Sql.JoinLayout
import GraniteDb.Sql.SourceRows
import GraniteDb.Sql.WhereSplit

namespace GraniteDb.Sql.WhereKept

open Common.Value Catalog.CatalogManager Execution.Expressions Execution.Operators Lib.Pull
open Optimizer.PhysicalPath Optimizer.PlanEnumerator Optimizer.BaseAccess Optimizer.JoinSteps
open Optimizer.LogicalQuery Sql.SelectAst Sql.Binder Sql.SelectPlanner Sql.BinderFacts
open Sql.JoinLayout Sql.SourceRows Sql.WhereSplit
open Optimizer.JoinGraph
open Option (bind_eq_some_iff bind_eq_bind mem_toList mem_def map_eq_some_iff)

def tableSlice (path : PhysicalPath) (row : Row) (table : TableBinding) : Row :=
  match path.relationOffset table.relationId with
  | some offset => (row.drop offset).take table.schema.length
  | none => []

/-- A source row with its columns in the order the binder counts them in. -/
def binderRow (stmt : BoundSelectStatement) (path : PhysicalPath) (row : Row) : Row :=
  stmt.tables.flatMap (tableSlice path row)

def MeetsWhere (ast : SelectStatementAST) (stmt : BoundSelectStatement) (path : PhysicalPath)
    (row : Row) : Prop :=
  ∀ e ∈ ast.wherePredicate, Holds stmt.tables stmt.sourceSchema e (binderRow stmt path row)

/-- Whatever is stored and indexed, every source row of every plan of a kind meets the
`WHERE`. -/
def KeepsWhere (ast : SelectStatementAST) (stmt : BoundSelectStatement)
    (kind : PhysicalPath → Prop) : Prop :=
  ∀ (partitioning : Partitioning) (catalog : CatalogManager) (query : OptimizerQuery)
    (path : PhysicalPath) (rows : Pull Row), bindSelect catalog ast = some stmt →
    selectQuery stmt = some query → Optimized catalog query path → kind path →
    sourceRows partitioning catalog stmt path = some rows →
    ∀ row ∈ rows.items, MeetsWhere ast stmt path row

/-- The `column op constant` conjuncts of a table's predicate imply all of it. -/
def ExtractedSuffice (table : TableBinding) (predicate : Option Expression) : Prop :=
  ∀ row, FitsSchema table.schema row →
    (∀ p ∈ predicate.toList.flatMap (collectConjunctiveBasePredicates table.relationId),
      SatisfiesAt p p.columnIdx row) → ∀ e ∈ predicate, e.Accepts row

def pushedPredicates : LogicalPlanNode → List (Nat × Expression)
  | .get _ => []
  | .filter (.get relationId) predicate => [(relationId, predicate)]
  | .filter child _ => pushedPredicates child
  | .join left right _ => pushedPredicates left ++ pushedPredicates right
  | .project child => pushedPredicates child
  | .sort child => pushedPredicates child
  | .aggregate child => pushedPredicates child

/-- The tables of the statement may hold any rows of their schemas. -/
def tableContents (stmt : BoundSelectStatement) : Contents where
  schema relationId :=
    ((stmt.tables.find? (·.relationId == relationId)).map (·.schema)).getD []
  may _ _ := True

/-- Rows that a plan with the tables in this order may put together, and that make its residual
predicate true at its positions, meet what is pushed down, and the residual predicate in the columns
it was bound to. `far` is as in `Reaches`. -/
def ChecksSuffice (stmt : BoundSelectStatement) (far : Prop) (rels : List Nat) : Prop :=
  ∀ query, selectQuery stmt = some query → (∀ relationId ∈ query.relations, relationId ∈ rels) →
    ∀ order : JoinOrder, order.Valid query → order.relations = rels →
    ∀ σ, Reaches (tableContents stmt) query far order σ →
    (∀ e ∈ stmt.wherePredicate, e.Accepts (rels.flatMap σ)) →
      (∀ pushed ∈ pushedPredicates stmt.logicalPlan, pushed.2.Accepts (σ pushed.1)) ∧
      ∀ e ∈ stmt.wherePredicate, e.Accepts (stmt.tables.flatMap fun table => σ table.relationId)

/-- The columns of the join are neither DOUBLE nor VARCHAR. -/
def PlainKeys (stmt : BoundSelectStatement) : Prop :=
  ∀ query, selectQuery stmt = some query → ∀ p ∈ query.joins, ∀ c,
    (c = leftColumn p ∨ c = rightColumn p) →
    ∀ col ∈ ((tableContents stmt).schema c.1)[c.2]?, col.type ≠ .double ∧ col.type ≠ .varchar

theorem pushedPredicates_output (source : LogicalPlanNode) (output : BoundOutput) :
    pushedPredicates (outputLogical source output) = pushedPredicates source := by
  unfold outputLogical
  simp only
  split <;> split <;> rfl

theorem pushedPredicates_table (table : TableBinding) (predicate : Option Expression) :
    pushedPredicates (tableLogical table predicate) =
      predicate.toList.map fun e => (table.relationId, e) := by
  cases predicate <;> rfl

theorem extracted_relationId {relationId : Nat} {e : Expression} {p : QueryPredicateSpec}
    (member : p ∈ collectConjunctiveBasePredicates relationId e) : p.relationId = relationId := by
  have ofExtracted {e : Expression} (listed : p ∈ (extractBasePredicate relationId e).toList) :
      p.relationId = relationId := by
    have extracted := mem_toList.mp listed
    unfold extractBasePredicate at extracted
    split at extracted
    · cases extracted
      rfl
    · cases extracted
  induction e with
  | conjunction l r ihLeft ihRight =>
    rcases List.mem_append.mp member with inLeft | inRight
    · exact ihLeft inLeft
    · exact ihRight inRight
  | constant _ | column _ _ | comparison _ _ _ | disjunction _ _ => exact ofExtracted member

theorem selectQuery_single {catalog : CatalogManager} {ast : SelectStatementAST}
    {stmt : BoundSelectStatement} {source : BoundSource} {output : BoundOutput}
    {table : TableBinding} (single : SingleSource catalog ast source table)
    (plan : stmt.logicalPlan = outputLogical source.logicalPlan output) :
    ∃ query, selectQuery stmt = some query ∧ query.relations = [table.relationId] ∧
      getPredicatesForRelation query table.relationId =
        source.wherePredicate.toList.flatMap
          (collectConjunctiveBasePredicates table.relationId) := by
  have collected : collectLogicalQuery stmt.logicalPlan = some ⟨[table.relationId],
      source.wherePredicate.toList.flatMap
        (collectConjunctiveBasePredicates table.relationId), []⟩ := by
    rw [plan, collectLogicalQuery_output, single.plan, collectLogicalQuery_table]
  refine ⟨_, by rw [selectQuery, optimizerQuery, collected]; rfl, by simp, ?_⟩
  refine List.filter_eq_self.mpr fun p member => ?_
  obtain ⟨e, _, inExtracted⟩ := List.mem_flatMap.mp member
  simpa using extracted_relationId inExtracted

section OneTable

theorem single_relation {catalog : CatalogManager} {ast : SelectStatementAST}
    {source : BoundSource} {table : TableBinding} (bound : bindSource catalog ast = some source)
    (tables : source.tables = [table]) :
    ast.joinTable = none ∧ bindTable catalog ast.fromTable 0 = some table ∧
      SingleSource catalog ast source table := by
  have single : SingleSource catalog ast source table := by
    rcases bindSource_cases bound with ⟨table', single⟩ | ⟨_, _, _, _, _, _, join⟩
    · have same := single.tables.symm.trans tables
      cases same
      exact single
    · have two := join.tables.symm.trans tables
      cases two
  obtain ⟨⟨left, right?⟩, isTables, inner⟩ := bind_eq_some_iff.mp bound
  simp only [bindTables, bind_eq_bind, bind_eq_some_iff] at isTables
  obtain ⟨left', isLeft, rest⟩ := isTables
  cases joinTable : ast.joinTable with
  | none =>
    rw [joinTable] at rest
    cases rest
    simp only [bindSingleSource, bind_eq_bind, bind_eq_some_iff] at inner
    obtain ⟨_, _, _, _, same⟩ := inner
    cases same
    cases tables
    exact ⟨rfl, isLeft, single⟩
  | some ref =>
    rw [joinTable] at rest
    simp only [bind_eq_some_iff] at rest
    obtain ⟨right, _, rest⟩ := rest
    split at rest
    · cases rest
    · cases rest
      simp only [bindJoinSource, bind_eq_bind, bind_eq_some_iff] at inner
      obtain ⟨_, _, _, _, _, _, _, _, _, _, same⟩ := inner
      cases same
      cases tables

variable {catalog : CatalogManager} {ast : SelectStatementAST} {stmt : BoundSelectStatement}
  {table : TableBinding}

private theorem base_of_single {query : OptimizerQuery} {path : PhysicalPath}
    (optimized : Optimized catalog query path) {relationId : Nat}
    (only : ∀ r ∈ query.relations, r = relationId) :
    ∃ base, path = .base base ∧ base.relationId = relationId ∧ Retained catalog query base := by
  obtain ⟨_, sub⟩ := enumerated_relations optimized.enumerated
  cases optimized.enumerated with
  | @base right listed retained => exact ⟨right, rfl, only _ listed, retained⟩
  | @join left right _ _ _ _ listed fresh _ _ tried =>
    obtain ⟨node, rfl, _⟩ := tryBuildJoinPaths_shape tried
    obtain ⟨x, inLeft⟩ := List.exists_mem_of_length_pos (relations_length_pos left)
    have isRelation := only x (sub (List.mem_append_left _ inLeft))
    exact absurd (only _ listed ▸ isRelation ▸ inLeft) fresh

private theorem binderRow_single {path : BasePath} {row : Row} (tables : stmt.tables = [table])
    (same : path.relationId = table.relationId) (long : row.length = table.schema.length) :
    binderRow stmt (.base path) row = row := by
  simp [binderRow, tables, tableSlice, PhysicalPath.relationOffset, same, ← long]

private theorem keeps_of_extracted (tables : stmt.tables = [table])
    (extracted : ExtractedSuffice table stmt.wherePredicate) :
    KeepsWhere ast stmt fun _ => True := by
  intro partitioning catalog query path rows bound planned optimized _ built row member
  obtain ⟨source, output, _, sourceBound, _, isTables, schema, hasJoin, predicate, _, _, _, _, _,
    _, plan⟩ := bindSelect_facts bound
  obtain ⟨_, _, single⟩ := single_relation sourceBound (isTables.symm.trans tables)
  obtain ⟨query', planned', relations, predicates⟩ := selectQuery_single single plan
  rw [planned] at planned'
  cases planned'
  obtain ⟨base, rfl, isRelation, rel, found, estRows, candidate⟩ :=
    @base_of_single _ _ _ optimized table.relationId (by simp [relations])
  have rowsOf : singleTableRows catalog stmt base = some rows := by
    have notJoin : stmt.hasJoin = false := hasJoin.trans single.joined
    simpa [sourceRows, singleBaseTable, tables, notJoin, isRelation] using built
  obtain ⟨rel', found', relSchema⟩ := single.relation
  rw [← isRelation, mem_def.mp found] at found'
  cases found'
  obtain ⟨long, facts⟩ := mem_singleTableRows candidate found rowsOf member
  have accepted : ∀ e ∈ source.wherePredicate, e.Accepts row := by
    rw [← predicate]
    rcases facts with filtered | ⟨fits, satisfied⟩
    · exact filtered
    · rw [isRelation, predicates] at satisfied
      exact extracted row (relSchema ▸ fits) (predicate ▸ satisfied)
  rw [MeetsWhere, binderRow_single tables isRelation (by rw [long, relSchema]), tables, schema,
    single.schema]
  exact (single_where_iff single).mpr accepted

def singleton (rel : RelationCatalogEntry) (row : Row) (fits : FitsSchema rel.schema row) :
    RelationCatalogEntry where
  relationId := rel.relationId
  schema := rel.schema
  heap := [(⟨0, 0⟩, row)]
  indexes := []
  fits := fits.alone
  maintained := by simp

def singletonCatalog (catalog : CatalogManager) (rel : RelationCatalogEntry) (row : Row)
    (fits : FitsSchema rel.schema row) : CatalogManager where
  relations := [singleton rel row fits]
  names := catalog.names

private theorem singletonCatalog_getRelation {rel : RelationCatalogEntry} {row : Row}
    (fits : FitsSchema rel.schema row) :
    (singletonCatalog catalog rel row fits).getRelation rel.relationId =
      some (singleton rel row fits) := by
  simp [CatalogManager.getRelation, singletonCatalog, singleton]

private theorem extracted_of_keeps (bound : bindSelect catalog ast = some stmt)
    (tables : stmt.tables = [table]) (keeps : KeepsWhere ast stmt fun _ => True) :
    ExtractedSuffice table stmt.wherePredicate := by
  intro row fits extracted
  obtain ⟨source, output, _, sourceBound, _, isTables, schema, hasJoin, predicate, _, _, _, _, _,
    _, plan⟩ := bindSelect_facts bound
  obtain ⟨_, _, single⟩ := single_relation sourceBound (isTables.symm.trans tables)
  obtain ⟨query, planned, relations, predicates⟩ := selectQuery_single single plan
  obtain ⟨rel, found, relSchema⟩ := single.relation
  have sameId : rel.relationId = table.relationId := getRelation_id found
  have fits' : FitsSchema rel.schema row := relSchema ▸ fits
  have stored := @singletonCatalog_getRelation catalog rel row fits'
  have isScan : (seqCandidate (singleton rel row fits') (getPredicatesForRelation query
      table.relationId) ⟨0⟩).relationId = table.relationId := sameId
  generalize scanned : seqCandidate (singleton rel row fits') (getPredicatesForRelation query
    table.relationId) ⟨0⟩ = scan at isScan
  rw [sameId] at stored
  have optimized : Optimized (singletonCatalog catalog rel row fits') query (.base scan) := by
    refine ⟨.base ?_ ⟨singleton rel row fits', ?_, ⟨0⟩, ?_⟩, ?_⟩
    · rw [isScan, relations]
      exact List.mem_singleton_self _
    · rw [isScan]
      exact stored
    · rw [isScan, ← scanned]
      exact List.mem_cons_self
    · rw [relations]
      intro relationId listed
      rw [List.mem_singleton.mp listed, PhysicalPath.relations, isScan]
      exact List.mem_singleton_self _
  have executor : scan.buildExecutor (singletonCatalog catalog rel row fits') =
      some (withFilter (.item row .done) (buildSingleTuplePredicateExpr
        (getPredicatesForRelation query table.relationId))) := by
    simp only [BasePath.buildExecutor, isScan, stored, bind_eq_bind, Option.bind_some]
    rw [← scanned]
    rfl
  have built : sourceRows ⟨fun _ => 0, 1⟩ (singletonCatalog catalog rel row fits') stmt
      (.base scan) = some (withFilter (.item row .done) (buildSingleTuplePredicateExpr
        (getPredicatesForRelation query table.relationId))) := by
    have notJoin : stmt.hasJoin = false := hasJoin.trans single.joined
    have noIndex : scan.accessIndex = none := by rw [← scanned]; rfl
    have noEntry : indexOnlyEntry stmt scan (singleton rel row fits') = none := by
      simp [indexOnlyEntry, noIndex]
    have notLate : canUseLateMaterialization stmt scan = false := by
      simp [canUseLateMaterialization, noIndex]
    have noBitmap : bitmapRows stmt (singleton rel row fits') = none := by
      have noRids (e : Expression) : bitmapRids (singleton rel row fits') e = none :=
        bitmapRids_of_noIndex rfl e
      unfold bitmapRows
      split
      · cases stmt.wherePredicate with
        | none => rfl
        | some e => simp [noRids]
      · rfl
    simp [sourceRows, singleBaseTable, tables, notJoin, isScan, singleTableRows, stored, noEntry,
      notLate, noBitmap, executor]
  have yielded : row ∈ (withFilter (.item row .done) (buildSingleTuplePredicateExpr
      (getPredicatesForRelation query table.relationId))).items := by
    rw [buildSingleTuplePredicateExpr, single_passes fun part member => ?_]
    · exact List.mem_cons_self
    obtain ⟨p, listed, rfl⟩ := List.mem_map.mp member
    rw [predicates, ← predicate] at listed
    exact extracted p listed
  have bound' : bindSelect (singletonCatalog catalog rel row fits') ast = some stmt := by
    refine bindSelect_congr bound rfl fun table' listed => ?_
    rw [tables] at listed
    rw [List.mem_singleton.mp listed]
    exact ⟨_, stored, relSchema.symm⟩
  have meets := keeps _ _ _ _ _ bound' planned optimized trivial built row yielded
  rw [MeetsWhere, binderRow_single tables isScan fits.length, tables, schema, single.schema]
    at meets
  rw [predicate]
  exact (single_where_iff single).mp meets

end OneTable

section Join

variable {catalog : CatalogManager} {ast : SelectStatementAST} {stmt : BoundSelectStatement}
  {source : BoundSource} {first second : TableBinding} {pushdown : Pushdown}
  {firstPredicate secondPredicate : Option Expression} {keys : Nat × Nat}

private theorem tableContents_schema (tables : stmt.tables = [first, second])
    (join : JoinSource catalog ast source first second pushdown firstPredicate secondPredicate keys)
    {table : TableBinding} (listed : table ∈ stmt.tables) :
    (tableContents stmt).schema table.relationId = table.schema := by
  obtain ⟨firstRel, firstFound, firstSchema⟩ := join.firstRelation
  obtain ⟨secondRel, secondFound, secondSchema⟩ := join.secondRelation
  rw [tableContents, tables]
  rw [tables] at listed
  rcases List.mem_pair.mp listed with rfl | rfl
  · simp
  · by_cases same : first.relationId = table.relationId
    · rw [same, secondFound] at firstFound
      cases firstFound
      simp [same, firstSchema, secondSchema]
    · simp [same]

private theorem binderRow_of_values {path : PhysicalPath} {row : Row} {σ : Nat → Row}
    (values : ∀ c v, c.1 ∈ path.relations → columnOf σ c = some v → ValueAt path row c v)
    (inside : ∀ table ∈ stmt.tables, table.relationId ∈ path.relations)
    (long : ∀ table ∈ stmt.tables, (σ table.relationId).length = table.schema.length) :
    binderRow stmt path row = stmt.tables.flatMap fun table => σ table.relationId := by
  refine List.flatMap_congr fun table listed => ?_
  have here := inside table listed
  obtain ⟨offset, lies⟩ := Option.isSome_iff_exists.mp (relationOffset_isSome.mpr here)
  rw [tableSlice, lies]
  refine List.ext_getElem? fun i => ?_
  rw [List.getElem?_take, List.getElem?_drop, ← long table listed]
  split
  · rename_i within
    obtain ⟨offset', lies', read⟩ := values (table.relationId, i) _ here
      (List.getElem?_eq_getElem within)
    rw [lies] at lies'
    cases lies'
    rw [read, List.getElem?_eq_getElem within]
  · rename_i beyond
    rw [List.getElem?_eq_none (Nat.not_lt.mp beyond)]

private theorem pushed_join (join : JoinSource catalog ast source first second pushdown
      firstPredicate secondPredicate keys) {output : BoundOutput}
    (plan : stmt.logicalPlan = outputLogical source.logicalPlan output) {σ : Nat → Row} :
    (∀ pushed ∈ pushedPredicates stmt.logicalPlan, pushed.2.Accepts (σ pushed.1)) ↔
      (∀ e ∈ firstPredicate, e.Accepts (σ first.relationId)) ∧
        ∀ e ∈ secondPredicate, e.Accepts (σ second.relationId) := by
  rw [plan, pushedPredicates_output, join.plan, pushedPredicates, pushedPredicates_table,
    pushedPredicates_table]
  simp [or_imp, forall_and]

private theorem meets_iff {output : BoundOutput} (tables : stmt.tables = [first, second])
    (join : JoinSource catalog ast source first second pushdown firstPredicate secondPredicate keys)
    (schema : stmt.sourceSchema = first.schema ++ second.schema)
    (predicate : stmt.wherePredicate = source.wherePredicate)
    (plan : stmt.logicalPlan = outputLogical source.logicalPlan output) {path : PhysicalPath}
    {row : Row} {σ : Nat → Row}
    (values : ∀ c v, c.1 ∈ path.relations → columnOf σ c = some v → ValueAt path row c v)
    (inside : ∀ table ∈ stmt.tables, table.relationId ∈ path.relations)
    (has : ∀ relationId ∈ path.relations, (tableContents stmt).Has relationId (σ relationId)) :
    MeetsWhere ast stmt path row ↔
      (∀ pushed ∈ pushedPredicates stmt.logicalPlan, pushed.2.Accepts (σ pushed.1)) ∧
      ∀ e ∈ stmt.wherePredicate,
        e.Accepts (stmt.tables.flatMap fun table => σ table.relationId) := by
  have long : ∀ table ∈ stmt.tables, (σ table.relationId).length = table.schema.length := by
    intro table listed
    rw [(has _ (inside table listed)).1.length, tableContents_schema tables join listed]
  have longFirst := long first (by simp [tables])
  rw [MeetsWhere, binderRow_of_values values inside long, tables, schema,
    pushed_join join plan, predicate]
  simp only [List.flatMap_cons, List.flatMap_nil, List.append_nil]
  rw [join_where_iff join longFirst, and_assoc]

private theorem sourceRows_two {partitioning : Partitioning} {path : PhysicalPath}
    (tables : stmt.tables = [first, second]) (joined : stmt.hasJoin = true) :
    sourceRows partitioning catalog stmt path =
      (path.buildExecutor partitioning catalog).map (withFilter · stmt.wherePredicate) := by
  have notSingle : singleBaseTable stmt path = none := by
    cases path <;> simp [singleBaseTable, tables]
  simp only [sourceRows, notSingle, joined, if_true]

private theorem joined_wide (join : JoinSource catalog ast source first second pushdown
      firstPredicate secondPredicate keys) (tables : stmt.tables = [first, second])
    {query : OptimizerQuery}
    (joins : query.joins = [⟨first.relationId, keys.1, second.relationId, keys.2⟩]) :
    Wide (tableContents stmt) query.joins := by
  intro p listed
  rw [joins] at listed
  cases List.mem_singleton.mp listed
  rw [leftColumn, rightColumn, tableContents_schema tables join (by simp [tables]),
    tableContents_schema tables join (by simp [tables])]
  exact ⟨join.firstKey, join.secondKey⟩

private theorem keeps_of_checks (joined : stmt.hasJoin = true) {rels : List Nat}
    (suffice : ChecksSuffice stmt True rels) : KeepsWhere ast stmt (·.relations = rels) := by
  rintro partitioning catalog query path rows bound planned optimized rfl built row member
  obtain ⟨source, output, first, second, pushdown, firstPredicate, secondPredicate, keys, join, plan,
    tables, schema, predicate, members, _, joins⟩ := selectQuery_join bound joined planned
  rw [sourceRows_two tables joined] at built
  obtain ⟨exec, executor, rfl⟩ := map_eq_some_iff.mp built
  obtain ⟨inExec, accepted⟩ := mem_withFilter member
  have covers : ∀ relationId ∈ query.relations,
      (tableContents stmt).CoversAt catalog relationId := by
    intro relationId listed rel found
    refine ⟨?_, fun _ _ => trivial⟩
    obtain ⟨firstRel, firstFound, firstSchema⟩ := join.firstRelation
    obtain ⟨secondRel, secondFound, secondSchema⟩ := join.secondRelation
    rcases (members relationId).mp listed with rfl | rfl
    · rw [found] at firstFound
      cases firstFound
      rw [← firstSchema, tableContents_schema tables join (by simp [tables])]
    · rw [found] at secondFound
      cases secondFound
      rw [← secondSchema, tableContents_schema tables join (by simp [tables])]
  obtain ⟨order, follows⟩ := follows_of_enumerated partitioning covers
    (joined_wide join tables joins) optimized.enumerated
  obtain ⟨σ, reaches, whole, values⟩ := follows.reached exec executor row inExec
  have inside : ∀ table ∈ stmt.tables, table.relationId ∈ path.relations := by
    intro table listed
    rw [tables] at listed
    refine optimized.complete _ ((members _).mpr ?_)
    rcases List.mem_pair.mp listed with rfl | rfl
    · exact .inl rfl
    · exact .inr rfl
  refine (meets_iff tables join schema predicate plan values inside fun relationId listed =>
    reaches.has relationId (follows.relations ▸ listed)).mpr ?_
  exact suffice query planned optimized.complete order follows.valid follows.relations σ reaches
    (whole ▸ accepted)

private theorem checks_of_keeps (bound : bindSelect catalog ast = some stmt)
    (joined : stmt.hasJoin = true) {rels : List Nat}
    (keeps : KeepsWhere ast stmt (·.relations = rels)) : ChecksSuffice stmt False rels := by
  rintro query planned complete order valid rfl σ reaches accepted
  obtain ⟨source, output, first, second, pushdown, firstPredicate, secondPredicate, keys, join, plan,
    tables, schema, predicate, members, _, joins⟩ := selectQuery_join bound joined planned
  obtain ⟨entry, realizes⟩ := realizes_of_reaches valid reaches
  have found {id : Nat} (listed : id ∈ order.relations) :=
    @getRelation_map entry _ (fun id member => (realizes.held id member).1) catalog.names id listed
  have inside : ∀ table ∈ stmt.tables, table.relationId ∈ order.relations := by
    intro table listed
    rw [tables] at listed
    refine complete _ ((members _).mpr ?_)
    rcases List.mem_pair.mp listed with rfl | rfl
    · exact .inl rfl
    · exact .inr rfl
  have bound' : bindSelect ⟨order.relations.map entry, catalog.names⟩ ast = some stmt := by
    refine bindSelect_congr bound rfl fun table listed => ⟨_, found (inside table listed), ?_⟩
    rw [(realizes.held _ (inside table listed)).2.1, tableContents_schema tables join listed]
  obtain ⟨path, row, enumerated, relations, executor, whole, values⟩ :=
    realizes.yields ⟨order.relations.map entry, catalog.names⟩ fun id listed => found listed
  have yielded : row ∈ (withFilter (.item row .done) stmt.wherePredicate).items := by
    cases isWhere : stmt.wherePredicate with
    | none => exact List.mem_cons_self
    | some e =>
      obtain ⟨v, evaluated, isTrue⟩ := accepted e isWhere
      rw [← whole] at evaluated
      simp [withFilter, filter, Pull.filter, condition, evaluated, isTrue, Pull.items]
  rw [← relations] at inside values
  refine (meets_iff tables join schema predicate plan values inside fun relationId listed =>
    reaches.has relationId (relations ▸ listed)).mp ?_
  refine keeps ⟨fun _ => 0, 1⟩ _ query path _ bound' planned
    ⟨enumerated, relations ▸ complete⟩ relations ?_ row
    yielded
  rw [sourceRows_two tables joined, executor]
  rfl

private theorem keyValues_of_types (plainKeys : PlainKeys stmt) {query : OptimizerQuery}
    (planned : selectQuery stmt = some query) :
    KeyValues plain (tableContents stmt) query.joins := by
  intro p listed c isOne row has v read
  have types := congrArg (·[c.2]?) has.1
  simp only [List.getElem?_map, read, Option.map_some] at types
  obtain ⟨col, inside, type⟩ := map_eq_some_iff.mp types.symm
  obtain ⟨notDouble, notString⟩ := plainKeys query planned p listed c isOne col inside
  rw [type] at notDouble notString
  cases v with
  | null t => simp [plain, show t ≠ _ from notDouble, show t ≠ _ from notString]
  | double d => exact absurd rfl notDouble
  | boolean _ | int32 _ | int64 _ | varchar _ => rfl

private theorem checks_direct (plainKeys : PlainKeys stmt) {rels : List Nat}
    (suffice : ChecksSuffice stmt False rels) : ChecksSuffice stmt True rels := by
  rintro query planned complete order valid isOrder σ reaches accepted
  obtain ⟨order', valid', relations, _, direct⟩ :=
    reaches.direct (keyValues_of_types plainKeys planned) valid
  exact suffice query planned complete order' valid' (relations.trans isOrder) σ direct accepted

end Join

/-- One table: every source row meets the `WHERE` exactly if the conjuncts that are extracted imply
the others. A join, by the order of its tables in the plan: it is so if what the plans check
suffices for all rows they may put together, and only if for those put together by their own keys;
with plain keys these are all. -/
theorem keepsWhere {catalog : CatalogManager} {ast : SelectStatementAST}
    {stmt : BoundSelectStatement} (bound : bindSelect catalog ast = some stmt) :
    (∀ table, stmt.tables = [table] →
      (KeepsWhere ast stmt (fun _ => True) ↔ ExtractedSuffice table stmt.wherePredicate)) ∧
    (stmt.hasJoin = true → ∀ rels,
      (ChecksSuffice stmt True rels → KeepsWhere ast stmt (·.relations = rels)) ∧
      (KeepsWhere ast stmt (·.relations = rels) → ChecksSuffice stmt False rels) ∧
      (PlainKeys stmt →
        (KeepsWhere ast stmt (·.relations = rels) ↔ ChecksSuffice stmt False rels))) := by
  refine ⟨fun table tables => ⟨?_, ?_⟩, fun joined rels =>
    ⟨keeps_of_checks joined, checks_of_keeps bound joined, fun plainKeys => ⟨?_, ?_⟩⟩⟩
  · exact extracted_of_keeps bound tables
  · exact keeps_of_extracted tables
  · exact checks_of_keeps bound joined
  · exact fun suffice => keeps_of_checks joined (checks_direct plainKeys suffice)

/-- `a = 5 OR b = 5`. -/
def eitherIsFive : ExprAST :=
  .binary .or (.binary (.compare .eq) (.columnRef "" "a") (.literal (.int32 5)))
    (.binary (.compare .eq) (.columnRef "" "b") (.literal (.int32 5)))

/-- `SELECT a FROM t WHERE a = 5 OR b = 5`. -/
def eitherSelect : SelectStatementAST where
  distinct := false
  selectItems := [.item (.columnRef "" "a") ""]
  fromTable := ⟨"t", "t"⟩
  joinTable := none
  joinPredicate := none
  wherePredicate := some eitherIsFive
  groupByExprs := []
  orderByItems := []
  limit := none

def eitherPredicate : Expression :=
  .disjunction (.comparison .eq (.column .single 0) (.constant (.int32 5)))
    (.comparison .eq (.column .single 1) (.constant (.int32 5)))

def eitherStatement : BoundSelectStatement where
  tables := [firstBinding]
  sourceSchema := firstBinding.schema
  hasJoin := false
  wherePredicate := some eitherPredicate
  hasAggregate := false
  distinct := false
  dedupViaGroupBy := false
  requiresDedup := false
  orderByOnOutput := false
  groupByExprs := []
  aggTypes := []
  aggInputExprs := []
  aggregateSchema := []
  projectExprs := [.column .single 0]
  outputSchema := [⟨"a", .int32⟩]
  orderBy := []
  limit := none
  logicalPlan := .project (.filter (.get 1) eitherPredicate)

theorem bindSelect_eitherSelect : bindSelect pairCatalog eitherSelect = some eitherStatement := by
  decide

/-- `SELECT t.a FROM t JOIN u ON t.b = u.a WHERE t.a = 1 AND t.a < u.b`: one conjunct is pushed
down to `t`, the other one stays. -/
def filteredSelect : SelectStatementAST :=
  { pairSelect with
    wherePredicate := some (.binary .and
      (.binary (.compare .eq) (.columnRef "t" "a") (.literal (.int32 1)))
      (.binary (.compare .lt) (.columnRef "t" "a") (.columnRef "u" "b"))) }

def onePredicate : Expression := .comparison .eq (.column .single 0) (.constant (.int32 1))

def filteredStatement : BoundSelectStatement :=
  { pairStatement with
    wherePredicate := some (.comparison .lt (.column .single 0) (.column .single 3))
    logicalPlan := .project (.join (.filter (.get 1) onePredicate) (.get 2)
      (.comparison .eq (.column .left 1) (.column .right 0))) }

def filteredQuery : OptimizerQuery :=
  { pairQuery with predicates := [⟨1, 0, .eq, .int32 1⟩] }

def filteredScan : BasePath := seqCandidate (pairRelation 1 [(1, 2)]) filteredQuery.predicates ⟨0⟩

theorem bindSelect_filteredSelect :
    bindSelect pairCatalog filteredSelect = some filteredStatement := by
  decide

theorem plainKeys_filtered : PlainKeys filteredStatement := by
  intro query planned p listed c isOne col inside
  rw [show selectQuery filteredStatement = some filteredQuery by decide] at planned
  cases planned
  cases List.mem_singleton.mp listed
  rcases isOne with rfl | rfl
  · cases inside
    decide
  · cases inside
    decide

private theorem reaches_first {contents : Contents} {query : OptimizerQuery} {order : JoinOrder}
    {σ : Nat → Row} {far : Prop} (reaches : Reaches contents query far order σ) {id : Nat}
    (first : order.relations.head? = some id) : Meets (getPredicatesForRelation query id) (σ id) := by
  induction order with
  | start relationId =>
    cases first
    exact reaches.2
  | step earlier relationId _ _ _ _ ih =>
    refine ih reaches.1 ?_
    rw [JoinOrder.relations, List.head?_append] at first
    cases isFirst : earlier.relations.head? with
    | some _ => rwa [isFirst] at first
    | none =>
      have none_ := List.head?_eq_none_iff.mp isFirst
      cases earlier <;> simp [JoinOrder.relations] at none_

theorem checksSuffice_filtered (far : Prop) : ChecksSuffice filteredStatement far [1, 2] := by
  intro query planned complete order valid isOrder σ reaches accepted
  rw [show selectQuery filteredStatement = some filteredQuery by decide] at planned
  cases planned
  refine ⟨fun pushed listed => ?_, accepted⟩
  rw [show pushedPredicates filteredStatement.logicalPlan = [(1, onePredicate)] by decide] at listed
  cases List.mem_singleton.mp listed
  exact reaches_first reaches (by rw [isOrder, List.head?_cons]) ⟨1, 0, .eq, .int32 1⟩ (by decide)

/-- With the `FROM` table on the left every plan of `filteredSelect` keeps both conjuncts, whatever
is stored and indexed; here it keeps the one joined row. -/
theorem keepsWhere_eitherSelect :
    (KeepsWhere eitherSelect eitherStatement (fun _ => True) ↔
      ExtractedSuffice firstBinding eitherStatement.wherePredicate) ∧
    KeepsWhere filteredSelect filteredStatement (·.relations = [1, 2]) ∧
    (KeepsWhere filteredSelect filteredStatement (·.relations = [1, 2]) ↔
      ChecksSuffice filteredStatement False [1, 2]) ∧
    sourceRows ⟨fun _ => 0, 1⟩ pairCatalog filteredStatement (pairPath filteredScan secondScan) =
      some (.item [.int32 1, .int32 2, .int32 2, .int32 7] .done) :=
  ⟨(keepsWhere bindSelect_eitherSelect).1 firstBinding rfl,
    ((keepsWhere bindSelect_filteredSelect).2 rfl [1, 2]).1 (checksSuffice_filtered True),
    ((keepsWhere bindSelect_filteredSelect).2 rfl [1, 2]).2.2 plainKeys_filtered,
    by decide +kernel⟩

def eitherQuery : OptimizerQuery where
  relations := [1]
  predicates := []
  joins := []
  requiredOrder := []
  groupOrder := []
  hasAggregate := false
  limitCount := none

/-- The table has no index: its row `(1, 2)` is a source row, although neither column is 5. -/
theorem disjunction_not_kept :
    bindSelect pairCatalog eitherSelect = some eitherStatement ∧
      selectQuery eitherStatement = some eitherQuery ∧
      Optimized pairCatalog eitherQuery (.base firstScan) ∧
      sourceRows ⟨fun _ => 0, 1⟩ pairCatalog eitherStatement (.base firstScan) =
        some (.item [.int32 1, .int32 2] .done) ∧
      ¬ MeetsWhere eitherSelect eitherStatement (.base firstScan) [.int32 1, .int32 2] := by
  refine ⟨bindSelect_eitherSelect, by decide, ⟨.base (by decide) ⟨_, rfl, ⟨0⟩,
    List.mem_cons_self⟩, by decide⟩, by decide +kernel, ?_⟩
  intro meets
  obtain ⟨info, bound, v, evaluated, isTrue⟩ := meets eitherIsFive rfl
  have isBound : bindSourceExpr eitherStatement.tables eitherStatement.sourceSchema eitherIsFive =
      some ⟨eitherPredicate, .boolean, none, "bool_expr"⟩ := by decide
  rw [isBound] at bound
  cases bound
  have isFalse : eitherPredicate.evaluateRow (binderRow eitherStatement (.base firstScan)
      [.int32 1, .int32 2]) = some (.boolean false) := by decide +kernel
  rw [isFalse] at evaluated
  cases evaluated
  cases isTrue

end GraniteDb.Sql.WhereKept
