/- Which join steps keep the predicates of the inner relation. -/

import GraniteDb.Optimizer.JoinSteps

namespace GraniteDb.Optimizer.JoinedPredicates

open Common.Double Common.Value Access.IndexScan Catalog.CatalogManager Execution.Expressions
open Execution.Operators Lib.Pull Optimizer.PhysicalPath Optimizer.PlanEnumerator
open Optimizer.BaseAccess Optimizer.JoinSteps
open Option (bind_some bind_eq_bind map_some)
open List (mem_map mem_cons mem_filterMap mem_cons_self)

/-- A join step the dynamic program builds over an enumerated outer path and a retained
candidate of a further relation. -/
structure JoinPlan (catalog : CatalogManager) (query : OptimizerQuery) (left : PhysicalPath)
    (right : BasePath) (node : JoinNode) : Prop where
  distinct : query.relations.Nodup
  outer : Enumerated catalog query left
  listed : right.relationId ∈ query.relations
  fresh : right.relationId ∉ left.relations
  retained : Retained catalog query right
  linked : node.joinPredicate ∈
    getJoinsBetweenSubsetAndRelation query left.relations right.relationId
  tried : ∃ estimate, PhysicalPath.join node left (.base right) ∈
    tryBuildJoinPaths catalog left right node.joinPredicate estimate

/-- Every row of the join, whatever is stored and whatever plan lies around it, satisfies all
base predicates of the inner relation. -/
def KeepsPredicates (right : BasePath) (joinType : JoinAlgorithmType) (usesMemoize : Bool)
    (rightCol : Nat) : Prop :=
  ∀ (partitioning : Partitioning) (catalog : CatalogManager) (query : OptimizerQuery)
    (left : PhysicalPath) (node : JoinNode), JoinPlan catalog query left right node →
    node.joinType = joinType → node.usesMemoize = usesMemoize →
    (joinSides node.joinPredicate left (.base right)).rightColumnIdx = rightCol →
    ∀ exec, (PhysicalPath.join node left (.base right)).buildExecutor partitioning catalog =
      some exec → ∀ row ∈ exec.items,
        ∀ p ∈ getPredicatesForRelation query right.relationId,
          SatisfiesAt p (left.outputSchema.length + p.columnIdx) row

/-- The residual predicates of the candidate, on a row that can be joined at all, leave nothing
for the predicates that went to its index. -/
def ResidualsSuffice (right : BasePath) (rightCol : Nat) : Prop :=
  ∀ row, FitsSchema right.outputSchema row → (∃ v, row[rightCol]? = some v ∧ v.isNull = false) →
    (∀ p ∈ right.accessSpec.residualPredicates, SatisfiesAt p p.columnIdx row) →
    ∀ p ∈ right.accessSpec.accessPredicates, SatisfiesAt p p.columnIdx row

theorem satisfiesAt_append_right {p : QueryPredicateSpec} {l r : Row} {columnIdx : Nat} :
    SatisfiesAt p (l.length + columnIdx) (l ++ r) ↔ SatisfiesAt p columnIdx r := by
  rw [satisfiesAt_iff, satisfiesAt_iff, List.getElem?_append_right (Nat.le_add_right _ _),
    Nat.add_sub_cancel_left]

theorem candidate_split {rel : RelationCatalogEntry} {predicates : List QueryPredicateSpec}
    {query : OptimizerQuery} {estRows : Double} {path : BasePath}
    (candidate : path ∈ makeBaseCandidates rel predicates query estRows)
    (p : QueryPredicateSpec) :
    p ∈ predicates ↔
      p ∈ path.accessSpec.residualPredicates ∨ p ∈ path.accessSpec.accessPredicates := by
  rcases mem_cons.mp candidate with rfl | indexed
  · simp [seqCandidate, IndexAccessSpec.accessPredicates]
  · obtain ⟨⟨entry, position⟩, _, made⟩ := mem_filterMap.mp indexed
    have sound := splitPredicates_sound predicates entry.keyColumns
    have spec : path.accessSpec = (splitPredicates predicates entry.keyColumns).1 := by
      unfold indexCandidate at made
      simp only at made
      split at made
      · cases made
      · cases made
        rfl
    rw [spec]
    constructor
    · exact residual_or_access predicates entry.keyColumns
    · rintro (residual | access)
      · obtain ⟨⟨q, i⟩, kept, rfl⟩ := mem_map.mp residual
        have listed := List.mem_zipIdx_iff_getElem?.mp (List.mem_of_mem_filter kept)
        exact List.mem_of_getElem? listed
      · rcases mem_accessPredicates.mp access with inIndex | lower | upper
        · obtain ⟨k, atK⟩ := List.mem_iff_getElem?.mp inIndex
          exact (sound.equalities k p atK).2.1
        · exact (sound.lower p lower).2.1
        · exact (sound.upper p upper).2.1

theorem relationId_of_mem {query : OptimizerQuery} {relationId : Nat} {p : QueryPredicateSpec}
    (member : p ∈ getPredicatesForRelation query relationId) : p.relationId = relationId := by
  simpa using (List.mem_filter.mp member).2

private theorem joined_satisfies {partitioning : Partitioning} {catalog : CatalogManager}
    {query : OptimizerQuery} {left : PhysicalPath} (outer : Enumerated catalog query left)
    {leftExec : Pull Row} (built : left.buildExecutor partitioning catalog = some leftExec)
    {l r : Row} (member : l ∈ leftExec.items) {p : QueryPredicateSpec} :
    SatisfiesAt p (left.outputSchema.length + p.columnIdx) (l ++ r) ↔
      SatisfiesAt p p.columnIdx r := by
  rw [← wideRows outer leftExec built l member]
  exact satisfiesAt_append_right

private theorem keeps_of_residuals {right : BasePath} {joinType : JoinAlgorithmType}
    {usesMemoize : Bool} {rightCol : Nat}
    (condition : joinType ≠ .indexNestedLoop ∨ ResidualsSuffice right rightCol) :
    KeepsPredicates right joinType usesMemoize rightCol := by
  intro partitioning catalog query left node plan isType _ onColumn exec built row member p inQuery
  simp only [PhysicalPath.buildExecutor, bind_eq_bind, Option.bind_eq_some_iff] at built
  obtain ⟨leftExec, builtLeft, rightExec, builtRight, joined⟩ := built
  obtain ⟨_, _, l, r, step⟩ := mem_joinExecutor joined member
  obtain ⟨rel, found, estRows, candidate⟩ := plan.retained
  rw [step.shape, joined_satisfies plan.outer builtLeft step.outer]
  have inner := step.inner
  rw [onColumn] at inner
  cases inner with
  | pulled pulled => exact (mem_buildExecutor candidate found builtRight pulled).2 p inQuery
  | @fetched _ rid b algorithm found' stored read nonNull residual =>
    have same := found.symm.trans found'
    cases same
    have suffices_ : ResidualsSuffice right rightCol := by
      rcases condition with other | residuals
      · exact absurd (isType.symm.trans algorithm) other
      · exact residuals
    have residuals : ∀ q ∈ right.accessSpec.residualPredicates,
        SatisfiesAt q q.columnIdx r := by
      intro q inResidual
      obtain ⟨offset, lies, satisfied⟩ := residual q inResidual
      have ofRight := relationId_of_mem ((candidate_split candidate q).mpr (.inl inResidual))
      have here : offset = left.outputSchema.length := by
        simpa [PhysicalPath.relationOffset, ofRight] using lies.symm
      rw [here, step.shape, joined_satisfies plan.outer builtLeft step.outer] at satisfied
      exact satisfied
    have fits : FitsSchema right.outputSchema r := by
      rw [(candidate_facts candidate).2.1]
      exact rel.fits _ stored
    rcases (candidate_split candidate p).mp inQuery with isResidual | isAccess
    · exact residuals p isResidual
    · exact suffices_ r fits ⟨b, read, nonNull⟩ residuals p isAccess

section Necessary

variable (rel : RelationCatalogEntry) (row : Row) (rightCol : Nat) (key : Value)

def probeIndex : BTreeIndex where
  keyType := key.typeId
  maxVarcharLen := match key with
    | .varchar s => s.length
    | _ => 0
  leaves := [[⟨key, ⟨0, 0⟩⟩]]
  findLeaf := fun _ => 0

def refill (entry : IndexCatalogEntry) : IndexCatalogEntry where
  keyColumns := entry.keyColumns
  runtimeIndex := some <|
    if entry.matchesSingleColumn rightCol then .btree (probeIndex key)
    else .generic ⟨entry.keyColumns, .notSupported, [], fun _ => 0⟩

def joinColumnIndex : IndexCatalogEntry where
  keyColumns := [⟨rightCol, key.typeId, 0, true⟩]
  runtimeIndex := none

def refilled (fits : FitsSchema rel.schema row) (read : row[rightCol]? = some key) :
    RelationCatalogEntry where
  relationId := rel.relationId
  schema := rel.schema
  heap := [(⟨0, 0⟩, row)]
  indexes := (rel.indexes ++ [joinColumnIndex rightCol key]).map (refill rightCol key)
  fits := fits.alone
  maintained := by
    intro index member
    obtain ⟨entry, _, rfl⟩ := mem_map.mp member
    by_cases single : entry.matchesSingleColumn rightCol
    · have columns : entry.keyColumns.map (·.columnIdx) = [rightCol] := by
        simpa [IndexCatalogEntry.matchesSingleColumn] using single
      simp only [refill, single, if_true, IndexCatalogEntry.entries, map_some,
        Option.getD_some, RuntimeIndex.entries, probeIndex, BTreeIndex.entries,
        List.flatten_cons, List.flatten_nil, List.append_nil, List.map_cons, List.map_nil,
        List.mem_singleton, forall_eq]
      intro stored found
      have same : stored = row := by
        simpa [getTuple] using found.symm
      rw [same]
      have values := congrArg (List.map fun columnIdx => row[columnIdx]?) columns
      rw [List.map_map] at values
      have reads : entry.keyColumns.map (fun col => row[col.columnIdx]?) = [row[rightCol]?] := values
      rw [HasKey, reads, read]
      rfl
    · intro listed inEntries
      simp [refill, single, IndexCatalogEntry.entries, RuntimeIndex.entries,
        GenericBTreeIndex.entries] at inEntries

def outerRelation (relationId : Nat) : RelationCatalogEntry where
  relationId := relationId
  schema := [⟨"key", key.typeId⟩]
  heap := [(⟨0, 0⟩, [key])]
  indexes := []
  fits := by
    intro stored member
    rw [List.mem_singleton.mp member]
    rfl
  maintained := by simp

variable {rel row rightCol key}

private theorem probeIndex_search {probe : Value} (same : compareEncoded key probe = some .eq) :
    (probeIndex key).search probe = some [⟨0, 0⟩] := by
  have encoded : encodeValue (probeIndex key).keyType (probeIndex key).maxVarcharLen probe =
      some probe := by
    cases key <;> cases probe <;> simp only [compareEncoded, reduceCtorEq] at same
    case varchar.varchar s t =>
      have equal : s = t := eq_of_compareBytes (Option.some.inj same)
      simp [encodeValue, probeIndex, Value.isNull, Value.typeId, equal]
    all_goals simp [encodeValue, probeIndex, Value.isNull, Value.typeId]
  rw [BTreeIndex.search, encoded]
  simp [probeIndex, searchLeaves, searchEntries, same, endsWithKey]

theorem compareEncoded_self (nonNull : key.isNull = false) :
    compareEncoded key key = some .eq := by
  cases key with
  | null t => cases nonNull
  | boolean b => cases b <;> rfl
  | int32 n | int64 n => simp [compareEncoded]
  | double d => simp [compareEncoded]
  | varchar s => simp [compareEncoded, compareBytes, List.lt_irrefl]

theorem refilled_onColumn (fits : FitsSchema rel.schema row)
    (read : row[rightCol]? = some key) : ∃ entry,
      (refilled rel row rightCol key fits read).findIndexOnColumn rightCol = some entry ∧
        entry.btreeIndex = some (probeIndex key) := by
  have some_ : ((refilled rel row rightCol key fits read).findIndexOnColumn rightCol).isSome := by
    rw [RelationCatalogEntry.findIndexOnColumn, List.find?_isSome]
    refine ⟨refill rightCol key (joinColumnIndex rightCol key), ?_, ?_⟩
    · exact List.mem_map_of_mem (List.mem_append_right _ (List.mem_singleton_self _))
    · simp [refill, joinColumnIndex, IndexCatalogEntry.matchesSingleColumn]
  obtain ⟨found, isFound⟩ := Option.isSome_iff_exists.mp some_
  refine ⟨found, isFound, ?_⟩
  obtain ⟨entry, _, rfl⟩ := mem_map.mp (List.mem_of_find?_eq_some isFound)
  have single : entry.matchesSingleColumn rightCol = true := by
    simpa [refill, IndexCatalogEntry.matchesSingleColumn] using List.find?_some isFound
  simp [refill, single, IndexCatalogEntry.btreeIndex]

variable {estRows : Double} {predicates : List QueryPredicateSpec} {right : BasePath}
  {query : OptimizerQuery}

private theorem refilled_candidate {query' : OptimizerQuery}
    (candidate : right ∈ makeBaseCandidates rel predicates query estRows)
    (sameOrder : orderCandidate query' = orderCandidate query) (fits : FitsSchema rel.schema row)
    (read : row[rightCol]? = some key) :
    right ∈ makeBaseCandidates (refilled rel row rightCol key fits read) predicates query'
      estRows := by
  rcases mem_cons.mp candidate with rfl | indexed
  · exact mem_cons_self
  · obtain ⟨⟨entry, position⟩, listed, made⟩ := mem_filterMap.mp indexed
    refine List.mem_cons_of_mem _ (mem_filterMap.mpr
      ⟨(refill rightCol key entry, position), ?_, ?_⟩)
    · have atPosition := List.mem_zipIdx_iff_getElem?.mp listed
      refine List.mem_zipIdx_iff_getElem?.mpr ?_
      have inside := (List.getElem?_eq_some_iff.mp atPosition).1
      simp only [refilled, List.getElem?_map]
      rw [List.getElem?_append_left inside, atPosition]
      rfl
    · simpa [indexCandidate, refill, refilled, sameOrder] using made

theorem refilled_built (fits : FitsSchema rel.schema row) (read : row[rightCol]? = some key)
    (candidate : right ∈ makeBaseCandidates (refilled rel row rightCol key fits read) predicates
      query estRows)
    {catalog : CatalogManager}
    (found : catalog.getRelation right.relationId = some (refilled rel row rightCol key fits read))
    :
    ∃ exec, right.buildExecutor catalog = some exec := by
  have access : ∃ scan, right.access (refilled rel row rightCol key fits read) = some scan := by
    rcases mem_cons.mp candidate with rfl | indexed
    · exact ⟨_, rfl⟩
    · obtain ⟨⟨entry, position⟩, listed, made⟩ := mem_filterMap.mp indexed
      have atPosition := List.mem_zipIdx_iff_getElem?.mp listed
      have isAt : right.accessIndex = some position := by
        unfold indexCandidate at made
        simp only at made
        split at made
        · cases made
        · cases made
          rfl
      obtain ⟨scan, scanned⟩ : ∃ scan, right.indexAccess
          (refilled rel row rightCol key fits read).heap entry = some scan := by
        obtain ⟨old, _, rfl⟩ := mem_map.mp (List.mem_of_getElem? atPosition)
        by_cases single : old.matchesSingleColumn rightCol
        · simp [BasePath.indexAccess, refill, single, IndexCatalogEntry.btreeIndex]
        · simp [BasePath.indexAccess, refill, single, IndexCatalogEntry.btreeIndex,
            IndexCatalogEntry.genericBTreeIndex]
      unfold BasePath.access
      rw [isAt]
      cases right.accessType with
      | seqScan => exact ⟨_, rfl⟩
      | indexScanEq | indexScanRange | indexScanOrdered =>
        refine ⟨scan, ?_⟩
        simp only [atPosition, bind_some, scanned]
  obtain ⟨scan, scanned⟩ := access
  refine ⟨withFilter scan (buildSingleTuplePredicateExpr right.accessSpec.residualPredicates), ?_⟩
  simp only [BasePath.buildExecutor, found, scanned, bind_eq_bind, bind_some]

private theorem joinedExpr_built {relationId offset : Nat} {relationOffset : Nat → Option Nat}
    (lies : relationOffset relationId = some offset)
    (all : ∀ p ∈ predicates, p.relationId = relationId) :
    buildJoinedTuplePredicateExpr predicates relationOffset =
      some (conjoin (predicates.map fun p => predicateExpr p (offset + p.columnIdx))) := by
  refine Option.map_eq_some_iff.mpr ⟨_, ?_, rfl⟩
  induction predicates with
  | nil => rfl
  | cons p rest ih =>
    have first := all p mem_cons_self
    have later := ih fun q inRest => all q (List.mem_cons_of_mem _ inRest)
    simp only [List.mapM_cons, first, lies, map_some, later, bind_eq_bind,
      bind_some, List.map_cons]
    rfl

theorem indexJoin_refilled {catalog : CatalogManager} {node : JoinNode} {left : PhysicalPath}
    {l : Row} {leftCol : Nat} {probe : Value} (fits : FitsSchema rel.schema row)
    (read : row[rightCol]? = some key)
    (found : catalog.getRelation right.relationId = some (refilled rel row rightCol key fits read))
    (ofRight : ∀ p ∈ right.accessSpec.residualPredicates, p.relationId = right.relationId)
    (width : l.length = left.outputSchema.length) (readProbe : l[leftCol]? = some probe)
    (same : compareEncoded key probe = some .eq)
    (residual : ∀ p ∈ right.accessSpec.residualPredicates, SatisfiesAt p p.columnIdx row) :
    indexJoin catalog node left right (.item l .done) leftCol rightCol =
      some (.item (l ++ row) .done) := by
  obtain ⟨entry, onColumn, btree⟩ := refilled_onColumn fits read
  have looked : lookupRows (refilled rel row rightCol key fits read).heap (probeIndex key) probe =
      some [row] := by
    simp [lookupRows, probeIndex_search same, getTuple, refilled]
  have lies : (PhysicalPath.join node left (.base right)).relationOffset right.relationId =
      some l.length := by
    simp [PhysicalPath.relationOffset, width]
  have joined : (if node.usesMemoize then
        memoizedIndexNestedLoopJoin (refilled rel row rightCol key fits read).heap
          (probeIndex key) (columnExpr leftCol) [] (.item l .done)
      else indexNestedLoopJoin (.item l .done) (refilled rel row rightCol key fits read).heap
        (probeIndex key) (columnExpr leftCol)) = .item (l ++ row) .done := by
    cases node.usesMemoize <;>
      simp [memoizedIndexNestedLoopJoin, indexNestedLoopJoin, readProbe, looked, Pull.bind,
        Pull.ofList, Pull.append]
  have passes : withFilter (.item (l ++ row) .done) (conjoin
      (right.accessSpec.residualPredicates.map fun p => predicateExpr p (l.length + p.columnIdx))) =
        .item (l ++ row) .done := by
    refine single_passes fun part member => ?_
    obtain ⟨p, inResidual, rfl⟩ := mem_map.mp member
    exact satisfiesAt_append_right.mpr (residual p inResidual)
  simp only [indexJoin, bind_eq_bind, found, bind_some, onColumn, btree,
    joinedExpr_built lies ofRight, joined, passes]

def probeQuery (query : OptimizerQuery) (relationId rightCol : Nat) : OptimizerQuery :=
  { query with
    relations := [relationId + 1, relationId]
    predicates := getPredicatesForRelation query relationId
    joins := [⟨relationId + 1, 0, relationId, rightCol⟩] }

def probeNode (relationId rightCol : Nat) (usesMemoize : Bool) (estRows : Double) : JoinNode where
  joinType := .indexNestedLoop
  joinPredicate := ⟨relationId + 1, 0, relationId, rightCol⟩
  mergeLeftNeedsSort := false
  mergeRightNeedsSort := false
  usesMemoize := usesMemoize
  outputOrder := []
  fixedOrderPrefix := []
  estRows := estRows

def probeOuter (key : Value) (relationId : Nat) (estRows : Double) : PhysicalPath :=
  .base (seqCandidate (outerRelation key (relationId + 1)) [] estRows)

def probeCatalog (fits : FitsSchema rel.schema row) (read : row[rightCol]? = some key) :
    CatalogManager where
  relations := [outerRelation key (rel.relationId + 1), refilled rel row rightCol key fits read]

private theorem probe_outer (fits : FitsSchema rel.schema row) (read : row[rightCol]? = some key) :
    (probeCatalog fits read).getRelation (rel.relationId + 1) =
      some (outerRelation key (rel.relationId + 1)) := by
  simp [CatalogManager.getRelation, probeCatalog, outerRelation]

private theorem probe_inner (fits : FitsSchema rel.schema row) (read : row[rightCol]? = some key) :
    (probeCatalog fits read).getRelation rel.relationId =
      some (refilled rel row rightCol key fits read) := by
  simp [CatalogManager.getRelation, probeCatalog, outerRelation, refilled]

private theorem probePredicates (query : OptimizerQuery) (relationId rightCol : Nat) :
    getPredicatesForRelation (probeQuery query relationId rightCol) relationId =
      getPredicatesForRelation query relationId ∧
    getPredicatesForRelation (probeQuery query relationId rightCol) (relationId + 1) = [] := by
  constructor
  · simp [getPredicatesForRelation, probeQuery]
  · refine List.filter_eq_nil_iff.mpr fun p member => ?_
    have other := @relationId_of_mem query relationId p member
    simp [other]

private theorem probe_plan
    (candidate : right ∈ makeBaseCandidates rel (getPredicatesForRelation query right.relationId)
      query estRows)
    (usesMemoize : Bool) (fits : FitsSchema rel.schema row) (read : row[rightCol]? = some key) :
    JoinPlan (probeCatalog fits read) (probeQuery query rel.relationId rightCol)
      (probeOuter key rel.relationId estRows) right
      (probeNode rel.relationId rightCol usesMemoize estRows) := by
  have sameId := (candidate_facts candidate).1
  rw [sameId] at candidate
  obtain ⟨forInner, forOuter⟩ := probePredicates query rel.relationId rightCol
  refine ⟨?_, ?_, ?_, ?_, ?_, ?_, ?_⟩
  · simp [probeQuery]
  · refine .base (by simp [probeQuery, seqCandidate, outerRelation]) ?_
    refine ⟨_, probe_outer fits read, estRows, ?_⟩
    have noPredicates : getPredicatesForRelation (probeQuery query rel.relationId rightCol)
        (seqCandidate (outerRelation key (rel.relationId + 1)) [] estRows).relationId = [] :=
      forOuter
    rw [noPredicates]
    exact mem_cons_self
  · simp [probeQuery, sameId]
  · simp [probeOuter, PhysicalPath.relations, seqCandidate, outerRelation, sameId]
  · refine ⟨refilled rel row rightCol key fits read, ?_, estRows, ?_⟩
    · rw [sameId]
      exact probe_inner fits read
    · rw [sameId, forInner]
      exact refilled_candidate candidate rfl fits read
  · simp [getJoinsBetweenSubsetAndRelation, probeQuery, probeNode, probeOuter,
      PhysicalPath.relations, seqCandidate, outerRelation, sameId]
  · refine ⟨⟨estRows, true⟩, ?_⟩
    obtain ⟨entry, onColumn, btree⟩ := refilled_onColumn fits read
    have isLeft : ((probeOuter key rel.relationId estRows).relationOffset
        (rel.relationId + 1)).isSome = true := by
      simp [probeOuter, PhysicalPath.relationOffset, seqCandidate, outerRelation]
    have indexed : ((((probeCatalog fits read).getRelation right.relationId).bind fun rel =>
        (rel.findIndexOnColumn rightCol).bind IndexCatalogEntry.btreeIndex)).isSome = true := by
      rw [sameId, probe_inner fits read]
      simp [onColumn, btree]
    have noOrder : (probeOuter key rel.relationId estRows).outputOrder = [] ∧
        (probeOuter key rel.relationId estRows).fixedOrderPrefix = [] := ⟨rfl, rfl⟩
    cases usesMemoize <;> simp [tryBuildJoinPaths, probeNode, isLeft, indexed, noOrder]

private theorem probe_yields {partitioning : Partitioning} {query : OptimizerQuery}
    {estRows : Double} {right : BasePath}
    (candidate : right ∈ makeBaseCandidates rel
      (getPredicatesForRelation query right.relationId) query estRows)
    (usesMemoize : Bool) (fits : FitsSchema rel.schema row)
    (read : row[rightCol]? = some key) (nonNull : key.isNull = false)
    (residual : ∀ p ∈ right.accessSpec.residualPredicates, SatisfiesAt p p.columnIdx row) :
    ∃ exec, (PhysicalPath.join (probeNode rel.relationId rightCol usesMemoize estRows)
        (probeOuter key rel.relationId estRows) (.base right)).buildExecutor partitioning
          (probeCatalog fits read) = some exec ∧ [key] ++ row ∈ exec.items := by
  have sameId := (candidate_facts candidate).1
  have ofRight : ∀ p ∈ right.accessSpec.residualPredicates, p.relationId = right.relationId :=
    fun p member => relationId_of_mem ((candidate_split candidate p).mpr (.inl member))
  have found : (probeCatalog fits read).getRelation right.relationId =
      some (refilled rel row rightCol key fits read) := by
    rw [sameId]
    exact probe_inner fits read
  obtain ⟨rightExec, rightBuilt⟩ :=
    refilled_built fits read (refilled_candidate candidate rfl fits read) found
  have leftBuilt : (probeOuter key rel.relationId estRows).buildExecutor partitioning
      (probeCatalog fits read) = some (.item [key] .done) := by
    have isOuter := probe_outer fits read
    simp only [PhysicalPath.buildExecutor, probeOuter, BasePath.buildExecutor, seqCandidate,
      outerRelation] at isOuter ⊢
    rw [isOuter]
    rfl
  have sides : joinSides (probeNode rel.relationId rightCol usesMemoize estRows).joinPredicate
      (probeOuter key rel.relationId estRows) (.base right) =
        ⟨rel.relationId + 1, 0, rel.relationId, rightCol⟩ := by
    simp [joinSides, probeNode, probeOuter, PhysicalPath.relationOffset, seqCandidate,
      outerRelation]
  have leftLies : (probeOuter key rel.relationId estRows).relationOffset (rel.relationId + 1) =
      some 0 := by
    simp [probeOuter, PhysicalPath.relationOffset, seqCandidate, outerRelation]
  have rightLies : (PhysicalPath.base right).relationOffset rel.relationId = some 0 := by
    simp [PhysicalPath.relationOffset, sameId]
  refine ⟨.item ([key] ++ row) .done, ?_, mem_cons_self⟩
  simp only [PhysicalPath.buildExecutor, bind_eq_bind, leftBuilt, rightBuilt,
    bind_some, joinExecutor, sides, leftLies, rightLies, Nat.add_zero]
  exact indexJoin_refilled fits read found ofRight rfl rfl (compareEncoded_self nonNull) residual

private theorem residuals_of_keeps (offered : ∃ catalog query, Retained catalog query right)
    {usesMemoize : Bool} {rightCol : Nat}
    (keeps : KeepsPredicates right .indexNestedLoop usesMemoize rightCol) :
    ResidualsSuffice right rightCol := by
  intro row fits readable residual p isAccess
  obtain ⟨key, read, nonNull⟩ := readable
  obtain ⟨catalog, query, rel, _, estRows, candidate⟩ := offered
  obtain ⟨sameId, schema, _⟩ := candidate_facts candidate
  rw [schema] at fits
  let partitioning : Partitioning := ⟨fun _ => 0, 1⟩
  obtain ⟨exec, built, yielded⟩ :=
    @probe_yields rel row rightCol key partitioning query estRows right candidate usesMemoize fits
      read nonNull residual
  have plan := probe_plan candidate usesMemoize fits read
  have onColumn : (joinSides (probeNode rel.relationId rightCol usesMemoize estRows).joinPredicate
      (probeOuter key rel.relationId estRows) (.base right)).rightColumnIdx = rightCol := by
    simp [joinSides, probeNode, probeOuter, PhysicalPath.relationOffset, seqCandidate,
      outerRelation]
  have inQuery : p ∈ getPredicatesForRelation (probeQuery query rel.relationId rightCol)
      right.relationId := by
    rw [sameId, (probePredicates query rel.relationId rightCol).1, ← sameId]
    exact (candidate_split candidate p).mpr (.inr isAccess)
  have satisfied := keeps partitioning _ _ _ _ plan rfl rfl onColumn exec built _ yielded p inQuery
  exact satisfiesAt_append_right.mp satisfied

end Necessary

/-- A join step keeps the base predicates of its inner relation exactly if it is no index
nested-loop join, or the inner candidate's residual predicates imply those its index took. -/
theorem keepsPredicates_iff_residualsSuffice {right : BasePath}
    (offered : ∃ catalog query, Retained catalog query right) (joinType : JoinAlgorithmType)
    (usesMemoize : Bool) (rightCol : Nat) :
    KeepsPredicates right joinType usesMemoize rightCol ↔
      joinType ≠ .indexNestedLoop ∨ ResidualsSuffice right rightCol := by
  constructor
  · intro keeps
    by_cases indexed : joinType = .indexNestedLoop
    · subst indexed
      exact .inr (residuals_of_keeps offered keeps)
    · exact .inl indexed
  · exact keeps_of_residuals

def pairSchema : Schema := [⟨"a", .int32⟩, ⟨"b", .int32⟩]

/-- `b = 5` on relation 1. -/
def fiveOnB : QueryPredicateSpec := ⟨1, 1, .eq, .int32 5⟩

/-- Relation 1 holds `(1, 6)`, with an index on each column. -/
def indexedPair : RelationCatalogEntry where
  relationId := 1
  schema := pairSchema
  heap := [(⟨0, 0⟩, [.int32 1, .int32 6])]
  indexes :=
    [⟨[⟨0, .int32, 0, false⟩],
        some (.btree ⟨.int32, 0, [[⟨.int32 1, ⟨0, 0⟩⟩]], fun _ => 0⟩)⟩,
      ⟨[⟨1, .int32, 0, false⟩],
        some (.btree ⟨.int32, 0, [[⟨.int32 6, ⟨0, 0⟩⟩]], fun _ => 0⟩)⟩]
  fits := by decide
  maintained := by
    intro index member
    rcases mem_cons.mp member with rfl | member
    · decide
    · rw [List.mem_singleton.mp member]
      decide

def pairCatalog : CatalogManager where
  relations := [outerRelation (.int32 1) 0, indexedPair]

/-- The relations joined on their first columns, with `b = 5` on relation 1. -/
def pairQuery : OptimizerQuery where
  relations := [0, 1]
  predicates := [fiveOnB]
  joins := [⟨0, 0, 1, 0⟩]
  requiredOrder := []
  groupOrder := []
  hasAggregate := false
  limitCount := none

def pairCandidate : BasePath where
  relationId := 1
  outputSchema := pairSchema
  accessType := .indexScanEq
  accessIndex := some 1
  allPredicates := [fiveOnB]
  accessSpec := ⟨[fiveOnB], [], 1, none, none⟩
  outputOrder := [⟨1, 1, true⟩]
  fixedOrderPrefix := [⟨1, 1, true⟩]
  estRows := ⟨0⟩

theorem pairCandidate_retained : Retained pairCatalog pairQuery pairCandidate :=
  ⟨indexedPair, rfl, ⟨0⟩, by decide⟩

theorem keepsPredicates_iff_residualsSuffice_pairCandidate :
    KeepsPredicates pairCandidate .indexNestedLoop false 0 ↔
      JoinAlgorithmType.indexNestedLoop ≠ .indexNestedLoop ∨ ResidualsSuffice pairCandidate 0 :=
  keepsPredicates_iff_residualsSuffice ⟨pairCatalog, pairQuery, pairCandidate_retained⟩
    .indexNestedLoop false 0

def pairOuter : PhysicalPath := .base (seqCandidate (outerRelation (.int32 1) 0) [] ⟨0⟩)

def pairNode : JoinNode where
  joinType := .indexNestedLoop
  joinPredicate := ⟨0, 0, 1, 0⟩
  mergeLeftNeedsSort := false
  mergeRightNeedsSort := false
  usesMemoize := false
  outputOrder := []
  fixedOrderPrefix := []
  estRows := ⟨0⟩

/-- The index nested-loop join through the index on `a` yields the stored row, although its
`b` is 6. -/
theorem indexNestedLoop_drops_index_predicate :
    JoinPlan pairCatalog pairQuery pairOuter pairCandidate pairNode ∧
      (PhysicalPath.join pairNode pairOuter (.base pairCandidate)).buildExecutor ⟨fun _ => 0, 1⟩
        pairCatalog = some (.item [.int32 1, .int32 1, .int32 6] .done) ∧
      fiveOnB ∈ getPredicatesForRelation pairQuery 1 ∧
      ¬ SatisfiesAt fiveOnB (pairOuter.outputSchema.length + fiveOnB.columnIdx)
        [.int32 1, .int32 1, .int32 6] := by
  have outer : Enumerated pairCatalog pairQuery pairOuter :=
    .base (by decide) ⟨outerRelation (.int32 1) 0, rfl, ⟨0⟩, mem_cons_self⟩
  refine ⟨⟨by decide, outer, by decide, by decide, pairCandidate_retained, by decide,
    ⟨⟨⟨0⟩, false⟩, by decide⟩⟩, by decide, by decide, ?_⟩
  rw [satisfiesAt_iff]
  rintro ⟨v, read, o, compared, holds⟩
  cases read
  have greater : o = .gt := by
    have known : compareValues (.int32 6) fiveOnB.constant = some .gt := by decide +kernel
    exact Option.some.inj (compared.symm.trans known)
  rw [greater] at holds
  cases holds

end GraniteDb.Optimizer.JoinedPredicates
