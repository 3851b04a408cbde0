/- Which query graphs have all their join predicates enforced by every plan. -/

import GraniteDb.Execution.ValueText
import GraniteDb.Optimizer.JoinedPredicates
import Mathlib.Logic.Function.Basic
import Mathlib.Logic.Relation

namespace GraniteDb.Optimizer.JoinGraph

open Common.Types Common.Value Catalog.CatalogManager Execution.Expressions Execution.Operators
open Execution.ValueOrder Execution.ValueText
open Lib.Pull Optimizer.PhysicalPath Optimizer.PlanEnumerator Optimizer.BaseAccess
open Optimizer.JoinSteps Optimizer.JoinedPredicates Access.IndexScan
open Option (isSome_iff_ne_none bind_eq_bind)
open List (mem_singleton mem_map mem_cons mem_cons_self)
open Function (update update_self)

section Graph

/-- A column of a relation, by the relation's id and its own position. -/
abbrev ColumnRef := Nat × Nat

def leftColumn (p : QueryJoinPredicateSpec) : ColumnRef := (p.leftRelationId, p.leftColumnIdx)

def rightColumn (p : QueryJoinPredicateSpec) : ColumnRef := (p.rightRelationId, p.rightColumnIdx)

def Linked (preds : List QueryJoinPredicateSpec) (c d : ColumnRef) : Prop :=
  ∃ p ∈ preds, (leftColumn p = c ∧ rightColumn p = d) ∨ (rightColumn p = c ∧ leftColumn p = d)

def Equated (preds : List QueryJoinPredicateSpec) : ColumnRef → ColumnRef → Prop :=
  Relation.ReflTransGen (Linked preds)

variable {all some_ : List QueryJoinPredicateSpec}

/-- A choice of predicates that grows a set of relations one by one. -/
inductive Spanned (query : OptimizerQuery) : List Nat → List QueryJoinPredicateSpec → Prop
  | single {relationId : Nat} : relationId ∈ query.relations → Spanned query [relationId] []
  | grow {rels : List Nat} {preds : List QueryJoinPredicateSpec} {relationId : Nat}
      {p : QueryJoinPredicateSpec} : Spanned query rels preds → relationId ∈ query.relations →
      relationId ∉ rels → p ∈ getJoinsBetweenSubsetAndRelation query rels relationId →
      Spanned query (rels ++ [relationId]) (preds ++ [p])

/-- Whatever predicates are chosen to reach all relations, they imply every predicate of the
query. -/
def SpanningImplies (query : OptimizerQuery) : Prop :=
  ∀ rels preds, Spanned query rels preds → (∀ relationId ∈ query.relations, relationId ∈ rels) →
    ∀ p ∈ query.joins, Equated preds (leftColumn p) (rightColumn p)

variable {query : OptimizerQuery}

theorem Spanned.subset {rels : List Nat}
    {preds : List QueryJoinPredicateSpec} (spanned : Spanned query rels preds) :
    preds ⊆ query.joins := by
  induction spanned with
  | single => exact List.nil_subset _
  | grow _ _ _ between ih =>
    refine List.append_subset.mpr ⟨ih, ?_⟩
    intro p member
    rw [mem_singleton.mp member]
    exact List.mem_of_mem_filter between

theorem Spanned.congr {query query' : OptimizerQuery} {rels : List Nat}
    {preds : List QueryJoinPredicateSpec} (spanned : Spanned query rels preds)
    (relations : query'.relations = query.relations) (joins : query'.joins = query.joins) :
    Spanned query' rels preds := by
  induction spanned with
  | single listed => exact .single (relations ▸ listed)
  | grow _ listed fresh between ih =>
    refine .grow ih (relations ▸ listed) fresh ?_
    simpa only [getJoinsBetweenSubsetAndRelation, relations, joins] using between

variable {p : QueryJoinPredicateSpec}

theorem joinsBetween_sides {subset : List Nat} {relationId : Nat}
    (between : p ∈ getJoinsBetweenSubsetAndRelation query subset relationId) :
    (p.leftRelationId ∈ subset ∧ p.rightRelationId = relationId) ∨
      (p.rightRelationId ∈ subset ∧ p.leftRelationId = relationId) := by
  have test := (List.mem_filter.mp between).2
  simp only [Bool.and_eq_true, Bool.or_eq_true, List.contains_iff_mem, beq_iff_eq] at test
  rcases test.2 with ⟨⟨inside, same⟩, _⟩ | ⟨⟨inside, same⟩, _⟩
  · exact .inl ⟨inside, same⟩
  · exact .inr ⟨inside, same⟩

/-- The columns a predicate joins a further relation by: the one among the relations so far, and
the one of the further relation. -/
def outerColumn (rels : List Nat) (p : QueryJoinPredicateSpec) : ColumnRef :=
  if p.leftRelationId ∈ rels then leftColumn p else rightColumn p

def innerColumn (rels : List Nat) (p : QueryJoinPredicateSpec) : ColumnRef :=
  if p.leftRelationId ∈ rels then rightColumn p else leftColumn p

theorem columns_or (rels : List Nat) (p : QueryJoinPredicateSpec) :
    (outerColumn rels p = leftColumn p ∧ innerColumn rels p = rightColumn p) ∨
      (outerColumn rels p = rightColumn p ∧ innerColumn rels p = leftColumn p) := by
  unfold outerColumn innerColumn
  split
  · exact .inl ⟨rfl, rfl⟩
  · exact .inr ⟨rfl, rfl⟩

theorem columns_relations {rels : List Nat} {relationId : Nat}
    (fresh : relationId ∉ rels)
    (between : p ∈ getJoinsBetweenSubsetAndRelation query rels relationId) :
    (outerColumn rels p).1 ∈ rels ∧ (innerColumn rels p).1 = relationId := by
  unfold outerColumn innerColumn
  rcases joinsBetween_sides between with ⟨inside, same⟩ | ⟨inside, same⟩
  · rw [if_pos inside, if_pos inside]
    exact ⟨inside, same⟩
  · rw [if_neg (same ▸ fresh), if_neg (same ▸ fresh)]
    exact ⟨inside, same⟩

theorem joinSides_eq {left : PhysicalPath} {right : BasePath}
    (fresh : right.relationId ∉ left.relations)
    (between : p ∈ getJoinsBetweenSubsetAndRelation query left.relations right.relationId) :
    joinSides p left (.base right) =
      ⟨(outerColumn left.relations p).1, (outerColumn left.relations p).2,
        (innerColumn left.relations p).1, (innerColumn left.relations p).2⟩ := by
  unfold outerColumn innerColumn joinSides
  rcases joinsBetween_sides between with ⟨inside, same⟩ | ⟨inside, same⟩
  · have here := relationOffset_isSome.mpr inside
    rw [if_pos inside, if_pos inside, if_neg (by simp [isSome_iff_ne_none.mp here])]
    rfl
  · have outside : p.leftRelationId ∉ left.relations := same ▸ fresh
    have absent : left.relationOffset p.leftRelationId = none := by
      by_contra present
      exact outside (relationOffset_isSome.mp (isSome_iff_ne_none.mpr present))
    rw [if_neg outside, if_neg outside,
      if_pos (by simp [absent, PhysicalPath.relationOffset, ← same])]
    rfl

end Graph

section Contents

/-- What the relations may hold: their schemas, and the rows that may be stored. -/
structure Contents where
  schema : Nat → Schema
  may : Nat → Row → Prop

def Contents.Has (contents : Contents) (relationId : Nat) (row : Row) : Prop :=
  FitsSchema (contents.schema relationId) row ∧ contents.may relationId row

def Contents.CoversAt (contents : Contents) (catalog : CatalogManager) (relationId : Nat) : Prop :=
  ∀ rel, catalog.getRelation relationId = some rel →
    rel.schema = contents.schema relationId ∧ ∀ stored ∈ rel.heap, contents.may relationId stored.2

def Contents.Covers (contents : Contents) (catalog : CatalogManager) : Prop :=
  ∀ relationId, contents.CoversAt catalog relationId

theorem Contents.CoversAt.has {contents : Contents} {catalog : CatalogManager} {relationId : Nat}
    (covers : contents.CoversAt catalog relationId) {rel : RelationCatalogEntry}
    (found : catalog.getRelation relationId = some rel) {rid : RID} {row : Row}
    (stored : (rid, row) ∈ rel.heap) : contents.Has relationId row := by
  obtain ⟨schema, may⟩ := covers rel found
  exact ⟨schema ▸ rel.fits _ stored, may _ stored⟩

def Wide (contents : Contents) (joins : List QueryJoinPredicateSpec) : Prop :=
  ∀ p ∈ joins, (leftColumn p).2 < (contents.schema (leftColumn p).1).length ∧
    (rightColumn p).2 < (contents.schema (rightColumn p).1).length

def columnOf (σ : Nat → Row) (c : ColumnRef) : Option Value := (σ c.1)[c.2]?

def KeyValues (ok : Value → Bool) (contents : Contents) (joins : List QueryJoinPredicateSpec) :
    Prop :=
  ∀ p ∈ joins, ∀ c, (c = leftColumn p ∨ c = rightColumn p) → ∀ row, contents.Has c.1 row →
    ∀ v, row[c.2]? = some v → ok v = true

/-- No DOUBLE, and no NULL that has the text of a string. -/
def plain : Value → Bool
  | .null t => t != .double && t != .varchar
  | .double _ => false
  | _ => true

def present (v : Value) : Bool := plain v && !v.isNull

variable {contents : Contents} {query : OptimizerQuery}

theorem columnOf_some {σ : Nat → Row} {c : ColumnRef}
    (inside : c.2 < (contents.schema c.1).length) (has : contents.Has c.1 (σ c.1)) :
    ∃ v, columnOf σ c = some v := by
  rw [← has.1.length] at inside
  exact ⟨_, List.getElem?_eq_getElem inside⟩

/-- A left-deep plan: the relations in order, the predicate and the algorithm of each join, and
the columns of the index that the inner access would use. -/
inductive JoinOrder
  | start (relationId : Nat)
  | step (earlier : JoinOrder) (relationId : Nat) (p : QueryJoinPredicateSpec)
      (joinType : JoinAlgorithmType) (usesMemoize : Bool)
      (keyColumns : List IndexKeyColumnDefinition)

def JoinOrder.relations : JoinOrder → List Nat
  | start relationId => [relationId]
  | step earlier relationId _ _ _ _ => earlier.relations ++ [relationId]

def JoinOrder.predicates : JoinOrder → List QueryJoinPredicateSpec
  | start _ => []
  | step earlier _ p _ _ _ => earlier.predicates ++ [p]

def JoinOrder.Valid (query : OptimizerQuery) : JoinOrder → Prop
  | start relationId => relationId ∈ query.relations
  | step earlier relationId p _ _ _ => earlier.Valid query ∧ relationId ∈ query.relations ∧
      relationId ∉ earlier.relations ∧
      p ∈ getJoinsBetweenSubsetAndRelation query earlier.relations relationId

def Meets (predicates : List QueryPredicateSpec) (row : Row) : Prop :=
  ∀ p ∈ predicates, SatisfiesAt p p.columnIdx row

/-- What a join checks of an inner row: an index nested-loop join only what the inner access
leaves over. -/
def innerPredicates (query : OptimizerQuery) (relationId : Nat) (joinType : JoinAlgorithmType)
    (keyColumns : List IndexKeyColumnDefinition) : List QueryPredicateSpec :=
  if joinType = .indexNestedLoop then
    (splitPredicates (getPredicatesForRelation query relationId) keyColumns).1.residualPredicates
  else getPredicatesForRelation query relationId

/-- One row of each relation, such that the plan puts them together. `far`: an algorithm may go by
the key of another outer row. -/
def Reaches (contents : Contents) (query : OptimizerQuery) (far : Prop) :
    JoinOrder → (Nat → Row) → Prop
  | .start relationId, σ => contents.Has relationId (σ relationId) ∧
      Meets (getPredicatesForRelation query relationId) (σ relationId)
  | .step earlier relationId p joinType usesMemoize keyColumns, σ =>
      Reaches contents query far earlier σ ∧ contents.Has relationId (σ relationId) ∧
      Meets (innerPredicates query relationId joinType keyColumns) (σ relationId) ∧
      ∃ a b, columnOf σ (outerColumn earlier.relations p) = some a ∧
        columnOf σ (innerColumn earlier.relations p) = some b ∧
        KeysMet joinType usesMemoize (fun k => far ∧ ∃ τ, Reaches contents query far earlier τ ∧
          columnOf τ (outerColumn earlier.relations p) = some k) a b

/-- The rows that a plan of all relations puts together satisfy every join predicate. -/
def MeetingsSatisfy (contents : Contents) (query : OptimizerQuery) (far : Prop) : Prop :=
  ∀ order : JoinOrder, order.Valid query →
    (∀ relationId ∈ query.relations, relationId ∈ order.relations) →
    ∀ σ, Reaches contents query far order σ → ∀ p ∈ query.joins, ∃ a b,
      columnOf σ (leftColumn p) = some a ∧ columnOf σ (rightColumn p) = some b ∧ Alike a b

theorem JoinOrder.Valid.spanned {order : JoinOrder} (valid : order.Valid query) :
    Spanned query order.relations order.predicates := by
  induction order with
  | start relationId => exact .single valid
  | step earlier relationId p _ _ _ ih =>
    obtain ⟨valid, listed, fresh, between⟩ := valid
    exact .grow (ih valid) listed fresh between

variable {far : Prop} {order : JoinOrder} {σ : Nat → Row}

theorem Reaches.has (reaches : Reaches contents query far order σ) :
    ∀ relationId ∈ order.relations, contents.Has relationId (σ relationId) := by
  induction order with
  | start id =>
    intro relationId member
    rw [mem_singleton.mp member]
    exact reaches.1
  | step earlier id _ _ _ _ ih =>
    intro relationId member
    rcases List.mem_append.mp member with earlier | last
    · exact ih reaches.1 relationId earlier
    · rw [mem_singleton.mp last]
      exact reaches.2.1

theorem Reaches.congr {σ' : Nat → Row} (valid : order.Valid query)
    (reaches : Reaches contents query far order σ)
    (same : ∀ relationId ∈ order.relations, σ' relationId = σ relationId) :
    Reaches contents query far order σ' := by
  induction order with
  | start id =>
    unfold Reaches
    rw [same id (mem_singleton.mpr rfl)]
    exact reaches
  | step earlier id p _ _ _ ih =>
    obtain ⟨valid, listed, fresh, between⟩ := valid
    obtain ⟨reaches, has, meets, a, b, readOuter, readInner, met⟩ := reaches
    have sameInner := same id (List.mem_append_right _ (mem_singleton.mpr rfl))
    obtain ⟨outer, inner⟩ := columns_relations fresh between
    refine ⟨ih valid reaches fun relationId member => same _ (List.mem_append_left _ member),
      sameInner ▸ has, sameInner ▸ meets, a, b, ?_, ?_, met⟩
    · rw [columnOf, same _ (List.mem_append_left _ outer)]
      exact readOuter
    · rw [columnOf, inner, sameInner, ← inner]
      exact readInner

end Contents

section Rows

def ValueAt (path : PhysicalPath) (row : Row) (c : ColumnRef) (v : Value) : Prop :=
  ∃ offset, path.relationOffset c.1 = some offset ∧ row[offset + c.2]? = some v

def Enforces (path : PhysicalPath) (row : Row) (p : QueryJoinPredicateSpec) : Prop :=
  ∃ a b, ValueAt path row (leftColumn p) a ∧ ValueAt path row (rightColumn p) b ∧ Alike a b

variable {path : PhysicalPath} {c : ColumnRef} {row r : Row} {v : Value}

theorem ValueAt.unique {w : Value} (first : ValueAt path row c v) (second : ValueAt path row c w) :
    v = w := by
  obtain ⟨offset, found, read⟩ := first
  obtain ⟨offset', found', read'⟩ := second
  rw [found] at found'
  cases found'
  rw [read] at read'
  exact Option.some.inj read'

theorem ValueAt.ofLeft {node : JoinNode} {left right : PhysicalPath} {l : Row}
    (value : ValueAt left l c v) (notRight : c.1 ∉ right.relations) :
    ValueAt (.join node left right) (l ++ r) c v := by
  obtain ⟨offset, found, read⟩ := value
  have absent : right.relationOffset c.1 = none := by
    by_contra present
    exact notRight (relationOffset_isSome.mp (isSome_iff_ne_none.mpr present))
  refine ⟨offset, by simp [PhysicalPath.relationOffset, absent, found], ?_⟩
  rw [List.getElem?_append_left (List.getElem?_eq_some_iff.mp read).1]
  exact read

theorem ValueAt.ofRight {node : JoinNode} {left right : PhysicalPath} {l : Row}
    (width : l.length = left.outputSchema.length) (value : ValueAt right r c v) :
    ValueAt (.join node left right) (l ++ r) c v := by
  obtain ⟨offset, found, read⟩ := value
  refine ⟨l.length + offset, by simp [PhysicalPath.relationOffset, found, width], ?_⟩
  rw [Nat.add_assoc, List.getElem?_append_right (Nat.le_add_right _ _), Nat.add_sub_cancel_left]
  exact read

theorem valueAt_of_columnOf {left : PhysicalPath} {right : BasePath} {node : JoinNode}
    {l r : Row} {σ : Nat → Row} (fresh : right.relationId ∉ left.relations)
    (width : l.length = left.outputSchema.length) (ofLeft : ∀ c v, c.1 ∈ left.relations →
      columnOf σ c = some v → ValueAt left l c v)
    {c : ColumnRef} {v : Value} (inside : c.1 ∈ left.relations ++ [right.relationId])
    (read : columnOf (update σ right.relationId r) c = some v) :
    ValueAt (.join node left (.base right)) (l ++ r) c v := by
  rcases List.mem_append.mp inside with inLeft | isRight
  · have apart : c.1 ≠ right.relationId := fun same => fresh (same ▸ inLeft)
    rw [columnOf, Function.update_of_ne apart] at read
    refine (ofLeft c v inLeft read).ofLeft ?_
    simpa [PhysicalPath.relations] using apart
  · rw [mem_singleton] at isRight
    rw [columnOf, isRight, update_self] at read
    refine ValueAt.ofRight width ⟨0, by simp [PhysicalPath.relationOffset, isRight], ?_⟩
    rw [Nat.zero_add]
    exact read

end Rows

section Enforced

def joinPredicates : PhysicalPath → List QueryJoinPredicateSpec
  | .base _ => []
  | .join node left right => joinPredicates left ++ joinPredicates right ++ [node.joinPredicate]

variable {catalog : CatalogManager} {query : OptimizerQuery} {right : BasePath}

theorem residual_of_candidate {rel : RelationCatalogEntry} {predicates : List QueryPredicateSpec}
    {estRows : GraniteDb.Common.Double.Double}
    (candidate : right ∈ makeBaseCandidates rel predicates query estRows) :
    ∃ keyColumns, right.accessSpec.residualPredicates =
      (splitPredicates predicates keyColumns).1.residualPredicates := by
  rcases mem_cons.mp candidate with rfl | indexed
  · exact ⟨[], by simp [seqCandidate, splitPredicates, takePredicates]⟩
  · obtain ⟨⟨entry, position⟩, _, made⟩ := List.mem_filterMap.mp indexed
    refine ⟨entry.keyColumns, ?_⟩
    unfold indexCandidate at made
    simp only at made
    split at made
    · cases made
    · cases made
      rfl

/-- What a join checks of an inner row: an index nested-loop join does not use the access of
its inner input, and applies only the residual predicates of that access. -/
def innerChecks (query : OptimizerQuery) (node : JoinNode) (inner : BasePath) :
    List QueryPredicateSpec :=
  if node.joinType = .indexNestedLoop then inner.accessSpec.residualPredicates
  else getPredicatesForRelation query inner.relationId

theorem inner_meets {node : JoinNode} {left : PhysicalPath}
    (retained : Retained catalog query right) {rightExec : Pull Row}
    (built : right.buildExecutor catalog = some rightExec) {rightCol : Nat} {row l r : Row}
    (shape : row = l ++ r) (width : l.length = left.outputSchema.length)
    (inner : FromInner catalog node left right rightExec rightCol row r) :
    Meets (innerChecks query node right) r := by
  obtain ⟨rel, found, estRows, candidate⟩ := retained
  have split := candidate_split candidate
  cases inner with
  | pulled member =>
    obtain ⟨_, satisfied⟩ := mem_buildExecutor candidate found built member
    intro p checked
    unfold innerChecks at checked
    split at checked
    · exact satisfied p ((split p).mpr (.inl checked))
    · exact satisfied p checked
  | fetched algorithm _ _ _ _ residual =>
    intro p checked
    rw [innerChecks, if_pos algorithm] at checked
    obtain ⟨offset, lies, satisfied⟩ := residual p checked
    have ofInner := relationId_of_mem ((split p).mpr (.inl checked))
    have here : offset = l.length := by
      simpa [PhysicalPath.relationOffset, ofInner, width] using lies.symm
    rw [here, shape] at satisfied
    exact satisfiesAt_append_right.mp satisfied

/-- The rows of a plan are put together as its order of joins says. -/
structure Follows (partitioning : Partitioning) (catalog : CatalogManager) (contents : Contents)
    (query : OptimizerQuery) (order : JoinOrder) (path : PhysicalPath) : Prop where
  valid : order.Valid query
  relations : order.relations = path.relations
  predicates : order.predicates = joinPredicates path
  reached : ∀ exec, path.buildExecutor partitioning catalog = some exec → ∀ row ∈ exec.items,
    ∃ σ, Reaches contents query True order σ ∧ row = path.relations.flatMap σ ∧
      ∀ c v, c.1 ∈ path.relations → columnOf σ c = some v → ValueAt path row c v

variable {contents : Contents} {partitioning : Partitioning}

private theorem follows_base
    (covers : contents.CoversAt catalog right.relationId)
    (listed : right.relationId ∈ query.relations) (retained : Retained catalog query right) :
    Follows partitioning catalog contents query (.start right.relationId) (.base right) := by
  obtain ⟨rel, found, estRows, candidate⟩ := retained
  refine ⟨listed, rfl, rfl, fun exec built row member => ?_⟩
  obtain ⟨⟨rid, stored⟩, satisfied⟩ := mem_buildExecutor candidate found built member
  refine ⟨fun _ => row, ⟨covers.has found stored, satisfied⟩, by simp [PhysicalPath.relations],
    fun c v ofRight read => ?_⟩
  refine ⟨0, by simp [PhysicalPath.relationOffset, mem_singleton.mp ofRight], ?_⟩
  rw [Nat.zero_add]
  exact read

private theorem follows_join
    (covers : contents.CoversAt catalog right.relationId)
    (wide : Wide contents query.joins) {left : PhysicalPath} {node : JoinNode} {order : JoinOrder}
    (follows : Follows partitioning catalog contents query order left)
    (outer : Enumerated catalog query left) (listed : right.relationId ∈ query.relations)
    (fresh : right.relationId ∉ left.relations) (retained : Retained catalog query right)
    (between : node.joinPredicate ∈
      getJoinsBetweenSubsetAndRelation query left.relations right.relationId) :
    ∃ keyColumns, Follows partitioning catalog contents query
      (.step order right.relationId node.joinPredicate node.joinType node.usesMemoize keyColumns)
      (.join node left (.base right)) := by
  have same := follows.relations
  obtain ⟨keyColumns, residual⟩ : ∃ keyColumns, innerChecks query node right =
      innerPredicates query right.relationId node.joinType keyColumns := by
    obtain ⟨rel, _, estRows, candidate⟩ := retained
    obtain ⟨keyColumns, residual⟩ := residual_of_candidate candidate
    exact ⟨keyColumns, by rw [innerChecks, innerPredicates, residual]⟩
  refine ⟨keyColumns, ⟨follows.valid, listed, same ▸ fresh, same ▸ between⟩, ?_, ?_, ?_⟩
  · rw [JoinOrder.relations, same, PhysicalPath.relations, PhysicalPath.relations]
  · rw [JoinOrder.predicates, follows.predicates, joinPredicates, joinPredicates, List.append_nil]
  intro exec built row member
  simp only [PhysicalPath.buildExecutor, bind_eq_bind, Option.bind_eq_some_iff] at built
  obtain ⟨leftExec, builtLeft, rightExec, builtRight, joined⟩ := built
  obtain ⟨leftOffset, lies, l, r, step⟩ := mem_joinExecutor joined member
  obtain ⟨a, b, readLeft, readRight, met⟩ := step.keys
  rw [joinSides_eq fresh between] at lies readLeft readRight met
  have width := wideRows outer leftExec builtLeft l step.outer
  obtain ⟨rel, found, _, rid, stored⟩ := inner_stored retained builtRight step.inner
  have has := covers.has found stored
  have meets := inner_meets retained builtRight step.shape width step.inner
  rw [residual] at meets
  obtain ⟨inLeft, ofRight⟩ := columns_relations fresh between
  -- The key that a row of the outer input is joined by is the value its meeting has for it.
  have keyOf {x : Row} {k : Value} (isOuter : x ∈ leftExec.items)
      (read : x[leftOffset + (outerColumn left.relations node.joinPredicate).2]? = some k) :
      ∃ τ, Reaches contents query True order τ ∧
        columnOf τ (outerColumn left.relations node.joinPredicate) = some k ∧
        x = left.relations.flatMap τ ∧
        ∀ c v, c.1 ∈ left.relations → columnOf τ c = some v → ValueAt left x c v := by
    obtain ⟨τ, reaches, whole, values⟩ := follows.reached leftExec builtLeft x isOuter
    obtain ⟨v, readKey⟩ : ∃ v,
        columnOf τ (outerColumn left.relations node.joinPredicate) = some v := by
      refine columnOf_some ?_ (reaches.has _ (same ▸ inLeft))
      obtain ⟨leftInside, rightInside⟩ := wide _ (List.mem_of_mem_filter between)
      rcases columns_or left.relations node.joinPredicate with ⟨isLeft, _⟩ | ⟨isRight, _⟩
      · exact isLeft ▸ leftInside
      · exact isRight ▸ rightInside
    have isKey := (values _ v inLeft readKey).unique ⟨leftOffset, lies, read⟩
    exact ⟨τ, reaches, isKey ▸ readKey, whole, values⟩
  obtain ⟨σ, reaches, readOuter, whole, values⟩ := keyOf step.outer readLeft
  have sameLeft : ∀ relationId ∈ order.relations,
      update σ right.relationId r relationId = σ relationId := by
    intro relationId inOrder
    have apart : relationId ≠ right.relationId := by
      rintro rfl
      exact fresh (same ▸ inOrder)
    exact Function.update_of_ne apart _ _
  refine ⟨update σ right.relationId r, ?_, ?_, fun c v inPath read => ?_⟩
  · refine ⟨reaches.congr follows.valid sameLeft, ?_, ?_, a, b, ?_, ?_, met.mono ?_⟩
    · rwa [update_self]
    · rwa [update_self]
    · rw [same, columnOf, sameLeft _ (same ▸ inLeft)]
      exact readOuter
    · rw [same, columnOf, ofRight, update_self]
      exact readRight
    · rintro k ⟨x, isOuter, read⟩
      obtain ⟨τ, reachesOther, readOther, _⟩ := keyOf isOuter read
      exact ⟨trivial, τ, reachesOther, same ▸ readOther⟩
  · rw [step.shape, whole, PhysicalPath.relations, List.flatMap_append]
    refine congrArg₂ (· ++ ·) (List.flatMap_congr fun id member => ?_) ?_
    · exact (sameLeft id (same ▸ member)).symm
    · simp [PhysicalPath.relations]
  · rw [step.shape]
    exact valueAt_of_columnOf fresh width values inPath read

theorem follows_of_enumerated (partitioning : Partitioning)
    (covers : ∀ relationId ∈ query.relations, contents.CoversAt catalog relationId)
    (wide : Wide contents query.joins) {path : PhysicalPath}
    (enumerated : Enumerated catalog query path) :
    ∃ order, Follows partitioning catalog contents query order path := by
  induction enumerated with
  | base listed retained => exact ⟨_, follows_base (covers _ listed) listed retained⟩
  | @join left right joinPred estimate path outer listed fresh retained between tried ih =>
    obtain ⟨node, rfl, rfl⟩ := tryBuildJoinPaths_shape tried
    obtain ⟨order, follows⟩ := ih
    obtain ⟨_, joined⟩ := follows_join (covers _ listed) wide follows outer listed fresh retained
      between
    exact ⟨_, joined⟩

/-- Every plan `Optimize` can return, over any stored rows that the contents allow and any indexes,
yields only rows that satisfy all join predicates. -/
def EnforcesJoins (contents : Contents) (query : OptimizerQuery) : Prop :=
  ∀ (partitioning : Partitioning) (catalog : CatalogManager), contents.Covers catalog →
    ∀ path, Optimized catalog query path →
    ∀ exec, path.buildExecutor partitioning catalog = some exec →
    ∀ row ∈ exec.items, ∀ p ∈ query.joins, Enforces path row p

theorem enforces_of_meetings (wide : Wide contents query.joins)
    (within : ∀ p ∈ query.joins,
      p.leftRelationId ∈ query.relations ∧ p.rightRelationId ∈ query.relations)
    (satisfy : MeetingsSatisfy contents query True) : EnforcesJoins contents query := by
  intro partitioning catalog covers path optimized exec built row member p inJoins
  obtain ⟨order, follows⟩ :=
    follows_of_enumerated partitioning (fun id _ => covers id) wide optimized.enumerated
  obtain ⟨σ, reaches, _, values⟩ := follows.reached exec built row member
  obtain ⟨a, b, left, right, alike⟩ := satisfy order follows.valid
    (fun relationId listed => follows.relations ▸ optimized.complete relationId listed) σ reaches
    p inJoins
  exact ⟨a, b, values _ a (optimized.complete _ (within p inJoins).1) left,
    values _ b (optimized.complete _ (within p inJoins).2) right, alike⟩

end Enforced

section Keys

theorem eq_of_text {a b : Value} (left : plain a = true) (right : plain b = true)
    (text : serializeValueForHash a = serializeValueForHash b) : a = b := by
  obtain ⟨types, payload⟩ := serialize_eq_iff.mp text
  cases a <;> cases b <;> simp only [Value.typeId, reduceCtorEq] at types
  case null.null => rw [types]
  case null.boolean t b => exact (boolText_ne_null b payload.symm).elim
  case null.int32 t n | null.int64 t n => exact (decimalInt_ne_null _ payload.symm).elim
  case boolean.null b t => exact (boolText_ne_null b payload).elim
  case int32.null n t | int64.null n t => exact (decimalInt_ne_null _ payload).elim
  case boolean.boolean b b' => cases b <;> cases b' <;> first | rfl | cases payload
  case int32.int32 m n | int64.int64 m n =>
    exact congrArg _ (BitVec.eq_of_toInt_eq (decimalInt_injective payload))
  case varchar.varchar s t => exact congrArg _ payload
  all_goals simp_all [plain]

theorem alike_trans {a b k : Value} (plainA : plain a = true) (plainB : plain b = true)
    (plainK : plain k = true) (left : Alike a k) (right : Alike b k) : Alike a b := by
  have ordered {v : Value} (isPlain : plain v = true) : isNaN v = false := by
    cases v <;> first | rfl | cases isPlain
  obtain ⟨some_, kinds, ranks⟩ := (compareValues_iff (ordered plainA) (ordered plainK)).mp left
  obtain ⟨_, kinds', ranks'⟩ := (compareValues_iff (ordered plainB) (ordered plainK)).mp right
  refine (compareValues_iff (ordered plainA) (ordered plainB)).mpr
    ⟨some_, kinds.trans kinds'.symm, ?_⟩
  have same := compare_eq_iff_eq.mp ranks.symm
  have same' := compare_eq_iff_eq.mp ranks'.symm
  exact (compare_eq_iff_eq.mpr (same.trans same'.symm)).symm

theorem keysMet_direct {joinType : JoinAlgorithmType} {usesMemoize : Bool}
    {among : Value → Prop} {a b : Value} (met : KeysMet joinType usesMemoize among a b)
    (plainA : plain a = true) (plainB : plain b = true) (plainKeys : ∀ k, among k → plain k = true) :
    ∃ joinType', KeysMet joinType' false (fun _ => False) a b ∧
      (joinType' = .indexNestedLoop ↔ joinType = .indexNestedLoop) := by
  cases met with
  | nested algorithm alike => exact ⟨.nestedLoop, .nested rfl alike, by simp [algorithm]⟩
  | hashed algorithm text => exact ⟨.hashJoin, .hashed rfl text, by simp [algorithm]⟩
  | merged algorithm isKey left right =>
    exact ⟨.nestedLoop, .nested rfl (alike_trans plainA plainB (plainKeys _ isKey) left right),
      by simp [algorithm]⟩
  | looked algorithm same => exact ⟨.indexNestedLoop, .looked rfl same, by simp [algorithm]⟩
  | memoized algorithm _ isKey text same =>
    have equal := eq_of_text plainA (plainKeys _ isKey) text
    exact ⟨.indexNestedLoop, .looked rfl (equal ▸ same), by simp [algorithm]⟩

theorem alike_of_keysMet {joinType : JoinAlgorithmType} {usesMemoize : Bool} {a b : Value}
    (met : KeysMet joinType usesMemoize (fun _ => False) a b) (presentA : present a = true)
    (presentB : present b = true) : Alike a b := by
  have some_ : plain a = true ∧ a.isNull = false := by simpa [present] using presentA
  have some' : plain b = true ∧ b.isNull = false := by simpa [present] using presentB
  cases met with
  | nested _ alike => exact alike
  | hashed _ text =>
    have equal := eq_of_text some_.1 some'.1 text
    exact equal ▸ compareValues_of_compareEncoded (compareEncoded_self some_.2)
  | looked _ same =>
    have alike : Alike b a := compareValues_of_compareEncoded same
    exact alike.symm
  | merged _ isKey _ _ => exact isKey.elim
  | memoized _ _ isKey _ _ => exact isKey.elim

variable {contents : Contents} {query : OptimizerQuery}

theorem keyValues_columns {ok : Value → Bool} (values : KeyValues ok contents query.joins)
    {rels : List Nat} {relationId : Nat} {p : QueryJoinPredicateSpec}
    (between : p ∈ getJoinsBetweenSubsetAndRelation query rels relationId) {σ : Nat → Row}
    {c : ColumnRef} (isOne : c = outerColumn rels p ∨ c = innerColumn rels p)
    (has : contents.Has c.1 (σ c.1)) {v : Value} (read : columnOf σ c = some v) : ok v = true := by
  refine values p (List.mem_of_mem_filter between) c ?_ _ has v read
  rcases columns_or rels p with ⟨outer, inner⟩ | ⟨outer, inner⟩
  · rwa [outer, inner] at isOne
  · rw [outer, inner] at isOne
    exact isOne.symm

theorem Reaches.direct (plainKeys : KeyValues plain contents query.joins) {order : JoinOrder}
    (valid : order.Valid query) {far : Prop} {σ : Nat → Row}
    (reaches : Reaches contents query far order σ) :
    ∃ order', order'.Valid query ∧ order'.relations = order.relations ∧
      order'.predicates = order.predicates ∧ Reaches contents query False order' σ := by
  induction order with
  | start relationId => exact ⟨.start relationId, valid, rfl, rfl, reaches⟩
  | step earlier relationId p joinType usesMemoize keyColumns ih =>
    obtain ⟨valid, listed, fresh, between⟩ := valid
    obtain ⟨reaches, has, meets, a, b, readOuter, readInner, met⟩ := reaches
    obtain ⟨order', valid', relations, predicates, reaches'⟩ := ih valid reaches
    obtain ⟨outer, inner⟩ := columns_relations fresh between
    have plainA := keyValues_columns plainKeys between (.inl rfl) (reaches.has _ outer) readOuter
    have plainB := keyValues_columns plainKeys between (.inr rfl) (inner ▸ has) readInner
    obtain ⟨joinType', met', sameAccess⟩ := keysMet_direct met plainA plainB (by
      rintro k ⟨_, τ, reachesOther, read⟩
      exact keyValues_columns plainKeys between (.inl rfl) (reachesOther.has _ outer) read)
    refine ⟨.step order' relationId p joinType' false keyColumns,
      ⟨valid', listed, relations ▸ fresh, relations ▸ between⟩, ?_, ?_, reaches', has, ?_, a, b,
      relations ▸ readOuter, relations ▸ readInner, met'.mono fun _ => False.elim⟩
    · rw [JoinOrder.relations, JoinOrder.relations, relations]
    · rw [JoinOrder.predicates, JoinOrder.predicates, predicates]
    · simpa only [innerPredicates, sameAccess] using meets

end Keys

section Realized

/-- The nested-loop join that `TryBuildJoinPaths` lists first. -/
def nestedNode (left : PhysicalPath) (p : QueryJoinPredicateSpec) : JoinNode where
  joinType := .nestedLoop
  joinPredicate := p
  mergeLeftNeedsSort := false
  mergeRightNeedsSort := false
  usesMemoize := false
  outputOrder := left.outputOrder
  fixedOrderPrefix := left.fixedOrderPrefix
  estRows := ⟨0⟩

theorem nestedNode_tried (catalog : CatalogManager) (left : PhysicalPath) (right : BasePath)
    (p : QueryJoinPredicateSpec) : .join (nestedNode left p) left (.base right) ∈
      tryBuildJoinPaths catalog left right p ⟨⟨0⟩, false⟩ := by
  simp only [tryBuildJoinPaths, List.mem_append, mem_cons]
  exact .inl (.inl rfl)

variable {catalog : CatalogManager} {query : OptimizerQuery} {left : PhysicalPath}
  {right : BasePath} {l r : Row} {a b : Value}

variable {rel : RelationCatalogEntry}

theorem scan_built {predicates : List QueryPredicateSpec} {row : Row}
    (found : catalog.getRelation rel.relationId = some rel) (alone : rel.heap = [(⟨0, 0⟩, row)])
    (meets : Meets predicates row) :
    (seqCandidate rel predicates ⟨0⟩).buildExecutor catalog = some (.item row .done) := by
  have passes : withFilter (.item row .done) (buildSingleTuplePredicateExpr predicates) =
      .item row .done := by
    refine single_passes fun part member => ?_
    obtain ⟨p, listed, rfl⟩ := mem_map.mp member
    exact meets p listed
  simp only [BasePath.buildExecutor, seqCandidate, bind_eq_bind, found, Option.bind_some,
    BasePath.access, seqScan, alone, List.map_cons, List.map_nil, Pull.ofList, passes]

private theorem nestedLoopJoin_single {leftCol rightCol : Nat} (readLeft : l[leftCol]? = some a)
    (readRight : r[rightCol]? = some b) (alike : Alike a b) :
    nestedLoopJoin (.item l .done) (.item r .done)
      (.comparison .eq (.column .left leftCol) (.column .right rightCol)) =
        .item (l ++ r) .done := by
  have holds := comparison_of_alike readLeft readRight alike
  simp [nestedLoopJoin, Pull.bind, Pull.filter, holds, Pull.map, Pull.append]

private theorem hashJoin_single {leftCol rightCol : Nat} (readLeft : l[leftCol]? = some a)
    (readRight : r[rightCol]? = some b) (buildLeftSide : Bool)
    (text : serializeValueForHash a = serializeValueForHash b) :
    hashJoin ⟨fun _ => 0, 1⟩ (.item l .done) (.item r .done) (columnExpr leftCol)
      (columnExpr rightCol) buildLeftSide = .item (l ++ r) .done := by
  cases buildLeftSide <;>
    simp [hashJoin, Pull.drain, Pull.collect, keyed, readLeft, readRight, probeBatches, text,
      Pull.ofList]

private theorem joinExecutor_single {node : JoinNode} {c d : ColumnRef} {offset : Nat}
    (sides : joinSides node.joinPredicate left (.base right) = ⟨c.1, c.2, d.1, d.2⟩)
    (lies : left.relationOffset c.1 = some offset) (readLeft : l[offset + c.2]? = some a)
    (ofRight : d.1 = right.relationId) (readRight : r[d.2]? = some b)
    (met : KeysMet node.joinType node.usesMemoize (fun _ => False) a b)
    (other : node.joinType ≠ .indexNestedLoop) :
    joinExecutor ⟨fun _ => 0, 1⟩ catalog node left (.base right) (.item l .done)
      (.item r .done) = some (.item (l ++ r) .done) := by
  have rightLies : (PhysicalPath.base right).relationOffset d.1 = some 0 := by
    simp [PhysicalPath.relationOffset, ofRight]
  simp only [joinExecutor, sides, lies, rightLies, bind_eq_bind, Option.bind_some, Nat.zero_add]
  cases met with
  | nested algorithm alike =>
    simp only [algorithm]
    rw [nestedLoopJoin_single readLeft readRight alike]
  | hashed algorithm text =>
    simp only [algorithm]
    rw [hashJoin_single readLeft readRight _ text]
  | merged _ isKey _ _ => exact isKey.elim
  | looked algorithm _ => exact (other algorithm).elim
  | memoized _ _ isKey _ _ => exact isKey.elim

theorem algorithm_tried {p : QueryJoinPredicateSpec} {joinType : JoinAlgorithmType}
    (notMerge : joinType ≠ .mergeJoin) (indexed : joinType = .indexNestedLoop →
      ∃ rel entry index, catalog.getRelation right.relationId = some rel ∧
        rel.findIndexOnColumn (innerColumn left.relations p).2 = some entry ∧
        entry.btreeIndex = some index) :
    ∃ node : JoinNode, node.joinType = joinType ∧ node.usesMemoize = false ∧
      node.joinPredicate = p ∧
      .join node left (.base right) ∈ tryBuildJoinPaths catalog left right p ⟨⟨0⟩, false⟩ := by
  have column : (innerColumn left.relations p).2 =
      if (left.relationOffset p.leftRelationId).isSome = true then p.rightColumnIdx
      else p.leftColumnIdx := by
    simp only [innerColumn, relationOffset_isSome]
    split <;> rfl
  cases joinType with
  | mergeJoin => exact (notMerge rfl).elim
  | nestedLoop =>
    refine ⟨nestedNode left p, rfl, rfl, rfl, nestedNode_tried catalog left right p⟩
  | hashJoin =>
    let node : JoinNode :=
      { nestedNode left p with
        joinType := .hashJoin
        outputOrder := []
        fixedOrderPrefix := [] }
    refine ⟨node, rfl, rfl, rfl, ?_⟩
    simp only [tryBuildJoinPaths, List.mem_append, mem_cons]
    exact .inl (.inr (.inl rfl))
  | indexNestedLoop =>
    obtain ⟨rel, entry, index, found, onColumn, btree⟩ := indexed rfl
    refine ⟨{ nestedNode left p with joinType := .indexNestedLoop }, rfl, rfl, rfl, ?_⟩
    rw [column] at onColumn
    simp [tryBuildJoinPaths, found, onColumn, btree, nestedNode]

theorem candidate_of_split {entry : IndexCatalogEntry}
    (first : rel.indexes.head? = some entry) (predicates : List QueryPredicateSpec) :
    ∃ right ∈ makeBaseCandidates rel predicates query ⟨0⟩, right.accessSpec.residualPredicates =
      (splitPredicates predicates entry.keyColumns).1.residualPredicates := by
  by_cases usedAny : (splitPredicates predicates entry.keyColumns).2 = true
  · obtain ⟨rest, indexes⟩ := List.head?_eq_some_iff.mp first
    cases made : indexCandidate rel predicates query ⟨0⟩ 0 entry with
    | none => simp [indexCandidate, usedAny] at made
    | some right =>
      refine ⟨right, List.mem_cons_of_mem _ (List.mem_filterMap.mpr ⟨(entry, 0), ?_, made⟩), ?_⟩
      · rw [indexes, List.zipIdx_cons]
        exact mem_cons_self
      · unfold indexCandidate at made
        simp only [usedAny] at made
        cases made
        rfl
  · refine ⟨_, mem_cons_self, ?_⟩
    have unused : (takePredicates predicates entry.keyColumns ⟨[], [], none, none⟩).used = [] := by
      simpa [splitPredicates] using usedAny
    simp [seqCandidate, splitPredicates, unused]

/-- Entries of the catalog with one row each, over which a plan yields one row. -/
structure Realizes (contents : Contents) (query : OptimizerQuery) (order : JoinOrder)
    (σ : Nat → Row) (entry : Nat → RelationCatalogEntry) : Prop where
  held : ∀ relationId ∈ order.relations, (entry relationId).relationId = relationId ∧
    (entry relationId).schema = contents.schema relationId ∧
    (entry relationId).heap = [(⟨0, 0⟩, σ relationId)]
  yields : ∀ catalog : CatalogManager,
    (∀ relationId ∈ order.relations, catalog.getRelation relationId = some (entry relationId)) →
    ∃ path row, Enumerated catalog query path ∧ path.relations = order.relations ∧
      path.buildExecutor ⟨fun _ => 0, 1⟩ catalog = some (.item row .done) ∧
      row = order.relations.flatMap σ ∧
      ∀ c v, c.1 ∈ order.relations → columnOf σ c = some v → ValueAt path row c v

variable {contents : Contents} {σ : Nat → Row}

def bareRelation (relationId : Nat) (schema : Schema) (indexes : List IndexCatalogEntry)
    (bare : ∀ index ∈ indexes, index.runtimeIndex = none) : RelationCatalogEntry where
  relationId := relationId
  schema := schema
  heap := []
  indexes := indexes
  fits := by simp
  maintained := by
    intro index member entry inEntries
    simp [IndexCatalogEntry.entries, bare index member] at inEntries

private theorem realizes_start {relationId : Nat} (listed : relationId ∈ query.relations)
    (has : contents.Has relationId (σ relationId))
    (meets : Meets (getPredicatesForRelation query relationId) (σ relationId)) :
    ∃ entry, Realizes contents query (.start relationId) σ entry := by
  let rel : RelationCatalogEntry :=
    { bareRelation relationId (contents.schema relationId) [] (by simp) with
      heap := [(⟨0, 0⟩, σ relationId)]
      fits := @FitsSchema.alone _ (bareRelation relationId (contents.schema relationId) []
        (by simp)) has.1
      maintained := by simp [bareRelation] }
  refine ⟨fun _ => rel, fun id member => ?_, fun catalog holds => ?_⟩
  · rw [mem_singleton.mp member]
    exact ⟨rfl, rfl, rfl⟩
  have found : catalog.getRelation rel.relationId = some rel := holds relationId mem_cons_self
  refine ⟨.base (seqCandidate rel (getPredicatesForRelation query relationId) ⟨0⟩), σ relationId,
    .base listed ⟨rel, found, ⟨0⟩, mem_cons_self⟩, rfl, scan_built found rfl meets,
    by simp [JoinOrder.relations], ?_⟩
  intro c v ofRelation read
  have isRelation : c.1 = relationId := mem_singleton.mp ofRelation
  refine ⟨0, by simp [PhysicalPath.relationOffset, seqCandidate, rel, bareRelation, isRelation], ?_⟩
  rw [Nat.zero_add, ← isRelation]
  exact read

private theorem inner_access {row : Row} {rightCol : Nat}
    {key : Value} {index : IndexCatalogEntry} (first : rel.indexes.head? = some index)
    (fits : FitsSchema rel.schema row) (read : row[rightCol]? = some key)
    (found : catalog.getRelation rel.relationId =
      some (refilled rel row rightCol key fits read)) {joinType : JoinAlgorithmType}
    (meets : Meets (innerPredicates query rel.relationId joinType index.keyColumns) row) :
    ∃ right rightExec, right.relationId = rel.relationId ∧ Retained catalog query right ∧
      right.buildExecutor catalog = some rightExec ∧
      (joinType ≠ .indexNestedLoop → rightExec = .item row .done) ∧
      (joinType = .indexNestedLoop → Meets right.accessSpec.residualPredicates row) := by
  by_cases indexed : joinType = .indexNestedLoop
  · rw [innerPredicates, if_pos indexed] at meets
    obtain ⟨rest, indexes⟩ := List.head?_eq_some_iff.mp first
    obtain ⟨right, candidate, residual⟩ := @candidate_of_split query
      (refilled rel row rightCol key fits read) (refill rightCol key index)
      (by simp [refilled, indexes]) (getPredicatesForRelation query rel.relationId)
    have same : right.relationId = rel.relationId := (candidate_facts candidate).1
    rw [← same] at candidate found
    obtain ⟨rightExec, built⟩ := refilled_built fits read candidate found
    refine ⟨right, rightExec, same, ⟨_, found, ⟨0⟩, candidate⟩, built,
      fun other => (other indexed).elim, fun _ => ?_⟩
    rw [residual]
    exact meets
  · rw [innerPredicates, if_neg indexed] at meets
    exact ⟨seqCandidate (refilled rel row rightCol key fits read) _ ⟨0⟩, _, rfl,
      ⟨_, found, ⟨0⟩, mem_cons_self⟩, scan_built found rfl meets, fun _ => rfl,
      fun isIndex => (indexed isIndex).elim⟩

theorem realizes_of_reaches {order : JoinOrder} (valid : order.Valid query)
    (reaches : Reaches contents query False order σ) :
    ∃ entry, Realizes contents query order σ entry := by
  induction order with
  | start relationId => exact realizes_start valid reaches.1 reaches.2
  | step earlier relationId p joinType usesMemoize keyColumns ih =>
    obtain ⟨valid, listed, fresh, between⟩ := valid
    obtain ⟨reaches, has, meets, a, b, readOuter, readInner, met⟩ := reaches
    obtain ⟨entry, realizes⟩ := ih valid reaches
    obtain ⟨outer, inner⟩ := columns_relations fresh between
    replace met : KeysMet joinType false (fun _ => False) a b := by
      cases met with
      | nested algorithm alike => exact .nested algorithm alike
      | hashed algorithm text => exact .hashed algorithm text
      | looked algorithm same => exact .looked algorithm same
      | merged _ isKey _ _ => exact isKey.1.elim
      | memoized _ _ isKey _ _ => exact isKey.1.elim
    let rel := bareRelation relationId (contents.schema relationId) [⟨keyColumns, none⟩] (by simp)
    have fits : FitsSchema rel.schema (σ relationId) := has.1
    have read : (σ relationId)[(innerColumn earlier.relations p).2]? = some b := inner ▸ readInner
    let last := refilled rel (σ relationId) (innerColumn earlier.relations p).2 b fits read
    have apart {id : Nat} (inEarlier : id ∈ earlier.relations) :
        update entry relationId last id = entry id := by
      refine Function.update_of_ne ?_ _ _
      rintro rfl
      exact fresh inEarlier
    refine ⟨update entry relationId last, fun id member => ?_, fun catalog holds => ?_⟩
    · rcases List.mem_append.mp member with inEarlier | isLast
      · rw [apart inEarlier]
        exact realizes.held id inEarlier
      · rw [mem_singleton.mp isLast, update_self]
        exact ⟨rfl, rfl, rfl⟩
    obtain ⟨left, l, enumerated, relations, built, whole, values⟩ :=
      realizes.yields catalog fun id member =>
      (holds id (List.mem_append_left _ member)).trans (congrArg some (apart member))
    have found : catalog.getRelation relationId = some last := by
      rw [holds relationId (List.mem_append_right _ mem_cons_self), update_self]
    rw [← relations] at fresh between outer inner readOuter readInner values
    obtain ⟨right, rightExec, same, retained, builtRight, scanned, residual⟩ :=
      inner_access rfl fits read found meets
    have same : right.relationId = relationId := same
    have notMerge : joinType ≠ .mergeJoin := by
      cases met with
      | nested algorithm _ | hashed algorithm _ | looked algorithm _ => simp [algorithm]
      | merged _ isKey _ _ => exact isKey.elim
      | memoized _ _ isKey _ _ => exact isKey.elim
    obtain ⟨node, algorithm, noMemoize, rfl, tried⟩ :=
      @algorithm_tried catalog left right p joinType notMerge fun _ => by
        obtain ⟨index, onColumn, btree⟩ := refilled_onColumn fits read
        exact ⟨last, index, _, same ▸ found, relations ▸ onColumn, btree⟩
    rw [← same] at fresh between inner listed
    have width := wideRows enumerated _ built l mem_cons_self
    obtain ⟨offset, lies, readLeft⟩ := values _ a outer readOuter
    have sides := joinSides_eq fresh between
    refine ⟨.join node left (.base right), l ++ σ relationId,
      .join enumerated listed fresh retained between tried, ?_, ?_, ?_, fun c v inPath read' => ?_⟩
    · rw [PhysicalPath.relations, PhysicalPath.relations, relations, same, JoinOrder.relations]
    · simp only [PhysicalPath.buildExecutor, built, builtRight, bind_eq_bind, Option.bind_some]
      rw [← algorithm, ← noMemoize] at met
      by_cases indexed : node.joinType = .indexNestedLoop
      · have rightLies : (PhysicalPath.base right).relationOffset
            (innerColumn left.relations node.joinPredicate).1 = some 0 := by
          simp [PhysicalPath.relationOffset, inner]
        have looked : compareEncoded b a = some .eq := by
          cases met with
          | looked _ looked => exact looked
          | nested other _ | hashed other _ => cases indexed.symm.trans other
          | merged _ isKey _ _ => exact isKey.elim
          | memoized _ _ isKey _ _ => exact isKey.elim
        simp only [joinExecutor, sides, lies, rightLies, bind_eq_bind, Option.bind_some, indexed]
        obtain ⟨_, found', estRows, candidate⟩ := retained
        have ofRight : ∀ q ∈ right.accessSpec.residualPredicates, q.relationId = right.relationId :=
          fun q member => relationId_of_mem ((candidate_split candidate q).mpr (.inl member))
        have isLast : catalog.getRelation right.relationId = some last := by
          rw [same]
          exact found
        rw [relations]
        exact indexJoin_refilled fits read isLast ofRight width (relations ▸ readLeft) looked
          (residual (algorithm ▸ indexed))
      · rw [scanned (algorithm ▸ indexed)]
        refine joinExecutor_single sides lies readLeft inner ?_ met indexed
        rw [relations]
        exact read
    · simp [whole, JoinOrder.relations]
    · refine valueAt_of_columnOf fresh width values ?_ ?_
      · rw [relations, same]
        exact inPath
      · rw [same, Function.update_eq_self]
        exact read'

theorem getRelation_map {entry : Nat → RelationCatalogEntry} {ids : List Nat}
    (isId : ∀ id ∈ ids, (entry id).relationId = id) {names : List (String × Nat)} {id : Nat}
    (listed : id ∈ ids) :
    (CatalogManager.mk (ids.map entry) names).getRelation id = some (entry id) := by
  induction ids with
  | nil => cases listed
  | cons first rest ih =>
    have firstId := isId first mem_cons_self
    by_cases same : first = id
    · simp [CatalogManager.getRelation, ← same, firstId]
    · have later : id ∈ rest := (mem_cons.mp listed).resolve_left fun eq => same eq.symm
      have found := ih (fun id member => isId id (List.mem_cons_of_mem _ member)) later
      rw [CatalogManager.getRelation] at found ⊢
      rw [List.map_cons, List.find?_cons_of_neg (by simp [firstId, same])]
      exact found

theorem meetings_of_enforces (wide : Wide contents query.joins)
    (within : ∀ p ∈ query.joins,
      p.leftRelationId ∈ query.relations ∧ p.rightRelationId ∈ query.relations)
    (enforces : EnforcesJoins contents query) : MeetingsSatisfy contents query False := by
  intro order valid complete σ reaches p inJoins
  obtain ⟨entry, realizes⟩ := realizes_of_reaches valid reaches
  have isId : ∀ id ∈ order.relations, (entry id).relationId = id :=
    fun id member => (realizes.held id member).1
  have covers : contents.Covers ⟨order.relations.map entry, []⟩ := by
    intro id rel found
    obtain ⟨id', member, rfl⟩ := mem_map.mp (List.mem_of_find?_eq_some found)
    have same : id' = id := (isId id' member).symm.trans (getRelation_id found)
    subst same
    obtain ⟨_, schema, heap⟩ := realizes.held id' member
    refine ⟨schema, fun stored inHeap => ?_⟩
    rw [heap] at inHeap
    rw [mem_singleton.mp inHeap]
    exact (reaches.has id' member).2
  obtain ⟨path, row, enumerated, relations, built, _, values⟩ :=
    realizes.yields _ fun id member => getRelation_map isId member
  obtain ⟨a, b, left, right, alike⟩ := enforces _ _ covers path
    ⟨enumerated, relations ▸ complete⟩ _ built row mem_cons_self p inJoins
  obtain ⟨leftInside, rightInside⟩ := wide p inJoins
  have inLeft := complete _ (within p inJoins).1
  have inRight := complete _ (within p inJoins).2
  obtain ⟨v, readLeft⟩ := columnOf_some leftInside (reaches.has _ inLeft)
  obtain ⟨w, readRight⟩ := columnOf_some rightInside (reaches.has _ inRight)
  have isLeft := left.unique (values _ v inLeft readLeft)
  have isRight := right.unique (values _ w inRight readRight)
  exact ⟨a, b, isLeft ▸ readLeft, isRight ▸ readRight, alike⟩

end Realized

section Spanning

variable {query : OptimizerQuery} {contents : Contents} {σ : Nat → Row}

theorem KeyValues.plain (presentKeys : KeyValues present contents query.joins) :
    KeyValues plain contents query.joins := fun p member c isOne row has v read =>
  (Bool.and_eq_true_iff.mp (presentKeys p member c isOne row has v read)).1

theorem Reaches.alike (presentKeys : KeyValues present contents query.joins) {order : JoinOrder}
    (valid : order.Valid query) (reaches : Reaches contents query False order σ) :
    ∀ p ∈ order.predicates, ∃ a b,
      columnOf σ (leftColumn p) = some a ∧ columnOf σ (rightColumn p) = some b ∧ Alike a b := by
  induction order with
  | start relationId => exact fun _ none_ => absurd none_ List.not_mem_nil
  | step earlier relationId p _ _ _ ih =>
    obtain ⟨valid, _, fresh, between⟩ := valid
    obtain ⟨reaches, has, _, a, b, readOuter, readInner, met⟩ := reaches
    obtain ⟨outer, inner⟩ := columns_relations fresh between
    intro q inOrder
    rcases List.mem_append.mp inOrder with inEarlier | isLast
    · exact ih valid reaches q inEarlier
    rw [mem_singleton.mp isLast]
    have alike : Alike a b :=
      alike_of_keysMet (met.mono fun _ far => far.1)
        (keyValues_columns presentKeys between (.inl rfl) (reaches.has _ outer) readOuter)
        (keyValues_columns presentKeys between (.inr rfl) (inner ▸ has) readInner)
    rcases columns_or earlier.relations p with ⟨isOuter, isInner⟩ | ⟨isOuter, isInner⟩
    · exact ⟨a, b, isOuter ▸ readOuter, isInner ▸ readInner, alike⟩
    · exact ⟨b, a, isInner ▸ readInner, isOuter ▸ readOuter, alike.symm⟩

theorem alike_of_equated {preds : List QueryJoinPredicateSpec} {c d : ColumnRef}
    (equated : Equated preds c d) (linked : ∀ p ∈ preds, ∃ a b,
      columnOf σ (leftColumn p) = some a ∧ columnOf σ (rightColumn p) = some b ∧
        plain a = true ∧ plain b = true ∧ Alike a b)
    {v : Value} (read : columnOf σ c = some v) (isPresent : present v = true) :
    ∃ w, columnOf σ d = some w ∧ plain w = true ∧ Alike v w := by
  obtain ⟨isPlain, nonNull⟩ : plain v = true ∧ v.isNull = false := by
    simpa [present] using isPresent
  induction equated with
  | refl => exact ⟨v, read, isPlain, compareValues_of_compareEncoded (compareEncoded_self nonNull)⟩
  | @tail c d _ link ih =>
    obtain ⟨w, readMiddle, plainMiddle, alike⟩ := ih
    -- The link goes from `c` to `d` whichever side of its predicate `c` is.
    obtain ⟨a, b, readC, readD, plainD, alikeLink⟩ : ∃ a b, columnOf σ c = some a ∧
        columnOf σ d = some b ∧ plain b = true ∧ Alike a b := by
      obtain ⟨p, member, ⟨rfl, rfl⟩ | ⟨rfl, rfl⟩⟩ := link
      · obtain ⟨a, b, readLeft, readRight, _, plainB, same⟩ := linked p member
        exact ⟨a, b, readLeft, readRight, plainB, same⟩
      · obtain ⟨a, b, readLeft, readRight, plainA, _, same⟩ := linked p member
        exact ⟨b, a, readRight, readLeft, plainA, same.symm⟩
    rw [readMiddle] at readC
    cases readC
    exact ⟨b, readD, plainD, alike_trans isPlain plainD plainMiddle alike alikeLink.symm⟩

private theorem meetings_of_implies (wide : Wide contents query.joins)
    (within : ∀ p ∈ query.joins,
      p.leftRelationId ∈ query.relations ∧ p.rightRelationId ∈ query.relations)
    (presentKeys : KeyValues present contents query.joins) (implies : SpanningImplies query) :
    MeetingsSatisfy contents query True := by
  intro order valid complete σ reaches p inJoins
  have plainKeys := presentKeys.plain
  obtain ⟨order', valid', relations, predicates, direct⟩ := reaches.direct plainKeys valid
  have hasAll {c : ColumnRef} (listed : c.1 ∈ query.relations) : contents.Has c.1 (σ c.1) :=
    reaches.has _ (complete _ listed)
  have linked : ∀ q ∈ order'.predicates, ∃ a b,
      columnOf σ (leftColumn q) = some a ∧ columnOf σ (rightColumn q) = some b ∧
        plain a = true ∧ plain b = true ∧ Alike a b := by
    intro q member
    obtain ⟨a, b, readLeft, readRight, alike⟩ := direct.alike presentKeys valid' q member
    have inQuery := valid'.spanned.subset member
    exact ⟨a, b, readLeft, readRight,
      plainKeys q inQuery _ (.inl rfl) _ (hasAll (within q inQuery).1) _ readLeft,
      plainKeys q inQuery _ (.inr rfl) _ (hasAll (within q inQuery).2) _ readRight, alike⟩
  have equated := implies _ _ valid'.spanned (relations ▸ complete) p inJoins
  have hasLeft := hasAll (c := leftColumn p) (within p inJoins).1
  obtain ⟨v, read⟩ := columnOf_some (wide p inJoins).1 hasLeft
  obtain ⟨w, readRight, _, alike⟩ := alike_of_equated equated linked read
    (presentKeys p inJoins _ (.inl rfl) _ hasLeft v read)
  exact ⟨v, w, read, readRight, alike⟩

def Narrow (width : Nat) (joins : List QueryJoinPredicateSpec) : Prop :=
  ∀ p ∈ joins, p.leftColumnIdx < width ∧ p.rightColumnIdx < width

theorem exists_narrow (joins : List QueryJoinPredicateSpec) : ∃ width, Narrow width joins := by
  induction joins with
  | nil => exact ⟨0, fun _ none_ => absurd none_ List.not_mem_nil⟩
  | cons first rest ih =>
    obtain ⟨width, narrow⟩ := ih
    refine ⟨max width (max first.leftColumnIdx first.rightColumnIdx + 1), ?_⟩
    intro p member
    rcases mem_cons.mp member with rfl | later
    · omega
    · have inside := narrow p later
      omega

section Colored

variable {color : ColumnRef → Bool} {width : Nat}

variable (color width) in
def coloredRow (relationId : Nat) : Row :=
  (List.range width).map fun columnIdx => .boolean (color (relationId, columnIdx))

variable (color width) in
def coloredContents : Contents where
  schema := fun _ => List.replicate width ⟨"c", .boolean⟩
  may := fun relationId row => row = coloredRow color width relationId

theorem colored_columnOf {c : ColumnRef} (inside : c.2 < width) :
    columnOf (coloredRow color width) c = some (.boolean (color c)) := by
  simp [columnOf, coloredRow, inside]

private theorem coloredContents_has (relationId : Nat) :
    (coloredContents color width).Has relationId (coloredRow color width relationId) := by
  refine ⟨?_, rfl⟩
  simp [FitsSchema, coloredContents, coloredRow, Function.comp_def, Value.typeId]

theorem alike_boolean {a b : Bool} : Alike (.boolean a) (.boolean b) ↔ a = b := by
  unfold Alike
  cases a <;> cases b <;> decide

private theorem colored_reaches (noPredicates : query.predicates = [])
    (narrow : Narrow width query.joins) {rels : List Nat} {preds : List QueryJoinPredicateSpec}
    (spanned : Spanned query rels preds)
    (passed : ∀ p ∈ preds, color (leftColumn p) = color (rightColumn p)) :
    ∃ order : JoinOrder, order.Valid query ∧ order.relations = rels ∧
      Reaches (coloredContents color width) query False order (coloredRow color width) := by
  have none_ (relationId : Nat) : getPredicatesForRelation query relationId = [] := by
    simp [getPredicatesForRelation, noPredicates]
  induction spanned with
  | @single relationId listed =>
    refine ⟨.start relationId, listed, rfl, coloredContents_has relationId, ?_⟩
    rw [none_]
    exact fun _ none_ => absurd none_ List.not_mem_nil
  | @grow rels preds relationId p _ listed fresh between ih =>
    obtain ⟨order, valid, rfl, reaches⟩ := ih fun q member =>
      passed q (List.mem_append_left _ member)
    have equal := passed p (List.mem_append_right _ (List.mem_singleton_self p))
    obtain ⟨leftNarrow, rightNarrow⟩ := narrow p (List.mem_of_mem_filter between)
    refine ⟨.step order relationId p .nestedLoop false [], ⟨valid, listed, fresh, between⟩, rfl,
      reaches, coloredContents_has relationId, ?_, ?_⟩
    · rw [innerPredicates, if_neg (by simp), none_]
      exact fun _ none_ => absurd none_ List.not_mem_nil
    · rcases columns_or order.relations p with ⟨isOuter, isInner⟩ | ⟨isOuter, isInner⟩
      · rw [isOuter, isInner, colored_columnOf leftNarrow, colored_columnOf rightNarrow]
        exact ⟨_, _, rfl, rfl, .nested rfl (alike_boolean.mpr equal)⟩
      · rw [isOuter, isInner, colored_columnOf rightNarrow, colored_columnOf leftNarrow]
        exact ⟨_, _, rfl, rfl, .nested rfl (alike_boolean.mpr equal.symm)⟩

private theorem colored_present (narrow : Narrow width query.joins) :
    KeyValues present (coloredContents color width) query.joins := by
  intro p member c isOne row has v read
  obtain ⟨_, rfl⟩ := has
  have inside : c.2 < width := by
    rcases isOne with rfl | rfl
    · exact (narrow p member).1
    · exact (narrow p member).2
  rw [show (coloredRow color width c.1)[c.2]? = some _ from colored_columnOf inside] at read
  cases read
  rfl

private theorem colored_wide (narrow : Narrow width query.joins) :
    Wide (coloredContents color width) query.joins := by
  intro p member
  simpa [coloredContents, leftColumn, rightColumn] using narrow p member

end Colored

open Classical in
private theorem implies_of_enforces
    (within : ∀ p ∈ query.joins,
      p.leftRelationId ∈ query.relations ∧ p.rightRelationId ∈ query.relations)
    (enforces : ∀ contents, Wide contents query.joins → KeyValues present contents query.joins →
      EnforcesJoins contents { query with predicates := [] }) : SpanningImplies query := by
  intro rels preds spanned covers p inJoins
  by_contra apart
  -- One color for what the chosen predicates equate with the left column, one for the rest.
  let color : ColumnRef → Bool := fun c => decide (Equated preds (leftColumn p) c)
  have passed : ∀ q ∈ preds, color (leftColumn q) = color (rightColumn q) := by
    intro q member
    refine decide_eq_decide.mpr ⟨fun reached => ?_, fun reached => ?_⟩
    · exact reached.tail ⟨q, member, .inl ⟨rfl, rfl⟩⟩
    · exact reached.tail ⟨q, member, .inr ⟨rfl, rfl⟩⟩
  obtain ⟨width, narrow⟩ := exists_narrow query.joins
  let plainQuery : OptimizerQuery := { query with predicates := [] }
  have spanned' : Spanned plainQuery rels preds := spanned.congr rfl rfl
  have narrow' : Narrow width plainQuery.joins := narrow
  obtain ⟨order, valid, relations, reaches⟩ := colored_reaches rfl narrow' spanned' passed
  obtain ⟨a, b, left, right, alike⟩ :=
    @meetings_of_enforces plainQuery _ (colored_wide narrow) within
      (enforces _ (colored_wide narrow) (colored_present narrow)) order valid
      (relations ▸ covers) _ reaches p inJoins
  rw [colored_columnOf (narrow p inJoins).1] at left
  rw [colored_columnOf (narrow p inJoins).2] at right
  cases left
  cases right
  have reached : color (rightColumn p) = true := by
    rw [← alike_boolean.mp alike]
    exact decide_eq_true .refl
  exact apart (of_decide_eq_true reached)

theorem JoinOrder.Valid.listed {order : JoinOrder} (valid : order.Valid query) :
    (∀ relationId ∈ order.relations, relationId ∈ query.relations) ∧
      ∃ relationId, relationId ∈ order.relations := by
  induction order with
  | start relationId =>
    exact ⟨fun id member => mem_singleton.mp member ▸ valid, relationId, mem_cons_self⟩
  | step earlier relationId _ _ _ _ ih =>
    obtain ⟨valid, listed, _, _⟩ := valid
    obtain ⟨all, id, member⟩ := ih valid
    refine ⟨fun id member => ?_, id, List.mem_append_left _ member⟩
    rcases List.mem_append.mp member with inEarlier | isLast
    · exact all id inEarlier
    · exact mem_singleton.mp isLast ▸ listed

def filteredQuery : OptimizerQuery where
  relations := [0, 1]
  predicates := [⟨0, 0, .eq, .int32 5⟩]
  joins := [⟨0, 0, 1, 0⟩]
  requiredOrder := []
  groupOrder := []
  hasAggregate := false
  limitCount := none

/-- One nullable column in each relation, with NULL and 5 in it. -/
def nullOrFive : Contents where
  schema := fun _ => [⟨"a", .int32⟩]
  may := fun _ row => row = [.null .int32] ∨ row = [.int32 5]

private theorem nullOrFive_plain : KeyValues plain nullOrFive filteredQuery.joins := by
  intro p member c isOne row has v read
  cases mem_singleton.mp member
  have column : c.2 = 0 := by rcases isOne with rfl | rfl <;> rfl
  rw [column] at read
  rcases has.2 with rfl | rfl
  · cases read
    rfl
  · cases read
    rfl

private theorem filtered_five {row : Row} (has : nullOrFive.Has 0 row)
    (meets : Meets (getPredicatesForRelation filteredQuery 0) row) : row = [.int32 5] := by
  refine has.2.resolve_left fun isNull => ?_
  obtain ⟨v, read, o, compared, _⟩ :=
    satisfiesAt_iff.mp (meets ⟨0, 0, .eq, .int32 5⟩ (by decide))
  rw [isNull] at read
  cases read
  cases compared

private theorem filtered_satisfy : MeetingsSatisfy nullOrFive filteredQuery False := by
  intro order valid complete σ reaches p inJoins
  have isZero := complete 0 (by decide)
  have isOne := complete 1 (by decide)
  cases order with
  | start id =>
    have same := (mem_singleton.mp isZero).trans (mem_singleton.mp isOne).symm
    cases same
  | step earlier id q joinType _ keyColumns =>
    obtain ⟨valid, listed, fresh, between⟩ := valid
    obtain ⟨reaches, has, meets, a, b, readOuter, readInner, met⟩ := reaches
    cases mem_singleton.mp inJoins
    cases mem_singleton.mp (List.mem_of_mem_filter between)
    obtain ⟨isOuter, isInner⟩ := columns_relations fresh between
    have plainA := keyValues_columns nullOrFive_plain between (.inl rfl) (reaches.has _ isOuter)
      readOuter
    have plainB := keyValues_columns nullOrFive_plain between (.inr rfl) (isInner ▸ has) readInner
    have alike : Alike a b := by
      cases met with
      | nested _ alike => exact alike
      | looked _ same => exact Alike.symm (compareValues_of_compareEncoded same)
      | merged _ far _ _ => exact far.1.elim
      | memoized _ _ far _ _ => exact far.1.elim
      | hashed algorithm text =>
        rw [innerPredicates, if_neg (by simp [algorithm])] at meets
        cases eq_of_text plainA plainB text
        have zero : σ 0 = [.int32 5] := by
          rcases List.mem_append.mp isZero with inEarlier | isLast
          · cases earlier with
            | start first =>
              cases mem_singleton.mp inEarlier
              exact filtered_five reaches.1 reaches.2
            | step before second _ _ _ _ =>
              -- There are no three relations.
              obtain ⟨valid, listed', fresh', _⟩ := valid
              obtain ⟨all, first, isFirst⟩ := valid.listed
              have inQuery := all first isFirst
              have apart : first ≠ second := fun same => fresh' (same ▸ isFirst)
              have apart' : first ≠ id := fun same =>
                fresh (List.mem_append_left _ (same ▸ isFirst))
              have apart'' : second ≠ id := fun same =>
                fresh (List.mem_append_right _ (mem_singleton.mpr same.symm))
              simp only [filteredQuery, mem_cons, List.not_mem_nil, or_false] at *
              omega
          · cases mem_singleton.mp isLast
            exact filtered_five has meets
        have five : a = .int32 5 := by
          rcases columns_or earlier.relations ⟨0, 0, 1, 0⟩ with ⟨outer, _⟩ | ⟨_, inner⟩
          · rw [outer, columnOf, show (leftColumn ⟨0, 0, 1, 0⟩).1 = 0 from rfl, zero] at readOuter
            exact (Option.some.inj readOuter).symm
          · rw [inner, columnOf, show (leftColumn ⟨0, 0, 1, 0⟩).1 = 0 from rfl, zero] at readInner
            exact (Option.some.inj readInner).symm
        rw [five]
        unfold Alike
        decide +kernel
    rcases columns_or earlier.relations ⟨0, 0, 1, 0⟩ with ⟨outer, inner⟩ | ⟨outer, inner⟩
    · exact ⟨a, b, outer ▸ readOuter, inner ▸ readInner, alike⟩
    · exact ⟨b, a, inner ▸ readInner, outer ▸ readOuter, alike.symm⟩

def parallelQuery : OptimizerQuery where
  relations := [0, 1]
  predicates := []
  joins := [⟨0, 0, 1, 0⟩, ⟨0, 1, 1, 1⟩]
  requiredOrder := []
  groupOrder := []
  hasAggregate := false
  limitCount := none

def pairRelation (relationId : Nat) (rows : List (BitVec 32 × BitVec 32)) :
    RelationCatalogEntry where
  relationId := relationId
  schema := [⟨"a", .int32⟩, ⟨"b", .int32⟩]
  heap := rows.zipIdx.map fun r => (⟨0, r.2⟩, [.int32 r.1.1, .int32 r.1.2])
  indexes := []
  fits := by
    intro stored member
    obtain ⟨r, _, rfl⟩ := mem_map.mp member
    rfl
  maintained := by simp

/-- `(1, 2)` in relation 0; `(1, 3)` and `(4, 2)` in relation 1. -/
def parallelCatalog : CatalogManager where
  relations := [pairRelation 0 [(1, 2)], pairRelation 1 [(1, 3), (4, 2)]]

def parallelScan (relationId : Nat) (rows : List (BitVec 32 × BitVec 32)) : BasePath :=
  seqCandidate (pairRelation relationId rows) [] ⟨0⟩

def parallelPath (p : QueryJoinPredicateSpec) : PhysicalPath :=
  .join (nestedNode (.base (parallelScan 0 [(1, 2)])) p) (.base (parallelScan 0 [(1, 2)]))
    (.base (parallelScan 1 [(1, 3), (4, 2)]))

end Spanning

end GraniteDb.Optimizer.JoinGraph
