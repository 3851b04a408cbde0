/- The bitmap plan of a WHERE outputs the rows of a filtered sequential scan. -/

import GraniteDb.Catalog.HeldKeys
import GraniteDb.Execution.RidTuples
import GraniteDb.Optimizer.PredicateTerms
import GraniteDb.Sql.BinderFacts

namespace GraniteDb.Sql.BitmapPlan

open Common.Types Common.Value Access.IndexScan Access.ExactIndex Catalog.CatalogManager
open Catalog.HeldKeys Execution.Expressions Execution.Operators Execution.BitmapScan
open Execution.RidTuples Execution.ValueOrder Lib.Pull Lib.SortedScan Optimizer.LogicalQuery
open Optimizer.PhysicalPath Optimizer.PredicateTerms Sql.SelectPlanner
open Option (bind_eq_some_iff bind_eq_bind map_some bind_some)
open List (mem_cons_self mapM_cons mem_map mem_singleton)

/-- `MakeBitmapLeaf`, on the index found for the column; the outer `none` is no leaf. -/
def makeBitmapLeafTuples (rel : RelationCatalogEntry) (p : QueryPredicateSpec) :
    Option RidStream := do
  let entry ← rel.findIndexOnColumn p.columnIdx
  let index ← entry.btreeIndex
  let bounds ← leafBounds p
  some (bitmapIndexScanTuples index bounds)

def combineTuples (several : List RidStream → RidStream) : List RidStream → RidStream
  | [child] => child
  | children => several children

/-- The executor below the bitmap heap scan; the outer `none` is no bitmap. -/
def bitmapTuples (rel : RelationCatalogEntry) (predicate : Expression) : Option RidStream := do
  let groups ← collectBitmapDnfGroups predicate
  let children ← groups.mapM fun group => group.mapM (makeBitmapLeafTuples rel)
  if 2 ≤ (groups.map List.length).sum then
    some (combineTuples bitmapOrTuples (children.map (combineTuples bitmapAndTuples)))
  else none

/-- The bitmap heap scan below the recheck of the `WHERE`. -/
def bitmapPlan (rel : RelationCatalogEntry) (predicate : Expression) : Option (Pull Row) :=
  (bitmapTuples rel predicate).map fun tuples => filter (bitmapHeapScan rel.heap tuples) predicate

section Terms

variable {e : Expression} {groups : List (List QueryPredicateSpec)}

theorem extracted {p : QueryPredicateSpec} (isTerm : extractBasePredicate 0 e = some p) :
    e = predicateExpr p p.columnIdx := by
  unfold extractBasePredicate at isTerm
  split at isTerm
  · cases isTerm
    rfl
  · cases isTerm

theorem evaluateRow_group {group : List QueryPredicateSpec} {row : Row}
    (collected : collectConjunctiveBitmapTerms e = some group)
    (evaluates : ∀ p ∈ group, Evaluates p row) :
    e.evaluateRow row = some (.boolean (group.all fun p => termHolds p row)) := by
  have single {e' : Expression} {found : List QueryPredicateSpec}
      (isTerm : (extractBasePredicate 0 e').map (fun p => [p]) = some found)
      (each : ∀ p ∈ found, Evaluates p row) :
      e'.evaluateRow row = some (.boolean (found.all fun p => termHolds p row)) := by
    obtain ⟨p, isP, rfl⟩ := Option.map_eq_some_iff.mp isTerm
    rw [extracted isP, evaluateRow_term (each p mem_cons_self)]
    simp
  induction e generalizing group with
  | conjunction l r ihL ihR =>
    simp only [collectConjunctiveBitmapTerms, bind_eq_bind, bind_eq_some_iff,
      Option.some.injEq] at collected
    obtain ⟨left, isLeft, right, isRight, rfl⟩ := collected
    have evalL := ihL isLeft fun p member => evaluates p (List.mem_append_left _ member)
    have evalR := ihR isRight fun p member => evaluates p (List.mem_append_right _ member)
    rw [List.all_append]
    exact evaluateRow_conjunction evalL evalR
  | disjunction l r => cases collected
  | constant v => exact single collected evaluates
  | column side i => exact single collected evaluates
  | comparison type l r => exact single collected evaluates

theorem evaluateRow_groups {row : Row} (collected : collectBitmapDnfGroups e = some groups)
    (evaluates : ∀ group ∈ groups, ∀ p ∈ group, Evaluates p row) :
    e.evaluateRow row =
      some (.boolean (groups.any fun group => group.all fun p => termHolds p row)) := by
  have single {e' : Expression} {found : List (List QueryPredicateSpec)}
      (isGroup : (collectConjunctiveBitmapTerms e').bind
        (fun group => if group = [] then none else some [group]) = some found)
      (each : ∀ group ∈ found, ∀ p ∈ group, Evaluates p row) :
      e'.evaluateRow row =
        some (.boolean (found.any fun group => group.all fun p => termHolds p row)) := by
    obtain ⟨group, isTerms, outcome⟩ := bind_eq_some_iff.mp isGroup
    split at outcome
    · cases outcome
    · cases outcome
      rw [evaluateRow_group isTerms (each group mem_cons_self)]
      simp
  induction e generalizing groups with
  | disjunction l r ihL ihR =>
    simp only [collectBitmapDnfGroups, bind_eq_bind, bind_eq_some_iff,
      Option.some.injEq] at collected
    obtain ⟨left, isLeft, right, isRight, rfl⟩ := collected
    have evalL := ihL isLeft fun g member => evaluates g (List.mem_append_left _ member)
    have evalR := ihR isRight fun g member => evaluates g (List.mem_append_right _ member)
    rw [Expression.evaluateRow] at evalL evalR
    rw [Expression.evaluateRow, Expression.evaluate, evalL]
    cases any : left.any fun g => g.all fun p => termHolds p row with
    | false => simp [valueAsBool, any, evalR]
    | true => simp [valueAsBool, any]
  | conjunction l r => exact single collected evaluates
  | constant v => exact single collected evaluates
  | column side i => exact single collected evaluates
  | comparison type l r => exact single collected evaluates

theorem collected_ne_nil (collected : collectBitmapDnfGroups e = some groups) :
    ∀ group ∈ groups, group ≠ [] := by
  have single {e' : Expression} {found : List (List QueryPredicateSpec)}
      (isGroup : (collectConjunctiveBitmapTerms e').bind
        (fun group => if group = [] then none else some [group]) = some found) :
      ∀ group ∈ found, group ≠ [] := by
    obtain ⟨group, isTerms, outcome⟩ := bind_eq_some_iff.mp isGroup
    split at outcome
    · cases outcome
    · rename_i someTerms
      cases outcome
      intro group' member
      rw [mem_singleton.mp member]
      exact someTerms
  induction e generalizing groups with
  | disjunction l r ihL ihR =>
    simp only [collectBitmapDnfGroups, bind_eq_bind, bind_eq_some_iff,
      Option.some.injEq] at collected
    obtain ⟨left, isLeft, right, isRight, rfl⟩ := collected
    intro group member
    rcases List.mem_append.mp member with inLeft | inRight
    · exact ihL isLeft group inLeft
    · exact ihR isRight group inRight
  | conjunction l r => exact single collected
  | constant v => exact single collected
  | column side i => exact single collected
  | comparison type l r => exact single collected

end Terms

section Sets

variable {ι : Type} {Points : ι → RID → Prop}

def Yields (Points : ι → RID → Prop) (i : ι) (child : Option (List RID)) : Prop :=
  ∃ rids, child = some rids ∧ ∀ rid, rid ∈ rids ↔ Points i rid

theorem mem_sortedRids {l : List RID} {rid : RID} : rid ∈ sortedRids l ↔ rid ∈ l := by
  rw [sortedRids, List.mem_mergeSort, List.mem_dedup]

theorem nodup_sortedRids (l : List RID) : (sortedRids l).Nodup := by
  rw [sortedRids, (List.mergeSort_perm _ _).nodup_iff]
  exact List.nodup_dedup l

variable {terms : List ι} {children : List (Option (List RID))}

section

variable (yields : List.Forall₂ (Yields Points) terms children)

include yields

theorem intersectRids_spec
    (current : List RID) :
    ∃ both, intersectRids current children = some both ∧
      ∀ rid, rid ∈ both ↔ rid ∈ current ∧ ∀ i ∈ terms, Points i rid := by
  induction yields generalizing current with
  | nil =>
    refine ⟨current, ?_, ?_⟩
    · cases current <;> rfl
    · intro rid
      simp
  | cons first rest ih =>
    obtain ⟨rids, rfl, mem⟩ := first
    cases current with
    | nil => exact ⟨[], rfl, fun rid => by simp⟩
    | cons a more =>
      obtain ⟨both, found, mem'⟩ := ih (rids.filter (a :: more).contains)
      refine ⟨both, found, fun rid => ?_⟩
      rw [mem' rid, List.mem_filter, List.contains_iff_mem, mem rid, List.forall_mem_cons]
      constructor
      · exact fun holds => ⟨holds.1.2, holds.1.1, holds.2⟩
      · exact fun holds => ⟨⟨holds.2.1, holds.1⟩, holds.2.2⟩

theorem bitmapAnd_spec (some_ : terms ≠ []) :
    ∃ rids, bitmapAnd children = some rids ∧ rids.Nodup ∧
      ∀ rid, rid ∈ rids ↔ ∀ i ∈ terms, Points i rid := by
  cases yields with
  | nil => exact absurd rfl some_
  | cons first rest =>
    obtain ⟨rids, rfl, mem⟩ := first
    obtain ⟨both, found, mem'⟩ := intersectRids_spec rest rids
    refine ⟨sortedRids both, ?_, nodup_sortedRids both, fun rid => ?_⟩
    · simp [bitmapAnd, found]
    · rw [mem_sortedRids, mem' rid, mem rid, List.forall_mem_cons]

theorem bitmapOr_spec :
    ∃ rids, bitmapOr children = some rids ∧ rids.Nodup ∧
      ∀ rid, rid ∈ rids ↔ ∃ i ∈ terms, Points i rid := by
  have all : ∃ lists, children.mapM id = some lists ∧
      ∀ rid, rid ∈ lists.flatten ↔ ∃ i ∈ terms, Points i rid := by
    induction yields with
    | nil => exact ⟨[], rfl, fun rid => by simp⟩
    | cons first rest ih =>
      obtain ⟨rids, rfl, mem⟩ := first
      obtain ⟨lists, found, mem'⟩ := ih
      refine ⟨rids :: lists, ?_, fun rid => ?_⟩
      · rw [mapM_cons, found]
        rfl
      · rw [List.flatten_cons, List.mem_append, mem rid, mem' rid, List.exists_mem_cons_iff]
  obtain ⟨lists, found, mem⟩ := all
  refine ⟨sortedRids lists.flatten, ?_, nodup_sortedRids _, fun rid => ?_⟩
  · rw [bitmapOr, found, map_some]
  · rw [mem_sortedRids, mem rid]

end

theorem combine_several (several : 2 ≤ children.length)
    (executor : List (Option (List RID)) → Option (List RID)) :
    combine executor children = executor children := by
  cases children with
  | nil => rfl
  | cons first rest =>
    cases rest with
    | nil =>
      rw [List.length_singleton] at several
      omega
    | cons second others => rfl

section

variable (yields : List.Forall₂ (Yields Points) terms children)

include yields

theorem combineAnd_spec
    (some_ : terms ≠ []) :
    ∃ rids, combine bitmapAnd children = some rids ∧ (2 ≤ terms.length → rids.Nodup) ∧
      ∀ rid, rid ∈ rids ↔ ∀ i ∈ terms, Points i rid := by
  by_cases several : 2 ≤ terms.length
  · obtain ⟨rids, found, nodup, mem⟩ := bitmapAnd_spec yields some_
    rw [yields.length_eq] at several
    exact ⟨rids, (combine_several several _).trans found, fun _ => nodup, mem⟩
  · cases yields with
    | nil => exact absurd rfl some_
    | cons first rest =>
      cases rest with
      | nil =>
        obtain ⟨rids, rfl, mem⟩ := first
        exact ⟨rids, rfl, fun two => absurd two several, fun rid => by simp [mem rid]⟩
      | cons second others => exact absurd (by simp) several

theorem combineOr_spec (some_ : terms ≠ []) :
    ∃ rids, combine bitmapOr children = some rids ∧
      ((2 ≤ terms.length ∨ ∀ child ∈ children, ∀ l ∈ child, l.Nodup) → rids.Nodup) ∧
      ∀ rid, rid ∈ rids ↔ ∃ i ∈ terms, Points i rid := by
  by_cases several : 2 ≤ terms.length
  · obtain ⟨rids, found, nodup, mem⟩ := bitmapOr_spec yields
    rw [yields.length_eq] at several
    exact ⟨rids, (combine_several several _).trans found, fun _ => nodup, mem⟩
  · cases yields with
    | nil => exact absurd rfl some_
    | cons first rest =>
      cases rest with
      | nil =>
        obtain ⟨rids, rfl, mem⟩ := first
        refine ⟨rids, rfl, ?_, fun rid => by simp [mem rid]⟩
        rintro (two | each)
        · exact absurd two several
        · exact each _ mem_cons_self rids rfl
      | cons second others => exact absurd (by simp) several

end

end Sets

section Leaves

/-- An exact index serves the term: the literal is of the column's type and within its length. -/
structure Serves (rel : RelationCatalogEntry) (p : QueryPredicateSpec) (index : BTreeIndex) :
    Prop where
  found : (rel.findIndexOnColumn p.columnIdx).bind (·.btreeIndex) = some index
  bounded : p.cmp ≠ .neq
  column : (rel.schema[p.columnIdx]?).map Column.type = some index.keyType
  alike : orderedAlike index.keyType = true
  literal : Searchable index p.constant
  exactly : ExactEntries index (heldEntries rel.heap p.columnIdx)

variable {rel : RelationCatalogEntry} {p : QueryPredicateSpec} {index : BTreeIndex}

section

variable (serves : Serves rel p index)

include serves

theorem Serves.stored {rid : RID} {row : Row}
    (stored : (rid, row) ∈ rel.heap) : ∃ v, row[p.columnIdx]? = some v ∧
      (v.isNull = false → IsKey index.keyType v) := by
  have fits := rel.fits _ stored
  obtain ⟨col, isColumn, type⟩ := Option.map_eq_some_iff.mp serves.column
  have inside : p.columnIdx < row.length := by
    rw [fits.length]
    exact (List.getElem?_eq_some_iff.mp isColumn).1
  refine ⟨row[p.columnIdx], List.getElem?_eq_getElem inside, fun present => ⟨present, ?_⟩⟩
  have same := congrArg (fun l => l[p.columnIdx]?) fits
  simp only [List.getElem?_map, isColumn, List.getElem?_eq_getElem inside, map_some,
    Option.some.injEq] at same
  rw [same, type]

theorem Serves.keyed :
    ∀ e ∈ index.entries, IsKey index.keyType e.key := by
  intro e member
  obtain ⟨row, stored, read, present⟩ :=
    mem_heldEntries.mp (serves.exactly.entries.mem_iff.mp member)
  obtain ⟨v, read', isKey⟩ := serves.stored stored
  rw [read] at read'
  cases read'
  exact isKey present

theorem Serves.evaluates {rid : RID} {row : Row}
    (stored : (rid, row) ∈ rel.heap) : Evaluates p row := by
  obtain ⟨v, read, isKey⟩ := serves.stored stored
  refine ⟨v, read, serves.literal.isKey.present, ?_⟩
  cases isNull : v.isNull with
  | true => exact .inl rfl
  | false =>
    right
    rw [(compareKeys_ranks serves.alike (isKey isNull) serves.literal.isKey).2]
    rfl

end

def Admits (bounds : KeyBounds) (v : Value) : Prop :=
  match bounds.equalityKey with
  | some key => seenRank v = seenRank key
  | none => boundZone bounds.lower bounds.upper bounds.lowerInclusive bounds.upperInclusive v = .eq

variable {bounds : KeyBounds}

theorem ridsWithin_eq {type : TypeId} {entries : List LeafEntry} (alike : orderedAlike type = true)
    (keyed : ∀ e ∈ entries, IsKey type e.key) (lowers : ∀ bound ∈ bounds.lower, IsKey type bound)
    (uppers : ∀ bound ∈ bounds.upper, IsKey type bound) :
    ridsWithin bounds entries = some ((scan (fun e => boundZone bounds.lower bounds.upper
      bounds.lowerInclusive bounds.upperInclusive e.key) entries).map LeafEntry.rid) := by
  induction entries with
  | nil => rfl
  | cons e rest ih =>
    have later := ih fun e' member => keyed e' (List.mem_cons_of_mem _ member)
    rw [ridsWithin, rangeVerdict_eq alike (keyed e mem_cons_self) lowers uppers]
    cases at_ : boundZone bounds.lower bounds.upper bounds.lowerInclusive bounds.upperInclusive
        e.key <;> simp [scan, at_, later, verdictOf]

theorem bitmapIndexScan_spec {held : List LeafEntry} (exactly : ExactEntries index held)
    (alike : orderedAlike index.keyType = true)
    (keyed : ∀ e ∈ index.entries, IsKey index.keyType e.key)
    (equalities : ∀ key ∈ bounds.equalityKey, Searchable index key)
    (lowers : ∀ bound ∈ bounds.lower, Searchable index bound)
    (uppers : ∀ bound ∈ bounds.upper, IsKey index.keyType bound) :
    ∃ rids, bitmapIndexScan index bounds = some rids ∧
      ∀ rid, rid ∈ rids ↔ ∃ e ∈ index.entries, e.rid = rid ∧ Admits bounds e.key := by
  rw [bitmapIndexScan]
  cases equality : bounds.equalityKey with
  | some key =>
    refine ⟨_, exactly.search alike keyed (equalities key equality), fun rid => ?_⟩
    simp only [mem_map, List.mem_filter, beq_iff_eq, Admits, equality]
    constructor
    · rintro ⟨e, ⟨member, same⟩, isRid⟩
      exact ⟨e, member, isRid, compare_eq_iff_eq.mp same⟩
    · rintro ⟨e, member, isRid, same⟩
      exact ⟨e, ⟨member, compare_eq_iff_eq.mpr same⟩, isRid⟩
  | none =>
    have entries : ∃ entries, boundedEntries index bounds = some entries ∧
        entries.Sublist index.entries ∧ ∀ e ∈ index.entries, Admits bounds e.key →
          e ∈ entries := by
      rw [boundedEntries]
      cases lower : bounds.lower with
      | none => exact ⟨index.entries, rfl, List.Sublist.refl _, fun _ member _ => member⟩
      | some bound =>
        refine ⟨_, exactly.entriesFrom alike keyed (lowers bound lower),
          List.filter_sublist, fun e member admitted => List.mem_filter.mpr ⟨member, ?_⟩⟩
        rw [Admits, equality, lower] at admitted
        exact bne_iff_ne.mpr (boundZone_from admitted)
    obtain ⟨entries, bounded, sub, kept⟩ := entries
    have zoned : Zoned (fun e : LeafEntry => boundZone bounds.lower bounds.upper
        bounds.lowerInclusive bounds.upperInclusive e.key) entries :=
      Zoned.of_sorted (List.Pairwise.sublist sub (exactly.ranked alike keyed))
        fun _ _ _ _ below => boundZone_mono below
    have ran := ridsWithin_eq alike (fun e member => keyed e (sub.subset member))
      (fun bound isBound => (lowers bound isBound).isKey) uppers
    refine ⟨_, by rw [bounded, bind_some]; exact ran, fun rid => ?_⟩
    rw [scan_eq_filter zoned]
    simp only [mem_map, List.mem_filter, beq_iff_eq]
    constructor
    · rintro ⟨e, ⟨member, inside⟩, isRid⟩
      refine ⟨e, sub.subset member, isRid, ?_⟩
      rw [Admits, equality]
      exact inside
    · rintro ⟨e, member, isRid, admitted⟩
      refine ⟨e, ⟨kept e member admitted, ?_⟩, isRid⟩
      rw [Admits, equality] at admitted
      exact admitted

theorem admits_leafBounds (isLeaf : leafBounds p = some bounds) {v : Value} :
    Admits bounds v ↔ p.cmp.holds (compare (seenRank v) (seenRank p.constant)) = true := by
  rcases lt_trichotomy (seenRank v) (seenRank p.constant) with less | same | greater
  · rw [compare_lt_iff_lt.mpr less]
    unfold leafBounds at isLeaf
    split at isLeaf <;> cases isLeaf <;> rename_i cmp <;> rw [cmp] <;>
      simp [Admits, boundZone, Under, Over, ComparisonType.holds, less, less.ne, less.not_gt]
  · rw [compare_eq_iff_eq.mpr same]
    unfold leafBounds at isLeaf
    split at isLeaf <;> cases isLeaf <;> rename_i cmp <;> rw [cmp] <;>
      simp [Admits, boundZone, Under, Over, ComparisonType.holds, same]
  · rw [compare_gt_iff_gt.mpr greater]
    unfold leafBounds at isLeaf
    split at isLeaf <;> cases isLeaf <;> rename_i cmp <;> rw [cmp] <;>
      simp [Admits, boundZone, Under, Over, ComparisonType.holds, greater, greater.ne',
        greater.not_gt]

def Satisfying (heap : HeapFile) (p : QueryPredicateSpec) (rid : RID) : Prop :=
  ∃ row, (rid, row) ∈ heap ∧ termHolds p row = true

theorem Serves.yields (serves : Serves rel p index) : ∃ child,
    makeBitmapLeaf rel p = some child ∧ Yields (Satisfying rel.heap) p child := by
  obtain ⟨entry, isEntry, btree⟩ := bind_eq_some_iff.mp serves.found
  obtain ⟨bounds, isLeaf⟩ : ∃ bounds, leafBounds p = some bounds := by
    have bounded := serves.bounded
    rw [leafBounds]
    cases cmp : p.cmp with
    | neq => exact absurd cmp bounded
    | eq | lt | lte | gt | gte => exact ⟨_, rfl⟩
  have literals : (∀ key ∈ bounds.equalityKey, key = p.constant) ∧
      (∀ bound ∈ bounds.lower, bound = p.constant) ∧
      (∀ bound ∈ bounds.upper, bound = p.constant) := by
    unfold leafBounds at isLeaf
    split at isLeaf <;> cases isLeaf <;> simp
  obtain ⟨rids, scanned, mem⟩ := bitmapIndexScan_spec serves.exactly serves.alike serves.keyed
    (fun key isKey => literals.1 key isKey ▸ serves.literal)
    (fun bound isBound => literals.2.1 bound isBound ▸ serves.literal)
    (fun bound isBound => literals.2.2 bound isBound ▸ serves.literal.isKey)
  have holds_iff {row : Row} {v : Value} (read : row[p.columnIdx]? = some v)
      (isKey : IsKey index.keyType v) : termHolds p row = true ↔ Admits bounds v := by
    rw [admits_leafBounds isLeaf, termHolds, read]
    simp [(compareKeys_ranks serves.alike isKey serves.literal.isKey).2]
  refine ⟨some rids, ?_, rids, rfl, fun rid => ?_⟩
  · simp [makeBitmapLeaf, isEntry, btree, isLeaf, scanned]
  · rw [mem rid]
    constructor
    · rintro ⟨e, member, rfl, admitted⟩
      obtain ⟨row, stored, read, -⟩ :=
        mem_heldEntries.mp (serves.exactly.entries.mem_iff.mp member)
      exact ⟨row, stored, (holds_iff read (serves.keyed e member)).mpr admitted⟩
    · rintro ⟨row, stored, holds⟩
      obtain ⟨v, read, isKey⟩ := serves.stored stored
      have present : v.isNull = false := by
        cases isNull : v.isNull with
        | false => rfl
        | true =>
          rw [termHolds, read] at holds
          simp [compareValues, isNull] at holds
      refine ⟨⟨v, rid⟩, ?_, rfl, (holds_iff read (isKey present)).mp holds⟩
      exact serves.exactly.entries.mem_iff.mpr (mem_heldEntries.mpr ⟨row, stored, read, present⟩)

end Leaves

section Agreement

theorem mapM_forall₂ {α β : Type} {f : α → Option β} {R : α → β → Prop} {l : List α}
    (each : ∀ a ∈ l, ∃ b, f a = some b ∧ R a b) :
    ∃ made, l.mapM f = some made ∧ List.Forall₂ R l made := by
  induction l with
  | nil => exact ⟨[], rfl, .nil⟩
  | cons a rest ih =>
    obtain ⟨b, isB, related⟩ := each a mem_cons_self
    obtain ⟨made, isMade, others⟩ := ih fun a' member => each a' (List.mem_cons_of_mem _ member)
    refine ⟨b :: made, ?_, .cons related others⟩
    rw [mapM_cons, isB, isMade]
    rfl

theorem mapM_map {α β γ : Type} (f : α → Option β) (g : β → γ) (l : List α) :
    l.mapM (fun a => (f a).map g) = (l.mapM f).map (List.map g) := by
  induction l with
  | nil => rfl
  | cons a rest ih =>
    rw [mapM_cons, mapM_cons, ih]
    cases f a with
    | none => rfl
    | some b => cases rest.mapM f <;> rfl

variable {rel : RelationCatalogEntry} {predicate : Expression}
  {groups : List (List QueryPredicateSpec)}

theorem makeBitmapLeafTuples_eq (p : QueryPredicateSpec) :
    makeBitmapLeafTuples rel p = (makeBitmapLeaf rel p).map streamOf := by
  rw [makeBitmapLeafTuples, makeBitmapLeaf]
  cases rel.findIndexOnColumn p.columnIdx with
  | none => rfl
  | some entry =>
    cases btree : entry.btreeIndex with
    | none => simp [btree]
    | some index => cases bounds : leafBounds p <;> simp [btree, bitmapIndexScanTuples, streamOf]

theorem combineTuples_eq {several : List RidStream → RidStream}
    {executor : List (Option (List RID)) → Option (List RID)} {children : List (Option (List RID))}
    (refines : several (children.map streamOf) = streamOf (executor children)) :
    combineTuples several (children.map streamOf) = streamOf (combine executor children) := by
  cases children with
  | nil => exact refines
  | cons first rest =>
    cases rest with
    | nil => rfl
    | cons second others => exact refines

def OfGroup (heap : HeapFile) (group : List QueryPredicateSpec) (rid : RID) : Prop :=
  ∀ p ∈ group, Satisfying heap p rid

/-- The terms of the groups, as the `WHERE` has them. -/
def groupsHold (groups : List (List QueryPredicateSpec)) (row : Row) : Bool :=
  groups.any fun group => group.all fun p => termHolds p row

theorem ofGroups_iff (distinct : (rel.heap.map Prod.fst).Nodup)
    (nonempty : ∀ group ∈ groups, group ≠ []) {rid : RID} :
    (∃ group ∈ groups, OfGroup rel.heap group rid) ↔
      ∃ row, (rid, row) ∈ rel.heap ∧ groupsHold groups row = true := by
  have unique {row row' : Row} (stored : (rid, row) ∈ rel.heap) (stored' : (rid, row') ∈ rel.heap) :
      row = row' :=
    congrArg Prod.snd (List.inj_on_of_nodup_map distinct stored stored' rfl)
  constructor
  · rintro ⟨group, member, satisfied⟩
    obtain ⟨p, inGroup⟩ := List.exists_mem_of_ne_nil group (nonempty group member)
    obtain ⟨row, stored, -⟩ := satisfied p inGroup
    refine ⟨row, stored, List.any_eq_true.mpr ⟨group, member, List.all_eq_true.mpr ?_⟩⟩
    intro q inGroup'
    obtain ⟨row', stored', holds⟩ := satisfied q inGroup'
    rw [unique stored stored']
    exact holds
  · rintro ⟨row, stored, holds⟩
    obtain ⟨group, member, all⟩ := List.any_eq_true.mp holds
    exact ⟨group, member, fun p inGroup => ⟨row, stored, List.all_eq_true.mp all p inGroup⟩⟩

theorem bitmapTuples_spec (distinct : (rel.heap.map Prod.fst).Nodup)
    (inRange : ∀ stored ∈ rel.heap, InRange stored.1)
    (collected : collectBitmapDnfGroups predicate = some groups)
    (served : ∀ group ∈ groups, ∀ p ∈ group, ∃ index, Serves rel p index) :
    if 2 ≤ (groups.map List.length).sum then
      ∃ rids, bitmapTuples rel predicate = some (streamOf (some rids)) ∧
        (∀ rid ∈ rids, InRange rid) ∧ rids.Nodup ∧
        ∀ rid, rid ∈ rids ↔ ∃ row, (rid, row) ∈ rel.heap ∧ groupsHold groups row = true
    else bitmapTuples rel predicate = none := by
  have nonempty := collected_ne_nil collected
  have ranged {P : RID → Prop} {found : Option (List RID)} {rids : List RID}
      (isFound : found = some rids) (mem : ∀ rid, rid ∈ rids ↔ P rid)
      (ofHeap : ∀ rid, P rid → ∃ row, (rid, row) ∈ rel.heap) : AllInRange found := by
    subst isFound
    rintro l ⟨⟩ rid member
    obtain ⟨row, stored⟩ := ofHeap rid ((mem rid).mp member)
    exact inRange _ stored
  have group_spec (group : List QueryPredicateSpec) (member : group ∈ groups) :
      ∃ children, group.mapM (makeBitmapLeaf rel) = some children ∧
        ((Yields (OfGroup rel.heap) group (combine bitmapAnd children) ∧
          (2 ≤ group.length → ∀ l ∈ combine bitmapAnd children, l.Nodup)) ∧
          ∀ child ∈ children, AllInRange child) := by
    obtain ⟨children, made, yields⟩ := mapM_forall₂ (f := makeBitmapLeaf rel)
      (R := Yields (Satisfying rel.heap)) fun p inGroup =>
        (served group member p inGroup).elim fun index serves => serves.yields
    obtain ⟨rids, found, nodup, mem⟩ := combineAnd_spec yields (nonempty group member)
    refine ⟨children, made, ⟨⟨rids, found, mem⟩, ?_⟩, ?_⟩
    · rintro two l isFound
      rw [found] at isFound
      cases isFound
      exact nodup two
    · intro child inChildren
      obtain ⟨i, inside, rfl⟩ := List.getElem_of_mem inChildren
      obtain ⟨rids', isRids, mem'⟩ := yields.get (by have := yields.length_eq; omega) inside
      exact ranged isRids mem' fun rid ⟨row, stored, _⟩ => ⟨row, stored⟩
  obtain ⟨lists, made, specs⟩ := mapM_forall₂ group_spec
  have yields : List.Forall₂ (Yields (OfGroup rel.heap)) groups (lists.map (combine bitmapAnd)) :=
    List.forall₂_map_right_iff.mpr (specs.imp fun _ _ spec => spec.1.1)
  have leaves : groups.mapM (fun group => group.mapM (makeBitmapLeafTuples rel)) =
      some (lists.map (List.map streamOf)) := by
    rw [funext fun group => (congrArg (fun f => List.mapM f group)
      (funext makeBitmapLeafTuples_eq)).trans (mapM_map _ _ _), mapM_map, made, map_some]
  have disjuncts : (lists.map (List.map streamOf)).map (combineTuples bitmapAndTuples) =
      (lists.map (combine bitmapAnd)).map streamOf := by
    rw [List.map_map, List.map_map]
    refine List.map_congr_left fun children member => ?_
    obtain ⟨i, inside, rfl⟩ := List.getElem_of_mem member
    have spec := specs.get (by have := specs.length_eq; omega) inside
    exact combineTuples_eq (bitmapAndTuples_eq spec.2)
  have rangedDisjuncts : ∀ child ∈ lists.map (combine bitmapAnd), AllInRange child := by
    intro child member
    obtain ⟨i, inside, rfl⟩ := List.getElem_of_mem member
    have inGroups : i < groups.length := by
      have := yields.length_eq
      omega
    obtain ⟨rids, isRids, mem⟩ := yields.get inGroups inside
    refine ranged isRids mem fun rid ofGroup => ?_
    obtain ⟨row, stored, -⟩ := (ofGroups_iff distinct nonempty).mp
      ⟨groups[i], List.getElem_mem inGroups, ofGroup⟩
    exact ⟨row, stored⟩
  rw [bitmapTuples, collected, bind_eq_bind, bind_some, leaves]
  simp only [bind_eq_bind, bind_some]
  split
  · rename_i two
    have someGroups : groups ≠ [] := by
      rintro rfl
      simp at two
    obtain ⟨rids, found, nodup, mem⟩ := combineOr_spec yields someGroups
    have mem' (rid : RID) := (mem rid).trans (ofGroups_iff distinct nonempty)
    refine ⟨rids, ?_, ?_, nodup ?_, mem'⟩
    · rw [disjuncts, combineTuples_eq (bitmapOrTuples_eq rangedDisjuncts), found]
    · exact ranged rfl mem' (fun rid ⟨row, stored, _⟩ => ⟨row, stored⟩) rids rfl
    · by_cases several : 2 ≤ groups.length
      · exact .inl several
      · right
        cases specs with
        | nil => exact absurd rfl someGroups
        | cons first others =>
          cases others with
          | cons _ _ => exact absurd (by simp) several
          | nil =>
            intro child member
            rw [List.map_singleton, mem_singleton] at member
            rw [member]
            rw [List.map_singleton, List.sum_singleton] at two
            exact first.1.2 two
  · rfl

/-- The rows are those of the filtered sequential scan, each satisfying tuple once. -/
def SameRows (rel : RelationCatalogEntry) (predicate : Expression) (rows : Pull Row) : Prop :=
  ∃ found accepted, rows = .ofList found ∧
    accepted = rel.heap.filter (fun stored => condition predicate stored.2 == some true) ∧
    filter (seqScan rel.heap) predicate = .ofList (accepted.map Prod.snd) ∧
    found.Perm (accepted.map Prod.snd)

theorem bitmapPlan_agrees (distinct : (rel.heap.map Prod.fst).Nodup)
    (inRange : ∀ stored ∈ rel.heap, InRange stored.1)
    (collected : collectBitmapDnfGroups predicate = some groups)
    (served : ∀ group ∈ groups, ∀ p ∈ group, ∃ index, Serves rel p index) :
    ((bitmapPlan rel predicate).isSome = true ↔ 2 ≤ (groups.map List.length).sum) ∧
      ∀ rows ∈ bitmapPlan rel predicate, SameRows rel predicate rows := by
  have spec := bitmapTuples_spec distinct inRange collected served
  have evaluated {stored : RID × Row} (member : stored ∈ rel.heap) :
      condition predicate stored.2 = some (groupsHold groups stored.2) := by
    have value := evaluateRow_groups collected fun group inGroups p inGroup =>
      (served group inGroups p inGroup).elim fun index serves => serves.evaluates member
    rw [condition, value]
    rfl
  split at spec
  · rename_i two
    obtain ⟨rids, made, ranged, nodup, mem⟩ := spec
    have plan : bitmapPlan rel predicate =
        some (filter (heapRows rel.heap (some rids)) predicate) := by
      rw [bitmapPlan, made, map_some, bitmapHeapScan_eq]
      rintro l ⟨⟩
      exact ranged
    refine ⟨by rw [plan]; simp [two], ?_⟩
    rw [plan]
    rintro rows ⟨⟩
    have accepts : rel.heap.filter (fun stored => condition predicate stored.2 == some true) =
        rel.heap.filter fun stored => groupsHold groups stored.2 := by
      refine List.filter_congr fun stored member => ?_
      rw [evaluated member]
      cases groupsHold groups stored.2 <;> rfl
    have holdsFound : ∀ row ∈ rids.filterMap (getTuple rel.heap),
        groupsHold groups row = true ∧ condition predicate row = some (groupsHold groups row) := by
      intro row member
      obtain ⟨rid, inRids, found⟩ := List.mem_filterMap.mp member
      obtain ⟨row', stored, holds⟩ := (mem rid).mp inRids
      rw [getTuple_of_mem distinct stored] at found
      cases found
      exact ⟨holds, evaluated stored⟩
    refine ⟨rids.filterMap (getTuple rel.heap), _, ?_, rfl, ?_, ?_⟩
    · rw [filter, heapRows, Pull.filter_ofList fun row member => (holdsFound row member).2,
        List.filter_eq_self.mpr fun row member => (holdsFound row member).1]
    · have scanned : ∀ row ∈ rel.heap.map Prod.snd,
          condition predicate row = some (groupsHold groups row) := by
        intro row member
        obtain ⟨stored, inHeap, rfl⟩ := mem_map.mp member
        exact evaluated inHeap
      rw [filter, seqScan, Pull.filter_ofList scanned, accepts, List.filter_map]
      rfl
    · rw [accepts]
      exact fetched_perm (groupsHold groups) distinct nodup mem
  · rename_i few
    rw [bitmapPlan, spec]
    exact ⟨by simpa using few, fun rows isRows => by cases isRows⟩

def ageIndex : BTreeIndex where
  keyType := .int32
  maxVarcharLen := 0
  leaves := [[⟨.int32 1, ⟨2, 0⟩⟩, ⟨.int32 7, ⟨1, 0⟩⟩]]
  findLeaf _ := 0

def ages : RelationCatalogEntry where
  relationId := 1
  schema := [⟨"age", .int32⟩]
  heap := [(⟨1, 0⟩, [.int32 7]), (⟨1, 1⟩, [.null .int32]), (⟨2, 0⟩, [.int32 1])]
  indexes := [⟨[⟨0, .int32, 0, true⟩], some (.btree ageIndex)⟩]
  fits := by decide
  maintained := by decide

theorem serves_ages {cmp : ComparisonType} (bounded : cmp ≠ .neq) (n : BitVec 32) :
    Serves ages ⟨0, 0, cmp, .int32 n⟩ ageIndex where
  found := rfl
  bounded := bounded
  column := rfl
  alike := rfl
  literal := rfl
  exactly := {
    entries := (by decide : ageIndex.entries.Perm (heldEntries ages.heap 0))
    sorted := by decide
    descends := fun _ _ e member => (List.not_mem_nil member).elim
    linked := fun _ _ => List.isChain_singleton _ }

def oneOrMore : Expression :=
  .disjunction (.comparison .eq (.column .single 0) (.constant (.int32 1)))
    (.comparison .gt (.column .single 0) (.constant (.int32 5)))

theorem bitmapPlan_agrees_ages :
    ((bitmapPlan ages oneOrMore).isSome = true ↔ 2 ≤ ([[(⟨0, 0, .eq, .int32 1⟩ :
        QueryPredicateSpec)], [⟨0, 0, .gt, .int32 5⟩]].map List.length).sum) ∧
      ∀ rows ∈ bitmapPlan ages oneOrMore, SameRows ages oneOrMore rows := by
  refine bitmapPlan_agrees (by decide) (by decide) rfl ?_
  intro group inGroups p inGroup
  simp only [List.mem_cons, List.not_mem_nil, or_false] at inGroups
  rcases inGroups with rfl | rfl
  · rw [mem_singleton.mp inGroup]
    exact ⟨ageIndex, serves_ages (by decide) 1⟩
  · rw [mem_singleton.mp inGroup]
    exact ⟨ageIndex, serves_ages (by decide) 5⟩

end Agreement

end GraniteDb.Sql.BitmapPlan
