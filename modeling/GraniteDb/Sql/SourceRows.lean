/- The source rows of one table: the extracted predicates hold, or the WHERE is applied. -/

import GraniteDb.Optimizer.JoinSteps
import GraniteDb.Sql.BinderFacts

namespace GraniteDb.Sql.SourceRows

open Common.Types Common.Value Access.IndexScan Catalog.CatalogManager Execution.Expressions
open Execution.Operators Execution.BitmapScan Lib.Pull Optimizer.PhysicalPath
open Optimizer.PlanEnumerator Optimizer.BaseAccess Optimizer.JoinSteps Sql.Binder Sql.SelectPlanner
open Option (bind_eq_some_iff bind_eq_bind map_eq_some_iff bind_some)

section Rids

variable {rid : RID} {rids : List RID}

theorem mem_ridsWithin {bounds : KeyBounds} {entries : List LeafEntry}
    (scanned : ridsWithin bounds entries = some rids) (member : rid ∈ rids) :
    ∃ e ∈ entries, e.rid = rid ∧ rangeVerdict bounds.lower bounds.upper bounds.lowerInclusive
      bounds.upperInclusive e.key = some .within := by
  induction entries generalizing rids with
  | nil =>
    cases scanned
    cases member
  | cons e rest ih =>
    simp only [ridsWithin, bind_eq_bind, bind_eq_some_iff] at scanned
    obtain ⟨verdict, tested, outcome⟩ := scanned
    have later {found : List RID} (inner : ridsWithin bounds rest = some found)
        (inFound : rid ∈ found) : ∃ e' ∈ e :: rest, e'.rid = rid ∧
          rangeVerdict bounds.lower bounds.upper bounds.lowerInclusive bounds.upperInclusive
            e'.key = some .within := by
      obtain ⟨e', inRest, facts⟩ := ih inner inFound
      exact ⟨e', List.mem_cons_of_mem _ inRest, facts⟩
    cases verdict with
    | below => exact later outcome member
    | above =>
      cases outcome
      cases member
    | within =>
      simp only [bind_eq_some_iff] at outcome
      obtain ⟨more, inner, same⟩ := outcome
      cases same
      rcases List.mem_cons.mp member with rfl | inMore
      · exact ⟨e, List.mem_cons_self, rfl, tested⟩
      · exact later inner inMore

theorem mem_bitmapIndexScan {index : BTreeIndex} {bounds : KeyBounds}
    (scanned : bitmapIndexScan index bounds = some rids) (member : rid ∈ rids) :
    ∃ e ∈ index.entries, e.rid = rid ∧
      (∀ key, bounds.equalityKey = some key → compareValues e.key key = some .eq) ∧
      (bounds.equalityKey = none → rangeVerdict bounds.lower bounds.upper bounds.lowerInclusive
        bounds.upperInclusive e.key = some .within) := by
  unfold bitmapIndexScan at scanned
  cases equality : bounds.equalityKey with
  | some key =>
    rw [equality] at scanned
    obtain ⟨e, inIndex, isRid, same⟩ := search_sound scanned rid member
    refine ⟨e, inIndex, isRid, ?_, nofun⟩
    rintro key' ⟨⟩
    exact compareValues_of_compareEncoded same
  | none =>
    rw [equality] at scanned
    obtain ⟨entries, bounded, within⟩ := bind_eq_some_iff.mp scanned
    obtain ⟨e, inEntries, isRid, verdict⟩ := mem_ridsWithin within member
    refine ⟨e, ?_, isRid, nofun, fun _ => verdict⟩
    unfold boundedEntries at bounded
    split at bounded
    · exact entriesFrom_subset bounded inEntries
    · cases bounded
      exact inEntries

theorem admits_of_pathBounds {path : BasePath} {v : Value}
    (equal : ∀ key, (pathBounds path (path.accessType == .indexScanRange)).equalityKey =
      some key → compareValues v key = some .eq)
    (within : (pathBounds path (path.accessType == .indexScanRange)).equalityKey = none →
      rangeVerdict (pathBounds path (path.accessType == .indexScanRange)).lower
        (pathBounds path (path.accessType == .indexScanRange)).upper
        (pathBounds path (path.accessType == .indexScanRange)).lowerInclusive
        (pathBounds path (path.accessType == .indexScanRange)).upperInclusive v = some .within) :
    ScanMode.Admits path.scanMode v := by
  unfold BasePath.scanMode
  cases access : path.accessType with
  | seqScan | indexScanOrdered => trivial
  | indexScanEq =>
    cases predicates : path.accessSpec.indexPredicates with
    | nil => trivial
    | cons p rest =>
      refine equal p.constant ?_
      simp [pathBounds, access, predicates]
  | indexScanRange =>
    simp only [pathBounds, access, reduceCtorEq, if_false, beq_self_eq_true, if_true,
      true_implies] at within
    simp only
    split
    · exact within
    · trivial

theorem mem_collectBaseRids {rel : RelationCatalogEntry} {predicates : List QueryPredicateSpec}
    {query : OptimizerQuery} {estRows : GraniteDb.Common.Double.Double} {path : BasePath}
    (candidate : path ∈ makeBaseCandidates rel predicates query estRows)
    (indexed : path.accessIndex.isSome = true)
    (noResidual : path.accessSpec.residualPredicates.isEmpty = true)
    (collected : collectBaseRids path rel = some rids) (member : rid ∈ rids) {row : Row}
    (found : getTuple rel.heap rid = some row) :
    ∀ p ∈ predicates, SatisfiesAt p p.columnIdx row := by
  rcases List.mem_cons.mp candidate with rfl | listed
  · cases indexed
  obtain ⟨⟨entry, position⟩, atPosition, made⟩ := List.mem_filterMap.mp listed
  have registered := List.mem_zipIdx_iff_getElem?.mp atPosition
  have inIndexes : entry ∈ rel.indexes := List.mem_of_getElem? registered
  have spec := indexCandidate_spec made
  obtain ⟨isAt, isSpec⟩ : path.accessIndex = some position ∧
      path.accessSpec = (splitPredicates predicates entry.keyColumns).1 := by
    unfold indexCandidate at made
    simp only at made
    split at made
    · cases made
    · cases made
      exact ⟨rfl, rfl⟩
  have byIndex : collectIndexRids path entry = some rids := by
    unfold collectBaseRids at collected
    rw [isAt] at collected
    cases access : path.accessType with
    | seqScan =>
      have isIndex := spec.access
      rw [access] at isIndex
      unfold indexAccessType at isIndex
      repeat' split at isIndex
      all_goals cases isIndex
    | indexScanEq | indexScanRange | indexScanOrdered =>
      simpa only [access, registered, bind_some] using collected
  intro p inPredicates
  have isAccess : p ∈ path.accessSpec.accessPredicates := by
    rw [isSpec] at noResidual ⊢
    rcases residual_or_access predicates entry.keyColumns inPredicates with left | went
    · rw [List.isEmpty_iff.mp noResidual] at left
      cases left
    · exact went
  unfold collectIndexRids at byIndex
  cases btree : entry.btreeIndex with
  | some index =>
    rw [btree] at byIndex
    obtain ⟨e, inIndex, rfl, equal, within⟩ := mem_bitmapIndexScan byIndex member
    have inEntries : ([e.key], e.rid) ∈ entry.entries := entry_of_btree btree inIndex
    exact btree_satisfies spec (hasKey_of_entry inIndexes inEntries found)
      (admits_of_pathBounds equal within) isAccess
  | none =>
    rw [btree] at byIndex
    obtain ⟨index, generic, scanned⟩ := bind_eq_some_iff.mp byIndex
    obtain ⟨e, inIndex, rfl, inside⟩ : ∃ e ∈ index.entries, e.rid = rid ∧
        (path.fullScan = false → InsideScan path.accessSpec.scanSpec e.key) := by
      cases full : path.fullScan with
      | true =>
        rw [full] at scanned
        cases scanned
        obtain ⟨e, inIndex, isRid⟩ := List.mem_map.mp member
        exact ⟨e, inIndex, isRid, nofun⟩
      | false =>
        rw [full] at scanned
        obtain ⟨e, inIndex, isRid, inside⟩ := scanPrefixRange_sound scanned rid member
        exact ⟨e, inIndex, isRid, fun _ => inside⟩
    have inEntries : (e.key, e.rid) ∈ entry.entries := entry_of_generic generic inIndex
    exact generic_satisfies spec (hasKey_of_entry inIndexes inEntries found) inside isAccess

theorem mem_heapRows {heap : HeapFile} {rids : Option (List RID)} {row : Row}
    (member : row ∈ (heapRows heap rids).items) :
    ∃ found, rids = some found ∧ ∃ rid ∈ found, getTuple heap rid = some row := by
  cases rids with
  | none => cases member
  | some found =>
    rw [heapRows, Pull.items_ofList] at member
    obtain ⟨rid, inFound, isRow⟩ := List.mem_filterMap.mp member
    exact ⟨found, rfl, rid, inFound, isRow⟩

end Rids

section OneTable

variable {rel : RelationCatalogEntry}

theorem indexOnlyRows_length {path : BasePath} {entry : IndexCatalogEntry} {rows : Pull Row}
    (built : indexOnlyRows path rel entry = some rows) {row : Row} (member : row ∈ rows.items) :
    row.length = rel.schema.length := by
  have scanned {keys : Pull (List Value)}
      (inScan : row ∈ (indexOnlyScan rel.schema entry.keyColumns keys).items) :
      row.length = rel.schema.length := by
    rw [indexOnlyScan, Pull.items_map] at inScan
    obtain ⟨key, _, rfl⟩ := List.mem_map.mp inScan
    simp [buildOutputTuple]
  unfold indexOnlyRows at built
  split at built
  · cases built
    exact scanned member
  · obtain ⟨index, _, rfl⟩ := map_eq_some_iff.mp built
    exact scanned member

theorem mem_singleTableRows {catalog : CatalogManager} {stmt : BoundSelectStatement}
    {predicates : List QueryPredicateSpec} {query : OptimizerQuery}
    {estRows : GraniteDb.Common.Double.Double} {path : BasePath}
    (candidate : path ∈ makeBaseCandidates rel predicates query estRows)
    (isRelation : catalog.getRelation path.relationId = some rel) {rows : Pull Row}
    (built : singleTableRows catalog stmt path = some rows) {row : Row}
    (member : row ∈ rows.items) :
    row.length = rel.schema.length ∧ ((∀ e ∈ stmt.wherePredicate, e.Accepts row) ∨
      (FitsSchema rel.schema row ∧ ∀ p ∈ predicates, SatisfiesAt p p.columnIdx row)) := by
  have stored_fits {rid : RID} (stored : (rid, row) ∈ rel.heap) :
      row.length = rel.schema.length ∧ FitsSchema rel.schema row :=
    ⟨stored_length stored, rel.fits _ stored⟩
  simp only [singleTableRows, isRelation, bind_eq_bind, bind_some] at built
  split at built
  · -- The index-only scan, which is filtered.
    obtain ⟨scan, scanned, rfl⟩ := map_eq_some_iff.mp built
    obtain ⟨inScan, accepted⟩ := mem_withFilter member
    exact ⟨indexOnlyRows_length scanned inScan, .inl accepted⟩
  · split at built
    · -- Late materialization, from an index that has all the predicates.
      rename_i late
      cases built
      obtain ⟨rids, collected, rid, inRids, found⟩ := mem_heapRows member
      simp only [canUseLateMaterialization, Bool.and_eq_true] at late
      obtain ⟨long, fits⟩ := stored_fits (mem_of_getTuple found)
      exact ⟨long, .inr ⟨fits, mem_collectBaseRids candidate late.1.1.2 late.1.2 collected inRids
        found⟩⟩
    · split at built
      · -- The bitmap heap scan, which is filtered.
        rename_i bitmap isBitmap
        cases built
        obtain ⟨inScan, accepted⟩ := mem_withFilter member
        unfold bitmapRows at isBitmap
        split at isBitmap
        · obtain ⟨rids, _, rfl⟩ := map_eq_some_iff.mp isBitmap
          obtain ⟨_, _, rid, _, found⟩ := mem_heapRows inScan
          exact ⟨(stored_fits (mem_of_getTuple found)).1, .inl accepted⟩
        · cases isBitmap
      · obtain ⟨⟨rid, stored⟩, satisfied⟩ := mem_buildExecutor candidate isRelation built member
        obtain ⟨long, fits⟩ := stored_fits stored
        exact ⟨long, .inr ⟨fits, satisfied⟩⟩

theorem bitmapRids_of_noIndex (noIndex : rel.indexes = []) (predicate : Expression) :
    bitmapRids rel predicate = none := by
  rw [Option.eq_none_iff_forall_ne_some]
  intro rids made
  simp only [bitmapRids, bind_eq_bind, bind_eq_some_iff] at made
  obtain ⟨groups, _, children, mapped, outcome⟩ := made
  split at outcome
  · rename_i two
    obtain ⟨n, listed, positive⟩ :=
      List.sum_pos_iff_exists_pos_nat.mp (show 0 < (groups.map List.length).sum by omega)
    obtain ⟨group, inGroups, rfl⟩ := List.mem_map.mp listed
    obtain ⟨p, rest, rfl⟩ := List.exists_cons_of_length_pos positive
    obtain ⟨inner, _, leaves⟩ := BinderFacts.exists_of_mapM_some mapped inGroups
    obtain ⟨_, _, leaf⟩ := BinderFacts.exists_of_mapM_some leaves List.mem_cons_self
    simp [makeBitmapLeaf, RelationCatalogEntry.findIndexOnColumn, noIndex] at leaf
  · cases outcome

end OneTable

end GraniteDb.Sql.SourceRows
