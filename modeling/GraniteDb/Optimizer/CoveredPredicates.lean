/- A base candidate splits its predicates and outputs the tuples that satisfy them all. -/

import GraniteDb.Catalog.HeldKeys
import GraniteDb.Optimizer.PredicateTerms

namespace GraniteDb.Optimizer.CoveredPredicates

open Common.Types Common.Value Access.IndexScan Access.ExactIndex Access.ExactPrefixScan
open Catalog.CatalogManager Catalog.HeldKeys Execution.Expressions Execution.Operators
open Execution.ValueOrder Lib.Pull Lib.SortedScan Optimizer.PhysicalPath Optimizer.PlanEnumerator
open Optimizer.BaseAccess Optimizer.PredicateTerms
open Option (mem_toList map_eq_some_iff bind_some toList_none)
open List (append_nil filter_congr not_mem_nil mem_cons_self length_map mem_cons_of_mem take_length)

section Split

variable {predicates : List QueryPredicateSpec}

theorem matchColumn_fresh {used : List Nat} {columnIdx : Nat}
    {entries : List (QueryPredicateSpec × Nat)} {lower upper : Option Nat}
    (lowers : ∀ i ∈ lower, i ∉ used) (uppers : ∀ i ∈ upper, i ∉ used) :
    (∀ i ∈ (matchColumn used columnIdx entries lower upper).equality, i ∉ used) ∧
      (∀ i ∈ (matchColumn used columnIdx entries lower upper).lower, i ∉ used) ∧
      ∀ i ∈ (matchColumn used columnIdx entries lower upper).upper, i ∉ used := by
  induction entries generalizing lower upper with
  | nil => exact ⟨fun _ member => (by cases member), lowers, uppers⟩
  | cons e rest ih =>
    obtain ⟨p, i⟩ := e
    unfold matchColumn
    split
    · exact ih lowers uppers
    · rename_i fresh
      have unused : i ∉ used := by
        intro member
        exact fresh (by rw [List.contains_iff_mem.mpr member, Bool.true_or])
      split
      · refine ⟨?_, lowers, uppers⟩
        rintro j ⟨⟩
        exact unused
      · apply ih
        · intro j taken
          split at taken
          · cases taken
            exact unused
          · exact lowers j taken
        · intro j taken
          split at taken
          · cases taken
            exact unused
          · exact uppers j taken

structure TakenOnce (predicates : List QueryPredicateSpec) (taken : Taken) : Prop where
  nodup : taken.used.Nodup
  valid : ∀ i ∈ taken.used, i < predicates.length
  perm : (taken.indexPredicates ++ taken.lowerBound.toList ++ taken.upperBound.toList).Perm
    (taken.used.filterMap (predicates[·]?))

theorem filterMap_toList (found : Option Nat) :
    found.toList.filterMap (predicates[·]?) = (found.bind (predicates[·]?)).toList := by
  cases found with
  | none => rfl
  | some i =>
    rw [Option.toList_some, bind_some]
    cases at_ : predicates[i]? <;> simp [at_]

theorem takePredicates_once {cols : List IndexKeyColumnDefinition} {taken : Taken}
    (once : TakenOnce predicates taken)
    (open_ : taken.lowerBound = none ∧ taken.upperBound = none) :
    TakenOnce predicates (takePredicates predicates cols taken) := by
  induction cols generalizing taken with
  | nil => exact once
  | cons col cols ih =>
    have positions : ∀ e ∈ predicates.zipIdx, predicates[e.2]? = some e.1 := by
      intro e member
      exact List.mem_zipIdx_iff_getElem?.mp member
    have noPosition : ∀ i, (none : Option Nat) = some i → ∀ P : Prop, P := by
      intro i isSome
      cases isSome
    obtain ⟨equalities, lowers, uppers⟩ := @matchColumn_spec predicates taken.used col.columnIdx
      _ none none positions (fun i isSome => noPosition i isSome _)
      fun i isSome => noPosition i isSome _
    obtain ⟨freshEquality, freshLower, freshUpper⟩ := @matchColumn_fresh taken.used col.columnIdx
      predicates.zipIdx none none (fun i isSome => noPosition i isSome _)
      fun i isSome => noPosition i isSome _
    have inside {Q : QueryPredicateSpec → Prop} {i : Nat} (at_ : At predicates Q i) :
        i < predicates.length := by
      obtain ⟨p, read, -⟩ := at_
      exact (List.getElem?_eq_some_iff.mp read).1
    have before := once.perm
    rw [open_.1, open_.2, toList_none, append_nil, append_nil] at before
    unfold takePredicates
    simp only
    split
    · rename_i i found
      refine ih ⟨?_, ?_, ?_⟩ open_
      · exact List.nodup_cons.mpr ⟨freshEquality i found, once.nodup⟩
      · exact List.forall_mem_cons.mpr ⟨inside (equalities i found), once.valid⟩
      · obtain ⟨p, read, -⟩ := equalities i found
        rw [open_.1, open_.2, toList_none, append_nil, append_nil, read,
          Option.toList_some, List.filterMap_cons_some read]
        exact (List.perm_append_singleton p _).trans (before.cons p)
    · refine ⟨?_, ?_, ?_⟩
      · rw [List.append_assoc, List.nodup_append, List.nodup_append]
        have single (o : Option Nat) : o.toList.Nodup := by cases o <;> simp
        refine ⟨single _, ⟨single _, once.nodup, ?_⟩, ?_⟩
        · rintro i isUpper j member rfl
          exact freshUpper i (mem_toList.mp isUpper) member
        · rintro i isLower j member rfl
          rcases List.mem_append.mp member with isUpper | old
          · obtain ⟨p, read, -, below⟩ := lowers i (mem_toList.mp isLower)
            obtain ⟨q, read', -, above⟩ := uppers i (mem_toList.mp isUpper)
            rw [read] at read'
            cases read'
            revert below above
            cases p.cmp <;> decide
          · exact freshLower i (mem_toList.mp isLower) old
      · intro i member
        rcases List.mem_append.mp member with new | old
        · rcases List.mem_append.mp new with lower | upper
          · exact inside (lowers i (mem_toList.mp lower))
          · exact inside (uppers i (mem_toList.mp upper))
        · exact once.valid i old
      · simp only [List.filterMap_append, filterMap_toList]
        rw [List.append_assoc]
        exact (List.perm_append_comm).trans (before.append_left _)

theorem positions_perm {α : Type} {l : List α} {used : List Nat} (nodup : used.Nodup)
    (valid : ∀ i ∈ used, i < l.length) : (used.filterMap (l[·]?) ++
      (l.zipIdx.filter fun p => !used.contains p.2).map Prod.fst).Perm l := by
  have indices : (l.zipIdx.filter fun p => used.contains p.2).Perm
      (used.filterMap fun i => (l[i]?).map (·, i)) := by
    have distinct : l.zipIdx.Nodup := by
      refine List.Nodup.of_map Prod.snd ?_
      rw [List.zipIdx_map_snd]
      exact List.nodup_range'
    rw [List.perm_ext_iff_of_nodup (distinct.filter _)]
    · rintro ⟨a, i⟩
      rw [List.mem_filter, List.mem_zipIdx_iff_getElem?, List.contains_iff_mem, List.mem_filterMap]
      constructor
      · rintro ⟨at_, member⟩
        refine ⟨i, member, ?_⟩
        rw [at_]
        rfl
      · rintro ⟨j, member, isPair⟩
        obtain ⟨b, at_, same⟩ := map_eq_some_iff.mp isPair
        cases same
        exact ⟨at_, member⟩
    · refine List.Nodup.of_map Prod.snd ?_
      have back : (used.filterMap fun i => (l[i]?).map (·, i)).map Prod.snd = used := by
        rw [List.map_filterMap]
        conv_rhs => rw [← List.filterMap_some (l := used)]
        refine List.filterMap_congr fun i member => ?_
        rw [List.getElem?_eq_getElem (valid i member)]
        rfl
      rw [back]
      exact nodup
  have values : used.filterMap (l[·]?) =
      (used.filterMap fun i => (l[i]?).map (·, i)).map Prod.fst := by
    rw [List.map_filterMap]
    refine List.filterMap_congr fun i _ => ?_
    cases l[i]? <;> rfl
  have whole := (List.filter_append_perm (fun p : α × Nat => used.contains p.2) l.zipIdx).map
    Prod.fst
  rw [List.zipIdx_map_fst, List.map_append] at whole
  rw [values]
  exact ((indices.map Prod.fst).symm.append_right _).trans whole

theorem splitPredicates_perm (predicates : List QueryPredicateSpec)
    (keyColumns : List IndexKeyColumnDefinition) :
    ((splitPredicates predicates keyColumns).1.accessPredicates ++
      (splitPredicates predicates keyColumns).1.residualPredicates).Perm predicates := by
  have once : TakenOnce predicates
      (takePredicates predicates keyColumns ⟨[], [], none, none⟩) := by
    refine takePredicates_once ⟨List.nodup_nil, ?_, List.Perm.refl _⟩ ⟨rfl, rfl⟩
    intro i member
    cases member
  exact (once.perm.append_right _).trans (positions_perm once.nodup once.valid)

end Split

section Zones

theorem boundZone_eq_iff {lower upper : Option Value} {lowerInclusive upperInclusive : Bool}
    {v : Value} : boundZone lower upper lowerInclusive upperInclusive v = .eq ↔
      ¬ Under lower lowerInclusive v ∧ ¬ Over upper upperInclusive v := by
  by_cases under : Under lower lowerInclusive v
  · simp [boundZone, under]
  · by_cases beyond : Over upper upperInclusive v <;> simp [boundZone, under, beyond]

theorem prefixZone_eq_iff {lower upper : Option Value} {lowerInclusive upperInclusive : Bool}
    {front key : List Value} :
    prefixZone lower upper lowerInclusive upperInclusive front key = .eq ↔
      (∀ (k : Nat) (p v : Value), front[k]? = some p → key[k]? = some v →
        seenRank v = seenRank p) ∧
        ∀ v, key[front.length]? = some v →
          boundZone lower upper lowerInclusive upperInclusive v = .eq := by
  induction front generalizing key with
  | nil => cases key <;> simp [prefixZone]
  | cons p front ih =>
    cases key with
    | nil => simp [prefixZone]
    | cons v key =>
      rw [prefixZone]
      constructor
      · intro inside
        cases compared : compare (seenRank v) (seenRank p) with
        | lt | gt =>
          rw [compared] at inside
          cases inside
        | eq =>
          rw [compared] at inside
          obtain ⟨same, within⟩ := ih.mp inside
          refine ⟨fun k p' v' atP atV => ?_, within⟩
          cases k with
          | zero =>
            cases atP
            cases atV
            exact compare_eq_iff_eq.mp compared
          | succ k => exact same k p' v' atP atV
      · rintro ⟨same, within⟩
        rw [compare_eq_iff_eq.mpr (same 0 p v rfl rfl)]
        exact ih.mpr ⟨fun k p' v' => same (k + 1) p' v', within⟩

variable {p : QueryPredicateSpec} {row : Row} {v : Value} {col : IndexKeyColumnDefinition}

theorem termHolds_ranks (read : row[p.columnIdx]? = some v) (isKey : IsComponent col v)
    (constant : IsComponent col p.constant) :
    termHolds p row = p.cmp.holds (compare (seenRank v) (seenRank p.constant)) := by
  rw [termHolds, read]
  simp [(compareKeys_ranks isKey.alike isKey.isKey constant.isKey).2]

theorem holds_equality (equality : p.isEquality = true) :
    p.cmp.holds (compare (seenRank v) (seenRank p.constant)) = true ↔
      seenRank v = seenRank p.constant := by
  have cmp : p.cmp = .eq := by simpa [QueryPredicateSpec.isEquality] using equality
  rw [cmp, ComparisonType.holds, beq_iff_eq, compare_eq_iff_eq]

theorem holds_lower (isLower : isLowerBoundCmp p.cmp = true) :
    p.cmp.holds (compare (seenRank v) (seenRank p.constant)) = true ↔
      ¬ Under (some p.constant) (p.cmp == .gte) v := by
  rcases lt_trichotomy (seenRank v) (seenRank p.constant) with less | same | greater
  · rw [compare_lt_iff_lt.mpr less]
    revert isLower
    cases p.cmp <;> simp [isLowerBoundCmp, ComparisonType.holds, Under, less]
  · rw [compare_eq_iff_eq.mpr same]
    revert isLower
    cases p.cmp <;> simp [isLowerBoundCmp, ComparisonType.holds, Under, same]
  · rw [compare_gt_iff_gt.mpr greater]
    revert isLower
    cases p.cmp <;> simp [isLowerBoundCmp, ComparisonType.holds, Under, greater.not_gt, greater.ne']

theorem holds_upper (isUpper : isUpperBoundCmp p.cmp = true) :
    p.cmp.holds (compare (seenRank v) (seenRank p.constant)) = true ↔
      ¬ Over (some p.constant) (p.cmp == .lte) v := by
  rcases lt_trichotomy (seenRank v) (seenRank p.constant) with less | same | greater
  · rw [compare_lt_iff_lt.mpr less]
    revert isUpper
    cases p.cmp <;> simp [isUpperBoundCmp, ComparisonType.holds, Over, less.not_gt, less.ne]
  · rw [compare_eq_iff_eq.mpr same]
    revert isUpper
    cases p.cmp <;> simp [isUpperBoundCmp, ComparisonType.holds, Over, same]
  · rw [compare_gt_iff_gt.mpr greater]
    revert isUpper
    cases p.cmp <;> simp [isUpperBoundCmp, ComparisonType.holds, Over, greater]

theorem not_under_none {inclusive : Bool} : ¬ Under none inclusive v := by
  rintro ⟨bound, isBound, -⟩
  cases isBound

theorem not_over_none {inclusive : Bool} : ¬ Over none inclusive v := by
  rintro ⟨bound, isBound, -⟩
  cases isBound

variable {predicates : List QueryPredicateSpec} {entry : IndexCatalogEntry} {path : BasePath}
  {taken : Taken}

theorem specFits (candidate : IndexCandidate predicates entry path taken)
    (constants : ∀ q ∈ predicates, ∀ column ∈ entry.keyColumns, column.columnIdx = q.columnIdx →
      IsComponent column q.constant ∧ WithinLength column q.constant) :
    SpecFits entry.keyColumns path.accessSpec.scanSpec := by
  have scanned : path.accessSpec.scanSpec.equalityPrefix =
      taken.indexPredicates.map (·.constant) := by
    simp only [IndexAccessSpec.scanSpec, candidate.index, candidate.count, take_length]
  have length : path.accessSpec.scanSpec.equalityPrefix.length = taken.indexPredicates.length := by
    rw [scanned, length_map]
  have each (k : Nat) (inside : k < taken.indexPredicates.length) : ∃ column,
      entry.keyColumns[k]? = some column ∧
        IsComponent column taken.indexPredicates[k].constant ∧
        WithinLength column taken.indexPredicates[k].constant := by
    obtain ⟨-, inPredicates, column, isColumn, same⟩ :=
      candidate.sound.equalities k _ (List.getElem?_eq_getElem inside)
    exact ⟨column, isColumn, constants _ inPredicates column (List.mem_of_getElem? isColumn) same.symm⟩
  have enough : taken.indexPredicates.length ≤ entry.keyColumns.length := by
    by_contra beyond
    obtain ⟨column, isColumn, -⟩ := each entry.keyColumns.length (by omega)
    exact absurd (List.getElem?_eq_some_iff.mp isColumn).1 (Nat.lt_irrefl _)
  have pairs {R : IndexKeyColumnDefinition → Value → Prop}
      (related : ∀ k (inside : k < taken.indexPredicates.length), ∃ column,
        entry.keyColumns[k]? = some column ∧ R column taken.indexPredicates[k].constant) :
      List.Forall₂ R (entry.keyColumns.take path.accessSpec.scanSpec.equalityPrefix.length)
        path.accessSpec.scanSpec.equalityPrefix := by
    rw [length, scanned, List.forall₂_iff_get]
    refine ⟨by simp [enough], fun k inCols inFront => ?_⟩
    rw [length_map] at inFront
    obtain ⟨column, isColumn, holds⟩ := related k inFront
    have atColumn := (List.getElem?_eq_some_iff.mp isColumn).2
    simpa [atColumn] using holds
  refine ⟨pairs fun k inside => ?_, pairs fun k inside => ?_, ?_, ?_⟩
  · obtain ⟨column, isColumn, isComponent, -⟩ := each k inside
    exact ⟨column, isColumn, isComponent⟩
  · obtain ⟨column, isColumn, -, within⟩ := each k inside
    exact ⟨column, isColumn, within⟩
  · intro bound isBound
    simp only [IndexAccessSpec.scanSpec, candidate.lower] at isBound
    obtain ⟨q, isLower, rfl⟩ := map_eq_some_iff.mp isBound
    obtain ⟨-, inPredicates, column, isColumn, same⟩ := candidate.sound.lower q isLower
    rw [length]
    exact ⟨column, isColumn,
      constants q inPredicates column (List.mem_of_getElem? isColumn) same.symm⟩
  · intro bound isBound
    simp only [IndexAccessSpec.scanSpec, candidate.upper] at isBound
    obtain ⟨q, isUpper, rfl⟩ := map_eq_some_iff.mp isBound
    obtain ⟨-, inPredicates, column, isColumn, same⟩ := candidate.sound.upper q isUpper
    rw [length]
    exact ⟨column, isColumn,
      (constants q inPredicates column (List.mem_of_getElem? isColumn) same.symm).1⟩

theorem zone_iff (candidate : IndexCandidate predicates entry path taken)
    (constants : ∀ q ∈ predicates, ∀ column ∈ entry.keyColumns, column.columnIdx = q.columnIdx →
      IsComponent column q.constant ∧ WithinLength column q.constant) {key : List Value}
    (hasKey : HasKey entry.keyColumns row key) (isKey : IsKeyFor entry.keyColumns key) (rid : RID) :
    scanZone path.accessSpec.scanSpec ⟨key, rid⟩ = .eq ↔
      ∀ q ∈ path.accessSpec.accessPredicates, termHolds q row = true := by
  have scanned : path.accessSpec.scanSpec.equalityPrefix =
      taken.indexPredicates.map (·.constant) := by
    simp only [IndexAccessSpec.scanSpec, candidate.index, candidate.count, take_length]
  have atKey {k : Nat} {column : IndexKeyColumnDefinition}
      (isColumn : entry.keyColumns[k]? = some column) : ∃ w, key[k]? = some w ∧
        row[column.columnIdx]? = some w ∧ IsComponent column w := by
    obtain ⟨w, keyAt, read⟩ := read_of_hasKey hasKey isColumn
    obtain ⟨inCols, atColumn⟩ := List.getElem?_eq_some_iff.mp isColumn
    obtain ⟨inKey, atW⟩ := List.getElem?_eq_some_iff.mp keyAt
    have component := isKey.get inCols inKey
    rw [List.get_eq_getElem, List.get_eq_getElem, atColumn, atW] at component
    exact ⟨w, keyAt, read, component⟩
  -- a predicate on the key column at a position, as a comparison of ranks
  have ranked {q : QueryPredicateSpec} {k : Nat} {column : IndexKeyColumnDefinition}
      (inPredicates : q ∈ predicates) (isColumn : entry.keyColumns[k]? = some column)
      (same : q.columnIdx = column.columnIdx) : ∃ w, key[k]? = some w ∧
        termHolds q row = q.cmp.holds (compare (seenRank w) (seenRank q.constant)) := by
    obtain ⟨w, keyAt, read, component⟩ := atKey isColumn
    have constant := constants q inPredicates column (List.mem_of_getElem? isColumn) same.symm
    exact ⟨w, keyAt, termHolds_ranks (same ▸ read) component constant.1⟩
  rw [scanZone, prefixZone_eq_iff, scanned, length_map]
  simp only [IndexAccessSpec.scanSpec, candidate.lower, candidate.upper]
  constructor
  · rintro ⟨equal, within⟩ q member
    rw [mem_accessPredicates, candidate.index, candidate.lower, candidate.upper] at member
    rcases member with inIndex | isLower | isUpper
    · obtain ⟨k, atK⟩ := List.mem_iff_getElem?.mp inIndex
      obtain ⟨equality, inPredicates, column, isColumn, same⟩ := candidate.sound.equalities k q atK
      obtain ⟨w, keyAt, holds⟩ := ranked inPredicates isColumn same
      rw [holds, holds_equality equality]
      exact equal k q.constant w (by rw [List.getElem?_map, atK]; rfl) keyAt
    · obtain ⟨cmp, inPredicates, column, isColumn, same⟩ := candidate.sound.lower q isLower
      obtain ⟨w, keyAt, holds⟩ := ranked inPredicates isColumn same
      have inside := (boundZone_eq_iff.mp (within w keyAt)).1
      rw [isLower] at inside
      rw [holds, holds_lower cmp]
      exact inside
    · obtain ⟨cmp, inPredicates, column, isColumn, same⟩ := candidate.sound.upper q isUpper
      obtain ⟨w, keyAt, holds⟩ := ranked inPredicates isColumn same
      have inside := (boundZone_eq_iff.mp (within w keyAt)).2
      rw [isUpper] at inside
      rw [holds, holds_upper cmp]
      exact inside
  · intro all
    have satisfied {q : QueryPredicateSpec} (member : q ∈ taken.indexPredicates ∨
        taken.lowerBound = some q ∨ taken.upperBound = some q) : termHolds q row = true := by
      refine all q ?_
      rwa [mem_accessPredicates, candidate.index, candidate.lower, candidate.upper]
    constructor
    · intro k c w atC keyAt
      rw [List.getElem?_map] at atC
      obtain ⟨q, atK, rfl⟩ := map_eq_some_iff.mp atC
      obtain ⟨equality, inPredicates, column, isColumn, same⟩ := candidate.sound.equalities k q atK
      obtain ⟨w', keyAt', holds⟩ := ranked inPredicates isColumn same
      rw [keyAt] at keyAt'
      cases keyAt'
      rw [← holds_equality equality, ← holds]
      exact satisfied (.inl (List.mem_of_getElem? atK))
    · intro w keyAt
      rw [boundZone_eq_iff]
      constructor
      · cases bounded : taken.lowerBound with
        | none => exact not_under_none
        | some q =>
          obtain ⟨cmp, inPredicates, column, isColumn, same⟩ :=
            candidate.sound.lower q bounded
          obtain ⟨w', keyAt', holds⟩ := ranked inPredicates isColumn same
          rw [keyAt] at keyAt'
          cases keyAt'
          refine (holds_lower cmp).mp ?_
          rw [← holds]
          exact satisfied (.inr (.inl bounded))
      · cases bounded : taken.upperBound with
        | none => exact not_over_none
        | some q =>
          obtain ⟨cmp, inPredicates, column, isColumn, same⟩ :=
            candidate.sound.upper q bounded
          obtain ⟨w', keyAt', holds⟩ := ranked inPredicates isColumn same
          rw [keyAt] at keyAt'
          cases keyAt'
          refine (holds_upper cmp).mp ?_
          rw [← holds]
          exact satisfied (.inr (.inr bounded))

end Zones

section Scans

variable {heap : HeapFile} {index : BTreeIndex} {held : List LeafEntry}

theorem fetch_ofList (rid : RID) (rows : List Row) :
    fetch heap rid (.ofList rows) = .ofList ((getTuple heap rid).toList ++ rows) := by
  rw [fetch]
  cases getTuple heap rid <;> rfl

theorem filterMap_cons_toList {α β : Type} (f : α → Option β) (a : α) (l : List α) :
    (a :: l).filterMap f = (f a).toList ++ l.filterMap f := by
  cases found : f a with
  | none => exact List.filterMap_cons_none found
  | some b => exact List.filterMap_cons_some found

theorem scanRange_eq {type : TypeId} {lower upper : Option Value}
    {lowerInclusive upperInclusive : Bool} {entries : List LeafEntry}
    (alike : orderedAlike type = true) (keyed : ∀ e ∈ entries, IsKey type e.key)
    (lowers : ∀ bound ∈ lower, IsKey type bound) (uppers : ∀ bound ∈ upper, IsKey type bound) :
    scanRange heap lower upper lowerInclusive upperInclusive entries =
      .ofList ((scan (fun e => boundZone lower upper lowerInclusive upperInclusive e.key)
        entries).filterMap fun e => getTuple heap e.rid) := by
  induction entries with
  | nil => rfl
  | cons e rest ih =>
    have later := ih fun e' member => keyed e' (mem_cons_of_mem _ member)
    rw [scanRange, rangeVerdict_eq alike (keyed e mem_cons_self) lowers uppers, scan]
    cases boundZone lower upper lowerInclusive upperInclusive e.key with
    | lt => exact later
    | gt => rfl
    | eq =>
      simp only [verdictOf]
      rw [later, fetch_ofList, filterMap_cons_toList]

theorem scanEqual_eq {type : TypeId} {key : Value} {entries : List LeafEntry}
    (alike : orderedAlike type = true) (keyed : ∀ e ∈ entries, IsKey type e.key)
    (isKey : IsKey type key) (notUnder : ∀ e ∈ entries, keyZone key e ≠ .lt) :
    scanEqual heap key entries =
      .ofList ((scan (keyZone key) entries).filterMap fun e => getTuple heap e.rid) := by
  induction entries with
  | nil => rfl
  | cons e rest ih =>
    have later := ih (fun e' member => keyed e' (mem_cons_of_mem _ member))
      fun e' member => notUnder e' (mem_cons_of_mem _ member)
    have here := notUnder e mem_cons_self
    have compared : compareValues e.key key = some (keyZone key e) :=
      (compareKeys_ranks alike (keyed e mem_cons_self) isKey).2
    rw [scanEqual, compared, scan]
    cases at_ : keyZone key e with
    | lt => exact absurd at_ here
    | gt => rfl
    | eq =>
      simp only
      rw [later, fetch_ofList, filterMap_cons_toList]

theorem indexScan_range {lower upper : Option Value} {lowerInclusive upperInclusive : Bool}
    (exactly : ExactEntries index held) (alike : orderedAlike index.keyType = true)
    (keyed : ∀ e ∈ index.entries, IsKey index.keyType e.key)
    (lowers : ∀ bound ∈ lower, Searchable index bound)
    (uppers : ∀ bound ∈ upper, IsKey index.keyType bound) :
    indexScan heap index (.range lower upper lowerInclusive upperInclusive) =
      .ofList ((index.entries.filter fun e => boundZone lower upper lowerInclusive upperInclusive
        e.key == .eq).filterMap fun e => getTuple heap e.rid) := by
  have lowerKeys : ∀ bound ∈ lower, IsKey index.keyType bound :=
    fun bound isBound => (lowers bound isBound).isKey
  have zoned {entries : List LeafEntry} (sub : entries.Sublist index.entries) :
      Zoned (fun e : LeafEntry => boundZone lower upper lowerInclusive upperInclusive e.key)
        entries :=
    Zoned.of_sorted (List.Pairwise.sublist sub (exactly.ranked alike keyed))
      fun _ _ _ _ below => boundZone_mono below
  cases lower with
  | none =>
    show scanRange heap none upper lowerInclusive upperInclusive index.entries = _
    rw [scanRange_eq alike keyed lowerKeys uppers, scan_eq_filter (zoned (List.Sublist.refl _))]
  | some bound =>
    rw [indexScan]
    simp only [exactly.entriesFrom alike keyed (lowers bound rfl)]
    rw [scanRange_eq alike (fun e member => keyed e (List.mem_filter.mp member).1) lowerKeys uppers,
      scan_eq_filter (zoned List.filter_sublist), List.filter_filter]
    refine congrArg (fun l => Pull.ofList (List.filterMap _ l)) (filter_congr fun e _ => ?_)
    by_cases inside : boundZone (some bound) upper lowerInclusive upperInclusive e.key = .eq
    · have from_ := boundZone_from inside
      simp [inside, keyZone, from_]
    · simp [inside]

theorem indexScan_equality {key : Value} (exactly : ExactEntries index held)
    (alike : orderedAlike index.keyType = true)
    (keyed : ∀ e ∈ index.entries, IsKey index.keyType e.key) (searchable : Searchable index key) :
    indexScan heap index (.equality key) =
      .ofList ((index.entries.filter fun e => keyZone key e == .eq).filterMap fun e =>
        getTuple heap e.rid) := by
  rw [indexScan]
  simp only [exactly.entriesFrom alike keyed searchable]
  have zoned : Zoned (keyZone key) (index.entries.filter fun e => keyZone key e != .lt) :=
    (ExactEntries.zoned key exactly alike keyed).sublist List.filter_sublist
  rw [scanEqual_eq alike (fun e member => keyed e (List.mem_filter.mp member).1) searchable.isKey
    (fun e member => bne_iff_ne.mp (List.mem_filter.mp member).2), scan_eq_filter zoned,
    List.filter_filter]
  refine congrArg (fun l => Pull.ofList (List.filterMap _ l)) (filter_congr fun e _ => ?_)
  cases keyZone key e <;> rfl

variable {predicates : List QueryPredicateSpec} {entry : IndexCatalogEntry} {path : BasePath}
  {taken : Taken} {col : IndexKeyColumnDefinition}

theorem mode_cases (candidate : IndexCandidate predicates entry path taken)
    (once : TakenOnce predicates taken) (single : entry.keyColumns = [col]) :
    (taken.indexPredicates = [] ∧ indexScan heap index path.scanMode = indexScan heap index
        (.range (taken.lowerBound.map (·.constant)) (taken.upperBound.map (·.constant))
          ((taken.lowerBound.map (·.cmp == .gte)).getD true)
          ((taken.upperBound.map (·.cmp == .lte)).getD true))) ∨
      ∃ p, taken.indexPredicates = [p] ∧ taken.lowerBound = none ∧ taken.upperBound = none ∧
        path.scanMode = .equality p.constant := by
  have access := candidate.access
  have short (k : Nat) (inside : k < taken.indexPredicates.length) : k = 0 := by
    obtain ⟨-, -, column, isColumn, -⟩ :=
      candidate.sound.equalities k _ (List.getElem?_eq_getElem inside)
    have bound := (List.getElem?_eq_some_iff.mp isColumn).1
    rw [single, List.length_singleton] at bound
    omega
  cases used : taken.used.isEmpty with
  | true =>
    left
    obtain ⟨noIndex, noLower, noUpper⟩ := candidate.sound.unused (List.isEmpty_iff.mp used)
    have ordered : path.accessType = .indexScanOrdered := by
      rw [access, used]
      rfl
    refine ⟨noIndex, ?_⟩
    rw [noLower, noUpper, BasePath.scanMode, ordered]
    rfl
  | false =>
    rw [used] at access
    simp only [indexAccessType, Bool.not_false, Bool.not_true, Bool.false_eq_true, if_false,
      candidate.lower, candidate.upper, single, List.length_singleton, if_true] at access
    cases bounded : taken.lowerBound.isSome || taken.upperBound.isSome with
    | true =>
      left
      rw [bounded, if_pos rfl] at access
      have current : ∃ column : IndexKeyColumnDefinition,
          entry.keyColumns[taken.indexPredicates.length]? = some column := by
        rcases Bool.or_eq_true_iff.mp bounded with lower | upper
        · obtain ⟨q, isLower⟩ := Option.isSome_iff_exists.mp lower
          obtain ⟨-, -, column, isColumn, -⟩ := candidate.sound.lower q isLower
          exact ⟨column, isColumn⟩
        · obtain ⟨q, isUpper⟩ := Option.isSome_iff_exists.mp upper
          obtain ⟨-, -, column, isColumn, -⟩ := candidate.sound.upper q isUpper
          exact ⟨column, isColumn⟩
      obtain ⟨column, isColumn⟩ := current
      have inside := (List.getElem?_eq_some_iff.mp isColumn).1
      rw [single, List.length_singleton, Nat.lt_one_iff, List.length_eq_zero_iff] at inside
      refine ⟨inside, ?_⟩
      simp only [BasePath.scanMode, access, candidate.lower, candidate.upper, bounded, if_true]
    | false =>
      right
      rw [bounded] at access
      obtain ⟨noLower, noUpper⟩ := Bool.or_eq_false_iff.mp bounded
      have lower : taken.lowerBound = none := by simpa using noLower
      have upper : taken.upperBound = none := by simpa using noUpper
      have lengths := once.perm.length_eq
      rw [lower, upper, toList_none, append_nil, append_nil] at lengths
      cases front : taken.indexPredicates with
      | nil =>
        obtain ⟨i, inUsed⟩ := List.exists_mem_of_ne_nil taken.used (by
          intro empty
          rw [empty] at used
          cases used)
        rw [front, List.length_nil, eq_comm, List.length_eq_zero_iff,
          List.filterMap_eq_nil_iff] at lengths
        have missing := lengths i inUsed
        rw [List.getElem?_eq_getElem (once.valid i inUsed)] at missing
        cases missing
      | cons p rest =>
        cases rest with
        | cons q more =>
          have second := short 1 (by rw [front]; simp)
          cases second
        | nil =>
          refine ⟨p, rfl, lower, upper, ?_⟩
          simp only [BasePath.scanMode, access, Bool.false_eq_true, if_false,
            candidate.index, front]

theorem btree_scan (heap : HeapFile) (candidate : IndexCandidate predicates entry path taken)
    (once : TakenOnce predicates taken) (single : entry.keyColumns = [col])
    (exactly : ExactEntries index held) (alike : orderedAlike index.keyType = true)
    (keyed : ∀ e ∈ index.entries, IsKey index.keyType e.key) (type : index.keyType = col.type)
    (length : index.maxVarcharLen = col.maxVarcharLen)
    (fits : SpecFits entry.keyColumns path.accessSpec.scanSpec) :
    indexScan heap index path.scanMode = .ofList ((index.entries.filter fun e =>
      scanZone path.accessSpec.scanSpec ⟨[e.key], e.rid⟩ == .eq).filterMap fun e =>
        getTuple heap e.rid) := by
  have searchable {v : Value} (isComponent : IsComponent col v) (within : WithinLength col v) :
      Searchable index v := by
    have present := isComponent.isKey.present
    have isType : v.typeId = index.keyType := isComponent.isKey.type.trans type.symm
    unfold Searchable encodeValue
    rw [if_neg (by simp [present]), if_neg (by simp [isType])]
    cases v with
    | varchar s =>
      have short := within s rfl
      simp only
      rw [if_neg (by omega)]
    | _ => rfl
  have scanned : path.accessSpec.scanSpec.equalityPrefix =
      taken.indexPredicates.map (·.constant) := by
    simp only [IndexAccessSpec.scanSpec, candidate.index, candidate.count, take_length]
  have lowerBound : path.accessSpec.scanSpec.lowerBound = taken.lowerBound.map (·.constant) := by
    rw [IndexAccessSpec.scanSpec, candidate.lower]
  have upperBound : path.accessSpec.scanSpec.upperBound = taken.upperBound.map (·.constant) := by
    rw [IndexAccessSpec.scanSpec, candidate.upper]
  rcases mode_cases candidate once single with ⟨noIndex, range⟩ | ⟨p, isIndex, lower, upper, equality⟩
  · rw [range, indexScan_range exactly alike keyed]
    · refine congrArg (fun l => Pull.ofList (List.filterMap _ l)) (filter_congr fun e _ => ?_)
      rw [scanZone, scanned, noIndex, lowerBound, upperBound]
      simp only [IndexAccessSpec.scanSpec, candidate.lower, candidate.upper]
      rfl
    · intro bound isBound
      rw [← lowerBound] at isBound
      obtain ⟨column, isColumn, isComponent, within⟩ := fits.lower bound isBound
      rw [scanned, noIndex, single] at isColumn
      cases isColumn
      exact searchable isComponent within
    · intro bound isBound
      rw [← upperBound] at isBound
      obtain ⟨column, isColumn, isComponent⟩ := fits.upper bound isBound
      rw [scanned, noIndex, single] at isColumn
      cases isColumn
      rw [type]
      exact isComponent.isKey
  · have front := fits.front
    have frontLength := fits.frontLength
    rw [scanned, isIndex, single] at front frontLength
    cases front with
    | cons isComponent _ =>
      cases frontLength with
      | cons within _ =>
        rw [equality, indexScan_equality exactly alike keyed (searchable isComponent within)]
        refine congrArg (fun l => Pull.ofList (List.filterMap _ l))
          (filter_congr fun e _ => ?_)
        rw [scanZone, scanned, isIndex, List.map_singleton, prefixZone, keyZone]
        cases compare (seenRank e.key) (seenRank p.constant) <;> rfl

theorem generic_scan (heap : HeapFile) {index : GenericBTreeIndex} {held : List GenericLeafEntry}
    (exactly : ExactKeys index held)
    (alike : ∀ column ∈ index.keyColumns, orderedAlike column.type = true)
    (keyed : ∀ e ∈ index.entries, IsKeyFor index.keyColumns e.key)
    (fits : SpecFits index.keyColumns path.accessSpec.scanSpec) :
    genericIndexScan heap index path.accessSpec.scanSpec path.fullScan =
      .ofList ((index.entries.filter fun e => scanZone path.accessSpec.scanSpec e == .eq).filterMap
        fun e => getTuple heap e.rid) := by
  rw [genericIndexScan]
  cases full : path.fullScan with
  | false =>
    simp only [Bool.false_eq_true, if_false, exactly.scanPrefixRange alike keyed fits]
    rw [List.filterMap_map]
    rfl
  | true =>
    simp only [BasePath.fullScan, Bool.and_eq_true, List.isEmpty_iff, Option.isNone_iff_eq_none]
      at full
    have whole : index.entries.filter (fun e => scanZone path.accessSpec.scanSpec e == .eq) =
        index.entries := by
      refine List.filter_eq_self.mpr fun e _ => ?_
      have inside : scanZone path.accessSpec.scanSpec e = .eq := by
        rw [scanZone, full.1.1.2, full.1.2, full.2, prefixZone_eq_iff]
        refine ⟨fun k p v atP => (by cases atP), fun v _ => ?_⟩
        exact boundZone_eq_iff.mpr ⟨not_under_none, not_over_none⟩
      rw [inside]
      rfl
    rw [whole, if_pos rfl, GenericBTreeIndex.fullScanRids]
    simp only
    rw [List.filterMap_map]
    rfl

end Scans

section Candidates

def ExactIn (rel : RelationCatalogEntry) (entry : IndexCatalogEntry) : Prop :=
  match entry.runtimeIndex with
  | none => False
  | some (.btree index) => ∃ col, entry.keyColumns = [col] ∧ index.keyType = col.type ∧
      index.maxVarcharLen = col.maxVarcharLen ∧
      ExactEntries index (heldEntries rel.heap col.columnIdx)
  | some (.generic index) => index.keyColumns = entry.keyColumns ∧
      ExactKeys index (heldKeys rel.heap entry.keyColumns)

/-- Exact indexes on non-NULL BOOLEAN, INT32 and VARCHAR columns, and predicates with constants of
their columns' types and within the declared lengths. -/
structure Domain (rel : RelationCatalogEntry) (predicates : List QueryPredicateSpec) : Prop where
  distinct : (rel.heap.map Prod.fst).Nodup
  exactly : ∀ entry ∈ rel.indexes, ExactIn rel entry
  keyColumns : ∀ entry ∈ rel.indexes, ∀ col ∈ entry.keyColumns, orderedAlike col.type = true ∧
    (rel.schema[col.columnIdx]?).map Column.type = some col.type
  notNull : ∀ entry ∈ rel.indexes, ∀ col ∈ entry.keyColumns, ∀ stored ∈ rel.heap,
    ∀ v ∈ stored.2[col.columnIdx]?, v.isNull = false
  constants : ∀ p ∈ predicates, p.constant.isNull = false ∧
    (rel.schema[p.columnIdx]?).map Column.type = some p.constant.typeId
  lengths : ∀ p ∈ predicates, ∀ entry ∈ rel.indexes, ∀ col ∈ entry.keyColumns,
    col.columnIdx = p.columnIdx → WithinLength col p.constant

/-- The parts of the split are exactly the predicates, and the equalities stand on the first key
columns. -/
structure Split (rel : RelationCatalogEntry) (predicates : List QueryPredicateSpec)
    (path : BasePath) : Prop where
  perm : (path.accessSpec.indexPredicates ++ path.accessSpec.lowerBound.toList ++
    path.accessSpec.upperBound.toList ++ path.accessSpec.residualPredicates).Perm predicates
  count : path.accessSpec.indexPredicates.length = path.accessSpec.equalityPrefixCount
  equalities : ∀ (k : Nat) (p : QueryPredicateSpec), path.accessSpec.indexPredicates[k]? = some p →
    p.cmp = .eq ∧ ∃ position entry col, path.accessIndex = some position ∧
      rel.indexes[position]? = some entry ∧ entry.keyColumns[k]? = some col ∧
      p.columnIdx = col.columnIdx

def Outputs (rel : RelationCatalogEntry) (predicates : List QueryPredicateSpec)
    (built : Option (Pull Row)) : Prop :=
  ∃ rows, built = some (.ofList rows) ∧ rows.Perm ((rel.heap.filter fun stored =>
    predicates.all fun p => termHolds p stored.2).map Prod.snd)

variable {rel : RelationCatalogEntry} {predicates : List QueryPredicateSpec}

variable {stored : RID × Row} {entry : IndexCatalogEntry}

theorem stored_value {i : Nat} {type : TypeId}
    (column : (rel.schema[i]?).map Column.type = some type) (member : stored ∈ rel.heap) :
    ∃ v, stored.2[i]? = some v ∧ v.typeId = type := by
  have fits := rel.fits _ member
  obtain ⟨col, isColumn, isType⟩ := map_eq_some_iff.mp column
  have inside : i < stored.2.length := by
    rw [fits.length]
    exact (List.getElem?_eq_some_iff.mp isColumn).1
  have same := congrArg (fun l : List TypeId => l[i]?) fits
  simp only [List.getElem?_map, isColumn, List.getElem?_eq_getElem inside, Option.map_some,
    Option.some.injEq] at same
  exact ⟨stored.2[i], List.getElem?_eq_getElem inside, same.trans isType⟩

section

variable (domain : Domain rel predicates)

include domain

theorem Domain.evaluates (member : stored ∈ rel.heap)
    {p : QueryPredicateSpec} (inPredicates : p ∈ predicates) :
    Evaluates p stored.2 := by
  obtain ⟨present, column⟩ := domain.constants p inPredicates
  obtain ⟨v, read, type⟩ := stored_value column member
  refine ⟨v, read, present, ?_⟩
  cases isNull : v.isNull with
  | true => exact .inl rfl
  | false => exact .inr (compareValues_isSome isNull present type)

theorem Domain.hasKey (inIndexes : entry ∈ rel.indexes)
    (member : stored ∈ rel.heap) :
    ∃ key, HasKey entry.keyColumns stored.2 key ∧ IsKeyFor entry.keyColumns key := by
  have each : ∀ col ∈ entry.keyColumns, ∃ v, stored.2[col.columnIdx]? = some v ∧
      IsComponent col v := by
    intro col inColumns
    obtain ⟨alike, column⟩ := domain.keyColumns entry inIndexes col inColumns
    obtain ⟨v, read, type⟩ := stored_value column member
    exact ⟨v, read, alike, domain.notNull entry inIndexes col inColumns stored member v read, type⟩
  generalize entry.keyColumns = cols at each
  induction cols with
  | nil => exact ⟨[], rfl, .nil⟩
  | cons col cols ih =>
    obtain ⟨v, read, component⟩ := each col mem_cons_self
    obtain ⟨key, hasKey, isKey⟩ := ih fun col' inRest => each col' (mem_cons_of_mem _ inRest)
    refine ⟨v :: key, ?_, .cons component isKey⟩
    rw [HasKey] at hasKey ⊢
    rw [List.map_cons, List.map_cons, read, hasKey]

theorem Domain.components (inIndexes : entry ∈ rel.indexes) :
    ∀ q ∈ predicates, ∀ column ∈ entry.keyColumns,
      column.columnIdx = q.columnIdx →
        IsComponent column q.constant ∧ WithinLength column q.constant := by
  intro q inPredicates column inColumns same
  obtain ⟨present, isType⟩ := domain.constants q inPredicates
  obtain ⟨alike, columnType⟩ := domain.keyColumns entry inIndexes column inColumns
  rw [same, isType, Option.some.injEq] at columnType
  exact ⟨⟨alike, present, columnType⟩,
    domain.lengths q inPredicates entry inIndexes column inColumns same⟩

end

theorem fetched_entries {heap : HeapFile} {β : Type} {entries held : List β} (ridOf : β → RID)
    (inZone : β → Bool) (holds : Row → Bool) (distinct : (heap.map Prod.fst).Nodup)
    (perm : entries.Perm held) (nodup : (held.map ridOf).Nodup)
    (mem : ∀ rid, (∃ e ∈ held, inZone e = true ∧ ridOf e = rid) ↔
      ∃ row, (rid, row) ∈ heap ∧ holds row = true) :
    ((entries.filter inZone).filterMap fun e => getTuple heap (ridOf e)).Perm
      ((heap.filter fun stored => holds stored.2).map Prod.snd) := by
  have nodup' : ((entries.filter inZone).map ridOf).Nodup :=
    List.Nodup.sublist (List.Sublist.map ridOf List.filter_sublist)
      ((perm.map ridOf).nodup_iff.mpr nodup)
  have fetched := fetched_perm holds distinct nodup' fun rid => by
    rw [List.mem_map, ← mem rid]
    simp only [List.mem_filter, perm.mem_iff, and_assoc]
  rwa [List.filterMap_map] at fetched

theorem access_perm (domain : Domain rel predicates) (inIndexes : entry ∈ rel.indexes)
    {path : BasePath} {taken : Taken} (candidate : IndexCandidate predicates entry path taken)
    (once : TakenOnce predicates taken) : ∃ rows,
      path.indexAccess rel.heap entry = some (.ofList rows) ∧
      rows.Perm ((rel.heap.filter fun stored =>
        path.accessSpec.accessPredicates.all fun p => termHolds p stored.2).map Prod.snd) := by
  have constants := domain.components inIndexes
  have fits := specFits candidate constants
  have inZone_iff {row : Row} {key : List Value} (rid : RID)
      (hasKey : HasKey entry.keyColumns row key) (isKey : IsKeyFor entry.keyColumns key) :
      (scanZone path.accessSpec.scanSpec ⟨key, rid⟩ == .eq) = true ↔
        (path.accessSpec.accessPredicates.all fun p => termHolds p row) = true := by
    rw [beq_iff_eq, zone_iff candidate constants hasKey isKey, List.all_eq_true]
  have exactly := domain.exactly entry inIndexes
  have alike : ∀ col ∈ entry.keyColumns, orderedAlike col.type = true :=
    fun col inColumns => (domain.keyColumns entry inIndexes col inColumns).1
  have keyOf {rid : RID} {row : Row} {key : List Value} (stored : (rid, row) ∈ rel.heap)
      (hasKey : HasKey entry.keyColumns row key) : IsKeyFor entry.keyColumns key := by
    obtain ⟨key', hasKey', isKey⟩ := domain.hasKey inIndexes stored
    have same : key.map some = key'.map some := hasKey.symm.trans hasKey'
    rwa [List.map_injective_iff.mpr (Option.some_injective Value) same]
  unfold ExactIn at exactly
  split at exactly
  · exact exactly.elim
  · rename_i index runtime
    obtain ⟨col, single, type, length, held⟩ := exactly
    have btree : entry.btreeIndex = some index := by rw [IndexCatalogEntry.btreeIndex, runtime]
    have keyOfEntry {e : LeafEntry} {row : Row} (stored : (e.rid, row) ∈ rel.heap)
        (read : row[col.columnIdx]? = some e.key) :
        HasKey entry.keyColumns row [e.key] ∧ IsKeyFor entry.keyColumns [e.key] := by
      have hasKey : HasKey entry.keyColumns row [e.key] := by
        rw [HasKey, single, List.map_singleton, read]
        rfl
      exact ⟨hasKey, keyOf stored hasKey⟩
    have keyed : ∀ e ∈ index.entries, IsKey index.keyType e.key := by
      intro e member
      obtain ⟨row, stored, read, -⟩ := mem_heldEntries.mp (held.entries.mem_iff.mp member)
      have isKey := (keyOfEntry stored read).2
      rw [single] at isKey
      cases isKey with
      | cons component _ =>
        rw [type]
        exact component.isKey
    have isAlike : orderedAlike index.keyType = true := by
      rw [type]
      exact alike col (by rw [single]; exact List.mem_singleton_self col)
    have scanned := btree_scan rel.heap candidate once single held isAlike keyed type
      length fits
    refine ⟨_, by rw [BasePath.indexAccess, btree]; exact congrArg some scanned, ?_⟩
    refine fetched_entries LeafEntry.rid
      (fun e => scanZone path.accessSpec.scanSpec ⟨[e.key], e.rid⟩ == .eq)
      (fun row => path.accessSpec.accessPredicates.all fun p => termHolds p row)
      domain.distinct held.entries ?_ fun rid => ?_
    · refine nodup_rids domain.distinct fun stored _ e isEntry => ?_
      obtain ⟨v, -, outcome⟩ := Option.bind_eq_some_iff.mp isEntry
      split at outcome
      · cases outcome
      · cases outcome
        rfl
    · constructor
      · rintro ⟨e, member, inside, rfl⟩
        obtain ⟨row, stored, read, -⟩ := mem_heldEntries.mp member
        obtain ⟨hasKey, isKey⟩ := keyOfEntry stored read
        exact ⟨row, stored, (inZone_iff e.rid hasKey isKey).mp inside⟩
      · rintro ⟨row, stored, holds⟩
        obtain ⟨v, read, -⟩ := stored_value (domain.keyColumns entry inIndexes col
          (by rw [single]; exact List.mem_singleton_self col)).2 stored
        have present := domain.notNull entry inIndexes col
          (by rw [single]; exact List.mem_singleton_self col) _ stored v read
        obtain ⟨hasKey, isKey⟩ := @keyOfEntry ⟨v, rid⟩ row stored read
        exact ⟨⟨v, rid⟩, mem_heldEntries.mpr ⟨row, stored, read, present⟩,
          (inZone_iff rid hasKey isKey).mpr holds, rfl⟩
  · rename_i index runtime
    obtain ⟨columns, held⟩ := exactly
    have btree : entry.btreeIndex = none := by rw [IndexCatalogEntry.btreeIndex, runtime]
    have generic : entry.genericBTreeIndex = some index := by
      rw [IndexCatalogEntry.genericBTreeIndex, runtime]
    have keyed : ∀ e ∈ index.entries, IsKeyFor index.keyColumns e.key := by
      intro e member
      obtain ⟨row, stored, hasKey⟩ := mem_heldKeys.mp (held.entries.mem_iff.mp member)
      rw [columns]
      exact keyOf stored hasKey
    have scanned := generic_scan rel.heap held (by rwa [columns]) keyed (columns ▸ fits)
    refine ⟨_, by rw [BasePath.indexAccess, btree, generic]; exact congrArg some scanned, ?_⟩
    refine fetched_entries GenericLeafEntry.rid
      (fun e => scanZone path.accessSpec.scanSpec e == .eq)
      (fun row => path.accessSpec.accessPredicates.all fun p => termHolds p row)
      domain.distinct held.entries ?_ fun rid => ?_
    · refine nodup_rids domain.distinct fun stored _ e isEntry => ?_
      obtain ⟨key, -, rfl⟩ := map_eq_some_iff.mp isEntry
      rfl
    · constructor
      · rintro ⟨e, member, inside, rfl⟩
        obtain ⟨row, stored, hasKey⟩ := mem_heldKeys.mp member
        exact ⟨row, stored, (inZone_iff e.rid hasKey (keyOf stored hasKey)).mp inside⟩
      · rintro ⟨row, stored, holds⟩
        obtain ⟨key, hasKey, isKey⟩ := domain.hasKey inIndexes stored
        exact ⟨⟨key, rid⟩, mem_heldKeys.mpr ⟨row, stored, hasKey⟩,
          (inZone_iff rid hasKey isKey).mpr holds, rfl⟩

theorem outputs_filtered (path : BasePath) (domain : Domain rel predicates)
    (split : (path.accessSpec.accessPredicates ++ path.accessSpec.residualPredicates).Perm predicates)
    {rows : List Row} (accessed : rows.Perm ((rel.heap.filter fun stored =>
      path.accessSpec.accessPredicates.all fun p => termHolds p stored.2).map Prod.snd)) :
    Outputs rel predicates (some (withFilter (.ofList rows)
      (buildSingleTuplePredicateExpr path.accessSpec.residualPredicates))) := by
  have evaluates : ∀ row ∈ rows, ∀ p ∈ path.accessSpec.residualPredicates, Evaluates p row := by
    intro row member p residual
    obtain ⟨stored, inHeap, rfl⟩ := List.mem_map.mp (accessed.mem_iff.mp member)
    exact domain.evaluates (List.mem_filter.mp inHeap).1
      (split.mem_iff.mp (List.mem_append_right _ residual))
  refine ⟨_, by rw [withFilter_ofList evaluates], ?_⟩
  refine (accessed.filter _).trans (List.Perm.of_eq ?_)
  rw [List.filter_map, List.filter_filter]
  refine congrArg (List.map Prod.snd) (filter_congr fun stored _ => ?_)
  rw [Function.comp_apply, Bool.and_comm, ← List.all_append]
  exact split.all_eq

/-- Every base candidate splits the predicates without loss or repetition and outputs exactly the
live tuples that satisfy all of them. -/
theorem candidate_covers {catalog : CatalogManager} {query : OptimizerQuery}
    {estRows : GraniteDb.Common.Double.Double} {path : BasePath} (domain : Domain rel predicates)
    (isRelation : catalog.getRelation rel.relationId = some rel)
    (candidate : path ∈ makeBaseCandidates rel predicates query estRows) :
    Split rel predicates path ∧ Outputs rel predicates (path.buildExecutor catalog) := by
  rcases List.mem_cons.mp candidate with rfl | listed
  · refine ⟨⟨List.Perm.refl _, rfl, fun k p atK => by cases atK⟩, ?_⟩
    have built : (seqCandidate rel predicates estRows).buildExecutor catalog =
        some (withFilter (.ofList (rel.heap.map Prod.snd))
          (buildSingleTuplePredicateExpr predicates)) := by
      rw [BasePath.buildExecutor, seqCandidate, isRelation]
      rfl
    rw [built]
    refine outputs_filtered (seqCandidate rel predicates estRows) domain
      (List.Perm.refl _) (List.Perm.of_eq ?_)
    refine congrArg (List.map Prod.snd) (List.filter_eq_self.mpr ?_).symm
    exact fun _ _ => rfl
  · obtain ⟨⟨entry, position⟩, atPosition, made⟩ := List.mem_filterMap.mp listed
    have registered := List.mem_zipIdx_iff_getElem?.mp atPosition
    have inIndexes : entry ∈ rel.indexes := List.mem_of_getElem? registered
    have spec := indexCandidate_spec made
    have once : TakenOnce predicates
        (takePredicates predicates entry.keyColumns ⟨[], [], none, none⟩) :=
      takePredicates_once ⟨List.nodup_nil, fun i member => (not_mem_nil member).elim,
        List.Perm.refl _⟩ ⟨rfl, rfl⟩
    obtain ⟨isRel, isAt, isSpec⟩ : path.relationId = rel.relationId ∧
        path.accessIndex = some position ∧
        path.accessSpec = (splitPredicates predicates entry.keyColumns).1 := by
      unfold indexCandidate at made
      simp only at made
      split at made
      · cases made
      · cases made
        exact ⟨rfl, rfl, rfl⟩
    have split : (path.accessSpec.accessPredicates ++
        path.accessSpec.residualPredicates).Perm predicates := by
      rw [isSpec]
      exact splitPredicates_perm predicates entry.keyColumns
    refine ⟨⟨split, ?_, fun k p atK => ?_⟩, ?_⟩
    · rw [spec.index, spec.count]
    · rw [spec.index] at atK
      obtain ⟨equality, -, col, isColumn, same⟩ := spec.sound.equalities k p atK
      have cmp : p.cmp = .eq := by simpa [QueryPredicateSpec.isEquality] using equality
      exact ⟨cmp, position, entry, col, isAt, registered, isColumn, same⟩
    · obtain ⟨rows, accessed, perm⟩ := access_perm domain inIndexes spec once
      have notSeq : path.accessType ≠ .seqScan := by
        rw [spec.access]
        unfold indexAccessType
        repeat' split
        all_goals exact fun same => by cases same
      have access : path.access rel = some (.ofList rows) := by
        rw [BasePath.access, isAt]
        cases type : path.accessType with
        | seqScan => exact absurd type notSeq
        | indexScanEq | indexScanRange | indexScanOrdered =>
          simp only [registered, bind_some]
          exact accessed
      have built : path.buildExecutor catalog = some (withFilter (.ofList rows)
          (buildSingleTuplePredicateExpr path.accessSpec.residualPredicates)) := by
        rw [BasePath.buildExecutor, isRel, isRelation]
        simp only [Option.bind_eq_bind, bind_some, access]
      rw [built]
      exact outputs_filtered path domain split perm

def ageColumn : IndexKeyColumnDefinition := ⟨1, .int32, 0, false⟩

def nameColumn : IndexKeyColumnDefinition := ⟨0, .varchar, 8, false⟩

def byAge : BTreeIndex where
  keyType := .int32
  maxVarcharLen := 0
  leaves := [[⟨.int32 7, ⟨1, 0⟩⟩, ⟨.int32 9, ⟨1, 1⟩⟩]]
  findLeaf _ := 0

def byAgeAndName : GenericBTreeIndex where
  keyColumns := [ageColumn, nameColumn]
  nullPolicy := .notSupported
  leaves := [[⟨[.int32 7, .varchar [97]], ⟨1, 0⟩⟩, ⟨[.int32 9, .varchar [98]], ⟨1, 1⟩⟩]]
  findLeaf _ := 0

def people : RelationCatalogEntry where
  relationId := 1
  schema := [⟨"name", .varchar⟩, ⟨"age", .int32⟩]
  heap := [(⟨1, 0⟩, [.varchar [97], .int32 7]), (⟨1, 1⟩, [.varchar [98], .int32 9])]
  indexes := [⟨[ageColumn], some (.btree byAge)⟩,
    ⟨[ageColumn, nameColumn], some (.generic byAgeAndName)⟩]
  fits := by decide
  maintained := by decide

def nineNotA : List QueryPredicateSpec :=
  [⟨1, 1, .eq, .int32 9⟩, ⟨1, 0, .gt, .varchar [97]⟩, ⟨1, 1, .neq, .int32 8⟩]

theorem domain_people : Domain people nineNotA where
  distinct := by decide
  exactly := by
    refine List.forall_mem_cons.mpr ⟨?_, List.forall_mem_singleton.mpr ?_⟩
    · refine ⟨ageColumn, rfl, rfl, rfl, ?_⟩
      exact {
        entries := by decide
        sorted := by decide
        descends := fun _ _ e member => (not_mem_nil member).elim
        linked := fun _ _ => List.isChain_singleton _ }
    · refine ⟨rfl, ?_⟩
      exact {
        entries := by decide
        sorted := by decide +kernel
        descends := fun _ _ e member => (not_mem_nil member).elim }
  keyColumns := by decide
  notNull := by decide
  constants := by decide
  lengths := by
    intro p member entry inIndexes col inColumns same s isString
    have widths : ∀ e ∈ people.indexes, ∀ c ∈ e.keyColumns, c.columnIdx = 0 →
        c.maxVarcharLen = 8 := by
      decide
    have string : p.columnIdx = 0 ∧ s.length = 1 := by
      simp only [nineNotA, List.mem_cons, not_mem_nil, or_false] at member
      rcases member with isAge | isName | isOtherAge
      · rw [isAge] at isString
        cases isString
      · rw [isName] at isString ⊢
        cases isString
        exact ⟨rfl, rfl⟩
      · rw [isOtherAge] at isString
        cases isString
    have width : col.maxVarcharLen = 8 :=
      widths entry inIndexes col inColumns (same.trans string.1)
    omega

def ofRelation : OptimizerQuery := ⟨[1], nineNotA, [], [], [], false, none⟩

def covered : CatalogManager := ⟨[people], [("people", 1)]⟩

theorem candidate_covers_people :
    Split people nineNotA ((makeBaseCandidates people nineNotA ofRelation ⟨0⟩).get ⟨2, by decide⟩) ∧
      Outputs people nineNotA (((makeBaseCandidates people nineNotA ofRelation ⟨0⟩).get
        ⟨2, by decide⟩).buildExecutor covered) :=
  candidate_covers domain_people rfl (List.get_mem _ _)

end Candidates

end GraniteDb.Optimizer.CoveredPredicates
