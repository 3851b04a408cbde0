/- A base candidate's executor yields stored rows that satisfy all its predicates. -/

import GraniteDb.Optimizer.PlanEnumerator

namespace GraniteDb.Optimizer.BaseAccess

open Common.Types Common.Value Access.IndexScan Catalog.CatalogManager Execution.Expressions
open Execution.Operators Lib.Pull Optimizer.PhysicalPath Optimizer.PlanEnumerator
open Option (bind_eq_some_iff map_eq_some_iff bind_eq_bind bind_some mem_toList map_some)

section Conditions

/-- The row meets `column op constant`, the column read at a position of its own. -/
def SatisfiesAt (p : QueryPredicateSpec) (columnIdx : Nat) (row : Row) : Prop :=
  (predicateExpr p columnIdx).Accepts row

theorem compareValues_nonNull {a b : Value} {o : Ordering} (compared : compareValues a b = some o) :
    a.isNull = false ∧ b.isNull = false := by
  unfold compareValues at compared
  split at compared
  · cases compared
  · rename_i nonNull
    simpa using nonNull

variable {row : Row} {parts : List Expression}

theorem satisfiesAt_iff {p : QueryPredicateSpec} {columnIdx : Nat} :
    SatisfiesAt p columnIdx row ↔ ∃ v, row[columnIdx]? = some v ∧
      ∃ o, compareValues v p.constant = some o ∧ p.cmp.holds o = true := by
  constructor
  · rintro ⟨result, evaluated, isTrue⟩
    simp only [predicateExpr, Expression.evaluateRow, Expression.evaluate, bind_eq_bind,
      bind_some, bind_eq_some_iff] at evaluated
    obtain ⟨v, read, outcome⟩ := evaluated
    unfold evaluateComparison at outcome
    split at outcome
    · cases outcome
      cases isTrue
    · obtain ⟨o, compared, rfl⟩ := map_eq_some_iff.mp outcome
      exact ⟨v, read, o, compared, isTrue⟩
  · rintro ⟨v, read, o, compared, holds⟩
    obtain ⟨left, right⟩ := compareValues_nonNull compared
    refine ⟨.boolean true, ?_, rfl⟩
    simp [predicateExpr, Expression.evaluateRow, Expression.evaluate, read, evaluateComparison,
      left, right, compared, holds]

theorem conjunction_accepts {a b : Expression} :
    (Expression.conjunction a b).Accepts row ↔ a.Accepts row ∧ b.Accepts row := by
  constructor
  · rintro ⟨v, evaluated, isTrue⟩
    simp only [Expression.evaluateRow, Expression.evaluate, bind_eq_bind,
      bind_eq_some_iff] at evaluated
    obtain ⟨l, left, outcome⟩ := evaluated
    split at outcome
    · rename_i leftTrue
      obtain ⟨r, right, same⟩ := bind_eq_some_iff.mp outcome
      cases same
      exact ⟨⟨l, left, leftTrue⟩, ⟨r, right, isTrue⟩⟩
    · cases outcome
      cases isTrue
  · rintro ⟨⟨l, left, leftTrue⟩, ⟨r, right, rightTrue⟩⟩
    have left' : a.evaluate (some row) none = some l := left
    have right' : b.evaluate (some row) none = some r := right
    refine ⟨.boolean true, ?_, rfl⟩
    simp [Expression.evaluateRow, Expression.evaluate, left', leftTrue, right', rightTrue]

private theorem foldl_conjunction_accepts {first : Expression} :
    (parts.foldl Expression.conjunction first).Accepts row ↔
      first.Accepts row ∧ ∀ part ∈ parts, part.Accepts row := by
  induction parts generalizing first with
  | nil => simp
  | cons part rest ih =>
    rw [List.foldl_cons, ih, conjunction_accepts]
    simp [and_assoc]

theorem conjoin_accepts {whole : Expression} (joined : conjoin parts = some whole) :
    whole.Accepts row ↔ ∀ part ∈ parts, part.Accepts row := by
  cases parts with
  | nil => cases joined
  | cons first rest =>
    cases joined
    rw [foldl_conjunction_accepts]
    simp

theorem mem_withFilter {child : Pull Row} {predicate : Option Expression}
    (member : row ∈ (withFilter child predicate).items) :
    row ∈ child.items ∧ ∀ e ∈ predicate, e.Accepts row := by
  cases predicate with
  | none => exact ⟨member, by simp⟩
  | some e =>
    obtain ⟨inChild, accepted⟩ := mem_filter member
    refine ⟨inChild, ?_⟩
    rintro e' ⟨⟩
    exact accepted

theorem mem_withFilter_conjoin {child : Pull Row}
    (member : row ∈ (withFilter child (conjoin parts)).items) :
    row ∈ child.items ∧ ∀ part ∈ parts, part.Accepts row := by
  obtain ⟨inChild, accepted⟩ := mem_withFilter member
  refine ⟨inChild, ?_⟩
  cases joined : conjoin parts with
  | none =>
    cases parts with
    | nil => simp
    | cons first rest => cases joined
  | some whole => exact (conjoin_accepts joined).mp (accepted whole joined)

theorem single_passes (accepted : ∀ part ∈ parts, part.Accepts row) :
    withFilter (.item row .done) (conjoin parts) = .item row .done := by
  cases joined : conjoin parts with
  | none => rfl
  | some whole =>
    obtain ⟨v, evaluated, isTrue⟩ := (conjoin_accepts joined).mpr accepted
    have verdict : condition whole row = some true := by
      rw [condition, evaluated, map_some, isTrue]
    simp [withFilter, filter, Pull.filter, verdict]

end Conditions

def At (predicates : List QueryPredicateSpec) (Q : QueryPredicateSpec → Prop) (i : Nat) : Prop :=
  ∃ p, predicates[i]? = some p ∧ Q p

theorem matchColumn_spec {predicates : List QueryPredicateSpec} {used : List Nat}
    {columnIdx : Nat} {entries : List (QueryPredicateSpec × Nat)} {lower upper : Option Nat}
    (positions : ∀ e ∈ entries, predicates[e.2]? = some e.1)
    (lowers : ∀ i, lower = some i →
      At predicates (fun p => p.columnIdx = columnIdx ∧ isLowerBoundCmp p.cmp = true) i)
    (uppers : ∀ i, upper = some i →
      At predicates (fun p => p.columnIdx = columnIdx ∧ isUpperBoundCmp p.cmp = true) i) :
    (∀ i, (matchColumn used columnIdx entries lower upper).equality = some i →
      At predicates (fun p => p.columnIdx = columnIdx ∧ p.isEquality = true) i) ∧
    (∀ i, (matchColumn used columnIdx entries lower upper).lower = some i →
      At predicates (fun p => p.columnIdx = columnIdx ∧ isLowerBoundCmp p.cmp = true) i) ∧
    ∀ i, (matchColumn used columnIdx entries lower upper).upper = some i →
      At predicates (fun p => p.columnIdx = columnIdx ∧ isUpperBoundCmp p.cmp = true) i := by
  induction entries generalizing lower upper with
  | nil => exact ⟨by simp [matchColumn], lowers, uppers⟩
  | cons e rest ih =>
    obtain ⟨p, i⟩ := e
    have here := positions (p, i) List.mem_cons_self
    have later : ∀ e ∈ rest, predicates[e.2]? = some e.1 :=
      fun e member => positions e (List.mem_cons_of_mem _ member)
    unfold matchColumn
    split
    · exact ih later lowers uppers
    · rename_i fresh
      have column : p.columnIdx = columnIdx := by simp at fresh; exact fresh.2
      split
      · rename_i equality
        refine ⟨?_, lowers, uppers⟩
        rintro j ⟨⟩
        exact ⟨p, here, column, equality⟩
      · apply ih later
        · intro j taken
          split at taken
          · rename_i isLower
            cases taken
            exact ⟨p, here, column, (Bool.and_eq_true_iff.mp isLower).1⟩
          · exact lowers j taken
        · intro j taken
          split at taken
          · rename_i isUpper
            cases taken
            exact ⟨p, here, column, (Bool.and_eq_true_iff.mp isUpper).1⟩
          · exact uppers j taken

/-- Every predicate of the relation is used for the index or left over, and what is used fits
the key columns in their order. -/
structure SplitSound (predicates : List QueryPredicateSpec)
    (keyColumns : List IndexKeyColumnDefinition) (taken : Taken) : Prop where
  equalities : ∀ (k : Nat) (p : QueryPredicateSpec), taken.indexPredicates[k]? = some p →
    p.isEquality = true ∧ p ∈ predicates ∧
    ∃ col : IndexKeyColumnDefinition, keyColumns[k]? = some col ∧ p.columnIdx = col.columnIdx
  lower : ∀ p, taken.lowerBound = some p → isLowerBoundCmp p.cmp = true ∧ p ∈ predicates ∧
    ∃ col : IndexKeyColumnDefinition, keyColumns[taken.indexPredicates.length]? = some col ∧
      p.columnIdx = col.columnIdx
  upper : ∀ p, taken.upperBound = some p → isUpperBoundCmp p.cmp = true ∧ p ∈ predicates ∧
    ∃ col : IndexKeyColumnDefinition, keyColumns[taken.indexPredicates.length]? = some col ∧
      p.columnIdx = col.columnIdx
  used : ∀ i ∈ taken.used, ∀ p, predicates[i]? = some p →
    p ∈ taken.indexPredicates ∨ taken.lowerBound = some p ∨ taken.upperBound = some p
  unused : taken.used = [] →
    taken.indexPredicates = [] ∧ taken.lowerBound = none ∧ taken.upperBound = none

private theorem takePredicates_sound {predicates : List QueryPredicateSpec}
    {front cols : List IndexKeyColumnDefinition} {taken : Taken}
    (sound : SplitSound predicates (front ++ cols) taken)
    (progress : taken.indexPredicates.length = front.length)
    (open_ : taken.lowerBound = none ∧ taken.upperBound = none) :
    SplitSound predicates (front ++ cols) (takePredicates predicates cols taken) := by
  induction cols generalizing front taken with
  | nil => exact sound
  | cons col cols ih =>
    have positions : ∀ e ∈ predicates.zipIdx, predicates[e.2]? = some e.1 := by
      intro e member
      exact List.mem_zipIdx_iff_getElem?.mp member
    obtain ⟨equalities, lowers, uppers⟩ :=
      @matchColumn_spec predicates taken.used col.columnIdx _ none none positions nofun nofun
    have current : (front ++ col :: cols)[taken.indexPredicates.length]? = some col := by
      rw [progress]
      simp
    unfold takePredicates
    simp only
    split
    · rename_i i found
      obtain ⟨p, atI, column, equality⟩ := equalities i found
      have shape : front ++ col :: cols = (front ++ [col]) ++ cols := by simp
      rw [shape] at sound ⊢
      rw [atI]
      apply ih
      · refine ⟨?_, ?_, ?_, ?_, ?_⟩
        · intro k q atK
          simp only [Option.toList_some] at atK
          by_cases old : k < taken.indexPredicates.length
          · rw [List.getElem?_append_left old] at atK
            exact sound.equalities k q atK
          · rw [List.getElem?_append_right (Nat.le_of_not_lt old)] at atK
            have last : k = taken.indexPredicates.length := by
              by_contra other
              have later : 1 ≤ k - taken.indexPredicates.length := by omega
              rw [List.getElem?_eq_none (by simpa using later)] at atK
              cases atK
            subst last
            simp only [Nat.sub_self, List.getElem?_cons_zero, Option.some.injEq] at atK
            subst atK
            exact ⟨equality, List.mem_of_getElem? atI, col, shape ▸ current, column⟩
        · intro q isLower
          rw [open_.1] at isLower
          cases isLower
        · intro q isUpper
          rw [open_.2] at isUpper
          cases isUpper
        · intro j member q atJ
          simp only [Option.toList_some]
          rcases List.mem_cons.mp member with rfl | old
          · rw [atI] at atJ
            cases atJ
            exact .inl (List.mem_append_right _ (List.mem_singleton_self _))
          · rcases sound.used j old q atJ with inIndex | bound
            · exact .inl (List.mem_append_left _ inIndex)
            · exact .inr bound
        · intro empty
          cases empty
      · simp [progress]
      · exact open_
    · have bound {found : Option Nat} {p : QueryPredicateSpec} {Q : QueryPredicateSpec → Prop}
          (all : ∀ i, found = some i → At predicates Q i)
          (is : found.bind (predicates[·]?) = some p) : Q p ∧ p ∈ predicates := by
        obtain ⟨i, at_, read⟩ := bind_eq_some_iff.mp is
        obtain ⟨q, read', holds⟩ := all i at_
        rw [read] at read'
        cases read'
        exact ⟨holds, List.mem_of_getElem? read⟩
      refine ⟨sound.equalities, ?_, ?_, ?_, ?_⟩
      · intro p isLower
        obtain ⟨⟨column, cmp⟩, member⟩ := bound lowers isLower
        exact ⟨cmp, member, col, current, column⟩
      · intro p isUpper
        obtain ⟨⟨column, cmp⟩, member⟩ := bound uppers isUpper
        exact ⟨cmp, member, col, current, column⟩
      · intro j member q atJ
        rcases List.mem_append.mp member with new | old
        · rcases List.mem_append.mp new with lower | upper
          · have at_ := mem_toList.mp lower
            exact .inr (.inl (bind_eq_some_iff.mpr ⟨j, at_, atJ⟩))
          · have at_ := mem_toList.mp upper
            exact .inr (.inr (bind_eq_some_iff.mpr ⟨j, at_, atJ⟩))
        · rcases sound.used j old q atJ with inIndex | lower | upper
          · exact .inl inIndex
          · rw [open_.1] at lower
            cases lower
          · rw [open_.2] at upper
            cases upper
      · intro empty
        simp only [List.append_eq_nil_iff, Option.toList_eq_nil_iff] at empty
        refine ⟨(sound.unused empty.2).1, ?_, ?_⟩
        · rw [empty.1.1]
          rfl
        · rw [empty.1.2]
          rfl

theorem splitPredicates_sound (predicates : List QueryPredicateSpec)
    (keyColumns : List IndexKeyColumnDefinition) :
    SplitSound predicates keyColumns (takePredicates predicates keyColumns ⟨[], [], none, none⟩) := by
  have start : SplitSound predicates ([] ++ keyColumns) ⟨[], [], none, none⟩ := by
    constructor <;> simp
  exact takePredicates_sound start rfl ⟨rfl, rfl⟩

theorem residual_or_access (predicates : List QueryPredicateSpec)
    (keyColumns : List IndexKeyColumnDefinition) {p : QueryPredicateSpec}
    (member : p ∈ predicates) :
    p ∈ (splitPredicates predicates keyColumns).1.residualPredicates ∨
      p ∈ (splitPredicates predicates keyColumns).1.accessPredicates := by
  have sound := splitPredicates_sound predicates keyColumns
  obtain ⟨i, atI⟩ := List.mem_iff_getElem?.mp member
  by_cases used : i ∈ (takePredicates predicates keyColumns ⟨[], [], none, none⟩).used
  · refine .inr ?_
    simp only [splitPredicates, IndexAccessSpec.accessPredicates, List.mem_append, mem_toList]
    rcases sound.used i used p atI with inIndex | lower | upper
    · exact .inl (.inl inIndex)
    · exact .inl (.inr lower)
    · exact .inr upper
  · refine .inl (List.mem_map.mpr ⟨(p, i), List.mem_filter.mpr ⟨?_, by simpa using used⟩, rfl⟩)
    exact List.mem_zipIdx_iff_getElem?.mpr atI

section Scans

variable {heap : HeapFile} {row : Row}

theorem mem_fetch {rid : RID} {rest : Pull Row} (member : row ∈ (fetch heap rid rest).items) :
    getTuple heap rid = some row ∨ row ∈ rest.items := by
  unfold fetch at member
  split at member
  · rename_i stored found
    rcases List.mem_cons.mp member with rfl | later
    · exact .inl found
    · exact .inr later
  · exact .inr member

theorem mem_scanEqual {key : Value} {entries : List LeafEntry}
    (member : row ∈ (scanEqual heap key entries).items) :
    ∃ e ∈ entries, getTuple heap e.rid = some row ∧ compareValues e.key key = some .eq := by
  induction entries with
  | nil => cases member
  | cons e rest ih =>
    unfold scanEqual at member
    split at member
    · cases member
    · rename_i same
      rcases mem_fetch member with found | later
      · exact ⟨e, List.mem_cons_self, found, same⟩
      · obtain ⟨e', inRest, facts⟩ := ih later
        exact ⟨e', List.mem_cons_of_mem _ inRest, facts⟩
    · cases member

theorem mem_scanRange {lower upper : Option Value} {lowerInclusive upperInclusive : Bool}
    {entries : List LeafEntry}
    (member : row ∈ (scanRange heap lower upper lowerInclusive upperInclusive entries).items) :
    ∃ e ∈ entries, getTuple heap e.rid = some row ∧
      rangeVerdict lower upper lowerInclusive upperInclusive e.key = some .within := by
  induction entries with
  | nil => cases member
  | cons e rest ih =>
    have later (inRest : row ∈
        (scanRange heap lower upper lowerInclusive upperInclusive rest).items) :
        ∃ e' ∈ e :: rest, getTuple heap e'.rid = some row ∧
          rangeVerdict lower upper lowerInclusive upperInclusive e'.key = some .within := by
      obtain ⟨e', inEntries, facts⟩ := ih inRest
      exact ⟨e', List.mem_cons_of_mem _ inEntries, facts⟩
    unfold scanRange at member
    split at member
    · cases member
    · exact later member
    · cases member
    · rename_i within
      rcases mem_fetch member with found | inRest
      · exact ⟨e, List.mem_cons_self, found, within⟩
      · exact later inRest

def ScanMode.Admits : ScanMode → Value → Prop
  | .full, _ => True
  | .equality key, v => compareValues v key = some .eq
  | .range lower upper lowerInclusive upperInclusive, v =>
    rangeVerdict lower upper lowerInclusive upperInclusive v = some .within

theorem mem_indexScan {index : BTreeIndex} {mode : ScanMode}
    (member : row ∈ (indexScan heap index mode).items) :
    ∃ e ∈ index.entries, getTuple heap e.rid = some row ∧ ScanMode.Admits mode e.key := by
  cases mode with
  | full =>
    obtain ⟨e, inIndex, found, _⟩ := mem_scanRange member
    exact ⟨e, inIndex, found, trivial⟩
  | equality key =>
    simp only [indexScan] at member
    split at member
    · cases member
    · rename_i entries fromKey
      obtain ⟨e, inEntries, facts⟩ := mem_scanEqual member
      exact ⟨e, entriesFrom_subset fromKey inEntries, facts⟩
  | range lower upper lowerInclusive upperInclusive =>
    cases lower with
    | none =>
      obtain ⟨e, inEntries, facts⟩ := mem_scanRange member
      exact ⟨e, inEntries, facts⟩
    | some bound =>
      simp only [indexScan] at member
      split at member
      · cases member
      · rename_i entries fromBound
        obtain ⟨e, inEntries, facts⟩ := mem_scanRange member
        exact ⟨e, entriesFrom_subset fromBound inEntries, facts⟩

theorem mem_genericIndexScan {index : GenericBTreeIndex} {spec : PrefixScanSpec}
    {fullIndexScan : Bool} (member : row ∈ (genericIndexScan heap index spec fullIndexScan).items) :
    ∃ e ∈ index.entries, getTuple heap e.rid = some row ∧
      (fullIndexScan = false → InsideScan spec e.key) := by
  cases fullIndexScan with
  | true =>
    simp only [genericIndexScan, if_true, Pull.items_ofList] at member
    obtain ⟨rid, inHits, found⟩ := List.mem_filterMap.mp member
    obtain ⟨e, inIndex, rfl⟩ := List.mem_map.mp inHits
    exact ⟨e, inIndex, found, nofun⟩
  | false =>
    simp only [genericIndexScan, Bool.false_eq_true, if_false] at member
    split at member
    · cases member
    · rename_i rids scanned
      rw [Pull.items_ofList] at member
      obtain ⟨rid, inHits, found⟩ := List.mem_filterMap.mp member
      obtain ⟨e, inIndex, rfl, inside⟩ := scanPrefixRange_sound scanned rid inHits
      exact ⟨e, inIndex, found, fun _ => inside⟩

theorem prefixOrder_eq {key front : List Value} (same : prefixOrder key front = some .eq) {k : Nat}
    {v c : Value} (keyAt : key[k]? = some v) (prefixAt : front[k]? = some c) :
    compareValues v c = some .eq := by
  induction key generalizing front k with
  | nil => cases keyAt
  | cons v' key ih =>
    cases front with
    | nil => cases prefixAt
    | cons c' front =>
      simp only [prefixOrder, bind_eq_bind, bind_eq_some_iff] at same
      obtain ⟨o, compared, rest⟩ := same
      cases o with
      | lt | gt => cases rest
      | eq =>
        cases k with
        | zero =>
          cases keyAt
          cases prefixAt
          exact compared
        | succ k => exact ih rest keyAt prefixAt

end Scans

section Bounds

variable {row : Row} {v : Value} {p : QueryPredicateSpec} {col : IndexKeyColumnDefinition}

theorem satisfies_equality (equality : p.isEquality = true) (read : row[p.columnIdx]? = some v)
    (same : compareValues v p.constant = some .eq) : SatisfiesAt p p.columnIdx row := by
  have cmp : p.cmp = .eq := by simpa [QueryPredicateSpec.isEquality] using equality
  exact satisfiesAt_iff.mpr ⟨v, read, .eq, same, by rw [cmp]; rfl⟩

theorem satisfies_lower (isLower : isLowerBoundCmp p.cmp = true) (read : row[p.columnIdx]? = some v)
    (above : isUnder (some p.constant) (p.cmp == .gte) v = some false) :
    SatisfiesAt p p.columnIdx row := by
  obtain ⟨o, compared, verdict⟩ := map_eq_some_iff.mp above
  refine satisfiesAt_iff.mpr ⟨v, read, o, compared, ?_⟩
  cases cmp : p.cmp <;> simp only [isLowerBoundCmp, cmp] at isLower <;>
    first
      | exact absurd isLower (by decide)
      | (rw [cmp] at verdict; cases o <;> first | rfl | exact absurd verdict (by decide))

theorem satisfies_upper (isUpper : isUpperBoundCmp p.cmp = true) (read : row[p.columnIdx]? = some v)
    (below : isOver (some p.constant) (p.cmp == .lte) v = some false) :
    SatisfiesAt p p.columnIdx row := by
  obtain ⟨o, compared, verdict⟩ := map_eq_some_iff.mp below
  refine satisfiesAt_iff.mpr ⟨v, read, o, compared, ?_⟩
  cases cmp : p.cmp <;> simp only [isUpperBoundCmp, cmp] at isUpper <;>
    first
      | exact absurd isUpper (by decide)
      | (rw [cmp] at verdict; cases o <;> first | rfl | exact absurd verdict (by decide))

theorem satisfies_bounds {predicates : List QueryPredicateSpec}
    {keyColumns : List IndexKeyColumnDefinition} {taken : Taken}
    (sound : SplitSound predicates keyColumns taken)
    (current : keyColumns[taken.indexPredicates.length]? = some col)
    (read : row[col.columnIdx]? = some v)
    (within : rangeVerdict (taken.lowerBound.map (·.constant)) (taken.upperBound.map (·.constant))
      ((taken.lowerBound.map (·.cmp == .gte)).getD true) ((taken.upperBound.map (·.cmp ==
      .lte)).getD true) v = some .within)
    (bound : taken.lowerBound = some p ∨ taken.upperBound = some p) :
    SatisfiesAt p p.columnIdx row := by
  obtain ⟨above, below⟩ := rangeVerdict_within within
  rcases bound with lower | upper
  · obtain ⟨isLower, _, col', current', column⟩ := sound.lower p lower
    rw [current] at current'
    cases current'
    rw [lower] at above
    exact satisfies_lower isLower (column ▸ read) above
  · obtain ⟨isUpper, _, col', current', column⟩ := sound.upper p upper
    rw [current] at current'
    cases current'
    rw [upper] at below
    exact satisfies_upper isUpper (column ▸ read) below

theorem read_of_hasKey {cols : List IndexKeyColumnDefinition} {key : List Value}
    (hasKey : HasKey cols row key) {k : Nat} (atK : cols[k]? = some col) :
    ∃ v, key[k]? = some v ∧ row[col.columnIdx]? = some v := by
  have columns := congrArg (fun l : List (Option Value) => l[k]?) hasKey
  simp only [List.getElem?_map, atK, map_some] at columns
  obtain ⟨v, keyAt, same⟩ := map_eq_some_iff.mp columns.symm
  exact ⟨v, keyAt, same.symm⟩

end Bounds

section Candidates

structure IndexCandidate (predicates : List QueryPredicateSpec) (entry : IndexCatalogEntry)
    (path : BasePath) (taken : Taken) : Prop where
  sound : SplitSound predicates entry.keyColumns taken
  index : path.accessSpec.indexPredicates = taken.indexPredicates
  count : path.accessSpec.equalityPrefixCount = taken.indexPredicates.length
  lower : path.accessSpec.lowerBound = taken.lowerBound
  upper : path.accessSpec.upperBound = taken.upperBound
  access : path.accessType =
    indexAccessType path.accessSpec (!taken.used.isEmpty) entry.keyColumns.length

variable {path : BasePath} {entry : IndexCatalogEntry} {estRows : GraniteDb.Common.Double.Double}
  {rel : RelationCatalogEntry} {predicates : List QueryPredicateSpec} {p : QueryPredicateSpec}
  {taken : Taken} {row : Row}

theorem indexCandidate_spec {query : OptimizerQuery} {position : Nat}
    (candidate : indexCandidate rel predicates query estRows position entry = some path) :
    IndexCandidate predicates entry path
      (takePredicates predicates entry.keyColumns ⟨[], [], none, none⟩) := by
  unfold indexCandidate at candidate
  simp only at candidate
  split at candidate
  · cases candidate
  · cases candidate
    exact ⟨splitPredicates_sound predicates entry.keyColumns, rfl, rfl, rfl, rfl, rfl⟩

theorem mem_accessPredicates {spec : IndexAccessSpec} :
    p ∈ spec.accessPredicates ↔
      p ∈ spec.indexPredicates ∨ spec.lowerBound = some p ∨ spec.upperBound = some p := by
  simp [IndexAccessSpec.accessPredicates]

section

variable (candidate : IndexCandidate predicates entry path taken)

include candidate

theorem IndexCandidate.used
    (member : p ∈ path.accessSpec.accessPredicates) :
    taken.used.isEmpty = false := by
  rw [mem_accessPredicates, candidate.index, candidate.lower, candidate.upper] at member
  by_contra empty
  have none_ := candidate.sound.unused (by simpa using empty)
  rw [none_.1, none_.2.1, none_.2.2] at member
  simp at member

theorem btree_satisfies {v : Value}
    (hasKey : HasKey entry.keyColumns row [v]) (admits : ScanMode.Admits path.scanMode v)
    (member : p ∈ path.accessSpec.accessPredicates) : SatisfiesAt p p.columnIdx row := by
  have used := candidate.used member
  have sound := candidate.sound
  obtain ⟨col, single, read⟩ : ∃ col, entry.keyColumns = [col] ∧
      row[col.columnIdx]? = some v := by
    have length := congrArg List.length hasKey
    simp only [List.length_map, List.length_cons, List.length_nil] at length
    obtain ⟨col, single⟩ := List.length_eq_one_iff.mp length
    unfold HasKey at hasKey
    rw [single] at hasKey
    exact ⟨col, single, by simpa using hasKey⟩
  have access := candidate.access
  rw [used] at access
  simp only [indexAccessType, Bool.not_false, Bool.not_true, Bool.false_eq_true, if_false,
    candidate.lower, candidate.upper, single, List.length_singleton, if_true] at access
  rw [mem_accessPredicates, candidate.index, candidate.lower, candidate.upper] at member
  have noEquality {q : QueryPredicateSpec}
      (bound : taken.lowerBound = some q ∨ taken.upperBound = some q) :
      entry.keyColumns[taken.indexPredicates.length]? = some col ∧ taken.indexPredicates = [] := by
    have current : ∃ col' : IndexKeyColumnDefinition,
        entry.keyColumns[taken.indexPredicates.length]? = some col' := by
      rcases bound with lower | upper
      · obtain ⟨_, _, col', current, _⟩ := sound.lower q lower
        exact ⟨col', current⟩
      · obtain ⟨_, _, col', current, _⟩ := sound.upper q upper
        exact ⟨col', current⟩
    obtain ⟨col', current⟩ := current
    have inside := (List.getElem?_eq_some_iff.mp current).1
    rw [single, List.length_singleton, Nat.lt_one_iff, List.length_eq_zero_iff] at inside
    rw [single, inside]
    exact ⟨rfl, rfl⟩
  cases bounded : taken.lowerBound.isSome || taken.upperBound.isSome with
  | true =>
    rw [bounded] at access
    have mode : path.scanMode = .range (taken.lowerBound.map (·.constant))
        (taken.upperBound.map (·.constant)) ((taken.lowerBound.map (·.cmp == .gte)).getD true)
        ((taken.upperBound.map (·.cmp == .lte)).getD true) := by
      simp only [BasePath.scanMode, access, if_true, candidate.lower, candidate.upper, bounded]
    rw [mode] at admits
    have someBound : ∃ q, taken.lowerBound = some q ∨ taken.upperBound = some q := by
      rcases Bool.or_eq_true_iff.mp bounded with lower | upper
      · obtain ⟨q, isLower⟩ := Option.isSome_iff_exists.mp lower
        exact ⟨q, .inl isLower⟩
      · obtain ⟨q, isUpper⟩ := Option.isSome_iff_exists.mp upper
        exact ⟨q, .inr isUpper⟩
    obtain ⟨q, bound⟩ := someBound
    obtain ⟨current, noIndex⟩ := noEquality bound
    rcases member with inIndex | isBound
    · rw [noIndex] at inIndex
      cases inIndex
    · exact satisfies_bounds sound current read admits isBound
  | false =>
    rw [bounded] at access
    obtain ⟨noLower, noUpper⟩ := Bool.or_eq_false_iff.mp bounded
    rcases member with inIndex | isLower | isUpper
    · obtain ⟨k, atK⟩ := List.mem_iff_getElem?.mp inIndex
      obtain ⟨equality, _, col', current, column⟩ := sound.equalities k p atK
      rw [single] at current
      have first : k = 0 := by
        have inside := (List.getElem?_eq_some_iff.mp current).1
        simpa using inside
      subst first
      cases current
      have mode : path.scanMode = .equality p.constant := by
        obtain ⟨rest, shape⟩ : ∃ rest, taken.indexPredicates = p :: rest := by
          cases preds : taken.indexPredicates with
          | nil =>
            rw [preds] at atK
            cases atK
          | cons q rest =>
            rw [preds] at atK
            cases atK
            exact ⟨rest, rfl⟩
        simp only [BasePath.scanMode, access, Bool.false_eq_true, if_false, candidate.index, shape]
      rw [mode] at admits
      exact satisfies_equality equality (column ▸ read) admits
    · rw [isLower] at noLower
      cases noLower
    · rw [isUpper] at noUpper
      cases noUpper

theorem generic_satisfies
    {key : List Value} (hasKey : HasKey entry.keyColumns row key)
    (inside : path.fullScan = false → InsideScan path.accessSpec.scanSpec key)
    (member : p ∈ path.accessSpec.accessPredicates) :
    SatisfiesAt p p.columnIdx row := by
  have used := candidate.used member
  have sound := candidate.sound
  have notFull : path.fullScan = false := by
    have notOrdered : path.accessType ≠ .indexScanOrdered := by
      rw [candidate.access, used]
      unfold indexAccessType
      simp only [Bool.not_false, Bool.not_true, Bool.false_eq_true, if_false]
      split
      · exact nofun
      · split <;> exact nofun
    simp [BasePath.fullScan, notOrdered]
  obtain ⟨ordered, verdict⟩ := inside notFull
  have scanned : path.accessSpec.scanSpec.equalityPrefix =
      taken.indexPredicates.map (·.constant) := by
    simp only [IndexAccessSpec.scanSpec, candidate.index, candidate.count, List.take_length]
  rw [scanned] at ordered
  have boundary {col : IndexKeyColumnDefinition}
      (current : entry.keyColumns[taken.indexPredicates.length]? = some col)
      (bound : taken.lowerBound = some p ∨ taken.upperBound = some p) :
      SatisfiesAt p p.columnIdx row := by
    obtain ⟨v, keyAt, read⟩ := read_of_hasKey hasKey current
    unfold rangeColumnVerdict at verdict
    rw [scanned, List.length_map, keyAt] at verdict
    simp only [IndexAccessSpec.scanSpec, candidate.lower, candidate.upper] at verdict
    exact satisfies_bounds sound current read verdict bound
  rw [mem_accessPredicates, candidate.index, candidate.lower, candidate.upper] at member
  rcases member with inIndex | isLower | isUpper
  · obtain ⟨k, atK⟩ := List.mem_iff_getElem?.mp inIndex
    obtain ⟨equality, _, col, current, column⟩ := sound.equalities k p atK
    obtain ⟨v, keyAt, read⟩ := read_of_hasKey hasKey current
    have prefixAt : (taken.indexPredicates.map (·.constant))[k]? = some p.constant := by
      rw [List.getElem?_map, atK]
      rfl
    exact satisfies_equality equality (column ▸ read) (prefixOrder_eq ordered keyAt prefixAt)
  · obtain ⟨_, _, col, current, _⟩ := sound.lower p isLower
    exact boundary current (.inl isLower)
  · obtain ⟨_, _, col, current, _⟩ := sound.upper p isUpper
    exact boundary current (.inr isUpper)

end

private theorem mem_indexAccess {position : Nat} (registered : rel.indexes[position]? = some entry)
    (candidate : IndexCandidate predicates entry path taken)
    (atPosition : path.accessIndex = some position) {exec : Pull Row}
    (built : path.access rel = some exec) (member : row ∈ exec.items) :
    (∃ rid, (rid, row) ∈ rel.heap) ∧
      ∀ p ∈ path.accessSpec.accessPredicates, SatisfiesAt p p.columnIdx row := by
  have inIndexes : entry ∈ rel.indexes := List.mem_of_getElem? registered
  have notSeq : path.accessType ≠ .seqScan := by
    rw [candidate.access]
    unfold indexAccessType
    split
    · exact nofun
    · split
      · exact nofun
      · split <;> exact nofun
  have shape : path.indexAccess rel.heap entry = some exec := by
    unfold BasePath.access at built
    rw [atPosition] at built
    cases access : path.accessType with
    | seqScan => exact absurd access notSeq
    | indexScanEq | indexScanRange | indexScanOrdered =>
      simpa only [access, registered, bind_some] using built
  unfold BasePath.indexAccess at shape
  cases btree : entry.btreeIndex with
  | some index =>
    rw [btree] at shape
    cases shape
    obtain ⟨e, inIndex, found, admits⟩ := mem_indexScan member
    have hasKey := hasKey_of_entry inIndexes (entry_of_btree btree inIndex) found
    exact ⟨⟨e.rid, mem_of_getTuple found⟩, fun p inAccess =>
      btree_satisfies candidate hasKey admits inAccess⟩
  | none =>
    rw [btree] at shape
    obtain ⟨index, generic, rfl⟩ := map_eq_some_iff.mp shape
    obtain ⟨e, inIndex, found, inside⟩ := mem_genericIndexScan member
    have hasKey := hasKey_of_entry inIndexes (entry_of_generic generic inIndex) found
    exact ⟨⟨e.rid, mem_of_getTuple found⟩, fun p inAccess =>
      generic_satisfies candidate hasKey inside inAccess⟩

theorem mem_buildExecutor {query : OptimizerQuery}
    (candidate : path ∈ makeBaseCandidates rel predicates query estRows) {catalog : CatalogManager}
    (found : catalog.getRelation path.relationId = some rel) {exec : Pull Row}
    (built : path.buildExecutor catalog = some exec) (member : row ∈ exec.items) :
    (∃ rid, (rid, row) ∈ rel.heap) ∧ ∀ p ∈ predicates, SatisfiesAt p p.columnIdx row := by
  unfold BasePath.buildExecutor at built
  rw [found] at built
  simp only [bind_eq_bind, bind_some, bind_eq_some_iff] at built
  obtain ⟨access, built, same⟩ := built
  cases same
  obtain ⟨inAccess, residual⟩ := mem_withFilter_conjoin member
  have residuals : ∀ p ∈ path.accessSpec.residualPredicates, SatisfiesAt p p.columnIdx row :=
    fun p inResidual => residual _ (List.mem_map.mpr ⟨p, inResidual, rfl⟩)
  rcases List.mem_cons.mp candidate with rfl | indexed
  · cases built
    rw [seqScan, Pull.items_ofList] at inAccess
    obtain ⟨stored, inHeap, rfl⟩ := List.mem_map.mp inAccess
    exact ⟨⟨stored.1, inHeap⟩, residuals⟩
  · obtain ⟨⟨entry, position⟩, listed, made⟩ := List.mem_filterMap.mp indexed
    have registered := List.mem_zipIdx_iff_getElem?.mp listed
    have spec := indexCandidate_spec made
    have shape : path.accessIndex = some position ∧
        path.accessSpec = (splitPredicates predicates entry.keyColumns).1 := by
      unfold indexCandidate at made
      simp only at made
      split at made
      · cases made
      · cases made
        exact ⟨rfl, rfl⟩
    obtain ⟨stored, accesses⟩ := mem_indexAccess registered spec shape.1 built inAccess
    refine ⟨stored, fun p inPredicates => ?_⟩
    rcases residual_or_access predicates entry.keyColumns inPredicates with left | went
    · exact residuals p (shape.2 ▸ left)
    · exact accesses p (shape.2 ▸ went)

end Candidates

end GraniteDb.Optimizer.BaseAccess
