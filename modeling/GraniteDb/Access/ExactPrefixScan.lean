/- What a prefix scan of an exact composite index returns. -/

import GraniteDb.Access.ExactIndex

namespace GraniteDb.Access.ExactPrefixScan

open Common.Value Access.IndexScan Access.ExactIndex Execution.Expressions Execution.ValueOrder
open Lib.SortedScan
open Option (bind_some bind_eq_bind toList_some)

section Keys

structure IsComponent (col : IndexKeyColumnDefinition) (v : Value) : Prop where
  alike : orderedAlike col.type = true
  isKey : IsKey col.type v

def WithinLength (col : IndexKeyColumnDefinition) (v : Value) : Prop :=
  ∀ s, v = .varchar s → s.length ≤ col.maxVarcharLen

abbrev IsKeyFor (cols : List IndexKeyColumnDefinition) (key : List Value) : Prop :=
  List.Forall₂ IsComponent cols key

noncomputable def keyOrder : List Value → List Value → Ordering
  | a :: as, b :: bs =>
    match compare (seenRank a) (seenRank b) with
    | .eq => keyOrder as bs
    | other => other
  | _, _ => .eq

variable {policy : NullPolicy} {cols : List IndexKeyColumnDefinition} {a b : List Value}

theorem compareKeys_eq (left : IsKeyFor cols a) (right : IsKeyFor cols b) :
    compareKeys policy a b = some (keyOrder a b) := by
  induction left generalizing b with
  | nil =>
    cases right
    rfl
  | cons first rest ih =>
    cases right with
    | cons first' rest' =>
      have compared := (compareKeys_ranks first.alike first.isKey first'.isKey).2
      simp only [compareKeys, compareWithNullPolicy, first.isKey.present, first'.isKey.present,
        compared, ih rest', keyOrder, Bool.not_false, Bool.and_self, if_true,
        bind_eq_bind, bind_some]
      cases compare (seenRank _) (seenRank _) <;> rfl

theorem encodeComponent_of {col : IndexKeyColumnDefinition} {v : Value}
    (isComponent : IsComponent col v) (within : WithinLength col v) :
    encodeComponent policy col v = true := by
  have present := isComponent.isKey.present
  have type := isComponent.isKey.type
  cases v with
  | null _ => cases present
  | varchar s =>
    have bound := within s rfl
    have short : col.maxVarcharLen = 0 ∨ s.length ≤ col.maxVarcharLen := .inr bound
    simp only [encodeComponent, present, type]
    simpa using short
  | boolean _ | int32 _ | int64 _ | double _ => simp [encodeComponent, present, type]

theorem encodeKey_of (isKey : IsKeyFor cols a) (within : List.Forall₂ WithinLength cols a) :
    encodeKey policy cols a = some a := by
  have all : (cols.zip a).all (fun c => encodeComponent policy c.1 c.2) = true := by
    induction isKey with
    | nil => rfl
    | cons first rest ih =>
      cases within with
      | cons within withins =>
        rw [List.zip_cons_cons, List.all_cons, encodeComponent_of first within, ih withins]
        rfl
  rw [encodeKey, if_pos ⟨isKey.length_eq.symm, all⟩]

theorem leastValue_least {type : TypeId} (alike : orderedAlike type = true) :
    ∃ least, leastValue type = some least ∧ IsKey type least ∧
      (∀ s, least = .varchar s → s = []) ∧
      ∀ v, IsKey type v → seenRank least ≤ seenRank v := by
  cases type with
  | invalid | int64 | double => cases alike
  | boolean =>
    refine ⟨_, rfl, ⟨rfl, rfl⟩, fun s same => (by cases same), fun v isKey => ?_⟩
    cases v <;> cases isKey.type
    · cases isKey.present
    · rename_i x
      rw [← not_lt, ← compare_gt_iff_gt, ← compareBools_eq]
      cases x <;> decide
  | int32 =>
    refine ⟨_, rfl, ⟨rfl, rfl⟩, fun s same => (by cases same), fun v isKey => ?_⟩
    cases v <;> cases isKey.type
    · cases isKey.present
    · rename_i x
      have lower := @BitVec.le_toInt 32 x
      have least : (BitVec.intMin 32).toInt = -2 ^ 31 := by decide
      have scale : (0 : Int) ≤ 2 ^ 1074 := by positivity
      rw [seenRank_int32, seenRank_int32, ← not_lt, ← compare_gt_iff_gt, compare_number,
        compare_gt_iff_gt, not_lt]
      exact Int.mul_le_mul_of_nonneg_right (by omega) scale
  | varchar =>
    refine ⟨_, rfl, ⟨rfl, rfl⟩, fun s same => (Value.varchar.inj same).symm, fun v isKey => ?_⟩
    cases v <;> cases isKey.type
    · cases isKey.present
    · rename_i x
      rw [← not_lt, ← compare_gt_iff_gt, ← compareBytes_eq]
      cases x <;> simp [compareBytes]

end Keys

section Zones

variable (lower upper : Option Value) (lowerInclusive upperInclusive : Bool)

noncomputable def prefixZone : List Value → List Value → Ordering
  | p :: front, v :: key =>
    match compare (seenRank v) (seenRank p) with
    | .eq => prefixZone front key
    | other => other
  | [], v :: _ => boundZone lower upper lowerInclusive upperInclusive v
  | _, [] => .eq

variable {lower upper : Option Value} {lowerInclusive upperInclusive : Bool}

theorem prefixZone_mono {front a b : List Value} (lengths : a.length = b.length)
    (below : keyOrder a b ≠ .gt) :
    (prefixZone lower upper lowerInclusive upperInclusive front b = .lt →
      prefixZone lower upper lowerInclusive upperInclusive front a = .lt) ∧
    (prefixZone lower upper lowerInclusive upperInclusive front a = .gt →
      prefixZone lower upper lowerInclusive upperInclusive front b = .gt) := by
  induction front generalizing a b with
  | nil =>
    cases a with
    | nil =>
      rw [List.eq_nil_of_length_eq_zero lengths.symm]
      exact ⟨id, id⟩
    | cons v a =>
      cases b with
      | nil => cases lengths
      | cons w b =>
        refine boundZone_mono (not_lt.mp fun above => ?_)
        rw [keyOrder, compare_gt_iff_gt.mpr above] at below
        exact below rfl
  | cons p front ih =>
    cases a with
    | nil =>
      rw [List.eq_nil_of_length_eq_zero lengths.symm]
      exact ⟨id, id⟩
    | cons v a =>
      cases b with
      | nil => cases lengths
      | cons w b =>
        rcases lt_trichotomy (seenRank v) (seenRank w) with less | same | greater
        · -- Of two keys that differ here, the lesser is before, the greater behind.
          rcases lt_trichotomy (seenRank v) (seenRank p) with under | isP | beyond
          · have atV := compare_lt_iff_lt.mpr under
            simp [prefixZone, atV]
          · have atV := compare_eq_iff_eq.mpr isP
            have atW := compare_gt_iff_gt.mpr (isP ▸ less)
            simp [prefixZone, atW]
          · have atV := compare_gt_iff_gt.mpr beyond
            have atW := compare_gt_iff_gt.mpr (beyond.trans less)
            simp [prefixZone, atW]
        · rw [keyOrder, compare_eq_iff_eq.mpr same] at below
          have later := ih (Nat.succ.inj lengths) below
          rw [prefixZone, prefixZone, same]
          cases compare (seenRank w) (seenRank p) with
          | eq => exact later
          | lt | gt => exact ⟨id, id⟩
        · rw [keyOrder, compare_gt_iff_gt.mpr greater] at below
          exact absurd rfl below

theorem prefixZone_under {front tail key : List Value}
    (under : keyOrder key (front ++ tail) = .lt) :
    prefixZone lower upper lowerInclusive upperInclusive front key = .lt ∨
      (keyOrder (key.drop front.length) tail = .lt ∧
        prefixZone lower upper lowerInclusive upperInclusive front key =
          prefixZone lower upper lowerInclusive upperInclusive [] (key.drop front.length)) := by
  induction front generalizing key with
  | nil => exact .inr ⟨under, rfl⟩
  | cons p front ih =>
    cases key with
    | nil => cases under
    | cons v key =>
      rw [List.cons_append, keyOrder] at under
      rw [prefixZone, List.length_cons, List.drop_succ_cons]
      cases compared : compare (seenRank v) (seenRank p) with
      | lt => exact .inl rfl
      | eq =>
        rw [compared] at under
        exact ih under
      | gt =>
        rw [compared] at under
        cases under

theorem not_under_least {cols : List IndexKeyColumnDefinition} {key least : List Value}
    (isKey : IsKeyFor cols key)
    (isLeast : List.Forall₂ (fun col v => leastValue col.type = some v) cols least) :
    keyOrder key least ≠ .lt := by
  induction isKey generalizing least with
  | nil =>
    cases isLeast
    exact Ordering.noConfusion
  | cons first rest ih =>
    cases isLeast with
    | cons isFirst isRest =>
      obtain ⟨least, found, -, -, below⟩ := leastValue_least first.alike
      rw [isFirst] at found
      cases found
      have notUnder := below _ first.isKey
      rw [keyOrder]
      cases compared : compare (seenRank _) (seenRank _) with
      | lt => exact absurd notUnder (not_le.mpr (compare_lt_iff_lt.mp compared))
      | eq => exact ih isRest
      | gt => exact Ordering.noConfusion

end Zones

section Scans

structure SpecFits (cols : List IndexKeyColumnDefinition) (spec : PrefixScanSpec) : Prop where
  front : IsKeyFor (cols.take spec.equalityPrefix.length) spec.equalityPrefix
  frontLength : List.Forall₂ WithinLength (cols.take spec.equalityPrefix.length)
    spec.equalityPrefix
  lower : ∀ bound ∈ spec.lowerBound, ∃ col, cols[spec.equalityPrefix.length]? = some col ∧
    IsComponent col bound ∧ WithinLength col bound
  upper : ∀ bound ∈ spec.upperBound, ∃ col, cols[spec.equalityPrefix.length]? = some col ∧
    IsComponent col bound

noncomputable def scanZone (spec : PrefixScanSpec) (e : GenericLeafEntry) : Ordering :=
  prefixZone spec.lowerBound spec.upperBound spec.lowerInclusive spec.upperInclusive
    spec.equalityPrefix e.key

variable {cols : List IndexKeyColumnDefinition} {spec : PrefixScanSpec}

theorem SpecFits.inside (fits : SpecFits cols spec) : spec.equalityPrefix.length ≤ cols.length := by
  have lengths := fits.front.length_eq
  rw [List.length_take] at lengths
  omega

theorem prefixOrder_zone (lower upper : Option Value) (lowerInclusive upperInclusive : Bool)
    {front key : List Value} (isFront : IsKeyFor (cols.take front.length) front)
    (isKey : IsKeyFor cols key) : ∃ o, prefixOrder key front = some o ∧
      prefixZone lower upper lowerInclusive upperInclusive front key = (match o with
        | .eq => ((key[front.length]?).map
            (boundZone lower upper lowerInclusive upperInclusive)).getD .eq
        | other => other) := by
  induction front generalizing cols key with
  | nil =>
    refine ⟨.eq, ?_, ?_⟩
    · cases key <;> rfl
    · cases key <;> rfl
  | cons p front ih =>
    cases isKey with
    | nil => exact ⟨.eq, rfl, rfl⟩
    | cons first rest =>
      rw [List.length_cons, List.take_succ_cons] at isFront
      cases isFront with
      | cons isP isRest =>
        obtain ⟨o, ordered, zone⟩ := ih isRest rest
        rw [prefixOrder, (compareKeys_ranks first.alike first.isKey isP.isKey).2, prefixZone,
          List.length_cons, List.getElem?_cons_succ]
        cases compare (seenRank _) (seenRank p) with
        | eq => exact ⟨o, ordered, zone⟩
        | lt => exact ⟨.lt, rfl, rfl⟩
        | gt => exact ⟨.gt, rfl, rfl⟩

theorem rangeColumnVerdict_eq (fits : SpecFits cols spec) {key : List Value}
    (isKey : IsKeyFor cols key) : rangeColumnVerdict spec key =
      some (verdictOf (((key[spec.equalityPrefix.length]?).map (boundZone spec.lowerBound
        spec.upperBound spec.lowerInclusive spec.upperInclusive)).getD .eq)) := by
  rw [rangeColumnVerdict]
  cases at_ : key[spec.equalityPrefix.length]? with
  | none => rfl
  | some v =>
    obtain ⟨inside, isV⟩ := List.getElem?_eq_some_iff.mp at_
    have inCols : spec.equalityPrefix.length < cols.length := isKey.length_eq ▸ inside
    have component := isKey.get inCols inside
    have column : cols[spec.equalityPrefix.length]? = some cols[spec.equalityPrefix.length] :=
      List.getElem?_eq_getElem inCols
    rw [List.get_eq_getElem, List.get_eq_getElem, isV] at component
    refine rangeVerdict_eq component.alike component.isKey (fun bound isBound => ?_)
      fun bound isBound => ?_
    · obtain ⟨col, isCol, isComponent, -⟩ := fits.lower bound isBound
      rw [column] at isCol
      cases isCol
      exact isComponent.isKey
    · obtain ⟨col, isCol, isComponent⟩ := fits.upper bound isBound
      rw [column] at isCol
      cases isCol
      exact isComponent.isKey

theorem scanEntries_eq (fits : SpecFits cols spec) {entries : List GenericLeafEntry}
    (keyed : ∀ e ∈ entries, IsKeyFor cols e.key) :
    scanEntries spec entries = some (scan (scanZone spec) entries) := by
  induction entries with
  | nil => rfl
  | cons e rest ih =>
    have later := ih fun e' member => keyed e' (List.mem_cons_of_mem _ member)
    have isKey := keyed e List.mem_cons_self
    obtain ⟨o, ordered, zone⟩ := prefixOrder_zone spec.lowerBound spec.upperBound
      spec.lowerInclusive spec.upperInclusive fits.front isKey
    have atE : scanZone spec e = _ := zone
    rw [scanEntries, ordered]
    cases o with
    | lt => simp [scan, atE, later]
    | gt => simp [scan, atE]
    | eq =>
      simp only [bind_eq_bind, bind_some, rangeColumnVerdict_eq fits isKey]
      rw [scan, atE]
      simp only
      cases ((e.key[spec.equalityPrefix.length]?).map (boundZone spec.lowerBound
        spec.upperBound spec.lowerInclusive spec.upperInclusive)).getD .eq <;>
        simp [verdictOf, later]

theorem startKey_eq (fits : SpecFits cols spec) (alike : ∀ col ∈ cols, orderedAlike col.type = true) :
    ∃ padding, startKey cols spec = some (spec.equalityPrefix ++ (spec.lowerBound.toList ++ padding)) ∧
      List.Forall₂ (fun col v => leastValue col.type = some v)
        (cols.drop (spec.equalityPrefix.length + spec.lowerBound.toList.length)) padding := by
  have padded (l : List IndexKeyColumnDefinition) (sub : ∀ col ∈ l, col ∈ cols) :
      ∃ padding, l.mapM (fun col => leastValue col.type) = some padding ∧
        List.Forall₂ (fun col v => leastValue col.type = some v) l padding := by
    induction l with
    | nil => exact ⟨[], rfl, .nil⟩
    | cons col rest ih =>
      obtain ⟨least, found, -⟩ := leastValue_least (alike col (sub col List.mem_cons_self))
      obtain ⟨padding, mapped, all⟩ := ih fun col' member => sub col' (List.mem_cons_of_mem _ member)
      refine ⟨least :: padding, ?_, .cons found all⟩
      rw [List.mapM_cons, found, mapped]
      rfl
  have given : (if spec.equalityPrefix.length < cols.length then spec.lowerBound.toList else []) =
      spec.lowerBound.toList := by
    split
    · rfl
    · rename_i full
      cases bounded : spec.lowerBound with
      | none => rfl
      | some bound =>
        obtain ⟨col, isCol, -⟩ := fits.lower bound bounded
        exact absurd (List.getElem?_eq_some_iff.mp isCol).1 full
  obtain ⟨padding, mapped, all⟩ := padded
    (cols.drop (spec.equalityPrefix ++ spec.lowerBound.toList).length)
    fun col member => List.mem_of_mem_drop member
  rw [List.length_append] at all
  refine ⟨padding, ?_, all⟩
  rw [startKey, given, mapped, Option.map_some, List.append_assoc]

theorem startKey_encodes (policy : NullPolicy) (fits : SpecFits cols spec)
    {padding : List Value}
    (alike : ∀ col ∈ cols, orderedAlike col.type = true)
    (padded : List.Forall₂ (fun col v => leastValue col.type = some v)
      (cols.drop (spec.equalityPrefix.length + spec.lowerBound.toList.length)) padding) :
    IsKeyFor cols (spec.equalityPrefix ++ (spec.lowerBound.toList ++ padding)) ∧
      encodeKey policy cols (spec.equalityPrefix ++ (spec.lowerBound.toList ++ padding)) =
        some (spec.equalityPrefix ++ (spec.lowerBound.toList ++ padding)) := by
  have valid {l : List IndexKeyColumnDefinition} {least : List Value} (sub : ∀ col ∈ l, col ∈ cols)
      (all : List.Forall₂ (fun col v => leastValue col.type = some v) l least) :
      IsKeyFor l least ∧ List.Forall₂ WithinLength l least := by
    induction all with
    | nil => exact ⟨.nil, .nil⟩
    | @cons col v l least here rest ih =>
      obtain ⟨keys, lengths⟩ := ih fun col' member => sub col' (List.mem_cons_of_mem _ member)
      have isAlike := alike col (sub col List.mem_cons_self)
      obtain ⟨v', found, isKey, empty, -⟩ := leastValue_least isAlike
      rw [here] at found
      cases found
      refine ⟨.cons ⟨isAlike, isKey⟩ keys, .cons (fun s same => ?_) lengths⟩
      rw [empty s same]
      exact Nat.zero_le _
  have rest : IsKeyFor (cols.drop spec.equalityPrefix.length) (spec.lowerBound.toList ++ padding) ∧
      List.Forall₂ WithinLength (cols.drop spec.equalityPrefix.length)
        (spec.lowerBound.toList ++ padding) := by
    obtain ⟨keys, lengths⟩ := valid (fun col member => List.mem_of_mem_drop member) padded
    cases bounded : spec.lowerBound with
    | none =>
      rw [bounded] at keys lengths
      exact ⟨keys, lengths⟩
    | some bound =>
      obtain ⟨col, isCol, isComponent, within⟩ := fits.lower bound bounded
      obtain ⟨inside, atCol⟩ := List.getElem?_eq_some_iff.mp isCol
      have split : cols.drop spec.equalityPrefix.length =
          col :: cols.drop (spec.equalityPrefix.length + 1) := by
        rw [List.drop_eq_getElem_cons inside, atCol]
      rw [bounded, toList_some, List.length_singleton] at keys lengths
      rw [split]
      exact ⟨.cons isComponent keys, .cons within lengths⟩
  have isKey : IsKeyFor cols (spec.equalityPrefix ++ (spec.lowerBound.toList ++ padding)) := by
    rw [← List.take_append_drop spec.equalityPrefix.length cols]
    exact List.rel_append fits.front rest.1
  have lengths : List.Forall₂ WithinLength cols
      (spec.equalityPrefix ++ (spec.lowerBound.toList ++ padding)) := by
    rw [← List.take_append_drop spec.equalityPrefix.length cols]
    exact List.rel_append fits.frontLength rest.2
  exact ⟨isKey, encodeKey_of isKey lengths⟩

theorem zone_of_under_start {padding key : List Value} (isKey : IsKeyFor cols key)
    (padded : List.Forall₂ (fun col v => leastValue col.type = some v)
      (cols.drop (spec.equalityPrefix.length + spec.lowerBound.toList.length)) padding)
    (under : keyOrder key (spec.equalityPrefix ++ (spec.lowerBound.toList ++ padding)) = .lt) :
    prefixZone spec.lowerBound spec.upperBound spec.lowerInclusive spec.upperInclusive
      spec.equalityPrefix key = .lt := by
  rcases prefixZone_under under with before | ⟨later, same⟩
  · exact before
  · rw [same]
    have isRest : IsKeyFor (cols.drop spec.equalityPrefix.length)
        (key.drop spec.equalityPrefix.length) := List.forall₂_drop _ isKey
    rw [← List.drop_drop] at padded
    cases bounded : spec.lowerBound with
    | none =>
      rw [bounded] at later padded
      exact absurd later (not_under_least isRest padded)
    | some bound =>
      rw [bounded, toList_some, List.length_singleton] at padded
      rw [bounded, toList_some, List.singleton_append] at later
      cases keyRest : key.drop spec.equalityPrefix.length with
      | nil =>
        rw [keyRest] at later
        cases later
      | cons v more =>
        rw [keyRest, keyOrder] at later
        have isMore : IsKeyFor ((cols.drop spec.equalityPrefix.length).drop 1) more := by
          have dropped := List.forall₂_drop 1 isRest
          rwa [keyRest, List.drop_succ_cons, List.drop_zero] at dropped
        have less : seenRank v < seenRank bound := by
          cases compared : compare (seenRank v) (seenRank bound) with
          | lt => exact compare_lt_iff_lt.mp compared
          | eq =>
            rw [compared] at later
            exact absurd later (not_under_least isMore padded)
          | gt =>
            rw [compared] at later
            cases later
        have isUnder : Under (some bound) spec.lowerInclusive v := ⟨bound, rfl, .inl less⟩
        rw [prefixZone, boundZone, if_pos isUnder]

end Scans

section Exact

/-- The composite index holds these entries in the order of their keys, and the leaves to the
left of the one that a descent ends in hold lesser keys. -/
structure ExactKeys (index : GenericBTreeIndex) (held : List GenericLeafEntry) : Prop where
  entries : index.entries.Perm held
  sorted : index.entries.Pairwise fun a b => compareKeys index.nullPolicy a.key b.key ≠ some .gt
  descends : ∀ key, encodeKey index.nullPolicy index.keyColumns key = some key →
    ∀ e ∈ (index.leaves.take (index.findLeaf key)).flatten,
      compareKeys index.nullPolicy e.key key = some .lt

variable {index : GenericBTreeIndex} {held : List GenericLeafEntry} {spec : PrefixScanSpec}

theorem ExactKeys.scanPrefixRange (exactly : ExactKeys index held)
    (alike : ∀ col ∈ index.keyColumns, orderedAlike col.type = true)
    (keyed : ∀ e ∈ index.entries, IsKeyFor index.keyColumns e.key)
    (fits : SpecFits index.keyColumns spec) : index.scanPrefixRange spec =
      some ((index.entries.filter fun e => scanZone spec e == .eq).map GenericLeafEntry.rid) := by
  obtain ⟨padding, isStart, padded⟩ := startKey_eq fits alike
  obtain ⟨startKeyed, encoded⟩ := startKey_encodes index.nullPolicy fits alike padded
  have zoned : Zoned (scanZone spec) index.entries := by
    refine List.Pairwise.imp_of_mem (fun {a b} inA inB notAbove => ?_) exactly.sorted
    have keyA := keyed a inA
    have keyB := keyed b inB
    rw [compareKeys_eq keyA keyB, ne_eq, Option.some.injEq] at notAbove
    exact prefixZone_mono (keyA.length_eq.symm.trans keyB.length_eq) notAbove
  have start : ∃ n, index.startLeaf spec = some n ∧
      ∀ e ∈ (index.leaves.take n).flatten, scanZone spec e ≠ .eq := by
    rw [GenericBTreeIndex.startLeaf]
    split
    · exact ⟨0, rfl, fun e member => by cases member⟩
    · refine ⟨_, by rw [isStart, bind_eq_bind, bind_some, encoded]; rfl, ?_⟩
      intro e member inside
      have inEntries : e ∈ index.entries := by
        obtain ⟨leaf, inLeaves, inLeaf⟩ := List.mem_flatten.mp member
        exact List.mem_flatten.mpr ⟨leaf, List.mem_of_mem_take inLeaves, inLeaf⟩
      have below := exactly.descends _ encoded e member
      rw [compareKeys_eq (keyed e inEntries) startKeyed, Option.some.injEq] at below
      rw [scanZone, zone_of_under_start (keyed e inEntries) padded below] at inside
      cases inside
  obtain ⟨n, isLeaf, before⟩ := start
  have split : index.entries = (index.leaves.take n).flatten ++ (index.leaves.drop n).flatten := by
    rw [← List.flatten_append, List.take_append_drop]
    rfl
  have bounded : ((spec.lowerBound.isSome || spec.upperBound.isSome) &&
      decide (index.keyColumns.length ≤ spec.equalityPrefix.length)) = false := by
    rw [Bool.and_eq_false_iff, Bool.or_eq_false_iff, decide_eq_false_iff_not]
    by_cases inside : index.keyColumns.length ≤ spec.equalityPrefix.length
    · left
      constructor
      · cases bounded : spec.lowerBound with
        | none => rfl
        | some bound =>
          obtain ⟨col, isCol, -⟩ := fits.lower bound bounded
          exact absurd (List.getElem?_eq_some_iff.mp isCol).1 (by omega)
      · cases bounded : spec.upperBound with
        | none => rfl
        | some bound =>
          obtain ⟨col, isCol, -⟩ := fits.upper bound bounded
          exact absurd (List.getElem?_eq_some_iff.mp isCol).1 (by omega)
    · exact .inr inside
  have scanned : scanEntries spec (index.leaves.drop n).flatten =
      some ((index.leaves.drop n).flatten.filter fun e => scanZone spec e == .eq) := by
    rw [scanEntries_eq fits, scan_eq_filter]
    · rw [split] at zoned
      exact zoned.sublist (List.sublist_append_right _ _)
    · intro e member
      refine keyed e ?_
      rw [split]
      exact List.mem_append_right _ member
  have none_ : (index.leaves.take n).flatten.filter (fun e => scanZone spec e == .eq) = [] := by
    rw [List.filter_eq_nil_iff]
    exact fun e member inside => before e member (by simpa using inside)
  rw [GenericBTreeIndex.scanPrefixRange, GenericBTreeIndex.scanPrefixRangeEntries,
    if_neg (by have := fits.inside; omega), bounded, isLeaf, bind_eq_bind, bind_some,
    scanned, split, List.filter_append, none_, List.nil_append]
  rfl

end Exact

end GraniteDb.Access.ExactPrefixScan
