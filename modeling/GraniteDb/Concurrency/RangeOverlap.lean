/- Key ranges without NaN: matching is transitive, and a common key means overlap. -/

import GraniteDb.Concurrency.LockManager
import GraniteDb.Execution.Operators
import GraniteDb.Execution.ValueOrder
import Mathlib.Data.List.Forall2

namespace GraniteDb.Concurrency.RangeOverlap

open Common.Value Execution.Expressions Execution.Operators Execution.ValueOrder
open Concurrency.LockManager
open Access.IndexScan (isUnder isOver rangeVerdict rangeVerdict_within)

def plainKey (key : List Value) : Bool := key.all fun v => !isNaN v

def plainRange (range : KeyRange) : Bool := range.lower.all plainKey && range.upper.all plainKey

def Alike (a b : Value) : Prop := kind a ≠ 0 ∧ kind a = kind b ∧ seenRank a = seenRank b

theorem Alike.symm {a b : Value} (alike : Alike a b) : Alike b a :=
  ⟨alike.2.1 ▸ alike.1, alike.2.1.symm, alike.2.2.symm⟩

theorem Alike.trans {a b c : Value} (first : Alike a b) (second : Alike b c) : Alike a c :=
  ⟨first.1, first.2.1.trans second.2.1, first.2.2.trans second.2.2⟩

theorem plainKey_cons {v : Value} {key : List Value} :
    plainKey (v :: key) = true ↔ isNaN v = false ∧ plainKey key = true := by
  simp [plainKey]

private theorem compareKeys_eq_iff {a b : List Value} (left : plainKey a = true)
    (right : plainKey b = true) (sameLength : a.length = b.length) :
    compareKeys a b = some .eq ↔ List.Forall₂ Alike a b := by
  induction a generalizing b with
  | nil =>
    cases b with
    | nil => simp [compareKeys]
    | cons _ _ => cases sameLength
  | cons x a ih =>
    cases b with
    | nil => cases sameLength
    | cons y b =>
      obtain ⟨numberX, plainA⟩ := plainKey_cons.mp left
      obtain ⟨numberY, plainB⟩ := plainKey_cons.mp right
      have rest := ih plainA plainB (by simpa using sameLength)
      have head : compareValues x y = some .eq ↔ Alike x y := by
        rw [compareValues_iff numberX numberY, @eq_comm _ Ordering.eq, compare_eq_iff_eq]
        rfl
      rw [List.forall₂_cons, ← rest, ← head, compareKeys]
      cases compared : compareValues x y with
      | none => simp
      | some o => cases o <;> simp

theorem compareKeyVectors_eq_iff {a b : List Value} (left : plainKey a = true)
    (right : plainKey b = true) : compareKeyVectors a b = some .eq ↔ List.Forall₂ Alike a b := by
  unfold compareKeyVectors
  split
  · rename_i sameLength
    exact compareKeys_eq_iff left right sameLength
  · rename_i lengths
    constructor
    · rintro ⟨⟩
    · intro alike
      exact absurd alike.length_eq lengths

private theorem sameOptionalKey_iff {a b : Option (List Value)}
    (left : a.all plainKey = true) (right : b.all plainKey = true) :
    sameOptionalKey a b = some true ↔ Option.Rel (List.Forall₂ Alike) a b := by
  cases a with
  | none =>
    cases b with
    | none => exact ⟨fun _ => .none, fun _ => rfl⟩
    | some y =>
      constructor <;> rintro ⟨⟩
  | some x =>
    cases b with
    | none =>
      constructor <;> rintro ⟨⟩
    | some y =>
      rw [Option.rel_some_some, ← compareKeyVectors_eq_iff (by simpa using left)
        (by simpa using right), sameOptionalKey]
      cases compareKeyVectors x y with
      | none => simp
      | some o => cases o <;> simp

section Matching

structure SameBounds (a b : KeyRange) : Prop where
  lower : Option.Rel (List.Forall₂ Alike) a.lower b.lower
  upper : Option.Rel (List.Forall₂ Alike) a.upper b.upper
  lowerInclusive : a.lowerInclusive = b.lowerInclusive
  upperInclusive : a.upperInclusive = b.upperInclusive

variable {a b : Option (List Value)}

private theorem isSome_of_rel (related : Option.Rel (List.Forall₂ Alike) a b) :
    a.isSome = b.isSome := by
  cases related <;> rfl

theorem sameRange_iff {a b : KeyRange} (left : plainRange a = true) (right : plainRange b = true) :
    sameRange (some a) (some b) = some true ↔ SameBounds a b := by
  obtain ⟨lowerA, upperA⟩ := Bool.and_eq_true_iff.mp left
  obtain ⟨lowerB, upperB⟩ := Bool.and_eq_true_iff.mp right
  have lowers := sameOptionalKey_iff lowerA lowerB
  have uppers := sameOptionalKey_iff upperA upperB
  unfold sameRange
  constructor
  · intro same
    simp only at same
    split at same
    · cases same
    · rename_i shape
      simp only [Bool.or_eq_true, bne_iff_ne, ne_eq, not_or, not_not] at shape
      simp only [Option.bind_eq_bind, Option.bind_eq_some_iff] at same
      obtain ⟨b, sameLower, rest⟩ := same
      cases b with
      | false => cases rest
      | true => exact ⟨lowers.mp sameLower, uppers.mp rest, shape.1.2, shape.2⟩
  · intro same
    have shape : (a.lower.isSome != b.lower.isSome || a.upper.isSome != b.upper.isSome ||
        a.lowerInclusive != b.lowerInclusive || a.upperInclusive != b.upperInclusive) = false := by
      simp [isSome_of_rel same.lower, isSome_of_rel same.upper, same.lowerInclusive,
        same.upperInclusive]
    simp [shape, lowers.mpr same.lower, uppers.mpr same.upper]

private theorem rel_symm (related : Option.Rel (List.Forall₂ Alike) a b) :
    Option.Rel (List.Forall₂ Alike) b a := by
  cases related with
  | none => exact .none
  | some alike => exact .some (alike.flip.imp fun _ _ => Alike.symm)

private theorem forall₂_trans {a b c : List Value} (first : List.Forall₂ Alike a b)
    (second : List.Forall₂ Alike b c) : List.Forall₂ Alike a c := by
  induction first generalizing c with
  | nil => exact second
  | cons head _ ih =>
    cases second with
    | cons head' tail' => exact .cons (head.trans head') (ih tail')

private theorem rel_trans {c : Option (List Value)} (first : Option.Rel (List.Forall₂ Alike) a b)
    (second : Option.Rel (List.Forall₂ Alike) b c) :
    Option.Rel (List.Forall₂ Alike) a c := by
  cases first with
  | none => exact second
  | some alike =>
    cases second with
    | some alike' => exact .some (forall₂_trans alike alike')

theorem SameBounds.symm {a b : KeyRange} (same : SameBounds a b) : SameBounds b a :=
  ⟨rel_symm same.lower, rel_symm same.upper, same.lowerInclusive.symm, same.upperInclusive.symm⟩

theorem SameBounds.trans {a b c : KeyRange} (first : SameBounds a b) (second : SameBounds b c) :
    SameBounds a c :=
  ⟨rel_trans first.lower second.lower, rel_trans first.upper second.upper,
    first.lowerInclusive.trans second.lowerInclusive,
    first.upperInclusive.trans second.upperInclusive⟩

end Matching

section Common

/-- The range `IndexScanExecutor::Init` asks a lock for. -/
def lockRange : ScanMode → KeyRange
  | .full => ⟨none, none, true, true⟩
  | .equality key => ⟨some [key], some [key], true, true⟩
  | .range lower upper lowerInclusive upperInclusive =>
    ⟨lower.map fun v => [v], upper.map fun v => [v], lowerInclusive, upperInclusive⟩

/-- `IndexScanExecutor::KeyWithinBounds`; `none` is an exception. -/
def keyWithinBounds : ScanMode → Value → Option Bool
  | .full, _ => some true
  | .equality key, v => (compareValues v key).map (· == .eq)
  | .range lower upper lowerInclusive upperInclusive, v =>
    (rangeVerdict lower upper lowerInclusive upperInclusive v).map (· == .within)

def pointRange (key : List Value) : KeyRange := ⟨some key, some key, true, true⟩

def Above (bound : Option (List Value)) (inclusive : Bool) (v : Value) : Prop :=
  ∀ l, bound = some l → ∃ x, l = [x] ∧ kind v ≠ 0 ∧ kind v = kind x ∧
    (seenRank x < seenRank v ∨ (seenRank x = seenRank v ∧ inclusive = true))

def Below (bound : Option (List Value)) (inclusive : Bool) (v : Value) : Prop :=
  ∀ u, bound = some u → ∃ x, u = [x] ∧ kind v ≠ 0 ∧ kind v = kind x ∧
    (seenRank v < seenRank x ∨ (seenRank v = seenRank x ∧ inclusive = true))

structure Contains (range : KeyRange) (v : Value) : Prop where
  above : Above range.lower range.lowerInclusive v
  below : Below range.upper range.upperInclusive v

variable {bound : Option Value} {v : Value} {a b : KeyRange}

private theorem above_of_isUnder {inclusive : Bool} (number : isNaN v = false)
    (numbers : bound.all (fun x => !isNaN x) = true)
    (notUnder : isUnder bound inclusive v = some false) :
    Above (bound.map fun x => [x]) inclusive v := by
  rintro l isBound
  cases bound with
  | none => cases isBound
  | some x =>
    cases isBound
    have numberX : isNaN x = false := by simpa using numbers
    obtain ⟨o, compared, verdict⟩ := Option.map_eq_some_iff.mp notUnder
    obtain ⟨comparable, sameKind, rfl⟩ := (compareValues_iff number numberX).mp compared
    refine ⟨x, rfl, comparable, sameKind, ?_⟩
    rcases lt_trichotomy (seenRank v) (seenRank x) with less | same | greater
    · rw [compare_lt_iff_lt.mpr less] at verdict
      cases verdict
    · rw [compare_eq_iff_eq.mpr same] at verdict
      exact .inr ⟨same.symm, by simpa using verdict⟩
    · exact .inl greater

private theorem below_of_isOver {inclusive : Bool} (number : isNaN v = false)
    (numbers : bound.all (fun x => !isNaN x) = true)
    (notOver : isOver bound inclusive v = some false) :
    Below (bound.map fun x => [x]) inclusive v := by
  rintro u isBound
  cases bound with
  | none => cases isBound
  | some x =>
    cases isBound
    have numberX : isNaN x = false := by simpa using numbers
    obtain ⟨o, compared, verdict⟩ := Option.map_eq_some_iff.mp notOver
    obtain ⟨comparable, sameKind, rfl⟩ := (compareValues_iff number numberX).mp compared
    refine ⟨x, rfl, comparable, sameKind, ?_⟩
    rcases lt_trichotomy (seenRank v) (seenRank x) with less | same | greater
    · exact .inl less
    · rw [compare_eq_iff_eq.mpr same] at verdict
      exact .inr ⟨same, by simpa using verdict⟩
    · rw [compare_gt_iff_gt.mpr greater] at verdict
      cases verdict

theorem contains_point (comparable : kind v ≠ 0) : Contains (pointRange [v]) v := by
  constructor
  · rintro l ⟨⟩
    exact ⟨v, rfl, comparable, rfl, .inr ⟨rfl, rfl⟩⟩
  · rintro u ⟨⟩
    exact ⟨v, rfl, comparable, rfl, .inr ⟨rfl, rfl⟩⟩

private theorem all_singleton (plain : (bound.map fun v => [v]).all plainKey = true) :
    bound.all (fun x => !isNaN x) = true := by
  cases bound with
  | none => rfl
  | some x => simpa [plainKey] using plain

theorem contains_lockRange {mode : ScanMode} (number : isNaN v = false)
    (plain : plainRange (lockRange mode) = true) (within : keyWithinBounds mode v = some true) :
    Contains (lockRange mode) v := by
  cases mode with
  | full => constructor <;> rintro _ ⟨⟩
  | equality key =>
    have numberKey : isNaN key = false := by
      simpa [plainRange, lockRange, plainKey] using plain
    obtain ⟨o, compared, isEq⟩ := Option.map_eq_some_iff.mp within
    obtain ⟨comparable, sameKind, rfl⟩ := (compareValues_iff number numberKey).mp compared
    have sameRank : seenRank v = seenRank key := compare_eq_iff_eq.mp (by simpa using isEq)
    constructor
    · rintro l ⟨⟩
      exact ⟨key, rfl, comparable, sameKind, .inr ⟨sameRank.symm, rfl⟩⟩
    · rintro u ⟨⟩
      exact ⟨key, rfl, comparable, sameKind, .inr ⟨sameRank, rfl⟩⟩
  | range lower upper lowerInclusive upperInclusive =>
    obtain ⟨plainLower, plainUpper⟩ := Bool.and_eq_true_iff.mp plain
    obtain ⟨verdict, isVerdict, isWithin⟩ := Option.map_eq_some_iff.mp within
    rw [beq_iff_eq.mp isWithin] at isVerdict
    obtain ⟨notUnder, notOver⟩ := rangeVerdict_within isVerdict
    exact ⟨above_of_isUnder number (all_singleton plainLower) notUnder,
      below_of_isOver number (all_singleton plainUpper) notOver⟩

theorem Contains.same (same : SameBounds a b) (contains : Contains b v) : Contains a v := by
  constructor
  · intro l isBound
    have related := same.lower
    rw [isBound] at related
    cases isOther : b.lower with
    | none =>
      rw [isOther] at related
      cases related
    | some l' =>
      rw [isOther] at related
      cases related with
      | some alike =>
        obtain ⟨x, rfl, comparable, sameKind, order⟩ := contains.above l' isOther
        obtain ⟨y, rfl⟩ := List.length_eq_one_iff.mp alike.length_eq
        obtain ⟨-, kinds, ranks⟩ := (List.forall₂_cons.mp alike).1
        exact ⟨y, rfl, comparable, sameKind.trans kinds.symm,
          by rw [ranks, same.lowerInclusive]; exact order⟩
  · intro u isBound
    have related := same.upper
    rw [isBound] at related
    cases isOther : b.upper with
    | none =>
      rw [isOther] at related
      cases related
    | some u' =>
      rw [isOther] at related
      cases related with
      | some alike =>
        obtain ⟨x, rfl, comparable, sameKind, order⟩ := contains.below u' isOther
        obtain ⟨y, rfl⟩ := List.length_eq_one_iff.mp alike.length_eq
        obtain ⟨-, kinds, ranks⟩ := (List.forall₂_cons.mp alike).1
        exact ⟨y, rfl, comparable, sameKind.trans kinds.symm,
          by rw [ranks, same.upperInclusive]; exact order⟩

private theorem rangeEndsBefore_of_common (left : plainRange a = true) (right : plainRange b = true)
    (below : Below a.upper a.upperInclusive v) (above : Above b.lower b.lowerInclusive v) :
    rangeEndsBefore a b = some false := by
  unfold rangeEndsBefore
  cases isUpper : a.upper with
  | none => rfl
  | some u =>
    cases isLower : b.lower with
    | none => rfl
    | some l =>
      obtain ⟨x, rfl, comparable, kindX, orderX⟩ := below u isUpper
      obtain ⟨y, rfl, -, kindY, orderY⟩ := above l isLower
      have numberX : isNaN x = false := by
        have plain := (Bool.and_eq_true_iff.mp left).2
        rw [isUpper] at plain
        simpa [plainKey] using plain
      have numberY : isNaN y = false := by
        have plain := (Bool.and_eq_true_iff.mp right).1
        rw [isLower] at plain
        simpa [plainKey] using plain
      have compared : compareValues x y = some (compare (seenRank x) (seenRank y)) :=
        (compareValues_iff numberX numberY).mpr
          ⟨kindX ▸ comparable, kindX.symm.trans kindY, rfl⟩
      have keys : compareKeyVectors [x] [y] = some (compare (seenRank x) (seenRank y)) := by
        simp only [compareKeyVectors, compareKeys, compared, List.length_singleton, if_true,
          Option.bind_eq_bind, Option.bind_some]
        split
        · rename_i same
          rw [same]
        · rfl
      have ordered : seenRank y ≤ seenRank x := by
        have lower : seenRank y ≤ seenRank v := by
          rcases orderY with less | ⟨same, -⟩
          · exact less.le
          · exact same.le
        have upper : seenRank v ≤ seenRank x := by
          rcases orderX with less | ⟨same, -⟩
          · exact less.le
          · exact same.le
        exact lower.trans upper
      simp only [keys, Option.map_some, Option.some.injEq]
      rcases ordered.lt_or_eq with less | same
      · rw [compare_gt_iff_gt.mpr less]
        rfl
      · -- The bounds meet at the common key, so both are inclusive.
        rw [compare_eq_iff_eq.mpr same.symm]
        have closed : a.upperInclusive = true ∧ b.lowerInclusive = true := by
          rcases orderX with lessX | ⟨sameX, closedX⟩
          · rcases orderY with lessY | ⟨sameY, -⟩
            · exact absurd (lessY.trans lessX) (same ▸ lt_irrefl _)
            · exact absurd lessX (by rw [← sameY, same]; exact lt_irrefl _)
          · rcases orderY with lessY | ⟨-, closedY⟩
            · exact absurd lessY (by rw [sameX, same]; exact lt_irrefl _)
            · exact ⟨closedX, closedY⟩
        simp [closed.1, closed.2]

theorem rangesOverlap_of_common (left : plainRange a = true) (right : plainRange b = true)
    (inLeft : Contains a v) (inRight : Contains b v) :
    rangesOverlap a b = some true := by
  have first := rangeEndsBefore_of_common left right inLeft.below inRight.above
  have second := rangeEndsBefore_of_common right left inRight.below inLeft.above
  simp [rangesOverlap, first, second]

end Common

end GraniteDb.Concurrency.RangeOverlap
