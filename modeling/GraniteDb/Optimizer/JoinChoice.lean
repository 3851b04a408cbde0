/- When a hash join gives the rows of the nested-loop join it stands for. -/

import GraniteDb.Execution.HashJoin
import GraniteDb.Execution.ValueText
import GraniteDb.Optimizer.PhysicalPath

namespace GraniteDb.Optimizer.JoinChoice

open Common.Value Lib.Pull Lib.Batches Execution.Expressions Execution.Operators Execution.TupleFile
open Execution.Partitions Execution.HashJoin Execution.ValueText Execution.ValueOrder
open Recovery.WalRecords (Bytes)
open Access.HeapFile (Column validateValue validate_length validateValue_type)
open Optimizer.PhysicalPath (columnExpr)

section Keys

/-- The equality the nested-loop join tests: NULL is equal to nothing. -/
def meets (v w : Value) : Bool := !v.isNull && !w.isNull && compareValues v w == some .eq

/-- Column types whose values can be joined: the same, or two integer types. -/
def joinable (a b : TypeId) : Bool := comparesExactly a && (a == b || isInteger a && isInteger b)

structure IsKey (col : Column) (v : Value) : Prop where
  valid : validateValue col v = none
  exactly : Exact v

inductive Confused (a b : Column) : Value → Value → Prop
  | nulls {s t : TypeId} (type : a.type = b.type) : Confused a b (.null s) (.null t)
  /-- NULL has the text of a string. -/
  | leftNull {t : TypeId} {s : Bytes} (text : cut (.varchar s) = .varchar nullText) :
      Confused a b (.null t) (.varchar s)
  | rightNull {t : TypeId} {s : Bytes} (text : cut (.varchar s) = .varchar nullText) :
      Confused a b (.varchar s) (.null t)
  /-- The same integer has another text in another width. -/
  | widths {v w : Value} {n : Int} (different : a.type ≠ b.type) (left : integer v = some n)
      (right : integer w = some n) : Confused a b v w
  /-- Strings of more than 32 bits of length are cut in the files. -/
  | cutStrings {s t : Bytes} (different : s ≠ t) (same : cut (.varchar s) = cut (.varchar t)) :
      Confused a b (.varchar s) (.varchar t)

/-- The keys have one text when they have come back from the files. -/
def sameText (a b : Column) (v w : Value) : Bool :=
  serializeValueForHash (keptValue a v) == serializeValueForHash (keptValue b w)

variable {a b : Column} {v w : Value}

theorem keptValue_present (col : Column) (present : v.isNull = false) : keptValue col v = cut v := by
  rw [keptValue, present, if_neg Bool.false_ne_true]

theorem IsKey.typeId (key : IsKey a v) : (keptValue a v).typeId = a.type := by
  cases present : v.isNull with
  | true => rw [keptValue, present, if_pos rfl, Value.typeId]
  | false =>
    rw [keptValue_present a present, typeId_cut]
    exact validateValue_type key.valid present

theorem sameText_iff (left : IsKey a v) (right : IsKey b w) : sameText a b v w = true ↔
    a.type = b.type ∧ serializePayload (keptValue a v) = serializePayload (keptValue b w) := by
  rw [sameText, beq_iff_eq, serialize_eq_iff, left.typeId, right.typeId]

theorem meets_integers {m n : Int} (left : integer v = some m) (right : integer w = some n)
    (exactLeft : Exact v) (exactRight : Exact w) : meets v w = true ↔ m = n := by
  have present {u : Value} {k : Int} (isInt : integer u = some k) :
      u.isNull = false ∧ isNaN u = false ∧ kind u = 3 := by
    cases u <;> first | exact ⟨rfl, rfl, rfl⟩ | cases isInt
  obtain ⟨presentLeft, numberLeft, kindLeft⟩ := present left
  obtain ⟨presentRight, numberRight, kindRight⟩ := present right
  simp only [meets, presentLeft, presentRight, Bool.not_false, Bool.true_and, beq_iff_eq]
  rw [compareValues_iff numberLeft numberRight, kindLeft, kindRight, rank_integer left exactLeft,
    rank_integer right exactRight, compare_number]
  constructor
  · intro compared
    have equal := compare_eq_iff_eq.mp compared.2.2.symm
    have scale : (0 : Int) < 2 ^ 1074 := by positivity
    exact Int.eq_of_mul_eq_mul_right (by omega) equal
  · intro equal
    rw [equal]
    exact ⟨by omega, rfl, (compare_eq_iff_eq.mpr rfl).symm⟩

theorem integer_of_type (valid : IsKey a v) (present : v.isNull = false)
    (type : isInteger a.type = true) : ∃ n, integer v = some n := by
  have own := validateValue_type valid.valid present
  rw [← own] at type
  cases v with
  | int32 n => exact ⟨n.toInt, rfl⟩
  | int64 n => exact ⟨n.toInt, rfl⟩
  | null _ => cases present
  | boolean _ | double _ | varchar _ => cases type

theorem confused_of_widths (left : IsKey a v) (right : IsKey b w) (different : a.type ≠ b.type)
    (types : joinable a.type b.type = true) :
    sameText a b v w = false ∧ (meets v w = true ↔ Confused a b v w) := by
  have text : sameText a b v w = false := by
    rw [← Bool.not_eq_true, sameText_iff left right]
    exact fun both => different both.1
  have ints : isInteger a.type = true ∧ isInteger b.type = true := by
    simp only [joinable, Bool.and_eq_true, Bool.or_eq_true, beq_iff_eq] at types
    exact types.2.resolve_left different
  refine ⟨text, ?_⟩
  constructor
  · intro met
    have presents : v.isNull = false ∧ w.isNull = false := by
      simp only [meets, Bool.and_eq_true, Bool.not_eq_true'] at met
      exact met.1
    obtain ⟨m, isM⟩ := integer_of_type left presents.1 ints.1
    obtain ⟨n, isN⟩ := integer_of_type right presents.2 ints.2
    have equal := (meets_integers isM isN left.exactly right.exactly).mp met
    rw [← equal] at isN
    exact .widths different isM isN
  · intro confused
    cases confused with
    | nulls type => exact (different type).elim
    | leftNull _ =>
      have own := validateValue_type right.valid rfl
      rw [← own] at ints
      cases ints.2
    | rightNull _ =>
      have own := validateValue_type left.valid rfl
      rw [← own] at ints
      cases ints.1
    | widths _ isM isN => exact (meets_integers isM isN left.exactly right.exactly).mpr rfl
    | cutStrings _ _ =>
      have own := validateValue_type left.valid rfl
      rw [← own] at ints
      cases ints.1

theorem eq_of_meets (left : IsKey a v) (right : IsKey b w) (same : a.type = b.type)
    (exactly : comparesExactly a.type = true) (met : meets v w = true) :
    v = w ∧ v.isNull = false := by
  simp only [meets, Bool.and_eq_true, Bool.not_eq_true', beq_iff_eq] at met
  obtain ⟨⟨presentLeft, presentRight⟩, compared⟩ := met
  have typeLeft := validateValue_type left.valid presentLeft
  have typeRight := validateValue_type right.valid presentRight
  have types : v.typeId = w.typeId := by rw [typeLeft, typeRight, same]
  refine ⟨?_, presentLeft⟩
  rcases eq_of_compareValues compared types (by rw [typeRight, ← same]; exact exactly) with
    equal | ⟨m, n, rfl, rfl, _⟩
  · exact equal
  · have met : meets (.int64 m) (.int64 n) = true := by
      rw [meets, compared]
      rfl
    have equal := (meets_integers rfl rfl left.exactly right.exactly).mp met
    rw [BitVec.eq_of_toInt_eq equal]

theorem meets_self (present : v.isNull = false) (exactly : Exact v) : meets v v = true := by
  have number : isNaN v = false := by
    cases v <;> first | rfl | cases exactly
  have compared : compareValues v v = some .eq := by
    rw [compareValues_iff number number]
    refine ⟨?_, rfl, (compare_eq_iff_eq.mpr rfl).symm⟩
    cases v with
    | null _ => cases present
    | _ => exact Nat.succ_ne_zero _
  rw [meets, present, compared]
  rfl

theorem kind_of_type (present : v.isNull = false) (exactly : Exact v) :
    kind v ≠ 0 ∧ isNaN v = false ∧ (kind v = 3 ↔ isInteger v.typeId = true) ∧
      (kind v = 1 ↔ v.typeId = .boolean) ∧ (kind v = 2 ↔ v.typeId = .varchar) := by
  cases v with
  | null _ => cases present
  | double _ => cases exactly
  | _ => simp [kind, isNaN, isInteger, Value.typeId]

theorem test_meets (left : IsKey a v) (right : IsKey b w) (types : joinable a.type b.type = true) :
    (evaluateComparison .eq v w).map valueAsBool = some (meets v w) := by
  rw [evaluateComparison, meets]
  cases presentLeft : v.isNull with
  | true => rfl
  | false =>
    cases presentRight : w.isNull with
    | true => rfl
    | false =>
      obtain ⟨some_, numberLeft, integers, bools, strings⟩ :=
        kind_of_type presentLeft left.exactly
      obtain ⟨-, numberRight, integers', bools', strings'⟩ :=
        kind_of_type presentRight right.exactly
      have typeLeft := validateValue_type left.valid presentLeft
      have typeRight := validateValue_type right.valid presentRight
      have kinds : kind v = kind w := by
        rw [typeLeft] at integers bools strings
        rw [typeRight] at integers' bools' strings'
        simp only [joinable, Bool.and_eq_true, Bool.or_eq_true, beq_iff_eq] at types
        rcases types.2 with same | both
        · rw [same] at integers bools strings
          rw [← integers'] at integers
          rw [← bools'] at bools
          rw [← strings'] at strings
          have bound (u : Value) : kind u ≤ 3 := by
            cases u <;> simp [kind]
          have boundLeft := bound v
          have boundRight := bound w
          omega
        · rw [integers.mpr both.1, integers'.mpr both.2]
      have compared : compareValues v w = some (compare (seenRank v) (seenRank w)) :=
        (compareValues_iff numberLeft numberRight).mpr ⟨some_, kinds, rfl⟩
      rw [compared]
      cases compare (seenRank v) (seenRank w) <;> rfl

theorem payload_injective (presentLeft : v.isNull = false) (presentRight : w.isNull = false)
    (same : v.typeId = w.typeId) (exactly : comparesExactly v.typeId = true)
    (text : serializePayload v = serializePayload w) : v = w := by
  cases v with
  | null _ => cases presentLeft
  | boolean x =>
    cases w with
    | boolean y =>
      revert text
      cases x <;> cases y <;> decide
    | null _ => cases presentRight
    | _ => cases same
  | int32 m =>
    cases w with
    | int32 n => rw [BitVec.eq_of_toInt_eq (decimalInt_injective text)]
    | null _ => cases presentRight
    | _ => cases same
  | int64 m =>
    cases w with
    | int64 n => rw [BitVec.eq_of_toInt_eq (decimalInt_injective text)]
    | null _ => cases presentRight
    | _ => cases same
  | double _ => cases exactly
  | varchar s =>
    cases w with
    | varchar t =>
      have strings : s = t := text
      rw [strings]
    | null _ => cases presentRight
    | _ => cases same

theorem varchar_of_nullText (present : v.isNull = false) (exactly : Exact v)
    (text : serializePayload (cut v) = nullText) :
    ∃ s, v = .varchar s ∧ cut (.varchar s) = .varchar nullText := by
  cases v with
  | null _ => cases present
  | boolean x => exact (boolText_ne_null x text).elim
  | int32 n => exact (decimalInt_ne_null _ text).elim
  | int64 n => exact (decimalInt_ne_null _ text).elim
  | double _ => cases exactly
  | varchar s =>
    rw [cut, serializePayload] at text
    exact ⟨s, rfl, by rw [cut, text]⟩

theorem confused_of_type (left : IsKey a v) (right : IsKey b w) (same : a.type = b.type)
    (exactly : comparesExactly a.type = true) :
    (meets v w = true → sameText a b v w = true) ∧
      (sameText a b v w = true ∧ meets v w = false ↔ Confused a b v w) := by
  have texts := sameText_iff left right
  have met_ : meets v w = true → sameText a b v w = true := by
    intro met
    obtain ⟨rfl, present⟩ := eq_of_meets left right same exactly met
    rw [texts, keptValue_present a present, keptValue_present b present]
    exact ⟨same, rfl⟩
  refine ⟨met_, ?_⟩
  cases presentLeft : v.isNull with
  | true =>
    have nothing : meets v w = false := by rw [meets, presentLeft]; rfl
    obtain ⟨s, rfl⟩ : ∃ s, v = .null s := by
      cases v <;> first | exact ⟨_, rfl⟩ | cases presentLeft
    cases presentRight : w.isNull with
    | true =>
      obtain ⟨t, rfl⟩ : ∃ t, w = .null t := by
        cases w <;> first | exact ⟨_, rfl⟩ | cases presentRight
      constructor
      · intro _
        exact .nulls same
      · intro _
        exact ⟨texts.mpr ⟨same, rfl⟩, nothing⟩
    | false =>
      constructor
      · intro both
        have text := (texts.mp both.1).2
        rw [keptValue_present b presentRight] at text
        obtain ⟨t, rfl, isNull⟩ := varchar_of_nullText presentRight right.exactly text.symm
        exact .leftNull isNull
      · intro confused
        refine ⟨texts.mpr ⟨same, ?_⟩, nothing⟩
        cases confused with
        | leftNull text =>
          rw [keptValue_present b presentRight, text]
          rfl
        | nulls _ => cases presentRight
        | widths _ none_ _ => cases none_
  | false =>
    cases presentRight : w.isNull with
    | true =>
      have nothing : meets v w = false := by
        rw [meets, presentRight, Bool.not_true, Bool.and_false, Bool.false_and]
      obtain ⟨t, rfl⟩ : ∃ t, w = .null t := by
        cases w <;> first | exact ⟨_, rfl⟩ | cases presentRight
      constructor
      · intro both
        have text := (texts.mp both.1).2
        rw [keptValue_present a presentLeft] at text
        obtain ⟨s, rfl, isNull⟩ := varchar_of_nullText presentLeft left.exactly text
        exact .rightNull isNull
      · intro confused
        refine ⟨texts.mpr ⟨same, ?_⟩, nothing⟩
        cases confused with
        | rightNull text =>
          rw [keptValue_present a presentLeft, text]
          rfl
        | nulls _ => cases presentLeft
        | widths _ _ none_ => cases none_
    | false =>
      have typeLeft := validateValue_type left.valid presentLeft
      have typeRight := validateValue_type right.valid presentRight
      rw [keptValue_present a presentLeft, keptValue_present b presentRight] at texts
      have cuts : sameText a b v w = true ↔ cut v = cut w := by
        rw [texts]
        constructor
        · intro both
          apply payload_injective
          · rw [isNull_cut, presentLeft]
          · rw [isNull_cut, presentRight]
          · rw [typeId_cut, typeId_cut, typeLeft, typeRight, same]
          · rw [typeId_cut, typeLeft, exactly]
          · exact both.2
        · intro equal
          exact ⟨same, by rw [equal]⟩
      rw [cuts]
      constructor
      · intro both
        obtain ⟨equal, apart⟩ := both
        have different : v ≠ w := by
          intro equal
          rw [← equal, meets_self presentLeft left.exactly] at apart
          cases apart
        cases v with
        | varchar s =>
          cases w with
          | varchar t =>
            exact .cutStrings (fun strings => different (by rw [strings])) equal
          | _ => cases equal
        | _ => cases w <;> first | exact (different equal).elim | cases equal
      · intro confused
        cases confused with
        | nulls _ => cases presentLeft
        | leftNull _ => cases presentLeft
        | rightNull _ => cases presentRight
        | widths different _ _ => exact (different same).elim
        | cutStrings different equal =>
          refine ⟨equal, ?_⟩
          rw [← Bool.not_eq_true]
          intro met
          have values := (eq_of_meets left right same exactly met).1
          exact different (Value.varchar.inj values)

end Keys

section Rows

structure JoinsOn (e : HashJoinExecutor) (i j : Nat) (a b : Column) (left right : List Row) :
    Prop where
  leftKey : e.leftKey = columnExpr i
  rightKey : e.rightKey = columnExpr j
  leftColumn : e.leftSchema[i]? = some a
  rightColumn : e.rightSchema[j]? = some b
  types : joinable a.type b.type = true
  validLeft : ∀ row ∈ left, Valid e.leftSchema row
  validRight : ∀ row ∈ right, Valid e.rightSchema row
  exactLeft : ∀ row ∈ left, Exact (columnValue i row)
  exactRight : ∀ row ∈ right, Exact (columnValue j row)

variable {e : HashJoinExecutor} {i j : Nat} {a b : Column} {left right : List Row}

theorem keptEntries_column {schema : List Column} {col : Column} {rows : List Row}
    (column : schema[i]? = some col) (valid : ∀ row ∈ rows, Valid schema row) :
    keptEntries schema (keyText (columnExpr i)) rows =
      if ∀ row ∈ rows, Fits schema row then
        some (rows.map fun row =>
          (serializeValueForHash (keptValue col (columnValue i row)), back schema row))
      else none := by
  have keys (own : List Row) (among : ∀ row ∈ own, Valid schema row) :
      entriesOf (keyText (columnExpr i)) (own.map (back schema)) = some (own.map fun row =>
        (serializeValueForHash (keptValue col (columnValue i row)), back schema row)) := by
    rw [entriesOf_iff]
    constructor
    · rw [List.map_map]
      rfl
    · intro entry member
      obtain ⟨row, inRows, rfl⟩ := List.mem_map.mp member
      have value := columnValue_back column (among row inRows)
      simp [keyText, columnExpr, Expression.evaluateRow, Expression.evaluate, value]
  rw [keptEntries, mapM_kept]
  split
  · rw [Option.bind_some, keys rows valid]
  · rfl

namespace JoinsOn

variable (on : JoinsOn e i j a b left right)
include on

theorem isKeyLeft : ∀ l ∈ left, IsKey a (columnValue i l) := fun l inLeft =>
  ⟨(columnValue_eq on.leftColumn (on.validLeft l inLeft)).2, on.exactLeft l inLeft⟩

theorem isKeyRight : ∀ r ∈ right, IsKey b (columnValue j r) := fun r inRight =>
  ⟨(columnValue_eq on.rightColumn (on.validRight r inRight)).2, on.exactRight r inRight⟩

theorem exactly : comparesExactly a.type = true := by
  have types := on.types
  rw [joinable, Bool.and_eq_true] at types
  exact types.1

end JoinsOn

def equality (i j : Nat) : Expression := .comparison .eq (.column .left i) (.column .right j)

theorem nestedLoopJoin_eq (on : JoinsOn e i j a b left right) :
    nestedLoopJoin (.ofList left) (.ofList right) (equality i j) = Pull.ofList
      (joinOn (fun l r => meets (columnValue i l) (columnValue j r)) (· ++ ·) left right) := by
  apply Pull.bind_ofList
  intro l inLeft
  rw [@Pull.filter_ofList _ _ (fun r => meets (columnValue i l) (columnValue j r)),
    Pull.map_ofList]
  intro r inRight
  obtain ⟨leftValue, validLeft⟩ := columnValue_eq on.leftColumn (on.validLeft l inLeft)
  obtain ⟨rightValue, validRight⟩ := columnValue_eq on.rightColumn (on.validRight r inRight)
  have tested := test_meets ⟨validLeft, on.exactLeft l inLeft⟩ ⟨validRight, on.exactRight r inRight⟩
    on.types
  simp [equality, Expression.evaluate, leftValue, rightValue, tested]

theorem textPairs_column (e : HashJoinExecutor) (i j : Nat) (a b : Column)
    (left right : List Row) : textPairs
      (left.map fun l => (serializeValueForHash (keptValue a (columnValue i l)), back e.leftSchema l))
      (right.map fun r =>
        (serializeValueForHash (keptValue b (columnValue j r)), back e.rightSchema r)) =
      joinOn (fun l r => sameText a b (columnValue i l) (columnValue j r))
        (fun l r => back e.leftSchema l ++ back e.rightSchema r) left right := by
  rw [textPairs, joinOn_map]
  rfl

/-- What makes the hash join a nested-loop join: the files keep all rows, no two keys are confused,
and the rows that are joined come back as they were. -/
structure JoinsAlike (e : HashJoinExecutor) (i j : Nat) (a b : Column) (left right : List Row) :
    Prop where
  fitsLeft : ∀ l ∈ left, Fits e.leftSchema l
  fitsRight : ∀ r ∈ right, Fits e.rightSchema r
  clear : ∀ l ∈ left, ∀ r ∈ right, ¬ Confused a b (columnValue i l) (columnValue j r)
  whole : ∀ l ∈ left, ∀ r ∈ right, meets (columnValue i l) (columnValue j r) = true →
    back e.leftSchema l = l ∧ back e.rightSchema r = r

theorem JoinsAlike.pairs (alike : JoinsAlike e i j a b left right)
    (on : JoinsOn e i j a b left right) :
    joinOn (fun l r => sameText a b (columnValue i l) (columnValue j r))
        (fun l r => back e.leftSchema l ++ back e.rightSchema r) left right =
      joinOn (fun l r => meets (columnValue i l) (columnValue j r)) (· ++ ·) left right := by
  have agree : ∀ l ∈ left, ∀ r ∈ right, sameText a b (columnValue i l) (columnValue j r) =
      meets (columnValue i l) (columnValue j r) := by
    intro l inLeft r inRight
    have keyLeft := on.isKeyLeft l inLeft
    have keyRight := on.isKeyRight r inRight
    have clear := alike.clear l inLeft r inRight
    by_cases same : a.type = b.type
    · obtain ⟨implies, confused⟩ := confused_of_type keyLeft keyRight same on.exactly
      cases met : meets (columnValue i l) (columnValue j r) with
      | true => exact implies met
      | false =>
        rw [← Bool.not_eq_true]
        exact fun text => clear (confused.mp ⟨text, met⟩)
    · obtain ⟨apart, confused⟩ := confused_of_widths keyLeft keyRight same on.types
      rw [apart, eq_comm, ← Bool.not_eq_true]
      exact fun met => clear (confused.mp met)
  apply joinOn_congr agree
  intro l inLeft r inRight text
  rw [agree l inLeft r inRight] at text
  obtain ⟨wholeLeft, wholeRight⟩ := alike.whole l inLeft r inRight text
  rw [wholeLeft, wholeRight]

theorem joinsAlike_of_pairs (on : JoinsOn e i j a b left right)
    (fitsLeft : ∀ l ∈ left, Fits e.leftSchema l) (fitsRight : ∀ r ∈ right, Fits e.rightSchema r)
    (pairs : (joinOn (fun l r => sameText a b (columnValue i l) (columnValue j r))
        (fun l r => back e.leftSchema l ++ back e.rightSchema r) left right).Perm
      (joinOn (fun l r => meets (columnValue i l) (columnValue j r)) (· ++ ·) left right)) :
    JoinsAlike e i j a b left right := by
  have lengths := pairs.length_eq
  -- By number already, no pair can be in only one of the two joins.
  have agree : ∀ l ∈ left, ∀ r ∈ right, sameText a b (columnValue i l) (columnValue j r) =
      meets (columnValue i l) (columnValue j r) := by
    by_cases same : a.type = b.type
    · have implies : ∀ l ∈ left, ∀ r ∈ right, meets (columnValue i l) (columnValue j r) = true →
          sameText a b (columnValue i l) (columnValue j r) = true := fun l inLeft r inRight =>
        (confused_of_type (on.isKeyLeft l inLeft) (on.isKeyRight r inRight) same on.exactly).1
      intro l inLeft r inRight
      exact (same_of_length implies lengths.symm l inLeft r inRight).symm
    · have never : ∀ l ∈ left, ∀ r ∈ right, sameText a b (columnValue i l) (columnValue j r) = true →
          meets (columnValue i l) (columnValue j r) = true := by
        intro l inLeft r inRight text
        have apart := (confused_of_widths (on.isKeyLeft l inLeft) (on.isKeyRight r inRight) same
          on.types).1
        rw [apart] at text
        cases text
      exact same_of_length never lengths
  refine ⟨fitsLeft, fitsRight, ?_, ?_⟩
  · intro l inLeft r inRight confused
    have equal := agree l inLeft r inRight
    have keyLeft := on.isKeyLeft l inLeft
    have keyRight := on.isKeyRight r inRight
    by_cases same : a.type = b.type
    · have both := (confused_of_type keyLeft keyRight same on.exactly).2.mpr confused
      rw [both.1, both.2] at equal
      cases equal
    · have both := confused_of_widths keyLeft keyRight same on.types
      rw [both.1, both.2.mpr confused] at equal
      cases equal
  · intro l inLeft r inRight met
    have joined : l ++ r ∈ joinOn (fun l r => meets (columnValue i l) (columnValue j r)) (· ++ ·)
        left right := mem_joinOn.mpr ⟨l, inLeft, r, inRight, met, rfl⟩
    obtain ⟨l', inLeft', r', inRight', -, row⟩ := mem_joinOn.mp (pairs.mem_iff.mpr joined)
    have validLeft' := on.validLeft l' inLeft'
    have lengthLeft : (back e.leftSchema l').length = l.length := by
      rw [length_back validLeft', validate_length validLeft',
        validate_length (on.validLeft l inLeft)]
    obtain ⟨fromLeft, fromRight⟩ := List.append_inj row lengthLeft
    constructor
    · rw [← fromLeft, back_back validLeft' (fitsLeft l' inLeft')]
    · rw [← fromRight, back_back (on.validRight r' inRight') (fitsRight r' inRight')]

/-- A hash join gives the rows of the nested-loop join exactly when the files keep all rows, no two
keys are confused, and the joined rows come back as they were. -/
theorem same_answer_iff (on : JoinsOn e i j a b left right) (hash : Bytes → Nat) :
    (∃ p, Outputs e hash (.ofList left) (.ofList right) p ∧
        p.multiset = (nestedLoopJoin (.ofList left) (.ofList right) (equality i j)).multiset) ↔
      JoinsAlike e i j a b left right := by
  obtain ⟨p, outputs, rows⟩ := outputs_textPairs (e := e) hash on.validLeft on.validRight
  have nested : (nestedLoopJoin (.ofList left) (.ofList right) (equality i j)).multiset =
      some (joinOn (fun l r => meets (columnValue i l) (columnValue j r)) (· ++ ·) left right :
        Multiset Row) := by
    rw [nestedLoopJoin_eq on, Pull.multiset_ofList]
  rw [on.leftKey, on.rightKey, keptEntries_column on.leftColumn on.validLeft,
    keptEntries_column on.rightColumn on.validRight] at rows
  constructor
  · intro same
    obtain ⟨p', outputs', same⟩ := same
    obtain rfl := Outputs.unique outputs outputs'
    rw [same, nested] at rows
    split at rows
    case h_2 => cases rows
    rename_i l r readLeft readRight
    split at readLeft
    case isFalse => cases readLeft
    rename_i fitsLeft
    split at readRight
    case isFalse => cases readRight
    rename_i fitsRight
    cases readLeft
    cases readRight
    rw [Option.some.injEq, textPairs_column, Multiset.coe_eq_coe] at rows
    exact joinsAlike_of_pairs on fitsLeft fitsRight rows.symm
  · intro alike
    refine ⟨p, outputs, ?_⟩
    rw [rows, nested, if_pos alike.fitsLeft, if_pos alike.fitsRight]
    simp only [textPairs_column, alike.pairs on]

theorem joinsOn_widths : JoinsOn ⟨[⟨⟨"a", .int32⟩, true, 0⟩], [⟨⟨"b", .int64⟩, true, 0⟩],
    columnExpr 0, columnExpr 0, true, 4096⟩ 0 0 ⟨⟨"a", .int32⟩, true, 0⟩ ⟨⟨"b", .int64⟩, true, 0⟩
    [[.int32 1]] [[.int64 1]] :=
  ⟨rfl, rfl, rfl, rfl, rfl, by decide, by decide, by decide, by decide⟩

theorem same_answer_iff_widths :
    (∃ p, Outputs ⟨[⟨⟨"a", .int32⟩, true, 0⟩], [⟨⟨"b", .int64⟩, true, 0⟩], columnExpr 0,
        columnExpr 0, true, 4096⟩ List.length (.ofList [[.int32 1]]) (.ofList [[.int64 1]]) p ∧
      p.multiset = (nestedLoopJoin (.ofList [[.int32 1]]) (.ofList [[.int64 1]])
        (equality 0 0)).multiset) ↔
      JoinsAlike ⟨[⟨⟨"a", .int32⟩, true, 0⟩], [⟨⟨"b", .int64⟩, true, 0⟩], columnExpr 0,
        columnExpr 0, true, 4096⟩ 0 0 ⟨⟨"a", .int32⟩, true, 0⟩ ⟨⟨"b", .int64⟩, true, 0⟩
        [[.int32 1]] [[.int64 1]] :=
  same_answer_iff joinsOn_widths List.length

/-- The integer 1 in 32 and in 64 bits: the nested-loop join pairs the rows, the hash join does
not. -/
theorem widths_lose_a_row : ¬ ∀ (e : HashJoinExecutor) (i j : Nat) (a b : Column)
    (left right : List Row) (hash : Bytes → Nat), JoinsOn e i j a b left right →
    ∃ p, Outputs e hash (.ofList left) (.ofList right) p ∧
      p.multiset = (nestedLoopJoin (.ofList left) (.ofList right) (equality i j)).multiset := by
  intro all
  have on := joinsOn_widths
  obtain ⟨p, outputs, same⟩ := all _ _ _ _ _ _ _ List.length on
  obtain ⟨p', outputs', rows⟩ := outputs_textPairs List.length on.validLeft on.validRight
  obtain rfl := Outputs.unique outputs outputs'
  rw [rows] at same
  revert same
  decide +kernel

end Rows

end GraniteDb.Optimizer.JoinChoice
