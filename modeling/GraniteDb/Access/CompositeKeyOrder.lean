/- When composite keys come back from their bytes and keep the order of their values. -/

import GraniteDb.Access.CompositeKeyCodec
import Mathlib.Data.BitVec

namespace GraniteDb.Access.CompositeKeyOrder

open Common.Double Common.Value Execution.Expressions Storage.HeapTupleCodec
open Access.CompositeKeyCodec
open Recovery.WalRecords (Bytes leBytes leNat length_leBytes)
open Recovery.WalFormat (leNat_leBytes)
open Execution.ValueOrder (isNaN_ofInt)
open Execution.TupleFile (fieldBytes Short cut_of_short fieldBytes_eq)
open Access.HeapFile (payloadBytes)
open Access.IndexScan (IndexKeyColumnDefinition NullPolicy compareWithNullPolicy)
open List (mem_cons_self mem_cons_of_mem flatMap_cons length_append)

def valueOrder : Value → Value → Ordering
  | .boolean x, .boolean y => compareBools x y
  | .int32 x, .int32 y => compare x.toInt y.toInt
  | .int64 x, .int64 y => compare x.toInt y.toInt
  | .varchar x, .varchar y => compareBytes x y
  | _, _ => .eq

def keyOrder : List Value → List Value → Ordering
  | x :: xs, y :: ys => (valueOrder x y).then (keyOrder xs ys)
  | _, _ => .eq

def blurred : Value → Value → Bool
  | .int64 m, .int64 n =>
    m ≠ n && (Double.ofInt m.toInt).scaled = (Double.ofInt n.toInt).scaled
  | _, _ => false

/-- The first column whose values are neither equal nor blurred has this order. -/
def DecidedAs (o : Ordering) : List Value → List Value → Prop
  | x :: xs, y :: ys => if x = y ∨ blurred x y then DecidedAs o xs ys else valueOrder x y = o
  | _, _ => False

/-- The first column whose values differ is not blurred, or a later column decides as it would. -/
def ToldApart : List Value → List Value → Prop
  | x :: xs, y :: ys =>
    if x = y then ToldApart xs ys else blurred x y → DecidedAs (valueOrder x y) xs ys
  | _, _ => True

def keyBytes (key : List Value) : Nat := (key.map fun v => 1 + payloadBytes v).sum

theorem compare_toInt_eq {w : Nat} {m n : BitVec w} : compare m.toInt n.toInt = .eq ↔ m = n := by
  rw [compare_eq_iff_eq]
  exact BitVec.toInt_inj

theorem compareBools_eq_iff {x y : Bool} : compareBools x y = .eq ↔ x = y := by
  cases x <;> cases y <;> decide

theorem compareBytes_eq_iff {x y : List UInt8} : compareBytes x y = .eq ↔ x = y := by
  rw [compareBytes]
  constructor
  · intro same
    split at same
    · cases same
    · rename_i notLess
      split at same
      · cases same
      · rename_i notGreater
        exact List.le_antisymm notGreater notLess
  · rintro rfl
    rw [if_neg (List.lt_irrefl x), if_neg (List.lt_irrefl x)]

theorem compareDoubles_ofInt {m n : Int} (smallM : m.natAbs < 2 ^ 64) (smallN : n.natAbs < 2 ^ 64) :
    compareDoubles (.ofInt m) (.ofInt n) =
      if (Double.ofInt m).scaled = (Double.ofInt n).scaled then .eq else compare m n := by
  rw [compareDoubles, Double.lt, Double.lt, isNaN_ofInt, isNaN_ofInt]
  simp only [Bool.not_false, Bool.true_and, decide_eq_true_eq]
  rcases lt_trichotomy m n with less | rfl | greater
  · have ordered := Double.scaled_ofInt_mono (Int.le_of_lt less) smallM smallN
    rw [compare_lt_iff_lt.mpr less]
    split_ifs <;> first | rfl | omega
  · simp
  · have ordered := Double.scaled_ofInt_mono (Int.le_of_lt greater) smallN smallM
    rw [compare_gt_iff_gt.mpr greater]
    split_ifs <;> first | rfl | omega

theorem toInt_small {w : Nat} (narrow : w ≤ 64) (n : BitVec w) : n.toInt.natAbs < 2 ^ 64 := by
  have lower := @BitVec.le_toInt w n
  have upper := @BitVec.toInt_lt w n
  have width : (2 : Int) ^ (w - 1) ≤ 2 ^ 63 := by
    exact_mod_cast Nat.pow_le_pow_right (show 0 < 2 by omega) (show w - 1 ≤ 63 by omega)
  omega

theorem valueOrder_eq {x y : Value} (type : x.typeId = y.typeId)
    (exactly : comparesExactly y.typeId = true) (presentX : x.isNull = false)
    (presentY : y.isNull = false) : valueOrder x y = .eq ↔ x = y := by
  cases x with
  | null t => cases presentX
  | boolean a =>
    cases y with
    | boolean b => simpa [valueOrder] using compareBools_eq_iff
    | null t => cases presentY
    | _ => cases type
  | int32 a =>
    cases y with
    | int32 b => simpa [valueOrder] using compare_toInt_eq
    | null t => cases presentY
    | _ => cases type
  | int64 a =>
    cases y with
    | int64 b => simpa [valueOrder] using compare_toInt_eq
    | null t => cases presentY
    | _ => cases type
  | varchar a =>
    cases y with
    | varchar b => simpa [valueOrder] using compareBytes_eq_iff
    | null t => cases presentY
    | _ => cases type
  | double d =>
    rw [← type] at exactly
    cases exactly

theorem compareValues_order {x y : Value} (type : x.typeId = y.typeId)
    (exactly : comparesExactly y.typeId = true) (presentX : x.isNull = false)
    (presentY : y.isNull = false) :
    compareValues x y = some (if blurred x y then .eq else valueOrder x y) := by
  cases x with
  | null t => cases presentX
  | boolean a =>
    cases y with
    | boolean b => rfl
    | null t => cases presentY
    | _ => cases type
  | varchar a =>
    cases y with
    | varchar b => rfl
    | null t => cases presentY
    | _ => cases type
  | int32 a =>
    cases y with
    | int32 b =>
      have exact (z : BitVec 32) : z.toInt.natAbs < 2 ^ 53 := by
        have lower := @BitVec.le_toInt 32 z
        have upper := @BitVec.toInt_lt 32 z
        omega
      have scale : (2 : Int) ^ 1074 ≠ 0 := Int.pow_ne_zero (by decide)
      have injective : (Double.ofInt a.toInt).scaled = (Double.ofInt b.toInt).scaled ↔
          a.toInt = b.toInt := by
        rw [Double.scaled_ofInt (exact a), Double.scaled_ofInt (exact b)]
        exact Int.mul_eq_mul_right_iff scale
      show some (compareDoubles _ _) = some (compare _ _)
      rw [compareDoubles_ofInt (toInt_small (by omega) a) (toInt_small (by omega) b)]
      split_ifs with same
      · rw [compare_eq_iff_eq.mpr (injective.mp same)]
      · rfl
    | null t => cases presentY
    | _ => cases type
  | int64 a =>
    cases y with
    | int64 b =>
      show some (compareDoubles _ _) = _
      rw [compareDoubles_ofInt (toInt_small (by omega) a) (toInt_small (by omega) b),
        blurred, valueOrder]
      by_cases same : (Double.ofInt a.toInt).scaled = (Double.ofInt b.toInt).scaled
      · by_cases equal : a = b
        · simp [equal]
        · simp [same, equal]
      · simp [same]
    | null t => cases presentY
    | _ => cases type
  | double d =>
    rw [← type] at exactly
    cases exactly

section Keys

structure Comparable (x y : Value) : Prop where
  type : x.typeId = y.typeId
  exactly : comparesExactly y.typeId = true
  presentLeft : x.isNull = false
  presentRight : y.isNull = false

def seenOrder : List Value → List Value → Ordering
  | x :: xs, y :: ys => (if blurred x y then .eq else valueOrder x y).then (seenOrder xs ys)
  | _, _ => .eq

theorem keyOrder_single (x y : Value) : keyOrder [x] [y] = valueOrder x y := by
  show (valueOrder x y).then .eq = valueOrder x y
  exact Ordering.then_eq

variable {a b : List Value}

theorem keyOrder_eq (columns : List.Forall₂ Comparable a b) : keyOrder a b = .eq ↔ a = b := by
  induction columns with
  | nil => exact ⟨fun _ => rfl, fun _ => rfl⟩
  | @cons x y a b pair columns ih =>
    have equal := valueOrder_eq pair.type pair.exactly pair.presentLeft pair.presentRight
    rw [keyOrder, Ordering.then_eq_eq, equal, ih, List.cons.injEq]

theorem seenOrder_iff {o : Ordering} (decided : o ≠ .eq) (columns : List.Forall₂ Comparable a b) :
    seenOrder a b = o ↔ DecidedAs o a b := by
  induction columns with
  | nil => exact ⟨fun same => decided same.symm, False.elim⟩
  | @cons x y a b pair columns ih =>
    have equal := valueOrder_eq pair.type pair.exactly pair.presentLeft pair.presentRight
    rw [seenOrder, DecidedAs]
    by_cases blur : blurred x y = true
    · rw [if_pos blur, if_pos (Or.inr blur)]
      exact ih
    · rw [if_neg blur]
      by_cases same : x = y
      · rw [if_pos (Or.inl same), equal.mpr same]
        exact ih
      · rw [if_neg (not_or.mpr ⟨same, blur⟩)]
        have differs : valueOrder x y ≠ .eq := fun order => same (equal.mp order)
        cases order : valueOrder x y with
        | eq => exact absurd order differs
        | lt | gt => exact Iff.rfl

theorem seenOrder_keyOrder (columns : List.Forall₂ Comparable a b) :
    seenOrder a b = keyOrder a b ↔ ToldApart a b := by
  induction columns with
  | nil => exact ⟨fun _ => trivial, fun _ => rfl⟩
  | @cons x y a b pair columns ih =>
    have equal := valueOrder_eq pair.type pair.exactly pair.presentLeft pair.presentRight
    rw [seenOrder, keyOrder, ToldApart]
    by_cases same : x = y
    · have order := equal.mpr same
      rw [if_pos same, order, ite_self]
      exact ih
    · have differs : valueOrder x y ≠ .eq := fun order => same (equal.mp order)
      rw [if_neg same]
      by_cases blur : blurred x y = true
      · have decided := seenOrder_iff differs columns
        rw [if_pos blur, ← decided]
        cases order : valueOrder x y with
        | eq => exact absurd order differs
        | lt | gt => exact ⟨fun seen _ => seen, fun seen => seen blur⟩
      · rw [if_neg blur]
        cases order : valueOrder x y with
        | eq => exact absurd order differs
        | lt | gt => exact ⟨fun _ blur' => absurd blur' blur, fun _ => rfl⟩

/-- The values of a key are of the types of the columns, and none is NULL. -/
abbrev Typed (definition : List IndexKeyColumnDefinition) (key : List Value) : Prop :=
  List.Forall₂ (fun col v => v.isNull = false ∧ v.typeId = col.type) definition key

theorem comparable_of_typed {definition : List IndexKeyColumnDefinition}
    (exactly : ∀ col ∈ definition, comparesExactly col.type = true) (typedA : Typed definition a)
    (typedB : Typed definition b) : List.Forall₂ Comparable a b := by
  induction typedA generalizing b with
  | nil =>
    cases typedB
    exact .nil
  | @cons col x definition a first rest ih =>
    cases typedB with
    | cons first' rest' =>
      refine .cons ⟨first.2.trans first'.2.symm, ?_, first.1, first'.1⟩ ?_
      · rw [first'.2]
        exact exactly col mem_cons_self
      · exact ih (fun c member => exactly c (mem_cons_of_mem _ member)) rest'

end Keys

section Bytes

theorem keyBytes_cons (v : Value) (key : List Value) :
    keyBytes (v :: key) = 1 + payloadBytes v + keyBytes key := by
  rw [keyBytes, List.map_cons, List.sum_cons]
  rfl

variable {key : List Value} {definition : List IndexKeyColumnDefinition} {policy : NullPolicy}

theorem length_encoded (short : ∀ v ∈ key, Short v) :
    (key.flatMap componentBytes).length = keyBytes key := by
  induction key with
  | nil => rfl
  | cons v key ih =>
    rw [flatMap_cons, length_append, length_componentBytes,
      cut_of_short (short v mem_cons_self), keyBytes_cons,
      ih fun v member => short v (mem_cons_of_mem _ member)]

theorem short_of_keyBytes (small : keyBytes key < 2 ^ 32) : ∀ v ∈ key, Short v := by
  induction key with
  | nil => exact fun v member => absurd member List.not_mem_nil
  | cons v key ih =>
    rw [keyBytes_cons] at small
    intro u member
    rcases List.mem_cons.mp member with rfl | later
    · cases u with
      | varchar s =>
        have size : payloadBytes (.varchar s) = 4 + s.length := rfl
        show s.length < 2 ^ 32
        omega
      | _ => trivial
    · exact ih (by omega) u later

theorem readValues_at (typed : Typed definition key) (short : ∀ v ∈ key, Short v) (front : Bytes)
    {len : Nat} (within : front.length + keyBytes key ≤ len) (small : len < 2 ^ 32) :
    readValues (front ++ key.flatMap componentBytes) len front.length definition =
      .ok (key, front.length + keyBytes key) := by
  induction typed generalizing front with
  | nil => rfl
  | @cons col v definition key first rest ih =>
    rw [keyBytes_cons] at within
    have here := short v mem_cons_self
    have read := readValue_at first.1 first.2 here front (key.flatMap componentBytes)
      (show front.length + (1 + payloadBytes v) ≤ len by omega) small
    have width : (front ++ componentBytes v).length = front.length + (1 + payloadBytes v) := by
      rw [length_append, length_componentBytes, cut_of_short here]
    have later := ih (fun v member => short v (mem_cons_of_mem _ member))
      (front ++ componentBytes v) (by omega)
    rw [width, List.append_assoc] at later
    rw [flatMap_cons, readValues, read]
    simp only
    rw [later, keyBytes_cons]
    simp only [Except.map]
    congr 2
    omega

theorem readValues_bounds {data : Bytes} {len pos behind : Nat} (small : len < 2 ^ 32)
    (start : pos < 2 ^ 32) (read : readValues data len pos definition = .ok (key, behind)) :
    behind < 2 ^ 32 ∧ ∀ v ∈ key, Short v := by
  induction definition generalizing pos key with
  | nil =>
    cases read
    exact ⟨start, fun v member => absurd member List.not_mem_nil⟩
  | cons col definition ih =>
    rw [readValues] at read
    cases first : readValue data len pos col with
    | error message =>
      rw [first] at read
      cases read
    | ok r =>
      obtain ⟨v, next⟩ := r
      rw [first] at read
      simp only at read
      cases others : readValues data len next definition with
      | error message =>
        rw [others] at read
        cases read
      | ok out =>
        rw [others] at read
        cases read
        obtain ⟨bound, shortFirst⟩ := readValue_bounds small first
        obtain ⟨bound', shortRest⟩ := ih bound others
        refine ⟨bound', ?_⟩
        intro u member
        rcases List.mem_cons.mp member with rfl | later
        · exact shortFirst
        · exact shortRest u later

theorem decodeKey_iff (typed : Typed definition key) :
    decodeKey (key.flatMap componentBytes) definition = .ok key ↔ keyBytes key < 2 ^ 32 := by
  have lenSmall (n : Nat) : n % 2 ^ 32 < 2 ^ 32 := Nat.mod_lt _ (by omega)
  constructor
  · intro decoded
    rw [decodeKey] at decoded
    cases read : readValues (key.flatMap componentBytes)
        ((key.flatMap componentBytes).length % 2 ^ 32) 0 definition with
    | error message =>
      rw [read] at decoded
      cases decoded
    | ok r =>
      obtain ⟨out, pos⟩ := r
      rw [read] at decoded
      simp only at decoded
      split at decoded
      · cases decoded
      · rename_i whole
        cases decoded
        obtain ⟨bound, short⟩ := readValues_bounds (lenSmall _) (by omega) read
        rw [length_encoded short, not_not] at whole
        omega
  · intro small
    have short := short_of_keyBytes small
    have size := length_encoded short
    have within : ([] : Bytes).length + keyBytes key ≤ keyBytes key := by simp
    have read := readValues_at typed short [] within small
    rw [List.nil_append, List.length_nil, Nat.zero_add] at read
    rw [decodeKey, size, Nat.mod_eq_of_lt small, read]
    simp

theorem compareWithNullPolicy_present {x y : Value} (presentX : x.isNull = false)
    (presentY : y.isNull = false) :
    compareWithNullPolicy policy x y = compareValues x y := by
  simp [compareWithNullPolicy, presentX, presentY]

theorem compareFrom_at {a b : List Value} (typedA : Typed definition a)
    (typedB : Typed definition b) (exactly : ∀ col ∈ definition, comparesExactly col.type = true)
    (shortA : ∀ v ∈ a, Short v) (shortB : ∀ v ∈ b, Short v) (frontA frontB : Bytes)
    {lenA lenB : Nat} (wholeA : frontA.length + keyBytes a = lenA)
    (wholeB : frontB.length + keyBytes b = lenB) (smallA : lenA < 2 ^ 32) (smallB : lenB < 2 ^ 32) :
    compareFrom policy (frontA ++ a.flatMap componentBytes) (frontB ++ b.flatMap componentBytes)
      lenA lenB frontA.length frontB.length definition = .ok (seenOrder a b) := by
  induction typedA generalizing b frontA frontB with
  | nil =>
    cases typedB
    have endA : frontA.length = lenA := wholeA
    have endB : frontB.length = lenB := wholeB
    rw [compareFrom, if_neg (by simp [endA, endB])]
    rfl
  | @cons col x definition a first rest ih =>
    cases typedB with
    | @cons _ y _ b first' rest' =>
      rw [keyBytes_cons] at wholeA wholeB
      have hereA := shortA x mem_cons_self
      have hereB := shortB y mem_cons_self
      have readA := readValue_at first.1 first.2 hereA frontA (a.flatMap componentBytes)
        (show frontA.length + (1 + payloadBytes x) ≤ lenA by omega) smallA
      have readB := readValue_at first'.1 first'.2 hereB frontB (b.flatMap componentBytes)
        (show frontB.length + (1 + payloadBytes y) ≤ lenB by omega) smallB
      have widthA : (frontA ++ componentBytes x).length =
          frontA.length + (1 + payloadBytes x) := by
        rw [length_append, length_componentBytes, cut_of_short hereA]
      have widthB : (frontB ++ componentBytes y).length =
          frontB.length + (1 + payloadBytes y) := by
        rw [length_append, length_componentBytes, cut_of_short hereB]
      have later := ih rest' (fun c member => exactly c (mem_cons_of_mem _ member))
        (fun v member => shortA v (mem_cons_of_mem _ member))
        (fun v member => shortB v (mem_cons_of_mem _ member))
        (frontA ++ componentBytes x) (frontB ++ componentBytes y) (by omega) (by omega)
      rw [widthA, widthB, List.append_assoc, List.append_assoc] at later
      have exactY : comparesExactly y.typeId = true := by
        rw [first'.2]
        exact exactly col mem_cons_self
      have compared : compareWithNullPolicy policy x y =
          some (if blurred x y then .eq else valueOrder x y) := by
        rw [compareWithNullPolicy_present first.1 first'.1]
        exact compareValues_order (first.2.trans first'.2.symm) exactY first.1 first'.1
      rw [flatMap_cons, flatMap_cons, compareFrom, readA]
      simp only
      rw [readB]
      simp only
      rw [compared, seenOrder]
      generalize (if blurred x y then Ordering.eq else valueOrder x y) = o
      cases o with
      | eq => exact later
      | lt | gt => rfl

theorem compareEncoded_at {a b : List Value} (typedA : Typed definition a)
    (typedB : Typed definition b) (exactly : ∀ col ∈ definition, comparesExactly col.type = true)
    (smallA : keyBytes a < 2 ^ 32) (smallB : keyBytes b < 2 ^ 32) :
    compareEncoded (a.flatMap componentBytes) (b.flatMap componentBytes) definition policy =
      .ok (seenOrder a b) := by
  have shortA := short_of_keyBytes smallA
  have shortB := short_of_keyBytes smallB
  rw [compareEncoded, length_encoded shortA, length_encoded shortB, Nat.mod_eq_of_lt smallA,
    Nat.mod_eq_of_lt smallB]
  exact compareFrom_at typedA typedB exactly shortA shortB [] [] (by simp) (by simp) smallA smallB

end Bytes

theorem encodeValue_present {v : Value} {keyType : TypeId} {maxVarcharLen : Nat} {bytes : Bytes}
    (encoded : encodeValue v keyType maxVarcharLen = .ok bytes) :
    v.typeId = keyType ∧ bytes = fieldBytes v := by
  rw [encodeValue] at encoded
  split at encoded
  · cases encoded
  split at encoded
  · cases encoded
  rename_i typed
  split at encoded
  · cases encoded
  · exact ⟨not_not.mp typed, (Except.ok.inj encoded).symm⟩

theorem compareFixed_at {α : Type} (width : Nat) {message : String} {value : Bytes → α}
    {cmp : α → α → Ordering} {x y : Value} (widthX : payloadBytes x = width)
    (widthY : payloadBytes y = width) (small : width < 2 ^ 32) :
    compareFixed width message value cmp (valueBytes x) (valueBytes y) =
      .ok (cmp (value (valueBytes x)) (value (valueBytes y))) := by
  rw [compareFixed, length_valueBytes, length_valueBytes, widthX, widthY, Nat.mod_eq_of_lt small,
    if_neg (by omega), List.take_of_length_le (by rw [length_valueBytes, widthX]),
    List.take_of_length_le (by rw [length_valueBytes, widthY])]

theorem compareKeyValues_at {x y : Value} {keyType : TypeId} (typedX : x.typeId = keyType)
    (typedY : y.typeId = keyType) (exactly : comparesExactly keyType = true)
    (presentX : x.isNull = false) (presentY : y.isNull = false)
    (smallX : payloadBytes x < 2 ^ 32) (smallY : payloadBytes y < 2 ^ 32) :
    compareKeyValues keyType (valueBytes x) (valueBytes y) = .ok (valueOrder x y) := by
  subst typedX
  cases x with
  | null t => cases presentX
  | double d => cases exactly
  | boolean a =>
    cases y with
    | boolean b =>
      rw [Value.typeId, compareKeyValues,
        compareFixed_at 1 (x := .boolean a) (y := .boolean b) rfl rfl (by omega)]
      cases a <;> cases b <;> rfl
    | null t => cases presentY
    | _ => cases typedY
  | int32 a =>
    cases y with
    | int32 b =>
      rw [Value.typeId, compareKeyValues,
        compareFixed_at 4 (x := .int32 a) (y := .int32 b) rfl rfl (by omega)]
      simp only [valueBytes]
      rw [ofNat_leNat 4 (by decide), ofNat_leNat 4 (by decide), valueOrder]
    | null t => cases presentY
    | _ => cases typedY
  | int64 a =>
    cases y with
    | int64 b =>
      rw [Value.typeId, compareKeyValues,
        compareFixed_at 8 (x := .int64 a) (y := .int64 b) rfl rfl (by omega)]
      simp only [valueBytes]
      rw [ofNat_leNat 8 (by decide), ofNat_leNat 8 (by decide), valueOrder]
    | null t => cases presentY
    | _ => cases typedY
  | varchar s =>
    cases y with
    | varchar t =>
      have sizeS : payloadBytes (.varchar s) = 4 + s.length := rfl
      have sizeT : payloadBytes (.varchar t) = 4 + t.length := rfl
      have prefixed (u : Bytes) (small : 4 + u.length < 2 ^ 32) :
          leNat ((leBytes 4 u.length ++ u).take 4) = u.length ∧
            (leBytes 4 u.length ++ u).drop 4 = u := by
        rw [List.take_left' (length_leBytes 4 _), List.drop_left' (length_leBytes 4 _),
          leNat_leBytes, Nat.mod_eq_of_lt (by omega)]
        exact ⟨rfl, rfl⟩
      obtain ⟨lengthS, restS⟩ := prefixed s (by omega)
      obtain ⟨lengthT, restT⟩ := prefixed t (by omega)
      simp only [compareKeyValues, Value.typeId, length_valueBytes, Nat.mod_eq_of_lt smallX,
        Nat.mod_eq_of_lt smallY]
      simp only [valueBytes, lengthS, lengthT, restS, restT, List.take_length]
      rw [if_neg (by omega), if_neg (by omega), valueOrder]
    | null t => cases presentY
    | _ => cases typedY

/-- What the encodings of two keys have to do: come back, and compare as the keys do, also as
`IndexKeyUtil` compares where there is one column. -/
structure KeysAgree (policy : NullPolicy) (definition : List IndexKeyColumnDefinition)
    (a b : List Value) (bytesA bytesB : Bytes) : Prop where
  decodesLeft : decodeKey bytesA definition = .ok a
  decodesRight : decodeKey bytesB definition = .ok b
  ordered : compareEncoded bytesA bytesB definition policy = .ok (keyOrder a b)
  separates : compareEncoded bytesA bytesB definition policy = .ok .eq → a = b
  single : ∀ col x y, definition = [col] → a = [x] → b = [y] →
    ∀ maxVarcharLen keyX keyY, encodeValue x col.type maxVarcharLen = .ok keyX →
      encodeValue y col.type maxVarcharLen = .ok keyY →
        compareKeyValues col.type keyX keyY = compareEncoded bytesA bytesB definition policy

/-- Encoded keys agree with the keys exactly if both are shorter than 2^32 bytes and no blurred
column hides the order. -/
theorem keysAgree_iff {policy : NullPolicy} {definition : List IndexKeyColumnDefinition}
    {a b : List Value} {bytesA bytesB : Bytes}
    (exactly : ∀ col ∈ definition, comparesExactly col.type = true)
    (presentA : ∀ v ∈ a, v.isNull = false) (presentB : ∀ v ∈ b, v.isNull = false)
    (encodedA : encodeKey a definition policy = .ok bytesA)
    (encodedB : encodeKey b definition policy = .ok bytesB) :
    KeysAgree policy definition a b bytesA bytesB ↔
      keyBytes a < 2 ^ 32 ∧ keyBytes b < 2 ^ 32 ∧ ToldApart a b := by
  obtain ⟨typedA, rfl⟩ := encodeKey_present presentA encodedA
  obtain ⟨typedB, rfl⟩ := encodeKey_present presentB encodedB
  have columns := comparable_of_typed exactly typedA typedB
  have compares : keyBytes a < 2 ^ 32 → keyBytes b < 2 ^ 32 →
      compareEncoded (a.flatMap componentBytes) (b.flatMap componentBytes) definition policy =
        .ok (seenOrder a b) :=
    compareEncoded_at typedA typedB exactly
  constructor
  · intro agree
    have smallA := (decodeKey_iff typedA).mp agree.decodesLeft
    have smallB := (decodeKey_iff typedB).mp agree.decodesRight
    have compared := compares smallA smallB
    have same : seenOrder a b = keyOrder a b :=
      Except.ok.inj (compared.symm.trans agree.ordered)
    exact ⟨smallA, smallB, (seenOrder_keyOrder columns).mp same⟩
  · rintro ⟨smallA, smallB, told⟩
    have compared := compares smallA smallB
    rw [(seenOrder_keyOrder columns).mpr told] at compared
    refine ⟨(decodeKey_iff typedA).mpr smallA, (decodeKey_iff typedB).mpr smallB, compared, ?_, ?_⟩
    · intro same
      rw [compared] at same
      exact (keyOrder_eq columns).mp (Except.ok.inj same)
    · rintro col x y rfl rfl rfl maxVarcharLen keyX keyY encodedX encodedY
      have shortX := short_of_keyBytes smallA x mem_cons_self
      have shortY := short_of_keyBytes smallB y mem_cons_self
      obtain ⟨typeX, rfl⟩ := encodeValue_present encodedX
      obtain ⟨typeY, rfl⟩ := encodeValue_present encodedY
      rw [keyBytes_cons] at smallA smallB
      have single := compareKeyValues_at typeX typeY (exactly col mem_cons_self)
        (presentA x mem_cons_self) (presentB y mem_cons_self) (by omega) (by omega)
      rw [compared, fieldBytes_eq, fieldBytes_eq, cut_of_short shortX, cut_of_short shortY, single,
        keyOrder_single]

theorem keysAgree_iff_flag :
    KeysAgree .notSupported [⟨0, .boolean, 0, true⟩, ⟨1, .int64, 0, true⟩]
        [.boolean false, .int64 7] [.boolean false, .int64 8]
        [0, 0, 0, 7, 0, 0, 0, 0, 0, 0, 0] [0, 0, 0, 8, 0, 0, 0, 0, 0, 0, 0] ↔
      keyBytes [.boolean false, .int64 7] < 2 ^ 32 ∧ keyBytes [.boolean false, .int64 8] < 2 ^ 32 ∧
        ToldApart [.boolean false, .int64 7] [.boolean false, .int64 8] :=
  keysAgree_iff (by decide) (by decide) (by decide) (by decide +kernel) (by decide +kernel)

/-- 2^53 and the number behind it have different encodings that compare as equal. -/
theorem keysAgree_not_above :
    encodeKey [.int64 (2 ^ 53)] [⟨0, .int64, 0, true⟩] .notSupported =
        .ok [0, 0, 0, 0, 0, 0, 0, 32, 0] ∧
      encodeKey [.int64 (2 ^ 53 + 1)] [⟨0, .int64, 0, true⟩] .notSupported =
        .ok [0, 1, 0, 0, 0, 0, 0, 32, 0] ∧
      ¬ KeysAgree .notSupported [⟨0, .int64, 0, true⟩] [.int64 (2 ^ 53)] [.int64 (2 ^ 53 + 1)]
        [0, 0, 0, 0, 0, 0, 0, 32, 0] [0, 1, 0, 0, 0, 0, 0, 32, 0] := by
  refine ⟨by decide +kernel, by decide +kernel, ?_⟩
  intro agree
  have same := agree.separates (by decide +kernel)
  exact absurd same (by decide)

end GraniteDb.Access.CompositeKeyOrder
