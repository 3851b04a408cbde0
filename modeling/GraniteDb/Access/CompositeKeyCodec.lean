/- The bytes of index keys, of one column and of several, and how they are compared. -/

import GraniteDb.Common.DoubleOrder
import GraniteDb.Execution.TupleFile
import GraniteDb.Execution.ValueOrder

namespace GraniteDb.Access.CompositeKeyCodec

open Common.Double Common.Value Execution.Expressions Storage.HeapTupleCodec
open Recovery.WalRecords (Bytes leNat)
open Execution.TupleFile (fieldBytes cut Short cut_of_short fieldBytes_eq)
open Access.HeapFile (payloadBytes)
open Access.IndexScan (IndexKeyColumnDefinition NullPolicy compareWithNullPolicy)

/-- `MaxEncodedValueSize`, in 32 bits. -/
def maxEncodedValueSize (col : IndexKeyColumnDefinition) : Except String Nat :=
  match col.type with
  | .boolean => .ok 2
  | .int32 => .ok 5
  | .int64 => .ok 9
  | .double => .ok 9
  | .varchar => .ok ((1 + 4 + col.maxVarcharLen) % 2 ^ 32)
  | .invalid => .error "Unsupported composite key type"

/-- `GetMaxEncodedKeySize`, its sum in 32 bits. -/
def getMaxEncodedKeySize (definition : List IndexKeyColumnDefinition) : Except String Nat :=
  definition.foldlM (fun total col => (maxEncodedValueSize col).map fun n => (total + n) % 2 ^ 32) 0

def exceeds (maxVarcharLen : Nat) : Value → Bool
  | .varchar s => maxVarcharLen < s.length
  | _ => false

/-- What `EncodeKey` appends for one component. A declared length of 0 is not checked. -/
def encodeComponent (policy : NullPolicy) (col : IndexKeyColumnDefinition) (v : Value) :
    Except String Bytes :=
  if v.isNull then
    if policy = .notSupported then
      .error "NULL composite key component is not supported by this index"
    else if col.nullable then .ok [1]
    else .error "NULL composite key component for non-nullable column"
  else if v.typeId ≠ col.type then .error "Composite key type mismatch"
  else if 0 < col.maxVarcharLen ∧ exceeds col.maxVarcharLen v then
    .error "VARCHAR composite key component exceeds max length"
  else .ok (0 :: fieldBytes v)

/-- The loop of `EncodeKey`. -/
def encodeComponents (policy : NullPolicy) :
    List IndexKeyColumnDefinition → List Value → Except String Bytes
  | col :: definition, v :: values =>
    match encodeComponent policy col v with
    | .error message => .error message
    | .ok component => (encodeComponents policy definition values).map fun out => component ++ out
  | _, _ => .ok []

def encodeKey (values : List Value) (definition : List IndexKeyColumnDefinition)
    (policy : NullPolicy) : Except String Bytes :=
  if values.length ≠ definition.length then
    .error "CompositeKeyCodec value/definition length mismatch"
  else encodeComponents policy definition values

def readBytes (data : Bytes) (len pos width : Nat) (message : String) :
    Except String (Bytes × Nat) :=
  if len < pos + width then .error message else .ok ((data.drop pos).take width, pos + width)

/-- `ReadValue` behind the tag of a value that is not NULL. The end of a string is computed in 32
bits. -/
def readPresent (data : Bytes) (len pos : Nat) : TypeId → Except String (Value × Nat)
  | .boolean =>
    (readBytes data len pos 1 "Bad BOOLEAN composite key").map fun r =>
      (.boolean (leNat r.1 ≠ 0), r.2)
  | .int32 =>
    (readBytes data len pos 4 "Bad INT32 composite key").map fun r =>
      (.int32 (.ofNat 32 (leNat r.1)), r.2)
  | .int64 =>
    (readBytes data len pos 8 "Bad INT64 composite key").map fun r =>
      (.int64 (.ofNat 64 (leNat r.1)), r.2)
  | .double =>
    (readBytes data len pos 8 "Bad DOUBLE composite key").map fun r =>
      (.double ⟨.ofNat 64 (leNat r.1)⟩, r.2)
  | .varchar =>
    match readBytes data len pos 4 "Composite key decode underflow" with
    | .error message => .error message
    | .ok (slen, pos) =>
      let behind := (pos + leNat slen) % 2 ^ 32
      if len < behind then .error "Bad VARCHAR composite key"
      else .ok (.varchar ((data.drop pos).take (leNat slen)), behind)
  | .invalid => .error "Unsupported composite key type"

def readValue (data : Bytes) (len pos : Nat) (col : IndexKeyColumnDefinition) :
    Except String (Value × Nat) :=
  if len ≤ pos then .error "Composite key decode underflow while reading null tag"
  else if (data[pos]?).getD 0 ≠ 0 then .ok (.null col.type, pos + 1)
  else readPresent data len (pos + 1) col.type

/-- The loop of `DecodeKey`: the values, and the position behind them. -/
def readValues (data : Bytes) (len : Nat) :
    Nat → List IndexKeyColumnDefinition → Except String (List Value × Nat)
  | pos, [] => .ok ([], pos)
  | pos, col :: definition =>
    match readValue data len pos col with
    | .error message => .error message
    | .ok (v, behind) =>
      (readValues data len behind definition).map fun out => (v :: out.1, out.2)

def decodeKey (encoded : Bytes) (definition : List IndexKeyColumnDefinition) :
    Except String (List Value) :=
  match readValues encoded (encoded.length % 2 ^ 32) 0 definition with
  | .error message => .error message
  | .ok (out, pos) =>
    if pos ≠ encoded.length then
      .error "Composite key payload length mismatch while decoding key"
    else .ok out

/-- The loop of `CompareEncoded`, on the bytes, lengths and positions of both keys. -/
def compareFrom (policy : NullPolicy) (lhs rhs : Bytes) (lhsLen rhsLen : Nat) :
    Nat → Nat → List IndexKeyColumnDefinition → Except String Ordering
  | lhsPos, rhsPos, [] =>
    if lhsPos ≠ lhsLen ∨ rhsPos ≠ rhsLen then .error "Composite key payload length mismatch"
    else .ok .eq
  | lhsPos, rhsPos, col :: definition =>
    match readValue lhs lhsLen lhsPos col with
    | .error message => .error message
    | .ok (lhsValue, lhsPos) =>
      match readValue rhs rhsLen rhsPos col with
      | .error message => .error message
      | .ok (rhsValue, rhsPos) =>
        match compareWithNullPolicy policy lhsValue rhsValue with
        | none =>
          .error "NULL encountered for composite key under unsupported null policy"
        | some .eq => compareFrom policy lhs rhs lhsLen rhsLen lhsPos rhsPos definition
        | some cmp => .ok cmp

def compareEncoded (lhs rhs : Bytes) (definition : List IndexKeyColumnDefinition)
    (policy : NullPolicy) : Except String Ordering :=
  compareFrom policy lhs rhs (lhs.length % 2 ^ 32) (rhs.length % 2 ^ 32) 0 0 definition

def encodeValue (v : Value) (keyType : TypeId) (maxVarcharLen : Nat) : Except String Bytes :=
  if v.isNull then .error "NULL keys are not supported in this B+ tree"
  else if v.typeId ≠ keyType then .error "Index key type mismatch"
  else if exceeds maxVarcharLen v then .error "VARCHAR key exceeds declared max length"
  else .ok (fieldBytes v)

/-- The two keys have the bytes of their fixed type, and compare as the values in them. -/
def compareFixed {α : Type} (width : Nat) (message : String) (value : Bytes → α)
    (cmp : α → α → Ordering) (a b : Bytes) : Except String Ordering :=
  if a.length % 2 ^ 32 ≠ width ∨ b.length % 2 ^ 32 ≠ width then .error message
  else .ok (cmp (value (a.take width)) (value (b.take width)))

/-- `IndexKeyUtil::CompareEncoded`. -/
def compareKeyValues (keyType : TypeId) (a b : Bytes) : Except String Ordering :=
  match keyType with
  | .boolean =>
    compareFixed 1 "Bad BOOLEAN key length" (fun x => decide (leNat x ≠ 0)) compareBools a b
  | .int32 =>
    compareFixed 4 "Bad INT32 key length" (fun x => (BitVec.ofNat 32 (leNat x)).toInt) compare a b
  | .int64 =>
    compareFixed 8 "Bad INT64 key length" (fun x => (BitVec.ofNat 64 (leNat x)).toInt) compare a b
  | .double =>
    compareFixed 8 "Bad DOUBLE key length" (fun x => (⟨.ofNat 64 (leNat x)⟩ : Double))
      compareDoubles a b
  | .varchar =>
    let aLen := a.length % 2 ^ 32
    let bLen := b.length % 2 ^ 32
    if aLen < 4 ∨ bLen < 4 then .error "Bad VARCHAR key length"
    else
      let aSlen := leNat (a.take 4)
      let bSlen := leNat (b.take 4)
      if 4 + aSlen ≠ aLen ∨ 4 + bSlen ≠ bLen then .error "Corrupt VARCHAR key"
      else .ok (compareBytes ((a.drop 4).take aSlen) ((b.drop 4).take bSlen))
  | .invalid => .error "Unsupported index key type"

section RoundTrip

theorem leNat_lt (bytes : Bytes) : leNat bytes < 256 ^ bytes.length := by
  induction bytes with
  | nil => exact Nat.one_pos
  | cons b bytes ih =>
    have low : b.toNat < 256 := b.toNat_lt
    rw [leNat, List.length_cons, Nat.pow_succ]
    omega

def componentBytes (v : Value) : Bytes := 0 :: fieldBytes v

theorem length_componentBytes (v : Value) :
    (componentBytes v).length = 1 + payloadBytes (cut v) := by
  rw [componentBytes, List.length_cons, fieldBytes_eq, length_valueBytes, Nat.add_comm]

variable {col : IndexKeyColumnDefinition} {v : Value} {len : Nat}

theorem encodeComponent_present {policy : NullPolicy} {bytes : Bytes} (present : v.isNull = false)
    (encoded : encodeComponent policy col v = .ok bytes) :
    v.typeId = col.type ∧ bytes = componentBytes v := by
  rw [encodeComponent, present, if_neg Bool.false_ne_true] at encoded
  by_cases typed : v.typeId = col.type
  · rw [if_neg (not_not_intro typed)] at encoded
    split at encoded
    · cases encoded
    · exact ⟨typed, (Except.ok.inj encoded).symm⟩
  · rw [if_pos typed] at encoded
    cases encoded

theorem encodeKey_present {policy : NullPolicy} {definition : List IndexKeyColumnDefinition}
    {values : List Value} {bytes : Bytes} (present : ∀ v ∈ values, v.isNull = false)
    (encoded : encodeKey values definition policy = .ok bytes) :
    List.Forall₂ (fun col v => v.isNull = false ∧ v.typeId = col.type) definition values ∧
      bytes = values.flatMap componentBytes := by
  rw [encodeKey] at encoded
  split at encoded
  · cases encoded
  · rename_i sameLength
    rw [not_not] at sameLength
    induction definition generalizing values bytes with
    | nil =>
      obtain rfl := List.length_eq_zero_iff.mp sameLength
      exact ⟨.nil, (Except.ok.inj encoded).symm⟩
    | cons col definition ih =>
      cases values with
      | nil => cases sameLength
      | cons v values =>
        rw [encodeComponents] at encoded
        cases first : encodeComponent policy col v with
        | error message =>
          rw [first] at encoded
          cases encoded
        | ok component =>
          rw [first] at encoded
          cases others : encodeComponents policy definition values with
          | error message =>
            rw [others] at encoded
            cases encoded
          | ok out =>
            rw [others] at encoded
            have here := present v List.mem_cons_self
            obtain ⟨typed, rfl⟩ := encodeComponent_present here first
            obtain ⟨types, rfl⟩ := ih (fun v member => present v (List.mem_cons_of_mem _ member))
              (Nat.succ.inj sameLength) others
            exact ⟨.cons ⟨here, typed⟩ types, (Except.ok.inj encoded).symm⟩

theorem readPresent_of_decodeValue {data : Bytes} {pos behind : Nat} {type : TypeId}
    (small : len < 2 ^ 32) (read : decodeValue data len pos type = .ok (v, behind)) :
    readPresent data len pos type = .ok (v, behind) := by
  cases type with
  | invalid => cases read
  | varchar =>
    rw [decodeValue] at read
    rw [readPresent, readBytes]
    rw [copyBytes] at read
    by_cases short : len < pos + 4
    · rw [if_pos short] at read
      cases read
    · rw [if_neg short] at read ⊢
      simp only [copyBytes] at read ⊢
      by_cases cutOff : len < pos + 4 + leNat ((data.drop pos).take 4)
      · rw [if_pos cutOff] at read
        cases read
      · rw [if_neg cutOff] at read
        rw [Nat.mod_eq_of_lt (by omega), if_neg cutOff]
        exact read
  | boolean | int32 | int64 | double =>
    rw [decodeValue, copyBytes] at read
    rw [readPresent, readBytes]
    split at read
    · cases read
    · rename_i enough
      rw [if_neg enough]
      exact read

theorem readValue_at (present : v.isNull = false) (typed : v.typeId = col.type) (short : Short v)
    (front back : Bytes) (within : front.length + (1 + payloadBytes v) ≤ len)
    (small : len < 2 ^ 32) :
    readValue (front ++ (componentBytes v ++ back)) len front.length col =
      .ok (v, front.length + (1 + payloadBytes v)) := by
  have tag : (front ++ (componentBytes v ++ back))[front.length]? = some 0 := by
    rw [List.getElem?_append_right (Nat.le_refl _), Nat.sub_self]
    rfl
  have payload : front ++ (componentBytes v ++ back) =
      (front ++ [0]) ++ (valueBytes v ++ back) := by
    rw [componentBytes, fieldBytes_eq, cut_of_short short]
    simp
  have read := decodeValue_at present (front ++ [0]) back
    (show (front ++ [0]).length + payloadBytes v ≤ len by simp; omega) small
  rw [readValue, if_neg (by omega), tag]
  simp only [Option.getD_some, ne_eq, not_true_eq_false, if_false]
  rw [payload, ← typed]
  rw [List.length_append, List.length_singleton, Nat.add_assoc] at read
  exact readPresent_of_decodeValue small read

theorem readValue_bounds {data : Bytes} {pos behind : Nat} (small : len < 2 ^ 32)
    (read : readValue data len pos col = .ok (v, behind)) :
    behind < 2 ^ 32 ∧ Short v := by
  have fixed {width : Nat} {message : String} {r : Bytes × Nat} {pos : Nat}
      (bytes : readBytes data len pos width message = .ok r) : r.2 < 2 ^ 32 := by
    rw [readBytes] at bytes
    split at bytes
    · cases bytes
    · cases bytes
      show pos + width < 2 ^ 32
      omega
  rw [readValue] at read
  split at read
  · cases read
  rename_i inside
  split at read
  · cases read
    exact ⟨by omega, trivial⟩
  generalize col.type = type at read
  cases type with
  | invalid => cases read
  | varchar =>
    rw [readPresent] at read
    cases length : readBytes data len (pos + 1) 4 "Composite key decode underflow" with
    | error message =>
      rw [length] at read
      cases read
    | ok r =>
      rw [length] at read
      simp only at read
      split at read
      · cases read
      · cases read
        refine ⟨Nat.mod_lt _ (by omega), ?_⟩
        have bound := leNat_lt r.1
        have width : r.1.length ≤ 4 := by
          rw [readBytes] at length
          split at length
          · cases length
          · cases length
            exact List.length_take_le _ _
        have power : 256 ^ r.1.length ≤ 256 ^ 4 := Nat.pow_le_pow_right (by omega) width
        have taken := List.length_take_le (leNat r.1) (data.drop r.2)
        show (List.take _ _).length < 2 ^ 32
        omega
  | boolean | int32 | int64 | double =>
    rw [readPresent] at read
    cases bytes : readBytes data len (pos + 1) _ _ with
    | error message =>
      rw [bytes] at read
      cases read
    | ok r =>
      rw [bytes] at read
      cases read
      exact ⟨fixed bytes, trivial⟩

end RoundTrip

end GraniteDb.Access.CompositeKeyCodec
