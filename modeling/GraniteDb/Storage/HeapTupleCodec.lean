/- The bytes of a stored tuple: encoding, decoding, and that a stored tuple is read back. -/

import GraniteDb.Access.HeapFile
import GraniteDb.Recovery.WalFormat

namespace GraniteDb.Storage.HeapTupleCodec

open Common.Value
open Recovery.WalRecords (Bytes leBytes leNat length_leBytes)
open Recovery.WalFormat (leNat_leBytes)
open Access.HeapFile (Column validateTupleAgainstSchema payloadBytes encodedSize decoded
  validate_length validate_value validateValue_type)
open List (append_assoc length_append flatMap_cons drop_left')
open Nat (mod_eq_of_lt add_zero)

structure HeapTupleHeader where
  totalLength : Nat
  nullBitmapOffset : Nat
  columnCount : Nat
  deleted : UInt8
  reserved : Bytes
  deriving DecidableEq

/-- `sizeof(HeapTupleHeader)`. -/
def tupleHeaderSize : Nat := 12

def HeapTupleHeader.bytes (hdr : HeapTupleHeader) : Bytes :=
  leBytes 4 hdr.totalLength ++ leBytes 2 hdr.nullBitmapOffset ++ leBytes 2 hdr.columnCount ++
    hdr.deleted :: hdr.reserved

def valueBytes : Value → Bytes
  | .null _ => []
  | .boolean b => [if b then 1 else 0]
  | .int32 n => leBytes 4 n.toNat
  | .int64 n => leBytes 8 n.toNat
  | .double d => leBytes 8 d.bits.toNat
  | .varchar s => leBytes 4 s.length ++ s

def markNull (bitmap : Bytes) (i : Nat) : Bytes :=
  bitmap.modify (i / 8) fun b => b ||| UInt8.ofNat (1 <<< (i % 8))

def nullAt (bitmap : Bytes) (i : Nat) : Bool := ((bitmap[i / 8]?).getD 0).toNat.testBit (i % 8)

/-- The loop of `Encode` that fills the bitmap and appends the payload. -/
def encodeValues (bitmap payload : Bytes) (i : Nat) : Row → Bytes × Bytes
  | [] => (bitmap, payload)
  | v :: rest =>
    if v.isNull then encodeValues (markNull bitmap i) payload (i + 1) rest
    else encodeValues bitmap (payload ++ valueBytes v) (i + 1) rest

/-- `Encode`. The column count is kept in 16 bits; a column beyond them has no bit in the map. -/
def encode (row : Row) (schema : List Column) : Except String Bytes :=
  match validateTupleAgainstSchema row schema with
  | some message => .error message
  | none =>
    let columnCount := schema.length % 2 ^ 16
    let bitmapBytes := (columnCount + 7) / 8
    let totalLen := tupleHeaderSize + bitmapBytes + (row.map payloadBytes).sum
    if 2 ^ 32 - 1 < totalLen then .error "Tuple too large"
    else
      let hdr : HeapTupleHeader :=
        { totalLength := totalLen, nullBitmapOffset := tupleHeaderSize,
          columnCount := columnCount, deleted := 0, reserved := [0, 0, 0] }
      let filled := encodeValues (List.replicate bitmapBytes 0) [] 0 row
      .ok (hdr.bytes ++ (filled.1 ++ filled.2))

def readHeader (data : Bytes) : Except String HeapTupleHeader :=
  if data.length < tupleHeaderSize then .error "Heap tuple too small for header"
  else
    let hdr : HeapTupleHeader :=
      { totalLength := leNat (data.take 4)
        nullBitmapOffset := leNat ((data.drop 4).take 2)
        columnCount := leNat ((data.drop 6).take 2)
        deleted := (data[8]?).getD 0
        reserved := (data.drop 9).take 3 }
    if hdr.totalLength < tupleHeaderSize then .error "Corrupt heap tuple header" else .ok hdr

/-- `EnsureAvailable`, and the bytes that are then copied. -/
def copyBytes (data : Bytes) (pos need total : Nat) : Except String Bytes :=
  if total < pos + need then .error "Heap tuple decode overflow"
  else .ok ((data.drop pos).take need)

/-- One value of `Decode`, and the position behind it. -/
def decodeValue (data : Bytes) (total pos : Nat) : TypeId → Except String (Value × Nat)
  | .boolean => (copyBytes data pos 1 total).map fun x => (.boolean (leNat x ≠ 0), pos + 1)
  | .int32 => (copyBytes data pos 4 total).map fun x => (.int32 (.ofNat 32 (leNat x)), pos + 4)
  | .int64 => (copyBytes data pos 8 total).map fun x => (.int64 (.ofNat 64 (leNat x)), pos + 8)
  | .double =>
    (copyBytes data pos 8 total).map fun x => (.double ⟨.ofNat 64 (leNat x)⟩, pos + 8)
  | .varchar =>
    match copyBytes data pos 4 total with
    | .error message => .error message
    | .ok slen =>
      (copyBytes data (pos + 4) (leNat slen) total).map fun s =>
        (.varchar s, pos + 4 + leNat slen)
  | .invalid => .error "Unsupported type in HeapTupleCodec::Decode"

/-- The loop of `Decode`, from column `i` on. -/
def decodeValues (data : Bytes) (total : Nat) (bitmap : Bytes) (i pos : Nat) :
    List Column → Except String Row
  | [] => .ok []
  | col :: rest =>
    if nullAt bitmap i then
      (decodeValues data total bitmap (i + 1) pos rest).map fun row => .null col.type :: row
    else
      match decodeValue data total pos col.type with
      | .error message => .error message
      | .ok (v, pos) => (decodeValues data total bitmap (i + 1) pos rest).map fun row => v :: row

def decode (schema : List Column) (data : Bytes) : Except String Row :=
  if data.length < tupleHeaderSize then .error "Heap tuple too small"
  else
    match readHeader data with
    | .error message => .error message
    | .ok hdr =>
      let bitmapBytes := (hdr.columnCount + 7) / 8
      if data.length < hdr.totalLength then .error "Heap tuple length exceeds available bytes"
      else if hdr.columnCount ≠ schema.length then
        .error "Heap tuple/schema column count mismatch"
      else if hdr.totalLength < hdr.nullBitmapOffset + bitmapBytes then
        .error "Corrupt null bitmap"
      else
        decodeValues data hdr.totalLength (data.drop hdr.nullBitmapOffset) 0
          (tupleHeaderSize + bitmapBytes) schema

def isDeleted (data : Bytes) : Except String Bool :=
  (readHeader data).map fun hdr => decide (hdr.deleted ≠ 0)

/-- `MarkDeleted`: the bytes of the record after it. -/
def markDeleted (data : Bytes) : Except String Bytes :=
  (readHeader data).map fun hdr =>
    HeapTupleHeader.bytes { hdr with deleted := 1 } ++ data.drop tupleHeaderSize

@[simp] theorem length_markNull (bitmap : Bytes) (i : Nat) :
    (markNull bitmap i).length = bitmap.length := List.length_modify ..

private theorem testBit_or_bit (b : UInt8) {j k : Nat} (small : k < 8) :
    (b ||| UInt8.ofNat (1 <<< k)).toNat.testBit j = (b.toNat.testBit j || decide (k = j)) := by
  have fits : 2 ^ k < 256 := by
    have := Nat.pow_lt_pow_right (a := 2) (by omega) small
    omega
  rw [UInt8.toNat_or, UInt8.toNat_ofNat', Nat.one_shiftLeft, mod_eq_of_lt fits,
    Nat.testBit_or, Nat.testBit_two_pow]

theorem nullAt_markNull {bitmap : Bytes} {i : Nat} (inMap : i / 8 < bitmap.length) (j : Nat) :
    nullAt (markNull bitmap i) j = (nullAt bitmap j || decide (i = j)) := by
  unfold nullAt markNull
  rw [List.getElem?_modify]
  by_cases same : i / 8 = j / 8
  · have inMap' : j / 8 < bitmap.length := by omega
    have equal : (i % 8 = j % 8) ↔ (i = j) := by omega
    rw [List.getElem?_eq_getElem inMap', Option.map_eq_map, Option.map_some, if_pos same,
      Option.getD_some, Option.getD_some, testBit_or_bit _ (Nat.mod_lt _ (by omega))]
    simp only [equal]
  · have distinct : ¬ i = j := by
      rintro rfl
      exact same rfl
    rw [decide_eq_false distinct, Bool.or_false]
    simp only [if_neg same]
    simp

theorem nullAt_replicate (n i : Nat) : nullAt (List.replicate n 0) i = false := by
  unfold nullAt
  rw [List.getElem?_replicate]
  split <;> simp

theorem encodeValues_eq (row : Row) (bitmap payload : Bytes) (i : Nat)
    (inMap : i + row.length ≤ 8 * bitmap.length) :
    ∃ filled, encodeValues bitmap payload i row = (filled, payload ++ row.flatMap valueBytes) ∧
      filled.length = bitmap.length ∧ (∀ j, j < i → nullAt filled j = nullAt bitmap j) ∧
      ∀ k, nullAt filled (i + k) =
        (nullAt bitmap (i + k) || ((row[k]?).map Value.isNull).getD false) := by
  induction row generalizing bitmap payload i with
  | nil => exact ⟨bitmap, by simp [encodeValues], rfl, fun _ _ => rfl, by simp⟩
  | cons v row ih =>
    rw [List.length_cons] at inMap
    cases present : v.isNull with
    | true =>
      have noBytes : valueBytes v = [] := by
        cases v <;> first | rfl | cases present
      obtain ⟨filled, loop, length, before, behind⟩ :=
        ih (markNull bitmap i) payload (i + 1)
          (by rw [length_markNull]; omega)
      rw [length_markNull] at length
      have marked := nullAt_markNull (show i / 8 < bitmap.length by omega)
      refine ⟨filled, ?_, length, ?_, ?_⟩
      · rw [encodeValues, if_pos present, loop, flatMap_cons, noBytes, List.nil_append]
      · intro j less
        rw [before j (by omega), marked, decide_eq_false (by omega), Bool.or_false]
      · intro k
        cases k with
        | zero =>
          rw [add_zero, before i (by omega), marked]
          simp [present]
        | succ k =>
          have next := behind k
          rw [marked, decide_eq_false (by omega), Bool.or_false] at next
          have shift : i + (k + 1) = i + 1 + k := by omega
          rw [List.getElem?_cons_succ, shift]
          exact next
    | false =>
      obtain ⟨filled, loop, length, before, behind⟩ :=
        ih bitmap (payload ++ valueBytes v) (i + 1) (by omega)
      refine ⟨filled, ?_, length, fun j less => before j (by omega), ?_⟩
      · rw [encodeValues, present, if_neg Bool.false_ne_true, loop, flatMap_cons,
          append_assoc]
      · intro k
        cases k with
        | zero =>
          rw [add_zero, before i (by omega)]
          simp [present]
        | succ k =>
          have shift : i + (k + 1) = i + 1 + k := by omega
          rw [List.getElem?_cons_succ, shift]
          exact behind k

section RoundTrip

@[simp] theorem length_valueBytes (v : Value) : (valueBytes v).length = payloadBytes v := by
  cases v <;> simp [valueBytes, payloadBytes]

theorem length_payload (row : Row) :
    (row.flatMap valueBytes).length = (row.map payloadBytes).sum := by
  simp [List.length_flatMap]

theorem copyBytes_at (front bytes back : Bytes) {pos need total : Nat}
    (here : front.length = pos) (long : bytes.length = need) (within : pos + need ≤ total) :
    copyBytes (front ++ (bytes ++ back)) pos need total = .ok bytes := by
  rw [copyBytes, if_neg (by omega), drop_left' here, List.take_left' long]

theorem ofNat_leNat {w : Nat} (k : Nat) (bits : w = 8 * k) (n : BitVec w) :
    BitVec.ofNat w (leNat (leBytes k n.toNat)) = n := by
  have small : n.toNat < 256 ^ k := by
    have width : (256 : Nat) ^ k = 2 ^ w := by
      rw [bits, Nat.pow_mul]
    rw [width]
    exact n.isLt
  rw [leNat_leBytes, mod_eq_of_lt small, BitVec.ofNat_toNat, BitVec.setWidth_eq]

theorem decodeValue_at {v : Value} (present : v.isNull = false) (front back : Bytes)
    {total : Nat} (within : front.length + payloadBytes v ≤ total) (small : total < 2 ^ 32) :
    decodeValue (front ++ (valueBytes v ++ back)) total front.length v.typeId =
      .ok (v, front.length + payloadBytes v) := by
  cases v with
  | null type => cases present
  | boolean b =>
    have copied := copyBytes_at front (valueBytes (.boolean b)) back rfl (length_valueBytes _) within
    simp only [payloadBytes] at copied
    simp only [Value.typeId, decodeValue, copied, Except.map, payloadBytes]
    cases b <;> rfl
  | int32 n =>
    have copied := copyBytes_at front (valueBytes (.int32 n)) back rfl (length_valueBytes _) within
    simp only [payloadBytes, valueBytes] at copied
    simp only [Value.typeId, decodeValue, copied, Except.map, payloadBytes, valueBytes]
    rw [ofNat_leNat (w := 32) 4 (by decide)]
  | int64 n =>
    have copied := copyBytes_at front (valueBytes (.int64 n)) back rfl (length_valueBytes _) within
    simp only [payloadBytes, valueBytes] at copied
    simp only [Value.typeId, decodeValue, copied, Except.map, payloadBytes, valueBytes]
    rw [ofNat_leNat (w := 64) 8 (by decide)]
  | double d =>
    have copied := copyBytes_at front (valueBytes (.double d)) back rfl (length_valueBytes _) within
    simp only [payloadBytes, valueBytes] at copied
    simp only [Value.typeId, decodeValue, copied, Except.map, payloadBytes, valueBytes]
    rw [ofNat_leNat (w := 64) 8 (by decide)]
  | varchar s =>
    rw [payloadBytes] at within
    have length := copyBytes_at front (leBytes 4 s.length) (s ++ back) rfl
      (length_leBytes _ _) (show front.length + 4 ≤ total by omega)
    have characters := copyBytes_at (front ++ leBytes 4 s.length) s back
      (by rw [length_append, length_leBytes]) rfl
      (show front.length + 4 + s.length ≤ total by omega)
    rw [append_assoc] at characters
    have long : leNat (leBytes 4 s.length) = s.length := by
      rw [leNat_leBytes, mod_eq_of_lt (by omega)]
    rw [valueBytes, append_assoc]
    simp only [Value.typeId, decodeValue, length, long, characters, Except.map, payloadBytes]
    rw [Nat.add_assoc]

theorem decodeValues_eq {schema : List Column} {row : Row} (front back : Bytes)
    {bitmap : Bytes} (i : Nat) {total : Nat} (sameLength : row.length = schema.length)
    (types : ∀ c ∈ schema.zip row, c.2.isNull = false → c.2.typeId = c.1.type)
    (bits : ∀ k, k < row.length → nullAt bitmap (i + k) = ((row[k]?).map Value.isNull).getD false)
    (within : front.length + (row.map payloadBytes).sum ≤ total) (small : total < 2 ^ 32) :
    decodeValues (front ++ (row.flatMap valueBytes ++ back)) total bitmap i front.length schema =
      .ok (decoded schema row) := by
  induction schema generalizing row front i with
  | nil =>
    obtain rfl := List.length_eq_zero_iff.mp sameLength
    rfl
  | cons col schema ih =>
    cases row with
    | nil => cases sameLength
    | cons v row =>
      rw [List.length_cons, List.length_cons, Nat.add_right_cancel_iff] at sameLength
      rw [List.map_cons, List.sum_cons] at within
      have first := bits 0 (Nat.zero_lt_succ _)
      rw [add_zero] at first
      have rest := ih (front ++ valueBytes v) (i + 1) sameLength
        (fun c member => types c (List.mem_cons_of_mem _ member))
        (by
          intro k inRow
          have next := bits (k + 1) (Nat.succ_lt_succ inRow)
          rw [List.getElem?_cons_succ] at next
          rw [← next]
          congr 1
          omega)
        (by rw [length_append, length_valueBytes]; omega)
      rw [length_append, length_valueBytes, append_assoc] at rest
      rw [flatMap_cons, append_assoc, decodeValues, first]
      cases present : v.isNull with
      | true =>
        have noBytes : payloadBytes v = 0 := by
          cases v <;> first | rfl | cases present
        simp only [noBytes, add_zero] at rest
        simp [present, rest, Except.map, decoded]
      | false =>
        have type := types (col, v) List.mem_cons_self present
        have here := decodeValue_at present front (row.flatMap valueBytes ++ back)
          (show front.length + payloadBytes v ≤ total by omega) small
        simp only at type
        rw [← type]
        simp [present, rest, here, Except.map, decoded]

private theorem readHeader_bytes (hdr : HeapTupleHeader) (total : hdr.totalLength < 2 ^ 32)
    (long : tupleHeaderSize ≤ hdr.totalLength) (offset : hdr.nullBitmapOffset < 2 ^ 16)
    (columns : hdr.columnCount < 2 ^ 16) (reserved : hdr.reserved.length = 3) (more : Bytes) :
    readHeader (hdr.bytes ++ more) = .ok hdr := by
  have length : hdr.bytes.length = 12 := by simp [HeapTupleHeader.bytes, reserved]
  have enough : ¬ (hdr.bytes ++ more).length < tupleHeaderSize := by
    rw [length_append, length, tupleHeaderSize]
    omega
  have field (before after : Bytes) {k w n : Nat}
      (split : hdr.bytes = before ++ (leBytes w n ++ after)) (at_ : before.length = k)
      (small : n < 256 ^ w) : leNat (((hdr.bytes ++ more).drop k).take w) = n := by
    rw [split, append_assoc, append_assoc, drop_left' at_,
      List.take_left' (length_leBytes w n), leNat_leBytes, mod_eq_of_lt small]
  have first := field [] (leBytes 2 hdr.nullBitmapOffset ++ leBytes 2 hdr.columnCount ++
    hdr.deleted :: hdr.reserved) (k := 0) (w := 4) (n := hdr.totalLength)
    (by simp [HeapTupleHeader.bytes]) rfl total
  have second := field (leBytes 4 hdr.totalLength) (leBytes 2 hdr.columnCount ++
    hdr.deleted :: hdr.reserved) (k := 4) (w := 2) (n := hdr.nullBitmapOffset)
    (by simp [HeapTupleHeader.bytes]) (length_leBytes 4 _) offset
  have third := field (leBytes 4 hdr.totalLength ++ leBytes 2 hdr.nullBitmapOffset)
    (hdr.deleted :: hdr.reserved) (k := 6) (w := 2) (n := hdr.columnCount)
    (by simp [HeapTupleHeader.bytes]) (by simp) columns
  have tail : (hdr.bytes ++ more).drop 8 = hdr.deleted :: (hdr.reserved ++ more) := by
    rw [HeapTupleHeader.bytes, append_assoc, drop_left' (by simp)]
    rfl
  have fourth : ((hdr.bytes ++ more)[8]?).getD 0 = hdr.deleted := by
    have head := @List.getElem?_drop _ (hdr.bytes ++ more) 8 0
    rw [tail] at head
    rw [← head]
    rfl
  have fifth : ((hdr.bytes ++ more).drop 9).take 3 = hdr.reserved := by
    have next : (hdr.bytes ++ more).drop 9 = hdr.reserved ++ more := by
      have drop := List.drop_drop (i := 1) (j := 8) (l := hdr.bytes ++ more)
      rw [tail] at drop
      exact drop.symm
    rw [next, List.take_left' reserved]
  rw [List.drop_zero] at first
  rw [readHeader, if_neg enough]
  simp only [first, second, third, fourth, fifth]
  rw [if_neg (by omega)]

variable {schema : List Column} {row : Row}

private theorem decode_bytes {hdr : HeapTupleHeader} {head filled more : Bytes}
    (header : readHeader (head ++ (filled ++ (row.flatMap valueBytes ++ more))) = .ok hdr)
    (length : head.length = tupleHeaderSize) (offset : hdr.nullBitmapOffset = tupleHeaderSize)
    (columns : hdr.columnCount = schema.length)
    (mapLength : filled.length = (schema.length + 7) / 8)
    (total : hdr.totalLength = tupleHeaderSize + filled.length + (row.map payloadBytes).sum)
    (small : hdr.totalLength < 2 ^ 32) (valid : validateTupleAgainstSchema row schema = none)
    (bits : ∀ k, nullAt filled k = ((row[k]?).map Value.isNull).getD false) :
    decode schema (head ++ (filled ++ (row.flatMap valueBytes ++ more))) =
      .ok (decoded schema row) := by
  have sameLength := validate_length valid
  have long : (head ++ (filled ++ (row.flatMap valueBytes ++ more))).length =
      hdr.totalLength + more.length := by
    simp only [length_append, length_payload, length, total]
    omega
  have map : (head ++ (filled ++ (row.flatMap valueBytes ++ more))).drop tupleHeaderSize =
      filled ++ (row.flatMap valueBytes ++ more) := drop_left' length
  have values := @decodeValues_eq schema row (head ++ filled) more
    (filled ++ (row.flatMap valueBytes ++ more)) 0 hdr.totalLength sameLength
    (fun c member present => validateValue_type (validate_value valid c member) present)
    (by
      intro k inRow
      rw [Nat.zero_add, ← bits k, nullAt, nullAt, List.getElem?_append_left (by omega)])
    (by rw [length_append]; omega) small
  rw [length_append, append_assoc, length, mapLength] at values
  rw [decode, if_neg (by omega), header]
  simp only [columns, offset, map]
  rw [if_neg (by omega), if_neg (fun distinct => distinct rfl), if_neg (by omega)]
  exact values

structure Encoded (schema : List Column) (row : Row) (bytes : Bytes) : Prop where
  valid : validateTupleAgainstSchema row schema = none
  length : bytes.length = encodedSize row
  deleted : ∀ more, isDeleted (bytes ++ more) = .ok false
  markable : ∀ more, ∃ marked, markDeleted (bytes ++ more) = .ok marked ∧
    marked.length = (bytes ++ more).length
  read : ∀ more, decode schema (bytes ++ more) = .ok (decoded schema row)

theorem encode_encoded {bytes : Bytes} (few : schema.length < 2 ^ 16)
    (stored : encode row schema = .ok bytes) :
    Encoded schema row bytes := by
  unfold encode at stored
  rw [mod_eq_of_lt few] at stored
  split at stored
  · cases stored
  · rename_i valid
    simp only at stored
    split at stored
    · cases stored
    · rename_i small
      have sameLength := validate_length valid
      obtain ⟨filled, loop, mapLength, _, bits⟩ :=
        encodeValues_eq row (List.replicate ((schema.length + 7) / 8) 0) [] 0
          (by rw [List.length_replicate]; omega)
      simp only [Nat.zero_add, nullAt_replicate, Bool.false_or] at bits
      rw [List.length_replicate] at mapLength
      simp only [loop, List.nil_append] at stored
      obtain rfl := Except.ok.inj stored
      have header := fun more => readHeader_bytes
        ⟨tupleHeaderSize + (schema.length + 7) / 8 + (row.map payloadBytes).sum,
          tupleHeaderSize, schema.length, 0, [0, 0, 0]⟩ (by simp only; omega)
        (by simp only; omega) (by simp [tupleHeaderSize]) few rfl
        (filled ++ (row.flatMap valueBytes ++ more))
      have length (total : Nat) (deleted : UInt8) : (HeapTupleHeader.bytes ⟨total, tupleHeaderSize,
          schema.length, deleted, [0, 0, 0]⟩).length = tupleHeaderSize := by
        simp [HeapTupleHeader.bytes, tupleHeaderSize]
      refine ⟨valid, ?_, ?_, ?_, ?_⟩
      · simp only [length_append, length, length_payload, mapLength, encodedSize, sameLength]
        rw [tupleHeaderSize, Nat.add_assoc]
      · intro more
        simp only [append_assoc, isDeleted, header more]
        rfl
      · intro more
        simp only [append_assoc, markDeleted, header more]
        refine ⟨_, rfl, ?_⟩
        simp only [length_append, List.length_drop, length]
        omega
      · intro more
        simp only [append_assoc]
        exact decode_bytes (header more) (length _ _) rfl rfl mapLength
          (by simp only [mapLength]) (by simp only; omega) valid bits

theorem length_encodeValues (row : Row) (bitmap payload : Bytes) (i : Nat) :
    (encodeValues bitmap payload i row).1.length = bitmap.length ∧
      (encodeValues bitmap payload i row).2 = payload ++ row.flatMap valueBytes := by
  induction row generalizing bitmap payload i with
  | nil => simp [encodeValues]
  | cons v row ih =>
    rw [encodeValues]
    cases present : v.isNull with
    | true =>
      have noBytes : valueBytes v = [] := by
        cases v <;> first | rfl | cases present
      obtain ⟨length, payload⟩ := ih (markNull bitmap i) payload (i + 1)
      rw [if_pos rfl, length, payload, length_markNull, flatMap_cons, noBytes]
      exact ⟨rfl, rfl⟩
    | false =>
      obtain ⟨length, payload⟩ := ih bitmap (payload ++ valueBytes v) (i + 1)
      rw [if_neg Bool.false_ne_true, length, payload, flatMap_cons, append_assoc]
      exact ⟨rfl, rfl⟩

theorem length_encode (row : Row) (few : schema.length < 2 ^ 16) :
    (encode row schema).map List.length = Access.HeapFile.encode row schema := by
  cases stored : encode row schema with
  | ok bytes =>
    have encoded := encode_encoded few stored
    have size : tupleHeaderSize + (schema.length + 7) / 8 + (row.map payloadBytes).sum =
        encodedSize row := by
      rw [encodedSize, tupleHeaderSize, validate_length encoded.valid]
    rw [encode, encoded.valid, mod_eq_of_lt few] at stored
    simp only [size] at stored
    split at stored
    · cases stored
    · rename_i small
      rw [Access.HeapFile.encode, encoded.valid]
      simp only [if_neg small, Except.map, encoded.length]
  | error message =>
    rw [encode, mod_eq_of_lt few] at stored
    rw [Access.HeapFile.encode]
    cases valid : validateTupleAgainstSchema row schema with
    | some other =>
      rw [valid] at stored
      cases stored
      rfl
    | none =>
      have size : tupleHeaderSize + (schema.length + 7) / 8 + (row.map payloadBytes).sum =
          encodedSize row := by
        rw [encodedSize, tupleHeaderSize, validate_length valid]
      rw [valid] at stored
      simp only [size] at stored ⊢
      split at stored
      · rename_i large
        cases stored
        rw [if_pos large]
        rfl
      · cases stored

end RoundTrip

end GraniteDb.Storage.HeapTupleCodec
