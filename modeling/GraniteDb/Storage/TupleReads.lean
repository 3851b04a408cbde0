/- Decoding of a stored tuple read by read: it stays within the bytes it was given. -/

import GraniteDb.Storage.HeapTupleCodec

namespace GraniteDb.Storage.TupleReads

open Common.Value Storage.HeapTupleCodec
open Recovery.WalRecords (Bytes leNat)
open Access.HeapFile (Column decoded)

/-- What ends a decoding: an exception, or a read at or behind the given length. -/
inductive Stop
  | throws (message : String)
  | beyond
  deriving DecidableEq

def readBytes (data : Bytes) (pos n : Nat) : Except Stop Bytes :=
  if data.length < pos + n then .error .beyond else .ok ((data.drop pos).take n)

def ensureAvailable (pos need total : Nat) : Except Stop Unit :=
  if total < pos + need then .error (.throws "Heap tuple decode overflow") else .ok ()

/-- `ReadHeader`, which copies the header as a whole. -/
def readHeaderBytes (data : Bytes) : Except Stop HeapTupleHeader :=
  if data.length < tupleHeaderSize then .error (.throws "Heap tuple too small for header")
  else do
    let raw ← readBytes data 0 tupleHeaderSize
    let hdr : HeapTupleHeader :=
      { totalLength := leNat (raw.take 4)
        nullBitmapOffset := leNat ((raw.drop 4).take 2)
        columnCount := leNat ((raw.drop 6).take 2)
        deleted := (raw[8]?).getD 0
        reserved := (raw.drop 9).take 3 }
    if hdr.totalLength < tupleHeaderSize then .error (.throws "Corrupt heap tuple header")
    else .ok hdr

/-- The bit of column `i` in the bitmap at an offset. -/
def readNullBit (data : Bytes) (offset i : Nat) : Except Stop Bool :=
  (readBytes data (offset + i / 8) 1).map fun byte => nullAt byte (i % 8)

def readField (data : Bytes) (pos need total : Nat) : Except Stop Bytes := do
  ensureAvailable pos need total
  readBytes data pos need

/-- One value of `Decode`, and the position behind it. -/
def readValue (data : Bytes) (total pos : Nat) : TypeId → Except Stop (Value × Nat)
  | .boolean => (readField data pos 1 total).map fun x => (.boolean (leNat x ≠ 0), pos + 1)
  | .int32 => (readField data pos 4 total).map fun x => (.int32 (.ofNat 32 (leNat x)), pos + 4)
  | .int64 => (readField data pos 8 total).map fun x => (.int64 (.ofNat 64 (leNat x)), pos + 8)
  | .double =>
    (readField data pos 8 total).map fun x => (.double ⟨.ofNat 64 (leNat x)⟩, pos + 8)
  | .varchar => do
    let slen ← readField data pos 4 total
    (readField data (pos + 4) (leNat slen) total).map fun s =>
      (.varchar s, pos + 4 + leNat slen)
  | .invalid => .error (.throws "Unsupported type in HeapTupleCodec::Decode")

/-- The loop of `Decode`, from column `i` on. -/
def readValues (data : Bytes) (total offset i pos : Nat) : List Column → Except Stop Row
  | [] => .ok []
  | col :: rest => do
    if ← readNullBit data offset i then
      (readValues data total offset (i + 1) pos rest).map fun row => .null col.type :: row
    else
      let (v, pos) ← readValue data total pos col.type
      (readValues data total offset (i + 1) pos rest).map fun row => v :: row

/-- `Decode`. -/
def readTuple (schema : List Column) (data : Bytes) : Except Stop Row :=
  if data.length < tupleHeaderSize then .error (.throws "Heap tuple too small")
  else do
    let hdr ← readHeaderBytes data
    let bitmapBytes := (hdr.columnCount + 7) / 8
    if data.length < hdr.totalLength then
      .error (.throws "Heap tuple length exceeds available bytes")
    else if hdr.columnCount ≠ schema.length then
      .error (.throws "Heap tuple/schema column count mismatch")
    else if hdr.totalLength < hdr.nullBitmapOffset + bitmapBytes then
      .error (.throws "Corrupt null bitmap")
    else
      readValues data hdr.totalLength hdr.nullBitmapOffset 0 (tupleHeaderSize + bitmapBytes) schema

section Bounds

variable {data : Bytes} {total pos need : Nat}

theorem readBytes_within (inside : pos + need ≤ data.length) :
    readBytes data pos need = .ok ((data.drop pos).take need) := if_neg (Nat.not_lt.mpr inside)

theorem readField_eq (within : total ≤ data.length) (pos need : Nat) :
    readField data pos need total = (copyBytes data pos need total).mapError .throws := by
  unfold readField ensureAvailable copyBytes
  by_cases overflow : total < pos + need
  · rw [if_pos overflow, if_pos overflow]
    rfl
  · rw [if_neg overflow, if_neg overflow]
    exact readBytes_within (by omega)

theorem map_mapError {α β ε ε' : Type} (f : α → β) (g : ε → ε') (x : Except ε α) :
    (x.mapError g).map f = (x.map f).mapError g := by
  cases x <;> rfl

theorem readValue_eq (within : total ≤ data.length) (pos : Nat) (type : TypeId) :
    readValue data total pos type = (decodeValue data total pos type).mapError .throws := by
  cases type with
  | boolean | int32 | int64 | double =>
    rw [readValue, decodeValue, readField_eq within, map_mapError]
  | varchar =>
    rw [readValue, decodeValue, readField_eq within]
    cases copyBytes data pos 4 total with
    | error message => rfl
    | ok slen =>
      simp only [Except.mapError, bind, Except.bind, readField_eq within]
      exact map_mapError _ _ _
  | invalid => rfl

theorem readNullBit_eq {offset i : Nat} (inside : offset + i / 8 < data.length) :
    readNullBit data offset i = .ok (nullAt (data.drop offset) i) := by
  rw [readNullBit, readBytes_within inside]
  have byte : ((data.drop (offset + i / 8)).take 1)[0]? = (data.drop offset)[i / 8]? := by
    rw [List.getElem?_take_of_lt Nat.one_pos, List.getElem?_drop, List.getElem?_drop, Nat.add_zero]
  simp only [Except.map, nullAt, Nat.mod_mod]
  rw [Nat.div_eq_of_lt (Nat.mod_lt i (by omega)), byte]

theorem readValues_eq {offset n : Nat} (within : total ≤ data.length)
    (bitmap : offset + (n + 7) / 8 ≤ total) (schema : List Column) :
    ∀ i pos, i + schema.length = n → readValues data total offset i pos schema =
      (decodeValues data total (data.drop offset) i pos schema).mapError .throws := by
  induction schema with
  | nil =>
    intro i pos _
    rfl
  | cons col rest ih =>
    intro i pos count
    rw [List.length_cons] at count
    have next := ih (i + 1)
    rw [readValues, decodeValues, readNullBit_eq (by omega)]
    simp only [bind, Except.bind]
    cases nullAt (data.drop offset) i with
    | true =>
      rw [if_pos rfl, if_pos rfl, next pos (by omega), map_mapError]
    | false =>
      rw [if_neg Bool.false_ne_true, if_neg Bool.false_ne_true, readValue_eq within]
      cases decodeValue data total pos col.type with
      | error message => rfl
      | ok read =>
        simp only [Except.mapError]
        rw [next read.2 (by omega), map_mapError]
        rfl

theorem readHeaderBytes_eq (data : Bytes) :
    readHeaderBytes data = (readHeader data).mapError .throws := by
  unfold readHeaderBytes readHeader
  by_cases small : data.length < tupleHeaderSize
  · rw [if_pos small, if_pos small]
    rfl
  · rw [if_neg small, if_neg small, readBytes_within (by omega)]
    have part (k n : Nat) (inside : k + n ≤ tupleHeaderSize) :
        (((data.drop 0).take tupleHeaderSize).drop k).take n = (data.drop k).take n := by
      rw [List.drop_zero, List.drop_take, List.take_take, Nat.min_eq_left (by omega)]
    have first := part 0 4 (by decide)
    have deleted : ((data.drop 0).take tupleHeaderSize)[8]? = data[8]? := by
      rw [List.drop_zero, List.getElem?_take_of_lt (by decide)]
    rw [List.drop_zero, List.drop_zero] at first
    simp only [bind, Except.bind, part 4 2 (by decide), part 6 2 (by decide), part 9 3 (by decide),
      deleted]
    rw [List.drop_zero, first]
    split <;> rfl

theorem readTuple_eq (schema : List Column) (data : Bytes) :
    readTuple schema data = (decode schema data).mapError .throws := by
  unfold readTuple decode
  by_cases small : data.length < tupleHeaderSize
  · rw [if_pos small, if_pos small]
    rfl
  · rw [if_neg small, if_neg small, readHeaderBytes_eq]
    cases readHeader data with
    | error message => rfl
    | ok hdr =>
      simp only [Except.mapError, bind, Except.bind]
      by_cases long : data.length < hdr.totalLength
      · rw [if_pos long, if_pos long]
      rw [if_neg long, if_neg long]
      by_cases other : hdr.columnCount ≠ schema.length
      · rw [if_pos other, if_pos other]
      rw [if_neg other, if_neg other]
      by_cases corrupt : hdr.totalLength < hdr.nullBitmapOffset + (hdr.columnCount + 7) / 8
      · rw [if_pos corrupt, if_pos corrupt]
      rw [if_neg corrupt, if_neg corrupt]
      rw [ne_eq, not_not] at other
      exact readValues_eq (Nat.le_of_not_lt long) (n := hdr.columnCount) (by omega) schema 0 _
        (by omega)

end Bounds

/-- A tuple that was encoded is read back with its NULLs in the types of their columns, also before
zeros; and no byte behind any record is read. -/
theorem readTuple_encode :
    (∀ (schema : List Column) (row : Row) (bytes : Bytes), schema.length < 2 ^ 16 →
      encode row schema = .ok bytes →
      ∀ n, readTuple schema (bytes ++ List.replicate n 0) = .ok (decoded schema row)) ∧
    ∀ (schema : List Column) (data : Bytes), readTuple schema data ≠ .error .beyond := by
  constructor
  · intro schema row bytes few stored n
    rw [readTuple_eq, (encode_encoded few stored).read]
    rfl
  · intro schema data beyond
    rw [readTuple_eq] at beyond
    cases read : decode schema data with
    | error message =>
      rw [read] at beyond
      cases beyond
    | ok row =>
      rw [read] at beyond
      cases beyond

theorem readTuple_encode_overwritten :
    readTuple [⟨⟨"a", .int32⟩, true, 0⟩, ⟨⟨"b", .varchar⟩, true, 0⟩]
        ([22, 0, 0, 0, 12, 0, 2, 0, 0, 0, 0, 0, 0, 7, 0, 0, 0, 1, 0, 0, 0, 97] ++
          List.replicate 3 0) =
      .ok (decoded [⟨⟨"a", .int32⟩, true, 0⟩, ⟨⟨"b", .varchar⟩, true, 0⟩]
        [.int32 7, .varchar [97]]) :=
  readTuple_encode.1 _ _ _ (by decide) (by decide +kernel) 3

/-- A NULL of one type in a column of another is stored, and comes back in the column's type. -/
theorem null_changes_type : ¬ ((∀ (schema : List Column) (row : Row) (bytes : Bytes),
      schema.length < 2 ^ 16 → encode row schema = .ok bytes →
      ∀ n, readTuple schema (bytes ++ List.replicate n 0) = .ok row) ∧
    ∀ (schema : List Column) (data : Bytes), readTuple schema data ≠ .error .beyond) := by
  intro both
  have stored : encode [.null .varchar] [⟨⟨"a", .int32⟩, true, 0⟩] =
      .ok [13, 0, 0, 0, 12, 0, 1, 0, 0, 0, 0, 0, 1] := by decide +kernel
  have same := both.1 _ _ _ (by decide) stored 0
  revert same
  decide +kernel

end GraniteDb.Storage.TupleReads
