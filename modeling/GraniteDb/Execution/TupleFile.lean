/- Temporary files of tuples: writing, reading back, and what a tuple is afterwards. -/

import GraniteDb.Lib.Pull
import GraniteDb.Storage.HeapTupleCodec

namespace GraniteDb.Execution.TupleFile

open Common.Value Lib.Pull Storage.HeapTupleCodec
open Recovery.WalRecords (Bytes leBytes leNat length_leBytes)
open Recovery.WalFormat (leNat_leBytes)
open Access.HeapFile (Column validateTupleAgainstSchema validateValue payloadBytes decoded
  validate_length validate_value validateValue_type)
open List (length_append append_assoc zipWith_cons_cons map_cons mem_cons_self mem_cons_of_mem)
open List (mem_map sum_cons mapM_cons take_left' drop_left' length_take take_append)
open Nat (mod_eq_of_lt mod_le mod_lt)

/-- `Tuple::ValidateAgainstSchema`, whose checks are those of the heap file. -/
def Valid (schema : List Column) (row : Row) : Prop :=
  validateTupleAgainstSchema row schema = none

instance (schema : List Column) (row : Row) : Decidable (Valid schema row) :=
  inferInstanceAs (Decidable (_ = _))

/-- The bytes `Tuple::Serialize` writes for a value; of a string the 32 bits of its length and
as many characters. -/
def fieldBytes : Value → Bytes
  | .varchar s =>
    let len := s.length % 2 ^ 32
    leBytes 4 len ++ s.take len
  | v => valueBytes v

/-- The loop of `Tuple::Serialize` over the NULL columns. -/
def markNulls (bitmap : Bytes) (i : Nat) : Row → Bytes
  | [] => bitmap
  | v :: rest => markNulls (if v.isNull then markNull bitmap i else bitmap) (i + 1) rest

/-- `Tuple::Serialize`; `none` is an exception. The column count is kept in 16 bits. -/
def serialize (schema : List Column) (row : Row) : Option Bytes :=
  if Valid schema row then
    let columnCount := row.length % 2 ^ 16
    let bitmap := List.replicate ((columnCount + 7) / 8) 0
    some (leBytes 2 columnCount ++ (markNulls bitmap 0 row ++ row.flatMap fieldBytes))
  else none

/-- `Tuple::Deserialize`; `none` is an exception. Its loop is the one of the heap tuples. -/
def deserialize (schema : List Column) (data : Bytes) : Option Row :=
  if data.length < 2 then none
  else
    let columnCount := leNat (data.take 2)
    let bitmapBytes := (columnCount + 7) / 8
    if columnCount ≠ schema.length then none
    else if data.length < 2 + bitmapBytes then none
    else
      (decodeValues data data.length ((data.drop 2).take bitmapBytes) 0 (2 + bitmapBytes)
        schema).toOption

/-- `WriteTupleToStream`: the bytes that are appended. -/
def writeTuple (schema : List Column) (row : Row) : Option Bytes :=
  (serialize schema row).map fun bytes => leBytes 4 bytes.length ++ bytes

def writeTuples (schema : List Column) (rows : List Row) : Option Bytes :=
  (rows.mapM (writeTuple schema)).map List.flatten

/-- The calls of `ReadTupleFromStream` until it returns false. -/
def readLoop (schema : List Column) : Nat → Bytes → Pull Row
  | 0, _ => .done
  | fuel + 1, stream =>
    if stream.length < 4 then .done
    else
      let len := leNat (stream.take 4)
      let rest := stream.drop 4
      if rest.length < len then .thrown
      else
        match deserialize schema (rest.take len) with
        | none => .thrown
        | some row => .item row (readLoop schema fuel (rest.drop len))

/-- The tuples of a file. Every call that returns true takes four bytes at least. -/
def readTuples (schema : List Column) (file : Bytes) : Pull Row :=
  readLoop schema file.length file

def cut : Value → Value
  | .varchar s => .varchar (s.take (s.length % 2 ^ 32))
  | v => v

def recordBytes (row : Row) : Nat :=
  2 + (row.length + 7) / 8 + ((row.map cut).map payloadBytes).sum

/-- A tuple that was written, as it is read back; `none` if reading it throws. -/
def kept (schema : List Column) (row : Row) : Option Row :=
  if schema.length < 2 ^ 16 ∧ recordBytes row < 2 ^ 32 then some (decoded schema (row.map cut))
  else none

@[simp] theorem isNull_cut (v : Value) : (cut v).isNull = v.isNull := by
  cases v <;> rfl

@[simp] theorem typeId_cut (v : Value) : (cut v).typeId = v.typeId := by
  cases v <;> rfl

theorem fieldBytes_eq (v : Value) : fieldBytes v = valueBytes (cut v) := by
  cases v with
  | varchar s =>
    have short : s.length % 2 ^ 32 ≤ s.length := mod_le _ _
    simp only [fieldBytes, cut, valueBytes, length_take, Nat.min_eq_left short]
  | _ => rfl

def Short : Value → Prop
  | .varchar s => s.length < 2 ^ 32
  | _ => True

theorem short_cut (v : Value) : Short (cut v) := by
  cases v with
  | varchar s =>
    have less : s.length % 2 ^ 32 < 2 ^ 32 := mod_lt _ (by omega)
    have short : s.length % 2 ^ 32 ≤ s.length := mod_le _ _
    simp only [cut, Short, length_take]
    omega
  | _ => trivial

theorem cut_of_short {v : Value} (short : Short v) : cut v = v := by
  cases v with
  | varchar s => rw [cut, mod_eq_of_lt short, List.take_length]
  | _ => rfl

theorem map_fieldBytes (row : Row) : row.flatMap fieldBytes = (row.map cut).flatMap valueBytes := by
  rw [List.flatMap_map]
  exact List.flatMap_congr fun v _ => fieldBytes_eq v

theorem markNulls_eq (bitmap payload : Bytes) (i : Nat) (row : Row) :
    markNulls bitmap i row = (encodeValues bitmap payload i (row.map cut)).1 := by
  induction row generalizing bitmap payload i with
  | nil => rfl
  | cons v row ih =>
    rw [markNulls, map_cons, encodeValues, isNull_cut]
    cases v.isNull with
    | true => exact ih _ _ _
    | false => exact ih _ _ _

theorem valid_value {schema : List Column} {row : Row} (valid : Valid schema row) :
    ∀ c ∈ schema.zip (row.map cut), c.2.isNull = false → c.2.typeId = c.1.type := by
  intro c member present
  rw [List.zip_map_right] at member
  obtain ⟨pair, inRow, rfl⟩ := mem_map.mp member
  simp only [Prod.map_snd, isNull_cut, Prod.map_fst, typeId_cut, id_eq] at present ⊢
  exact validateValue_type (validate_value valid pair inRow) present

section Reading

private theorem copyBytes_short {data : Bytes} {pos need total : Nat} (missing : total < pos + need) :
    copyBytes data pos need total = .error "Heap tuple decode overflow" := by
  rw [copyBytes, if_pos missing]

private theorem decodeValue_cut {v : Value} (present : v.isNull = false) (short : Short v)
    (front back : Bytes) {k : Nat} (missing : k < payloadBytes v) :
    ∃ what, decodeValue (front ++ (valueBytes v ++ back).take k) (front.length + k) front.length
      v.typeId = .error what := by
  cases v with
  | null type => cases present
  | boolean b =>
    rw [payloadBytes] at missing
    simp only [Value.typeId, decodeValue]
    rw [copyBytes_short (by omega)]
    exact ⟨_, rfl⟩
  | int32 n =>
    rw [payloadBytes] at missing
    simp only [Value.typeId, decodeValue]
    rw [copyBytes_short (by omega)]
    exact ⟨_, rfl⟩
  | int64 n =>
    rw [payloadBytes] at missing
    simp only [Value.typeId, decodeValue]
    rw [copyBytes_short (by omega)]
    exact ⟨_, rfl⟩
  | double d =>
    rw [payloadBytes] at missing
    simp only [Value.typeId, decodeValue]
    rw [copyBytes_short (by omega)]
    exact ⟨_, rfl⟩
  | varchar s =>
    rw [payloadBytes] at missing
    simp only [Value.typeId, decodeValue]
    by_cases length : k < 4
    · rw [copyBytes_short (by omega)]
      exact ⟨_, rfl⟩
    · have split : (valueBytes (.varchar s) ++ back).take k =
          leBytes 4 s.length ++ (s ++ back).take (k - 4) := by
        rw [valueBytes, append_assoc, take_append, length_leBytes,
          List.take_of_length_le (by rw [length_leBytes]; omega)]
      have read := copyBytes_at front (leBytes 4 s.length) ((s ++ back).take (k - 4)) rfl
        (length_leBytes _ _) (show front.length + 4 ≤ front.length + k by omega)
      have long : leNat (leBytes 4 s.length) = s.length := by
        rw [leNat_leBytes]
        exact mod_eq_of_lt short
      rw [split, read]
      simp only [long]
      rw [copyBytes_short (by omega)]
      exact ⟨_, rfl⟩

variable {schema : List Column} {row : Row}

theorem decodeValues_cut (front : Bytes) {bitmap : Bytes} (i k : Nat)
    (sameLength : row.length = schema.length)
    (types : ∀ c ∈ schema.zip row, c.2.isNull = false → c.2.typeId = c.1.type)
    (bits : ∀ k, k < row.length → nullAt bitmap (i + k) = ((row[k]?).map Value.isNull).getD false)
    (shorts : ∀ v ∈ row, Short v) (missing : k < (row.map payloadBytes).sum)
    (small : front.length + k < 2 ^ 32) :
    (decodeValues (front ++ (row.flatMap valueBytes).take k) (front.length + k) bitmap i
      front.length schema).toOption = none := by
  induction schema generalizing row front i k with
  | nil =>
    obtain rfl := List.length_eq_zero_iff.mp sameLength
    simp at missing
  | cons col schema ih =>
    cases row with
    | nil => cases sameLength
    | cons v row =>
      rw [List.length_cons, List.length_cons, Nat.add_right_cancel_iff] at sameLength
      rw [map_cons, sum_cons] at missing
      have first := bits 0 (Nat.zero_lt_succ _)
      rw [Nat.add_zero] at first
      have types' : ∀ c ∈ schema.zip row, c.2.isNull = false → c.2.typeId = c.1.type :=
        fun c member => types c (mem_cons_of_mem _ member)
      have shorts' : ∀ v ∈ row, Short v := fun v member => shorts v (mem_cons_of_mem _ member)
      have bits' : ∀ k, k < row.length →
          nullAt bitmap (i + 1 + k) = ((row[k]?).map Value.isNull).getD false := by
        intro k inRow
        have next := bits (k + 1) (Nat.succ_lt_succ inRow)
        rw [List.getElem?_cons_succ] at next
        rw [← next]
        congr 1
        omega
      rw [decodeValues, first]
      cases present : v.isNull with
      | true =>
        have noBytes : valueBytes v = [] := by
          cases v <;> first | rfl | cases present
        have nothing : payloadBytes v = 0 := by
          cases v <;> first | rfl | cases present
        have rest := ih front (i + 1) k sameLength types' bits' shorts' (by omega) small
        rw [List.flatMap_cons, noBytes, List.nil_append]
        simp only [List.getElem?_cons_zero, Option.map_some, present, Option.getD_some,
          if_true]
        cases decoded_ : decodeValues (front ++ (row.flatMap valueBytes).take k)
            (front.length + k) bitmap (i + 1) front.length schema with
        | error what => rfl
        | ok values =>
          rw [decoded_] at rest
          cases rest
      | false =>
        have type := types (col, v) mem_cons_self present
        simp only [List.getElem?_cons_zero, Option.map_some, present, Option.getD_some,
          Bool.false_eq_true, if_false]
        simp only at type
        rw [← type]
        by_cases whole : payloadBytes v ≤ k
        · have split : (List.flatMap valueBytes (v :: row)).take k =
              valueBytes v ++ (row.flatMap valueBytes).take (k - payloadBytes v) := by
            rw [List.flatMap_cons, take_append, length_valueBytes,
              List.take_of_length_le (by rw [length_valueBytes]; exact whole)]
          have here := decodeValue_at present front
            ((row.flatMap valueBytes).take (k - payloadBytes v))
            (show front.length + payloadBytes v ≤ front.length + k by omega) small
          have rest := ih (front ++ valueBytes v) (i + 1) (k - payloadBytes v) sameLength types'
            bits' shorts' (by omega) (by rw [length_append, length_valueBytes]; omega)
          rw [length_append, length_valueBytes, append_assoc, Nat.add_assoc,
            Nat.add_sub_cancel' whole] at rest
          rw [split, here]
          simp only
          cases decoded_ : decodeValues
              (front ++ (valueBytes v ++ (row.flatMap valueBytes).take (k - payloadBytes v)))
              (front.length + k) bitmap (i + 1) (front.length + payloadBytes v) schema with
          | error what => rfl
          | ok values =>
            rw [decoded_] at rest
            cases rest
        · -- The value itself is not all there.
          have stops : ∃ what, decodeValue (front ++ (List.flatMap valueBytes (v :: row)).take k)
              (front.length + k) front.length v.typeId = .error what := by
            rw [List.flatMap_cons]
            exact decodeValue_cut present (shorts v mem_cons_self) front _ (by omega)
          obtain ⟨what, stopped⟩ := stops
          rw [stopped]
          rfl

private theorem serialize_eq (valid : Valid schema row) :
    ∃ bitmap, serialize schema row = some (leBytes 2 (row.length % 2 ^ 16) ++
        (bitmap ++ (row.map cut).flatMap valueBytes)) ∧
      bitmap.length = (row.length % 2 ^ 16 + 7) / 8 ∧ (row.length < 2 ^ 16 →
        ∀ k, nullAt bitmap k = (((row.map cut)[k]?).map Value.isNull).getD false) := by
  let blank : Bytes := List.replicate ((row.length % 2 ^ 16 + 7) / 8) 0
  refine ⟨markNulls blank 0 row, ?_, ?_, ?_⟩
  · rw [serialize, if_pos valid, map_fieldBytes]
  · rw [markNulls_eq blank [] 0 row, (length_encodeValues _ _ _ _).1, List.length_replicate]
  · intro few
    have room : 0 + (row.map cut).length ≤ 8 * blank.length := by
      rw [List.length_map, List.length_replicate, mod_eq_of_lt few]
      omega
    obtain ⟨filled, loop, -, -, bits⟩ := encodeValues_eq (row.map cut) blank [] 0 room
    intro k
    have bit := bits k
    rw [Nat.zero_add, nullAt_replicate, Bool.false_or] at bit
    rw [markNulls_eq blank [] 0 row, loop, bit]

theorem deserialize_serialize {bytes : Bytes} (written : serialize schema row = some bytes) :
    deserialize schema (bytes.take (bytes.length % 2 ^ 32)) = kept schema row := by
  have valid : Valid schema row := by
    unfold serialize at written
    split at written
    · assumption
    · cases written
  have sameLength := validate_length valid
  obtain ⟨bitmap, eq, mapLength, bits⟩ := serialize_eq valid
  obtain rfl := Option.some.inj (written.symm.trans eq)
  obtain ⟨columns, isColumns⟩ : ∃ c, c = row.length % 2 ^ 16 := ⟨_, rfl⟩
  obtain ⟨payload, isPayload⟩ : ∃ p, p = (row.map cut).flatMap valueBytes := ⟨_, rfl⟩
  rw [← isColumns] at mapLength ⊢
  rw [← isPayload]
  have payloadLength : payload.length = ((row.map cut).map payloadBytes).sum := by
    rw [isPayload, length_payload]
  have few : columns < 2 ^ 16 := by
    rw [isColumns]
    exact mod_lt _ (by omega)
  have length : (leBytes 2 columns ++ (bitmap ++ payload)).length =
      2 + (columns + 7) / 8 + payload.length := by
    rw [length_append, length_append, length_leBytes, mapLength, Nat.add_assoc]
  rw [length]
  obtain ⟨m, isM⟩ : ∃ m, m = (2 + (columns + 7) / 8 + payload.length) % 2 ^ 32 := ⟨_, rfl⟩
  have le : m ≤ 2 + (columns + 7) / 8 + payload.length := isM ▸ mod_le _ _
  have small : m < 2 ^ 32 := isM ▸ mod_lt _ (by omega)
  -- A tuple that is kept is all there.
  have whole : schema.length < 2 ^ 16 → recordBytes row < 2 ^ 32 →
      columns = schema.length ∧ m = 2 + (columns + 7) / 8 + payload.length := by
    intro narrow fits
    have same : columns = row.length := by
      rw [isColumns]
      exact mod_eq_of_lt (by omega)
    rw [recordBytes, ← payloadLength, ← same] at fits
    exact ⟨by omega, by rw [isM]; exact mod_eq_of_lt fits⟩
  have dataLength : ((leBytes 2 columns ++ (bitmap ++ payload)).take m).length = m := by
    rw [length_take, length]
    omega
  rw [← isM, deserialize, dataLength]
  by_cases tiny : m < 2
  · rw [if_pos tiny, kept, if_neg]
    intro both
    have all := (whole both.1 both.2).2
    omega
  rw [if_neg tiny]
  have count : leNat (((leBytes 2 columns ++ (bitmap ++ payload)).take m).take 2) = columns := by
    rw [List.take_take, Nat.min_eq_left (by omega), take_left' (length_leBytes _ _),
      leNat_leBytes]
    exact mod_eq_of_lt few
  simp only [count]
  by_cases same : columns = schema.length
  case neg =>
    rw [if_pos same, kept, if_neg]
    intro both
    exact same (whole both.1 both.2).1
  rw [if_neg (fun distinct => distinct same)]
  by_cases noMap : m < 2 + (columns + 7) / 8
  · rw [if_pos noMap, kept, if_neg]
    intro both
    have all := (whole both.1 both.2).2
    omega
  rw [if_neg noMap]
  obtain ⟨k, isK⟩ : ∃ k, m = 2 + (columns + 7) / 8 + k := Nat.exists_eq_add_of_le (by omega)
  have data : (leBytes 2 columns ++ (bitmap ++ payload)).take m =
      (leBytes 2 columns ++ bitmap) ++ payload.take k := by
    have head : (leBytes 2 columns ++ bitmap).length = 2 + (columns + 7) / 8 := by
      rw [length_append, length_leBytes, mapLength]
    rw [← append_assoc, take_append, head, List.take_of_length_le (by omega), isK,
      Nat.add_sub_cancel_left]
  have front : (leBytes 2 columns ++ bitmap).length = 2 + (columns + 7) / 8 := by
    rw [length_append, length_leBytes, mapLength]
  have map : ((leBytes 2 columns ++ bitmap ++ payload.take k).drop 2).take ((columns + 7) / 8) =
      bitmap := by
    rw [append_assoc, drop_left' (length_leBytes _ _), take_left' mapLength]
  have inRow : (row.map cut).length = schema.length := by rw [List.length_map, sameLength]
  have unwrapped : row.length < 2 ^ 16 := by omega
  have allBits : ∀ k, k < (row.map cut).length →
      nullAt bitmap (0 + k) = (((row.map cut)[k]?).map Value.isNull).getD false := by
    intro k _
    rw [Nat.zero_add]
    exact bits unwrapped k
  have size : recordBytes row = 2 + (columns + 7) / 8 + payload.length := by
    rw [recordBytes, payloadLength, same, sameLength]
  rw [data, map, ← front]
  by_cases fits : recordBytes row < 2 ^ 32
  · have all := (whole (by omega) fits).2
    have full : payload.take k = payload := List.take_of_length_le (by omega)
    have read := @decodeValues_eq schema (row.map cut) (leBytes 2 columns ++ bitmap) [] bitmap 0
      m inRow (valid_value valid) allBits (by rw [front, ← payloadLength]; omega) small
    rw [List.append_nil, ← isPayload] at read
    rw [full, read, kept, if_pos ⟨by omega, fits⟩]
    rfl
  · have missing : k < ((row.map cut).map payloadBytes).sum := by
      rw [← payloadLength]
      omega
    have read := decodeValues_cut (leBytes 2 columns ++ bitmap) 0 k inRow (valid_value valid)
      allBits (fun v member => by
        obtain ⟨u, -, rfl⟩ := mem_map.mp member
        exact short_cut u) missing (by rw [front]; omega)
    rw [← isPayload, front, ← isK] at read
    rw [front, read, kept, if_neg fun both => fits both.2]

private theorem length_of_kept {row' : Row} {bytes : Bytes}
    (written : serialize schema row = some bytes) (back : kept schema row = some row') :
    bytes.length < 2 ^ 32 := by
  unfold kept at back
  split at back
  · rename_i fits
    have valid : Valid schema row := by
      unfold serialize at written
      split at written
      · assumption
      · cases written
    have sameLength := validate_length valid
    obtain ⟨bitmap, eq, mapLength, -⟩ := serialize_eq valid
    obtain rfl := Option.some.inj (written.symm.trans eq)
    have unwrapped : row.length % 2 ^ 16 = row.length := mod_eq_of_lt (by omega)
    have size := fits.2
    rw [unwrapped] at mapLength
    rw [recordBytes, ← length_payload] at size
    rw [length_append, length_append, length_leBytes, mapLength]
    omega
  · cases back

theorem readTuples_written {rows : List Row} {file : Bytes}
    (written : writeTuples schema rows = some file) :
    readTuples schema file = (Pull.ofList rows).mapM (kept schema) := by
  have loop (fuel : Nat) (enough : file.length ≤ fuel) :
      readLoop schema fuel file = (Pull.ofList rows).mapM (kept schema) := by
    induction rows generalizing file fuel with
    | nil =>
      cases written
      cases fuel with
      | zero => rfl
      | succ fuel => rfl
    | cons row rows ih =>
      obtain ⟨parts, all, rfl⟩ := Option.map_eq_some_iff.mp written
      simp only [mapM_cons, Option.bind_eq_bind, Option.bind_eq_some_iff] at all
      obtain ⟨part, first, rest, others, same⟩ := all
      cases same
      obtain ⟨record, serialized, rfl⟩ := Option.map_eq_some_iff.mp first
      have back := deserialize_serialize serialized
      rw [List.flatten_cons, append_assoc] at enough ⊢
      rw [length_append, length_leBytes, length_append] at enough
      cases fuel with
      | zero => omega
      | succ fuel =>
        have head : ¬ (leBytes 4 record.length ++ (record ++ rest.flatten)).length < 4 := by
          rw [length_append, length_leBytes]
          omega
        have length : leNat ((leBytes 4 record.length ++ (record ++ rest.flatten)).take 4) =
            record.length % 2 ^ 32 := by
          have width : 256 ^ 4 = 2 ^ 32 := rfl
          rw [take_left' (length_leBytes _ _), leNat_leBytes, width]
        have le : record.length % 2 ^ 32 ≤ record.length := mod_le _ _
        have there : ¬ (record ++ rest.flatten).length < record.length % 2 ^ 32 := by
          rw [length_append]
          omega
        rw [readLoop, if_neg head]
        simp only [length, drop_left' (length_leBytes 4 record.length)]
        rw [if_neg there, List.take_append_of_le_length le, back]
        simp only [Pull.ofList, Pull.mapM]
        cases kept_ : kept schema row with
        | none => rfl
        | some row' =>
          have short := length_of_kept serialized kept_
          have next := @ih rest.flatten (by rw [writeTuples, others]; rfl) fuel
            (by omega)
          simp only [mod_eq_of_lt short, drop_left' (rfl : record.length = _), next]
  exact loop _ le_rfl

end Reading

section Stability

private theorem zipWith_zipWith {α β γ : Type} (f : α → γ → γ) (g : α → β → γ) (as : List α)
    (bs : List β) :
    List.zipWith f as (List.zipWith g as bs) = List.zipWith (fun a b => f a (g a b)) as bs := by
  induction as generalizing bs with
  | nil => rfl
  | cons a as ih =>
    cases bs with
    | nil => rfl
    | cons b bs =>
      rw [zipWith_cons_cons, zipWith_cons_cons, zipWith_cons_cons, ih]

def keptValue (col : Column) (v : Value) : Value := if v.isNull then .null col.type else cut v

theorem decoded_cut (schema : List Column) (row : Row) :
    decoded schema (row.map cut) = List.zipWith keptValue schema row := by
  simp only [decoded, List.zipWith_map_right, isNull_cut]
  rfl

theorem cut_keptValue (col : Column) (v : Value) : cut (keptValue col v) = keptValue col v := by
  unfold keptValue
  split
  · rfl
  · exact cut_of_short (short_cut v)

theorem keptValue_keptValue (col : Column) (v : Value) :
    keptValue col (keptValue col v) = keptValue col v := by
  unfold keptValue
  cases present : v.isNull with
  | true => rfl
  | false =>
    rw [if_neg Bool.false_ne_true, isNull_cut, present, if_neg Bool.false_ne_true]
    exact cut_of_short (short_cut v)

theorem validateValue_keptValue {col : Column} {v : Value} (valid : validateValue col v = none) :
    validateValue col (keptValue col v) = none := by
  cases v with
  | null type =>
    simp only [keptValue, Value.isNull, if_true, validateValue] at valid ⊢
    exact valid
  | varchar s =>
    have shorter : (s.take (s.length % 2 ^ 32)).length ≤ s.length := List.length_take_le' _ _
    have same : keptValue col (.varchar s) = .varchar (s.take (s.length % 2 ^ 32)) := rfl
    rw [same]
    simp only [validateValue, Value.isNull, Bool.false_eq_true, if_false] at valid ⊢
    split at valid
    · cases valid
    · rename_i type
      split at valid
      · cases valid
      · rename_i fits
        have type' : ¬ (Value.varchar (s.take (s.length % 2 ^ 32))).typeId ≠ col.type := type
        rw [if_neg type', if_neg fun longer => fits ⟨longer.1, by omega⟩]
  | _ => exact valid

theorem payloadBytes_keptValue (col : Column) (v : Value) :
    payloadBytes (keptValue col v) = payloadBytes (cut v) := by
  cases v <;> rfl

variable {schema : List Column} {rows : List Row}

theorem kept_stable {row row' : Row} (valid : Valid schema row)
    (back : kept schema row = some row') :
    Valid schema row' ∧ kept schema row' = some row' := by
  have sameLength := validate_length valid
  unfold kept at back
  split at back
  case isFalse => cases back
  rename_i fits
  obtain rfl := Option.some.inj back
  rw [decoded_cut]
  have length : (List.zipWith keptValue schema row).length = schema.length := by
    rw [List.length_zipWith, sameLength, Nat.min_self]
  constructor
  · have zipped : schema.zip (List.zipWith keptValue schema row) =
        (schema.zip row).map fun c => (c.1, keptValue c.1 c.2) := by
      clear valid fits back length
      induction schema generalizing row with
      | nil => rfl
      | cons col schema ih =>
        cases row with
        | nil => cases sameLength
        | cons v row => simp [ih (by simpa using sameLength)]
    rw [Valid, validateTupleAgainstSchema, if_neg (fun distinct => distinct length), zipped,
      List.findSome?_eq_none_iff]
    intro c member
    obtain ⟨pair, inRow, rfl⟩ := mem_map.mp member
    exact validateValue_keptValue (validate_value valid pair inRow)
  · have cutAgain : (List.zipWith keptValue schema row).map cut =
        List.zipWith keptValue schema row := by
      rw [List.map_zipWith]
      simp only [cut_keptValue]
    have decodedAgain : List.zipWith keptValue schema (List.zipWith keptValue schema row) =
        List.zipWith keptValue schema row := by
      rw [zipWith_zipWith]
      simp only [keptValue_keptValue]
    have payload : ((List.zipWith keptValue schema row).map payloadBytes).sum =
        ((row.map cut).map payloadBytes).sum := by
      clear valid fits back length cutAgain decodedAgain
      induction schema generalizing row with
      | nil =>
        obtain rfl := List.length_eq_zero_iff.mp sameLength
        rfl
      | cons col schema ih =>
        cases row with
        | nil => cases sameLength
        | cons v row =>
          have rest := @ih row (by simpa using sameLength)
          simp only [zipWith_cons_cons, map_cons, sum_cons,
            payloadBytes_keptValue, rest]
    have size : recordBytes (List.zipWith keptValue schema row) = recordBytes row := by
      rw [recordBytes, cutAgain, payload, length, recordBytes, sameLength]
    rw [kept, size, if_pos fits, decoded_cut, decodedAgain]

theorem writeTuples_valid (valid : ∀ row ∈ rows, Valid schema row) :
    ∃ file, writeTuples schema rows = some file := by
  have each : ∃ parts, rows.mapM (writeTuple schema) = some parts := by
    induction rows with
    | nil => exact ⟨[], rfl⟩
    | cons row rows ih =>
      obtain ⟨parts, written⟩ := ih fun other member => valid other (mem_cons_of_mem _ member)
      have here : ∃ part, writeTuple schema row = some part := by
        rw [writeTuple, serialize, if_pos (valid row mem_cons_self)]
        exact ⟨_, rfl⟩
      obtain ⟨part, first⟩ := here
      exact ⟨part :: parts, by simp [first, written]⟩
  obtain ⟨parts, written⟩ := each
  exact ⟨parts.flatten, by rw [writeTuples, written]; rfl⟩

def Intact (schema : List Column) (row : Row) : Prop :=
  Valid schema row ∧ kept schema row = some row

theorem intact_of_kept {back : List Row} (valid : ∀ row ∈ rows, Valid schema row)
    (read : rows.mapM (kept schema) = some back) :
    ∀ row ∈ back, Intact schema row := by
  induction rows generalizing back with
  | nil =>
    cases read
    intro row member
    cases member
  | cons first rows ih =>
    simp only [mapM_cons, Option.bind_eq_bind, Option.bind_eq_some_iff] at read
    obtain ⟨head, here, tail, rest, same⟩ := read
    cases same
    intro row member
    rcases List.mem_cons.mp member with rfl | later
    · exact kept_stable (valid first mem_cons_self) here
    · exact ih (fun other inRows => valid other (mem_cons_of_mem _ inRows)) rest row later

theorem readTuples_intact {file : Bytes} (intact : ∀ row ∈ rows, Intact schema row)
    (written : writeTuples schema rows = some file) :
    readTuples schema file = Pull.ofList rows := by
  have each := Pull.mapM_ofList (g := fun row : Row => row) fun row member => (intact row member).2
  rw [readTuples_written written, each, List.map_id']

end Stability

section Back

def Fits (schema : List Column) (row : Row) : Prop :=
  schema.length < 2 ^ 16 ∧ recordBytes row < 2 ^ 32

instance (schema : List Column) (row : Row) : Decidable (Fits schema row) :=
  inferInstanceAs (Decidable (_ ∧ _))

def back (schema : List Column) (row : Row) : Row := List.zipWith keptValue schema row

theorem kept_eq (schema : List Column) (row : Row) :
    kept schema row = if Fits schema row then some (back schema row) else none := by
  rw [kept, decoded_cut]
  rfl

variable {schema : List Column} {row : Row}

theorem length_back (valid : Valid schema row) : (back schema row).length = row.length := by
  have same := validate_length valid
  rw [back, List.length_zipWith, same, Nat.min_self]

theorem back_back (valid : Valid schema row) (fits : Fits schema row) :
    back schema (back schema row) = back schema row := by
  have stable := (kept_stable valid (by rw [kept_eq, if_pos fits])).2
  rw [kept_eq] at stable
  split at stable
  · exact Option.some.inj stable
  · cases stable

theorem mapM_kept (schema : List Column) (rows : List Row) : rows.mapM (kept schema) =
    if ∀ row ∈ rows, Fits schema row then some (rows.map (back schema)) else none := by
  induction rows with
  | nil => rfl
  | cons row rows ih =>
    rw [mapM_cons, ih, kept_eq]
    by_cases here : Fits schema row
    · by_cases later : ∀ row ∈ rows, Fits schema row
      · rw [if_pos here, if_pos later, if_pos (List.forall_mem_cons.mpr ⟨here, later⟩)]
        rfl
      · rw [if_pos here, if_neg later, if_neg fun all => later (List.forall_mem_cons.mp all).2]
        rfl
    · rw [if_neg here, if_neg fun all => here (List.forall_mem_cons.mp all).1]
      rfl

def columnValue (i : Nat) (row : Row) : Value := row[i]?.getD (.null .invalid)

theorem columnValue_eq {i : Nat} {col : Column} (column : schema[i]? = some col)
    (valid : Valid schema row) :
    row[i]? = some (columnValue i row) ∧ validateValue col (columnValue i row) = none := by
  have inSchema := (List.getElem?_eq_some_iff.mp column).1
  have inRow : i < row.length := by rwa [validate_length valid]
  have value : row[i]? = some (columnValue i row) := by
    rw [columnValue, List.getElem?_eq_getElem inRow, Option.getD_some]
  refine ⟨value, ?_⟩
  have zipped : (schema.zip row)[i]? = some (col, columnValue i row) := by
    rw [List.getElem?_zip_eq_some]
    exact ⟨column, value⟩
  exact validate_value valid (col, columnValue i row) (List.mem_of_getElem? zipped)

theorem columnValue_back {i : Nat} {col : Column} (column : schema[i]? = some col)
    (valid : Valid schema row) :
    (back schema row)[i]? = some (keptValue col (columnValue i row)) := by
  rw [back, List.getElem?_zipWith, column, (columnValue_eq column valid).1]

end Back

end GraniteDb.Execution.TupleFile
