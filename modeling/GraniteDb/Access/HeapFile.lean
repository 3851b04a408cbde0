/- Encoding checks of stored tuples, heap files by page and slot, and their scans. -/

import GraniteDb.Catalog.CatalogManager
import Mathlib.Data.List.Nodup
import Mathlib.Logic.Function.Basic

set_option linter.dupNamespace false

namespace GraniteDb.Access.HeapFile

open Common.Types Common.Value
open Catalog.CatalogManager (FitsSchema)

section HeapTupleCodec

structure Column extends Catalog.CatalogManager.Column where
  nullable : Bool
  maxLength : Nat
  deriving DecidableEq

/-- `ValidateTupleAgainstSchema`, on one value: the message of the exception. -/
def validateValue (col : Column) (v : Value) : Option String :=
  if v.isNull then
    if col.nullable then none else some ("NULL into non-nullable column: " ++ col.name)
  else if v.typeId ≠ col.type then some ("Type mismatch for column: " ++ col.name)
  else
    match v with
    | .varchar s =>
      if 0 < col.maxLength ∧ col.maxLength < s.length then
        some ("VARCHAR too long for column: " ++ col.name)
      else none
    | _ => none

def validateTupleAgainstSchema (row : Row) (schema : List Column) : Option String :=
  if row.length ≠ schema.length then some "Tuple/schema column count mismatch"
  else (schema.zip row).findSome? fun c => validateValue c.1 c.2

def payloadBytes : Value → Nat
  | .null _ => 0
  | .boolean _ => 1
  | .int32 _ => 4
  | .int64 _ => 8
  | .double _ => 8
  | .varchar s => 4 + s.length

def encodedSize (row : Row) : Nat := 12 + (row.length + 7) / 8 + (row.map payloadBytes).sum

/-- `HeapTupleCodec::Encode`, of which the model keeps the number of bytes. -/
def encode (row : Row) (schema : List Column) : Except String Nat :=
  match validateTupleAgainstSchema row schema with
  | some message => .error message
  | none => if 2 ^ 32 - 1 < encodedSize row then .error "Tuple too large" else .ok (encodedSize row)

/-- What `Decode` reads back: a NULL has the type of its column. -/
def decoded (schema : List Column) (row : Row) : Row :=
  List.zipWith (fun col v => if v.isNull then .null col.type else v) schema row

variable {schema : List Column} {row : Row}

theorem encode_valid {size : Nat} (encoded : encode row schema = .ok size) :
    validateTupleAgainstSchema row schema = none ∧ size = encodedSize row := by
  unfold encode at encoded
  split at encoded
  · cases encoded
  · rename_i valid
    split at encoded
    · cases encoded
    · cases encoded
      exact ⟨valid, rfl⟩

theorem validateValue_type {col : Column} {v : Value} (valid : validateValue col v = none)
    (present : v.isNull = false) : v.typeId = col.type := by
  unfold validateValue at valid
  rw [present] at valid
  simp only [Bool.false_eq_true, if_false] at valid
  split at valid
  · cases valid
  · rename_i same
    exact not_not.mp same

section

variable (valid : validateTupleAgainstSchema row schema = none)

include valid

theorem validate_length :
    row.length = schema.length := by
  unfold validateTupleAgainstSchema at valid
  split at valid
  · cases valid
  · rename_i same
    exact not_not.mp same

theorem validate_value :
    ∀ c ∈ schema.zip row, validateValue c.1 c.2 = none := by
  unfold validateTupleAgainstSchema at valid
  split at valid
  · cases valid
  · exact List.findSome?_eq_none_iff.mp valid

theorem fitsSchema_decoded :
    FitsSchema (schema.map Column.toColumn) (decoded schema row) := by
  have sameLength := validate_length valid
  have values := validate_value valid
  clear valid
  unfold FitsSchema decoded
  induction schema generalizing row with
  | nil => simp
  | cons col schema ih =>
    cases row with
    | nil => cases sameLength
    | cons v row =>
      have rest := ih (by simpa using sameLength) fun c member =>
        values c (List.mem_cons_of_mem _ member)
      have head : (if v.isNull then Value.null col.type else v).typeId = col.type := by
        cases present : v.isNull with
        | true => rfl
        | false => simpa using validateValue_type (values (col, v) List.mem_cons_self) present
      simp only [List.zipWith_cons_cons, List.map_cons, List.cons.injEq]
      exact ⟨head, rest⟩

theorem decoded_getElem? {i : Nat}
    {v : Value} (stored : row[i]? = some v) (present : v.isNull = false) :
    (decoded schema row)[i]? = some v := by
  obtain ⟨inRange, _⟩ := List.getElem?_eq_some_iff.mp stored
  have inSchema : i < schema.length := by
    rw [← validate_length valid]
    exact inRange
  rw [decoded, List.getElem?_zipWith, stored, List.getElem?_eq_getElem inSchema]
  simp [present]

end

end HeapTupleCodec

section Pages

/-- A record in its slot. The slot keeps the length it was made with. -/
structure HeapRecord where
  row : Row
  rawLen : Nat
  deriving DecidableEq

structure HeapFile where
  slots : List Nat
  record : RID → Option HeapRecord
  bounded : ∀ rid r, record rid = some r → ∃ n, slots[rid.pageNo]? = some n ∧ rid.slotNo < n

def HeapFile.empty : HeapFile := ⟨[], fun _ => none, by simp⟩

/-- `GetTuple`, with the check `Decode` makes; `none` where it returns false. -/
def HeapFile.getTuple (heap : HeapFile) (schema : List Column) (rid : RID) :
    Except String (Option Row) :=
  match heap.record rid with
  | none => .ok none
  | some r =>
    if r.row.length = schema.length then .ok (some r.row)
    else .error "Heap tuple/schema column count mismatch"

variable {rid : RID}

theorem HeapFile.getTuple_some {heap : HeapFile} {schema : List Column} {row : Row}
    (found : heap.getTuple schema rid = .ok (some row)) :
    ∃ r, heap.record rid = some r ∧ r.row = row ∧ row.length = schema.length := by
  unfold HeapFile.getTuple at found
  split at found
  · cases found
  · rename_i r live
    split at found
    · rename_i fits
      cases found
      exact ⟨r, live, rfl, fits⟩
    · cases found

/-- The slot counts once the slot of `rid` is there. -/
def cover (slots : List Nat) (rid : RID) : List Nat :=
  (slots ++ List.replicate (rid.pageNo + 1 - slots.length) 0).modify rid.pageNo
    (max (rid.slotNo + 1))

private theorem cover_bound {slots : List Nat} {rid' : RID} {n : Nat}
    (bound : slots[rid'.pageNo]? = some n) (inPage : rid'.slotNo < n) :
    ∃ n, (cover slots rid)[rid'.pageNo]? = some n ∧ rid'.slotNo < n := by
  have inRange := (List.getElem?_eq_some_iff.mp bound).1
  unfold cover
  rw [List.getElem?_modify, List.getElem?_append_left inRange, bound]
  split
  · refine ⟨max (rid.slotNo + 1) n, rfl, ?_⟩
    omega
  · exact ⟨n, rfl, inPage⟩

theorem cover_self (slots : List Nat) (rid : RID) :
    ∃ n, (cover slots rid)[rid.pageNo]? = some n ∧ rid.slotNo < n := by
  have inRange : rid.pageNo <
      (slots ++ List.replicate (rid.pageNo + 1 - slots.length) 0).length := by
    rw [List.length_append, List.length_replicate]
    omega
  unfold cover
  rw [List.getElem?_modify, List.getElem?_eq_getElem inRange]
  simp only [if_true, Option.map_eq_map, Option.map_some]
  exact ⟨_, rfl, by omega⟩

def HeapFile.put (heap : HeapFile) (rid : RID) (r : HeapRecord) : HeapFile where
  slots := cover heap.slots rid
  record := Function.update heap.record rid (some r)
  bounded := by
    intro rid' r' live
    by_cases here : rid' = rid
    · subst here
      exact cover_self _ _
    · rw [Function.update_of_ne here] at live
      obtain ⟨n, bound, inPage⟩ := heap.bounded rid' r' live
      exact cover_bound bound inPage

def HeapFile.erase (heap : HeapFile) (rid : RID) : HeapFile where
  slots := heap.slots
  record := Function.update heap.record rid none
  bounded := by
    intro rid' r' live
    by_cases here : rid' = rid
    · subst here
      rw [Function.update_self] at live
      cases live
    · rw [Function.update_of_ne here] at live
      exact heap.bounded rid' r' live

def HeapFile.restorePage (heap : HeapFile) (pageNo : Nat) (before : HeapFile) : HeapFile where
  slots := heap.slots.set pageNo ((before.slots[pageNo]?).getD 0)
  record rid :=
    if rid.pageNo = pageNo then if pageNo < heap.slots.length then before.record rid else none
    else heap.record rid
  bounded := by
    intro rid r live
    split at live
    · rename_i here
      split at live
      · rename_i inFile
        obtain ⟨n, slots, inPage⟩ := before.bounded rid r live
        refine ⟨n, ?_, inPage⟩
        rw [here] at slots ⊢
        rw [List.getElem?_set_self inFile, slots, Option.getD_some]
      · cases live
    · rename_i apart
      obtain ⟨n, slots, inPage⟩ := heap.bounded rid r live
      refine ⟨n, ?_, inPage⟩
      rw [List.getElem?_set_ne (Ne.symm apart), slots]

def HeapFile.records (heap : HeapFile) : List (RID × HeapRecord) :=
  (List.range heap.slots.length).flatMap fun pageNo =>
    (List.range ((heap.slots[pageNo]?).getD 0)).filterMap fun slotNo =>
      (heap.record ⟨pageNo, slotNo⟩).map fun r => (⟨pageNo, slotNo⟩, r)

/-- What `HeapFileIterator` yields. -/
def HeapFile.scan (heap : HeapFile) : List (RID × Row) := heap.records.map fun e => (e.1, e.2.row)

@[simp] theorem HeapFile.put_record (heap : HeapFile) (rid : RID) (r : HeapRecord) :
    (heap.put rid r).record = Function.update heap.record rid (some r) := rfl

@[simp] theorem HeapFile.erase_record (heap : HeapFile) (rid : RID) :
    (heap.erase rid).record = Function.update heap.record rid none := rfl

theorem HeapFile.mem_records {heap : HeapFile} {r : HeapRecord} :
    (rid, r) ∈ heap.records ↔ heap.record rid = some r := by
  simp only [HeapFile.records, List.mem_flatMap, List.mem_range, List.mem_filterMap,
    Option.map_eq_some_iff]
  constructor
  · rintro ⟨pageNo, _, slotNo, _, r', live, same⟩
    cases same
    exact live
  · intro live
    obtain ⟨n, bound, inPage⟩ := heap.bounded rid r live
    refine ⟨rid.pageNo, (List.getElem?_eq_some_iff.mp bound).1, rid.slotNo, ?_, r, live, rfl⟩
    rw [bound]
    exact inPage

theorem HeapFile.records_nodup (heap : HeapFile) : (heap.records.map Prod.fst).Nodup := by
  have rids (pageNo : Nat) : ((List.range ((heap.slots[pageNo]?).getD 0)).filterMap fun slotNo =>
      (heap.record ⟨pageNo, slotNo⟩).map fun r => ((⟨pageNo, slotNo⟩ : RID), r)).map Prod.fst =
      ((List.range ((heap.slots[pageNo]?).getD 0)).filter fun slotNo =>
        (heap.record ⟨pageNo, slotNo⟩).isSome).map (RID.mk pageNo) := by
    induction List.range ((heap.slots[pageNo]?).getD 0) with
    | nil => rfl
    | cons slotNo rest ih =>
      cases live : heap.record ⟨pageNo, slotNo⟩ with
      | none => simpa [live] using ih
      | some r => simpa [live] using ih
  rw [HeapFile.records, List.map_flatMap]
  refine List.nodup_flatMap.mpr ⟨?_, ?_⟩
  · intro pageNo _
    rw [rids]
    refine List.Nodup.map ?_ (List.nodup_range.filter _)
    intro a b same
    exact (RID.mk.inj same).2
  · refine List.nodup_range.imp ?_
    intro a b apart
    simp only [Function.onFun, rids]
    intro rid inFirst inSecond
    obtain ⟨_, _, rfl⟩ := List.mem_map.mp inFirst
    obtain ⟨_, _, same⟩ := List.mem_map.mp inSecond
    exact apart (RID.mk.inj same).1.symm

end Pages

end GraniteDb.Access.HeapFile
