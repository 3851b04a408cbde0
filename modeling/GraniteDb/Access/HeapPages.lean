/- Heap files over the bytes of their pages: a finite map from RIDs to tuples. -/

import GraniteDb.Storage.PageRecords
import GraniteDb.Storage.HeapTupleCodec

namespace GraniteDb.Access.HeapPages

open Common.Types Common.Value Lib.ByteStore Storage.SlottedPage Storage.HeapTupleCodec
open Recovery.WalRecords (Bytes)
open Access.HeapFile (Column)

structure FreeSpaceEntry where
  present : Bool
  exactFreeBytes : Nat
  bucket : Nat
  deriving DecidableEq

/-- `FreeSpaceMap`. The pages of a bucket are a set without an order of its own. -/
structure FreeSpaceMap where
  bucketSize : Nat
  pageEntries : List FreeSpaceEntry
  buckets : List (List Nat)
  deriving DecidableEq

def FreeSpaceMap.new (bucketSize : Nat) : FreeSpaceMap :=
  let bucketSize := if bucketSize = 0 then 64 else bucketSize
  ⟨bucketSize, [], List.replicate (pageSize / bucketSize + 2) []⟩

def FreeSpaceMap.bucketForFreeBytes (map : FreeSpaceMap) (freeBytes : Nat) : Nat :=
  let bucket := freeBytes / map.bucketSize
  if map.buckets.length ≤ bucket then map.buckets.length - 1 else bucket

/-- `UpdatePageFreeSpace`, with `EnsurePageCapacity`. -/
def FreeSpaceMap.updatePageFreeSpace (map : FreeSpaceMap) (pageNo freeBytes : Nat) :
    FreeSpaceMap :=
  let entries := map.pageEntries ++
    List.replicate (pageNo + 1 - map.pageEntries.length) ⟨false, 0, 0⟩
  let entry := (entries[pageNo]?).getD ⟨false, 0, 0⟩
  let buckets :=
    if entry.present then map.buckets.modify entry.bucket (·.erase pageNo) else map.buckets
  let bucket := map.bucketForFreeBytes freeBytes
  { map with
    pageEntries := entries.set pageNo ⟨true, freeBytes, bucket⟩
    buckets := buckets.modify bucket (List.insert pageNo) }

/-- `GetCandidatePages`. The order in which a bucket is gone through is the hash table's. -/
def FreeSpaceMap.getCandidatePages (map : FreeSpaceMap) (order : List Nat → List Nat)
    (requiredFree : Nat) : List Nat :=
  let startBucket := map.bucketForFreeBytes requiredFree
  ((map.buckets.drop startBucket).reverse).flatMap fun bucket =>
    (order bucket).filter fun pageNo =>
      match map.pageEntries[pageNo]? with
      | some entry => entry.present && decide (requiredFree ≤ entry.exactFreeBytes)
      | none => false

/-- A heap file without locking: its pages, each within reach of the buffer pool, and its free
space map. -/
structure HeapFile where
  pages : List PageData
  freeSpaceMap : FreeSpaceMap

/-- What a call meets: the order of the hash table's buckets, and the LSNs of the records it
logs, if it logs any. -/
structure Surroundings where
  order : List Nat → List Nat
  lsn : Option Nat
  laterLsn : Option Nat

def HeapFile.empty (bucketSize : Nat) : HeapFile := ⟨[], .new bucketSize⟩

/-- `SetPageLSN` after a logged change. -/
def stamp (page : PageData) : Option Nat → PageData
  | some lsn => setPageLsn page lsn
  | none => page

/-- The end of a change to a page: the LSN, and the page's place in the free space map. -/
def HeapFile.store (heap : HeapFile) (pageNo : Nat) (page : PageData) (lsn : Option Nat) :
    Except String HeapFile :=
  (getMaxInsertableBytesAfterCompaction (stamp page lsn)).map fun freeAfter =>
    { pages := heap.pages.set pageNo (stamp page lsn)
      freeSpaceMap := heap.freeSpaceMap.updatePageFreeSpace pageNo freeAfter }

def HeapFile.tryInsertIntoPage (heap : HeapFile) (pageNo : Nat) (page : PageData) (bytes : Bytes)
    (lsn : Option Nat) : HeapFile × Except String (Option RID) :=
  let page := if isInitialized page then page else initializePage page .heap
  match insertRecord page bytes with
  | .error message => (heap, .error message)
  | .ok (page, none) => ({ heap with pages := heap.pages.set pageNo page }, .ok none)
  | .ok (page, some slotNo) =>
    match heap.store pageNo page lsn with
    | .error message => (heap, .error message)
    | .ok heap => (heap, .ok (some ⟨pageNo, slotNo⟩))

def HeapFile.insertIntoCandidate (heap : HeapFile) (bytes : Bytes) (lsn : Option Nat) :
    List Nat → HeapFile × Except String (Option RID)
  | [] => (heap, .ok none)
  | pageNo :: rest =>
    match heap.pages[pageNo]? with
    | none => heap.insertIntoCandidate bytes lsn rest
    | some page =>
      match heap.tryInsertIntoPage pageNo page bytes lsn with
      | (heap, .ok none) => heap.insertIntoCandidate bytes lsn rest
      | (heap, outcome) => (heap, outcome)

def HeapFile.insertIntoNewPage (heap : HeapFile) (bytes : Bytes) (lsn : Option Nat) :
    HeapFile × Except String RID :=
  let pageNo := heap.pages.length
  let heap := { heap with pages := heap.pages ++ [zeroPage] }
  match insertRecord (initializePage zeroPage .heap) bytes with
  | .error message => (heap, .error message)
  | .ok (_, none) => (heap, .error "Failed to insert into newly created heap page")
  | .ok (page, some slotNo) =>
    match heap.store pageNo page lsn with
    | .error message => (heap, .error message)
    | .ok heap => (heap, .ok ⟨pageNo, slotNo⟩)

def maxRecordOnEmptyPage : Nat := pageSize - headerSize - slotSize

def HeapFile.insertTuple (heap : HeapFile) (schema : List Column) (around : Surroundings)
    (tuple : Row) : HeapFile × Except String RID :=
  match encode tuple schema with
  | .error message => (heap, .error message)
  | .ok bytes =>
    if maxRecordOnEmptyPage < bytes.length then (heap, .error "Tuple too large for a heap page")
    else
      let candidates := heap.freeSpaceMap.getCandidatePages around.order bytes.length
      match heap.insertIntoCandidate bytes around.lsn candidates with
      | (heap, .ok (some rid)) => (heap, .ok rid)
      | (heap, .ok none) => heap.insertIntoNewPage bytes around.lsn
      | (heap, .error message) => (heap, .error message)

/-- The record in a slot, where the page is a heap page and the record is not marked deleted. -/
def findRecord (page : PageData) (slotNo : Nat) : Except String (Option SlotEntry) :=
  if isInitialized page ∧ (header page).pageType = .heap then
    match getRecord page slotNo with
    | .error message => .error message
    | .ok none => .ok none
    | .ok (some slot) =>
      (isDeleted (read page slot.offset slot.length)).map fun deleted =>
        if deleted then none else some slot
  else .ok none

/-- `GetTuple`; `none` where it returns false. -/
def HeapFile.getTuple (heap : HeapFile) (schema : List Column) (rid : RID) :
    Except String (Option Row) :=
  match heap.pages[rid.pageNo]? with
  | none => .ok none
  | some page =>
    match findRecord page rid.slotNo with
    | .error message => .error message
    | .ok none => .ok none
    | .ok (some slot) => (decode schema (read page slot.offset slot.length)).map some

def HeapFile.deleteTuple (heap : HeapFile) (lsn : Option Nat) (rid : RID) :
    HeapFile × Except String Bool :=
  match heap.pages[rid.pageNo]? with
  | none => (heap, .ok false)
  | some page =>
    match findRecord page rid.slotNo with
    | .error message => (heap, .error message)
    | .ok none => (heap, .ok false)
    | .ok (some slot) =>
      match markDeleted (read page slot.offset slot.length) with
      | .error message => (heap, .error message)
      | .ok marked =>
        match deleteRecord (write page slot.offset marked) rid.slotNo with
        | none => (heap, .ok false)
        | some page =>
          match heap.store rid.pageNo page lsn with
          | .error message => (heap, .error message)
          | .ok heap => (heap, .ok true)

/-- `UpdateTupleImpl`: the RID of the new tuple, `none` where it returns false. -/
def HeapFile.updateTuple (heap : HeapFile) (schema : List Column) (around : Surroundings)
    (oldRid : RID) (newTuple : Row) : HeapFile × Except String (Option RID) :=
  match heap.pages[oldRid.pageNo]? with
  | none => (heap, .ok none)
  | some page =>
    match encode newTuple schema with
    | .error message => (heap, .error message)
    | .ok bytes =>
      match findRecord page oldRid.slotNo with
      | .error message => (heap, .error message)
      | .ok none => (heap, .ok none)
      | .ok (some slot) =>
        let inPlace :=
          if bytes.length ≤ slot.length then overwriteRecord page oldRid.slotNo bytes
          else none
        match inPlace with
        | some page =>
          ({ heap with pages := heap.pages.set oldRid.pageNo (stamp page around.lsn) },
            .ok (some oldRid))
        | none =>
          match heap.insertTuple schema around newTuple with
          | (heap, .error message) => (heap, .error message)
          | (heap, .ok newRid) =>
            match heap.deleteTuple around.laterLsn oldRid with
            | (heap, .error message) => (heap, .error message)
            | (heap, .ok false) => (heap, .ok none)
            | (heap, .ok true) => (heap, .ok (some newRid))

/-- `HeapFileIterator`; `none` at its end. -/
abbrev HeapFileIterator := Option RID

/-- The slots of a page, from the given ones on, up to one with a live record. -/
def nextSlot (page : PageData) : List Nat → Except String (Option Nat)
  | [] => .ok none
  | slotNo :: rest =>
    match findRecord page slotNo with
    | .error message => .error message
    | .ok none => nextSlot page rest
    | .ok (some _) => .ok (some slotNo)

/-- `AdvanceToNextValid`, over the pages that are left; the first of them is entered at a slot. -/
def advance (pageNo slotNo : Nat) : List PageData → Except String HeapFileIterator
  | [] => .ok none
  | page :: rest =>
    match nextSlot page (List.range' slotNo ((header page).slotCount - slotNo)) with
    | .error message => .error message
    | .ok (some found) => .ok (some ⟨pageNo, found⟩)
    | .ok none => advance (pageNo + 1) 0 rest

def HeapFile.advanceToNextValid (heap : HeapFile) (current : RID) :
    Except String HeapFileIterator :=
  advance current.pageNo current.slotNo (heap.pages.drop current.pageNo)

def HeapFile.next (heap : HeapFile) (schema : List Column) :
    HeapFileIterator → Except String ((RID × Row) × HeapFileIterator)
  | none => .error "HeapFileIterator::Next called at end"
  | some rid =>
    match heap.getTuple schema rid with
    | .error message => .error message
    | .ok none => .error "Iterator points to invalid tuple"
    | .ok (some tuple) =>
      (heap.advanceToNextValid ⟨rid.pageNo, rid.slotNo + 1⟩).map fun it => ((rid, tuple), it)

/-- A scan calls `Next` while `HasNext`; `none` when it is not over after `fuel` calls. -/
def HeapFile.drain (heap : HeapFile) (schema : List Column) :
    Nat → HeapFileIterator → Option (Except String (List (RID × Row)))
  | _, none => some (.ok [])
  | 0, some _ => none
  | fuel + 1, some rid =>
    match heap.next schema (some rid) with
    | .error message => some (.error message)
    | .ok (found, it) => (heap.drain schema fuel it).map fun rest => rest.map (found :: ·)

def HeapFile.scan (heap : HeapFile) (schema : List Column) (fuel : Nat) :
    Option (Except String (List (RID × Row))) :=
  match heap.advanceToNextValid ⟨0, 0⟩ with
  | .error message => some (.error message)
  | .ok it => heap.drain schema fuel it

end GraniteDb.Access.HeapPages
