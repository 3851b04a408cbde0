/- Scans that read an index alone, and scans that combine the RIDs of several. -/

import GraniteDb.Execution.Operators

namespace GraniteDb.Execution.BitmapScan

open Common.Types Common.Value Access.IndexScan Catalog.CatalogManager Lib.Pull

/-- The key or the bounds a scan of a single-column index is made with. -/
structure KeyBounds where
  equalityKey : Option Value
  lower : Option Value
  upper : Option Value
  lowerInclusive : Bool
  upperInclusive : Bool
  deriving DecidableEq

def boundedEntries (index : BTreeIndex) (bounds : KeyBounds) : Option (List LeafEntry) :=
  match bounds.lower with
  | some lower => index.entriesFrom lower
  | none => some index.entries

/-- The RIDs within the bounds; an entry above them ends the loop. -/
def ridsWithin (bounds : KeyBounds) : List LeafEntry → Option (List RID)
  | [] => some []
  | e :: rest => do
    match ← rangeVerdict bounds.lower bounds.upper bounds.lowerInclusive bounds.upperInclusive
      e.key with
    | .below => ridsWithin bounds rest
    | .above => some []
    | .within =>
      let more ← ridsWithin bounds rest
      some (e.rid :: more)

def bitmapIndexScan (index : BTreeIndex) (bounds : KeyBounds) : Option (List RID) :=
  match bounds.equalityKey with
  | some key => index.search key
  | none => (boundedEntries index bounds).bind (ridsWithin bounds)

def compareRids (a b : RID) : Bool :=
  a.pageNo < b.pageNo || (a.pageNo == b.pageNo && a.slotNo ≤ b.slotNo)

def sortedRids (rids : List RID) : List RID := rids.dedup.mergeSort compareRids

/-- The loop of `BitmapAndExecutor` over the further children, which stops at an empty set. -/
def intersectRids : List RID → List (Option (List RID)) → Option (List RID)
  | current, [] => some current
  | [], _ => some []
  | current, child :: rest => do
    let rids ← child
    intersectRids (rids.filter current.contains) rest

def bitmapAnd : List (Option (List RID)) → Option (List RID)
  | [] => some []
  | first :: rest => do
    let rids ← first
    let both ← intersectRids rids rest
    some (sortedRids both)

def bitmapOr (children : List (Option (List RID))) : Option (List RID) :=
  (children.mapM id).map fun rids => sortedRids rids.flatten

/-- `BitmapHeapScanExecutor`; also what `MaterializeRidsExecutor` makes of RIDs. -/
def heapRows (heap : HeapFile) : Option (List RID) → Pull Row
  | none => .thrown
  | some rids => .ofList (rids.filterMap (getTuple heap))

def keyPosition (keyColumns : List IndexKeyColumnDefinition) (columnIdx : Nat) : Option Nat :=
  (keyColumns.zipIdx.reverse.find? fun col => col.1.columnIdx == columnIdx).map Prod.snd

/-- `BuildOutputTuple`: columns that are not in the key are NULL. -/
def buildOutputTuple (schema : Schema) (keyColumns : List IndexKeyColumnDefinition)
    (keyValues : List Value) : Row :=
  schema.zipIdx.map fun col =>
    ((keyPosition keyColumns col.2).bind (keyValues[·]?)).getD (.null col.1.type)

/-- `NextSingleColumnEntry` over the entries of an iterator. -/
def keysWithin (bounds : KeyBounds) : List LeafEntry → Pull (List Value)
  | [] => .done
  | e :: rest =>
    match rangeVerdict bounds.lower bounds.upper bounds.lowerInclusive bounds.upperInclusive
      e.key with
    | none => .thrown
    | some .below => keysWithin bounds rest
    | some .above => .done
    | some .within => .item [e.key] (keysWithin bounds rest)

/-- The keys of `IndexOnlyScanExecutor` over a single-column index. -/
def singleColumnKeys (index : BTreeIndex) (bounds : KeyBounds) : Pull (List Value) :=
  match bounds.equalityKey with
  | some key =>
    match index.search key with
    | none => .thrown
    | some rids => .ofList (rids.map fun _ => [key])
  | none =>
    match boundedEntries index bounds with
    | none => .thrown
    | some entries => keysWithin bounds entries

/-- The keys of `IndexOnlyScanExecutor` over a composite index. -/
def genericKeys (index : GenericBTreeIndex) (spec : PrefixScanSpec) (fullIndexScan : Bool) :
    Pull (List Value) :=
  let entries :=
    if fullIndexScan then some index.entries
    else if spec.equalityPrefix.length = index.keyColumns.length then
      index.searchExactEntries spec.equalityPrefix
    else index.scanPrefixRangeEntries spec
  match entries with
  | none => .thrown
  | some found => .ofList (found.map GenericLeafEntry.key)

/-- `IndexOnlyScanExecutor`, on the keys its index yields. -/
def indexOnlyScan (schema : Schema) (keyColumns : List IndexKeyColumnDefinition)
    (keys : Pull (List Value)) : Pull Row :=
  keys.map (buildOutputTuple schema keyColumns)

end GraniteDb.Execution.BitmapScan
