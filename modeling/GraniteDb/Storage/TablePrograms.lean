/- Table writes and index executors as programs of lock calls and latched steps. -/

import GraniteDb.Concurrency.RangeOverlap
import GraniteDb.Lib.Program
import GraniteDb.Storage.Table

namespace GraniteDb.Storage.TablePrograms

open Common.Types Common.Value Access.HeapFile Execution.Expressions Lib.Program Storage.Table
open Access.IndexScan (PrefixScanSpec prefixOrder rangeColumnVerdict)
open Execution.Operators (ScanMode)
open Concurrency.LockManager (LockMode QueueId KeyRange compareKeyVectors)
open Concurrency.RangeOverlap (lockRange pointRange)

section Requests

/-- What a transaction's thread does between two points where others may step in: a lock call,
which may wait, or one step under a page latch. -/
inductive Request
  | lock (queue : QueueId) (range : Option KeyRange) (mode : LockMode)
  | look
  | search (index : IndexCatalogEntry) (wanted : List Value → Bool)
  | insertEntry (index : IndexCatalogEntry) (key : List Value) (rid : RID)
  | deleteEntry (index : IndexCatalogEntry) (key : List Value) (rid : RID)
  | insertRecord (row : Row)
  | deleteRecord (rid : RID)
  | overwriteRecord (rid : RID) (row : Row)

/-- What it learns: `look` reads the pages as they are, and `overwriteRecord` returns `none`
where there is no record and false where the record is too short. -/
abbrev Reply : Request → Type
  | .lock _ _ _ => Bool
  | .look => Store
  | .search _ _ => Except String (List RID)
  | .insertEntry _ _ _ => Except String Unit
  | .deleteEntry _ _ _ => Except String Bool
  | .insertRecord _ => Except String RID
  | .deleteRecord _ => Except String Bool
  | .overwriteRecord _ _ => Except String (Option Bool)

/-- A program that ends with a result or with the text of an exception. -/
def Routine (α : Type) : Type := Program Reply (Except String α)

def throwing {α : Type} (what : String) : Routine α := .ret (.error what)

instance : Monad Routine where
  pure a := .ret (.ok a)
  bind p f := Program.bind p fun
    | .ok a => f a
    | .error what => .ret (.error what)

/-- The result of a task that may throw, as `try` sees it. -/
def attempt {α : Type} (p : Routine α) : Routine (Except String α) :=
  Program.bind p fun result => .ret (.ok result)

def ask (r : Request) : Routine (Reply r) := .request r fun reply => .ret (.ok reply)

def Routine.ofExcept {α : Type} : Except String α → Routine α := .ret

def forEach {ι : Type} (f : ι → Routine Unit) : List ι → Routine Unit
  | [] => pure ()
  | i :: rest => do
    f i
    forEach f rest

/-- A table with the relation of its heap file, and what the programs on it do not decide: which
steps fail, where an insert finds space, and when record locks are escalated. -/
structure Setting extends Environment where
  relationId : Nat
  table : Table
  escalates : Nat → Bool

variable (s : Setting)

end Requests

section HeapFile

variable (s : Setting)

def acquireTableLock (mode : LockMode) : Routine Unit := do
  if ← ask (.lock (.table s.relationId) none mode) then pure ()
  else throwing "Failed to acquire heap table lock"

/-- `MaybeEscalateRecordLocks`; what the table lock call returns is dropped. -/
def maybeEscalateRecordLocks (mode : LockMode) : Routine Unit := do
  let store ← ask .look
  if s.escalates store.clock then
    let _ ← ask (.lock (.table s.relationId) none mode)

def acquireRecordLock (rid : RID) (mode : LockMode) : Routine Unit := do
  if ← ask (.lock (.record ⟨s.relationId, rid⟩) none mode) then maybeEscalateRecordLocks s mode
  else throwing "Failed to acquire heap record lock"

/-- `HeapFile::GetTuple`; `none` where it returns false. -/
def getTuple (rid : RID) : Routine (Option Row) := do
  let store ← ask .look
  if store.heap.slots.length ≤ rid.pageNo then pure none
  else
    acquireTableLock s .is
    acquireRecordLock s rid .s
    let store ← ask .look
    .ofExcept (store.heap.getTuple s.table.schema rid)

/-- `HeapFile::InsertTupleImpl`. The record is on its page before its lock is asked for. -/
def heapInsertTuple (row : Row) : Routine RID := do
  acquireTableLock s .x
  let rid ← Routine.ofExcept (← ask (.insertRecord row))
  acquireRecordLock s rid .x
  pure rid

/-- `HeapFile::DeleteTupleImpl`. -/
def heapDeleteTuple (rid : RID) : Routine Bool := do
  let store ← ask .look
  if store.heap.slots.length ≤ rid.pageNo then pure false
  else
    acquireTableLock s .x
    acquireRecordLock s rid .x
    .ofExcept (← ask (.deleteRecord rid))

def canUpdateTupleInPlace (rid : RID) (row : Row) : Routine Bool := do
  let store ← ask .look
  if store.heap.slots.length ≤ rid.pageNo then pure false
  else
    acquireTableLock s .is
    acquireRecordLock s rid .s
    let size ← Routine.ofExcept (encode row s.table.schema)
    let store ← ask .look
    match store.heap.record rid with
    | none => pure false
    | some old => pure (size ≤ old.rawLen)

/-- `HeapFile::UpdateTupleImpl`; `none` where it returns false. -/
def heapUpdateTuple (rid : RID) (row : Row) : Routine (Option RID) := do
  let store ← ask .look
  if store.heap.slots.length ≤ rid.pageNo then pure none
  else
    acquireTableLock s .x
    acquireRecordLock s rid .x
    let _ ← Routine.ofExcept (encode row s.table.schema)
    match ← Routine.ofExcept (← ask (.overwriteRecord rid row)) with
    | none => pure none
    | some true => pure (some rid)
    | some false =>
      let newRid ← heapInsertTuple s row
      acquireRecordLock s newRid .x
      if ← heapDeleteTuple s rid then pure (some newRid) else pure none

end HeapFile

section IndexLocks

variable (s : Setting)

def maintenanceOrder : Routine (List IndexCatalogEntry) := .ofExcept s.table.getMaintenanceOrder

/-- `ExtractKey`. -/
def keyOf (row : Row) (index : IndexCatalogEntry) : Routine (List Value) :=
  match extractKey row index with
  | some key => pure key
  | none => throwing outOfRange

def acquireIndexRelationWriteLocks : Routine Unit := do
  let order ← maintenanceOrder s
  forEach (fun index => do
    if ← ask (.lock (.table index.indexRelationId) none .x) then pure ()
    else throwing "Failed to acquire index relation write lock") order

def acquireIndexKeyLock (indexRelationId : Nat) (key : List Value) (mode : LockMode) :
    Routine Unit := do
  if ← ask (.lock (.keyRange indexRelationId) (some (pointRange key)) mode) then pure ()
  else throwing "Failed to acquire index key lock"

def acquireAllIndexMutationLocks (row : Row) : Routine Unit := do
  let order ← maintenanceOrder s
  forEach (fun index => do
    acquireIndexKeyLock index.indexRelationId (← keyOf row index) .x) order

def compared {α : Type} : Option α → Routine α
  | some a => pure a
  | none => throwing "Comparison between incompatible types"

/-- `AcquireUpdateIndexMutationLocks`: one lock where the keys are equal, else the lower
key first. -/
def acquireUpdateIndexMutationLocks (old new : Row) : Routine Unit := do
  let order ← maintenanceOrder s
  forEach (fun index => do
    let oldKey ← keyOf old index
    let newKey ← keyOf new index
    if ← compared (keysEqual oldKey newKey) then
      acquireIndexKeyLock index.indexRelationId oldKey .x
    else if (← compared (compareKeyVectors oldKey newKey)) ≠ .gt then
      acquireIndexKeyLock index.indexRelationId oldKey .x
      acquireIndexKeyLock index.indexRelationId newKey .x
    else
      acquireIndexKeyLock index.indexRelationId newKey .x
      acquireIndexKeyLock index.indexRelationId oldKey .x) order

def acquireUniqueIndexLocks (row : Row) : Routine Unit :=
  forEach (fun index => do
    if !index.isUnique || index.runtimeIndex.isNone then pure ()
    else acquireIndexKeyLock index.indexRelationId (← keyOf row index) .x) s.table.indexes

def validateUniqueIndexes (row : Row) (ridToIgnore : Option RID) : Routine Unit :=
  forEach (fun index => do
    if !index.isUnique then pure ()
    else if index.runtimeIndex.isNone then
      throwing ("Unique index has no attached runtime object: " ++ index.indexName)
    else
      let key ← keyOf row index
      let store ← ask .look
      let hits ← Routine.ofExcept (searchExact s.toEnvironment index key store).1
      if ∀ hit ∈ hits, ridToIgnore = some hit then pure ()
      else throwing ("Unique index violation on index: " ++ index.indexName)) s.table.indexes

end IndexLocks

section Writes

variable (s : Setting)

def insertEntries (row : Row) (rid : RID) (done : List IndexCatalogEntry) :
    List IndexCatalogEntry → Routine (List IndexCatalogEntry × Option String)
  | [] => pure (done, none)
  | index :: rest => do
    match extractKey row index with
    | none => pure (done, some outOfRange)
    | some key =>
      match ← ask (.insertEntry index key rid) with
      | .error what => pure (done, some what)
      | .ok _ => insertEntries row rid (done ++ [index]) rest

def deleteEntries (refusal : String) (row : Row) (rid : RID) (done : List IndexCatalogEntry) :
    List IndexCatalogEntry → Routine (List IndexCatalogEntry × Option String)
  | [] => pure (done, none)
  | index :: rest => do
    match extractKey row index with
    | none => pure (done, some outOfRange)
    | some key =>
      match ← ask (.deleteEntry index key rid) with
      | .error what => pure (done, some what)
      | .ok false => pure (done, some (refusal ++ index.indexName))
      | .ok true => deleteEntries refusal row rid (done ++ [index]) rest

def maintain (loop : List IndexCatalogEntry → Routine (List IndexCatalogEntry × Option String)) :
    Routine (List IndexCatalogEntry × Option String) :=
  match s.table.getMaintenanceOrder with
  | .error what => pure ([], some what)
  | .ok order => loop order

def removeEntry (refusal failure : String) (row : Row) (rid : RID) (index : IndexCatalogEntry) :
    Routine (Option String) :=
  match extractKey row index with
  | none => pure (some (failure ++ index.indexName ++ ": " ++ outOfRange))
  | some key => do
    match ← ask (.deleteEntry index key rid) with
    | .error what => pure (some (failure ++ index.indexName ++ ": " ++ what))
    | .ok false => pure (some (refusal ++ index.indexName))
    | .ok true => pure none

def removeInserted (refusal failure : String) (row : Row) (rid : RID) :
    List IndexCatalogEntry → Routine (List String)
  | [] => pure []
  | index :: rest => do
    let problem ← removeEntry refusal failure row rid index
    let problems ← removeInserted refusal failure row rid rest
    pure (problem.toList ++ problems)

def restoreEntry (failure : String) (row : Row) (rid : RID) (index : IndexCatalogEntry) :
    Routine (Option String) :=
  match extractKey row index with
  | none => pure (some (failure ++ index.indexName ++ ": " ++ outOfRange))
  | some key => do
    match ← ask (.insertEntry index key rid) with
    | .error what => pure (some (failure ++ index.indexName ++ ": " ++ what))
    | .ok _ => pure none

def restoreDeleted (failure : String) (row : Row) (rid : RID) :
    List IndexCatalogEntry → Routine (List String)
  | [] => pure []
  | index :: rest => do
    let problem ← restoreEntry failure row rid index
    let problems ← restoreDeleted failure row rid rest
    pure (problem.toList ++ problems)

def removeTuple (refusal failure : String) (rid : RID) : Routine (List String) := do
  match ← attempt (heapDeleteTuple s rid) with
  | .error what => pure [failure ++ what]
  | .ok false => pure [refusal]
  | .ok true => pure []

def insertTuple (row : Row) : Routine RID := do
  match s.table.validateIndexKeyCompatibility row with
  | some what => throwing what
  | none =>
    acquireIndexRelationWriteLocks s
    acquireAllIndexMutationLocks s row
    acquireUniqueIndexLocks s row
    validateUniqueIndexes s row none
    let rid ← heapInsertTuple s row
    match ← maintain s (insertEntries row rid []) with
    | (_, none) => pure rid
    | (inserted, some what) =>
      let indexProblems ← removeInserted "failed to rollback inserted index entry on "
        "rollback delete failed on " row rid inserted.reverse
      let heapProblems ← removeTuple s "failed to rollback inserted heap tuple"
        "heap rollback delete failed: " rid
      throwing (buildRollbackFailureMessage
        ("InsertTuple failed during index maintenance: " ++ what)
        (indexProblems ++ heapProblems))

/-- The `catch` of `DeleteTuple`. -/
def undoDelete (row : Row) (rid : RID) (deleted : List IndexCatalogEntry) (what : String) :
    Routine Bool := do
  let problems ← restoreDeleted "rollback insert failed on " row rid deleted.reverse
  throwing (buildRollbackFailureMessage
    ("DeleteTuple failed during multi-index maintenance: " ++ what) problems)

def deleteTuple (rid : RID) : Routine Bool := do
  match ← getTuple s rid with
  | none => pure false
  | some old =>
    acquireIndexRelationWriteLocks s
    acquireAllIndexMutationLocks s old
    match ← maintain s (deleteEntries "index delete returned false for index " old rid []) with
    | (deleted, some what) => undoDelete old rid deleted what
    | (deleted, none) =>
      match ← attempt (heapDeleteTuple s rid) with
      | .error what => undoDelete old rid deleted what
      | .ok false => undoDelete old rid deleted "heap delete returned false"
      | .ok true => pure true

/-- The `catch` of `UpdateTuple`. -/
def undoUpdate (old new : Row) (rid newRid : RID) (inserted deleted : List IndexCatalogEntry)
    (what : String) : Routine (Option RID) := do
  let restoreProblems ←
    restoreDeleted "failed to restore old index entry on " old rid deleted.reverse
  let indexProblems ← removeInserted "failed to delete new index entry on "
    "failed to delete new index entry on " new newRid inserted.reverse
  let heapProblems ← removeTuple s "failed to delete newly inserted heap tuple"
    "failed to rollback new heap tuple: " newRid
  throwing (buildRollbackFailureMessage
    ("UpdateTuple failed during multi-index maintenance: " ++ what)
    (restoreProblems ++ indexProblems ++ heapProblems))

def replaceTuple (rid : RID) (old new : Row) : Routine (Option RID) := do
  acquireIndexRelationWriteLocks s
  acquireUpdateIndexMutationLocks s old new
  acquireUniqueIndexLocks s new
  validateUniqueIndexes s new (some rid)
  let newRid ← heapInsertTuple s new
  match ← maintain s (insertEntries new newRid []) with
  | (inserted, some what) => undoUpdate s old new rid newRid inserted [] what
  | (inserted, none) =>
    match ← maintain s
        (deleteEntries "old index entry delete returned false for index " old rid []) with
    | (deleted, some what) => undoUpdate s old new rid newRid inserted deleted what
    | (deleted, none) =>
      match ← attempt (heapDeleteTuple s rid) with
      | .error what => undoUpdate s old new rid newRid inserted deleted what
      | .ok false =>
        undoUpdate s old new rid newRid inserted deleted
          "old heap tuple delete returned false"
      | .ok true => pure (some newRid)

/-- `Table::UpdateTuple`; `none` where it returns false. -/
def updateTuple (rid : RID) (new : Row) : Routine (Option RID) := do
  match ← getTuple s rid with
  | none => pure none
  | some old =>
    match s.table.validateIndexKeyCompatibility new with
    | some what => throwing what
    | none =>
      let indexedKeyChanged ← compared (s.table.anyIndexedKeyChanged old new)
      let inPlace ← canUpdateTupleInPlace s rid new
      if !s.table.hasAnyRuntimeIndex || (!indexedKeyChanged && inPlace) then
        heapUpdateTuple s rid new
      else replaceTuple s rid old new

end Writes

section Executors

variable (s : Setting)

/-- `IndexScanExecutor::Init`, up to the iterator it opens. -/
def indexScanInit (indexRelationId : Nat) (mode : ScanMode) : Routine Unit := do
  if ← ask (.lock (.keyRange indexRelationId) (some (lockRange mode)) .s) then pure ()
  else throwing "Failed to acquire phantom-safe key-range lock for index scan"

def fetchTuples : List RID → Routine (List Row)
  | [] => pure []
  | rid :: rest => do
    let row ← getTuple s rid
    let rows ← fetchTuples rest
    pure (row.toList ++ rows)

/-- The keys a prefix scan yields; without a specification, those of a full index scan. -/
def scanWants : Option PrefixScanSpec → List Value → Bool
  | none, _ => true
  | some spec, key =>
    prefixOrder key spec.equalityPrefix = some .eq && rangeColumnVerdict spec key = some .within

def genericIndexScan (index : IndexCatalogEntry) (spec : Option PrefixScanSpec) :
    Routine (List Row) := do
  if ← ask (.lock (.table s.relationId) none .s) then
    let hits ← Routine.ofExcept (← ask (.search index (scanWants spec)))
    fetchTuples s hits
  else throwing "Failed to acquire coarse phantom-safe table S lock for generic index scan"

structure LockCall where
  queue : QueueId
  range : Option KeyRange
  mode : LockMode
  deriving DecidableEq

def acquireLocks (calls : List LockCall) : Routine Unit :=
  forEach (fun call => do
    if ← ask (.lock call.queue call.range call.mode) then pure ()
    else throwing "Failed to acquire lock") calls

/-- What a call of the left child's `Next` does: it takes locks, and returns a row. -/
structure LeftRow where
  locks : List LockCall
  row : Row
  deriving DecidableEq

/-- `BTreeIndex::Search` of the inner side. -/
def searchKey (index : IndexCatalogEntry) (key : Value) : Routine (List RID) := do
  match index.encodeFailure [key] with
  | some what => throwing what
  | none => .ofExcept (← ask (.search index fun k => k == [key]))

def leftKey (keyExpr : Expression) (row : Row) : Routine Value :=
  match keyExpr.evaluate (some row) none with
  | some key => pure key
  | none => throwing "Comparison between incompatible types"

def indexNestedLoopJoin (index : IndexCatalogEntry) (keyExpr : Expression) :
    List LeftRow → Routine (List Row)
  | [] => pure []
  | left :: rest => do
    acquireLocks left.locks
    let key ← leftKey keyExpr left.row
    let hits ← searchKey index key
    let matched ← fetchTuples s hits
    let rows ← indexNestedLoopJoin index keyExpr rest
    pure (matched.map (left.row ++ ·) ++ rows)

/-- `MemoizedIndexNestedLoopJoinExecutor`: the tuples found under a key are kept by its bytes. -/
def memoizedIndexNestedLoopJoin (index : IndexCatalogEntry) (keyExpr : Expression)
    (memo : List (List UInt8 × List Row)) : List LeftRow → Routine (List Row)
  | [] => pure []
  | left :: rest => do
    acquireLocks left.locks
    let key ← leftKey keyExpr left.row
    match memo.lookup (serializeValueForHash key) with
    | some matched =>
      let rows ← memoizedIndexNestedLoopJoin index keyExpr memo rest
      pure (matched.map (left.row ++ ·) ++ rows)
    | none =>
      let hits ← searchKey index key
      let matched ← fetchTuples s hits
      let rows ← memoizedIndexNestedLoopJoin index keyExpr
        ((serializeValueForHash key, matched) :: memo) rest
      pure (matched.map (left.row ++ ·) ++ rows)

end Executors

end GraniteDb.Storage.TablePrograms
