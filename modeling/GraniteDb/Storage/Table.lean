/- Table writes with index maintenance and compensation, over operations that may fail. -/

import GraniteDb.Access.HeapFile
import GraniteDb.Lib.Ledger
import Mathlib.Data.List.Sort
import Mathlib.Data.Multiset.Filter

set_option linter.dupNamespace false

namespace GraniteDb.Storage.Table

open Common.Types Common.Value Execution.Expressions Access.IndexScan Access.HeapFile Lib.Ledger

section Store

inductive RuntimeIndex
  | btree (keyType : TypeId) (maxVarcharLen : Nat)
  | generic
  deriving DecidableEq

structure IndexCatalogEntry where
  indexName : String
  indexRelationId : Nat
  keyColumns : List IndexKeyColumnDefinition
  isUnique : Bool
  nullPolicy : NullPolicy
  runtimeIndex : Option RuntimeIndex
  deriving DecidableEq

/-- The exception of `EncodeValue`. -/
def encodeValueFailure (keyType : TypeId) (maxVarcharLen : Nat) (v : Value) : Option String :=
  if v.isNull then some "NULL keys are not supported in this B+ tree"
  else if v.typeId ≠ keyType then some "Index key type mismatch"
  else
    match v with
    | .varchar s =>
      if maxVarcharLen < s.length then some "VARCHAR key exceeds declared max length" else none
    | _ => none

/-- The exception of `CompositeKeyCodec::EncodeKey` at one component. -/
def encodeComponentFailure (policy : NullPolicy) (col : IndexKeyColumnDefinition) (v : Value) :
    Option String :=
  if v.isNull then
    if policy = .notSupported then
      some "NULL composite key component is not supported by this index"
    else if col.nullable then none
    else some "NULL composite key component for non-nullable column"
  else if v.typeId ≠ col.type then some "Composite key type mismatch"
  else
    match v with
    | .varchar s =>
      if 0 < col.maxVarcharLen ∧ col.maxVarcharLen < s.length then
        some "VARCHAR composite key component exceeds max length"
      else none
    | _ => none

def IndexCatalogEntry.encodeFailure (index : IndexCatalogEntry) (key : List Value) :
    Option String :=
  match index.runtimeIndex with
  | some (.btree keyType maxVarcharLen) =>
    match key with
    | [v] => encodeValueFailure keyType maxVarcharLen v
    | _ => some "Current B+ tree adapter only supports single-column keys"
  | _ =>
    if key.length ≠ index.keyColumns.length then
      some "CompositeKeyCodec value/definition length mismatch"
    else (index.keyColumns.zip key).findSome? fun c =>
      encodeComponentFailure index.nullPolicy c.1 c.2

inductive Operation
  | acquireLocks
  | searchExact (indexRelationId : Nat)
  | insertEntry (indexRelationId : Nat)
  | deleteEntry (indexRelationId : Nat)
  | heapInsert
  | heapDelete
  | heapUpdate
  deriving DecidableEq

/-- How an operation that returns a `bool` can fail; the others can only throw. -/
inductive Fault
  | throws (what : String)
  | returnsFalse
  deriving DecidableEq

/-- A heap with the entries of its indexes, by index relation. The clock counts the
operations, and the failed ones are recorded. -/
structure Store where
  heap : HeapFile
  entries : Ledger Nat (List Value × RID)
  clock : Nat
  failures : List Operation

/-- What the table does not decide: which operations fail, and where an insert finds space. -/
structure Environment where
  fault : Nat → Option Fault
  pickRid : Nat → HeapFile → Nat → Option RID
  fresh : ∀ {clock heap size rid}, pickRid clock heap size = some rid → heap.record rid = none

abbrev Action (α : Type) := Store → Except String α × Store

def Store.tick (s : Store) : Store := { s with clock := s.clock + 1 }

def Store.fail (s : Store) (op : Operation) : Store :=
  { s with clock := s.clock + 1, failures := s.failures ++ [op] }

variable (env : Environment)

def acquireLocks : Action Unit := fun s =>
  match env.fault s.clock with
  | some (.throws what) => (.error what, s.fail .acquireLocks)
  | _ => (.ok (), s.tick)

def searchExact (index : IndexCatalogEntry) (key : List Value) : Action (Multiset RID) := fun s =>
  match env.fault s.clock, index.encodeFailure key with
  | some (.throws what), _ => (.error what, s.fail (.searchExact index.indexRelationId))
  | _, some what => (.error what, s.fail (.searchExact index.indexRelationId))
  | _, none =>
    (.ok (((s.entries index.indexRelationId).filter fun e => e.1 = key).map Prod.snd), s.tick)

def insertEntry (index : IndexCatalogEntry) (key : List Value) (rid : RID) : Action Unit := fun s =>
  match env.fault s.clock, index.encodeFailure key with
  | some (.throws what), _ => (.error what, s.fail (.insertEntry index.indexRelationId))
  | _, some what => (.error what, s.fail (.insertEntry index.indexRelationId))
  | _, none => (.ok (), { s.tick with entries := put s.entries index.indexRelationId (key, rid) })

/-- `DeleteEntry`; it returns false when there is no such entry. -/
def deleteEntry (index : IndexCatalogEntry) (key : List Value) (rid : RID) : Action Bool := fun s =>
  match env.fault s.clock, index.encodeFailure key with
  | some (.throws what), _ => (.error what, s.fail (.deleteEntry index.indexRelationId))
  | _, some what => (.error what, s.fail (.deleteEntry index.indexRelationId))
  | some .returnsFalse, none => (.ok false, s.fail (.deleteEntry index.indexRelationId))
  | none, none =>
    if (key, rid) ∈ s.entries index.indexRelationId then
      (.ok true, { s.tick with entries := take s.entries index.indexRelationId (key, rid) })
    else (.ok false, s.fail (.deleteEntry index.indexRelationId))

/-- The largest record an empty page takes: the page less its header and one slot entry. -/
def maxRecordOnEmptyPage : Nat := pageSize - 24 - 8

/-- `HeapFile::InsertTuple`. -/
def heapInsert (schema : List Column) (row : Row) : Action RID := fun s =>
  match env.fault s.clock, encode row schema with
  | some (.throws what), _ => (.error what, s.fail .heapInsert)
  | _, .error what => (.error what, s.fail .heapInsert)
  | _, .ok size =>
    if maxRecordOnEmptyPage < size then
      (.error "Tuple too large for a heap page", s.fail .heapInsert)
    else
      match env.pickRid s.clock s.heap size with
      | none => (.error "Buffer pool full: cannot allocate a new heap page", s.fail .heapInsert)
      | some rid => (.ok rid, { s.tick with heap := s.heap.put rid ⟨decoded schema row, size⟩ })

/-- `HeapFile::DeleteTuple`; it returns false when there is no such tuple. -/
def heapDelete (rid : RID) : Action Bool := fun s =>
  match env.fault s.clock with
  | some (.throws what) => (.error what, s.fail .heapDelete)
  | some .returnsFalse => (.ok false, s.fail .heapDelete)
  | none =>
    if (s.heap.record rid).isSome then (.ok true, { s.tick with heap := s.heap.erase rid })
    else (.ok false, s.fail .heapDelete)

/-- `HeapFile::UpdateTuple`: in place when the new bytes fit the slot, else by a move; `none`
where it returns false. -/
def heapUpdate (schema : List Column) (rid : RID) (row : Row) : Action (Option RID) := fun s =>
  match env.fault s.clock, encode row schema, s.heap.record rid with
  | some (.throws what), _, _ => (.error what, s.fail .heapUpdate)
  | some .returnsFalse, _, _ => (.ok none, s.fail .heapUpdate)
  | none, .error what, _ => (.error what, s.fail .heapUpdate)
  | none, .ok _, none => (.ok none, s.fail .heapUpdate)
  | none, .ok size, some old =>
    if size ≤ old.rawLen then
      (.ok (some rid), { s.tick with heap := s.heap.put rid ⟨decoded schema row, old.rawLen⟩ })
    else if maxRecordOnEmptyPage < size then
      (.error "Tuple too large for a heap page", s.fail .heapUpdate)
    else
      match env.pickRid s.clock s.heap size with
      | none => (.error "Buffer pool full: cannot allocate a new heap page", s.fail .heapUpdate)
      | some new =>
        (.ok (some new),
          { s.tick with heap := (s.heap.put new ⟨decoded schema row, size⟩).erase rid })

def canUpdateTupleInPlace (schema : List Column) (heap : HeapFile) (rid : RID) (row : Row) :
    Except String Bool :=
  match heap.record rid, encode row schema with
  | none, _ => .ok false
  | some _, .error what => .error what
  | some old, .ok size => .ok (size ≤ old.rawLen)

end Store

/-- `ExtractKey`; `none` is a column the tuple does not have. -/
def extractKey (row : Row) (index : IndexCatalogEntry) : Option (List Value) :=
  index.keyColumns.mapM fun col => row[col.columnIdx]?

def outOfRange : String := "Tuple value index out of range"

/-- The loop of `KeysEqual`; `none` is an exception. -/
def equalValues : List Value → List Value → Option Bool
  | l :: ls, r :: rs =>
    if l.isNull || r.isNull then
      if l.isNull && r.isNull then equalValues ls rs else some false
    else
      (compareValues l r).bind fun o => if o = .eq then equalValues ls rs else some false
  | _, _ => some true

def keysEqual (lhs rhs : List Value) : Option Bool :=
  if lhs.length = rhs.length then equalValues lhs rhs else some false

def hasNullComponent (key : List Value) : Bool := key.any Value.isNull

section Table

/-- The registered indexes of a table have relations of their own and keys of its columns. -/
structure Table where
  schema : List Column
  indexes : List IndexCatalogEntry
  distinct : (indexes.map IndexCatalogEntry.indexRelationId).Nodup
  inSchema : ∀ index ∈ indexes, ∀ col ∈ index.keyColumns, col.columnIdx < schema.length

/-- The order of `GetMaintenanceOrder`. -/
def precedes (a b : IndexCatalogEntry) : Prop :=
  a.indexRelationId < b.indexRelationId ∨
    (a.indexRelationId = b.indexRelationId ∧ a.indexName ≤ b.indexName)

instance : DecidableRel precedes := fun a b => by unfold precedes; infer_instance

def unattached (index : IndexCatalogEntry) : String :=
  "Registered index has no attached runtime object: " ++ index.indexName

def Table.getMaintenanceOrder (table : Table) : Except String (List IndexCatalogEntry) :=
  match table.indexes.find? fun index => index.runtimeIndex.isNone with
  | some index => .error (unattached index)
  | none => .ok (table.indexes.insertionSort precedes)

def Table.hasAnyRuntimeIndex (table : Table) : Bool :=
  table.indexes.any fun index => index.runtimeIndex.isSome

/-- `ValidateIndexKeyCompatibility`: the exception, if there is one. -/
def Table.validateIndexKeyCompatibility (table : Table) (row : Row) : Option String :=
  table.indexes.findSome? fun index =>
    if index.runtimeIndex.isNone then some (unattached index)
    else
      match extractKey row index with
      | none => some outOfRange
      | some key =>
        if hasNullComponent key then
          some ("NULL index keys are not supported by this storage/index layer: " ++
            index.indexName)
        else none

/-- The loop of `AnyIndexedKeyChanged`; `none` is an exception. -/
def anyKeyChanged (old new : Row) : List IndexCatalogEntry → Option Bool
  | [] => some false
  | index :: rest =>
    if index.runtimeIndex.isNone then anyKeyChanged old new rest
    else
      match extractKey old index, extractKey new index with
      | some oldKey, some newKey =>
        (keysEqual oldKey newKey).bind fun same =>
          if same then anyKeyChanged old new rest else some true
      | _, _ => none

def Table.anyIndexedKeyChanged (table : Table) (old new : Row) : Option Bool :=
  anyKeyChanged old new table.indexes

variable (env : Environment)

/-- The loop of `ValidateUniqueIndexes`. -/
def validateUnique (row : Row) (ridToIgnore : Option RID) : List IndexCatalogEntry → Action Unit
  | [], s => (.ok (), s)
  | index :: rest, s =>
    if index.isUnique then
      if index.runtimeIndex.isNone then
        (.error ("Unique index has no attached runtime object: " ++ index.indexName), s)
      else
        match extractKey row index with
        | none => (.error outOfRange, s)
        | some key =>
          match searchExact env index key s with
          | (.error what, s) => (.error what, s)
          | (.ok hits, s) =>
            if ∀ hit ∈ hits, ridToIgnore = some hit then validateUnique row ridToIgnore rest s
            else (.error ("Unique index violation on index: " ++ index.indexName), s)
    else validateUnique row ridToIgnore rest s

/-- The loop that enters the keys of a tuple: the indexes done, and the exception that
ended it. -/
def insertEntries (row : Row) (rid : RID) :
    List IndexCatalogEntry → List IndexCatalogEntry → Store →
      (List IndexCatalogEntry × Option String) × Store
  | [], done, s => ((done, none), s)
  | index :: rest, done, s =>
    match extractKey row index with
    | none => ((done, some outOfRange), s)
    | some key =>
      match insertEntry env index key rid s with
      | (.error what, s) => ((done, some what), s)
      | (.ok _, s) => insertEntries row rid rest (done ++ [index]) s

/-- The loop that deletes the keys of a tuple; `refusal` is the text for an index without
the entry. -/
def deleteEntries (refusal : String) (row : Row) (rid : RID) :
    List IndexCatalogEntry → List IndexCatalogEntry → Store →
      (List IndexCatalogEntry × Option String) × Store
  | [], done, s => ((done, none), s)
  | index :: rest, done, s =>
    match extractKey row index with
    | none => ((done, some outOfRange), s)
    | some key =>
      match deleteEntry env index key rid s with
      | (.error what, s) => ((done, some what), s)
      | (.ok false, s) => ((done, some (refusal ++ index.indexName)), s)
      | (.ok true, s) => deleteEntries refusal row rid rest (done ++ [index]) s

/-- A loop over the maintenance order; without that order it does not start. -/
def Table.maintain (table : Table)
    (loop : List IndexCatalogEntry → List IndexCatalogEntry → Store →
      (List IndexCatalogEntry × Option String) × Store) (s : Store) :
    (List IndexCatalogEntry × Option String) × Store :=
  match table.getMaintenanceOrder with
  | .error what => (([], some what), s)
  | .ok order => loop order [] s

/-- Compensation: take the new entries out again. The texts are those of the problems. -/
def removeInserted (refusal failure : String) (row : Row) (rid : RID) :
    List IndexCatalogEntry → Store → List String × Store
  | [], s => ([], s)
  | index :: rest, s =>
    let attempt : Option String × Store :=
      match extractKey row index with
      | none => (some (failure ++ index.indexName ++ ": " ++ outOfRange), s)
      | some key =>
        match deleteEntry env index key rid s with
        | (.error what, s) => (some (failure ++ index.indexName ++ ": " ++ what), s)
        | (.ok false, s) => (some (refusal ++ index.indexName), s)
        | (.ok true, s) => (none, s)
    let (problems, s) := removeInserted refusal failure row rid rest attempt.2
    (attempt.1.toList ++ problems, s)

def restoreDeleted (failure : String) (row : Row) (rid : RID) :
    List IndexCatalogEntry → Store → List String × Store
  | [], s => ([], s)
  | index :: rest, s =>
    let attempt : Option String × Store :=
      match extractKey row index with
      | none => (some (failure ++ index.indexName ++ ": " ++ outOfRange), s)
      | some key =>
        match insertEntry env index key rid s with
        | (.error what, s) => (some (failure ++ index.indexName ++ ": " ++ what), s)
        | (.ok _, s) => (none, s)
    let (problems, s) := restoreDeleted failure row rid rest attempt.2
    (attempt.1.toList ++ problems, s)

def removeTuple (refusal failure : String) (rid : RID) (s : Store) : List String × Store :=
  match heapDelete env rid s with
  | (.error what, s) => ([failure ++ what], s)
  | (.ok false, s) => ([refusal], s)
  | (.ok true, s) => ([], s)

def buildRollbackFailureMessage (base : String) (problems : List String) : String :=
  if problems = [] then base
  else base ++ " | rollback problems:" ++ String.join (problems.map fun e => " [" ++ e ++ "]")

def Table.insertTuple (table : Table) (row : Row) : Action RID := fun s =>
  match table.validateIndexKeyCompatibility row with
  | some what => (.error what, s)
  | none =>
    match acquireLocks env s with
    | (.error what, s) => (.error what, s)
    | (.ok _, s) =>
      match validateUnique env row none table.indexes s with
      | (.error what, s) => (.error what, s)
      | (.ok _, s) =>
        match heapInsert env table.schema row s with
        | (.error what, s) => (.error what, s)
        | (.ok rid, s) =>
          match table.maintain (insertEntries env row rid) s with
          | ((_, none), s) => (.ok rid, s)
          | ((inserted, some what), s) =>
            let (indexProblems, s) := removeInserted env "failed to rollback inserted index entry on "
              "rollback delete failed on " row rid inserted.reverse s
            let (heapProblems, s) := removeTuple env "failed to rollback inserted heap tuple"
              "heap rollback delete failed: " rid s
            (.error (buildRollbackFailureMessage
              ("InsertTuple failed during index maintenance: " ++ what)
              (indexProblems ++ heapProblems)), s)

/-- The `catch` of `DeleteTuple`. -/
def Table.undoDelete (row : Row) (rid : RID) (deleted : List IndexCatalogEntry) (what : String)
    (s : Store) : Except String Bool × Store :=
  let (problems, s) :=
    restoreDeleted env "rollback insert failed on " row rid deleted.reverse s
  (.error (buildRollbackFailureMessage
    ("DeleteTuple failed during multi-index maintenance: " ++ what) problems), s)

def Table.deleteTuple (table : Table) (rid : RID) : Action Bool := fun s =>
  match s.heap.getTuple table.schema rid with
  | .error what => (.error what, s)
  | .ok none => (.ok false, s)
  | .ok (some old) =>
    match acquireLocks env s with
    | (.error what, s) => (.error what, s)
    | (.ok _, s) =>
      match table.maintain
          (deleteEntries env "index delete returned false for index " old rid) s with
      | ((deleted, some what), s) => Table.undoDelete env old rid deleted what s
      | ((deleted, none), s) =>
        match heapDelete env rid s with
        | (.error what, s) => Table.undoDelete env old rid deleted what s
        | (.ok false, s) =>
          Table.undoDelete env old rid deleted "heap delete returned false" s
        | (.ok true, s) => (.ok true, s)

/-- The `catch` of `UpdateTuple`. -/
def Table.undoUpdate (old new : Row) (rid newRid : RID)
    (inserted deleted : List IndexCatalogEntry) (what : String) (s : Store) :
    Except String (Option RID) × Store :=
  let (restoreProblems, s) :=
    restoreDeleted env "failed to restore old index entry on " old rid deleted.reverse s
  let (indexProblems, s) := removeInserted env "failed to delete new index entry on "
    "failed to delete new index entry on " new newRid inserted.reverse s
  let (heapProblems, s) := removeTuple env "failed to delete newly inserted heap tuple"
    "failed to rollback new heap tuple: " newRid s
  (.error (buildRollbackFailureMessage
    ("UpdateTuple failed during multi-index maintenance: " ++ what)
    (restoreProblems ++ indexProblems ++ heapProblems)), s)

/-- `UpdateTuple` past its fast path: the new tuple and its entries first, then the old. -/
def Table.replaceTuple (table : Table) (rid : RID) (old new : Row) : Action (Option RID) := fun s =>
  match acquireLocks env s with
  | (.error what, s) => (.error what, s)
  | (.ok _, s) =>
    match validateUnique env new (some rid) table.indexes s with
    | (.error what, s) => (.error what, s)
    | (.ok _, s) =>
      match heapInsert env table.schema new s with
      | (.error what, s) => (.error what, s)
      | (.ok newRid, s) =>
        match table.maintain (insertEntries env new newRid) s with
        | ((inserted, some what), s) => Table.undoUpdate env old new rid newRid inserted [] what s
        | ((inserted, none), s) =>
          match table.maintain
              (deleteEntries env "old index entry delete returned false for index " old rid) s with
          | ((deleted, some what), s) =>
            Table.undoUpdate env old new rid newRid inserted deleted what s
          | ((deleted, none), s) =>
            match heapDelete env rid s with
            | (.error what, s) => Table.undoUpdate env old new rid newRid inserted deleted what s
            | (.ok false, s) => Table.undoUpdate env old new rid newRid inserted deleted
                "old heap tuple delete returned false" s
            | (.ok true, s) => (.ok (some newRid), s)

/-- `UpdateTuple`; `none` where it returns false. -/
def Table.updateTuple (table : Table) (rid : RID) (new : Row) : Action (Option RID) := fun s =>
  match s.heap.getTuple table.schema rid with
  | .error what => (.error what, s)
  | .ok none => (.ok none, s)
  | .ok (some old) =>
    match table.validateIndexKeyCompatibility new with
    | some what => (.error what, s)
    | none =>
      match table.anyIndexedKeyChanged old new with
      | none => (.error "Comparison between incompatible types", s)
      | some indexedKeyChanged =>
        match canUpdateTupleInPlace table.schema s.heap rid new with
        | .error what => (.error what, s)
        | .ok inPlace =>
          if !table.hasAnyRuntimeIndex || (!indexedKeyChanged && inPlace) then
            heapUpdate env table.schema rid new s
          else table.replaceTuple env rid old new s

inductive Call
  | insert (row : Row)
  | delete (rid : RID)
  | update (rid : RID) (row : Row)
  deriving DecidableEq

inductive Outcome
  | inserted (rid : RID)
  | deleted (found : Bool)
  | updated (newRid : Option RID)
  deriving DecidableEq

def Table.run (table : Table) : Call → Action Outcome
  | .insert row, s => (table.insertTuple env row s).map (.map .inserted) id
  | .delete rid, s => (table.deleteTuple env rid s).map (.map .deleted) id
  | .update rid row, s => (table.updateTuple env rid row s).map (.map .updated) id

/-- Every tuple goes to the first free slot of the first page; operations fail as told. -/
def Environment.onFirstPage (fault : Nat → Option Fault) : Environment where
  fault := fault
  pickRid _ heap _ :=
    ((List.range ((heap.slots[0]?).getD 0 + 1)).map (RID.mk 0)).find? fun rid =>
      (heap.record rid).isNone
  fresh found := by simpa using List.find?_some found

def Store.empty : Store := ⟨.empty, fun _ => 0, 0, []⟩

end Table

end GraniteDb.Storage.Table
