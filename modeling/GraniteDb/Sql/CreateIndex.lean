/- CREATE INDEX: the relation file, the build over the rows, the catalog and the cleanup. -/

import GraniteDb.Buffer.PageFrames
import GraniteDb.Storage.Table

namespace GraniteDb.Sql.CreateIndex

open Common.Types Common.Value Access.IndexScan Storage.DiskManager Buffer.PageFrames Storage.Table
open Access.HeapFile (Column)

section State

structure CatalogIndex extends IndexCatalogEntry where
  indexFileName : String
  deriving DecidableEq

structure RelationCatalogEntry where
  relationId : Nat
  relationName : String
  heapFileName : String
  schema : List Column
  indexes : List CatalogIndex
  deriving DecidableEq

/-- The catalog, the relations open at run time and those the relation manager knows, the rows of
each heap, and the pages. -/
structure Session (Page : Type) where
  catalog : List RelationCatalogEntry
  runtimeRelations : List Nat
  managedRelations : List Nat
  nextRelationId : Nat
  rows : Nat → List (RID × Row)
  pool : BufferPool Page

structure BoundCreateIndexStatement where
  unique : Bool
  indexName : String
  tableName : String
  relationId : Nat
  keyColumns : List IndexKeyColumnDefinition
  deriving DecidableEq

structure CreateIndexStatementAST where
  unique : Bool
  indexName : String
  tableName : String
  columnNames : List String
  deriving DecidableEq

/-- The column loop of `BindCreateIndex`. -/
def bindKeyColumns (schema : List Column) : List String → Except String (List IndexKeyColumnDefinition)
  | [] => .ok []
  | name :: rest =>
    match (schema.zipIdx.find? fun c => c.1.name = name) with
    | none => .error ("Unknown column: " ++ name)
    | some (col, idx) =>
      (bindKeyColumns schema rest).map fun cols =>
        ⟨idx, col.type, col.maxLength, col.nullable⟩ :: cols

def bindCreateIndex (catalog : List RelationCatalogEntry) (stmt : CreateIndexStatementAST) :
    Except String BoundCreateIndexStatement :=
  match catalog.find? fun rel => rel.relationName = stmt.tableName with
  | none => .error "Unknown relation name in catalog"
  | some rel =>
    (bindKeyColumns rel.schema stmt.columnNames).map fun cols =>
      ⟨stmt.unique, stmt.indexName, stmt.tableName, rel.relationId, cols⟩

/-- What the code of the trees does with the pages of an index, and which page the replacer
gives up. -/
structure PageTraffic (Page : Type) where
  victim : Nat → Option PageId
  metaPage : List IndexKeyColumnDefinition → Page
  rootPage : List IndexKeyColumnDefinition → Page
  search : List (List Value × RID) → List Value → List (PageCall Page)
  insert : List (List Value × RID) → List Value → RID → List (PageCall Page)

variable {Page : Type}

abbrev SessionAction (Page α : Type) := Session Page → Except String α × Session Page

def onPool {α : Type} (action : PoolAction Page α) : SessionAction Page α := fun s =>
  ((action s.pool).1, { s with pool := (action s.pool).2 })

end State

section Build

variable {Page : Type} [Inhabited Page] (traffic : PageTraffic Page)

def indexFile (indexName : String) : String := indexName ++ ".idx"

def newEntry (stmt : BoundCreateIndexStatement) (indexRelationId : Nat) : CatalogIndex where
  indexName := stmt.indexName
  indexRelationId := indexRelationId
  keyColumns := stmt.keyColumns
  isUnique := stmt.unique
  nullPolicy := .notSupported
  runtimeIndex :=
    match stmt.keyColumns with
    | [col] => some (.btree col.type col.maxVarcharLen)
    | _ => some .generic
  indexFileName := indexFile stmt.indexName

/-- `InitializeIfNeeded`, for an index without pages. -/
def initializeIfNeeded (entry : CatalogIndex) : PoolAction Page Unit := fun s =>
  match newPage traffic.victim entry.indexRelationId s with
  | (.error what, s) => (.error what, s)
  | (.ok metaNo, s) =>
    if metaNo ≠ 0 then (.error "Failed to allocate B+ tree metapage", s)
    else
      match newPage traffic.victim entry.indexRelationId s with
      | (.error what, s) => (.error what, s)
      | (.ok rootNo, s) =>
        if rootNo ≠ 1 then (.error "Failed to allocate B+ tree root page", s)
        else runCalls traffic.victim entry.indexRelationId
          [.write 1 (traffic.rootPage entry.keyColumns),
            .write 0 (traffic.metaPage entry.keyColumns), .unpin 0 true, .unpin 1 true] s

def requireAbsent (entry : CatalogIndex) (entries : List (List Value × RID)) (key : List Value) :
    PoolAction Page Unit := fun s =>
  if entry.isUnique then
    match entry.encodeFailure key with
    | some what => (.error what, s)
    | none =>
      match runCalls traffic.victim entry.indexRelationId (traffic.search entries key) s with
      | (.error what, s) => (.error what, s)
      | (.ok _, s) =>
        if entries.any fun e => e.1 = key then
          (.error ("CREATE UNIQUE INDEX failed: duplicate key encountered for index " ++
            entry.indexName), s)
        else (.ok (), s)
  else (.ok (), s)

def enterRow (entry : CatalogIndex) (entries : List (List Value × RID)) (rid : RID) (row : Row) :
    PoolAction Page (List (List Value × RID)) := fun s =>
  match extractKey row entry.toIndexCatalogEntry with
  | none => (.error outOfRange, s)
  | some key =>
    if hasNullComponent key then
      (.error ("CREATE INDEX failed: NULL index keys are not supported by this storage/index layer: "
        ++ entry.indexName), s)
    else
      match requireAbsent traffic entry entries key s with
      | (.error what, s) => (.error what, s)
      | (.ok _, s) =>
        match entry.encodeFailure key with
        | some what => (.error what, s)
        | none =>
          match runCalls traffic.victim entry.indexRelationId
              (traffic.insert entries key rid) s with
          | (.error what, s) => (.error what, s)
          | (.ok _, s) => (.ok (entries ++ [(key, rid)]), s)

def enterRows (base : Nat) (entry : CatalogIndex) :
    List (RID × Row) → List (List Value × RID) → PoolAction Page (List (List Value × RID))
  | [], entries, s => (.ok entries, s)
  | (rid, row) :: rest, entries, s =>
    match runCalls traffic.victim base (scanCalls [rid.pageNo]) s with
    | (.error what, s) => (.error what, s)
    | (.ok _, s) =>
      match enterRow traffic entry entries rid row s with
      | (.error what, s) => (.error what, s)
      | (.ok entries, s) => enterRows base entry rest entries s

def buildEntries (base : Nat) (entry : CatalogIndex) (rows : List (RID × Row)) :
    PoolAction Page (List (List Value × RID)) := fun s =>
  match initializeIfNeeded traffic entry s with
  | (.error what, s) => (.error what, s)
  | (.ok _, s) => enterRows traffic base entry rows [] s

omit [Inhabited Page] in
def registerIndex (base : Nat) (entry : CatalogIndex) : SessionAction Page Unit := fun s =>
  match s.catalog.find? fun rel => rel.relationId = base with
  | none => (.error "Base relation not registered before index", s)
  | some rel =>
    if rel.indexes.any fun index => index.indexName = entry.indexName then
      (.error ("Index name already registered on relation: " ++ entry.indexName), s)
    else
      (.ok (), { s with
        catalog := s.catalog.map fun rel =>
          if rel.relationId = base then { rel with indexes := rel.indexes ++ [entry] } else rel })

omit [Inhabited Page] in
/-- `RelationManager::RegisterIndexFile`, of which only the exception matters here. -/
def registerIndexFile (base : Nat) : SessionAction Page Unit := fun s =>
  if base ∈ s.managedRelations then (.ok (), s) else (.error "Unknown relation id", s)

/-- `RefreshStats`: a scan of the heap. -/
def refreshStats (base : Nat) : SessionAction Page Unit := fun s =>
  match s.pool.disk.getNumPages base with
  | .error what => (.error what, s)
  | .ok numPages => onPool (runCalls traffic.victim base (scanCalls (List.range numPages))) s

/-- The `try` block of `ExecuteCreateIndex`. -/
def buildIndex (base : Nat) (entry : CatalogIndex) : SessionAction Page Unit := fun s =>
  match onPool (buildEntries traffic base entry (s.rows base)) s with
  | (.error what, s) => (.error what, s)
  | (.ok _, s) =>
    match registerIndex base entry s with
    | (.error what, s) => (.error what, s)
    | (.ok _, s) =>
      match registerIndexFile base s with
      | (.error what, s) => (.error what, s)
      | (.ok _, s) => refreshStats traffic base s

def deletePages (id : Nat) : List Nat → BufferPool Page → BufferPool Page
  | [], s => s
  | pageNo :: rest, s =>
    match deletePage ⟨id, pageNo⟩ s with
    | (.error _, s) => s
    | (.ok _, s) => deletePages id rest s

/-- The inner `try` of the `catch` block. -/
def deleteNewPages (id : Nat) (s : BufferPool Page) : BufferPool Page :=
  match s.disk.getNumPages id with
  | .error _ => s
  | .ok numPages => deletePages id (List.range numPages) s

/-- The `catch` block. -/
def dropNewIndex (id : Nat) (s : BufferPool Page) : BufferPool Page :=
  { deleteNewPages id s with disk := destroyRelation id (deleteNewPages id s).disk }

def executeCreateIndex (stmt : BoundCreateIndexStatement) : SessionAction Page String := fun s =>
  match s.catalog.find? fun rel => rel.relationId = stmt.relationId with
  | none => (.error "Unknown relation id in catalog", s)
  | some rel =>
    if rel.relationId ∉ s.runtimeRelations then (.error "Runtime relation not found", s)
    else
      let id := s.nextRelationId
      let s := { s with nextRelationId := s.nextRelationId + 1 }
      match createRelation id (indexFile stmt.indexName) s.pool.disk with
      | (.error what, disk) => (.error what, { s with pool := { s.pool with disk := disk } })
      | (.ok _, disk) =>
        match buildIndex traffic rel.relationId (newEntry stmt id)
            { s with pool := { s.pool with disk := disk } } with
        | (.ok _, s) =>
          (.ok ("Created index " ++ stmt.indexName ++ " on " ++ stmt.tableName ++ "."), s)
        | (.error what, s) => (.error what, { s with pool := dropNewIndex id s.pool })

end Build

end GraniteDb.Sql.CreateIndex
