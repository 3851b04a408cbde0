/- Schemas, stored tables with their indexes, and the lookups of the catalog. -/

import GraniteDb.Access.IndexScan

set_option linter.dupNamespace false

namespace GraniteDb.Catalog.CatalogManager

open Common.Types Common.Value Access.IndexScan

structure Column where
  name : String
  type : TypeId
  deriving DecidableEq

abbrev Schema := List Column

/-- A stored tuple is read back with the types of its schema, NULL values included. -/
def FitsSchema (schema : Schema) (row : Row) : Prop :=
  row.map Value.typeId = schema.map Column.type

instance (schema : Schema) (row : Row) : Decidable (FitsSchema schema row) :=
  inferInstanceAs (Decidable (_ = _))

variable {row : Row}

theorem FitsSchema.length {schema : Schema} (fits : FitsSchema schema row) :
    row.length = schema.length := by
  have same := congrArg List.length fits
  simpa using same

/-- `AbstractIndex`: what an index catalog entry points to at run time. -/
inductive RuntimeIndex
  | btree (index : BTreeIndex)
  | generic (index : GenericBTreeIndex)

def RuntimeIndex.entries : RuntimeIndex → List (List Value × RID)
  | .btree index => index.entries.map fun e => ([e.key], e.rid)
  | .generic index => index.entries.map fun e => (e.key, e.rid)

structure IndexCatalogEntry where
  keyColumns : List IndexKeyColumnDefinition
  runtimeIndex : Option RuntimeIndex

def IndexCatalogEntry.matchesSingleColumn (entry : IndexCatalogEntry) (columnIdx : Nat) : Bool :=
  entry.keyColumns.map (·.columnIdx) == [columnIdx]

def IndexCatalogEntry.btreeIndex (entry : IndexCatalogEntry) : Option BTreeIndex :=
  match entry.runtimeIndex with
  | some (.btree index) => some index
  | _ => none

def IndexCatalogEntry.genericBTreeIndex (entry : IndexCatalogEntry) : Option GenericBTreeIndex :=
  match entry.runtimeIndex with
  | some (.generic index) => some index
  | _ => none

def IndexCatalogEntry.entries (entry : IndexCatalogEntry) : List (List Value × RID) :=
  (entry.runtimeIndex.map RuntimeIndex.entries).getD []

abbrev HeapFile := List (RID × Row)

def getTuple (heap : HeapFile) (rid : RID) : Option Row := heap.lookup rid

theorem mem_of_getTuple {heap : HeapFile} {rid : RID} (found : getTuple heap rid = some row) :
    (rid, row) ∈ heap := by
  induction heap with
  | nil => cases found
  | cons entry rest ih =>
    obtain ⟨rid', row'⟩ := entry
    unfold getTuple at found
    rw [List.lookup_cons] at found
    by_cases same : rid = rid'
    · subst same
      simp only [beq_self_eq_true] at found
      cases found
      exact List.mem_cons_self
    · rw [beq_eq_false_iff_ne.mpr same] at found
      exact List.mem_cons_of_mem _ (ih found)

def HasKey (cols : List IndexKeyColumnDefinition) (row : Row) (key : List Value) : Prop :=
  cols.map (fun col => row[col.columnIdx]?) = key.map some

instance (cols : List IndexKeyColumnDefinition) (row : Row) (key : List Value) :
    Decidable (HasKey cols row key) :=
  inferInstanceAs (Decidable (_ = _))

/-- A table with its indexes: every stored row fits the schema, and an index entry that
points to a row has the key of that row. -/
structure RelationCatalogEntry where
  relationId : Nat
  schema : Schema
  heap : HeapFile
  indexes : List IndexCatalogEntry
  fits : ∀ stored ∈ heap, FitsSchema schema stored.2
  maintained : ∀ index ∈ indexes, ∀ entry ∈ index.entries, ∀ row ∈ getTuple heap entry.2,
    HasKey index.keyColumns row entry.1

variable {rel : RelationCatalogEntry}

theorem FitsSchema.alone (fits : FitsSchema rel.schema row) :
    ∀ stored ∈ [((⟨0, 0⟩ : RID), row)], FitsSchema rel.schema stored.2 := by
  intro stored member
  rw [List.mem_singleton.mp member]
  exact fits

structure CatalogManager where
  relations : List RelationCatalogEntry
  names : List (String × Nat) := []

/-- `GetRelation`; `none` is an exception. -/
def CatalogManager.getRelation (catalog : CatalogManager) (relationId : Nat) :
    Option RelationCatalogEntry :=
  catalog.relations.find? fun rel => rel.relationId == relationId

def CatalogManager.getRelationByName (catalog : CatalogManager) (relationName : String) :
    Option RelationCatalogEntry :=
  (catalog.names.lookup relationName).bind catalog.getRelation

def RelationCatalogEntry.findIndexOnColumn (rel : RelationCatalogEntry) (columnIdx : Nat) :
    Option IndexCatalogEntry :=
  rel.indexes.find? fun index => index.matchesSingleColumn columnIdx

theorem getRelation_id {catalog : CatalogManager} {relationId : Nat}
    (found : catalog.getRelation relationId = some rel) : rel.relationId = relationId := by
  simpa using List.find?_some found

theorem entry_of_btree {entry : IndexCatalogEntry} {index : BTreeIndex}
    (btree : entry.btreeIndex = some index) {e : LeafEntry} (member : e ∈ index.entries) :
    ([e.key], e.rid) ∈ entry.entries := by
  unfold IndexCatalogEntry.btreeIndex at btree
  split at btree
  · rename_i runtime
    cases btree
    simp only [IndexCatalogEntry.entries, runtime, Option.map_some, Option.getD_some]
    exact List.mem_map.mpr ⟨e, member, rfl⟩
  · cases btree

theorem entry_of_generic {entry : IndexCatalogEntry} {index : GenericBTreeIndex}
    (generic : entry.genericBTreeIndex = some index) {e : GenericLeafEntry}
    (member : e ∈ index.entries) : (e.key, e.rid) ∈ entry.entries := by
  unfold IndexCatalogEntry.genericBTreeIndex at generic
  split at generic
  · rename_i runtime
    cases generic
    simp only [IndexCatalogEntry.entries, runtime, Option.map_some, Option.getD_some]
    exact List.mem_map.mpr ⟨e, member, rfl⟩
  · cases generic

theorem hasKey_of_entry {index : IndexCatalogEntry} (registered : index ∈ rel.indexes)
    {key : List Value} {rid : RID} (entry : (key, rid) ∈ index.entries)
    (found : getTuple rel.heap rid = some row) :
    HasKey index.keyColumns row key :=
  rel.maintained index registered _ entry row found

end GraniteDb.Catalog.CatalogManager
