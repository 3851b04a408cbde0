/- The catalog file: what Save writes, what Load reads, and which names survive. -/

import GraniteDb.Lib.EscapedFields
import GraniteDb.Lib.LineStream
import GraniteDb.Sql.ExpressionPrinting

namespace GraniteDb.Catalog.CatalogFile

open Common.Value Lib Lib.LineStream
open Access.IndexScan (NullPolicy)
open Sql.Parser (integerPrefix)
open List (mem_map append_nil nil_append mem_cons_self mem_cons_of_mem map_map map_nil map_cons)

abbrev Text := List Char

def backslash : Char := Char.ofNat 92

def bar : Char := '|'

def newline : Char := Char.ofNat 10

def escape (s : Text) : Text := EscapedFields.escape backslash bar s

def unescape (s : Text) : Text := EscapedFields.unescape backslash false s

def splitEscaped (line : Text) : List Text := EscapedFields.split backslash bar [] false line

/-- A `std::vector`, whose size is a `std::size_t`. -/
abbrev Vec (α : Type) := { l : List α // l.length < 2 ^ 64 }

def Vec.ofList {α : Type} (l : List α) : Except String (Vec α) :=
  if fits : l.length < 2 ^ 64 then .ok ⟨l, fits⟩ else .error "vector"

def Vec.map {α β : Type} (f : α → β) (v : Vec α) : Vec β :=
  ⟨v.1.map f, by
    rw [List.length_map]
    exact v.2⟩

structure Column where
  name : Text
  type : TypeId
  nullable : Bool
  maxLength : BitVec 32
  deriving DecidableEq

structure IndexKeyColumnDefinition where
  columnIdx : BitVec 64
  type : TypeId
  maxVarcharLen : BitVec 32
  nullable : Bool
  deriving DecidableEq

inductive IndexKind
  | btree
  deriving DecidableEq

/-- `IndexCatalogEntry`; of the runtime index only its root page is saved. -/
structure IndexCatalogEntry where
  indexName : Text
  indexFileName : Text
  baseRelationId : BitVec 32
  indexRelationId : BitVec 32
  kind : IndexKind
  isUnique : Bool
  nullPolicy : NullPolicy
  rootPageNo : BitVec 32
  runtimeRoot : Option (BitVec 32)
  keyColumns : Vec IndexKeyColumnDefinition
  deriving DecidableEq

def IndexCatalogEntry.getRootPageNo (entry : IndexCatalogEntry) : BitVec 32 :=
  entry.runtimeRoot.getD entry.rootPageNo

structure RelationCatalogEntry where
  relationId : BitVec 32
  relationName : Text
  heapFileName : Text
  schema : Vec Column
  indexes : Vec IndexCatalogEntry
  deriving DecidableEq

structure CatalogManager where
  catalogFilePath : Text
  relationsById : List RelationCatalogEntry
  distinct : (relationsById.map RelationCatalogEntry.relationId).Nodup
  relationNameToId : Text → Option (BitVec 32)

def CatalogManager.new (path : Text) : CatalogManager := ⟨path, [], List.nodup_nil, fun _ => none⟩

def CatalogManager.find (c : CatalogManager) (id : BitVec 32) : Option RelationCatalogEntry :=
  c.relationsById.find? (·.relationId = id)

/-- `relations_by_id_[id] = entry; relation_name_to_id_[name] = id`. -/
def CatalogManager.insert (c : CatalogManager) (entry : RelationCatalogEntry) : CatalogManager where
  catalogFilePath := c.catalogFilePath
  relationsById := c.relationsById.filter (·.relationId ≠ entry.relationId) ++ [entry]
  distinct := by
    rw [List.map_append, List.map_singleton, List.nodup_append]
    refine ⟨(List.filter_sublist.map _).nodup c.distinct, List.nodup_singleton _, ?_⟩
    intro id member id' single
    obtain ⟨rel, kept, rfl⟩ := mem_map.mp member
    rw [List.mem_singleton.mp single]
    simpa using (List.mem_filter.mp kept).2
  relationNameToId :=
    Function.update c.relationNameToId entry.relationName (some entry.relationId)

def CatalogManager.registerRelation (c : CatalogManager) (relationId : BitVec 32)
    (relationName : Text) (schema : Vec Column) (heapFileName : Text) :
    Except String CatalogManager :=
  if (c.find relationId).isSome then .error "Relation id already registered in catalog"
  else if (c.relationNameToId relationName).isSome then
    .error "Relation name already registered in catalog"
  else
    .ok (c.insert {
      relationId, relationName, schema
      heapFileName :=
        if heapFileName = [] then relationName ++ ".heap".toList else heapFileName
      indexes := ⟨[], by decide⟩ })

def CatalogManager.setIndexes (c : CatalogManager) (id : BitVec 32)
    (indexes : Vec IndexCatalogEntry) : CatalogManager :=
  { c with
    relationsById :=
      c.relationsById.map fun rel => if rel.relationId = id then { rel with indexes } else rel
    distinct := by
      have same : (RelationCatalogEntry.relationId ∘ fun rel : RelationCatalogEntry =>
          if rel.relationId = id then { rel with indexes } else rel) =
          RelationCatalogEntry.relationId := by
        funext rel
        show RelationCatalogEntry.relationId (if _ then _ else _) = _
        split <;> rfl
      rw [map_map, same]
      exact c.distinct }

def CatalogManager.registerIndex (c : CatalogManager) (entry : IndexCatalogEntry) :
    Except String CatalogManager :=
  match c.find entry.baseRelationId with
  | none => .error "Base relation not registered before index"
  | some rel =>
    if rel.indexes.1.any (·.indexName = entry.indexName) then
      .error ("Index name already registered on relation: " ++ String.ofList entry.indexName)
    else do
      let indexes ← Vec.ofList (rel.indexes.1 ++ [entry])
      .ok (c.setIndexes entry.baseRelationId indexes)

/-- `RegisterIndex` for one column; `root` is the root page of the index, if one is given. -/
def CatalogManager.registerColumnIndex (c : CatalogManager) (indexName : Text)
    (baseRelationId indexRelationId : BitVec 32) (keyColumnIdx : BitVec 64) (keyType : TypeId)
    (maxVarcharLen : BitVec 32) (root : Option (BitVec 32)) (isUnique : Bool)
    (nullPolicy : NullPolicy) (indexFileName : Text) : Except String CatalogManager :=
  c.registerIndex {
    indexName, baseRelationId, indexRelationId, isUnique, nullPolicy
    indexFileName := if indexFileName = [] then indexName ++ ".idx".toList else indexFileName
    kind := .btree
    rootPageNo := root.getD 0
    runtimeRoot := root
    keyColumns := ⟨[⟨keyColumnIdx, keyType, maxVarcharLen, true⟩], by
      rw [List.length_singleton]
      decide⟩ }

inductive Call
  | relation (relationId : BitVec 32) (relationName : Text) (schema : Vec Column)
      (heapFileName : Text)
  | index (entry : IndexCatalogEntry)
  | columnIndex (indexName : Text) (baseRelationId indexRelationId : BitVec 32)
      (keyColumnIdx : BitVec 64) (keyType : TypeId) (maxVarcharLen : BitVec 32)
      (root : Option (BitVec 32)) (isUnique : Bool) (nullPolicy : NullPolicy)
      (indexFileName : Text)

def CatalogManager.call (c : CatalogManager) : Call → Except String CatalogManager
  | .relation relationId relationName schema heapFileName =>
    c.registerRelation relationId relationName schema heapFileName
  | .index entry => c.registerIndex entry
  | .columnIndex indexName baseRelationId indexRelationId keyColumnIdx keyType maxVarcharLen root
      isUnique nullPolicy indexFileName =>
      c.registerColumnIndex indexName baseRelationId indexRelationId keyColumnIdx keyType
        maxVarcharLen root isUnique nullPolicy indexFileName

/-- The catalogs that registrations lead to; one that fails changes nothing. -/
inductive Reachable (path : Text) : CatalogManager → Prop
  | new : Reachable path (.new path)
  | call {c c' : CatalogManager} (call : Call) : Reachable path c → c.call call = .ok c' →
      Reachable path c'

def word (s : String) : Text := s.toList

def number (n : Nat) : Text := (Nat.repr n).toList

def flag (b : Bool) : Text := number (if b then 1 else 0)

def TypeId.code : TypeId → Nat
  | .invalid => 0
  | .boolean => 1
  | .int32 => 2
  | .int64 => 3
  | .double => 4
  | .varchar => 5

def nullPolicyCode : NullPolicy → Nat
  | .notSupported => 0
  | .distinctNulls => 1
  | .nullsLow => 2
  | .nullsHigh => 3

def line (fields : List Text) : Text := EscapedFields.join bar fields ++ [newline]

def saveColumn (col : Column) : Text :=
  line [word "COL", escape col.name, number (TypeId.code col.type), flag col.nullable,
    number col.maxLength.toNat]

def saveKey (keyCol : IndexKeyColumnDefinition) : Text :=
  line [word "KEY", number keyCol.columnIdx.toNat, number (TypeId.code keyCol.type),
    number keyCol.maxVarcharLen.toNat, flag keyCol.nullable]

def saveIndex (idx : IndexCatalogEntry) : Text :=
  line [word "IDX", escape idx.indexName, escape idx.indexFileName,
    number idx.baseRelationId.toNat, number idx.indexRelationId.toNat, number 0,
    flag idx.isUnique, number (nullPolicyCode idx.nullPolicy), number idx.getRootPageNo.toNat,
    number idx.keyColumns.1.length] ++
  idx.keyColumns.1.flatMap saveKey

def saveRelation (rel : RelationCatalogEntry) : Text :=
  line [word "REL", number rel.relationId.toNat, escape rel.relationName,
    escape rel.heapFileName, number rel.schema.1.length] ++
  (rel.schema.1.flatMap saveColumn ++
    (line [word "IDXCOUNT", number rel.indexes.1.length] ++ rel.indexes.1.flatMap saveIndex))

/-- `Save`: the text of the file, if there is one. `iteration` is the order in which the hash
table is gone through. -/
def CatalogManager.save (iteration : List RelationCatalogEntry → List RelationCatalogEntry)
    (c : CatalogManager) : Option Text :=
  if c.catalogFilePath = [] then none
  else
    some (line [word "CATALOG_V3"] ++ (line [number c.relationsById.length] ++
      (iteration c.relationsById).flatMap saveRelation))

def stoul (text : Text) : Except String Nat := Sql.Parser.stoul (String.ofList text)

def stoi (text : Text) : Except String Int :=
  match integerPrefix (String.ofList text) with
  | none => .error "stoi"
  | some (negative, n) =>
    let v : Int := if negative then -n else n
    if -2 ^ 31 ≤ v ∧ v < 2 ^ 31 then .ok v else .error "stoi"

def typeOf (n : Int) : TypeId :=
  if n = 1 then .boolean
  else if n = 2 then .int32
  else if n = 3 then .int64
  else if n = 4 then .double
  else if n = 5 then .varchar
  else .invalid

def nullPolicyOf (n : Int) : NullPolicy :=
  if n = 1 then .distinctNulls
  else if n = 2 then .nullsLow
  else if n = 3 then .nullsHigh
  else .notSupported

abbrev Load (α : Type) := Reader Char String α

def getFields : Load (List Text) := do
  let line ← getline newline
  pure (splitEscaped line)

def parseColumn : List Text → Except String Column
  | [tag, name, type, nullable, maxLength] =>
    if tag = word "COL" then do
      let type ← stoi type
      let nullable ← stoi nullable
      let maxLength ← stoul maxLength
      .ok ⟨unescape name, typeOf type, nullable ≠ 0, BitVec.ofNat 32 maxLength⟩
    else .error "Corrupt catalog column entry"
  | _ => .error "Corrupt catalog column entry"

def parseKey : List Text → Except String IndexKeyColumnDefinition
  | [tag, columnIdx, type, maxVarcharLen, nullable] =>
    if tag = word "KEY" then do
      let columnIdx ← stoul columnIdx
      let type ← stoi type
      let maxVarcharLen ← stoul maxVarcharLen
      let nullable ← stoi nullable
      .ok ⟨BitVec.ofNat 64 columnIdx, typeOf type, BitVec.ofNat 32 maxVarcharLen, nullable ≠ 0⟩
    else .error "Corrupt catalog index-key entry"
  | _ => .error "Corrupt catalog index-key entry"

def parseV1Index : List Text → Except String IndexCatalogEntry
  | [tag, name, base, index, columnIdx, type, maxVarcharLen, root] =>
    if tag = word "IDX" then do
      let base ← stoul base
      let index ← stoul index
      let columnIdx ← stoul columnIdx
      let type ← stoi type
      let maxVarcharLen ← stoul maxVarcharLen
      let root ← stoul root
      let keys ← Vec.ofList [(⟨BitVec.ofNat 64 columnIdx, typeOf type,
        BitVec.ofNat 32 maxVarcharLen, true⟩ : IndexKeyColumnDefinition)]
      .ok ⟨unescape name, unescape name ++ ".idx".toList, BitVec.ofNat 32 base,
        BitVec.ofNat 32 index, .btree, false, .notSupported, BitVec.ofNat 32 root, none, keys⟩
    else .error "Corrupt V1 catalog index entry"
  | _ => .error "Corrupt V1 catalog index entry"

/-- The numbers of an index entry after its names, with the number of its keys. -/
def parseIndexNumbers (indexName indexFileName base index kind isUnique nullPolicy root keys : Text) :
    Except String (IndexCatalogEntry × Nat) := do
  let base ← stoul base
  let index ← stoul index
  let _ ← stoi kind
  let isUnique ← stoi isUnique
  let nullPolicy ← stoi nullPolicy
  let root ← stoul root
  let keys ← stoul keys
  .ok (⟨indexName, indexFileName, BitVec.ofNat 32 base, BitVec.ofNat 32 index, .btree,
    isUnique ≠ 0, nullPolicyOf nullPolicy, BitVec.ofNat 32 root, none, ⟨[], by decide⟩⟩, keys)

/-- An index entry of the later versions, without its keys; the third version has a file name. -/
def parseIndex (magic : Text) (fields : List Text) : Except String (IndexCatalogEntry × Nat) :=
  if magic = word "CATALOG_V2" then
    match fields with
    | [tag, name, base, index, kind, isUnique, nullPolicy, root, keys] =>
      if tag = word "IDX" then
        parseIndexNumbers (unescape name) (unescape name ++ ".idx".toList) base index kind
          isUnique nullPolicy root keys
      else .error "Corrupt catalog index entry"
    | _ => .error "Corrupt catalog index entry"
  else
    match fields with
    | [tag, name, fileName, base, index, kind, isUnique, nullPolicy, root, keys] =>
      if tag = word "IDX" then
        parseIndexNumbers (unescape name) (unescape fileName) base index kind isUnique
          nullPolicy root keys
      else .error "Corrupt catalog index entry"
    | _ => .error "Corrupt catalog index entry"

def readColumn : Load Column := do
  let fields ← getFields
  ofResult (parseColumn fields)

def readKey : Load IndexKeyColumnDefinition := do
  let fields ← getFields
  ofResult (parseKey fields)

def readIndex (magic : Text) : Load IndexCatalogEntry := do
  let fields ← getFields
  if magic = word "CATALOG_V1" then ofResult (parseV1Index fields)
  else do
    let entry ← ofResult (parseIndex magic fields)
    let keys ← times readKey entry.2
    let keyColumns ← ofResult (Vec.ofList keys)
    pure { entry.1 with keyColumns }

/-- A relation's own line: its id, its names and the number of its columns. -/
def parseRelation (magic : Text) (fields : List Text) :
    Except String (BitVec 32 × Text × Text × Nat) :=
  if magic = word "CATALOG_V3" then
    match fields with
    | [tag, id, name, heapFile, count] =>
      if tag = word "REL" then do
        let id ← stoul id
        let count ← stoul count
        .ok (BitVec.ofNat 32 id, unescape name, unescape heapFile, count)
      else .error "Corrupt catalog relation entry"
    | _ => .error "Corrupt catalog relation entry"
  else
    match fields with
    | [tag, id, name, count] =>
      if tag = word "REL" then do
        let id ← stoul id
        let count ← stoul count
        .ok (BitVec.ofNat 32 id, unescape name, unescape name ++ ".heap".toList, count)
      else .error "Corrupt catalog relation entry"
    | _ => .error "Corrupt catalog relation entry"

def parseIndexCount : List Text → Except String Nat
  | [tag, count] =>
    if tag = word "IDXCOUNT" then stoul count else .error "Corrupt catalog index-count entry"
  | _ => .error "Corrupt catalog index-count entry"

def readRelation (magic : Text) : Load RelationCatalogEntry := do
  let fields ← getFields
  let header ← ofResult (parseRelation magic fields)
  let columns ← times readColumn header.2.2.2
  let schema ← ofResult (Vec.ofList columns)
  let countFields ← getFields
  let indexCount ← ofResult (parseIndexCount countFields)
  let entries ← times (readIndex magic) indexCount
  let indexes ← ofResult (Vec.ofList entries)
  pure ⟨header.1, header.2.1, header.2.2.1, schema, indexes⟩

def versions : List Text := [word "CATALOG_V1", word "CATALOG_V2", word "CATALOG_V3"]

def readCatalog : Load (List RelationCatalogEntry) := do
  let magic ← getline newline
  let _ ← ofResult (if magic ∈ versions then .ok () else .error "Unsupported catalog file format")
  let _ ← newLine
  let count ← getline newline
  let relCount ← ofResult (stoul count)
  times (readRelation magic) relCount

def CatalogManager.load (c : CatalogManager) (file : Option Text) :
    Except String (Bool × CatalogManager) :=
  if c.catalogFilePath = [] then .ok (false, c)
  else
    match file with
    | none => .ok (false, c)
    | some text =>
      match readCatalog ⟨[], text, true⟩ with
      | .error what => .error what
      | .ok (relations, _) =>
        .ok (true, relations.foldl CatalogManager.insert (.new c.catalogFilePath))

theorem number_digits {n : Nat} {c : Char} (member : c ∈ number n) : c.isDigit = true :=
  Sql.ExpressionPrinting.digits_repr n c member

def Plain (text : Text) : Prop := escape text = text ∧ newline ∉ text

theorem plain_number (n : Nat) : Plain (number n) := by
  have other : ∀ c : Char, c.isDigit = false → c ∉ number n := by
    intro c notDigit member
    rw [number_digits member] at notDigit
    cases notDigit
  exact ⟨EscapedFields.escape_of_plain (other _ (by decide)) (other _ (by decide)),
    other _ (by decide)⟩

theorem plain_flag (b : Bool) : Plain (flag b) := plain_number _

theorem stoul_number {n : Nat} (small : n < 2 ^ 64) : stoul (number n) = .ok n := by
  rw [stoul, number, String.ofList_toList, Sql.Parser.stoul,
    Sql.ExpressionPrinting.integerPrefix_repr]
  exact if_pos small

theorem stoi_number {n : Nat} (small : n < 2 ^ 31) : stoi (number n) = .ok (n : Int) := by
  have inRange : -2 ^ 31 ≤ (n : Int) ∧ (n : Int) < 2 ^ 31 := by omega
  rw [stoi, number, String.ofList_toList, Sql.ExpressionPrinting.integerPrefix_repr]
  exact if_pos inRange

theorem stoi_flag (b : Bool) : stoi (flag b) = .ok (if b then 1 else 0) := by
  cases b with
  | true => exact stoi_number (by decide)
  | false => exact stoi_number (by decide)

theorem typeOf_code (type : TypeId) :
    stoi (number (TypeId.code type)) = .ok (TypeId.code type : Int) ∧
      typeOf (TypeId.code type : Int) = type := by
  refine ⟨stoi_number ?_, ?_⟩
  · cases type <;> decide
  · cases type <;> rfl

theorem nullPolicyOf_code (policy : NullPolicy) :
    stoi (number (nullPolicyCode policy)) = .ok (nullPolicyCode policy : Int) ∧
      nullPolicyOf (nullPolicyCode policy : Int) = policy := by
  refine ⟨stoi_number ?_, ?_⟩
  · cases policy <;> decide
  · cases policy <;> rfl

theorem stoul_bits {w : Nat} (bits : BitVec w) (narrow : w ≤ 64) :
    stoul (number bits.toNat) = .ok bits.toNat := by
  have inWidth : bits.toNat < 2 ^ w := bits.isLt
  have wide : 2 ^ w ≤ 2 ^ 64 := Nat.pow_le_pow_right (by decide) narrow
  exact stoul_number (by omega)

theorem flag_ne_zero (b : Bool) : decide ((if b then (1 : Int) else 0) ≠ 0) = b := by
  cases b <;> rfl

theorem reads_fields {first : Text} {rest : List Text}
    (oneLine : ∀ field ∈ first :: rest, newline ∉ field) :
    Reads getFields (line ((first :: rest).map escape)) (first :: rest) := by
  have inLine : newline ∉ EscapedFields.join bar ((first :: rest).map escape) := by
    intro member
    rcases EscapedFields.mem_join member with isBar | ⟨field, isField, inField⟩
    · exact absurd isBar (by decide)
    · obtain ⟨name, isName, rfl⟩ := mem_map.mp isField
      rcases EscapedFields.mem_escape inField with isEscape | inName
      · exact absurd isEscape (by decide)
      · exact oneLine name isName inName
  have parts : splitEscaped (EscapedFields.join bar ((first :: rest).map escape)) = first :: rest :=
    EscapedFields.split_join (by decide) first rest
  have read : Reads getFields _ (splitEscaped (EscapedFields.join bar
      ((first :: rest).map escape))) :=
    (Reads.getline inLine).bind (f := fun l => pure (splitEscaped l)) (.pure _)
  rw [append_nil, parts] at read
  exact read

theorem reads_line {fields texts : List Text} (nonempty : texts ≠ [])
    (same : texts.map escape = fields) (oneLine : ∀ text ∈ texts, newline ∉ text) :
    Reads getFields (line fields) texts := by
  subst same
  cases texts with
  | nil => exact absurd rfl nonempty
  | cons first rest => exact reads_fields oneLine

def Column.decoded (col : Column) : Column := { col with name := unescape col.name }

theorem parseColumn_saved (col : Column) : parseColumn [word "COL", col.name,
    number (TypeId.code col.type), flag col.nullable, number col.maxLength.toNat] =
      .ok col.decoded := by
  obtain ⟨type, sameType⟩ := typeOf_code col.type
  rw [parseColumn, if_pos rfl, type, stoi_flag, stoul_bits _ (by decide)]
  show Except.ok (Column.mk _ _ _ _) = _
  rw [sameType, BitVec.ofNat_toNat, BitVec.setWidth_eq, flag_ne_zero]
  rfl

theorem parseKey_saved (keyCol : IndexKeyColumnDefinition) : parseKey [word "KEY",
    number keyCol.columnIdx.toNat, number (TypeId.code keyCol.type),
    number keyCol.maxVarcharLen.toNat, flag keyCol.nullable] = .ok keyCol := by
  obtain ⟨type, sameType⟩ := typeOf_code keyCol.type
  rw [parseKey, if_pos rfl, stoul_bits _ (by decide), type, stoul_bits _ (by decide), stoi_flag]
  show Except.ok (IndexKeyColumnDefinition.mk _ _ _ _) = _
  rw [sameType, BitVec.ofNat_toNat, BitVec.setWidth_eq, BitVec.ofNat_toNat, BitVec.setWidth_eq,
    flag_ne_zero]

def IndexCatalogEntry.header (idx : IndexCatalogEntry) : IndexCatalogEntry :=
  { idx with
    indexName := unescape idx.indexName
    indexFileName := unescape idx.indexFileName
    rootPageNo := idx.getRootPageNo
    runtimeRoot := none
    keyColumns := ⟨[], by decide⟩ }

theorem parseIndex_saved (idx : IndexCatalogEntry) : parseIndex (word "CATALOG_V3") [word "IDX",
    idx.indexName, idx.indexFileName, number idx.baseRelationId.toNat,
    number idx.indexRelationId.toNat, number 0, flag idx.isUnique,
    number (nullPolicyCode idx.nullPolicy), number idx.getRootPageNo.toNat,
    number idx.keyColumns.1.length] = .ok (idx.header, idx.keyColumns.1.length) := by
  obtain ⟨policy, samePolicy⟩ := nullPolicyOf_code idx.nullPolicy
  have otherVersion : ¬word "CATALOG_V3" = word "CATALOG_V2" := by decide
  rw [parseIndex, if_neg otherVersion]
  show ite _ _ _ = _
  rw [if_pos rfl, parseIndexNumbers, stoul_bits _ (by decide), stoul_bits _ (by decide),
    stoi_number (by decide), stoi_flag, policy, stoul_bits _ (by decide),
    stoul_number idx.keyColumns.2]
  show Except.ok (IndexCatalogEntry.mk _ _ _ _ _ _ _ _ _ _, _) = _
  rw [samePolicy, BitVec.ofNat_toNat, BitVec.setWidth_eq, BitVec.ofNat_toNat, BitVec.setWidth_eq,
    BitVec.ofNat_toNat, BitVec.setWidth_eq, flag_ne_zero]
  rfl

theorem parseRelation_saved (rel : RelationCatalogEntry) : parseRelation (word "CATALOG_V3")
    [word "REL", number rel.relationId.toNat, rel.relationName, rel.heapFileName,
      number rel.schema.1.length] =
    .ok (rel.relationId, unescape rel.relationName, unescape rel.heapFileName,
      rel.schema.1.length) := by
  rw [parseRelation, if_pos rfl]
  show ite _ _ _ = _
  rw [if_pos rfl, stoul_bits _ (by decide), stoul_number rel.schema.2]
  show Except.ok (_, _, _, _) = _
  rw [BitVec.ofNat_toNat, BitVec.setWidth_eq]

theorem parseIndexCount_saved (rel : RelationCatalogEntry) :
    parseIndexCount [word "IDXCOUNT", number rel.indexes.1.length] =
      .ok rel.indexes.1.length := by
  rw [parseIndexCount, if_pos rfl, stoul_number rel.indexes.2]

theorem ofList_val {α : Type} (v : Vec α) : Vec.ofList v.1 = .ok v := dif_pos v.2

def IndexCatalogEntry.decoded (idx : IndexCatalogEntry) : IndexCatalogEntry :=
  { idx.header with keyColumns := idx.keyColumns }

def RelationCatalogEntry.decoded (rel : RelationCatalogEntry) : RelationCatalogEntry where
  relationId := rel.relationId
  relationName := unescape rel.relationName
  heapFileName := unescape rel.heapFileName
  schema := rel.schema.map Column.decoded
  indexes := rel.indexes.map IndexCatalogEntry.decoded

def RelationCatalogEntry.names (rel : RelationCatalogEntry) : List Text :=
  rel.relationName :: rel.heapFileName :: (rel.schema.1.map Column.name ++
    rel.indexes.1.flatMap fun idx => [idx.indexName, idx.indexFileName])

theorem no_newline_number (n : Nat) : newline ∉ number n := (plain_number n).2

theorem escape_number (n : Nat) : escape (number n) = number n := (plain_number n).1

theorem escape_flag (b : Bool) : escape (flag b) = flag b := (plain_flag b).1

theorem reads_parsed {α : Type} {parse : List Text → Except String α} {fields texts : List Text}
    {value : α} (nonempty : texts ≠ []) (same : texts.map escape = fields)
    (oneLine : ∀ text ∈ texts, newline ∉ text) (parsed : parse texts = .ok value) :
    Reads (do
      let read ← getFields
      ofResult (parse read)) (line fields) value := by
  have both := (reads_line nonempty same oneLine).bind (f := fun read => ofResult (parse read))
    (Reads.ofResult parsed)
  rw [append_nil] at both
  exact both

theorem reads_column {col : Column} (oneLine : newline ∉ col.name) :
    Reads readColumn (saveColumn col) col.decoded := by
  refine reads_parsed (List.cons_ne_nil _ _) ?_ ?_ (parseColumn_saved col)
  · have tag : escape (word "COL") = word "COL" := by decide
    simp only [map_cons, map_nil, tag, escape_number, escape_flag]
  · have tag : newline ∉ word "COL" := by decide
    simp [tag, oneLine, flag, no_newline_number]

theorem reads_key (keyCol : IndexKeyColumnDefinition) :
    Reads readKey (saveKey keyCol) keyCol := by
  refine reads_parsed (List.cons_ne_nil _ _) ?_ ?_ (parseKey_saved keyCol)
  · have tag : escape (word "KEY") = word "KEY" := by decide
    simp only [map_cons, map_nil, tag, escape_number, escape_flag]
  · have tag : newline ∉ word "KEY" := by decide
    simp [tag, flag, no_newline_number]

theorem reads_index {idx : IndexCatalogEntry} (oneLine : newline ∉ idx.indexName)
    (oneLineFile : newline ∉ idx.indexFileName) :
    Reads (readIndex (word "CATALOG_V3")) (saveIndex idx) idx.decoded := by
  have oneLines : ∀ text ∈ [word "IDX", idx.indexName, idx.indexFileName,
      number idx.baseRelationId.toNat, number idx.indexRelationId.toNat, number 0,
      flag idx.isUnique, number (nullPolicyCode idx.nullPolicy), number idx.getRootPageNo.toNat,
      number idx.keyColumns.1.length], newline ∉ text := by
    have tag : newline ∉ word "IDX" := by decide
    simp [tag, oneLine, oneLineFile, flag, no_newline_number]
  have own := reads_fields oneLines
  have keys : Reads (times readKey idx.keyColumns.1.length) (idx.keyColumns.1.flatMap saveKey)
      (idx.keyColumns.1.map id) := Reads.times fun keyCol _ => reads_key keyCol
  rw [List.map_id] at keys
  have otherVersion : ¬word "CATALOG_V3" = word "CATALOG_V1" := by decide
  have tag : escape (word "IDX") = word "IDX" := by decide
  simp only [map_cons, map_nil, tag, escape_number, escape_flag] at own
  apply Reads.of_eq
  case reads =>
    apply own.bind
    show Reads (ite _ _ _) _ _
    rw [if_neg otherVersion]
    apply (Reads.ofResult (parseIndex_saved idx)).bind
    apply keys.bind
    exact (Reads.ofResult (ofList_val idx.keyColumns)).bind (.pure _)
  case same =>
    simp only [nil_append, append_nil]
    rfl

variable {rel : RelationCatalogEntry}

theorem reads_relation (oneLine : ∀ name ∈ rel.names, newline ∉ name) :
    Reads (readRelation (word "CATALOG_V3")) (saveRelation rel) rel.decoded := by
  have ownName : newline ∉ rel.relationName := oneLine _ mem_cons_self
  have fileName : newline ∉ rel.heapFileName :=
    oneLine _ (mem_cons_of_mem _ mem_cons_self)
  have oneLines : ∀ text ∈ [word "REL", number rel.relationId.toNat, rel.relationName,
      rel.heapFileName, number rel.schema.1.length], newline ∉ text := by
    have tag : newline ∉ word "REL" := by decide
    simp [tag, ownName, fileName, no_newline_number]
  have own := reads_fields oneLines
  have columns : Reads (times readColumn rel.schema.1.length) (rel.schema.1.flatMap saveColumn)
      (rel.schema.1.map Column.decoded) := by
    refine Reads.times fun col member => reads_column (oneLine _ ?_)
    refine mem_cons_of_mem _ (mem_cons_of_mem _ (List.mem_append_left _ ?_))
    exact List.mem_map_of_mem member
  have countLine : ∀ text ∈ [word "IDXCOUNT", number rel.indexes.1.length],
      newline ∉ text := by
    have tag : newline ∉ word "IDXCOUNT" := by decide
    simp [tag, no_newline_number]
  have counted := reads_fields countLine
  have indexes : Reads (times (readIndex (word "CATALOG_V3")) rel.indexes.1.length)
      (rel.indexes.1.flatMap saveIndex) (rel.indexes.1.map IndexCatalogEntry.decoded) := by
    refine Reads.times fun idx member => ?_
    have inNames : ∀ name ∈ [idx.indexName, idx.indexFileName], newline ∉ name := by
      intro name isName
      refine oneLine _ (mem_cons_of_mem _ (mem_cons_of_mem _ ?_))
      exact List.mem_append_right _ (List.mem_flatMap.mpr ⟨idx, member, isName⟩)
    exact reads_index (inNames _ mem_cons_self)
      (inNames _ (mem_cons_of_mem _ mem_cons_self))
  have tag : escape (word "REL") = word "REL" := by decide
  have countTag : escape (word "IDXCOUNT") = word "IDXCOUNT" := by decide
  simp only [map_cons, map_nil, tag, countTag, escape_number] at own counted
  apply Reads.of_eq
  case reads =>
    apply own.bind
    apply (Reads.ofResult (parseRelation_saved rel)).bind
    apply columns.bind
    apply (Reads.ofResult (ofList_val (rel.schema.map Column.decoded))).bind
    apply counted.bind
    apply (Reads.ofResult (parseIndexCount_saved rel)).bind
    apply indexes.bind
    exact (Reads.ofResult (ofList_val (rel.indexes.map IndexCatalogEntry.decoded))).bind (.pure _)
  case same =>
    simp only [nil_append, append_nil]
    rfl

/-- What is kept of an index: everything but the runtime object behind it. -/
def IndexCatalogEntry.persisted (idx : IndexCatalogEntry) : IndexCatalogEntry :=
  { idx with rootPageNo := idx.getRootPageNo, runtimeRoot := none }

def RelationCatalogEntry.persisted (rel : RelationCatalogEntry) : RelationCatalogEntry :=
  { rel with indexes := rel.indexes.map IndexCatalogEntry.persisted }

def CatalogManager.names (c : CatalogManager) : List Text :=
  c.relationsById.flatMap RelationCatalogEntry.names

/-- The second catalog has the relations of the first, with their columns and indexes. -/
def Restores (c c' : CatalogManager) : Prop :=
  (∀ id, c'.find id = (c.find id).map RelationCatalogEntry.persisted) ∧
    c'.relationNameToId = c.relationNameToId

theorem unescape_eq_self {name : Text} : unescape name = name ↔ backslash ∉ name :=
  EscapedFields.unescape_eq_self

theorem Column.decoded_eq_self {col : Column} : col.decoded = col ↔ backslash ∉ col.name := by
  rw [← unescape_eq_self]
  constructor
  · intro same
    exact congrArg Column.name same
  · intro same
    show { col with name := unescape col.name } = col
    rw [same]

theorem IndexCatalogEntry.decoded_eq_persisted {idx : IndexCatalogEntry} :
    idx.decoded = idx.persisted ↔ ∀ name ∈ [idx.indexName, idx.indexFileName], backslash ∉ name := by
  have both : (∀ name ∈ [idx.indexName, idx.indexFileName], backslash ∉ name) ↔
      unescape idx.indexName = idx.indexName ∧ unescape idx.indexFileName = idx.indexFileName := by
    simp [unescape_eq_self]
  rw [both]
  constructor
  · intro same
    exact ⟨congrArg IndexCatalogEntry.indexName same, congrArg IndexCatalogEntry.indexFileName same⟩
  · intro same
    show IndexCatalogEntry.mk (unescape _) (unescape _) _ _ _ _ _ _ _ _ = _
    rw [same.1, same.2]
    rfl

theorem RelationCatalogEntry.decoded_eq_persisted :
    rel.decoded = rel.persisted ↔ ∀ name ∈ rel.names, backslash ∉ name := by
  have columns : rel.schema.map Column.decoded = rel.schema ↔
      ∀ name ∈ rel.schema.1.map Column.name, backslash ∉ name := by
    rw [List.forall_mem_map, Subtype.ext_iff]
    show rel.schema.1.map Column.decoded = rel.schema.1 ↔ _
    conv_lhs => rhs; rw [← List.map_id rel.schema.1]
    rw [List.map_inj_left]
    exact forall₂_congr fun col _ => Column.decoded_eq_self
  have indexes : rel.indexes.map IndexCatalogEntry.decoded =
      rel.indexes.map IndexCatalogEntry.persisted ↔
      ∀ name ∈ rel.indexes.1.flatMap fun idx => [idx.indexName, idx.indexFileName],
        backslash ∉ name := by
    rw [List.forall_mem_flatMap, Subtype.ext_iff]
    show rel.indexes.1.map _ = rel.indexes.1.map _ ↔ _
    rw [List.map_inj_left]
    exact forall₂_congr fun idx _ => IndexCatalogEntry.decoded_eq_persisted
  rw [RelationCatalogEntry.names, List.forall_mem_cons, List.forall_mem_cons,
    List.forall_mem_append, ← columns, ← indexes, ← unescape_eq_self, ← unescape_eq_self]
  constructor
  · intro same
    exact ⟨congrArg relationName same, congrArg heapFileName same, congrArg schema same,
      congrArg RelationCatalogEntry.indexes same⟩
  · rintro ⟨sameName, sameFile, sameSchema, sameIndexes⟩
    show RelationCatalogEntry.mk _ (unescape _) (unescape _) (Vec.map _ _) (Vec.map _ _) = _
    rw [sameName, sameFile, sameSchema, sameIndexes]
    rfl

variable {c : CatalogManager}

theorem CatalogManager.find_eq_some {id : BitVec 32}
    :
    c.find id = some rel ↔ rel ∈ c.relationsById ∧ rel.relationId = id := by
  constructor
  · intro found
    have chosen := List.find?_some found
    exact ⟨List.mem_of_find?_eq_some found, by simpa using chosen⟩
  · rintro ⟨member, rfl⟩
    cases found : c.find rel.relationId with
    | none =>
      have other := List.find?_eq_none.mp found rel member
      exact absurd (decide_eq_true rfl) other
    | some rel' =>
      have member' : rel' ∈ c.relationsById := List.mem_of_find?_eq_some found
      have chosen := List.find?_some found
      have sameId : rel'.relationId = rel.relationId := by simpa using chosen
      rw [List.inj_on_of_nodup_map c.distinct member' member sameId]

theorem relations_few (c : CatalogManager) : c.relationsById.length < 2 ^ 64 := by
  have numbers : (c.relationsById.map fun rel => rel.relationId.toNat).Nodup := by
    have mapped := c.distinct.map (f := BitVec.toNat) fun _ _ same => BitVec.eq_of_toNat_eq same
    rw [map_map] at mapped
    exact mapped
  have inRange : (c.relationsById.map fun rel => rel.relationId.toNat) ⊆ List.range (2 ^ 32) := by
    intro n member
    obtain ⟨rel, -, rfl⟩ := mem_map.mp member
    exact List.mem_range.mpr rel.relationId.isLt
  have few := (List.subperm_of_subset numbers inRange).length_le
  rw [List.length_map, List.length_range] at few
  omega

theorem insert_fresh {entry : RelationCatalogEntry}
    (fresh : ∀ rel ∈ c.relationsById, rel.relationId ≠ entry.relationId) :
    (c.insert entry).relationsById = c.relationsById ++ [entry] := by
  have others : c.relationsById.filter (·.relationId ≠ entry.relationId) = c.relationsById :=
    List.filter_eq_self.mpr fun rel member => decide_eq_true (fresh rel member)
  show List.filter _ _ ++ _ = _
  rw [others]

def Indexed (c : CatalogManager) : Prop :=
  ∀ name id, c.relationNameToId name = some id ↔
    ∃ rel ∈ c.relationsById, rel.relationName = name ∧ rel.relationId = id

theorem Indexed.insert {entry : RelationCatalogEntry} (indexed : Indexed c)
    (freshId : ∀ rel ∈ c.relationsById, rel.relationId ≠ entry.relationId)
    (freshName : ∀ rel ∈ c.relationsById, rel.relationName ≠ entry.relationName) :
    Indexed (c.insert entry) := by
  intro name id
  rw [insert_fresh freshId]
  show Function.update c.relationNameToId entry.relationName (some entry.relationId) name = _ ↔ _
  by_cases same : name = entry.relationName
  · subst same
    rw [Function.update_self, Option.some.injEq]
    constructor
    · intro sameId
      exact ⟨entry, List.mem_append_right _ mem_cons_self, rfl, sameId⟩
    · rintro ⟨rel, member, sameName, sameId⟩
      rcases List.mem_append.mp member with old | new
      · exact absurd sameName (freshName rel old)
      · rw [← List.mem_singleton.mp new, sameId]
  · rw [Function.update_of_ne same, indexed]
    constructor
    · rintro ⟨rel, member, found⟩
      exact ⟨rel, List.mem_append_left _ member, found⟩
    · rintro ⟨rel, member, sameName, sameId⟩
      rcases List.mem_append.mp member with old | new
      · exact ⟨rel, old, sameName, sameId⟩
      · rw [List.mem_singleton.mp new] at sameName
        exact absurd sameName.symm same

theorem Indexed.names_nodup (indexed : Indexed c) :
    (c.relationsById.map RelationCatalogEntry.relationName).Nodup := by
  refine (List.Nodup.of_map _ c.distinct).map_on ?_
  intro rel member rel' member' sameName
  have first := (indexed rel.relationName rel.relationId).mpr ⟨rel, member, rfl, rfl⟩
  have second := (indexed rel.relationName rel'.relationId).mpr
    ⟨rel', member', sameName.symm, rfl⟩
  have sameId := Option.some.inj (first.symm.trans second)
  exact List.inj_on_of_nodup_map c.distinct member member' sameId

theorem not_mem_of_nodup_append {α β : Type} {f : α → β} {before rest : List α} {a : α}
    (fresh : ((before ++ a :: rest).map f).Nodup) : ∀ b ∈ before, f b ≠ f a := by
  intro b member same
  rw [List.map_append] at fresh
  refine List.disjoint_of_nodup_append fresh (List.mem_map_of_mem member) ?_
  rw [same]
  exact List.mem_map_of_mem mem_cons_self

theorem foldl_insert {rels : List RelationCatalogEntry}
    (fresh : ((c.relationsById ++ rels).map RelationCatalogEntry.relationId).Nodup) :
    (rels.foldl CatalogManager.insert c).relationsById = c.relationsById ++ rels := by
  induction rels generalizing c with
  | nil => exact (append_nil _).symm
  | cons rel rest ih =>
    have whole : (c.insert rel).relationsById ++ rest = c.relationsById ++ rel :: rest := by
      rw [insert_fresh (not_mem_of_nodup_append fresh), List.append_assoc,
        List.singleton_append]
    rw [List.foldl_cons, ih (by rw [whole]; exact fresh), whole]

theorem foldl_insert_indexed {rels : List RelationCatalogEntry}
    (indexed : Indexed c)
    (fresh : ((c.relationsById ++ rels).map RelationCatalogEntry.relationId).Nodup)
    (freshNames : ((c.relationsById ++ rels).map RelationCatalogEntry.relationName).Nodup) :
    Indexed (rels.foldl CatalogManager.insert c) := by
  induction rels generalizing c with
  | nil => exact indexed
  | cons rel rest ih =>
    have whole : (c.insert rel).relationsById ++ rest = c.relationsById ++ rel :: rest := by
      rw [insert_fresh (not_mem_of_nodup_append fresh), List.append_assoc,
        List.singleton_append]
    refine ih ?_ (by rw [whole]; exact fresh) (by rw [whole]; exact freshNames)
    exact indexed.insert (not_mem_of_nodup_append fresh) (not_mem_of_nodup_append freshNames)

theorem Indexed.new (path : Text) : Indexed (.new path) := by
  intro name id
  constructor
  · intro impossible
    cases impossible
  · rintro ⟨rel, member, -⟩
    exact absurd member List.not_mem_nil

theorem Indexed.setIndexes (indexed : Indexed c) (id : BitVec 32)
    (indexes : Vec IndexCatalogEntry) : Indexed (c.setIndexes id indexes) := by
  intro name id'
  show c.relationNameToId name = _ ↔ ∃ rel ∈ c.relationsById.map _, _
  rw [indexed]
  simp only [mem_map, exists_exists_and_eq_and]
  refine exists_congr fun rel => and_congr_right fun _ => ?_
  by_cases changed : rel.relationId = id
  · rw [if_pos changed]
  · rw [if_neg changed]

theorem registerRelation_indexed {c c' : CatalogManager} {id : BitVec 32} {name : Text}
    {schema : Vec Column} {heapFile : Text}
    (registered : c.registerRelation id name schema heapFile = .ok c') (indexed : Indexed c) :
    Indexed c' ∧ c'.catalogFilePath = c.catalogFilePath := by
  rw [CatalogManager.registerRelation] at registered
  split at registered
  · cases registered
  split at registered
  · cases registered
  rename_i freshId freshName
  cases registered
  refine ⟨indexed.insert ?_ ?_, rfl⟩
  · intro rel member same
    have found : c.find id = some rel := CatalogManager.find_eq_some.mpr ⟨member, same⟩
    exact freshId (by rw [found]; rfl)
  · intro rel member same
    have known := (indexed name rel.relationId).mpr ⟨rel, member, same, rfl⟩
    exact freshName (by rw [known]; rfl)

theorem registerIndex_indexed {c c' : CatalogManager} {entry : IndexCatalogEntry}
    (registered : c.registerIndex entry = .ok c') (indexed : Indexed c) :
    Indexed c' ∧ c'.catalogFilePath = c.catalogFilePath := by
  rw [CatalogManager.registerIndex] at registered
  split at registered
  · cases registered
  split at registered
  · cases registered
  rename_i rel _ _
  cases grown : Vec.ofList (rel.indexes.1 ++ [entry]) with
  | error what =>
    rw [grown] at registered
    cases registered
  | ok indexes =>
    rw [grown] at registered
    cases registered
    exact ⟨indexed.setIndexes _ _, rfl⟩

variable {path : Text}

theorem Reachable.indexed (reachable : Reachable path c) :
    Indexed c ∧ c.catalogFilePath = path := by
  induction reachable with
  | new => exact ⟨.new path, rfl⟩
  | @call c c' call _ called ih =>
    obtain ⟨indexed, samePath⟩ := ih
    have step : Indexed c' ∧ c'.catalogFilePath = c.catalogFilePath := by
      cases call with
      | relation id name schema heapFile => exact registerRelation_indexed called indexed
      | index entry => exact registerIndex_indexed called indexed
      | columnIndex => exact registerIndex_indexed called indexed
    exact ⟨step.1, step.2.trans samePath⟩

variable {iteration : List RelationCatalogEntry → List RelationCatalogEntry}

theorem load_saved
    (reachable : Reachable path c) (named : path ≠ []) (all : ∀ l, (iteration l).Perm l)
    (oneLine : ∀ name ∈ c.names, newline ∉ name) :
    (CatalogManager.new path).load (c.save iteration) =
      .ok (true, ((iteration c.relationsById).map RelationCatalogEntry.decoded).foldl
        CatalogManager.insert (.new path)) := by
  have samePath : c.catalogFilePath = path := reachable.indexed.2
  have members : ∀ rel ∈ iteration c.relationsById, rel ∈ c.relationsById :=
    fun rel => (all c.relationsById).mem_iff.mp
  have relations : Reads (times (readRelation (word "CATALOG_V3"))
      (iteration c.relationsById).length) ((iteration c.relationsById).flatMap saveRelation)
      ((iteration c.relationsById).map RelationCatalogEntry.decoded) :=
    Reads.times fun rel member => reads_relation fun name isName =>
      oneLine name (List.mem_flatMap.mpr ⟨rel, members rel member, isName⟩)
  rw [(all c.relationsById).length_eq] at relations
  have magic : newline ∉ EscapedFields.join bar [word "CATALOG_V3"] := by decide
  have count : newline ∉ EscapedFields.join bar [number c.relationsById.length] := by
    rw [EscapedFields.join, List.intercalate_singleton]
    exact no_newline_number _
  have counted : stoul (EscapedFields.join bar [number c.relationsById.length]) =
      .ok c.relationsById.length := by
    rw [EscapedFields.join, List.intercalate_singleton]
    exact stoul_number (relations_few c)
  have whole : Reads readCatalog (line [word "CATALOG_V3"] ++
      (line [number c.relationsById.length] ++
        (iteration c.relationsById).flatMap saveRelation))
      ((iteration c.relationsById).map RelationCatalogEntry.decoded) := by
    apply Reads.of_eq
    case reads =>
      apply (Reads.getline magic).bind
      apply (Reads.ofResult (if_pos (by decide))).bind
      apply Reads.newLine.bind
      apply (Reads.getline count).bind
      apply (Reads.ofResult counted).bind
      exact relations
    case same =>
      simp only [nil_append]
      rfl
  obtain ⟨line', read⟩ := whole [] []
  rw [append_nil] at read
  have savedPath : ¬c.catalogFilePath = [] := by
    rw [samePath]
    exact named
  have loadedPath : ¬(CatalogManager.new path).catalogFilePath = [] := named
  rw [CatalogManager.save, if_neg savedPath, CatalogManager.load, if_neg loadedPath]
  simp only [read]
  rfl

theorem decoded_ids (rels : List RelationCatalogEntry) :
    (rels.map RelationCatalogEntry.decoded).map RelationCatalogEntry.relationId =
      rels.map RelationCatalogEntry.relationId := by
  rw [map_map]
  rfl

theorem loaded_relations
    (all : ∀ l, (iteration l).Perm l) :
    (((iteration c.relationsById).map RelationCatalogEntry.decoded).foldl
      CatalogManager.insert (.new path)).relationsById =
        (iteration c.relationsById).map RelationCatalogEntry.decoded := by
  refine foldl_insert ?_
  show (([] ++ _).map _).Nodup
  rw [nil_append, decoded_ids]
  exact ((all c.relationsById).map _).nodup_iff.mpr c.distinct

theorem persisted_find {id : BitVec 32} :
    (c.find id).map RelationCatalogEntry.persisted = some rel ↔
      ∃ old ∈ c.relationsById, old.relationId = id ∧ old.persisted = rel := by
  rw [Option.map_eq_some_iff]
  simp only [CatalogManager.find_eq_some, and_assoc]

theorem restores_of_plain
    (indexed : Indexed c) (all : ∀ l, (iteration l).Perm l)
    (plain : ∀ name ∈ c.names, backslash ∉ name) :
    Restores c (((iteration c.relationsById).map RelationCatalogEntry.decoded).foldl
      CatalogManager.insert (.new path)) := by
  have whole : ∀ rel ∈ c.relationsById, rel.decoded = rel.persisted := fun rel member =>
    RelationCatalogEntry.decoded_eq_persisted.mpr fun name isName =>
      plain name (List.mem_flatMap.mpr ⟨rel, member, isName⟩)
  have same : (iteration c.relationsById).map RelationCatalogEntry.decoded =
      (iteration c.relationsById).map RelationCatalogEntry.persisted :=
    List.map_inj_left.mpr fun rel member => whole rel ((all c.relationsById).mem_iff.mp member)
  have kept : (((iteration c.relationsById).map RelationCatalogEntry.decoded).foldl
      CatalogManager.insert (.new path)).relationsById =
        (iteration c.relationsById).map RelationCatalogEntry.decoded := loaded_relations all
  have names : ((iteration c.relationsById).map RelationCatalogEntry.persisted).map
      RelationCatalogEntry.relationName =
        (iteration c.relationsById).map RelationCatalogEntry.relationName := by
    rw [map_map]
    rfl
  have newIndexed : Indexed (((iteration c.relationsById).map
      RelationCatalogEntry.decoded).foldl CatalogManager.insert (.new path)) := by
    refine foldl_insert_indexed (.new path) ?_ ?_
    · show (([] ++ _).map _).Nodup
      rw [nil_append, decoded_ids]
      exact ((all c.relationsById).map _).nodup_iff.mpr c.distinct
    · show (([] ++ _).map _).Nodup
      rw [nil_append, same, names]
      exact ((all c.relationsById).map _).nodup_iff.mpr indexed.names_nodup
  have members : ∀ rel, rel ∈ (iteration c.relationsById).map RelationCatalogEntry.decoded ↔
      ∃ old ∈ c.relationsById, old.persisted = rel := by
    intro rel
    rw [same, mem_map]
    exact exists_congr fun old => and_congr_left fun _ => (all c.relationsById).mem_iff
  constructor
  · intro id
    ext rel
    rw [CatalogManager.find_eq_some, kept, members, persisted_find]
    constructor
    · rintro ⟨⟨old, member, rfl⟩, sameId⟩
      exact ⟨old, member, sameId, rfl⟩
    · rintro ⟨old, member, sameId, rfl⟩
      exact ⟨⟨old, member, rfl⟩, sameId⟩
  · funext name
    ext id
    rw [newIndexed, indexed, kept]
    constructor
    · rintro ⟨rel, member, found⟩
      obtain ⟨old, isOld, rfl⟩ := (members rel).mp member
      exact ⟨old, isOld, found⟩
    · rintro ⟨old, isOld, found⟩
      exact ⟨old.persisted, (members _).mpr ⟨old, isOld, rfl⟩, found⟩

theorem plain_of_restores
    (all : ∀ l, (iteration l).Perm l)
    (restores : Restores c (((iteration c.relationsById).map RelationCatalogEntry.decoded).foldl
      CatalogManager.insert (.new path))) : ∀ name ∈ c.names, backslash ∉ name := by
  intro name isName
  obtain ⟨rel, member, inRel⟩ := List.mem_flatMap.mp isName
  refine RelationCatalogEntry.decoded_eq_persisted.mp ?_ name inRel
  have found : (c.find rel.relationId).map RelationCatalogEntry.persisted = some rel.persisted :=
    persisted_find.mpr ⟨rel, member, rfl, rfl⟩
  rw [← restores.1, CatalogManager.find_eq_some, loaded_relations all] at found
  obtain ⟨old, isOld, same⟩ := mem_map.mp found.1
  have sameId : old.decoded.relationId = rel.persisted.relationId :=
    congrArg RelationCatalogEntry.relationId same
  have isRelation : old ∈ c.relationsById := (all c.relationsById).mem_iff.mp isOld
  have sameRelation : old = rel :=
    List.inj_on_of_nodup_map c.distinct isRelation member sameId
  rw [← sameRelation] at same ⊢
  exact same

theorem load_save_iff {path : Text} {c : CatalogManager}
    {iteration : List RelationCatalogEntry → List RelationCatalogEntry}
    (reachable : Reachable path c) (named : path ≠ []) (all : ∀ l, (iteration l).Perm l)
    (oneLine : ∀ name ∈ c.names, newline ∉ name) :
    (∃ c', (CatalogManager.new path).load (c.save iteration) = .ok (true, c') ∧ Restores c c') ↔
      ∀ name ∈ c.names, backslash ∉ name := by
  have loaded := load_saved reachable named all oneLine
  constructor
  · rintro ⟨c', same, restores⟩
    rw [loaded] at same
    cases same
    exact plain_of_restores all restores
  · intro plain
    exact ⟨_, loaded, restores_of_plain reachable.indexed.1 all plain⟩

/-- One relation with a column and an index on it, under a name of the caller's choice. -/
def oneRelation (name : Text) : RelationCatalogEntry where
  relationId := 1
  relationName := name
  heapFileName := name ++ ".heap".toList
  schema := ⟨[⟨word "id", .int32, false, 0⟩], by decide⟩
  indexes := ⟨[], by decide⟩

def oneIndex : IndexCatalogEntry where
  indexName := word "by|id"
  indexFileName := word "by|id.idx"
  baseRelationId := 1
  indexRelationId := 2
  kind := .btree
  isUnique := true
  nullPolicy := .nullsLow
  rootPageNo := 0
  runtimeRoot := some 7
  keyColumns := ⟨[⟨0, .int32, 0, false⟩], by decide⟩

def oneCatalog (name : Text) : CatalogManager :=
  ((CatalogManager.new (word "db.catalog")).insert (oneRelation name)).setIndexes 1
    ⟨[oneIndex], by decide⟩

theorem oneCatalog_reachable (name : Text) :
    Reachable (word "db.catalog") (oneCatalog name) := by
  have registered : Reachable (word "db.catalog")
      ((CatalogManager.new (word "db.catalog")).insert (oneRelation name)) :=
    .call (.relation 1 name ⟨[⟨word "id", .int32, false, 0⟩], by decide⟩ []) .new rfl
  exact .call (.index oneIndex) registered rfl

theorem load_save_iff_bar : ∃ c', (CatalogManager.new (word "db.catalog")).load
    ((oneCatalog (word "a|b")).save id) = .ok (true, c') ∧
      Restores (oneCatalog (word "a|b")) c' :=
  (load_save_iff (oneCatalog_reachable _) (by decide) (fun _ => .refl _) (by decide)).mpr
    (by decide)

/-- The name of a relation loses its backslash. -/
theorem not_load_save_backslash :
    Reachable (word "db.catalog") (oneCatalog ['a', backslash, 'b']) ∧
      (∀ name ∈ (oneCatalog ['a', backslash, 'b']).names, newline ∉ name) ∧
      ¬∃ c', (CatalogManager.new (word "db.catalog")).load
        ((oneCatalog ['a', backslash, 'b']).save id) = .ok (true, c') ∧
          Restores (oneCatalog ['a', backslash, 'b']) c' := by
  have reachable := oneCatalog_reachable ['a', backslash, 'b']
  have oneLine : ∀ name ∈ (oneCatalog ['a', backslash, 'b']).names, newline ∉ name := by decide
  have all : ∀ rels : List RelationCatalogEntry, (id rels).Perm rels := fun _ => .refl _
  refine ⟨reachable, oneLine, ?_⟩
  rintro ⟨c', same, restores⟩
  rw [load_saved reachable (by decide) all oneLine] at same
  cases same
  have plain := plain_of_restores all restores
  exact absurd plain (by decide)

end GraniteDb.Catalog.CatalogFile
