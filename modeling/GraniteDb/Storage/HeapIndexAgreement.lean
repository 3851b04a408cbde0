/- Every index has one entry for each live tuple unless an update confuses two integers. -/

import GraniteDb.Lib.GuardedRun
import GraniteDb.Storage.WriteOutcomes

namespace GraniteDb.Storage.HeapIndexAgreement

open Common.Types Common.Value Execution.Expressions Access.HeapFile Storage.Table
open Storage.AllOrNothing Storage.WriteOutcomes Lib.Ledger Lib.GuardedRun
open Catalog.CatalogManager (FitsSchema)
open Option (bind_eq_some_iff pure_def bind_eq_bind)
open List (mapM_cons mem_cons)

section Keys

variable {rid rid' : RID} {row : Row} {index : IndexCatalogEntry}

theorem count_entriesOf {indexes : List IndexCatalogEntry}
    (distinct : (indexes.map IndexCatalogEntry.indexRelationId).Nodup) (keys : HasKeys row indexes)
    (registered : index ∈ indexes) (key : List Value) :
    (entriesOf row rid indexes).count (index.indexRelationId, (key, rid')) =
      if extractKey row index = some key ∧ rid' = rid then 1 else 0 := by
  have ids : (entriesOf row rid indexes).map Prod.fst =
      indexes.map IndexCatalogEntry.indexRelationId := by
    simp [entriesOf, Function.comp_def]
  have nodup : (entriesOf row rid indexes).Nodup := by
    refine List.Nodup.of_map Prod.fst ?_
    rw [ids]
    exact distinct
  have member : (index.indexRelationId, (key, rid')) ∈ entriesOf row rid indexes ↔
      extractKey row index = some key ∧ rid' = rid := by
    unfold entriesOf
    rw [List.mem_map]
    constructor
    · rintro ⟨other, inIndexes, same⟩
      have sameId := congrArg Prod.fst same
      have isIndex : other = index :=
        List.inj_on_of_nodup_map distinct inIndexes registered sameId
      subst isIndex
      obtain ⟨key', extracted⟩ := keys other registered
      simp only [extracted, Option.getD_some, Prod.mk.injEq, true_and] at same
      exact ⟨by rw [extracted, same.1], same.2.symm⟩
    · rintro ⟨extracted, rfl⟩
      exact ⟨index, registered, by simp [extracted]⟩
  rw [List.Nodup.count nodup]
  simp only [member]

theorem extractKey_decoded {schema : List Column} {key : List Value}
    (valid : validateTupleAgainstSchema row schema = none)
    (extracted : extractKey row index = some key) (noNull : hasNullComponent key = false) :
    extractKey (decoded schema row) index = some key := by
  unfold extractKey at extracted ⊢
  generalize index.keyColumns = cols at extracted ⊢
  induction cols generalizing key with
  | nil => exact extracted
  | cons col rest ih =>
    simp only [mapM_cons, pure_def, bind_eq_bind,
      bind_eq_some_iff] at extracted ⊢
    obtain ⟨v, stored, key', extracted', same⟩ := extracted
    cases same
    simp only [hasNullComponent, List.any_cons, Bool.or_eq_false_iff] at noNull
    exact ⟨v, decoded_getElem? valid stored noNull.1, key', ih noNull.2 extracted', rfl⟩

theorem extractKey_congr {row' : Row}
    (same : ∀ col ∈ index.keyColumns, row[col.columnIdx]? = row'[col.columnIdx]?) :
    extractKey row index = extractKey row' index := by
  unfold extractKey
  generalize index.keyColumns = cols at same ⊢
  induction cols with
  | nil => rfl
  | cons col rest ih =>
    rw [mapM_cons, mapM_cons, same col List.mem_cons_self,
      ih fun c later => same c (List.mem_cons_of_mem _ later)]

theorem extractKey_inj {row' : Row} {key : List Value} (left : extractKey row index = some key)
    (right : extractKey row' index = some key) :
    ∀ col ∈ index.keyColumns, row[col.columnIdx]? = row'[col.columnIdx]? := by
  unfold extractKey at left right
  generalize index.keyColumns = cols at left right ⊢
  induction cols generalizing key with
  | nil => simp
  | cons c rest ih =>
    simp only [mapM_cons, pure_def, bind_eq_bind,
      bind_eq_some_iff] at left right
    obtain ⟨v, atLeft, vs, left', whole⟩ := left
    obtain ⟨w, atRight, ws, right', whole'⟩ := right
    cases whole
    cases whole'
    intro col member
    rcases mem_cons.mp member with rfl | later
    · rw [atLeft, atRight]
    · exact ih left' right' col later

/-- The key under which the live tuple of `rid` belongs into an index. -/
def liveKey (heap : HeapFile) (index : IndexCatalogEntry) (rid : RID) : Option (List Value) :=
  (heap.record rid).bind fun r => extractKey r.row index

theorem liveKey_put {heap : HeapFile} {r : HeapRecord} (index : IndexCatalogEntry) :
    liveKey (heap.put rid r) index rid' =
      if rid' = rid then extractKey r.row index else liveKey heap index rid' := by
  unfold liveKey
  rw [HeapFile.put_record]
  by_cases here : rid' = rid
  · subst here
    simp
  · simp [here]

theorem liveKey_erase {heap : HeapFile} (index : IndexCatalogEntry) :
    liveKey (heap.erase rid) index rid' = if rid' = rid then none else liveKey heap index rid' := by
  unfold liveKey
  rw [HeapFile.erase_record]
  by_cases here : rid' = rid
  · subst here
    simp
  · simp [here]

/-- Every index has exactly one entry for each live tuple, under the key of the tuple. -/
def EntriesAgree (table : Table) (heap : HeapFile) (entries : Ledger Nat (List Value × RID)) :
    Prop :=
  ∀ index ∈ table.indexes, ∀ key rid, (entries index.indexRelationId).count (key, rid) =
    if liveKey heap index rid = some key then 1 else 0

def KeysDistinct (table : Table) (heap : HeapFile) : Prop :=
  ∀ index ∈ table.indexes, index.isUnique = true → ∀ rid rid' key,
    liveKey heap index rid = some key → liveKey heap index rid' = some key → rid = rid'

/-- Heap and indexes of a table agree, and every stored tuple fits the schema. -/
structure Agrees (table : Table) (s : Store) : Prop where
  fits : ∀ rid r, s.heap.record rid = some r →
    FitsSchema (table.schema.map Column.toColumn) r.row
  entries : EntriesAgree table s.heap s.entries
  unique : KeysDistinct table s.heap

theorem Agrees.empty (table : Table) : Agrees table .empty where
  fits := by
    intro rid r live
    cases live
  entries := by
    intro index _ key rid
    simp [Store.empty, liveKey, HeapFile.empty]
  unique := by
    intro index _ _ rid rid' key live
    cases live

end Keys

section Steps

variable {env : Environment} {table : Table} {s s' : Store}

theorem Agrees.idle {more : List Operation} (agrees : Agrees table s) (idle : Idle s s' more) :
    Agrees table s' where
  fits := by
    rw [idle.heap]
    exact agrees.fits
  entries := by
    rw [idle.heap, idle.entries]
    exact agrees.entries
  unique := by
    rw [idle.heap]
    exact agrees.unique

structure Storable (table : Table) (row : Row) : Prop where
  keys : ∀ index ∈ table.indexes, ∃ key, extractKey row index = some key ∧
    extractKey (decoded table.schema row) index = some key
  fits : FitsSchema (table.schema.map Column.toColumn) (decoded table.schema row)

variable {row : Row} {index : IndexCatalogEntry} {heap : HeapFile}
  {entries : Ledger Nat (List Value × RID)} {rid : RID} {ignored : Option RID}

theorem storable_of_checks {size : Nat} (valid : table.validateIndexKeyCompatibility row = none)
    (encoded : encode row table.schema = .ok size) : Storable table row where
  keys := by
    intro index member
    obtain ⟨_, key, extracted, noNull⟩ := validated valid index member
    exact ⟨key, extracted, extractKey_decoded (encode_valid encoded).1 extracted noNull⟩
  fits := fitsSchema_decoded (encode_valid encoded).1

theorem Storable.hasKeys (storable : Storable table row) :
    HasKeys row table.indexes := fun index member =>
  have ⟨key, extracted, _⟩ := storable.keys index member
  ⟨key, extracted⟩

theorem Storable.sameKey (storable : Storable table row) (member : index ∈ table.indexes) :
    extractKey (decoded table.schema row) index = extractKey row index := by
  obtain ⟨key, extracted, stored⟩ := storable.keys index member
  rw [extracted, stored]

theorem EntriesAgree.insert {heap : HeapFile} {entries : Ledger Nat (List Value × RID)}
    (agree : EntriesAgree table heap entries) {row : Row} (storable : Storable table row)
    {rid : RID} {size : Nat} (free : heap.record rid = none) {made : List IndexCatalogEntry}
    (perm : made.Perm table.indexes) :
    EntriesAgree table (heap.put rid ⟨decoded table.schema row, size⟩)
      (putAll entries (entriesOf row rid made)) := by
  intro index member key rid'
  have counted : (entriesOf row rid made).count (index.indexRelationId, (key, rid')) =
      if extractKey row index = some key ∧ rid' = rid then 1 else 0 := by
    rw [← count_entriesOf table.distinct storable.hasKeys member key]
    exact (perm.map _).count_eq _
  rw [count_putAll, agree index member, counted, liveKey_put, storable.sameKey member]
  by_cases here : rid' = rid
  · subst here
    have dead : liveKey heap index rid' = none := by simp [liveKey, free]
    simp [dead]
  · simp [here]

theorem EntriesAgree.delete {heap : HeapFile} {entries : Ledger Nat (List Value × RID)}
    (agree : EntriesAgree table heap entries) {r : HeapRecord} {rid : RID}
    (live : heap.record rid = some r) (keys : HasKeys r.row table.indexes)
    {gone : List IndexCatalogEntry} (perm : gone.Perm table.indexes)
    (canTake : CanTake entries (entriesOf r.row rid gone)) :
    EntriesAgree table (heap.erase rid) (takeAll entries (entriesOf r.row rid gone)) := by
  intro index member key rid'
  have counted : (entriesOf r.row rid gone).count (index.indexRelationId, (key, rid')) =
      if extractKey r.row index = some key ∧ rid' = rid then 1 else 0 := by
    rw [← count_entriesOf table.distinct keys member key]
    exact (perm.map _).count_eq _
  have taken := count_takeAll canTake index.indexRelationId (key, rid')
  rw [counted, agree index member] at taken
  rw [liveKey_erase]
  by_cases here : rid' = rid
  · subst here
    have key' : liveKey heap index rid' = extractKey r.row index := by simp [liveKey, live]
    rw [key'] at taken
    simp only [and_true, if_true, reduceCtorEq, if_false] at taken ⊢
    omega
  · simp [here] at taken ⊢
    exact taken

theorem EntriesAgree.mem_iff (agree : EntriesAgree table heap entries)
    (member : index ∈ table.indexes) (key : List Value) (rid : RID) :
    (key, rid) ∈ entries index.indexRelationId ↔ liveKey heap index rid = some key := by
  rw [← Multiset.count_pos, agree index member]
  split <;> simp [*]

theorem KeysDistinct.insert {heap heap' : HeapFile} (distinct : KeysDistinct table heap)
    (row : Row) (newRid : RID) (ignored : Option RID)
    (unused : ∀ index ∈ table.indexes, index.isUnique = true → ∀ key,
      extractKey row index = some key → ∀ rid, liveKey heap index rid = some key →
        ignored = some rid)
    (kept : ∀ index ∈ table.indexes, ∀ rid key, liveKey heap' index rid = some key →
      (rid = newRid ∧ extractKey row index = some key) ∨
        (rid ≠ newRid ∧ ignored ≠ some rid ∧ liveKey heap index rid = some key)) :
    KeysDistinct table heap' := by
  intro index member isUnique rid rid' key first second
  rcases kept index member rid key first with ⟨isNew, key₁⟩ | ⟨_, notIgnored, old⟩
  · rcases kept index member rid' key second with ⟨isNew', _⟩ | ⟨_, notIgnored, old⟩
    · rw [isNew, isNew']
    · exact absurd (unused index member isUnique key key₁ rid' old) notIgnored
  · rcases kept index member rid' key second with ⟨_, key₂⟩ | ⟨_, _, old'⟩
    · exact absurd (unused index member isUnique key key₂ rid old) notIgnored
    · exact distinct index member isUnique rid rid' key old old'

theorem Agrees.fits_put {r : HeapRecord} (agrees : Agrees table s)
    (fits : FitsSchema (table.schema.map Column.toColumn) r.row) :
    ∀ rid' r', (s.heap.put rid r).record rid' = some r' →
      FitsSchema (table.schema.map Column.toColumn) r'.row := by
  intro rid' r' live
  rw [HeapFile.put_record] at live
  by_cases here : rid' = rid
  · subst here
    rw [Function.update_self] at live
    cases live
    exact fits
  · rw [Function.update_of_ne here] at live
    exact agrees.fits rid' r' live

theorem fits_erase
    (fits : ∀ rid r, heap.record rid = some r → FitsSchema (table.schema.map Column.toColumn) r.row)
    :
    ∀ rid' r', (heap.erase rid).record rid' = some r' →
      FitsSchema (table.schema.map Column.toColumn) r'.row := by
  intro rid' r' live
  rw [HeapFile.erase_record] at live
  by_cases here : rid' = rid
  · subst here
    rw [Function.update_self] at live
    cases live
  · rw [Function.update_of_ne here] at live
    exact fits rid' r' live

theorem Agrees.entered (agrees : Agrees table s)
    (new : Entered table s row ignored rid heap entries) :
    (∀ rid r, heap.record rid = some r → FitsSchema (table.schema.map Column.toColumn) r.row) ∧
      EntriesAgree table heap entries := by
  obtain ⟨size, encoded, _, rfl⟩ := new.stored
  obtain ⟨made, perm, rfl⟩ := new.entered
  have storable := storable_of_checks new.valid encoded
  exact ⟨agrees.fits_put storable.fits, agrees.entries.insert storable new.free perm⟩

theorem Agrees.entered_unused (agrees : Agrees table s)
    (new : Entered table s row ignored rid heap entries) :
    ∀ index ∈ table.indexes, index.isUnique = true → ∀ key, extractKey row index = some key →
      ∀ rid, liveKey s.heap index rid = some key → ignored = some rid := by
  intro index member isUnique key extracted rid' live
  obtain ⟨key', extracted', only⟩ := new.unused index member isUnique
  rw [extracted] at extracted'
  cases extracted'
  exact only rid' ((agrees.entries.mem_iff member key rid').mpr live)

theorem Entered.liveKey (new : Entered table s row ignored rid heap entries)
    (member : index ∈ table.indexes) (rid' : RID) :
    HeapIndexAgreement.liveKey heap index rid' =
      if rid' = rid then extractKey row index
      else HeapIndexAgreement.liveKey s.heap index rid' := by
  obtain ⟨size, encoded, _, rfl⟩ := new.stored
  rw [liveKey_put, (storable_of_checks new.valid encoded).sameKey member]

theorem insertTuple_agrees (agrees : Agrees table s)
    (ran : table.insertTuple env row s = (.ok rid, s')) : Agrees table s' := by
  have new := insertTuple_entered ran
  obtain ⟨fits, entries⟩ := agrees.entered new
  refine ⟨fits, entries, agrees.unique.insert row rid none (agrees.entered_unused new) ?_⟩
  intro index member rid' key live
  rw [Entered.liveKey new member] at live
  split at live
  · rename_i here
    exact .inl ⟨here, live⟩
  · rename_i elsewhere
    exact .inr ⟨elsewhere, nofun, live⟩

theorem EntriesAgree.cleared (agree : EntriesAgree table heap entries) {old : HeapRecord}
    (live : heap.record rid = some old) (fits : old.row.length = table.schema.length)
    (gone : Cleared table heap entries old.row rid s') : EntriesAgree table s'.heap s'.entries := by
  obtain ⟨order, perm, canTake, taken⟩ := gone.taken
  rw [gone.heap, taken]
  exact agree.delete live (hasKeys_of_length fits) perm canTake

theorem deleteTuple_agrees {found : Bool} (agrees : Agrees table s)
    (ran : table.deleteTuple env rid s = (.ok found, s')) : Agrees table s' := by
  rcases deleteTuple_cleared ran with ⟨_, _, rfl⟩ | ⟨_, old, live, fits, gone⟩
  · exact agrees
  refine ⟨?_, agrees.entries.cleared live fits gone, ?_⟩
  · rw [gone.heap]
    exact fits_erase agrees.fits
  · rw [gone.heap]
    intro index member isUnique rid₁ rid₂ key first second
    rw [liveKey_erase] at first second
    split at first
    · cases first
    · split at second
      · cases second
      · exact agrees.unique index member isUnique rid₁ rid₂ key first second

theorem replaceTuple_agrees {record : HeapRecord} {new : Row} {result : Option RID}
    (agrees : Agrees table s) (live : s.heap.record rid = some record)
    (fits : record.row.length = table.schema.length)
    (valid : table.validateIndexKeyCompatibility new = none)
    (ran : table.replaceTuple env rid record.row new s = (.ok result, s')) : Agrees table s' := by
  obtain ⟨newRid, heap, entries, _, added, gone⟩ := replaceTuple_entered fits valid ran
  obtain ⟨fits', agree⟩ := agrees.entered added
  have apart : rid ≠ newRid := by
    rintro rfl
    rw [added.free] at live
    cases live
  have live' : heap.record rid = some record := by
    obtain ⟨size, _, _, rfl⟩ := added.stored
    rw [HeapFile.put_record, Function.update_of_ne apart]
    exact live
  refine ⟨?_, agree.cleared live' fits gone, ?_⟩
  · rw [gone.heap]
    exact fits_erase fits'
  · rw [gone.heap]
    refine agrees.unique.insert new newRid (some rid) (agrees.entered_unused added) ?_
    intro index member rid' key liveNow
    rw [liveKey_erase] at liveNow
    split at liveNow
    · cases liveNow
    · rename_i notOld
      rw [Entered.liveKey added member] at liveNow
      split at liveNow
      · rename_i here
        exact .inl ⟨here, liveNow⟩
      · rename_i elsewhere
        exact .inr ⟨elsewhere, by simpa using Ne.symm notOld, liveNow⟩

end Steps

section InPlace

variable {env : Environment} {table : Table} {s s' : Store}

variable {new : Row} {rid : RID}

theorem columns_of_keysEqual {old : Row} {index : IndexCatalogEntry} {lhs rhs : List Value}
    (left : extractKey old index = some lhs) (right : extractKey new index = some rhs)
    (same : keysEqual lhs rhs = some true) : ∀ col ∈ index.keyColumns, ∃ l r,
      old[col.columnIdx]? = some l ∧ new[col.columnIdx]? = some r ∧
        (r.isNull = true ∨ compareValues l r = some .eq) := by
  have values : equalValues lhs rhs = some true := by
    unfold keysEqual at same
    split at same
    · exact same
    · cases same
  clear same
  unfold extractKey at left right
  generalize index.keyColumns = cols at left right ⊢
  induction cols generalizing lhs rhs with
  | nil => simp
  | cons col rest ih =>
    simp only [mapM_cons, pure_def, bind_eq_bind,
      bind_eq_some_iff] at left right
    obtain ⟨l, atOld, ls, left', sameL⟩ := left
    obtain ⟨r, atNew, rs, right', sameR⟩ := right
    cases sameL
    cases sameR
    have split : (r.isNull = true ∨ compareValues l r = some .eq) ∧
        equalValues ls rs = some true := by
      unfold equalValues at values
      split at values
      · split at values
        · rename_i both
          exact ⟨.inl (Bool.and_eq_true_iff.mp both).2, values⟩
        · cases values
      · obtain ⟨o, compared, values⟩ := bind_eq_some_iff.mp values
        split at values
        · rename_i isEq
          exact ⟨.inr (isEq ▸ compared), values⟩
        · cases values
    intro c member
    rcases mem_cons.mp member with rfl | later
    · exact ⟨l, r, atOld, atNew, split.1⟩
    · exact ih split.2 left' right' c later

theorem keysEqual_of_unchanged {old : Row}
    (unchanged : table.anyIndexedKeyChanged old new = some false) :
    ∀ index ∈ table.indexes, index.runtimeIndex.isSome = true → ∃ lhs rhs,
      extractKey old index = some lhs ∧ extractKey new index = some rhs ∧
        keysEqual lhs rhs = some true := by
  unfold Table.anyIndexedKeyChanged at unchanged
  generalize table.indexes = indexes at unchanged ⊢
  induction indexes with
  | nil => simp
  | cons index rest ih =>
    intro other member attached
    unfold anyKeyChanged at unchanged
    split at unchanged
    · rename_i isNone
      rcases mem_cons.mp member with rfl | later
      · cases runtime : other.runtimeIndex with
        | none => simp [runtime] at attached
        | some _ => simp [runtime] at isNone
      · exact ih unchanged other later attached
    · split at unchanged
      · rename_i lhs rhs left right
        obtain ⟨same, compared, unchanged⟩ := bind_eq_some_iff.mp unchanged
        split at unchanged
        · rename_i isSame
          rcases mem_cons.mp member with rfl | later
          · exact ⟨lhs, rhs, left, right, by rw [compared, isSame]⟩
          · exact ih unchanged other later attached
        · cases unchanged
      · cases unchanged

/-- The key columns have types other than `DOUBLE`. -/
def ExactKeys (table : Table) : Prop :=
  ∀ index ∈ table.indexes, ∀ col ∈ index.keyColumns, ∀ column ∈ table.schema[col.columnIdx]?,
    comparesExactly column.type = true

instance (table : Table) : Decidable (ExactKeys table) := by
  unfold ExactKeys
  infer_instance

/-- The call is an update that takes the fast path, no key having changed by the comparison of
doubles, although it changes an integer of 64 bits in a key. -/
def Confuses (table : Table) (s : Store) : Call → Prop
  | .update rid new => ∃ old size, s.heap.record rid = some old ∧
      encode new table.schema = .ok size ∧ size ≤ old.rawLen ∧
      table.anyIndexedKeyChanged old.row new = some false ∧
      ∃ index ∈ table.indexes, ∃ col ∈ index.keyColumns, ∃ a b, a ≠ b ∧
        old.row[col.columnIdx]? = some (.int64 a) ∧ new[col.columnIdx]? = some (.int64 b)
  | _ => False

theorem typeId_of_fits {row : Row} (fits : FitsSchema (table.schema.map Column.toColumn) row)
    {i : Nat} {column : Column} {v : Value} (inSchema : table.schema[i]? = some column)
    (inRow : row[i]? = some v) : v.typeId = column.type := by
  have same := congrArg (fun types : List TypeId => types[i]?) fits
  simpa [inSchema, inRow] using same

theorem sameKey_of_unchanged {old : HeapRecord} {size : Nat} (agrees : Agrees table s)
    (exactly : ExactKeys table) (live : s.heap.record rid = some old)
    (valid : table.validateIndexKeyCompatibility new = none)
    (encoded : encode new table.schema = .ok size) (fitsSlot : size ≤ old.rawLen)
    (unchanged : table.anyIndexedKeyChanged old.row new = some false)
    (clear : ¬Confuses table s (.update rid new)) {index : IndexCatalogEntry}
    (member : index ∈ table.indexes) : extractKey new index = extractKey old.row index := by
  obtain ⟨attached, key, extracted, noNull⟩ := validated valid index member
  obtain ⟨lhs, rhs, left, right, same⟩ := keysEqual_of_unchanged unchanged index member attached
  have columns := columns_of_keysEqual left right same
  have present : ∀ col ∈ index.keyColumns, ∀ v, new[col.columnIdx]? = some v →
      v.isNull = false := by
    clear left right same columns attached member
    unfold extractKey at extracted
    generalize index.keyColumns = cols at extracted ⊢
    induction cols generalizing key with
    | nil => simp
    | cons col rest ih =>
      simp only [mapM_cons, pure_def, bind_eq_bind,
        bind_eq_some_iff] at extracted
      obtain ⟨v, atNew, key', extracted', same⟩ := extracted
      cases same
      simp only [hasNullComponent, List.any_cons, Bool.or_eq_false_iff] at noNull
      intro c inCols w atC
      rcases mem_cons.mp inCols with rfl | later
      · rw [atNew] at atC
        cases atC
        exact noNull.1
      · exact ih key' noNull.2 extracted' c later w atC
  refine extractKey_congr fun col inKey => ?_
  obtain ⟨l, r, atOld, atNew, compared⟩ := columns col inKey
  have inRange := table.inSchema index member col inKey
  have inSchema := List.getElem?_eq_getElem inRange
  have typeOld := typeId_of_fits (agrees.fits rid old live) inSchema atOld
  have notNull := present col inKey r atNew
  have typeNew := typeId_of_fits (fitsSchema_decoded (encode_valid encoded).1) inSchema
    (decoded_getElem? (encode_valid encoded).1 atNew notNull)
  rw [atOld, atNew]
  rcases compared with isNull | compared
  · rw [isNull] at notNull
    cases notNull
  · rcases eq_of_compareValues compared (typeOld.trans typeNew.symm)
      (typeNew ▸ exactly index member col inKey _ inSchema) with equal | ⟨a, b, rfl, rfl, apart⟩
    · rw [equal]
    · exact absurd ⟨old, size, live, encoded, fitsSlot, unchanged, index, member, col, inKey, a, b,
        apart, atOld, atNew⟩ clear

theorem updateTuple_agrees {result : Option RID} (agrees : Agrees table s)
    (exactly : ExactKeys table) (clear : ¬Confuses table s (.update rid new))
    (ran : table.updateTuple env rid new s = (.ok result, s')) : Agrees table s' := by
  rcases updateTuple_ok ran with ⟨_, _, rfl⟩ |
    ⟨old, size, changed, live, fits, valid, encoded, comparing, ⟨fast, ran⟩ | ⟨_, ran⟩⟩
  · exact agrees
  · have attached {index : IndexCatalogEntry} (member : index ∈ table.indexes) :
        changed = false ∧ size ≤ old.rawLen := by
      have some_ : table.hasAnyRuntimeIndex = true :=
        List.any_eq_true.mpr ⟨index, member, (validated valid index member).1⟩
      rcases fast with none_ | inPlace
      · rw [some_] at none_
        cases none_
      · exact inPlace
    have storable := storable_of_checks valid encoded
    rcases heapUpdate_cases ran with ⟨_, idle⟩ |
      ⟨old', size', live', _, _, _, rfl⟩ |
      ⟨old', size', newRid, live', encoded', moves, _, free, _, rfl⟩
    · exact agrees.idle idle
    · rw [live] at live'
      cases live'
      have kept : ∀ index ∈ table.indexes, ∀ rid',
          liveKey (s.heap.put rid ⟨decoded table.schema new, old.rawLen⟩) index rid' =
            liveKey s.heap index rid' := by
        intro index member rid'
        obtain ⟨rfl, fitsSlot⟩ := attached member
        rw [liveKey_put, storable.sameKey member, sameKey_of_unchanged agrees exactly live valid
          encoded fitsSlot comparing clear member]
        split
        · rename_i here
          subst here
          simp [liveKey, live]
        · rfl
      refine ⟨agrees.fits_put storable.fits, ?_, ?_⟩
      · intro index member key rid'
        rw [kept index member rid']
        exact agrees.entries index member key rid'
      · intro index member isUnique rid₁ rid₂ key
        rw [kept index member rid₁, kept index member rid₂]
        exact agrees.unique index member isUnique rid₁ rid₂ key
    · rw [live] at live'
      cases live'
      rw [encoded] at encoded'
      cases encoded'
      -- a tuple moves on this path only where there is no index
      refine ⟨fits_erase (agrees.fits_put storable.fits), ?_, ?_⟩
      · intro index member
        obtain ⟨_, fitsSlot⟩ := attached member
        omega
      · intro index member
        obtain ⟨_, fitsSlot⟩ := attached member
        omega
  · exact replaceTuple_agrees agrees live fits valid ran

theorem confused_update_disagrees {newRid : RID} (agrees : Agrees table s)
    (confuses : Confuses table s (.update rid new))
    (ran : table.updateTuple env rid new s = (.ok (some newRid), s')) :
    ¬EntriesAgree table s'.heap s'.entries := by
  obtain ⟨old, size, live, encoded, fitsSlot, unchanged, index, member, col, inKey, a, b, apart,
    atOld, atNew⟩ := confuses
  rcases updateTuple_ok ran with ⟨missing, _⟩ |
    ⟨old', size', changed, live', fits, valid, encoded', comparing, ⟨_, ran⟩ | ⟨slow, _⟩⟩
  · cases missing
  rotate_left
  · rw [live] at live'
    cases live'
    rw [encoded] at encoded'
    cases encoded'
    rw [unchanged] at comparing
    cases comparing
    rcases slow.2 with moved | moved
    · cases moved
    · omega
  rw [live] at live'
  cases live'
  clear encoded'
  have storable := storable_of_checks valid encoded
  obtain ⟨key, extracted, _⟩ := storable.keys index member
  obtain ⟨oldKey, extractedOld⟩ := hasKeys_of_length fits index member
  have differ : oldKey ≠ key := by
    rintro rfl
    have same := extractKey_inj extractedOld extracted col inKey
    rw [atOld, atNew] at same
    cases same
    exact apart rfl
  have before := agrees.entries index member oldKey rid
  have liveOld : liveKey s.heap index rid = some oldKey := by
    simp [liveKey, live, extractedOld]
  rw [liveOld, if_pos rfl] at before
  intro agree
  rcases heapUpdate_cases ran with ⟨⟨_, failed⟩ | failed, _⟩ |
    ⟨old', size', live', _, _, _, rfl⟩ | ⟨old', size', _, live', encoded', moves, _, _⟩
  · cases failed
  · cases failed
  · have after := agree index member oldKey rid
    have liveNew : liveKey (s.heap.put rid ⟨decoded table.schema new, old'.rawLen⟩) index rid =
        some key := by
      rw [liveKey_put, if_pos rfl, storable.sameKey member, extracted]
    rw [liveNew, if_neg (by simpa using differ.symm)] at after
    have same := before.symm.trans after
    cases same
  · rw [live] at live'
    cases live'
    rw [encoded] at encoded'
    cases encoded'
    omega

end InPlace

section Result

def step (env : Environment) (table : Table) (s : Store) (call : Call) : Option Store :=
  match table.run env call s with
  | (.ok _, s') => some s'
  | (.error _, _) => none

variable {env : Environment} {table : Table} {s s' : Store}

theorem step_agrees {call : Call} (exactly : ExactKeys table) (agrees : Agrees table s)
    (clear : ¬Confuses table s call) (taken : step env table s call = some s') :
    Agrees table s' := by
  unfold step at taken
  split at taken
  · rename_i outcome m ran
    cases taken
    cases call with
    | insert row =>
      rcases inserting : table.insertTuple env row s with ⟨r, m'⟩
      rw [Table.run, inserting] at ran
      cases r with
      | error what => cases ran
      | ok rid =>
        cases ran
        exact insertTuple_agrees agrees inserting
    | delete rid =>
      rcases deleting : table.deleteTuple env rid s with ⟨r, m'⟩
      rw [Table.run, deleting] at ran
      cases r with
      | error what => cases ran
      | ok found =>
        cases ran
        exact deleteTuple_agrees agrees deleting
    | update rid row =>
      rcases updating : table.updateTuple env rid row s with ⟨r, m'⟩
      rw [Table.run, updating] at ran
      cases r with
      | error what => cases ran
      | ok newRid =>
        cases ran
        exact updateTuple_agrees agrees exactly clear updating
  · cases taken

/-- As long as no fast-path update changes an integer in a key to another one with the same double,
every index keeps exactly one entry for each live tuple and the keys of unique indexes stay
distinct. -/
theorem agrees_of_run {calls : List Call} (exactly : ExactKeys table) (agrees : Agrees table s)
    (run : Run (step env table) (fun s call => ¬Confuses table s call) s calls s') :
    EntriesAgree table s'.heap s'.entries ∧ KeysDistinct table s'.heap := by
  have final := run.invariant (Agrees table) agrees fun _ _ _ before clear taken =>
    step_agrees exactly before clear taken
  exact ⟨final.entries, final.unique⟩

theorem agrees_of_run_pairTable : ∃ s, Run (step (.onFirstPage fun _ => none) pairTable)
      (fun s call => ¬Confuses pairTable s call) .empty
      [.insert [.int64 1, .int64 2], .update ⟨0, 0⟩ [.int64 5, .int64 2]] s ∧
    EntriesAgree pairTable s.heap s.entries ∧ KeysDistinct pairTable s.heap := by
  have changed : pairTable.anyIndexedKeyChanged [.int64 1, .int64 2] [.int64 5, .int64 2] =
      some true := by
    decide +kernel
  have first : ∃ s, step (.onFirstPage fun _ => none) pairTable .empty
        (.insert [.int64 1, .int64 2]) = some s ∧
      s.heap.record ⟨0, 0⟩ = some ⟨[.int64 1, .int64 2], 29⟩ ∧
      (step (.onFirstPage fun _ => none) pairTable s
        (.update ⟨0, 0⟩ [.int64 5, .int64 2])).isSome = true :=
    ⟨_, rfl, rfl, by decide +kernel⟩
  obtain ⟨s, inserted, live, updates⟩ := first
  obtain ⟨s', updated⟩ := Option.isSome_iff_exists.mp updates
  have run : Run (step (.onFirstPage fun _ => none) pairTable)
      (fun s call => ¬Confuses pairTable s call) .empty
      [.insert [.int64 1, .int64 2], .update ⟨0, 0⟩ [.int64 5, .int64 2]] s' := by
    refine .snoc (.snoc .nil (fun confuses => confuses) inserted) ?_ updated
    rintro ⟨old, size, live', _, _, unchanged, _⟩
    rw [live] at live'
    cases live'
    have both := changed.symm.trans unchanged
    cases both
  exact ⟨s', run, agrees_of_run (by decide) (.empty pairTable) run⟩

/-- A tuple is stored and its key then changed from `2 ^ 53` to `2 ^ 53 + 1`, which a later
tuple has as well. -/
def roundingCalls : List Call :=
  [.insert [.int64 9007199254740992, .int64 1],
    .update ⟨0, 0⟩ [.int64 9007199254740993, .int64 1],
    .insert [.int64 9007199254740993, .int64 2]]

/-- The index on `a` misses the changed tuple, and its unique key occurs twice. -/
theorem rounding_disagrees : ¬∀ s, Run (step (.onFirstPage fun _ => none) pairTable)
      (fun _ _ => True) .empty roundingCalls s →
    EntriesAgree pairTable s.heap s.entries ∧ KeysDistinct pairTable s.heap := by
  intro claim
  have executed : ((exec (fun s call => if True then step (.onFirstPage fun _ => none) pairTable s
        call else none) .empty roundingCalls).map fun s =>
      pairTable.indexes.map fun index => (liveKey s.heap index ⟨0, 0⟩, liveKey s.heap index ⟨0, 1⟩)) =
      some [(some [.int64 9007199254740993], some [.int64 9007199254740993]),
        (some [.int64 1], some [.int64 2])] := by
    decide +kernel
  obtain ⟨s, reached, keys⟩ := Option.map_eq_some_iff.mp executed
  have distinct := (claim s (run_of_exec reached)).2
  simp only [pairTable, List.map_cons, List.map_nil, List.cons.injEq, Prod.mk.injEq] at keys
  have same := distinct _ List.mem_cons_self rfl _ _ _ keys.1.1 keys.1.2
  cases same

end Result

end GraniteDb.Storage.HeapIndexAgreement
