/- A heap file is a finite map from RIDs to tuples, over every sequence of calls. -/

import GraniteDb.Access.HeapPages

set_option linter.dupNamespace false

namespace GraniteDb.Access.TupleMap

open Common.Types Common.Value Lib.ByteStore Storage.SlottedPage Storage.PageRecords
open Storage.HeapTupleCodec Access.HeapPages
open Recovery.WalRecords (Bytes)
open Access.HeapFile (Column validateTupleAgainstSchema encodedSize decoded)
open Function (update)

section Abstraction

abbrev TupleMap := RID → Option Row

def rawRecord (heap : HeapFile) (rid : RID) : Option Bytes :=
  (heap.pages[rid.pageNo]?).bind fun page => content page rid.slotNo

/-- The bytes of a record and the tuple they stand for; a shorter tuple that was written over a
longer one is followed by what is left of the record. -/
inductive Stores (schema : List Column) : Option Bytes → Option Row → Prop
  | free : Stores schema none none
  | tuple {row : Row} {bytes : Bytes} (encoded : Encoded schema row bytes) (more : Bytes) :
      Stores schema (some (bytes ++ more)) (some row)

structure Refines (schema : List Column) (heap : HeapFile) (map : TupleMap) : Prop where
  sound : ∀ (pageNo : Nat) (page : PageData), heap.pages[pageNo]? = some page → Sound page
  stores : ∀ rid, Stores schema (rawRecord heap rid) (map rid)

variable {schema : List Column} {heap : HeapFile} {map : TupleMap}

theorem refines_empty (schema : List Column) (bucketSize : Nat) :
    Refines schema (.empty bucketSize) fun _ => none := by
  refine ⟨fun pageNo page there => ?_, fun rid => ?_⟩
  · cases there
  · exact .free

theorem Refines.stores_page (refines : Refines schema heap map) {rid : RID} {page : PageData}
    (there : heap.pages[rid.pageNo]? = some page) :
    Stores schema (content page rid.slotNo) (map rid) := by
  have stores := refines.stores rid
  rw [rawRecord, there] at stores
  exact stores

theorem Refines.outside (refines : Refines schema heap map) {rid : RID}
    (beyond : heap.pages[rid.pageNo]? = none) : map rid = none := by
  have stores := refines.stores rid
  rw [rawRecord, beyond, Option.bind_none] at stores
  generalize map rid = tuple at stores
  cases stores
  rfl

variable {page : PageData}

theorem Refines.setPage (refines : Refines schema heap map) {rid : RID} {page' : PageData}
    {tuple : Option Row} (there : heap.pages[rid.pageNo]? = some page) (sound : Sound page')
    (own : Stores schema (content page' rid.slotNo) tuple)
    (others : ∀ i, i ≠ rid.slotNo → content page' i = content page i)
    (freeSpaceMap : FreeSpaceMap) :
    Refines schema ⟨heap.pages.set rid.pageNo page', freeSpaceMap⟩
      (update map rid tuple) := by
  have inFile := (List.getElem?_eq_some_iff.mp there).1
  have here : (heap.pages.set rid.pageNo page')[rid.pageNo]? = some page' :=
    List.getElem?_set_self inFile
  refine ⟨fun pageNo other located => ?_, fun other => ?_⟩
  · by_cases same : pageNo = rid.pageNo
    · subst same
      rw [here] at located
      cases located
      exact sound
    · rw [List.getElem?_set_ne (Ne.symm same)] at located
      exact refines.sound pageNo other located
  · by_cases same : other = rid
    · subst same
      rw [Function.update_self, rawRecord, here]
      exact own
    · rw [Function.update_of_ne same]
      by_cases samePage : other.pageNo = rid.pageNo
      · have distinct : other.slotNo ≠ rid.slotNo := by
          intro sameSlot
          cases other
          cases rid
          simp_all
        have before := refines.stores_page
          (show heap.pages[other.pageNo]? = some page by rw [samePage, there])
        rw [rawRecord, samePage, here, Option.bind_some, others _ distinct]
        exact before
      · have elsewhere := refines.stores other
        rw [rawRecord] at elsewhere ⊢
        rw [List.getElem?_set_ne (Ne.symm samePage)]
        exact elsewhere

section

variable (sound : Sound page)

include sound

theorem sound_stamp (lsn : Option Nat) :
    Sound (stamp page lsn) ∧ ∀ i, content (stamp page lsn) i = content page i := by
  cases lsn with
  | none => exact ⟨sound, fun _ => rfl⟩
  | some lsn =>
    exact ⟨(sameLayout_setPageLsn page lsn).sound sound, content_setPageLsn page sound lsn⟩

theorem store_sound (heap : HeapFile) (pageNo : Nat) (lsn : Option Nat) :
    ∃ freeSpaceMap, heap.store pageNo page lsn =
      .ok ⟨heap.pages.set pageNo (stamp page lsn), freeSpaceMap⟩ := by
  have total := (sound_stamp sound lsn).1.formed.getTotalFreeSpace_eq.1
  simp only [HeapFile.store, getMaxInsertableBytesAfterCompaction, total, Except.map]
  exact ⟨_, rfl⟩

theorem findRecord_tuple {slotNo : Nat} {row : Row}
    (stores : Stores schema (content page slotNo) (some row)) :
    Live page slotNo ∧ findRecord page slotNo = .ok (some (slotAt page slotNo)) ∧
      ∃ bytes more, Encoded schema row bytes ∧
        recordOf page (slotAt page slotNo) = bytes ++ more := by
  generalize raw : content page slotNo = record at stores
  cases stores with
  | tuple encoded more =>
    obtain ⟨live, bytes⟩ := content_some raw
    refine ⟨live, ?_, _, more, encoded, bytes⟩
    rw [recordOf] at bytes
    rw [findRecord, if_pos ⟨sound.isInitialized_true, sound.pageType⟩, sound.formed.getRecord_live live]
    simp only [bytes, encoded.deleted more]
    rfl

theorem findRecord_free {slotNo : Nat}
    (stores : Stores schema (content page slotNo) none) : findRecord page slotNo = .ok none := by
  generalize raw : content page slotNo = record at stores
  cases stores
  rw [findRecord, if_pos ⟨sound.isInitialized_true, sound.pageType⟩,
    getRecord_dead (content_eq_none.mp raw)]

end

theorem getTuple_refines (refines : Refines schema heap map) (rid : RID) :
    heap.getTuple schema rid = .ok ((map rid).map (decoded schema)) := by
  cases there : heap.pages[rid.pageNo]? with
  | none =>
    rw [HeapFile.getTuple, there, refines.outside there]
    rfl
  | some page =>
    have sound := refines.sound _ _ there
    have stores := refines.stores_page there
    rw [HeapFile.getTuple, there]
    cases tuple : map rid with
    | none =>
      rw [tuple] at stores
      simp only [findRecord_free sound stores]
      rfl
    | some row =>
      rw [tuple] at stores
      obtain ⟨_, found, bytes, more, encoded, raw⟩ := findRecord_tuple sound stores
      rw [recordOf] at raw
      simp only [found, raw, encoded.read more]
      rfl

end Abstraction

section Operations

variable {schema : List Column} {heap : HeapFile} {map : TupleMap}

def Storable (schema : List Column) (row : Row) : Prop :=
  validateTupleAgainstSchema row schema = none ∧ encodedSize row ≤ maxRecordOnEmptyPage

variable {bytes : Bytes} {row : Row}

theorem length_pos (encoded : Encoded schema row bytes) : 0 < bytes.length := by
  rw [encoded.length, encodedSize]
  omega

inductive Placed (schema : List Column) (map : TupleMap) (row : Row) :
    HeapFile × Except String (Option RID) → Prop
  | nowhere {heap : HeapFile} (refines : Refines schema heap map) :
      Placed schema map row (heap, .ok none)
  | at_ {heap : HeapFile} {rid : RID} (free : map rid = none)
      (refines : Refines schema heap (update map rid (some row))) :
      Placed schema map row (heap, .ok (some rid))

private theorem stores_none {tuple : Option Row} (stores : Stores schema none tuple) :
    tuple = none := by
  cases stores
  rfl

section

variable (refines : Refines schema heap map)

include refines

private theorem inserted_refines (rid : RID)
    {page page' : PageData} (encoded : Encoded schema row bytes)
    (there : heap.pages[rid.pageNo]? = some page) (inserted : Inserted page page' rid.slotNo bytes)
    (lsn : Option Nat) (freeSpaceMap : FreeSpaceMap) :
    map rid = none ∧ Refines schema ⟨heap.pages.set rid.pageNo (stamp page' lsn), freeSpaceMap⟩
      (update map rid (some row)) := by
  obtain ⟨sound, same⟩ := sound_stamp inserted.sound lsn
  have before := refines.stores_page there
  rw [inserted.free] at before
  refine ⟨stores_none before, refines.setPage there sound ?_ ?_ freeSpaceMap⟩
  · rw [same, inserted.own, ← List.append_nil bytes]
    exact .tuple encoded []
  · intro i distinct
    rw [same, inserted.others i distinct]

theorem placed_tryInsertIntoPage {pageNo : Nat}
    {page : PageData} (encoded : Encoded schema row bytes) (there : heap.pages[pageNo]? = some page)
    (lsn : Option Nat) :
    Placed schema map row (heap.tryInsertIntoPage pageNo page bytes lsn) := by
  have sound := refines.sound pageNo page there
  rw [HeapFile.tryInsertIntoPage, if_pos sound.isInitialized_true]
  obtain full | ⟨page', slotNo, put, inserted⟩ := insertRecord_sound sound (length_pos encoded)
  · have same : heap.pages.set pageNo page = heap.pages := by
      obtain ⟨inFile, rfl⟩ := List.getElem?_eq_some_iff.mp there
      exact List.set_getElem_self inFile
    simp only [full, same]
    exact .nowhere refines
  · obtain ⟨freeSpaceMap, stored⟩ := store_sound inserted.sound heap pageNo lsn
    simp only [put, stored]
    obtain ⟨free, after⟩ := inserted_refines refines ⟨pageNo, slotNo⟩ encoded there
      inserted lsn freeSpaceMap
    exact .at_ free after

theorem placed_insertIntoCandidate
    (encoded : Encoded schema row bytes) (lsn : Option Nat) (candidates : List Nat) :
    Placed schema map row (heap.insertIntoCandidate bytes lsn candidates) := by
  induction candidates generalizing heap with
  | nil => exact .nowhere refines
  | cons pageNo rest ih =>
    rw [HeapFile.insertIntoCandidate]
    cases there : heap.pages[pageNo]? with
    | none => exact ih refines
    | some page =>
      have placed := placed_tryInsertIntoPage refines encoded there lsn
      simp only
      generalize heap.tryInsertIntoPage pageNo page bytes lsn = outcome at placed
      cases placed with
      | nowhere refines => exact ih refines
      | at_ free refines => exact .at_ free refines

private theorem Refines.newPage (page : PageData) :
    Refines schema ⟨heap.pages ++ [initializePage page .heap], heap.freeSpaceMap⟩ map := by
  refine ⟨fun pageNo other located => ?_, fun rid => ?_⟩
  · by_cases inFile : pageNo < heap.pages.length
    · rw [List.getElem?_append_left inFile] at located
      exact refines.sound pageNo other located
    · rw [List.getElem?_append_right (by omega)] at located
      obtain rfl := List.mem_singleton.mp (List.mem_of_getElem? located)
      exact sound_initializePage page
  · by_cases inFile : rid.pageNo < heap.pages.length
    · have before := refines.stores rid
      rw [rawRecord] at before ⊢
      rw [List.getElem?_append_left inFile]
      exact before
    · have beyond : heap.pages[rid.pageNo]? = none := List.getElem?_eq_none (by omega)
      have free := refines.outside beyond
      have raw : rawRecord ⟨heap.pages ++ [initializePage page .heap], heap.freeSpaceMap⟩ rid =
          none := by
        rw [rawRecord, List.getElem?_append_right (by omega)]
        refine Option.bind_eq_none_iff.mpr fun other located => ?_
        obtain rfl := List.mem_singleton.mp (List.mem_of_getElem? located)
        exact content_initializePage page rid.slotNo
      rw [raw, free]
      exact .free

theorem insertIntoNewPage_refines
    (encoded : Encoded schema row bytes) (fits : bytes.length ≤ maxRecordOnEmptyPage)
    (lsn : Option Nat) : ∃ heap' rid, heap.insertIntoNewPage bytes lsn = (heap', .ok rid) ∧
      map rid = none ∧ Refines schema heap' (update map rid (some row)) := by
  obtain ⟨page, slotNo, put, inserted⟩ :=
    insertRecord_initialized zeroPage (length_pos encoded) fits
  have last : (heap.pages ++ [initializePage zeroPage .heap])[heap.pages.length]? =
      some (initializePage zeroPage .heap) := List.getElem?_concat_length
  obtain ⟨freeSpaceMap, stored⟩ := store_sound inserted.sound
    { heap with pages := heap.pages ++ [zeroPage] } heap.pages.length lsn
  obtain ⟨free, after⟩ := inserted_refines (refines.newPage zeroPage)
    ⟨heap.pages.length, slotNo⟩ encoded last inserted lsn freeSpaceMap
  have samePages : (heap.pages ++ [zeroPage]).set heap.pages.length (stamp page lsn) =
      (heap.pages ++ [initializePage zeroPage .heap]).set heap.pages.length (stamp page lsn) := by
    rw [List.set_append_right _ _ le_rfl, List.set_append_right _ _ le_rfl, Nat.sub_self]
    rfl
  refine ⟨_, _, ?_, free, after⟩
  simp only [HeapFile.insertIntoNewPage, put, stored, samePages]

end

theorem insertTuple_refines (few : schema.length < 2 ^ 16) (refines : Refines schema heap map)
    (around : Surroundings) (row : Row) :
    (∃ message, heap.insertTuple schema around row = (heap, .error message) ∧
      ¬ Storable schema row) ∨
    ∃ heap' rid, heap.insertTuple schema around row = (heap', .ok rid) ∧ Storable schema row ∧
      map rid = none ∧ Refines schema heap' (update map rid (some row)) := by
  rw [HeapFile.insertTuple]
  cases stored : encode row schema with
  | error message =>
    refine .inl ⟨message, rfl, fun storable => ?_⟩
    have size := length_encode row few
    have small := storable.2
    rw [stored, Access.HeapFile.encode, storable.1] at size
    unfold maxRecordOnEmptyPage pageSize headerSize slotSize at small
    simp only [Except.map] at size
    rw [if_neg (by omega)] at size
    cases size
  | ok bytes =>
    have encoded := encode_encoded few stored
    simp only
    by_cases large : maxRecordOnEmptyPage < bytes.length
    · refine .inl ⟨_, if_pos large, fun storable => ?_⟩
      have small := storable.2
      rw [encoded.length] at large
      omega
    · rw [if_neg large]
      have storable : Storable schema row :=
        ⟨encoded.valid, by rw [← encoded.length]; omega⟩
      have placed := placed_insertIntoCandidate refines encoded around.lsn
        (heap.freeSpaceMap.getCandidatePages around.order bytes.length)
      generalize heap.insertIntoCandidate bytes around.lsn
        (heap.freeSpaceMap.getCandidatePages around.order bytes.length) = outcome at placed
      cases placed with
      | nowhere refines =>
        obtain ⟨heap', rid, put, free, after⟩ :=
          insertIntoNewPage_refines refines encoded (by omega) around.lsn
        exact .inr ⟨heap', rid, put, storable, free, after⟩
      | at_ free refines => exact .inr ⟨_, _, rfl, storable, free, refines⟩

theorem deleteTuple_refines (refines : Refines schema heap map) (lsn : Option Nat) (rid : RID) :
    ∃ heap', heap.deleteTuple lsn rid = (heap', .ok (map rid).isSome) ∧
      Refines schema heap' (update map rid none) := by
  rw [HeapFile.deleteTuple]
  cases tuple : map rid with
  | none =>
    have same : update map rid none = map := by
      rw [← tuple, Function.update_eq_self]
    cases there : heap.pages[rid.pageNo]? with
    | none => exact ⟨heap, rfl, by rw [same]; exact refines⟩
    | some page =>
      have stores := refines.stores_page there
      rw [tuple] at stores
      simp only [findRecord_free (refines.sound _ _ there) stores]
      exact ⟨heap, rfl, by rw [same]; exact refines⟩
  | some row =>
    cases there : heap.pages[rid.pageNo]? with
    | none =>
      rw [refines.outside there] at tuple
      cases tuple
    | some page =>
      have sound := refines.sound _ _ there
      have stores := refines.stores_page there
      rw [tuple] at stores
      obtain ⟨live, found, bytes, more, encoded, raw⟩ := findRecord_tuple sound stores
      obtain ⟨marked, mark, length⟩ := encoded.markable more
      rw [← raw, recordOf] at mark length
      rw [length_read] at length
      obtain ⟨soundMarked, layout, othersMarked⟩ :=
        content_write_within sound 0 live (show 0 + marked.length ≤ _ by omega)
      rw [Nat.add_zero] at soundMarked layout othersMarked
      obtain ⟨page', deleted, soundDeleted, gone, othersDeleted⟩ :=
        deleteRecord_live soundMarked ((layout.live_iff _).mpr live)
      obtain ⟨freeSpaceMap, stored⟩ := store_sound soundDeleted heap rid.pageNo lsn
      obtain ⟨sound', same⟩ := sound_stamp soundDeleted lsn
      simp only [found, mark, deleted, stored]
      refine ⟨_, rfl, refines.setPage there sound' ?_ ?_ freeSpaceMap⟩
      · rw [same, gone]
        exact .free
      · intro i distinct
        rw [same, othersDeleted i distinct, othersMarked i distinct]

/-- What `UpdateTuple` leaves. -/
inductive Updated (schema : List Column) (heap : HeapFile) (map : TupleMap) (rid : RID) (row : Row) :
    HeapFile × Except String (Option RID) → Prop
  | thrown (message : String) (unfit : ¬ Storable schema row) :
      Updated schema heap map rid row (heap, .error message)
  | missing (dead : map rid = none) : Updated schema heap map rid row (heap, .ok none)
  | replaced {heap' : HeapFile} {newRid : RID} (live : map rid ≠ none)
      (valid : validateTupleAgainstSchema row schema = none)
      (free : newRid = rid ∨ map newRid = none)
      (refines : Refines schema heap'
        (update (update map rid none) newRid (some row))) :
      Updated schema heap map rid row (heap', .ok (some newRid))

theorem updateTuple_refines (few : schema.length < 2 ^ 16) (refines : Refines schema heap map)
    (around : Surroundings) (rid : RID) (row : Row) :
    Updated schema heap map rid row (heap.updateTuple schema around rid row) := by
  rw [HeapFile.updateTuple]
  cases there : heap.pages[rid.pageNo]? with
  | none => exact .missing (refines.outside there)
  | some page =>
    have sound := refines.sound _ _ there
    have stores := refines.stores_page there
    simp only
    cases stored : encode row schema with
    | error message =>
      refine .thrown message fun storable => ?_
      obtain ⟨_, _, unfit⟩ | ⟨_, _, inserted, _⟩ := insertTuple_refines few refines around row
      · exact unfit storable
      · rw [HeapFile.insertTuple, stored] at inserted
        cases inserted
    | ok bytes =>
      have encodedNew := encode_encoded few stored
      cases tuple : map rid with
      | none =>
        rw [tuple] at stores
        simp only [findRecord_free sound stores]
        exact .missing tuple
      | some old =>
        rw [tuple] at stores
        obtain ⟨live, found, _⟩ := findRecord_tuple sound stores
        have there' : map rid ≠ none := by
          rw [tuple]
          exact Option.some_ne_none old
        simp only [found]
        by_cases fits : bytes.length ≤ (slotAt page rid.slotNo).length
        · obtain ⟨page', overwritten, soundNew, _, own, others⟩ :=
            overwriteRecord_live sound live fits
          obtain ⟨sound', same⟩ := sound_stamp soundNew around.lsn
          simp only [if_pos fits, overwritten]
          refine .replaced there' encodedNew.valid (.inl rfl) ?_
          rw [Function.update_idem]
          refine refines.setPage there sound' ?_ ?_ heap.freeSpaceMap
          · rw [same, own]
            exact .tuple encodedNew _
          · intro i distinct
            rw [same, others i distinct]
        · simp only [if_neg fits]
          obtain ⟨message, thrown, unfit⟩ | ⟨middle, newRid, inserted, _, free, after⟩ :=
            insertTuple_refines few refines around row
          · rw [thrown]
            exact .thrown message unfit
          · have distinct : rid ≠ newRid := by
              rintro rfl
              exact there' free
            obtain ⟨heap', deleted, result⟩ :=
              deleteTuple_refines after around.laterLsn rid
            rw [Function.update_of_ne distinct, tuple] at deleted
            rw [Function.update_comm distinct.symm] at result
            simp only [inserted, deleted, Option.isSome_some]
            exact .replaced there' encodedNew.valid (.inr free) result

end Operations

section Scan

variable {schema : List Column} {heap : HeapFile} {map : TupleMap}

def liveSlots (page : PageData) (slotNo : Nat) : List Nat :=
  (List.range' slotNo ((header page).slotCount - slotNo)).filter (Live page ·)

def ridsFrom (pageNo slotNo : Nat) : List PageData → List RID
  | [] => []
  | page :: rest => (liveSlots page slotNo).map (RID.mk pageNo) ++ ridsFrom (pageNo + 1) 0 rest

def Readable (page : PageData) : Prop :=
  ∀ i, findRecord page i = .ok (if Live page i then some (slotAt page i) else none)

theorem Refines.live_iff (refines : Refines schema heap map) {rid : RID} {page : PageData}
    (there : heap.pages[rid.pageNo]? = some page) : Live page rid.slotNo ↔ map rid ≠ none := by
  have stores := refines.stores_page there
  cases tuple : map rid with
  | none =>
    rw [tuple] at stores
    generalize raw : content page rid.slotNo = record at stores
    cases stores
    exact ⟨fun live => absurd live (content_eq_none.mp raw), fun some => absurd rfl some⟩
  | some row =>
    rw [tuple] at stores
    exact ⟨fun _ => Option.some_ne_none row,
      fun _ => (findRecord_tuple (refines.sound _ _ there) stores).1⟩

variable {page : PageData} {pageNo slotNo : Nat}

theorem Refines.readable (refines : Refines schema heap map)
    (there : heap.pages[pageNo]? = some page) : Readable page := by
  intro i
  have stores := @Refines.stores_page _ _ _ refines ⟨pageNo, i⟩ page there
  have live := @Refines.live_iff _ _ _ refines ⟨pageNo, i⟩ page there
  have sound := refines.sound _ _ there
  cases tuple : map ⟨pageNo, i⟩ with
  | none =>
    rw [tuple] at stores live
    rw [findRecord_free sound stores, if_neg fun here => live.mp here rfl]
  | some row =>
    rw [tuple] at stores
    obtain ⟨here, found, _⟩ := findRecord_tuple sound stores
    rw [found, if_pos here]

private theorem nextSlot_eq (readable : Readable page) (slots : List Nat) :
    nextSlot page slots = .ok (slots.filter (Live page ·)).head? := by
  induction slots with
  | nil => rfl
  | cons slotNo rest ih =>
    rw [nextSlot, readable slotNo]
    by_cases live : Live page slotNo
    · rw [if_pos live, List.filter_cons_of_pos (by simpa using live)]
      rfl
    · rw [if_neg live, List.filter_cons_of_neg (by simpa using live)]
      exact ih

private theorem advance_eq {pages : List PageData} (readable : ∀ page ∈ pages, Readable page)
    (pageNo slotNo : Nat) : advance pageNo slotNo pages = .ok (ridsFrom pageNo slotNo pages).head? := by
  induction pages generalizing pageNo slotNo with
  | nil => rfl
  | cons page rest ih =>
    have later := ih (fun page member => readable page (List.mem_cons_of_mem _ member))
      (pageNo + 1) 0
    rw [advance, nextSlot_eq (readable page List.mem_cons_self), ridsFrom, liveSlots]
    cases (List.range' slotNo ((header page).slotCount - slotNo)).filter (Live page ·) with
    | nil => exact later
    | cons found more => rfl

private theorem liveSlots_tail {n found : Nat} {more : List Nat}
    (first : (List.range' slotNo (n - slotNo)).filter (Live page ·) = found :: more) :
    (List.range' (found + 1) (n - (found + 1))).filter (Live page ·) = more := by
  generalize left : n - slotNo = k at first
  induction k generalizing slotNo with
  | zero => cases first
  | succ k ih =>
    rw [List.range'_succ] at first
    by_cases live : Live page slotNo
    · rw [List.filter_cons_of_pos (by simpa using live)] at first
      obtain ⟨rfl, rfl⟩ := List.cons.inj first
      have rest : n - (slotNo + 1) = k := by omega
      rw [rest]
    · rw [List.filter_cons_of_neg (by simpa using live)] at first
      exact ih (by omega) first

private theorem ridsFrom_tail (pages : List PageData) {rid : RID} {later : List RID}
    (first : ridsFrom pageNo slotNo (pages.drop pageNo) = rid :: later) :
    ridsFrom rid.pageNo (rid.slotNo + 1) (pages.drop rid.pageNo) = later := by
  generalize left : pages.drop pageNo = suffix at first
  induction suffix generalizing pageNo slotNo with
  | nil => cases first
  | cons page rest ih =>
    rw [ridsFrom] at first
    cases slots : liveSlots page slotNo with
    | nil =>
      rw [slots, List.map_nil, List.nil_append] at first
      refine ih ?_ first
      rw [← List.tail_drop, left, List.tail_cons]
    | cons found more =>
      rw [slots, List.map_cons, List.cons_append] at first
      obtain ⟨rfl, rfl⟩ := List.cons.inj first
      simp only [left, ridsFrom, liveSlots]
      rw [liveSlots_tail slots]

private theorem mem_liveSlots {i : Nat} : i ∈ liveSlots page slotNo ↔ Live page i ∧ slotNo ≤ i := by
  rw [liveSlots, List.mem_filter, List.mem_range'_1, decide_eq_true_iff]
  constructor
  · rintro ⟨inRange, live⟩
    exact ⟨live, inRange.1⟩
  · rintro ⟨live, above⟩
    have inTable := live.1
    exact ⟨⟨above, by omega⟩, live⟩

private theorem mem_ridsFrom {pages : List PageData} {rid : RID} :
    rid ∈ ridsFrom pageNo slotNo pages ↔ ∃ k page, rid.pageNo = pageNo + k ∧
      pages[k]? = some page ∧ Live page rid.slotNo ∧ (k = 0 → slotNo ≤ rid.slotNo) := by
  induction pages generalizing pageNo slotNo with
  | nil => simp [ridsFrom]
  | cons page rest ih =>
    rw [ridsFrom, List.mem_append, ih, List.mem_map]
    constructor
    · rintro (⟨i, listed, rfl⟩ | ⟨k, other, number, there, live, _⟩)
      · obtain ⟨live, above⟩ := mem_liveSlots.mp listed
        exact ⟨0, page, rfl, rfl, live, fun _ => above⟩
      · exact ⟨k + 1, other, by omega, there, live, fun none => by omega⟩
    · rintro ⟨k, other, number, there, live, above⟩
      cases k with
      | zero =>
        cases there
        refine .inl ⟨rid.slotNo, mem_liveSlots.mpr ⟨live, above rfl⟩, ?_⟩
        rw [← Nat.add_zero pageNo, ← number]
      | succ k => exact .inr ⟨k, other, by omega, there, live, fun _ => Nat.zero_le _⟩

private theorem nodup_ridsFrom (pages : List PageData) (pageNo slotNo : Nat) :
    (ridsFrom pageNo slotNo pages).Nodup := by
  induction pages generalizing pageNo slotNo with
  | nil => exact List.nodup_nil
  | cons page rest ih =>
    rw [ridsFrom, List.nodup_append]
    refine ⟨?_, ih (pageNo + 1) 0, ?_⟩
    · refine List.Nodup.map ?_ (List.Nodup.filter _ (List.nodup_range' ..))
      intro i j same
      exact (RID.mk.inj same).2
    · rintro rid here other later rfl
      obtain ⟨i, _, rfl⟩ := List.mem_map.mp here
      obtain ⟨k, _, number, _⟩ := mem_ridsFrom.mp later
      simp only at number
      omega

private theorem drain_eq (refines : Refines schema heap map) {rids : List RID}
    (left : ridsFrom pageNo slotNo (heap.pages.drop pageNo) = rids) {fuel : Nat}
    (enough : rids.length ≤ fuel) : heap.drain schema fuel rids.head? =
      some (.ok (rids.filterMap fun rid => (map rid).map fun row => (rid, decoded schema row))) := by
  induction rids generalizing pageNo slotNo fuel with
  | nil =>
    cases fuel <;> rfl
  | cons rid rids ih =>
    rw [List.length_cons] at enough
    obtain ⟨fuel, rfl⟩ := Nat.exists_eq_add_of_lt (Nat.lt_of_lt_of_le (Nat.succ_pos _) enough)
    have readable : ∀ page ∈ heap.pages.drop rid.pageNo, Readable page := by
      intro page member
      obtain ⟨k, there⟩ := List.mem_iff_getElem?.mp (List.mem_of_mem_drop member)
      exact refines.readable there
    have later := ridsFrom_tail heap.pages left
    have rest := ih later (show rids.length ≤ 0 + fuel by omega)
    obtain ⟨k, page, number, there, live, _⟩ := mem_ridsFrom.mp (left ▸ List.mem_cons_self)
    rw [List.getElem?_drop, ← number] at there
    have stored := (refines.live_iff there).mp live
    obtain ⟨row, tuple⟩ := Option.ne_none_iff_exists'.mp stored
    have found := getTuple_refines refines rid
    rw [tuple, Option.map_some] at found
    simp only [List.head?_cons, HeapFile.drain, HeapFile.next, found,
      HeapFile.advanceToNextValid, advance_eq readable, later, Except.map]
    rw [rest]
    simp [tuple]

private theorem map_fst_found (schema : List Column) {rids : List RID}
    (live : ∀ rid ∈ rids, map rid ≠ none) :
    (rids.filterMap fun rid => (map rid).map fun row => (rid, decoded schema row)).map Prod.fst =
      rids := by
  induction rids with
  | nil => rfl
  | cons rid rids ih =>
    obtain ⟨row, tuple⟩ := Option.ne_none_iff_exists'.mp (live rid List.mem_cons_self)
    have rest := ih fun rid member => live rid (List.mem_cons_of_mem _ member)
    rw [List.filterMap_cons_some (by rw [tuple]; rfl), List.map_cons, rest]

theorem scan_refines (refines : Refines schema heap map) :
    ∃ found : List (RID × Row), (∀ fuel, found.length ≤ fuel →
        heap.scan schema fuel = some (.ok found)) ∧ (found.map Prod.fst).Nodup ∧
      ∀ rid row, (rid, row) ∈ found ↔ heap.getTuple schema rid = .ok (some row) := by
  have mem_rids (rid : RID) : rid ∈ ridsFrom 0 0 heap.pages ↔ map rid ≠ none := by
    rw [mem_ridsFrom]
    constructor
    · rintro ⟨k, page, number, there, live, _⟩
      rw [Nat.zero_add] at number
      exact (refines.live_iff (by rw [number]; exact there)).mp live
    · intro stored
      cases there : heap.pages[rid.pageNo]? with
      | none => exact absurd (refines.outside there) stored
      | some page =>
        exact ⟨rid.pageNo, page, (Nat.zero_add _).symm, there, (refines.live_iff there).mpr stored,
          fun _ => Nat.zero_le _⟩
  have rids := map_fst_found schema fun rid => (mem_rids rid).mp
  refine ⟨_, fun fuel enough => ?_, by rw [rids]; exact nodup_ridsFrom heap.pages 0 0, ?_⟩
  · have readable : ∀ page ∈ heap.pages, Readable page := by
      intro page member
      obtain ⟨k, there⟩ := List.mem_iff_getElem?.mp member
      exact refines.readable there
    have length := congrArg List.length rids
    rw [List.length_map] at length
    rw [HeapFile.scan, HeapFile.advanceToNextValid, List.drop_zero, advance_eq readable]
    exact drain_eq refines
      (show ridsFrom 0 0 (heap.pages.drop 0) = _ by rw [List.drop_zero])
        (by rw [← length]; exact enough)
  · intro rid row
    rw [getTuple_refines refines, List.mem_filterMap]
    constructor
    · rintro ⟨other, _, stored⟩
      obtain ⟨old, tuple, same⟩ := Option.map_eq_some_iff.mp stored
      obtain ⟨rfl, rfl⟩ := Prod.mk.inj same
      rw [tuple, Option.map_some]
    · intro stored
      obtain ⟨old, tuple, rfl⟩ := Option.map_eq_some_iff.mp (Except.ok.inj stored)
      refine ⟨rid, (mem_rids rid).mpr ?_, by rw [tuple]; rfl⟩
      rw [tuple]
      exact Option.some_ne_none old

end Scan

section Calls

inductive Call
  | insertTuple (around : Surroundings) (tuple : Row)
  | deleteTuple (around : Surroundings) (rid : RID)
  | updateTuple (around : Surroundings) (oldRid : RID) (newTuple : Row)

inductive Reply
  | inserted (rid : RID)
  | deleted (found : Bool)
  | updated (newRid : Option RID)
  | thrown (message : String)
  deriving DecidableEq

def Reply.ofExcept {α : Type} (returned : α → Reply) : Except String α → Reply
  | .ok a => returned a
  | .error message => .thrown message

def perform (heap : HeapFile) (schema : List Column) : Call → HeapFile × Reply
  | .insertTuple around tuple =>
    (heap.insertTuple schema around tuple).map id (Reply.ofExcept .inserted)
  | .deleteTuple around rid =>
    (heap.deleteTuple around.lsn rid).map id (Reply.ofExcept .deleted)
  | .updateTuple around oldRid newTuple =>
    (heap.updateTuple schema around oldRid newTuple).map id (Reply.ofExcept .updated)

/-- The map after a call: a caller that returns stored or removed one tuple, one that throws
nothing. -/
def note (map : TupleMap) : Call → Reply → TupleMap
  | .insertTuple _ tuple, .inserted rid => update map rid (some tuple)
  | .deleteTuple _ rid, .deleted true => update map rid none
  | .updateTuple _ oldRid newTuple, .updated (some newRid) =>
    update (update map oldRid none) newRid (some newTuple)
  | _, _ => map

def Answers (schema : List Column) (map : TupleMap) : Call → Reply → Prop
  | .insertTuple _ tuple, .inserted rid => Storable schema tuple ∧ map rid = none
  | .insertTuple _ tuple, .thrown _ => ¬ Storable schema tuple
  | .deleteTuple _ rid, .deleted found => found = (map rid).isSome
  | .updateTuple _ oldRid _, .updated none => map oldRid = none
  | .updateTuple _ oldRid newTuple, .updated (some newRid) =>
    map oldRid ≠ none ∧ validateTupleAgainstSchema newTuple schema = none ∧
      (newRid = oldRid ∨ map newRid = none)
  | .updateTuple _ _ newTuple, .thrown _ => ¬ Storable schema newTuple
  | _, _ => False

def runCalls (schema : List Column) : HeapFile × TupleMap → List Call → HeapFile × TupleMap
  | state, [] => state
  | (heap, map), call :: calls =>
    runCalls schema ((perform heap schema call).1,
      note map call (perform heap schema call).2) calls

variable {schema : List Column} {heap : HeapFile} {map : TupleMap}

theorem perform_refines (few : schema.length < 2 ^ 16) (refines : Refines schema heap map)
    (call : Call) : Answers schema map call (perform heap schema call).2 ∧
      Refines schema (perform heap schema call).1
        (note map call (perform heap schema call).2) := by
  cases call with
  | insertTuple around tuple =>
    rw [perform]
    obtain ⟨message, thrown, unfit⟩ | ⟨heap', rid, inserted, storable, free, after⟩ :=
      insertTuple_refines few refines around tuple
    · rw [thrown]
      exact ⟨unfit, refines⟩
    · rw [inserted]
      exact ⟨⟨storable, free⟩, after⟩
  | deleteTuple around rid =>
    rw [perform]
    obtain ⟨heap', deleted, after⟩ := deleteTuple_refines refines around.lsn rid
    rw [deleted]
    refine ⟨rfl, ?_⟩
    cases tuple : map rid with
    | none =>
      have same : update map rid none = map := by
        rw [← tuple, Function.update_eq_self]
      rw [same] at after
      exact after
    | some row => exact after
  | updateTuple around oldRid newTuple =>
    rw [perform]
    have updated := updateTuple_refines few refines around oldRid newTuple
    generalize heap.updateTuple schema around oldRid newTuple = outcome at updated
    cases updated with
    | thrown message unfit => exact ⟨unfit, refines⟩
    | missing dead => exact ⟨dead, refines⟩
    | replaced live valid free after => exact ⟨⟨live, valid, free⟩, after⟩

theorem runCalls_refines (few : schema.length < 2 ^ 16) (refines : Refines schema heap map)
    (calls : List Call) : Refines schema (runCalls schema (heap, map) calls).1
      (runCalls schema (heap, map) calls).2 := by
  induction calls generalizing heap map with
  | nil => exact refines
  | cons call calls ih => exact ih (perform_refines few refines call).2

/-- After every sequence of calls on an empty file each tuple is read back under its RID, its NULLs
in the types of their columns, every further call does to one tuple what it answers and nothing when
it throws, and a scan yields the live tuples once each. -/
theorem heapFile_is_map (few : schema.length < 2 ^ 16) (bucketSize : Nat) (calls : List Call) :
    let state := runCalls schema (.empty bucketSize, fun _ => none) calls
    (∀ rid, state.1.getTuple schema rid = .ok ((state.2 rid).map (decoded schema))) ∧
    (∀ call, Answers schema state.2 call (perform state.1 schema call).2 ∧
      ∀ rid, (perform state.1 schema call).1.getTuple schema rid =
        .ok ((note state.2 call (perform state.1 schema call).2 rid).map (decoded schema))) ∧
    ∃ found : List (RID × Row),
      (∀ fuel, found.length ≤ fuel → state.1.scan schema fuel = some (.ok found)) ∧
      (found.map Prod.fst).Nodup ∧
      ∀ rid row, (rid, row) ∈ found ↔ state.1.getTuple schema rid = .ok (some row) := by
  intro state
  have refines : Refines schema state.1 state.2 :=
    runCalls_refines few (refines_empty schema bucketSize) calls
  refine ⟨getTuple_refines refines, fun call => ?_, scan_refines refines⟩
  obtain ⟨answers, after⟩ := perform_refines few refines call
  exact ⟨answers, getTuple_refines after⟩

def namedNumbers : List Column :=
  [{ name := "id", type := .int32, nullable := false, maxLength := 0 },
    { name := "name", type := .varchar, nullable := true, maxLength := 0 }]

def reusesSlot : List Call :=
  [.insertTuple ⟨id, some 7, none⟩ [.int32 1, .varchar [104, 105]],
    .insertTuple ⟨id, some 7, none⟩ [.int32 2, .null .varchar],
    .updateTuple ⟨id, some 7, none⟩ ⟨0, 0⟩ [.int32 3, .varchar [104]],
    .deleteTuple ⟨id, some 7, none⟩ ⟨0, 1⟩,
    .insertTuple ⟨id, some 7, none⟩ [.int32 4, .varchar [105]]]

theorem heapFile_is_map_reusesSlot :
    let state := runCalls namedNumbers (.empty 64, fun _ => none) reusesSlot
    state.1.getTuple namedNumbers ⟨0, 0⟩ = .ok (some [.int32 3, .varchar [104]]) ∧
      state.1.getTuple namedNumbers ⟨0, 1⟩ = .ok (some [.int32 4, .varchar [105]]) ∧
      ∀ call, Answers namedNumbers state.2 call (perform state.1 namedNumbers call).2 := by
  intro state
  have held : state.2 ⟨0, 0⟩ = some [.int32 3, .varchar [104]] ∧
      state.2 ⟨0, 1⟩ = some [.int32 4, .varchar [105]] := by decide +kernel
  obtain ⟨stored, performed, _⟩ :=
    heapFile_is_map (show namedNumbers.length < 2 ^ 16 by decide) 64 reusesSlot
  refine ⟨?_, ?_, fun call => (performed call).1⟩
  · rw [stored, held.1]
    rfl
  · rw [stored, held.2]
    rfl

/-- A NULL is read back in the type of its column, not in the type it was stored with. -/
theorem getTuple_differs_null : ∃ (heap : HeapFile) (rid : RID),
    (HeapFile.empty 64).insertTuple namedNumbers ⟨id, none, none⟩ [.int32 1, .null .int32] =
      (heap, .ok rid) ∧
    heap.getTuple namedNumbers rid = .ok (some [.int32 1, .null .varchar]) ∧
    heap.getTuple namedNumbers rid ≠ .ok (some [.int32 1, .null .int32]) := by
  have few : namedNumbers.length < 2 ^ 16 := by decide
  obtain ⟨message, _, unfit⟩ | ⟨heap, rid, inserted, _, _, after⟩ :=
    insertTuple_refines few (refines_empty namedNumbers 64) ⟨id, none, none⟩
      [.int32 1, .null .int32]
  · exact absurd ⟨by decide, by decide⟩ unfit
  · have found := getTuple_refines after rid
    rw [Function.update_self] at found
    refine ⟨heap, rid, inserted, found, ?_⟩
    rw [found]
    simp [decoded, namedNumbers, Value.isNull]

end Calls

end GraniteDb.Access.TupleMap
