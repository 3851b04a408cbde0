/- The free-space map of a heap file is exact over every run of its calls. -/

import GraniteDb.Access.TupleMap
import GraniteDb.Storage.PageRuns

namespace GraniteDb.Access.FreeSpaceExact

open Common.Types Common.Value Lib.ByteStore Storage.SlottedPage Storage.PageRecords
open Storage.PageRuns Storage.HeapTupleCodec Access.HeapPages
open Recovery.WalRecords (Bytes)
open Access.HeapFile (Column)
open Access.TupleMap (sound_stamp)
open List (length_pos_iff length_append length_modify)

def clear (map : FreeSpaceMap) : FreeSpaceMap :=
  { map with pageEntries := [], buckets := map.buckets.map fun _ => [] }

def tryGetFreeSpace (map : FreeSpaceMap) (pageNo : Nat) : Option Nat :=
  match map.pageEntries[pageNo]? with
  | none => none
  | some entry => if entry.present then some entry.exactFreeBytes else none

/-- What `BuildFreeSpaceMap` enters for a page. -/
def freeBytesOf (page : PageData) : Except String Nat :=
  if !isInitialized page then .ok maxRecordOnEmptyPage
  else if (header page).pageType = .heap then getMaxInsertableBytesAfterCompaction page
  else .ok 0

/-- The loop of `BuildFreeSpaceMap`, from a page on. -/
def enterPages (map : FreeSpaceMap) (pageNo : Nat) : List PageData → Except String FreeSpaceMap
  | [] => .ok map
  | page :: rest =>
    match freeBytesOf page with
    | .error message => .error message
    | .ok freeBytes => enterPages (map.updatePageFreeSpace pageNo freeBytes) (pageNo + 1) rest

def buildFreeSpaceMap (map : FreeSpaceMap) (pages : List PageData) : Except String FreeSpaceMap :=
  enterPages (clear map) 0 pages

section Buckets

variable {map : FreeSpaceMap} {pageNo freeBytes : Nat}

def entryAt (map : FreeSpaceMap) (pageNo : Nat) : Option FreeSpaceEntry :=
  (map.pageEntries[pageNo]?).filter fun entry => entry.present

structure Indexed (map : FreeSpaceMap) : Prop where
  some_ : 0 < map.buckets.length
  nodup : ∀ bucket ∈ map.buckets, bucket.Nodup
  listed : ∀ b bucket, map.buckets[b]? = some bucket → ∀ pageNo,
    pageNo ∈ bucket ↔ ∃ entry, entryAt map pageNo = some entry ∧ entry.bucket = b
  bucket : ∀ pageNo entry, entryAt map pageNo = some entry →
    entry.bucket = map.bucketForFreeBytes entry.exactFreeBytes

theorem tryGetFreeSpace_eq (map : FreeSpaceMap) (pageNo : Nat) :
    tryGetFreeSpace map pageNo = (entryAt map pageNo).map FreeSpaceEntry.exactFreeBytes := by
  unfold tryGetFreeSpace entryAt
  cases map.pageEntries[pageNo]? with
  | none => rfl
  | some entry => cases present : entry.present <;> simp [Option.filter, present]

theorem entryAt_update (map : FreeSpaceMap) (pageNo freeBytes other : Nat) :
    entryAt (map.updatePageFreeSpace pageNo freeBytes) other =
      if other = pageNo then some ⟨true, freeBytes, map.bucketForFreeBytes freeBytes⟩
      else entryAt map other := by
  unfold entryAt FreeSpaceMap.updatePageFreeSpace
  simp only
  by_cases same : other = pageNo
  · subst same
    have inside : other < (map.pageEntries ++ List.replicate (other + 1 - map.pageEntries.length)
        (⟨false, 0, 0⟩ : FreeSpaceEntry)).length := by
      rw [length_append, List.length_replicate]
      omega
    rw [if_pos rfl, List.getElem?_set_self inside]
    rfl
  · rw [if_neg same, List.getElem?_set_ne (Ne.symm same)]
    by_cases old : other < map.pageEntries.length
    · rw [List.getElem?_append_left old]
    · rw [List.getElem?_append_right (by omega),
        List.getElem?_eq_none (by omega : map.pageEntries.length ≤ other),
        List.getElem?_replicate]
      split <;> rfl

theorem tryGetFreeSpace_update (map : FreeSpaceMap) (pageNo freeBytes other : Nat) :
    tryGetFreeSpace (map.updatePageFreeSpace pageNo freeBytes) other =
      if other = pageNo then some freeBytes else tryGetFreeSpace map other := by
  rw [tryGetFreeSpace_eq, tryGetFreeSpace_eq, entryAt_update]
  split <;> rfl

theorem bucketForFreeBytes_lt (some_ : 0 < map.buckets.length) (n : Nat) :
    map.bucketForFreeBytes n < map.buckets.length := by
  unfold FreeSpaceMap.bucketForFreeBytes
  simp only
  split <;> omega

theorem bucketForFreeBytes_mono (map : FreeSpaceMap) {m n : Nat} (le : m ≤ n) :
    map.bucketForFreeBytes m ≤ map.bucketForFreeBytes n := by
  have quotients := Nat.div_le_div_right (c := map.bucketSize) le
  unfold FreeSpaceMap.bucketForFreeBytes
  simp only
  split <;> split <;> omega

private def without (map : FreeSpaceMap) (pageNo : Nat) : List (List Nat) :=
  match entryAt map pageNo with
  | some entry => map.buckets.modify entry.bucket (·.erase pageNo)
  | none => map.buckets

private theorem buckets_update (map : FreeSpaceMap) (pageNo freeBytes : Nat) :
    (map.updatePageFreeSpace pageNo freeBytes).buckets =
      (without map pageNo).modify (map.bucketForFreeBytes freeBytes) (List.insert pageNo) := by
  unfold FreeSpaceMap.updatePageFreeSpace without entryAt
  simp only
  congr 1
  by_cases old : pageNo < map.pageEntries.length
  · rw [List.getElem?_append_left old, List.getElem?_eq_getElem old, Option.getD_some]
    cases present : map.pageEntries[pageNo].present <;> simp [Option.filter, present]
  · rw [List.getElem?_append_right (by omega),
      List.getElem?_eq_none (by omega : map.pageEntries.length ≤ pageNo),
      List.getElem?_replicate]
    split <;> rfl

private theorem mem_without (indexed : Indexed map) {b : Nat} {bucket : List Nat}
    (there : (without map pageNo)[b]? = some bucket) : bucket.Nodup ∧ ∀ i,
      i ∈ bucket ↔ i ≠ pageNo ∧ ∃ entry, entryAt map i = some entry ∧ entry.bucket = b := by
  unfold without at there
  cases own : entryAt map pageNo with
  | none =>
    simp only [own] at there
    refine ⟨indexed.nodup bucket (List.mem_of_getElem? there), fun i => ?_⟩
    rw [indexed.listed b bucket there]
    constructor
    · intro listed
      refine ⟨?_, listed⟩
      rintro rfl
      obtain ⟨entry, found, -⟩ := listed
      rw [own] at found
      cases found
    · exact And.right
  | some entry =>
    simp only [own, List.getElem?_modify] at there
    obtain ⟨old, before, rfl⟩ := Option.map_eq_some_iff.mp there
    have unique := indexed.nodup old (List.mem_of_getElem? before)
    have listed := indexed.listed b old before
    by_cases here : entry.bucket = b
    · rw [if_pos here]
      refine ⟨unique.erase _, fun i => ?_⟩
      rw [unique.mem_erase_iff, listed]
    · rw [if_neg here]
      refine ⟨unique, fun i => ?_⟩
      rw [listed]
      constructor
      · intro found
        refine ⟨?_, found⟩
        rintro rfl
        obtain ⟨entry', found, same⟩ := found
        rw [own] at found
        cases found
        exact here same
      · exact And.right

theorem bucketForFreeBytes_update (map : FreeSpaceMap) (pageNo freeBytes n : Nat) :
    (map.updatePageFreeSpace pageNo freeBytes).bucketForFreeBytes n = map.bucketForFreeBytes n := by
  have length : (map.updatePageFreeSpace pageNo freeBytes).buckets.length = map.buckets.length := by
    rw [buckets_update, length_modify, without]
    split
    · rw [length_modify]
    · rfl
  unfold FreeSpaceMap.bucketForFreeBytes
  rw [length]
  rfl

theorem Indexed.update (indexed : Indexed map) (pageNo freeBytes : Nat) :
    Indexed (map.updatePageFreeSpace pageNo freeBytes) := by
  have buckets := buckets_update map pageNo freeBytes
  have bucketOf (b : Nat) (bucket : List Nat)
      (there : (map.updatePageFreeSpace pageNo freeBytes).buckets[b]? = some bucket) :
      ∃ old, (without map pageNo)[b]? = some old ∧
        bucket = if map.bucketForFreeBytes freeBytes = b then old.insert pageNo else old := by
    rw [buckets, List.getElem?_modify] at there
    obtain ⟨old, before, rfl⟩ := Option.map_eq_some_iff.mp there
    refine ⟨old, before, ?_⟩
    split <;> rfl
  refine ⟨?_, ?_, ?_, ?_⟩
  · rw [buckets, length_modify, without]
    have some_ := indexed.some_
    split
    · rw [length_modify]
      exact some_
    · exact some_
  · intro bucket member
    obtain ⟨b, there⟩ := List.getElem?_of_mem member
    obtain ⟨old, before, rfl⟩ := bucketOf b bucket there
    have unique := (mem_without indexed before).1
    split
    · exact unique.insert
    · exact unique
  · intro b bucket there i
    obtain ⟨old, before, rfl⟩ := bucketOf b bucket there
    have listed := (mem_without indexed before).2
    rw [entryAt_update]
    by_cases own : i = pageNo
    · rw [if_pos own]
      subst own
      have absent : i ∉ old := fun member => ((listed i).mp member).1 rfl
      by_cases here : map.bucketForFreeBytes freeBytes = b
      · rw [if_pos here]
        exact iff_of_true List.mem_insert_self ⟨_, rfl, here⟩
      · rw [if_neg here]
        refine iff_of_false absent ?_
        rintro ⟨entry, found, same⟩
        cases found
        exact here same
    · rw [if_neg own]
      have same : i ∈ (if map.bucketForFreeBytes freeBytes = b then old.insert pageNo else old) ↔
          i ∈ old := by
        split
        · rw [List.mem_insert_iff, or_iff_right own]
        · rfl
      rw [same, listed, and_iff_right own]
  · intro i entry found
    rw [entryAt_update] at found
    rw [bucketForFreeBytes_update]
    split at found
    · cases found
      rfl
    · exact indexed.bucket i entry found

theorem indexed_of_empty (some_ : 0 < map.buckets.length) (none_ : map.pageEntries = [])
    (empty : ∀ bucket ∈ map.buckets, bucket = []) : Indexed map := by
  have absent (i : Nat) : entryAt map i = none := by
    rw [entryAt, none_]
    rfl
  refine ⟨some_, ?_, ?_, ?_⟩
  · intro bucket member
    rw [empty bucket member]
    exact List.nodup_nil
  · intro b bucket there i
    rw [empty bucket (List.mem_of_getElem? there), absent]
    simp
  · intro i entry found
    rw [absent] at found
    cases found

theorem indexed_new (bucketSize : Nat) : Indexed (.new bucketSize) := by
  apply indexed_of_empty
  · rw [FreeSpaceMap.new, List.length_replicate]
    exact Nat.succ_pos _
  · rfl
  · intro bucket member
    exact List.eq_of_mem_replicate member

theorem Indexed.clear (indexed : Indexed map) : Indexed (clear map) := by
  apply indexed_of_empty
  · rw [FreeSpaceExact.clear, List.length_map]
    exact indexed.some_
  · rfl
  · intro bucket member
    obtain ⟨_, _, rfl⟩ := List.mem_map.mp member
    rfl

theorem candidates_exact (indexed : Indexed map) {order : List Nat → List Nat}
    (perm : ∀ bucket, (order bucket).Perm bucket) (n : Nat) :
    (map.getCandidatePages order n).Nodup ∧ ∀ pageNo, pageNo ∈ map.getCandidatePages order n ↔
      ∃ freeBytes, tryGetFreeSpace map pageNo = some freeBytes ∧ n ≤ freeBytes := by
  have test (i : Nat) : (match map.pageEntries[i]? with
      | some entry => entry.present && decide (n ≤ entry.exactFreeBytes)
      | none => false) = true ↔ ∃ entry, entryAt map i = some entry ∧ n ≤ entry.exactFreeBytes := by
    unfold entryAt
    cases map.pageEntries[i]? with
    | none => simp
    | some entry => cases present : entry.present <;> simp [Option.filter, present]
  constructor
  · rw [FreeSpaceMap.getCandidatePages, List.nodup_flatMap]
    constructor
    · intro bucket member
      have inBuckets := List.mem_of_mem_drop (List.mem_reverse.mp member)
      exact ((perm bucket).nodup_iff.mpr (indexed.nodup bucket inBuckets)).filter _
    · have apart : map.buckets.Pairwise List.Disjoint := by
        rw [List.pairwise_iff_getElem]
        intro a b inA inB less i first second
        obtain ⟨entry, found, here⟩ :=
          (indexed.listed a _ (List.getElem?_eq_getElem inA) i).mp first
        obtain ⟨entry', found', there⟩ :=
          (indexed.listed b _ (List.getElem?_eq_getElem inB) i).mp second
        rw [found] at found'
        cases found'
        omega
      have reversed : ((map.buckets.drop (map.bucketForFreeBytes n)).reverse).Pairwise
          List.Disjoint := by
        rw [List.pairwise_reverse]
        exact (apart.sublist (List.drop_sublist _ _)).imp fun disjoint => disjoint.symm
      apply reversed.imp
      intro bucket bucket' disjoint i first second
      have inFirst := (perm bucket).mem_iff.mp (List.mem_of_mem_filter first)
      have inSecond := (perm bucket').mem_iff.mp (List.mem_of_mem_filter second)
      exact disjoint inFirst inSecond
  · intro pageNo
    rw [FreeSpaceMap.getCandidatePages, List.mem_flatMap, tryGetFreeSpace_eq]
    constructor
    · intro found
      obtain ⟨bucket, _, member⟩ := found
      obtain ⟨entry, isEntry, enough⟩ := (test pageNo).mp (List.mem_filter.mp member).2
      exact ⟨_, Option.map_eq_some_iff.mpr ⟨entry, isEntry, rfl⟩, enough⟩
    · intro found
      obtain ⟨freeBytes, isFree, enough⟩ := found
      obtain ⟨entry, isEntry, rfl⟩ := Option.map_eq_some_iff.mp isFree
      have here := indexed.bucket pageNo entry isEntry
      have inMap := bucketForFreeBytes_lt indexed.some_ entry.exactFreeBytes
      have behind := bucketForFreeBytes_mono map enough
      have bucketAt := List.getElem?_eq_getElem (l := map.buckets) (i := entry.bucket) (by omega)
      have listed := indexed.listed _ _ bucketAt pageNo
      refine ⟨_, List.mem_reverse.mpr ?_, List.mem_filter.mpr
        ⟨(perm _).mem_iff.mpr (listed.mpr ⟨entry, isEntry, rfl⟩),
          (test pageNo).mpr ⟨entry, isEntry, enough⟩⟩⟩
      rw [List.mem_drop_iff_getElem]
      refine ⟨entry.bucket - map.bucketForFreeBytes n, by omega, ?_⟩
      congr 1
      omega

end Buckets

section Heaps

variable {heap : HeapFile} {pageNo : Nat} {page page' : PageData}

theorem getMaxInsertable_congr (same : SameLayout page page') :
    getMaxInsertableBytesAfterCompaction page' = getMaxInsertableBytesAfterCompaction page := by
  have slots {α : Type} (f : SlotEntry → α) : (List.range (header page).slotCount).map
      (fun i => f (slotAt page' i)) = (List.range (header page).slotCount).map
      fun i => f (slotAt page i) := by
    apply List.map_congr_left
    intro i member
    rw [same.slot i (List.mem_range.mp member)]
  have reusable : findReusableSlot page' = findReusableSlot page := by
    unfold findReusableSlot
    rw [same.slotCount, ← List.head?_filter, ← List.head?_filter]
    congr 1
    apply List.filter_congr
    intro i member
    rw [same.slot i (List.mem_range.mp member)]
  unfold getMaxInsertableBytesAfterCompaction getTotalFreeSpaceAfterCompaction
    getContiguousFreeSpace getReclaimableSpace
  rw [same.lower, same.upper, same.slotCount, slots reclaimable, reusable]

/-- A page and what the map has for it. A page that was never written is entered as an empty one. -/
inductive Entered : Option PageData → Option Nat → Prop
  | absent : Entered none none
  | heapPage {page : PageData} {freeBytes : Nat} (sound : Sound page)
      (room : getMaxInsertableBytesAfterCompaction page = .ok freeBytes) :
      Entered (some page) (some freeBytes)
  | fresh {page : PageData} (uninitialized : isInitialized page = false) :
      Entered (some page) (some maxRecordOnEmptyPage)

structure Exact (heap : HeapFile) : Prop where
  indexed : Indexed heap.freeSpaceMap
  entered : ∀ i, Entered heap.pages[i]? (tryGetFreeSpace heap.freeSpaceMap i)

theorem exact_empty (bucketSize : Nat) : Exact (.empty bucketSize) :=
  ⟨indexed_new bucketSize, fun _ => .absent⟩

variable {pages : List PageData}

theorem Exact.setPage (exact_ : Exact heap) {freeBytes : Nat}
    (located : ∀ i, pages[i]? = if i = pageNo then some page' else heap.pages[i]?)
    (sound : Sound page') (room : getMaxInsertableBytesAfterCompaction page' = .ok freeBytes) :
    Exact ⟨pages, heap.freeSpaceMap.updatePageFreeSpace pageNo freeBytes⟩ := by
  refine ⟨exact_.indexed.update pageNo freeBytes, fun i => ?_⟩
  rw [located, tryGetFreeSpace_update]
  split
  · exact .heapPage sound room
  · exact exact_.entered i

theorem getElem?_set_located (inFile : pageNo < pages.length) (i : Nat) :
    (pages.set pageNo page')[i]? = if i = pageNo then some page' else pages[i]? := by
  by_cases same : i = pageNo
  · subst same
    rw [if_pos rfl, List.getElem?_set_self inFile]
  · rw [if_neg same, List.getElem?_set_ne (Ne.symm same)]

theorem Exact.sameLayout (exact_ : Exact heap) (there : heap.pages[pageNo]? = some page)
    (sound : Sound page) (same : SameLayout page page') :
    Exact { heap with pages := heap.pages.set pageNo page' } := by
  refine ⟨exact_.indexed, fun i => ?_⟩
  simp only
  rw [getElem?_set_located (List.getElem?_eq_some_iff.mp there).1]
  split
  · rename_i here
    have before := exact_.entered i
    rw [here, there] at before
    rw [here]
    generalize tryGetFreeSpace heap.freeSpaceMap pageNo = entry at before
    cases before with
    | heapPage _ room => exact .heapPage (same.sound sound) (by rw [getMaxInsertable_congr same, room])
    | fresh uninitialized =>
      rw [sound.isInitialized_true] at uninitialized
      cases uninitialized
  · exact exact_.entered i

theorem store_eq (sound : Sound page) (heap : HeapFile) (pageNo : Nat) (lsn : Option Nat) :
    ∃ freeBytes, Sound (stamp page lsn) ∧
      getMaxInsertableBytesAfterCompaction (stamp page lsn) = .ok freeBytes ∧
      heap.store pageNo page lsn = .ok ⟨heap.pages.set pageNo (stamp page lsn),
        heap.freeSpaceMap.updatePageFreeSpace pageNo freeBytes⟩ := by
  have stamped := (sound_stamp sound lsn).1
  have room := stamped.formed.getMaxInsertable_eq
  refine ⟨_, stamped, room, ?_⟩
  rw [HeapFile.store, room]
  rfl

theorem sameLayout_stamp (page : PageData) (lsn : Option Nat) : SameLayout page (stamp page lsn) := by
  cases lsn with
  | none => exact ⟨rfl, rfl, rfl, rfl, rfl, fun _ _ => rfl⟩
  | some lsn => exact sameLayout_setPageLsn page lsn

variable {bytes : Bytes}

def usable (page : PageData) : PageData :=
  if isInitialized page then page else initializePage page .heap

theorem Entered.inserts {freeBytes : Nat} (entered : Entered (some page) (some freeBytes))
    (nonempty : bytes ≠ []) (room : bytes.length ≤ freeBytes) : Inserts (usable page) bytes := by
  cases entered with
  | heapPage sound promised =>
    rw [usable, if_pos sound.isInitialized_true, inserts_iff sound.formed nonempty, Fits]
    rw [sound.formed.getMaxInsertable_eq] at promised
    have promise := Except.ok.inj promised
    have long := length_pos_iff.mpr nonempty
    unfold required at promise ⊢
    omega
  | fresh uninitialized =>
    rw [usable, uninitialized]
    obtain ⟨page', slotNo, put, -⟩ :=
      insertRecord_initialized page (length_pos_iff.mpr nonempty) room
    exact ⟨page', slotNo, put⟩

theorem Exact.tryInsertIntoPage (exact_ : Exact heap) (there : heap.pages[pageNo]? = some page)
    (nonempty : bytes ≠ []) (fits : bytes.length ≤ maxRecordOnEmptyPage) (lsn : Option Nat) :
    Exact (heap.tryInsertIntoPage pageNo page bytes lsn).1 := by
  have inFile := (List.getElem?_eq_some_iff.mp there).1
  have put_ {page' : PageData} (sound : Sound page') : ∃ heap',
      heap.store pageNo page' lsn = .ok heap' ∧ Exact heap' := by
    obtain ⟨freeBytes, stamped, room, stored⟩ := store_eq sound heap pageNo lsn
    exact ⟨_, stored, exact_.setPage (getElem?_set_located inFile) stamped room⟩
  have before := exact_.entered pageNo
  rw [there] at before
  rw [HeapFile.tryInsertIntoPage]
  generalize tryGetFreeSpace heap.freeSpaceMap pageNo = entry at before
  cases before with
  | heapPage sound room =>
    rw [if_pos sound.isInitialized_true]
    obtain full | ⟨page', slotNo, put, inserted⟩ :=
      insertRecord_sound sound (length_pos_iff.mpr nonempty)
    · have same : heap.pages.set pageNo page = heap.pages := by
        obtain ⟨_, rfl⟩ := List.getElem?_eq_some_iff.mp there
        exact List.set_getElem_self inFile
      simp only [full, same]
      exact exact_
    · obtain ⟨heap', stored, after⟩ := put_ inserted.sound
      simp only [put, stored]
      exact after
  | fresh uninitialized =>
    rw [uninitialized]
    obtain ⟨page', slotNo, put, inserted⟩ :=
      insertRecord_initialized page (length_pos_iff.mpr nonempty) fits
    obtain ⟨heap', stored, after⟩ := put_ inserted.sound
    simp only [Bool.false_eq_true, if_false, put, stored]
    exact after

theorem Exact.insertIntoCandidate (exact_ : Exact heap) (nonempty : bytes ≠ [])
    (fits : bytes.length ≤ maxRecordOnEmptyPage) (lsn : Option Nat) (candidates : List Nat) :
    Exact (heap.insertIntoCandidate bytes lsn candidates).1 := by
  induction candidates generalizing heap with
  | nil => exact exact_
  | cons candidate rest ih =>
    rw [HeapFile.insertIntoCandidate]
    cases there : heap.pages[candidate]? with
    | none => exact ih exact_
    | some page =>
      have tried := exact_.tryInsertIntoPage there nonempty fits lsn
      simp only
      split
      · rename_i heap' result
        rw [result] at tried
        exact ih tried
      · rename_i heap' outcome _ result
        rw [result] at tried
        exact tried

theorem Exact.insertIntoNewPage (exact_ : Exact heap) (nonempty : bytes ≠ [])
    (fits : bytes.length ≤ maxRecordOnEmptyPage) (lsn : Option Nat) :
    Exact (heap.insertIntoNewPage bytes lsn).1 := by
  obtain ⟨page', slotNo, put, inserted⟩ :=
    insertRecord_initialized zeroPage (length_pos_iff.mpr nonempty) fits
  obtain ⟨freeBytes, stamped, room, stored⟩ := store_eq inserted.sound
    { heap with pages := heap.pages ++ [zeroPage] } heap.pages.length lsn
  simp only [HeapFile.insertIntoNewPage, put, stored]
  refine exact_.setPage (fun i => ?_) stamped room
  by_cases last : i = heap.pages.length
  · rw [if_pos last, last, List.getElem?_set_self (by simp)]
  · rw [if_neg last, List.getElem?_set_ne (Ne.symm last)]
    by_cases old : i < heap.pages.length
    · rw [List.getElem?_append_left old]
    · rw [List.getElem?_eq_none (by rw [length_append, List.length_singleton]; omega),
        List.getElem?_eq_none (by omega)]

theorem encode_nonempty {schema : List Column} {row : Row} (encoded : encode row schema = .ok bytes) :
    bytes ≠ [] := by
  unfold encode at encoded
  split at encoded
  · cases encoded
  · simp only at encoded
    split at encoded
    · cases encoded
    · obtain rfl := Except.ok.inj encoded
      exact List.ne_nil_of_length_pos (by simp [HeapTupleHeader.bytes])

theorem Exact.insertTuple (exact_ : Exact heap) (schema : List Column) (around : Surroundings)
    (row : Row) : Exact (heap.insertTuple schema around row).1 := by
  rw [HeapFile.insertTuple]
  cases encoded : encode row schema with
  | error message => exact exact_
  | ok bytes =>
    simp only
    split
    · exact exact_
    · rename_i large
      have nonempty := encode_nonempty encoded
      have tried := exact_.insertIntoCandidate nonempty (Nat.le_of_not_lt large) around.lsn
        (heap.freeSpaceMap.getCandidatePages around.order bytes.length)
      split
      · rename_i result
        rw [result] at tried
        exact tried
      · rename_i result
        rw [result] at tried
        exact Exact.insertIntoNewPage tried nonempty (Nat.le_of_not_lt large) around.lsn
      · rename_i result
        rw [result] at tried
        exact tried

theorem findRecord_some {slotNo : Nat} {slot : SlotEntry}
    (found : findRecord page slotNo = .ok (some slot)) :
    isInitialized page = true ∧ Live page slotNo ∧ slot = slotAt page slotNo := by
  unfold findRecord at found
  split at found
  · rename_i heapPage
    split at found
    · cases found
    · cases found
    · rename_i slot' got
      have there : Live page slotNo ∧ slot' = slotAt page slotNo := by
        unfold getRecord at got
        split at got
        · simp only at got
          split at got
          · rename_i inTable occupied
            split at got
            · cases got
            · cases got
              exact ⟨⟨inTable, occupied⟩, rfl⟩
          · cases got
        · cases got
      cases deleted : isDeleted (read page slot'.offset slot'.length) with
      | error message =>
        rw [deleted] at found
        cases found
      | ok flag =>
        rw [deleted] at found
        cases flag with
        | true => cases found
        | false =>
          cases found
          exact ⟨heapPage.1, there⟩
  · cases found

theorem length_markDeleted {data marked : Bytes} (done : markDeleted data = .ok marked) :
    marked.length = data.length := by
  unfold markDeleted at done
  cases header_ : readHeader data with
  | error message =>
    rw [header_] at done
    cases done
  | ok hdr =>
    rw [header_] at done
    obtain rfl := Except.ok.inj done
    unfold readHeader at header_
    split at header_
    · cases header_
    · rename_i long
      simp only at header_
      split at header_
      · cases header_
      · cases header_
        unfold tupleHeaderSize at *
        simp [HeapTupleHeader.bytes]
        omega

theorem Exact.sound (exact_ : Exact heap) (there : heap.pages[pageNo]? = some page)
    (initialized : isInitialized page = true) : Sound page := by
  have before := exact_.entered pageNo
  rw [there] at before
  generalize tryGetFreeSpace heap.freeSpaceMap pageNo = entry at before
  cases before with
  | heapPage sound _ => exact sound
  | fresh uninitialized =>
    rw [initialized] at uninitialized
    cases uninitialized

theorem Exact.deleteTuple (exact_ : Exact heap) (lsn : Option Nat) (rid : RID) :
    Exact (heap.deleteTuple lsn rid).1 := by
  rw [HeapFile.deleteTuple]
  cases there : heap.pages[rid.pageNo]? with
  | none => exact exact_
  | some page =>
    have inFile := (List.getElem?_eq_some_iff.mp there).1
    simp only
    split
    · exact exact_
    · exact exact_
    · rename_i slot found
      obtain ⟨initialized, live, rfl⟩ := findRecord_some found
      have sound := exact_.sound there initialized
      split
      · exact exact_
      · rename_i marked done
        have length := length_markDeleted done
        rw [length_read] at length
        obtain ⟨soundMarked, layout, -⟩ :=
          content_write_within sound 0 live (show 0 + marked.length ≤ _ by omega)
        rw [Nat.add_zero] at soundMarked layout
        obtain ⟨page', deleted, sound', -⟩ :=
          deleteRecord_live soundMarked ((layout.live_iff _).mpr live)
        obtain ⟨freeBytes, stamped, room, stored⟩ := store_eq sound' heap rid.pageNo lsn
        simp only [deleted, stored]
        exact exact_.setPage (getElem?_set_located inFile) stamped room

theorem Exact.updateTuple (exact_ : Exact heap) (schema : List Column) (around : Surroundings)
    (rid : RID) (row : Row) : Exact (heap.updateTuple schema around rid row).1 := by
  rw [HeapFile.updateTuple]
  cases there : heap.pages[rid.pageNo]? with
  | none => exact exact_
  | some page =>
    simp only
    split
    · exact exact_
    · rename_i bytes encoded
      split
      · exact exact_
      · exact exact_
      · rename_i slot found
        obtain ⟨initialized, live, rfl⟩ := findRecord_some found
        have sound := exact_.sound there initialized
        by_cases fits : bytes.length ≤ (slotAt page rid.slotNo).length
        · obtain ⟨page', written, -, layout, -⟩ := overwriteRecord_live sound live fits
          simp only [if_pos fits, written]
          exact exact_.sameLayout there sound (layout.trans (sameLayout_stamp page' around.lsn))
        · simp only [if_neg fits]
          have inserted := exact_.insertTuple schema around row
          split
          · rename_i result
            rw [result] at inserted
            exact inserted
          · rename_i heap' newRid result
            rw [result] at inserted
            have gone := Exact.deleteTuple inserted around.laterLsn rid
            split
            · rename_i deleted
              rw [deleted] at gone
              exact gone
            · rename_i deleted
              rw [deleted] at gone
              exact gone
            · rename_i deleted
              rw [deleted] at gone
              exact gone

/-- The pages that a heap file can have: heap pages, and pages that were never written. -/
def Usable (page : PageData) : Prop := Sound page ∨ isInitialized page = false

theorem freeBytesOf_usable (allowed : Usable page) :
    ∃ freeBytes, freeBytesOf page = .ok freeBytes ∧ Entered (some page) (some freeBytes) := by
  rcases allowed with sound | uninitialized
  · have room := sound.formed.getMaxInsertable_eq
    refine ⟨_, ?_, .heapPage sound room⟩
    rw [freeBytesOf, sound.isInitialized_true, if_neg (by simp), if_pos sound.pageType, room]
  · refine ⟨_, ?_, .fresh uninitialized⟩
    rw [freeBytesOf, uninitialized]
    rfl

theorem exact_enterPages {map : FreeSpaceMap} {before pages : List PageData}
    (exact_ : Exact ⟨before, map⟩) (allowed : ∀ page ∈ pages, Usable page) :
    ∃ map', enterPages map before.length pages = .ok map' ∧ Exact ⟨before ++ pages, map'⟩ := by
  induction pages generalizing map before with
  | nil => exact ⟨map, rfl, by rw [List.append_nil]; exact exact_⟩
  | cons page rest ih =>
    obtain ⟨freeBytes, room, entered⟩ := freeBytesOf_usable (allowed page List.mem_cons_self)
    have next : Exact ⟨before ++ [page], map.updatePageFreeSpace before.length freeBytes⟩ := by
      refine ⟨exact_.indexed.update _ _, fun i => ?_⟩
      rw [tryGetFreeSpace_update]
      by_cases here : i = before.length
      · rw [if_pos here, here, List.getElem?_concat_length]
        exact entered
      · have same : (before ++ [page])[i]? = before[i]? := by
          by_cases old : i < before.length
          · rw [List.getElem?_append_left old]
          · rw [List.getElem?_eq_none (by rw [length_append, List.length_singleton]; omega),
              List.getElem?_eq_none (by omega)]
        rw [if_neg here, same]
        exact exact_.entered i
    have later := ih next fun other member => allowed other (List.mem_cons_of_mem _ member)
    rw [length_append, List.length_singleton, List.append_assoc] at later
    rw [enterPages, room]
    exact later

theorem exact_buildFreeSpaceMap {map : FreeSpaceMap} (indexed : Indexed map)
    (allowed : ∀ page ∈ pages, Usable page) :
    ∃ map', buildFreeSpaceMap map pages = .ok map' ∧ Exact ⟨pages, map'⟩ :=
  @exact_enterPages _ [] _ ⟨indexed.clear, fun _ => .absent⟩ allowed

end Heaps

section Runs

variable {schema : List Column} {heap heap' : HeapFile}

/-- The heap files that calls which return normally lead to, from a file without pages or from
pages that `BuildFreeSpaceMap` has entered. -/
inductive Reached (schema : List Column) : HeapFile → Prop
  | new (bucketSize : Nat) : Reached schema (.empty bucketSize)
  | built {heap : HeapFile} (reached : Reached schema heap) {pages : List PageData}
      (allowed : ∀ page ∈ pages, Usable page) {map : FreeSpaceMap}
      (done : buildFreeSpaceMap heap.freeSpaceMap pages = .ok map) : Reached schema ⟨pages, map⟩
  | insertTuple {heap heap' : HeapFile} (reached : Reached schema heap) {around : Surroundings}
      {row : Row} {rid : RID} (done : heap.insertTuple schema around row = (heap', .ok rid)) :
      Reached schema heap'
  | deleteTuple {heap heap' : HeapFile} (reached : Reached schema heap) {lsn : Option Nat}
      {rid : RID} {found : Bool} (done : heap.deleteTuple lsn rid = (heap', .ok found)) :
      Reached schema heap'
  | updateTuple {heap heap' : HeapFile} (reached : Reached schema heap) {around : Surroundings}
      {rid : RID} {row : Row} {newRid : Option RID}
      (done : heap.updateTuple schema around rid row = (heap', .ok newRid)) : Reached schema heap'

theorem Reached.exact (reached : Reached schema heap) : Exact heap := by
  induction reached with
  | new bucketSize => exact exact_empty bucketSize
  | built _ allowed done exact_ =>
    obtain ⟨map', done', after⟩ := exact_buildFreeSpaceMap exact_.indexed allowed
    rw [done] at done'
    cases done'
    exact after
  | insertTuple _ done exact_ =>
    rename_i around row rid
    have after := exact_.insertTuple schema around row
    rw [done] at after
    exact after
  | deleteTuple _ done exact_ =>
    rename_i lsn rid found
    have after := exact_.deleteTuple lsn rid
    rw [done] at after
    exact after
  | updateTuple _ done exact_ =>
    rename_i around rid row newRid
    have after := exact_.updateTuple schema around rid row
    rw [done] at after
    exact after

structure SaysRoom (heap : HeapFile) : Prop where
  entry : ∀ pageNo page, heap.pages[pageNo]? = some page → isInitialized page = true →
    ∃ freeBytes, tryGetFreeSpace heap.freeSpaceMap pageNo = some freeBytes ∧
      getMaxInsertableBytesAfterCompaction page = .ok freeBytes
  fresh : ∀ pageNo page, heap.pages[pageNo]? = some page → isInitialized page = false →
    tryGetFreeSpace heap.freeSpaceMap pageNo = some maxRecordOnEmptyPage
  beyond : ∀ pageNo, heap.pages[pageNo]? = none → tryGetFreeSpace heap.freeSpaceMap pageNo = none
  candidates : ∀ order : List Nat → List Nat, (∀ bucket, (order bucket).Perm bucket) → ∀ n,
    (heap.freeSpaceMap.getCandidatePages order n).Nodup ∧
      ∀ pageNo, pageNo ∈ heap.freeSpaceMap.getCandidatePages order n ↔
        ∃ freeBytes, tryGetFreeSpace heap.freeSpaceMap pageNo = some freeBytes ∧ n ≤ freeBytes
  inserts : ∀ order : List Nat → List Nat, (∀ bucket, (order bucket).Perm bucket) →
    ∀ bytes : Bytes, bytes ≠ [] →
      ∀ pageNo ∈ heap.freeSpaceMap.getCandidatePages order bytes.length,
        ∃ page, heap.pages[pageNo]? = some page ∧ Inserts (usable page) bytes

theorem Exact.saysRoom (exact_ : Exact heap) : SaysRoom heap := by
  have candidates (order : List Nat → List Nat) (perm : ∀ bucket, (order bucket).Perm bucket)
      (n : Nat) := candidates_exact exact_.indexed perm n
  refine ⟨?_, ?_, ?_, candidates, ?_⟩
  · intro pageNo page there initialized
    have entered := exact_.entered pageNo
    rw [there] at entered
    generalize tryGetFreeSpace heap.freeSpaceMap pageNo = entry at entered
    cases entered with
    | heapPage _ room => exact ⟨_, rfl, room⟩
    | fresh uninitialized =>
      rw [initialized] at uninitialized
      cases uninitialized
  · intro pageNo page there uninitialized
    have entered := exact_.entered pageNo
    rw [there] at entered
    generalize tryGetFreeSpace heap.freeSpaceMap pageNo = entry at entered
    cases entered with
    | heapPage sound _ =>
      rw [sound.isInitialized_true] at uninitialized
      cases uninitialized
    | fresh _ => rfl
  · intro pageNo none_
    have entered := exact_.entered pageNo
    rw [none_] at entered
    generalize tryGetFreeSpace heap.freeSpaceMap pageNo = entry at entered
    cases entered
    rfl
  · intro order perm bytes nonempty pageNo listed
    obtain ⟨freeBytes, entry, room⟩ := ((candidates order perm bytes.length).2 pageNo).mp listed
    have entered := exact_.entered pageNo
    rw [entry] at entered
    cases there : heap.pages[pageNo]? with
    | none =>
      rw [there] at entered
      cases entered
    | some page =>
      rw [there] at entered
      exact ⟨page, rfl, entered.inserts nonempty room⟩

/-- After every sequence of calls the map says what room the pages have; a page that was never
written counts as an empty heap page. -/
theorem saysRoom_reached (reached : Reached schema heap) : SaysRoom heap := reached.exact.saysRoom

def allocated : HeapFile :=
  ⟨[zeroPage], (FreeSpaceMap.new 64).updatePageFreeSpace 0 maxRecordOnEmptyPage⟩

private theorem reached_allocated (schema : List Column) : Reached schema allocated := by
  refine .built (.new 64) ?_ (by decide +kernel)
  intro page member
  rw [List.mem_singleton.mp member]
  exact .inr (by decide +kernel)

private theorem insertTuple_allocated : (allocated.insertTuple [⟨⟨"a", .int32⟩, true, 0⟩]
    ⟨id, some 5, none⟩ [.int32 7]).2 = .ok ⟨0, 0⟩ := by
  decide +kernel

theorem saysRoom_reached_inserted : ∃ heap, allocated.insertTuple [⟨⟨"a", .int32⟩, true, 0⟩]
    ⟨id, some 5, none⟩ [.int32 7] = (heap, .ok ⟨0, 0⟩) ∧ SaysRoom heap := by
  have inserted := insertTuple_allocated
  generalize result : allocated.insertTuple [⟨⟨"a", .int32⟩, true, 0⟩] ⟨id, some 5, none⟩
    [.int32 7] = outcome at inserted
  obtain ⟨heap, outcome⟩ := outcome
  obtain rfl : outcome = .ok ⟨0, 0⟩ := inserted
  exact ⟨heap, rfl, saysRoom_reached (.insertTuple (reached_allocated _) result)⟩

private theorem insertRecord_unwritten :
    (insertRecord zeroPage [1]).toOption.all (fun result => result.2.isNone) = true := by
  decide +kernel

private theorem listed_allocated : 0 ∈ allocated.freeSpaceMap.getCandidatePages id 1 := by
  decide +kernel

/-- A page that was never written is listed for a record of one byte, and does not take it. -/
theorem unwritten_page_listed : ¬ ∀ (schema : List Column) (heap : HeapFile), Reached schema heap →
    (∀ pageNo page, heap.pages[pageNo]? = some page → ∃ freeBytes,
      tryGetFreeSpace heap.freeSpaceMap pageNo = some freeBytes ∧
        getMaxInsertableBytesAfterCompaction page = .ok freeBytes) ∧
    (∀ order : List Nat → List Nat, (∀ bucket, (order bucket).Perm bucket) → ∀ n,
      (heap.freeSpaceMap.getCandidatePages order n).Nodup ∧
        ∀ pageNo, pageNo ∈ heap.freeSpaceMap.getCandidatePages order n ↔
          ∃ freeBytes, tryGetFreeSpace heap.freeSpaceMap pageNo = some freeBytes ∧ n ≤ freeBytes) ∧
    ∀ order : List Nat → List Nat, (∀ bucket, (order bucket).Perm bucket) →
      ∀ bytes : Bytes, bytes ≠ [] →
        ∀ pageNo ∈ heap.freeSpaceMap.getCandidatePages order bytes.length,
          ∃ page, heap.pages[pageNo]? = some page ∧ Inserts page bytes := by
  intro all
  obtain ⟨-, -, inserts⟩ := all [] allocated (reached_allocated [])
  obtain ⟨page, there, page', slotNo, put⟩ :=
    inserts id (fun bucket => .refl bucket) [1] (List.cons_ne_nil _ _) 0 listed_allocated
  obtain rfl : zeroPage = page := Option.some.inj there
  have refused := insertRecord_unwritten
  rw [put] at refused
  cases refused

end Runs

end GraniteDb.Access.FreeSpaceExact
