/- What an insertion under locking leaves behind when it throws. -/

import GraniteDb.Access.FreeSpaceExact

namespace GraniteDb.Access.InsertTraces

open Common.Types Common.Value Storage.SlottedPage Storage.PageRecords Storage.HeapTupleCodec
open Access.HeapPages Access.FreeSpaceExact
open Recovery.WalRecords (Bytes)
open Access.HeapFile (Column)

/-- How a call of `LockTable` or `LockRecord` ends. It returns false for a transaction that was
chosen as the victim of a deadlock. -/
inductive LockOutcome
  | granted
  | refused
  | throws (message : String)
  deriving DecidableEq

/-- What an insertion meets: its two locks, the order of the hash table's buckets, the log if
there is one, the pages that `FetchPage` has a frame for, and whether `NewPage` has one. -/
structure InsertCall where
  tableLock : LockOutcome
  recordLock : LockOutcome
  order : List Nat → List Nat
  log : Option (Except String Nat)
  fetches : Nat → Bool
  newPage : Bool

/-- A heap file, and the pages that the insertion has pinned and latched. -/
structure Held where
  heap : HeapFile
  pinned : List Nat
  latched : List Nat

def released (heap : HeapFile) : Held := ⟨heap, [], []⟩

def holding (heap : HeapFile) (pageNo : Nat) (page : PageData) : Held :=
  ⟨{ heap with pages := heap.pages.set pageNo page }, [pageNo], [pageNo]⟩

/-- `AcquireTableLockIfNeeded` and `AcquireRecordLockIfNeeded`, with their messages. -/
def acquire (message : String) : LockOutcome → Except String Unit
  | .granted => .ok ()
  | .refused => .error message
  | .throws message => .error message

/-- `AppendRecord`, where there is a log. -/
def appendRecord (call : InsertCall) : Except String (Option Nat) :=
  match call.log with
  | none => .ok none
  | some (.ok lsn) => .ok (some lsn)
  | some (.error message) => .error message

/-- From the record lock on: the record is in the page, which is pinned and latched. -/
def finishInsert (heap : HeapFile) (call : InsertCall) (pageNo slotNo : Nat) (page : PageData) :
    Held × Except String RID :=
  match acquire "Failed to acquire heap record lock" call.recordLock with
  | .error message => (holding heap pageNo page, .error message)
  | .ok () =>
    match appendRecord call with
    | .error message => (holding heap pageNo page, .error message)
    | .ok lsn =>
      match heap.store pageNo page lsn with
      | .error message => (holding heap pageNo (stamp page lsn), .error message)
      | .ok heap => (released heap, .ok ⟨pageNo, slotNo⟩)

def tryInsertIntoPage (heap : HeapFile) (call : InsertCall) (bytes : Bytes) (pageNo : Nat)
    (page : PageData) : Held × Except String (Option RID) :=
  if call.fetches pageNo then
    match insertRecord (usable page) bytes with
    | .error message => (holding heap pageNo (usable page), .error message)
    | .ok (page, none) => (released { heap with pages := heap.pages.set pageNo page }, .ok none)
    | .ok (page, some slotNo) =>
      let done := finishInsert heap call pageNo slotNo page
      (done.1, done.2.map some)
  else (released heap, .ok none)

def insertIntoCandidate (heap : HeapFile) (call : InsertCall) (bytes : Bytes) :
    List Nat → Held × Except String (Option RID)
  | [] => (released heap, .ok none)
  | pageNo :: rest =>
    match heap.pages[pageNo]? with
    | none => insertIntoCandidate heap call bytes rest
    | some page =>
      match tryInsertIntoPage heap call bytes pageNo page with
      | (held, .ok none) => insertIntoCandidate held.heap call bytes rest
      | (held, outcome) => (held, outcome)

def insertIntoNewPage (heap : HeapFile) (call : InsertCall) (bytes : Bytes) :
    Held × Except String RID :=
  if call.newPage then
    let pageNo := heap.pages.length
    let heap := { heap with pages := heap.pages ++ [zeroPage] }
    match insertRecord (initializePage zeroPage .heap) bytes with
    | .error message => (holding heap pageNo (initializePage zeroPage .heap), .error message)
    | .ok (page, none) =>
      (released { heap with pages := heap.pages.set pageNo page },
        .error "Failed to insert into newly created heap page")
    | .ok (page, some slotNo) => finishInsert heap call pageNo slotNo page
  else (released heap, .error "Buffer pool full: cannot allocate a new heap page")

/-- `InsertTupleImpl` for a transaction, with a lock manager. -/
def insertTupleImpl (heap : HeapFile) (schema : List Column) (call : InsertCall) (tuple : Row) :
    Held × Except String RID :=
  match acquire "Failed to acquire heap table lock" call.tableLock with
  | .error message => (released heap, .error message)
  | .ok () =>
    match encode tuple schema with
    | .error message => (released heap, .error message)
    | .ok bytes =>
      if maxRecordOnEmptyPage < bytes.length then
        (released heap, .error "Tuple too large for a heap page")
      else
        let candidates := heap.freeSpaceMap.getCandidatePages call.order bytes.length
        match insertIntoCandidate heap call bytes candidates with
        | (held, .ok (some rid)) => (held, .ok rid)
        | (held, .ok none) => insertIntoNewPage held.heap call bytes
        | (held, .error message) => (held, .error message)

def InsertCall.Settled (call : InsertCall) : Prop :=
  call.recordLock = .granted ∧ ∀ message, call.log ≠ some (.error message)

/-- A page among the candidates gets a frame and has room for the record. -/
def Takes (heap : HeapFile) (call : InsertCall) (bytes : Bytes) (candidates : List Nat) : Prop :=
  ∃ pageNo ∈ candidates, call.fetches pageNo = true ∧
    ∃ page, heap.pages[pageNo]? = some page ∧ Fits (usable page) bytes

/-- The table lock is granted, and there is a page for the tuple: one with room, or a new one. -/
def AsksForRecordLock (heap : HeapFile) (schema : List Column) (call : InsertCall) (tuple : Row) :
    Prop :=
  call.tableLock = .granted ∧ ∃ bytes, encode tuple schema = .ok bytes ∧
    bytes.length ≤ maxRecordOnEmptyPage ∧
    (Takes heap call bytes (heap.freeSpaceMap.getCandidatePages call.order bytes.length) ∨
      call.newPage = true)

/-- A call that throws leaves the pages and the map as they were, and holds no page. -/
def LeavesNoTrace (heap : HeapFile) (schema : List Column) (call : InsertCall) (tuple : Row) : Prop :=
  ∀ held message, insertTupleImpl heap schema call tuple = (held, .error message) →
    held = released heap

section Traces

variable {heap : HeapFile} {call : InsertCall} {pageNo slotNo : Nat} {page : PageData}
  {bytes : Bytes}

theorem sound_usable (allowed : Usable page) : Sound (usable page) := by
  rcases allowed with sound | uninitialized
  · rw [usable, if_pos sound.isInitialized_true]
    exact sound
  · rw [usable, uninitialized]
    exact sound_initializePage page

inductive Finished (heap : HeapFile) (call : InsertCall) : Held × Except String RID → Prop
  | done {heap' : HeapFile} {rid : RID} (settled : call.Settled) :
      Finished heap call (released heap', .ok rid)
  | leaked {pageNo : Nat} {page : PageData} {message : String} (unsettled : ¬ call.Settled) :
      Finished heap call (holding heap pageNo page, .error message)

theorem finished_finishInsert (heap : HeapFile) (call : InsertCall) (pageNo slotNo : Nat)
    (sound : Sound page) : Finished heap call (finishInsert heap call pageNo slotNo page) := by
  have refused (message : String) (not_ : call.recordLock ≠ .granted) :
      Finished heap call (holding heap pageNo page, .error message) :=
    .leaked fun settled => not_ settled.1
  have stored (lsn : Option Nat) (settled : call.Settled) : Finished heap call
      (match heap.store pageNo page lsn with
        | .error message => (holding heap pageNo (stamp page lsn), .error message)
        | .ok heap => (released heap, .ok ⟨pageNo, slotNo⟩)) := by
    obtain ⟨_, _, _, stored⟩ := store_eq sound heap pageNo lsn
    rw [stored]
    exact .done settled
  unfold finishInsert appendRecord
  cases record : call.recordLock with
  | refused => exact refused _ (by rw [record]; exact nofun)
  | throws message => exact refused message (by rw [record]; exact nofun)
  | granted =>
    simp only [acquire]
    cases logged : call.log with
    | none => exact stored none ⟨record, by rw [logged]; exact nofun⟩
    | some result =>
      cases result with
      | ok lsn => exact stored (some lsn) ⟨record, by rw [logged]; exact nofun⟩
      | error message => exact .leaked fun settled => settled.2 message logged

theorem tryInsertIntoPage_cases (there : heap.pages[pageNo]? = some page) (allowed : Usable page)
    (nonempty : bytes ≠ []) (fits : bytes.length ≤ maxRecordOnEmptyPage)
    (fetched : call.fetches pageNo = true) :
    (¬ Fits (usable page) bytes ∧
      tryInsertIntoPage heap call bytes pageNo page = (released heap, .ok none)) ∨
    Fits (usable page) bytes ∧ ∃ slotNo page', Sound page' ∧
      tryInsertIntoPage heap call bytes pageNo page =
        ((finishInsert heap call pageNo slotNo page').1,
          (finishInsert heap call pageNo slotNo page').2.map some) := by
  have sound := sound_usable allowed
  rw [tryInsertIntoPage, if_pos fetched]
  rcases sound.formed.insertRecord_cases nonempty with
    ⟨full, unchanged⟩ | ⟨room, page', slotNo, put, added, -⟩
  · refine .inl ⟨full, ?_⟩
    rcases allowed with heapPage | uninitialized
    · have same : usable page = page := if_pos heapPage.isInitialized_true
      obtain ⟨inFile, located⟩ := List.getElem?_eq_some_iff.mp there
      have unset : heap.pages.set pageNo page = heap.pages := by
        rw [← located, List.set_getElem_self inFile]
      rw [same] at unchanged ⊢
      simp only [unchanged, unset]
    · have entered := Entered.inserts (.fresh uninitialized) nonempty fits
      exact absurd ((Storage.PageRuns.inserts_iff sound.formed nonempty).mp entered) full
  · exact .inr ⟨room, slotNo, page', (added.inserted sound).sound, by rw [put]⟩

theorem insertIntoCandidate_cases (allowed : ∀ page ∈ heap.pages, Usable page)
    (nonempty : bytes ≠ []) (fits : bytes.length ≤ maxRecordOnEmptyPage) (candidates : List Nat) :
    (¬ Takes heap call bytes candidates ∧
      insertIntoCandidate heap call bytes candidates = (released heap, .ok none)) ∨
    Takes heap call bytes candidates ∧ ∃ result, Finished heap call result ∧
      insertIntoCandidate heap call bytes candidates = (result.1, result.2.map some) := by
  induction candidates with
  | nil =>
    refine .inl ⟨?_, rfl⟩
    intro takes
    obtain ⟨_, member, _⟩ := takes
    cases member
  | cons candidate rest ih =>
    -- a candidate that does not take the record leaves the question to the others
    have skip (refused : ¬ (call.fetches candidate = true ∧
        ∃ page, heap.pages[candidate]? = some page ∧ Fits (usable page) bytes))
        (same : insertIntoCandidate heap call bytes (candidate :: rest) =
          insertIntoCandidate heap call bytes rest) :
        (¬ Takes heap call bytes (candidate :: rest) ∧
          insertIntoCandidate heap call bytes (candidate :: rest) = (released heap, .ok none)) ∨
        Takes heap call bytes (candidate :: rest) ∧ ∃ result, Finished heap call result ∧
          insertIntoCandidate heap call bytes (candidate :: rest) =
            (result.1, result.2.map some) := by
      have takes : Takes heap call bytes (candidate :: rest) ↔ Takes heap call bytes rest := by
        rw [Takes, List.exists_mem_cons_iff, or_iff_right refused, Takes]
      rw [takes, same]
      exact ih
    cases there : heap.pages[candidate]? with
    | none =>
      apply skip
      · rw [there]
        simp
      · rw [insertIntoCandidate, there]
    | some page =>
      by_cases fetched : call.fetches candidate = true
      · rcases tryInsertIntoPage_cases there (allowed page (List.mem_of_getElem? there))
            nonempty fits fetched with ⟨full, unchanged⟩ | ⟨room, slotNo, page', sound, put⟩
        · apply skip
          · rw [there]
            simp only [Option.some.injEq, exists_eq_left', not_and]
            exact fun _ => full
          · rw [insertIntoCandidate, there]
            simp only [unchanged]
            rfl
        · have finished := finished_finishInsert heap call candidate slotNo sound
          refine .inr ⟨⟨candidate, List.mem_cons_self, fetched, page, there, room⟩, _, finished, ?_⟩
          rw [insertIntoCandidate, there]
          simp only [put]
          cases (finishInsert heap call candidate slotNo page').2 <;> rfl
      · apply skip
        · exact fun both => fetched both.1
        · have passed : tryInsertIntoPage heap call bytes candidate page =
              (released heap, .ok none) := if_neg fetched
          rw [insertIntoCandidate, there]
          simp only [passed]
          rfl

theorem insertIntoNewPage_cases (heap : HeapFile) (call : InsertCall) (nonempty : bytes ≠ [])
    (fits : bytes.length ≤ maxRecordOnEmptyPage) :
    (call.newPage = false ∧ ∃ message,
      insertIntoNewPage heap call bytes = (released heap, .error message)) ∨
    call.newPage = true ∧ Finished { heap with pages := heap.pages ++ [zeroPage] } call
      (insertIntoNewPage heap call bytes) := by
  unfold insertIntoNewPage
  cases available : call.newPage with
  | false => exact .inl ⟨rfl, _, rfl⟩
  | true =>
    obtain ⟨page, slotNo, put, inserted⟩ :=
      insertRecord_initialized zeroPage (List.length_pos_iff.mpr nonempty) fits
    refine .inr ⟨rfl, ?_⟩
    simp only [if_true, put]
    exact finished_finishInsert _ call _ slotNo inserted.sound

theorem insertTupleImpl_cases (allowed : ∀ page ∈ heap.pages, Usable page) (schema : List Column)
    (call : InsertCall) (tuple : Row) :
    (¬ AsksForRecordLock heap schema call tuple ∧ ∃ message,
      insertTupleImpl heap schema call tuple = (released heap, .error message)) ∨
    AsksForRecordLock heap schema call tuple ∧
      ∃ heap', Finished heap' call (insertTupleImpl heap schema call tuple) := by
  cases locked : call.tableLock with
  | refused =>
    refine .inl ⟨?_, _, by rw [insertTupleImpl, locked]; rfl⟩
    intro asks
    have granted := asks.1
    rw [locked] at granted
    cases granted
  | throws message =>
    refine .inl ⟨?_, message, by rw [insertTupleImpl, locked]; rfl⟩
    intro asks
    have granted := asks.1
    rw [locked] at granted
    cases granted
  | granted =>
    cases encoded : encode tuple schema with
    | error message =>
      refine .inl ⟨?_, message, by rw [insertTupleImpl, locked]; simp only [acquire, encoded]⟩
      intro asks
      obtain ⟨-, bytes, encoded', -⟩ := asks
      rw [encoded] at encoded'
      cases encoded'
    | ok bytes =>
      by_cases large : maxRecordOnEmptyPage < bytes.length
      · refine .inl ⟨?_, "Tuple too large for a heap page",
          by rw [insertTupleImpl, locked]; simp only [acquire, encoded, if_pos large]⟩
        intro asks
        obtain ⟨-, bytes', encoded', small, -⟩ := asks
        rw [encoded] at encoded'
        cases encoded'
        omega
      · have fits := Nat.le_of_not_lt large
        have nonempty := encode_nonempty encoded
        have result : insertTupleImpl heap schema call tuple =
            match insertIntoCandidate heap call bytes
              (heap.freeSpaceMap.getCandidatePages call.order bytes.length) with
            | (held, .ok (some rid)) => (held, .ok rid)
            | (held, .ok none) => insertIntoNewPage held.heap call bytes
            | (held, .error message) => (held, .error message) := by
          rw [insertTupleImpl, locked]
          simp only [acquire, encoded, if_neg large]
        rcases insertIntoCandidate_cases allowed nonempty fits
            (heap.freeSpaceMap.getCandidatePages call.order bytes.length) with
          ⟨nowhere, unchanged⟩ | ⟨takes, outcome, finished, found⟩
        · rw [unchanged] at result
          rcases insertIntoNewPage_cases heap call nonempty fits with
            ⟨none_, message, full⟩ | ⟨available, finished⟩
          · refine .inl ⟨?_, message, result.trans full⟩
            intro asks
            obtain ⟨-, bytes', encoded', -, page⟩ := asks
            rw [encoded] at encoded'
            cases encoded'
            rw [none_] at page
            exact page.elim nowhere Bool.false_ne_true
          · refine .inr ⟨⟨locked, bytes, encoded, fits, .inr available⟩,
              { heap with pages := heap.pages ++ [zeroPage] }, ?_⟩
            rw [result]
            exact finished
        · refine .inr ⟨⟨locked, bytes, encoded, fits, .inl takes⟩, heap, ?_⟩
          rw [result, found]
          obtain ⟨held, done⟩ := outcome
          cases done <;> exact finished

/-- An insertion that throws leaves no trace exactly when it does not come as far as the record
lock, or the lock is granted and the log takes the record. -/
theorem leavesNoTrace_iff (allowed : ∀ page ∈ heap.pages, Usable page) (schema : List Column)
    (call : InsertCall) (tuple : Row) : LeavesNoTrace heap schema call tuple ↔
      (AsksForRecordLock heap schema call tuple → call.Settled) := by
  unfold LeavesNoTrace
  rcases insertTupleImpl_cases allowed schema call tuple with
    ⟨early, message, result⟩ | ⟨asks, heap', finished⟩
  · refine iff_of_true ?_ fun asks => absurd asks early
    intro held message' result'
    rw [result] at result'
    exact (Prod.mk.inj result').1.symm
  · generalize insertTupleImpl heap schema call tuple = outcome at finished
    cases finished with
    | done settled =>
      refine iff_of_true ?_ fun _ => settled
      intro held message result
      cases result
    | leaked unsettled =>
      refine iff_of_false ?_ fun settled => unsettled (settled asks)
      intro traceless
      have pinned := congrArg Held.pinned (traceless _ _ rfl)
      cases pinned

/-- The transaction was chosen as the victim of a deadlock before its record lock. -/
def victim : InsertCall := ⟨.granted, .refused, id, some (.ok 5), fun _ => true, true⟩

theorem leavesNoTrace_iff_victim :
    LeavesNoTrace ⟨[initializePage zeroPage .heap],
        (FreeSpaceMap.new 64).updatePageFreeSpace 0 maxRecordOnEmptyPage⟩
        [⟨⟨"a", .int32⟩, true, 0⟩] victim [.int32 7] ↔
      (AsksForRecordLock ⟨[initializePage zeroPage .heap],
        (FreeSpaceMap.new 64).updatePageFreeSpace 0 maxRecordOnEmptyPage⟩
        [⟨⟨"a", .int32⟩, true, 0⟩] victim [.int32 7] → victim.Settled) := by
  refine leavesNoTrace_iff ?_ _ victim _
  intro page member
  rw [List.mem_singleton.mp member]
  exact .inl (sound_initializePage zeroPage)

private def traces (result : Held × Except String RID) :
    Except String RID × List Nat × List Nat × List Nat :=
  (result.2, result.1.pinned, result.1.latched,
    result.1.heap.pages.map fun page => (header page).slotCount)

private theorem traces_victim : traces (insertTupleImpl ⟨[initializePage zeroPage .heap],
      (FreeSpaceMap.new 64).updatePageFreeSpace 0 maxRecordOnEmptyPage⟩
      [⟨⟨"a", .int32⟩, true, 0⟩] victim [.int32 7]) =
    (.error "Failed to acquire heap record lock", [0], [0], [1]) := by
  decide +kernel

/-- The record of the victim stays in the page, which stays pinned and latched. -/
theorem victim_leaves_record : ¬ ∀ (heap : HeapFile) (schema : List Column) (call : InsertCall)
    (tuple : Row), (∀ page ∈ heap.pages, Usable page) → LeavesNoTrace heap schema call tuple := by
  intro all
  have allowed : ∀ page ∈ [initializePage zeroPage .heap], Usable page := by
    intro page member
    rw [List.mem_singleton.mp member]
    exact .inl (sound_initializePage zeroPage)
  have traceless := all ⟨[initializePage zeroPage .heap],
    (FreeSpaceMap.new 64).updatePageFreeSpace 0 maxRecordOnEmptyPage⟩
    [⟨⟨"a", .int32⟩, true, 0⟩] victim [.int32 7] allowed
  have left := traces_victim
  unfold LeavesNoTrace at traceless
  generalize insertTupleImpl ⟨[initializePage zeroPage .heap],
    (FreeSpaceMap.new 64).updatePageFreeSpace 0 maxRecordOnEmptyPage⟩
    [⟨⟨"a", .int32⟩, true, 0⟩] victim [.int32 7] = result at left traceless
  obtain ⟨held, outcome⟩ := result
  have parts := Prod.mk.inj left
  obtain rfl : outcome = .error "Failed to acquire heap record lock" := parts.1
  have pinned : held.pinned = [0] := (Prod.mk.inj parts.2).1
  rw [traceless held _ rfl] at pinned
  cases pinned

end Traces

end GraniteDb.Access.InsertTraces
