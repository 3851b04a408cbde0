/- Scans over a buffer pool that may have no frame for a page they fetch. -/

import GraniteDb.Access.HeapFile
import GraniteDb.Buffer.ClockSweep
import GraniteDb.Execution.BitmapScan
import GraniteDb.Lib.Reading

namespace GraniteDb.Execution.ExhaustedPool

open Common.Types Common.Value Access.HeapFile Access.IndexScan Execution.Expressions Lib.Pull
open Lib.Reading
open Execution.BitmapScan (KeyBounds sortedRids)
open Option (map_some)

section Pool

open Buffer.FrameTable Buffer.ClockSweep

variable {Page : Type}

theorem fetchPage_exhausted [Inhabited Page] {s : BufferPoolManager Page} {pageId : PageId}
    {numPages : Nat} (absent : s.pageTable pageId = none)
    (count : s.disk.getNumPages pageId.relationId = .ok numPages)
    (known : pageId.pageNo < numPages) (hand : s.poolSize ≠ 0 → s.clockHand < s.poolSize)
    (pinned : ∀ f < s.poolSize,
      (s.frameTable f).isValid = true ∧ 0 < (s.frameTable f).pinCount) :
    (fetchPage pageId s).1 = .ok none := by
  have inRange : ¬ numPages ≤ pageId.pageNo := by omega
  have noVictim : s.victim.1 = none := by
    unfold BufferPoolManager.victim
    split
    · rfl
    · rename_i some
      exact victimLoop_pinned pinned _ (hand some)
  have unprepared : (prepareFrame s).1 = .ok none := by
    unfold prepareFrame
    generalize s.victim = found at noVictim
    obtain ⟨chosen, m⟩ := found
    cases noVictim
    rfl
  simp only [fetchPage, absent, count, if_neg inRange]
  generalize prepareFrame s = prepared at unprepared
  obtain ⟨result, m⟩ := prepared
  cases unprepared
  rfl

end Pool

/-- A single-column index with the number of pages a descent fetches, for a key or to the
leftmost leaf. -/
structure IndexPages extends BTreeIndex where
  descent : Option Value → Nat

/-- `BTreeIndexIterator` in one leaf. `Next` fetches it, and `AdvanceToNextValid` fetches it again
before `entry`, the one on its way, is returned. Keys below `lower` are skipped up to the first that
is not. -/
def iterateLeaf (onward : Option Value → Option LeafEntry → Reading LeafEntry) :
    Option Value → Option LeafEntry → List LeafEntry → Reading LeafEntry
  | lower, entry, [] => onward lower entry
  | lower, entry, e :: rest =>
    let stopHere : Reading LeafEntry :=
      let after := .fetch (.fetch (iterateLeaf onward none (some e) rest))
      match entry with
      | some returned => .item returned after
      | none => after
    match lower with
    | none => stopHere
    | some bound =>
      match compareEncoded e.key bound with
      | none => .failed
      | some .lt => iterateLeaf onward lower entry rest
      | some _ => stopHere

/-- `BTreeIndexIterator` from one leaf on; every leaf is fetched when it is reached. -/
def iterateLeaves : Option Value → Option LeafEntry → List (List LeafEntry) → Reading LeafEntry
  | _, some returned, [] => .item returned .done
  | _, none, [] => .done
  | lower, entry, leaf :: rest =>
    .fetch (iterateLeaf (fun lower entry => iterateLeaves lower entry rest) lower entry leaf)

def IndexPages.iterate (index : IndexPages) : Option Value → Reading LeafEntry
  | none => .fetchPages (index.descent none) (iterateLeaves none none index.leaves)
  | some lower =>
    match encodeValue index.keyType index.maxVarcharLen lower with
    | none => .failed
    | some encoded =>
      .fetchPages (index.descent (some encoded))
        (iterateLeaves (some encoded) none (index.leaves.drop (index.findLeaf encoded)))

/-- `Search` from one leaf on. -/
def searchFrom (key : Value) : List RID → List (List LeafEntry) → Reading RID
  | result, [] => .ofList result
  | result, leaf :: rest =>
    .fetch
      (match searchEntries key leaf, endsWithKey key leaf with
      | some (hits, stop), some atEnd =>
        if !stop && !hits.isEmpty && atEnd then searchFrom key (result ++ hits) rest
        else .ofList (result ++ hits)
      | _, _ => .failed)

def IndexPages.search (index : IndexPages) (key : Value) : Reading RID :=
  match encodeValue index.keyType index.maxVarcharLen key with
  | none => .failed
  | some encoded =>
    .fetchPages (index.descent (some encoded))
      (searchFrom encoded [] (index.leaves.drop (index.findLeaf encoded)))

/-- The tests of a scan on the entries of an iterator: it yields the RIDs within the bounds and
ends above them. -/
def within (verdict : LeafEntry → Option Verdict) : Reading LeafEntry → Reading RID
  | .done => .done
  | .failed => .failed
  | .fetch next => .fetch (within verdict next)
  | .item e next =>
    match verdict e with
    | none => .failed
    | some .below => within verdict next
    | some .within => .item e.rid (within verdict next)
    | some .above => .done

/-- The test of `IndexScanExecutor::Next` in the mode for one key. -/
def equalityVerdict (key : Value) (e : LeafEntry) : Option Verdict :=
  (compareValues e.key key).map fun cmp => if cmp = .eq then .within else .above

inductive ScanMode
  | full
  | equality (key : Value)
  | range (lower upper : Option Value) (lowerInclusive upperInclusive : Bool)
  deriving DecidableEq

/-- The RIDs `IndexScanExecutor` looks up. -/
def indexScanRids (index : IndexPages) : ScanMode → Reading RID
  | .full => within (fun e => rangeVerdict none none true true e.key) (index.iterate none)
  | .equality key => within (equalityVerdict key) (index.iterate (some key))
  | .range lower upper lowerInclusive upperInclusive =>
    within (fun e => rangeVerdict lower upper lowerInclusive upperInclusive e.key)
      (index.iterate lower)

/-- The tests of `BitmapIndexScanExecutor::Init`: a key outside the bounds ends the loop when it
is above them, even if it is below them too. -/
def bitmapVerdict (bounds : KeyBounds) (e : LeafEntry) : Option Verdict := do
  let under ← isUnder bounds.lower bounds.lowerInclusive e.key
  let beyond ← isOver bounds.upper bounds.upperInclusive e.key
  some (if beyond then .above else if under then .below else .within)

def bitmapIndexScan (index : IndexPages) (bounds : KeyBounds) : Reading RID :=
  match bounds.equalityKey with
  | some key => index.search key
  | none => within (bitmapVerdict bounds) (index.iterate bounds.lower)

def intersectRids : List RID → List (Reading RID) → Reading RID
  | current, [] => .ofList (sortedRids current)
  | current, child :: rest =>
    if current.isEmpty then .done
    else child.collectThen (fun rids => intersectRids (rids.filter current.contains) rest) []

def bitmapAnd : List (Reading RID) → Reading RID
  | [] => .done
  | first :: rest => first.collectThen (fun rids => intersectRids rids rest) []

/-- `BitmapOrExecutor`, with the RIDs of the children before. -/
def bitmapOr : List RID → List (Reading RID) → Reading RID
  | found, [] => .ofList (sortedRids found)
  | found, child :: rest => child.collectThen (fun rids => bitmapOr (found ++ rids) rest) []

/-- The executors below `BitmapHeapScanExecutor`. -/
inductive BitmapChild
  | index (index : IndexPages) (bounds : KeyBounds)
  | and (children : List BitmapChild)
  | or (children : List BitmapChild)

mutual

def BitmapChild.rids : BitmapChild → Reading RID
  | .index index bounds => bitmapIndexScan index bounds
  | .and children => bitmapAnd (childRids children)
  | .or children => bitmapOr [] (childRids children)

def childRids : List BitmapChild → List (Reading RID)
  | [] => []
  | child :: rest => child.rids :: childRids rest

end

/-- A composite index with the number of pages a descent fetches. -/
structure GenericIndexPages extends GenericBTreeIndex where
  descent : Option (List Value) → Nat

/-- The loop of `FullScanRids` over the leaves. -/
def fullScanLeaves : List RID → List (List GenericLeafEntry) → Reading RID
  | result, [] => .ofList result
  | result, leaf :: rest => .fetch (fullScanLeaves (result ++ leaf.map GenericLeafEntry.rid) rest)

/-- The loop of `ScanPrefixRange` over the entries of one leaf: the hits, and whether the scan
stops there. -/
def scanLeaf (spec : PrefixScanSpec) : List GenericLeafEntry → Option (List RID × Bool)
  | [] => some ([], false)
  | e :: rest => do
    match ← prefixOrder e.key spec.equalityPrefix with
    | .lt => scanLeaf spec rest
    | .gt => some ([], true)
    | .eq =>
      match ← rangeColumnVerdict spec e.key with
      | .below => scanLeaf spec rest
      | .above => some ([], true)
      | .within =>
        let (hits, stop) ← scanLeaf spec rest
        some (e.rid :: hits, stop)

/-- The loop of `ScanPrefixRange` over the leaves. -/
def scanLeaves (spec : PrefixScanSpec) : List RID → List (List GenericLeafEntry) → Reading RID
  | result, [] => .ofList result
  | result, leaf :: rest =>
    .fetch
      (match scanLeaf spec leaf with
      | none => .failed
      | some (hits, true) => .ofList (result ++ hits)
      | some (hits, false) => scanLeaves spec (result ++ hits) rest)

def GenericIndexPages.scanPrefixRange (index : GenericIndexPages) (spec : PrefixScanSpec) :
    Reading RID :=
  if index.keyColumns.length < spec.equalityPrefix.length then .failed
  else if (spec.lowerBound.isSome || spec.upperBound.isSome) &&
      decide (index.keyColumns.length ≤ spec.equalityPrefix.length) then .failed
  else if spec.equalityPrefix = [] ∧ spec.lowerBound = none then
    .fetchPages (index.descent none) (scanLeaves spec [] index.leaves)
  else
    match (startKey index.keyColumns spec).bind (encodeKey index.nullPolicy index.keyColumns) with
    | none => .failed
    | some encoded =>
      .fetchPages (index.descent (some encoded))
        (scanLeaves spec [] (index.leaves.drop (index.findLeaf encoded)))

def genericIndexScanRids (index : GenericIndexPages) (spec : PrefixScanSpec)
    (fullIndexScan : Bool) : Reading RID :=
  if fullIndexScan then .fetchPages (index.descent none) (fullScanLeaves [] index.leaves)
  else index.scanPrefixRange spec

/-- The executors that read the tuples of one heap file. They run without a transaction: with one
they also take locks, and throw when a lock is refused. -/
inductive ScanExecutor
  | seqScan
  | indexScan (index : IndexPages) (mode : ScanMode)
  | genericIndexScan (index : GenericIndexPages) (spec : PrefixScanSpec) (fullIndexScan : Bool)
  | bitmapHeapScan (child : BitmapChild)

/-- Whether `FetchPage` finds a frame, for each fetch of a run: the `n`-th fetch of an index,
`AdvanceToNextValid` at a page and slot, `GetTuple` of a tuple the iterator stands at, and
`GetTuple` of the `k`-th RID of an index. -/
structure Frames where
  index : Nat → Bool
  advance : Nat → Nat → Bool
  tuple : RID → Bool
  hit : Nat → Bool

/-- `GetTuple`; a null pointer is taken for a tuple that is not there. -/
def getTuple (heap : HeapFile) (granted : Bool) (rid : RID) : Option Row :=
  if granted then (heap.record rid).map HeapRecord.row else none

/-- `HeapFileIterator` in a page it has fetched, with `left` slots from `slot` on. `Next` throws
where `GetTuple` returns false; `AdvanceToNextValid` goes to the next page when it gets a null
pointer. -/
def scanSlots (heap : HeapFile) (frames : Frames) (pageNo : Nat) (nextPage : Pull Row) :
    Nat → Nat → Pull Row
  | _, 0 => nextPage
  | slot, left + 1 =>
    match heap.record ⟨pageNo, slot⟩ with
    | none => scanSlots heap frames pageNo nextPage (slot + 1) left
    | some _ =>
      match getTuple heap (frames.tuple ⟨pageNo, slot⟩) ⟨pageNo, slot⟩ with
      | none => .thrown
      | some row =>
        .item row
          (if frames.advance pageNo (slot + 1) then
            scanSlots heap frames pageNo nextPage (slot + 1) left
          else nextPage)

/-- `HeapFileIterator` from a page on. -/
def scanPages (heap : HeapFile) (frames : Frames) : Nat → List Nat → Pull Row
  | _, [] => .done
  | pageNo, slotCount :: rest =>
    let nextPage := scanPages heap frames (pageNo + 1) rest
    if frames.advance pageNo 0 then scanSlots heap frames pageNo nextPage 0 slotCount
    else nextPage

/-- Look up RIDs one after the other; those whose tuple is not there are passed over. -/
def lookUp (heap : HeapFile) (frames : Frames) : Nat → Pull RID → Pull Row
  | _, .done => .done
  | _, .thrown => .thrown
  | k, .item rid rest =>
    match getTuple heap (frames.hit k) rid with
    | some row => .item row (lookUp heap frames (k + 1) rest)
    | none => lookUp heap frames (k + 1) rest

def ScanExecutor.rids : ScanExecutor → Option (Reading RID)
  | .seqScan => none
  | .indexScan index mode => some (indexScanRids index mode)
  | .genericIndexScan index spec fullIndexScan =>
    some (genericIndexScanRids index spec fullIndexScan)
  | .bitmapHeapScan child => some child.rids

def ScanExecutor.run (scan : ScanExecutor) (heap : HeapFile) (frames : Frames) : Pull Row :=
  match scan.rids with
  | none => scanPages heap frames 0 heap.slots
  | some rids => lookUp heap frames 0 (rids.pull frames.index 0)

def ScanExecutor.expected (scan : ScanExecutor) (heap : HeapFile) : List Row :=
  match scan.rids with
  | none => heap.scan.map Prod.snd
  | some rids => rids.items.filterMap fun rid => (heap.record rid).map HeapRecord.row

/-- The run throws, or it returns every live tuple that it should. -/
def CompleteOrThrows (scan : ScanExecutor) (heap : HeapFile) (frames : Frames) : Prop :=
  (scan.run heap frames).collect = none ∨
    (scan.run heap frames).collect = some (scan.expected heap)

def Led (heap : HeapFile) (frames : Frames) (rid : RID) : Prop :=
  frames.advance rid.pageNo 0 = true ∧
    ∀ slot < rid.slotNo, (heap.record ⟨rid.pageNo, slot⟩).isSome →
      frames.advance rid.pageNo (slot + 1) = true

/-- No live tuple is passed over for want of a frame, or the scan throws all the same: at a tuple
it is led to and cannot fetch, or while it reads the index. -/
def Sheltered (scan : ScanExecutor) (heap : HeapFile) (frames : Frames) : Prop :=
  match scan.rids with
  | none =>
    (∀ rid r, heap.record rid = some r → Led heap frames rid) ∨
      ∃ rid r, heap.record rid = some r ∧ Led heap frames rid ∧ frames.tuple rid = false
  | some rids =>
    rids.fails = true ∨ (∃ n < rids.fetches, frames.index n = false) ∨
      ∀ k rid r, rids.items[k]? = some rid → heap.record rid = some r → frames.hit k = true

section Iterator

variable {heap : HeapFile} {frames : Frames} {pageNo : Nat}

private def liveRows (heap : HeapFile) (pageNo slot left : Nat) : List Row :=
  (List.range' slot left).filterMap fun slot =>
    (heap.record ⟨pageNo, slot⟩).map HeapRecord.row

private def Entered (heap : HeapFile) (frames : Frames) (pageNo slot : Nat) : Prop :=
  Led heap frames ⟨pageNo, slot⟩

variable {slot left : Nat} {allLed stops : Prop} {pull : Pull Row} {live : List Row}

private theorem Entered.next_dead (entered : Entered heap frames pageNo slot)
    (dead : heap.record ⟨pageNo, slot⟩ = none) : Entered heap frames pageNo (slot + 1) := by
  refine ⟨entered.1, fun s below live => ?_⟩
  rcases Nat.lt_succ_iff_lt_or_eq.mp below with earlier | rfl
  · exact entered.2 s earlier live
  · rw [dead] at live
    cases live

private theorem Entered.next_live (entered : Entered heap frames pageNo slot)
    (granted : frames.advance pageNo (slot + 1) = true) :
    Entered heap frames pageNo (slot + 1) := by
  refine ⟨entered.1, fun s below live => ?_⟩
  rcases Nat.lt_succ_iff_lt_or_eq.mp below with earlier | rfl
  · exact entered.2 s earlier live
  · exact granted

private def LedAll (heap : HeapFile) (frames : Frames) (pageNo slot left : Nat) : Prop :=
  ∀ s r, slot ≤ s → s < slot + left → heap.record ⟨pageNo, s⟩ = some r →
    Led heap frames ⟨pageNo, s⟩

private def Stops (heap : HeapFile) (frames : Frames) (pageNo slot left : Nat) : Prop :=
  ∃ s r, slot ≤ s ∧ s < slot + left ∧ heap.record ⟨pageNo, s⟩ = some r ∧
    Led heap frames ⟨pageNo, s⟩ ∧ frames.tuple ⟨pageNo, s⟩ = false

/-- What comes of live tuples: nothing is returned normally if the iterator stops at one of them,
and else all or fewer, as it is led to all or not. -/
private structure Outcome (pull : Pull Row) (live : List Row) (allLed stops : Prop) : Prop where
  thrown : stops → pull.collect = none
  returned : ¬ stops → ∃ rows, pull.collect = some rows ∧ (allLed → rows = live) ∧
    (¬ allLed → rows.length < live.length)

section

variable (outcome : Outcome pull live allLed stops)

include outcome

private theorem Outcome.congr {allLed' stops' : Prop}
    (sameLed : allLed' ↔ allLed) (sameStops : stops' ↔ stops) :
    Outcome pull live allLed' stops' := by
  rw [propext sameLed, propext sameStops]
  exact outcome

private theorem Outcome.item (row : Row) :
    Outcome (.item row pull) (row :: live) allLed stops where
  thrown isStop := by
    rw [Pull.collect, outcome.thrown isStop]
    rfl
  returned goes := by
    obtain ⟨rows, collected, all, fewer⟩ := outcome.returned goes
    refine ⟨row :: rows, by rw [Pull.collect, collected]; rfl, ?_, ?_⟩
    · intro led
      rw [all led]
    · intro missing
      have less := fewer missing
      rw [List.length_cons, List.length_cons]
      omega

private theorem Outcome.skip (passed : List Row) :
    Outcome pull (passed ++ live) (passed = [] ∧ allLed) stops where
  thrown := outcome.thrown
  returned goes := by
    obtain ⟨rows, collected, all, fewer⟩ := outcome.returned goes
    refine ⟨rows, collected, ?_, ?_⟩
    · rintro ⟨rfl, led⟩
      exact all led
    · intro missing
      rw [List.length_append]
      by_cases led : allLed
      · have some : 0 < passed.length := List.length_pos_iff.mpr fun none => missing ⟨none, led⟩
        rw [all led]
        omega
      · have less := fewer led
        omega

end

private theorem liveRows_dead (dead : heap.record ⟨pageNo, slot⟩ = none) :
    liveRows heap pageNo slot (left + 1) = liveRows heap pageNo (slot + 1) left := by
  simp [liveRows, List.range'_succ, dead]

private theorem liveRows_live {r : HeapRecord} (live : heap.record ⟨pageNo, slot⟩ = some r) :
    liveRows heap pageNo slot (left + 1) = r.row :: liveRows heap pageNo (slot + 1) left := by
  simp [liveRows, List.range'_succ, live]

private theorem liveRows_nil :
    liveRows heap pageNo slot left = [] ↔
      ∀ s, slot ≤ s → s < slot + left → heap.record ⟨pageNo, s⟩ = none := by
  simp only [liveRows, List.filterMap_eq_nil_iff, List.mem_range'_1, Option.map_eq_none_iff]
  exact ⟨fun none s low high => none s ⟨low, high⟩, fun none s within => none s within.1 within.2⟩

private theorem ledAll_succ :
    LedAll heap frames pageNo slot (left + 1) ↔
      (∀ r, heap.record ⟨pageNo, slot⟩ = some r → Led heap frames ⟨pageNo, slot⟩) ∧
        LedAll heap frames pageNo (slot + 1) left := by
  constructor
  · intro led
    exact ⟨fun r => led slot r le_rfl (by omega), fun s r low high => led s r (by omega) (by omega)⟩
  · rintro ⟨here, later⟩ s r low high record
    rcases Nat.eq_or_lt_of_le low with rfl | beyond
    · exact here r record
    · exact later s r beyond (by omega) record

private theorem stops_succ :
    Stops heap frames pageNo slot (left + 1) ↔
      (∃ r, heap.record ⟨pageNo, slot⟩ = some r ∧ Led heap frames ⟨pageNo, slot⟩ ∧
        frames.tuple ⟨pageNo, slot⟩ = false) ∨ Stops heap frames pageNo (slot + 1) left := by
  constructor
  · rintro ⟨s, r, low, high, stop⟩
    rcases Nat.eq_or_lt_of_le low with rfl | beyond
    · exact .inl ⟨r, stop⟩
    · exact .inr ⟨s, r, beyond, by omega, stop⟩
  · rintro (⟨r, stop⟩ | ⟨s, r, low, high, stop⟩)
    · exact ⟨slot, r, le_rfl, by omega, stop⟩
    · exact ⟨s, r, by omega, by omega, stop⟩

private theorem ledAll_lost (left : Nat) (lost : ∀ s, slot ≤ s → ¬ Led heap frames ⟨pageNo, s⟩) :
    LedAll heap frames pageNo slot left ↔ liveRows heap pageNo slot left = [] := by
  rw [liveRows_nil]
  constructor
  · intro all s low high
    exact Option.eq_none_iff_forall_ne_some.mpr fun r record => lost s low (all s r low high record)
  · intro none s r low high record
    rw [none s low high] at record
    cases record

private theorem stops_lost (left : Nat) (lost : ∀ s, slot ≤ s → ¬ Led heap frames ⟨pageNo, s⟩) :
    ¬ Stops heap frames pageNo slot left := by
  rintro ⟨s, r, low, -, -, ledTo, -⟩
  exact lost s low ledTo

private theorem scanSlots_outcome {next : Pull Row} (behind : Outcome next live allLed stops)
    (entered : Entered heap frames pageNo slot) :
    Outcome (scanSlots heap frames pageNo next slot left)
      (liveRows heap pageNo slot left ++ live) (LedAll heap frames pageNo slot left ∧ allLed)
      (Stops heap frames pageNo slot left ∨ stops) := by
  induction left generalizing slot with
  | zero =>
    refine behind.congr ?_ ?_
    · simp only [LedAll, Nat.add_zero, and_iff_right_iff_imp]
      intro _ s r low high
      omega
    · simp only [Stops, Nat.add_zero, or_iff_right_iff_imp]
      rintro ⟨s, r, low, high, -⟩
      omega
  | succ left ih =>
    cases record : heap.record ⟨pageNo, slot⟩ with
    | none =>
      simp only [scanSlots, record, liveRows_dead record]
      refine (ih (entered.next_dead record)).congr ?_ ?_
      · simp [ledAll_succ, record]
      · simp [stops_succ, record]
    | some r =>
      have led : Led heap frames ⟨pageNo, slot⟩ := entered
      rw [liveRows_live record]
      cases found : frames.tuple ⟨pageNo, slot⟩ with
      | false =>
        have stop : Stops heap frames pageNo slot (left + 1) :=
          stops_succ.mpr (.inl ⟨r, record, led, found⟩)
        simp only [scanSlots, record, getTuple, found, Bool.false_eq_true, if_false]
        exact ⟨fun _ => rfl, fun goes => absurd (.inl stop) goes⟩
      | true =>
        simp only [scanSlots, record, getTuple, found, if_true, map_some]
        cases granted : frames.advance pageNo (slot + 1) with
        | true =>
          have later := (ih (entered.next_live granted)).item r.row
          refine later.congr ?_ ?_
          · simp [ledAll_succ, led]
          · simp [stops_succ, found]
        | false =>
          have lost (s : Nat) (beyond : slot + 1 ≤ s) :
              ¬ Led heap frames ⟨pageNo, s⟩ := by
            intro ledTo
            have needed := ledTo.2 slot beyond (by simp [record])
            rw [granted] at needed
            cases needed
          have passed := (behind.skip (liveRows heap pageNo (slot + 1) left)).item r.row
          have none_led := ledAll_lost left lost
          have no_stop := stops_lost left lost
          refine passed.congr ?_ ?_
          · simp [ledAll_succ, led, none_led]
          · simp [stops_succ, found, no_stop]

private def livePages (heap : HeapFile) : Nat → List Nat → List Row
  | _, [] => []
  | pageNo, slotCount :: rest =>
    liveRows heap pageNo 0 slotCount ++ livePages heap (pageNo + 1) rest

private theorem scanPages_outcome (rest : List Nat) (pageNo : Nat) :
    Outcome (scanPages heap frames pageNo rest) (livePages heap pageNo rest)
      (∀ i slotCount, rest[i]? = some slotCount → LedAll heap frames (pageNo + i) 0 slotCount)
      (∃ i slotCount, rest[i]? = some slotCount ∧ Stops heap frames (pageNo + i) 0 slotCount) := by
  induction rest generalizing pageNo with
  | nil =>
    refine ⟨?_, fun _ => ⟨[], rfl, fun _ => rfl, fun missing => ?_⟩⟩
    · rintro ⟨i, slotCount, found, -⟩
      simp at found
    · exact absurd (fun i slotCount found => by simp at found) missing
  | cons slotCount rest ih =>
    have behind := ih (pageNo + 1)
    have next (i : Nat) : pageNo + 1 + i = pageNo + (i + 1) := by omega
    have ledAll : (∀ i n, (slotCount :: rest)[i]? = some n →
          LedAll heap frames (pageNo + i) 0 n) ↔
        LedAll heap frames pageNo 0 slotCount ∧
          ∀ i n, rest[i]? = some n → LedAll heap frames (pageNo + 1 + i) 0 n := by
      constructor
      · intro all
        exact ⟨all 0 slotCount rfl, fun i n found => by rw [next]; exact all (i + 1) n found⟩
      · rintro ⟨here, later⟩ i n found
        cases i with
        | zero =>
          obtain rfl := Option.some.inj found
          exact here
        | succ i =>
          rw [← next]
          exact later i n found
    have stops : (∃ i n, (slotCount :: rest)[i]? = some n ∧
          Stops heap frames (pageNo + i) 0 n) ↔
        Stops heap frames pageNo 0 slotCount ∨
          ∃ i n, rest[i]? = some n ∧ Stops heap frames (pageNo + 1 + i) 0 n := by
      constructor
      · rintro ⟨i, n, found, stop⟩
        cases i with
        | zero =>
          obtain rfl := Option.some.inj found
          exact .inl stop
        | succ i => exact .inr ⟨i, n, found, by rw [next]; exact stop⟩
      · rintro (stop | ⟨i, n, found, stop⟩)
        · exact ⟨0, slotCount, rfl, stop⟩
        · exact ⟨i + 1, n, found, by rw [← next]; exact stop⟩
    unfold scanPages livePages
    cases granted : frames.advance pageNo 0 with
    | true =>
      have entered : Entered heap frames pageNo 0 :=
        ⟨granted, fun s below => absurd below (Nat.not_lt_zero s)⟩
      exact (scanSlots_outcome behind entered).congr ledAll stops
    | false =>
      have lost (s : Nat) (_ : 0 ≤ s) : ¬ Led heap frames ⟨pageNo, s⟩ := by
        intro ledTo
        rw [ledTo.1] at granted
        cases granted
      have none_led := ledAll_lost slotCount lost
      have no_stop := stops_lost slotCount lost
      simp only [Bool.false_eq_true, if_false]
      refine (behind.skip (liveRows heap pageNo 0 slotCount)).congr ?_ ?_
      · rw [ledAll, none_led]
      · rw [stops]
        simp [no_stop]

private theorem scan_eq_livePages (heap : HeapFile) :
    heap.scan.map Prod.snd = livePages heap 0 heap.slots := by
  have pages (rest : List Nat) (pageNo : Nat) (here : heap.slots.drop pageNo = rest) :
      livePages heap pageNo rest = (List.range' pageNo rest.length).flatMap fun pageNo =>
        (List.range ((heap.slots[pageNo]?).getD 0)).filterMap fun slotNo =>
          (heap.record ⟨pageNo, slotNo⟩).map HeapRecord.row := by
    induction rest generalizing pageNo with
    | nil => rfl
    | cons slotCount rest ih =>
      have own : heap.slots[pageNo]? = some slotCount := by
        rw [← List.head?_drop, here]
        rfl
      have later : heap.slots.drop (pageNo + 1) = rest := by
        rw [← List.tail_drop, here]
        rfl
      rw [livePages, ih _ later, List.length_cons, List.range'_succ, List.flatMap_cons, own,
        liveRows, List.range_eq_range']
      rfl
  rw [pages heap.slots 0 rfl, ← List.range_eq_range', HeapFile.scan, HeapFile.records]
  simp [List.map_flatMap, List.map_filterMap, Option.map_map, Function.comp_def]

end Iterator

section Claims

variable {heap : HeapFile} {frames : Frames}

private theorem seqScan_iff :
    CompleteOrThrows .seqScan heap frames ↔ Sheltered .seqScan heap frames := by
  have outcome := @scanPages_outcome heap frames heap.slots 0
  have inPage {rid : RID} {r : HeapRecord} (record : heap.record rid = some r) :
      ∃ n, heap.slots[rid.pageNo]? = some n ∧ rid.slotNo < n := heap.bounded rid r record
  have led : (∀ i n, heap.slots[i]? = some n → LedAll heap frames (0 + i) 0 n) ↔
      ∀ rid r, heap.record rid = some r → Led heap frames rid := by
    constructor
    · intro all rid r record
      obtain ⟨n, found, below⟩ := inPage record
      have here := all rid.pageNo n found rid.slotNo r (Nat.zero_le _) (by omega)
      rw [Nat.zero_add] at here
      exact here record
    · intro all i n _ s r _ _ record
      exact all _ r record
  have stops : (∃ i n, heap.slots[i]? = some n ∧ Stops heap frames (0 + i) 0 n) ↔
      ∃ rid r, heap.record rid = some r ∧ Led heap frames rid ∧ frames.tuple rid = false := by
    constructor
    · rintro ⟨i, n, -, s, r, -, -, record, ledTo, denied⟩
      exact ⟨_, r, record, ledTo, denied⟩
    · rintro ⟨rid, r, record, ledTo, denied⟩
      obtain ⟨n, found, below⟩ := inPage record
      refine ⟨rid.pageNo, n, found, rid.slotNo, r, Nat.zero_le _, by omega, ?_⟩
      rw [Nat.zero_add]
      exact ⟨record, ledTo, denied⟩
  rw [led, stops, ← scan_eq_livePages] at outcome
  change (scanPages heap frames 0 heap.slots).collect = none ∨
    (scanPages heap frames 0 heap.slots).collect = some (heap.scan.map Prod.snd) ↔ _
  by_cases stop : ∃ rid r, heap.record rid = some r ∧ Led heap frames rid ∧ frames.tuple rid = false
  · exact ⟨fun _ => .inr stop, fun _ => .inl (outcome.thrown stop)⟩
  · obtain ⟨rows, collected, all, fewer⟩ := outcome.returned stop
    rw [collected]
    constructor
    · rintro (none | same)
      · cases none
      · left
        by_contra missing
        have less := fewer missing
        rw [Option.some.inj same] at less
        omega
    · rintro (allLed | stop')
      · exact .inr (congrArg some (all allLed))
      · exact absurd stop' stop

private theorem lookUp_collect (pull : Pull RID) (k : Nat) :
    (pull.collect = none → (lookUp heap frames k pull).collect = none) ∧
      ∀ rids, pull.collect = some rids →
        ∃ rows, (lookUp heap frames k pull).collect = some rows ∧
          ((∀ i rid r, rids[i]? = some rid → heap.record rid = some r →
              frames.hit (k + i) = true) →
            rows = rids.filterMap fun rid => (heap.record rid).map HeapRecord.row) ∧
          ((¬ ∀ i rid r, rids[i]? = some rid → heap.record rid = some r →
              frames.hit (k + i) = true) →
            rows.length < (rids.filterMap fun rid =>
              (heap.record rid).map HeapRecord.row).length) := by
  induction pull generalizing k with
  | done =>
    refine ⟨fun thrown => (by cases thrown), fun rids collected => ?_⟩
    cases collected
    exact ⟨[], rfl, fun _ => rfl, fun missing => absurd (by simp) missing⟩
  | thrown => exact ⟨fun _ => rfl, fun rids collected => by cases collected⟩
  | item rid rest ih =>
    obtain ⟨thrown, found⟩ := ih (k + 1)
    have next (i : Nat) : k + 1 + i = k + (i + 1) := by omega
    have all (rids : List RID) : (∀ i rid' r, (rid :: rids)[i]? = some rid' →
          heap.record rid' = some r → frames.hit (k + i) = true) ↔
        (∀ r, heap.record rid = some r → frames.hit k = true) ∧
          ∀ i rid' r, rids[i]? = some rid' → heap.record rid' = some r →
            frames.hit (k + 1 + i) = true := by
      constructor
      · intro granted
        exact ⟨fun r => granted 0 rid r rfl, fun i rid' r is => by
          rw [next]
          exact granted (i + 1) rid' r is⟩
      · rintro ⟨here, later⟩ i rid' r is record
        cases i with
        | zero =>
          obtain rfl := Option.some.inj is
          exact here r record
        | succ i =>
          rw [← next]
          exact later i rid' r is record
    have collects {rids : List RID} (collected : (Pull.item rid rest).collect = some rids) :
        ∃ others, rest.collect = some others ∧ rids = rid :: others := by
      obtain ⟨others, is, same⟩ := Option.map_eq_some_iff.mp collected
      exact ⟨others, is, same.symm⟩
    have breaks (fails : (Pull.item rid rest).collect = none) : rest.collect = none :=
      Option.map_eq_none_iff.mp fails
    cases record : heap.record rid with
    | none =>
      have passed : lookUp heap frames k (.item rid rest) = lookUp heap frames (k + 1) rest := by
        simp [lookUp, getTuple, record]
      rw [passed]
      refine ⟨fun fails => thrown (breaks fails), fun rids collected => ?_⟩
      obtain ⟨others, is, rfl⟩ := collects collected
      obtain ⟨rows, shown, complete, fewer⟩ := found others is
      refine ⟨rows, shown, ?_⟩
      rw [all others]
      simpa [record] using And.intro complete fewer
    | some r =>
      cases granted : frames.hit k with
      | true =>
        have taken : lookUp heap frames k (.item rid rest) =
            .item r.row (lookUp heap frames (k + 1) rest) := by
          simp [lookUp, getTuple, record, granted]
        rw [taken]
        refine ⟨fun fails => ?_, fun rids collected => ?_⟩
        · rw [Pull.collect, thrown (breaks fails)]
          rfl
        · obtain ⟨others, is, rfl⟩ := collects collected
          obtain ⟨rows, shown, complete, fewer⟩ := found others is
          refine ⟨r.row :: rows, by rw [Pull.collect, shown]; rfl, ?_⟩
          rw [all others]
          simpa [record, granted] using And.intro complete fewer
      | false =>
        have passed : lookUp heap frames k (.item rid rest) =
            lookUp heap frames (k + 1) rest := by
          simp [lookUp, getTuple, granted]
        rw [passed]
        refine ⟨fun fails => thrown (breaks fails), fun rids collected => ?_⟩
        obtain ⟨others, is, rfl⟩ := collects collected
        obtain ⟨rows, shown, complete, fewer⟩ := found others is
        refine ⟨rows, shown, fun allGranted => ?_, fun _ => ?_⟩
        · have here := allGranted 0 rid r rfl record
          rw [Nat.add_zero, granted] at here
          cases here
        · rw [List.filterMap_cons, record, map_some, List.length_cons]
          by_cases rest' : ∀ i rid' r, others[i]? = some rid' →
              heap.record rid' = some r → frames.hit (k + 1 + i) = true
          · rw [complete rest']
            omega
          · have less := fewer rest'
            omega

private theorem indexed_iff {scan : ScanExecutor} {rids : Reading RID}
    (uses : scan.rids = some rids) :
    CompleteOrThrows scan heap frames ↔ Sheltered scan heap frames := by
  obtain ⟨granted, denied⟩ := Reading.collect_pull frames.index 0 rids
  obtain ⟨thrown, found⟩ := lookUp_collect
    (rids.pull frames.index 0) 0
  unfold CompleteOrThrows Sheltered ScanExecutor.run ScanExecutor.expected
  rw [uses]
  dsimp only
  have breaks : ¬ rids.Completes frames.index 0 ↔
      rids.fails = true ∨ ∃ n < rids.fetches, frames.index n = false := by
    simp only [Reading.Completes, Nat.zero_add, not_and_or, not_forall, Bool.not_eq_false,
      Bool.not_eq_true, exists_prop]
  rw [← or_assoc, ← breaks]
  by_cases completes : rids.Completes frames.index 0
  · obtain ⟨rows, shown, complete, fewer⟩ := found _ (granted completes)
    simp only [Nat.zero_add] at complete fewer
    rw [shown]
    constructor
    · rintro (none | same)
      · cases none
      · right
        by_contra missing
        have less := fewer missing
        rw [Option.some.inj same] at less
        omega
    · rintro (broken | all)
      · exact absurd completes broken
      · exact .inr (congrArg some (complete all))
  · exact ⟨fun _ => .inl completes, fun _ => .inl (thrown (denied completes))⟩

theorem completeOrThrows_iff_sheltered (scan : ScanExecutor) (heap : HeapFile)
    (frames : Frames) : CompleteOrThrows scan heap frames ↔ Sheltered scan heap frames := by
  cases scan with
  | seqScan => exact seqScan_iff
  | indexScan index mode => exact indexed_iff rfl
  | genericIndexScan index spec fullIndexScan => exact indexed_iff rfl
  | bitmapHeapScan child => exact indexed_iff rfl

def oneTuple : HeapFile := HeapFile.empty.put ⟨0, 0⟩ ⟨[.int32 7], 17⟩

/-- A pool that has no frame for the page when the iterator first fetches it. -/
def pinnedAtFirst : Frames := ⟨fun _ => true, fun _ _ => false, fun _ => true, fun _ => true⟩

/-- The sequential scan ends normally without the only tuple of the table. -/
theorem completeOrThrows_fails_pinnedAtFirst :
    (ScanExecutor.seqScan.run oneTuple pinnedAtFirst).collect = some [] ∧
      ScanExecutor.seqScan.expected oneTuple = [[.int32 7]] ∧
      ¬ CompleteOrThrows .seqScan oneTuple pinnedAtFirst := by
  have ends : (ScanExecutor.seqScan.run oneTuple pinnedAtFirst).collect = some [] := rfl
  have expected : ScanExecutor.seqScan.expected oneTuple = [[.int32 7]] := by decide
  refine ⟨ends, expected, ?_⟩
  rintro (thrown | complete)
  · rw [ends] at thrown
    cases thrown
  · rw [ends, expected] at complete
    cases complete

end Claims

end GraniteDb.Execution.ExhaustedPool
