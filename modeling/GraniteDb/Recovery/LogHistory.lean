/- The logs that transactions, rollbacks, checkpoints and crashes can leave. -/

import GraniteDb.Recovery.RecoveryManager

namespace GraniteDb.Recovery.LogHistory

open Common.Types Recovery.WalRecords Recovery.RecordLog Recovery.RecoveryManager

variable {β : Type}

/-- `q` is a record of transaction `t`. -/
structure Own (t : Nat) (q : Rec β) : Prop where
  ofTxn : isTxnRecord q.type = true
  txn : q.txnId = t

/-- An LSN that is zero or names a record of transaction `t`. -/
def Linked (records : List (Rec β)) (t lsn : Nat) : Prop :=
  lsn = 0 ∨ ∃ q ∈ records, Own t q ∧ q.lsn = lsn

structure Links (before : List (Rec β)) (rec : Rec β) : Prop where
  prev : isTxnRecord rec.type = true → Linked before rec.txnId rec.prevLsn
  undoNext : rec.type = .clr → Linked before rec.txnId rec.undoNextLsn
  image : isUndoablePageRecord rec.type = true → rec.beforeImage.isSome = true
  active : rec.type = .endCheckpoint → ∀ tx ∈ rec.activeTxns, Linked before tx.txnId tx.lastLsn

structure Chained (records : List (Rec β)) : Prop where
  placed : Placed records
  links : ∀ before rec after, records = before ++ rec :: after → Links before rec

def txnRecord (type : LogRecordType) (t prevLsn : Nat) : Rec β :=
  { LogRecord.blank none type with txnId := t, prevLsn := prevLsn }

def checkpointRecord (type : LogRecordType) (prevLsn : Nat)
    (activeTxns : List CheckpointTxnEntry) (dirtyPages : List DirtyPageEntry) : Rec β :=
  { LogRecord.blank none type with
    prevLsn := prevLsn, activeTxns := activeTxns, dirtyPages := dirtyPages }

/-- The logs the system writes. A transaction's `last_lsn` may be read before another record of it
is appended, so a link may skip records; a transaction id may return after a crash. -/
inductive Written : List (Rec β) → Prop
  | created : Written []
  | begin {log} (written : Written log) (t : Nat) :
      Written (append log (txnRecord .begin t 0))
  | update {log} (written : Written log) {type : LogRecordType} {t prevLsn : Nat}
      (undoable : isUndoablePageRecord type = true) (linked : Linked log t prevLsn)
      (pageId : PageId) (before after : β) :
      Written (append log
        (makePageImageLogRecord none type t prevLsn pageId (some before) (some after)))
  | compensate {log} (written : Written log) {rec : Rec β} {prevLsn : Nat} (member : rec ∈ log)
      (undoable : isUndoablePageRecord rec.type = true)
      (linked : Linked log rec.txnId prevLsn) :
      Written (append log (makeClrPageUndoRecord none rec.txnId prevLsn rec.prevLsn rec.pageId
        rec.beforeImage))
  | commit {log} (written : Written log) {t prevLsn : Nat} (linked : Linked log t prevLsn) :
      Written (append log (txnRecord .commit t prevLsn))
  | abort {log} (written : Written log) {t prevLsn : Nat} (linked : Linked log t prevLsn) :
      Written (append log (txnRecord .abort t prevLsn))
  | beginCheckpoint {log} (written : Written log) :
      Written (append log (checkpointRecord .beginCheckpoint 0 [] []))
  | endCheckpoint {log} (written : Written log) (beginLsn : Nat)
      {activeTxns : List CheckpointTxnEntry} (dirtyPages : List DirtyPageEntry)
      (linked : ∀ tx ∈ activeTxns, Linked log tx.txnId tx.lastLsn) :
      Written (append log (checkpointRecord .endCheckpoint beginLsn activeTxns dirtyPages))
  /-- A crash: the records past some point did not reach the file. -/
  | crash {log} (written : Written log) (kept : Nat) : Written (log.take kept)

section Links

variable {t prevLsn : Nat} {records : List (Rec β)} {rec : Rec β} {type : LogRecordType}

theorem Linked.mono {records' : List (Rec β)} {lsn : Nat} (linked : Linked records t lsn)
    (subset : ∀ q ∈ records, q ∈ records') :
    Linked records' t lsn := by
  rcases linked with zero | ⟨q, member, own, at_lsn⟩
  · exact .inl zero
  · exact .inr ⟨q, subset q member, own, at_lsn⟩

theorem Linked.lt_end {lsn : Nat} (linked : Linked records t lsn) (placed : Placed records) :
    lsn < endLsn records := by
  rcases linked with zero | ⟨q, member, _, at_lsn⟩
  · have bound := masterRecordSize_le_endLsn records
    have size : 0 < LogManager.masterRecordSize := by decide
    omega
  · rw [← at_lsn]
    exact placed.lsn_lt_end member

theorem chained_nil : Chained ([] : List (Rec β)) :=
  ⟨placed_nil, fun before rec after split => absurd split (by simp)⟩

theorem Chained.left {first second : List (Rec β)} (chained : Chained (first ++ second)) :
    Chained first := by
  refine ⟨placed_left chained.placed, fun before rec after split => ?_⟩
  exact chained.links before rec (after ++ second)
    (by rw [split, List.append_assoc, List.cons_append])

theorem Chained.take (chained : Chained records) (n : Nat) : Chained (records.take n) := by
  rw [← List.take_append_drop n records] at chained
  exact chained.left

theorem Chained.append (chained : Chained records) (links : Links records rec) :
    Chained (RecordLog.append records rec) := by
  refine ⟨placed_append chained.placed rec, fun before r after split => ?_⟩
  unfold RecordLog.append at split
  rcases List.append_eq_append_iff.mp split with ⟨middle, left, right⟩ | ⟨middle, left, right⟩
  · cases middle with
    | nil =>
      simp only [List.append_nil, List.nil_append, List.cons.injEq] at left right
      rw [left, ← right.1]
      exact ⟨links.prev, links.undoNext, links.image, links.active⟩
    | cons head tail => simp at right
  · cases middle with
    | nil =>
      simp only [List.append_nil, List.nil_append, List.cons.injEq] at left right
      rw [← left, right.1]
      exact ⟨links.prev, links.undoNext, links.image, links.active⟩
    | cons head tail =>
      simp only [List.cons_append, List.cons.injEq] at right
      rw [right.1]
      exact chained.links before head tail left

theorem Chained.links_last (chained : Chained (records ++ [rec])) : Links records rec :=
  chained.links records rec [] rfl

theorem links_txnRecord (ends : type = .begin ∨ type = .commit ∨ type = .abort)
    (linked : Linked records t prevLsn) : Links records (txnRecord type t prevLsn) := by
  refine ⟨fun _ => linked, fun isClr => ?_, fun undoable => ?_, fun isEnd => ?_⟩
  · have same : type = .clr := isClr
    simp [same] at ends
  · have same : isUndoablePageRecord type = true := undoable
    rcases ends with h | h | h <;> simp [h, isUndoablePageRecord] at same
  · have same : type = .endCheckpoint := isEnd
    simp [same] at ends

theorem links_makePageImageLogRecord {pageId : PageId} {before after : β}
    (undoable : isUndoablePageRecord type = true) (linked : Linked records t prevLsn) :
    Links records
      (makePageImageLogRecord none type t prevLsn pageId (some before) (some after)) := by
  refine ⟨fun _ => linked, fun isClr => ?_, fun _ => rfl, fun isEnd => ?_⟩
  · have same : type = .clr := isClr
    simp [same, isUndoablePageRecord] at undoable
  · have same : type = .endCheckpoint := isEnd
    simp [same, isUndoablePageRecord] at undoable

theorem links_makeClrPageUndoRecord {undoNextLsn : Nat} {pageId : PageId} {image : Option β}
    (linked : Linked records t prevLsn) (next : Linked records t undoNextLsn) :
    Links records (makeClrPageUndoRecord none t prevLsn undoNextLsn pageId image) := by
  refine ⟨fun _ => linked, fun _ => next, fun undoable => ?_, fun isEnd => ?_⟩
  · simp [makeClrPageUndoRecord, LogRecord.blank, isUndoablePageRecord] at undoable
  · simp [makeClrPageUndoRecord, LogRecord.blank] at isEnd

theorem links_checkpointRecord {activeTxns : List CheckpointTxnEntry}
    {dirtyPages : List DirtyPageEntry} (ends : type = .beginCheckpoint ∨ type = .endCheckpoint)
    (linked : ∀ tx ∈ activeTxns, Linked records tx.txnId tx.lastLsn) :
    Links records (checkpointRecord type prevLsn activeTxns dirtyPages) := by
  refine ⟨fun ofTxn => ?_, fun isClr => ?_, fun undoable => ?_, fun _ => linked⟩
  · have same : isTxnRecord type = true := ofTxn
    rcases ends with h | h <;>
      simp [h, isTxnRecord, isPageUpdateRecord, isUndoablePageRecord] at same
  · have same : type = .clr := isClr
    simp [same] at ends
  · have same : isUndoablePageRecord type = true := undoable
    rcases ends with h | h <;> simp [h, isUndoablePageRecord] at same

theorem Chained.linked_prev (chained : Chained records) (member : rec ∈ records)
    (ofTxn : isTxnRecord rec.type = true) :
    Linked records rec.txnId rec.prevLsn := by
  obtain ⟨before, after, split⟩ := List.append_of_mem member
  have linked := (chained.links before rec after split).prev ofTxn
  rw [split]
  exact linked.mono fun q here => List.mem_append_left _ here

theorem isTxnRecord_of_undoable (undoable : isUndoablePageRecord type = true) :
    isTxnRecord type = true := by
  simp [isTxnRecord, isPageUpdateRecord, undoable]

end Links

theorem Written.chained {log : List (Rec β)} (written : Written log) : Chained log := by
  induction written with
  | created => exact chained_nil
  | begin _ t ih => exact ih.append (links_txnRecord (.inl rfl) (.inl rfl))
  | update _ undoable linked pageId before after ih =>
    exact ih.append (links_makePageImageLogRecord undoable linked)
  | compensate _ member undoable linked ih =>
    have next := ih.linked_prev member (isTxnRecord_of_undoable undoable)
    exact ih.append (links_makeClrPageUndoRecord linked next)
  | commit _ linked ih => exact ih.append (links_txnRecord (.inr (.inl rfl)) linked)
  | abort _ linked ih => exact ih.append (links_txnRecord (.inr (.inr rfl)) linked)
  | beginCheckpoint _ ih => exact ih.append (links_checkpointRecord (.inl rfl) (by simp))
  | endCheckpoint _ beginLsn dirtyPages linked ih =>
    exact ih.append (links_checkpointRecord (.inr rfl) linked)
  | crash _ kept ih => exact ih.take kept

end GraniteDb.Recovery.LogHistory
