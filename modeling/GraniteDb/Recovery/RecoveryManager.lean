/- Analysis, redo and undo of restart recovery, as functions of the surviving log. -/

import GraniteDb.Buffer.BufferPoolManager
import GraniteDb.Recovery.RecordLog
import Mathlib.Data.List.MinMax

namespace GraniteDb.Recovery.RecoveryManager

open Common.Types Recovery.WalRecords Recovery.RecordLog
open Buffer.BufferPoolManager (DirtyPageTable markDirty)

variable {β : Type}

structure TxnTableEntry where
  state : TransactionState
  lastLsn : Nat
  deriving DecidableEq

abbrev TxnTable := AList fun _ : Nat => TxnTableEntry

def isTxnEndState : TransactionState → Bool
  | .committed | .aborted => true
  | _ => false

def isLoserState : TransactionState → Bool
  | .active | .waiting | .aborting => true
  | _ => false

/-- `txn_table_[txn_id]`, which inserts a default entry when there is none. -/
def entryOf (txns : TxnTable) (txnId : Nat) : TxnTableEntry :=
  (txns.lookup txnId).getD ⟨.active, 0⟩

structure Tables where
  txns : TxnTable
  dirtyPages : DirtyPageTable

/-- The entry after `Analysis` has seen state `state` and LSN `lsn` for a transaction that
may already have ended. -/
def TxnTableEntry.observe (entry : TxnTableEntry) (state : TransactionState) (lsn : Nat) :
    TxnTableEntry :=
  { state := if isTxnEndState entry.state then entry.state else state
    lastLsn := max entry.lastLsn lsn }

def observeTxn (txns : TxnTable) (tx : CheckpointTxnEntry) : TxnTable :=
  txns.insert tx.txnId ((entryOf txns tx.txnId).observe tx.state tx.lastLsn)

def observePage (dirtyPages : DirtyPageTable) (dp : DirtyPageEntry) : DirtyPageTable :=
  markDirty dirtyPages dp.pageId dp.recLsn

/-- The `switch` of `Analysis`. -/
def analysisStep (tables : Tables) (rec : Rec β) : Tables :=
  match rec.type with
  | .begin => { tables with txns := tables.txns.insert rec.txnId ⟨.active, rec.lsn⟩ }
  | .commit => { tables with txns := tables.txns.insert rec.txnId ⟨.committed, rec.lsn⟩ }
  | .abort => { tables with txns := tables.txns.insert rec.txnId ⟨.aborted, rec.lsn⟩ }
  | .endCheckpoint =>
    { txns := rec.activeTxns.foldl observeTxn tables.txns
      dirtyPages := rec.dirtyPages.foldl observePage tables.dirtyPages }
  | .beginCheckpoint | .invalid | .unnamed _ => tables
  | .heapInsert | .heapDelete | .heapUpdate | .btreeInsert | .btreeDelete | .btreePageSplit
  | .btreeRebalance | .btreeMerge | .btreeMetaUpdate | .clr =>
    { txns := observeTxn tables.txns ⟨rec.txnId, .active, rec.lsn⟩
      dirtyPages :=
        if rec.hasPage then markDirty tables.dirtyPages rec.pageId rec.lsn
        else tables.dirtyPages }

/-- A record that `Analysis` attributes to its own transaction. -/
def isTxnRecord (type : LogRecordType) : Bool :=
  type == .begin || type == .commit || type == .abort || isPageUpdateRecord type

/-- The records `Analysis` looks at. -/
def scanned (master : Nat) (records : List (Rec β)) : List (Rec β) :=
  records.filter fun rec => !(master != 0 && rec.lsn < master)

/-- `Analysis`: with a master record, everything before it is skipped. -/
def analysis (master : Nat) (records : List (Rec β)) : Tables :=
  (scanned master records).foldl analysisStep ⟨∅, ∅⟩

def shouldRedoRecord (dirtyPages : DirtyPageTable) (pages : PageId → Page β) (rec : Rec β) :
    Bool :=
  isPageUpdateRecord rec.type && rec.hasPage && rec.afterImage.isSome &&
    match dirtyPages.lookup rec.pageId with
    | none => false
    | some recLsn => !(rec.lsn < recLsn) && (pages rec.pageId).lsn < rec.lsn

/-- `ApplyImage`; an image that is not a whole page is refused. -/
def applyImage (pages : PageId → Page β) (pageId : PageId) (image : Option β) (lsn : Nat) :
    Option (PageId → Page β) :=
  image.map fun body => Function.update pages pageId ⟨lsn, body⟩

/-- One round of the loop of `Redo`. Only a record with an image passes the test. -/
def redoStep (redoStart : Nat) (dirtyPages : DirtyPageTable) (pages : PageId → Page β)
    (rec : Rec β) : PageId → Page β :=
  if rec.lsn < redoStart then pages
  else if shouldRedoRecord dirtyPages pages rec then
    (applyImage pages rec.pageId rec.afterImage rec.lsn).getD pages
  else pages

/-- The smallest `recLSN`, starting from the largest 64-bit value. -/
def redoStart (dirtyPages : DirtyPageTable) : Nat :=
  dirtyPages.entries.foldl (fun low entry => min low entry.2) (2 ^ 64 - 1)

def redo (dirtyPages : DirtyPageTable) (records : List (Rec β)) (pages : PageId → Page β) :
    PageId → Page β :=
  if dirtyPages.entries = [] then pages
  else records.foldl (redoStep (redoStart dirtyPages) dirtyPages) pages

structure HeapItem where
  lsn : Nat
  txnId : Nat
  deriving DecidableEq

structure UndoState (β : Type) where
  log : List (Rec β)
  txns : TxnTable
  pages : PageId → Page β
  queue : List HeapItem

def finishAbortingTxn (s : UndoState β) (txnId prevLsn : Nat) : UndoState β :=
  { s with
    log := append s.log { LogRecord.blank none .abort with txnId := txnId, prevLsn := prevLsn }
    txns := s.txns.insert txnId ⟨.aborted, endLsn s.log⟩ }

/-- `UndoRecord`: the compensation record is logged before the image is applied. -/
def undoRecord (s : UndoState β) (rec : Rec β) (txnId : Nat) (entry : TxnTableEntry) :
    Except (UndoState β) (UndoState β) :=
  let logged : UndoState β :=
    { s with
      log := append s.log
        (makeClrPageUndoRecord none txnId entry.lastLsn rec.prevLsn rec.pageId rec.beforeImage)
      txns := s.txns.insert txnId { entry with lastLsn := endLsn s.log } }
  match applyImage s.pages rec.pageId rec.beforeImage (endLsn s.log) with
  | none => .error logged
  | some pages => .ok { logged with pages := pages }

def push (s : UndoState β) (lsn txnId : Nat) : UndoState β :=
  { s with queue := ⟨lsn, txnId⟩ :: s.queue }

/-- The rest of a round that steps to `next`, or ends the transaction where there is none. -/
def stepOrFinish (s : UndoState β) (txnId next : Nat) : UndoState β :=
  if next ≠ 0 then push s next txnId
  else finishAbortingTxn s txnId (entryOf s.txns txnId).lastLsn

/-- One round of the loop of `Undo`, on an item that has been popped. -/
def undoStep (all : List (Rec β)) (s : UndoState β) (item : HeapItem) :
    Except (UndoState β) (UndoState β) :=
  match s.txns.lookup item.txnId, findRecord all item.lsn with
  | none, _ => .ok s
  | some _, none => .ok s
  | some entry, some rec =>
    if rec.type = .clr then
      if rec.undoNextLsn ≠ 0 then .ok (push s rec.undoNextLsn item.txnId)
      else .ok (finishAbortingTxn s item.txnId rec.lsn)
    else if rec.type = .begin then .ok (finishAbortingTxn s item.txnId rec.lsn)
    else if isUndoablePageRecord rec.type && rec.hasPage then do
      let undone ← undoRecord s rec item.txnId entry
      .ok (stepOrFinish undone item.txnId rec.prevLsn)
    else .ok (stepOrFinish s item.txnId rec.prevLsn)

def top (queue : List HeapItem) : Option HeapItem := queue.argmax HeapItem.lsn

inductive Outcome (σ : Type)
  | done (s : σ)
  | thrown (s : σ)
  | running (s : σ)

def Outcome.state {σ : Type} : Outcome σ → σ
  | .done s | .thrown s | .running s => s

/-- The loop of `Undo`, for at most `fuel` rounds. -/
def undoLoop (all : List (Rec β)) : Nat → UndoState β → Outcome (UndoState β)
  | 0, s => if s.queue = [] then .done s else .running s
  | fuel + 1, s =>
    match top s.queue with
    | none => .done s
    | some item =>
      match undoStep all { s with queue := s.queue.erase item } item with
      | .error failed => .thrown failed
      | .ok next => undoLoop all fuel next

/-- The items `Undo` starts from: every loser with its last LSN. -/
def losers (txns : TxnTable) : List HeapItem :=
  txns.entries.filterMap fun entry =>
    if isLoserState entry.2.state && entry.2.lastLsn != 0 then some ⟨entry.2.lastLsn, entry.1⟩
    else none

/-- `Undo`. Each chain of LSNs falls, so no transaction takes more rounds than there are
records. -/
def undo (all : List (Rec β)) (txns : TxnTable) (pages : PageId → Page β) :
    Outcome (UndoState β) :=
  undoLoop all ((losers txns).length * (all.length + 1)) ⟨all, txns, pages, losers txns⟩

/-- `Recover`, from the log that survived, its master record and the pages on disk. -/
def recover (master : Nat) (all : List (Rec β)) (disk : PageId → Page β) :
    Outcome (UndoState β) :=
  undo all (analysis master all).txns (redo (analysis master all).dirtyPages all disk)

end GraniteDb.Recovery.RecoveryManager
