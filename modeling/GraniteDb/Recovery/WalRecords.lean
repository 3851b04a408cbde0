/- Log records, their byte encoding, and the decoder used when the log is read. -/

import GraniteDb.Common.Types

namespace GraniteDb.Recovery.WalRecords

open Common.Types

/-- `LogRecordType`, an enumeration over one byte. A byte without an enumerator is
accepted by the decoder and matches no case of any later `switch`. -/
inductive LogRecordType
  | invalid
  | begin
  | commit
  | abort
  | heapInsert
  | heapDelete
  | heapUpdate
  | btreeInsert
  | btreeDelete
  | btreePageSplit
  | btreeRebalance
  | btreeMerge
  | btreeMetaUpdate
  | beginCheckpoint
  | endCheckpoint
  | clr
  | unnamed (code : Fin 240)
  deriving DecidableEq

structure CheckpointTxnEntry where
  txnId : Nat
  state : TransactionState
  lastLsn : Nat
  deriving DecidableEq

structure DirtyPageEntry where
  pageId : PageId
  recLsn : Nat
  deriving DecidableEq

/-- A log record. The images are of type `ι`: byte vectors in the log file, pages (or
nothing, for an empty vector) where recovery reads them. -/
structure LogRecord (ι : Type) where
  type : LogRecordType
  lsn : Nat
  txnId : Nat
  prevLsn : Nat
  undoNextLsn : Nat
  hasPage : Bool
  pageId : PageId
  beforeImage : ι
  afterImage : ι
  activeTxns : List CheckpointTxnEntry
  dirtyPages : List DirtyPageEntry
  deriving DecidableEq

/-- The record a default-initialised `LogRecord` holds, with the given empty image. -/
def LogRecord.blank {ι : Type} (empty : ι) (type : LogRecordType) : LogRecord ι where
  type := type
  lsn := 0
  txnId := 0
  prevLsn := 0
  undoNextLsn := 0
  hasPage := false
  pageId := ⟨0, 0⟩
  beforeImage := empty
  afterImage := empty
  activeTxns := []
  dirtyPages := []

def makePageImageLogRecord {ι : Type} (empty : ι) (type : LogRecordType) (txnId : Nat)
    (prevLsn : Nat) (pageId : PageId) (before after : ι) : LogRecord ι :=
  { LogRecord.blank empty type with
    txnId := txnId, prevLsn := prevLsn, hasPage := true, pageId := pageId,
    beforeImage := before, afterImage := after }

/-- `MakeClrPageUndoRecord`: a compensation record has no before image. -/
def makeClrPageUndoRecord {ι : Type} (empty : ι) (txnId : Nat) (prevLsn undoNextLsn : Nat)
    (pageId : PageId) (redoImage : ι) : LogRecord ι :=
  { LogRecord.blank empty .clr with
    txnId := txnId, prevLsn := prevLsn, undoNextLsn := undoNextLsn, hasPage := true,
    pageId := pageId, afterImage := redoImage }

def isUndoablePageRecord : LogRecordType → Bool
  | .heapInsert | .heapDelete | .heapUpdate | .btreeInsert | .btreeDelete | .btreePageSplit
  | .btreeRebalance | .btreeMerge | .btreeMetaUpdate => true
  | _ => false

def isPageUpdateRecord (t : LogRecordType) : Bool :=
  isUndoablePageRecord t || t == .clr

abbrev Bytes := List UInt8

/-- The `w` low-order bytes of `n`, least significant first. -/
def leBytes : Nat → Nat → Bytes
  | 0, _ => []
  | w + 1, n => UInt8.ofNat (n % 256) :: leBytes w (n / 256)

def leNat : Bytes → Nat
  | [] => 0
  | b :: bs => b.toNat + 256 * leNat bs

@[simp] theorem length_leBytes (w n : Nat) : (leBytes w n).length = w := by
  induction w generalizing n with
  | zero => rfl
  | succ w ih => simp [leBytes, ih]

def LogRecordType.toByte : LogRecordType → Nat
  | .invalid => 0
  | .begin => 1
  | .commit => 2
  | .abort => 3
  | .heapInsert => 4
  | .heapDelete => 5
  | .heapUpdate => 6
  | .btreeInsert => 7
  | .btreeDelete => 8
  | .btreePageSplit => 9
  | .btreeRebalance => 10
  | .btreeMerge => 11
  | .btreeMetaUpdate => 12
  | .beginCheckpoint => 13
  | .endCheckpoint => 14
  | .clr => 15
  | .unnamed code => 16 + code.val

def LogRecordType.ofByte : Nat → LogRecordType
  | 0 => .invalid
  | 1 => .begin
  | 2 => .commit
  | 3 => .abort
  | 4 => .heapInsert
  | 5 => .heapDelete
  | 6 => .heapUpdate
  | 7 => .btreeInsert
  | 8 => .btreeDelete
  | 9 => .btreePageSplit
  | 10 => .btreeRebalance
  | 11 => .btreeMerge
  | 12 => .btreeMetaUpdate
  | 13 => .beginCheckpoint
  | 14 => .endCheckpoint
  | 15 => .clr
  | n + 16 => .unnamed (Fin.ofNat 240 n)

def stateToByte : TransactionState → Nat
  | .active => 0
  | .waiting => 1
  | .aborting => 2
  | .committed => 3
  | .aborted => 4
  | .unnamed code => 5 + code.val

def stateOfByte : Nat → TransactionState
  | 0 => .active
  | 1 => .waiting
  | 2 => .aborting
  | 3 => .committed
  | 4 => .aborted
  | n + 5 => .unnamed (Fin.ofNat 251 n)

/-- `WalWriteVector`: a 32-bit length, then the bytes. -/
def walWriteVector (bytes : Bytes) : Bytes := leBytes 4 bytes.length ++ bytes

def walWriteTxn (e : CheckpointTxnEntry) : Bytes :=
  leBytes 8 e.txnId ++ leBytes 1 (stateToByte e.state) ++ leBytes 8 e.lastLsn

def walWriteDirtyPage (e : DirtyPageEntry) : Bytes :=
  leBytes 4 e.pageId.relationId ++ leBytes 4 e.pageId.pageNo ++ leBytes 8 e.recLsn

def serializeLogRecordPayload (rec : LogRecord Bytes) : Bytes :=
  leBytes 1 rec.type.toByte ++ leBytes 8 rec.lsn ++ leBytes 8 rec.txnId ++
  leBytes 8 rec.prevLsn ++ leBytes 8 rec.undoNextLsn ++ leBytes 1 rec.hasPage.toNat ++
  (if rec.hasPage then leBytes 4 rec.pageId.relationId ++ leBytes 4 rec.pageId.pageNo else []) ++
  walWriteVector rec.beforeImage ++ walWriteVector rec.afterImage ++
  leBytes 4 rec.activeTxns.length ++ rec.activeTxns.flatMap walWriteTxn ++
  leBytes 4 rec.dirtyPages.length ++ rec.dirtyPages.flatMap walWriteDirtyPage

/-- A `WalPayloadReader` step: `none` is the exception thrown on underflow. -/
abbrev Reader (α : Type) := StateT Bytes Option α

/-- `ReadPod` of a `w`-byte integer. -/
def readPod (w : Nat) : Reader Nat := fun rest =>
  if rest.length < w then none else some (leNat (rest.take w), rest.drop w)

def readVector : Reader Bytes := do
  let size ← readPod 4
  fun rest => if rest.length < size then none else some (rest.take size, rest.drop size)

def readMany {α : Type} (one : Reader α) : Nat → Reader (List α)
  | 0 => pure []
  | n + 1 => do
    let x ← one
    let xs ← readMany one n
    pure (x :: xs)

def readTxn : Reader CheckpointTxnEntry := do
  let txnId ← readPod 8
  let state ← readPod 1
  let lastLsn ← readPod 8
  pure ⟨txnId, stateOfByte state, lastLsn⟩

def readDirtyPage : Reader DirtyPageEntry := do
  let relationId ← readPod 4
  let pageNo ← readPod 4
  let recLsn ← readPod 8
  pure ⟨⟨relationId, pageNo⟩, recLsn⟩

def readRecord : Reader (LogRecord Bytes) := do
  let type ← readPod 1
  let lsn ← readPod 8
  let txnId ← readPod 8
  let prevLsn ← readPod 8
  let undoNextLsn ← readPod 8
  let hasPage ← readPod 1
  let pageId ← if hasPage ≠ 0 then do
      let relationId ← readPod 4
      let pageNo ← readPod 4
      pure ⟨relationId, pageNo⟩
    else pure ⟨0, 0⟩
  let before ← readVector
  let after ← readVector
  let txnCount ← readPod 4
  let activeTxns ← readMany readTxn txnCount
  let dptCount ← readPod 4
  let dirtyPages ← readMany readDirtyPage dptCount
  pure { type := .ofByte type, lsn := lsn, txnId := txnId, prevLsn := prevLsn,
         undoNextLsn := undoNextLsn, hasPage := hasPage ≠ 0, pageId := pageId,
         beforeImage := before, afterImage := after, activeTxns := activeTxns,
         dirtyPages := dirtyPages }

/-- `DeserializeLogRecordPayload`; bytes after the last field are ignored. -/
def deserializeLogRecordPayload (payload : Bytes) : Option (LogRecord Bytes) :=
  (readRecord.run payload).map Prod.fst

end GraniteDb.Recovery.WalRecords
