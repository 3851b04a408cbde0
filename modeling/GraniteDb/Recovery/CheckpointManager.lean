/- CreateCheckpoint as a thread that takes one step at a time. -/

import GraniteDb.Recovery.RecordLog

namespace GraniteDb.Recovery.CheckpointManager

open Recovery.WalRecords Recovery.RecordLog

variable {β : Type}

/-- Where `CreateCheckpoint` is, with its local variables. -/
inductive CheckpointPc
  | idle
  | begun (beginLsn : Nat)
  | txnsTaken (beginLsn : Nat) (txns : List CheckpointTxnEntry)
  | pagesTaken (beginLsn : Nat) (txns : List CheckpointTxnEntry) (pages : List DirtyPageEntry)
  | ended (beginLsn endLsn : Nat)
  | flushed (beginLsn : Nat)
  deriving DecidableEq

/-- The log, the master record and the checkpoint thread. -/
structure Checkpointer (β : Type) where
  wal : Wal β
  master : Nat
  pc : CheckpointPc

def beginCheckpointRecord : Rec β := LogRecord.blank none .beginCheckpoint

def endCheckpointRecord (beginLsn : Nat) (txns : List CheckpointTxnEntry)
    (pages : List DirtyPageEntry) : Rec β :=
  { LogRecord.blank none .endCheckpoint with
    prevLsn := beginLsn, activeTxns := txns, dirtyPages := pages }

@[simp] theorem beginCheckpointRecord_type :
    (beginCheckpointRecord : Rec β).type = .beginCheckpoint := rfl

@[simp] theorem endCheckpointRecord_type (beginLsn : Nat) (txns : List CheckpointTxnEntry)
    (pages : List DirtyPageEntry) :
    (endCheckpointRecord beginLsn txns pages : Rec β).type = .endCheckpoint := rfl

/-- The next step of `CreateCheckpoint`, where `txns` and `pages` are what the two snapshot
calls would return now. -/
def createCheckpoint (s : Checkpointer β) (txns : List CheckpointTxnEntry)
    (pages : List DirtyPageEntry) : Checkpointer β :=
  match s.pc with
  | .idle =>
    { s with
      wal := s.wal.append beginCheckpointRecord
      pc := .begun (endLsn s.wal.records) }
  | .begun b => { s with pc := .txnsTaken b txns }
  | .txnsTaken b taken => { s with pc := .pagesTaken b taken pages }
  | .pagesTaken b taken dirty =>
    { s with
      wal := s.wal.append (endCheckpointRecord b taken dirty)
      pc := .ended b (endLsn s.wal.records) }
  | .ended b e => { s with wal := s.wal.flushUpTo e, pc := .flushed b }
  | .flushed b => { wal := s.wal.sync, master := b, pc := .idle }

/-- The LSN of the running checkpoint's `BEGIN_CHECKPOINT` record. -/
def CheckpointPc.beginLsn : CheckpointPc → Option Nat
  | .idle => none
  | .begun b | .txnsTaken b _ | .pagesTaken b _ _ | .ended b _ | .flushed b => some b

def CheckpointPc.takenTxns : CheckpointPc → List CheckpointTxnEntry
  | .txnsTaken _ txns | .pagesTaken _ txns _ => txns
  | _ => []

end GraniteDb.Recovery.CheckpointManager
