/- Abort and its rollback step by step, called by the client and by the deadlock worker. -/

import GraniteDb.Concurrency.LockManager
import GraniteDb.Recovery.RecoveryManager

namespace GraniteDb.Concurrency.TransactionManager

open Common.Types Recovery.WalRecords Recovery.RecordLog
open Recovery.RecoveryManager (applyImage)
open Concurrency.LockManager (LockState tryMarkAborting releaseAll cycleVictim)

variable {β : Type}

/-- What the loop of `RollbackTransaction` does at an LSN. -/
inductive WalkStep (β : Type)
  | stop
  | skip (next : Nat)
  | undo (rec : Rec β)

/-- The loop of `RollbackTransaction` at `current`, over the records it has read. -/
def walkStep (records : List (Rec β)) (current : Nat) : WalkStep β :=
  if current = 0 then .stop
  else
    match findRecord records current with
    | none => .stop
    | some rec =>
      if rec.type = .begin then .stop
      else if rec.type = .clr then .skip rec.undoNextLsn
      else if isPageUpdateRecord rec.type && rec.hasPage then .undo rec
      else .skip rec.prevLsn

inductive Caller
  | client
  | worker
  deriving DecidableEq

def Caller.other : Caller → Caller
  | .client => .worker
  | .worker => .client

/-- Where a thread is in `Abort`. From `reading` on, `taken` is what `ReadAllRecordsFrom`
returned. -/
inductive Pc (β : Type)
  | idle
  /-- The worker has put the transaction among its victims and not yet run the callback. -/
  | chosen
  | called
  | marking
  | waiting
  | reading
  | read (taken : List (Rec β))
  | walking (taken : List (Rec β)) (current : Nat)
  | logging (taken : List (Rec β)) (rec clr : Rec β)
  | logged (taken : List (Rec β)) (rec : Rec β) (lsn : Nat)
  | applying (taken : List (Rec β)) (rec : Rec β) (lsn : Nat)
  | flushing
  | ending
  | endLogging (abort : Rec β)
  | endLogged (lsn : Nat)
  | endFlushing (lsn : Nat)
  | settingState
  | releasing

def Pc.isIdle : Pc β → Bool
  | .idle => true
  | _ => false

/-- The thread has decided to roll back and has not yet set the state to `ABORTED`. -/
def Pc.rollingBack : Pc β → Bool
  | .idle | .chosen | .called | .marking | .waiting | .releasing => false
  | _ => true

/-- What rollbacks have done: the before-image of the record at `lsn` was written to its
page, or the locks were released. -/
inductive Event
  | image (lsn : Nat)
  | released
  deriving DecidableEq

structure State (β : Type) where
  wal : Wal β
  pages : PageId → Page β
  disk : PageId → Page β
  lastLsn : Nat → Nat
  locks : LockState
  calls : Caller → Pc β
  history : List Event

/-- A process that has opened the log `base` and in which transaction `t` has begun. -/
def State.start (base : List (Rec β)) (pages : PageId → Page β) (t : Nat) : State β where
  wal := (Wal.open base).append { LogRecord.blank none .begin with txnId := t }
  pages := pages
  disk := pages
  lastLsn := Function.update (fun _ => 0) t (endLsn base)
  locks := .empty
  calls := fun _ => .idle
  history := []

def State.setCall (s : State β) (c : Caller) (pc : Pc β) : State β :=
  { s with calls := Function.update s.calls c pc }

inductive Label (β : Type)
  | logTxn (u : Nat) (type : LogRecordType)
  | update (u : Nat) (p : PageId) (type : LogRecordType) (body : β)
  | locks (label : LockManager.Label)
  | detect (cycle : List (Nat × LockManager.QueueId))
  | callback
  | abort
  | advance (c : Caller)
  | flushAllPages (c : Caller) (dirty : List PageId)
  /-- `ApplyImage` throws: the page cannot be fetched, or the image is not a page. -/
  | applyFails

/-- Who takes a step in the lock manager, and whether it is a lock call. -/
def lockActor : LockManager.Label → Option (Nat × Bool)
  | .call u _ _ _ | .prepare u | .enqueue u | .wake u => some (u, true)
  | .setState u _ | .tryMarkAborting u | .releaseAll u => some (u, false)
  | .abortVictim _ => none

/-- The transaction's client is neither in `Abort` nor in a lock call, and has not been
told to abort. -/
def working (t : Nat) (s : State β) : Bool :=
  (s.calls .client).isIdle && (s.locks.calls t).isNone &&
    (s.locks.txnState t == .active || s.locks.txnState t == .waiting)

def updateRecord (s : State β) (u : Nat) (p : PageId) (type : LogRecordType) (body : β) : Rec β :=
  makePageImageLogRecord none type u (s.lastLsn u) p (some (s.pages p).body) (some body)

def abortRecord (t prevLsn : Nat) : Rec β :=
  { LogRecord.blank none .abort with txnId := t, prevLsn := prevLsn }

def State.append (s : State β) (rec : Rec β) : State β := { s with wal := s.wal.append rec }

def State.setLastLsn (s : State β) (t lsn : Nat) : State β :=
  { s with lastLsn := Function.update s.lastLsn t lsn }

/-- The next step of the thread `c` in `Abort`, where it can take one by itself. -/
def advance (t : Nat) (s : State β) (c : Caller) : Option (State β) :=
  match s.calls c with
  | .idle | .chosen => none
  | .called =>
    match s.locks.txnState t with
    | .committed | .aborted => some (s.setCall c .idle)
    | .aborting => some (s.setCall c .reading)
    | _ => some (s.setCall c .marking)
  | .marking =>
    if s.locks.txnState t = .committed ∨ s.locks.txnState t = .aborted then
      some (s.setCall c .waiting)
    else
      some { s.setCall c .reading with
        locks := s.locks.setTxnState t (tryMarkAborting (s.locks.txnState t)) }
  | .waiting =>
    -- `WaitUntilAbortCompletes`
    if s.locks.txnState t = .aborting then none else some (s.setCall c .idle)
  | .reading => some (s.setCall c (.read s.wal.records))
  | .read taken => some (s.setCall c (.walking taken (s.lastLsn t)))
  | .walking taken current =>
    match walkStep taken current with
    | .stop => some (s.setCall c .flushing)
    | .skip next => some (s.setCall c (.walking taken next))
    | .undo rec =>
      some (s.setCall c (.logging taken rec
        (makeClrPageUndoRecord none t (s.lastLsn t) rec.prevLsn rec.pageId rec.beforeImage)))
  | .logging taken rec clr =>
    some ((s.append clr).setCall c (.logged taken rec (endLsn s.wal.records)))
  | .logged taken rec lsn => some ((s.setLastLsn t lsn).setCall c (.applying taken rec lsn))
  | .applying taken rec lsn =>
    (applyImage s.pages rec.pageId rec.beforeImage lsn).map fun pages =>
      { s.setCall c (.walking taken rec.prevLsn) with
        pages := pages, history := s.history ++ [.image rec.lsn] }
  | .flushing => none
  | .ending => some (s.setCall c (.endLogging (abortRecord t (s.lastLsn t))))
  | .endLogging abort => some ((s.append abort).setCall c (.endLogged (endLsn s.wal.records)))
  | .endLogged lsn => some ((s.setLastLsn t lsn).setCall c (.endFlushing lsn))
  | .endFlushing lsn => some { s.setCall c .settingState with wal := s.wal.flushUpTo lsn }
  | .settingState =>
    some { s.setCall c .releasing with locks := s.locks.setTxnState t .aborted }
  | .releasing =>
    some { s.setCall c .idle with
      locks := releaseAll s.locks t, history := s.history ++ [.released] }

/-- One step, for the aborts of transaction `t`. -/
def step (t : Nat) (s : State β) : Label β → Option (State β)
  | .logTxn u type =>
    if u ≠ t ∧ (type = .begin ∨ type = .commit ∨ type = .abort) then
      some ((s.append { LogRecord.blank none type with
        txnId := u, prevLsn := s.lastLsn u }).setLastLsn u (endLsn s.wal.records))
    else none
  | .update u p type body =>
    -- The client of `t` no longer updates pages once it has been told to abort.
    if isUndoablePageRecord type && (u != t || working t s) then
      some { (s.append (updateRecord s u p type body)).setLastLsn u (endLsn s.wal.records) with
        pages := Function.update s.pages p ⟨endLsn s.wal.records, body⟩ }
    else none
  | .locks label => do
    let (u, isCall) ← lockActor label
    if u != t || (isCall && (s.calls .client).isIdle) then
      (LockManager.step s.locks label).map fun locks => { s with locks := locks }
    else none
  | .detect cycle => do
    let locks ← LockManager.step s.locks (.abortVictim cycle)
    match s.calls .worker with
    | .idle | .chosen =>
      let next : State β := { s with locks := locks }
      if cycleVictim cycle = t then some (next.setCall .worker .chosen) else some next
    | _ => none
  | .callback =>
    match s.calls .worker with
    | .chosen =>
      if s.locks.txnState t = .aborting then some (s.setCall .worker .called)
      else some (s.setCall .worker .idle)
    | _ => none
  | .abort =>
    if (s.calls .client).isIdle && (s.locks.calls t).isNone then
      some (s.setCall .client .called)
    else none
  | .advance c => advance t s c
  | .flushAllPages c dirty =>
    match s.calls c with
    | .flushing =>
      some { s.setCall c .ending with
        wal := dirty.foldl (fun wal p => wal.flushUpTo (s.pages p).lsn) s.wal
        disk := fun p => if p ∈ dirty then s.pages p else s.disk p }
    | _ => none
  | .applyFails =>
    -- In the worker's thread the exception would end the process.
    match s.calls .client with
    | .applying _ _ _ => some (s.setCall .client .idle)
    | _ => none

def entersRollback (t : Nat) (s : State β) : Label β → Option Caller
  | .advance c =>
    match s.calls c with
    | .called => if s.locks.txnState t = .aborting then some c else none
    | .marking =>
      if s.locks.txnState t = .committed ∨ s.locks.txnState t = .aborted then none else some c
    | _ => none
  | _ => none

/-- No thread decides to roll back while the other one is rolling back. -/
def Alone (t : Nat) (s : State β) (label : Label β) : Prop :=
  ∀ c, entersRollback t s label = some c → (s.calls c.other).rollingBack = false

instance (t : Nat) (s : State β) (label : Label β) : Decidable (Alone t s label) :=
  match entered : entersRollback t s label with
  | none => isTrue fun c found => by rw [entered] at found; cases found
  | some c =>
    if quiet : (s.calls c.other).rollingBack = false then
      isTrue fun d found => by rw [entered] at found; cases found; exact quiet
    else isFalse fun alone => quiet (alone c entered)

/-- The records of `t` whose before-images were written, in order. -/
def undone (history : List Event) : List Nat :=
  history.filterMap fun
    | .image lsn => some lsn
    | .released => none

/-- How many `ABORT` records of `t` were logged since the log was opened. -/
def abortRecords (base : List (Rec β)) (t : Nat) (s : State β) : Nat :=
  (s.wal.records.drop base.length).countP fun r => r.type = .abort ∧ r.txnId = t

/-- `t` has been rolled back at most once, and under its locks. -/
structure OneRollback (base : List (Rec β)) (t : Nat) (s : State β) : Prop where
  undoneOnce : (undone s.history).Nodup
  oneAbort : abortRecords base t s ≤ 1
  aborted : s.locks.txnState t = .aborted → abortRecords base t s = 1
  underLocks : ∀ before after, s.history = before ++ .released :: after →
    undone after = []

end GraniteDb.Concurrency.TransactionManager
