/- Recovery from the master record a truncated log keeps, and from the start of that log. -/

import Mathlib.Data.List.Perm.Basic
import GraniteDb.Recovery.CheckpointDirtyRace
import GraniteDb.Recovery.CheckpointedLog
import GraniteDb.Recovery.WalFormat

namespace GraniteDb.Recovery.MasterRepair

open Common.Types Recovery.WalRecords Recovery.RecordLog Recovery.RecoveryManager
open Recovery.RecoveryFacts Recovery.LogHistory Recovery.CheckpointManager Recovery.CheckpointedLog
open Lib.GuardedRun
open Recovery.CheckpointDirtyRace (Label Pool Pin PagesSound Recovered SnapshotAllowed
  updateRecord)
open Option (map_eq_some_iff bind_eq_bind bind_eq_some_iff isSome_iff_exists)
open Function (update_of_ne update_self)
open List (mem_map mem_append_left mem_singleton mem_append_right)

variable {β : Type}

/-- A compensation record of a rollback that `ApplyImage` has not yet brought to its page. -/
structure Compensation (β : Type) where
  txnId : Nat
  pageId : PageId
  lsn : Nat
  image : β

/-- A process with its transactions. `active` is `active_txns_`, and `pending` holds the
compensations on the way from the log to their pages. -/
structure System (β : Type) where
  core : CheckpointDirtyRace.State β
  active : AList fun _ : Nat => TransactionState
  nextTxnId : Nat
  pending : List (Compensation β)

/-- A process that has opened the log `base`, in which no transaction is unfinished. -/
def System.start (base : List (Rec β)) (master : Nat) (disk : PageId → Page β) : System β where
  core := .start base master disk
  active := ∅
  nextTxnId := 1
  pending := []

inductive Event (β : Type)
  | begin
  | setState (t : Nat) (state : TransactionState)
  | page (a : Label β)
  | appendClr (t lsn : Nat)
  | applyClr (i : Nat)
  | finish (t : Nat) (final : TransactionState)
  | checkpoint

/-- `GetTransactionTableSnapshot`. -/
def snapshot (active : AList fun _ : Nat => TransactionState) (lastLsn : Nat → Nat) :
    List CheckpointTxnEntry :=
  active.entries.map fun entry => ⟨entry.1, entry.2, lastLsn entry.1⟩

/-- `ApplyImage` up to its `UnpinPage`. -/
def applyImage (pool : Pool β) (c : Compensation β) : Pool β :=
  { pool with
    buffered := Function.update pool.buffered c.pageId ⟨c.lsn, c.image⟩
    pins := pool.pins ++ [⟨c.txnId, c.pageId, none, some c.lsn⟩] }

/-- The page steps of an operation, which logs for a transaction that is active. -/
def isOperation (s : System β) : Label β → Bool
  | .fetch _ _ | .modify _ _ | .unpin _ => true
  | .logUpdate i type => isUndoablePageRecord type &&
      (s.core.pool.pins[i]?).any fun pin => (s.active.lookup pin.txnId).isSome
  | .flushLog _ | .flushPage _ | .logTxn _ _ | .checkpoint _ => false

def isFlush : Label β → Bool
  | .flushLog _ | .flushPage _ => true
  | _ => false

/-- No operation has changed a page that it still holds, and no rollback is between its log
record and its page. -/
def System.quiet (s : System β) : Bool :=
  s.pending.isEmpty && s.core.pool.pins.all fun pin => pin.before.isNone && pin.logged.isNone

/-- Operations, commits and rollbacks wait while a checkpoint is under way. -/
def System.idle (s : System β) : Bool := s.core.checkpoint = .idle

/-- The record type with which `Commit` and `Abort` end a transaction. -/
def endType : TransactionState → Option LogRecordType
  | .committed => some .commit
  | .aborted => some .abort
  | _ => none

/-- The compensation record `RollbackTransaction` logs for `rec`. -/
def clrRecord (s : System β) (t : Nat) (rec : Rec β) : Rec β :=
  makeClrPageUndoRecord none t (s.core.lastLsn t) rec.prevLsn rec.pageId rec.beforeImage

def step (s : System β) : Event β → Option (System β)
  | .begin =>
    if s.idle then
      (CheckpointDirtyRace.step s.core (.logTxn s.nextTxnId .begin)).map fun core =>
        { s with
          core := core
          active := s.active.insert s.nextTxnId .active
          nextTxnId := s.nextTxnId + 1 }
    else none
  | .setState t state =>
    if s.idle && (s.active.lookup t).isSome && isLoserState state then
      some { s with active := s.active.insert t state }
    else none
  | .page a =>
    if isFlush a || s.idle && isOperation s a then
      (CheckpointDirtyRace.step s.core a).map fun core => { s with core := core }
    else none
  | .appendClr t lsn => do
    let rec ← findRecord s.core.wal.records lsn
    let image ← rec.beforeImage
    if s.idle && (s.active.lookup t).isSome && isUndoablePageRecord rec.type &&
        decide (rec.txnId = t) then
      some { s with
        core := { s.core with
          wal := s.core.wal.append (clrRecord s t rec)
          lastLsn := Function.update s.core.lastLsn t (endLsn s.core.wal.records) }
        pending := s.pending ++ [⟨t, rec.pageId, endLsn s.core.wal.records, image⟩] }
    else none
  | .applyClr i => do
    let c ← s.pending[i]?
    -- The page's exclusive latch is free.
    if s.core.pool.pins.all fun pin => pin.pageId != c.pageId || pin.before.isNone then
      some { s with
        core := { s.core with pool := applyImage s.core.pool c }
        pending := s.pending.eraseIdx i }
    else none
  | .finish t final => do
    let type ← endType final
    if s.idle && (s.active.lookup t).isSome then
      (CheckpointDirtyRace.step s.core (.logTxn t type)).map fun core =>
        { s with
          core := { core with wal := core.wal.flushUpTo (endLsn s.core.wal.records) }
          active := s.active.erase t }
    else none
  | .checkpoint =>
    if s.quiet then
      (CheckpointDirtyRace.step s.core
        (.checkpoint (snapshot s.active s.core.lastLsn))).map fun core => { s with core := core }
    else none

/-- Between a compensation record and the change of its page nothing else is logged for the page. -/
def Applied (s : System β) : Event β → Prop
  | .page (.logUpdate i _) =>
    ∀ pin ∈ s.core.pool.pins[i]?, ∀ c ∈ s.pending, c.pageId ≠ pin.pageId
  | .appendClr _ lsn =>
    ∀ rec ∈ findRecord s.core.wal.records lsn, ∀ c ∈ s.pending, c.pageId ≠ rec.pageId
  | _ => True

instance (s : System β) (a : Event β) : Decidable (Applied s a) := by
  unfold Applied
  split <;> infer_instance

/-- The records that lie whole in the first `k` bytes of the file. -/
def survivors (k : Nat) (records : List (Rec β)) : List (Rec β) :=
  records.takeWhile fun r => r.lsn + recordSize r ≤ k

/-- The master record after `EnsureWalInitializedAndTrimmed`: kept where a `BEGIN_CHECKPOINT`
record stands at it. -/
def repairedMaster (records : List (Rec β)) (master : Nat) : Nat :=
  if records.any fun r => r.lsn == master && r.type == .beginCheckpoint then master else 0

/-- The truncation keeps the beginning of the master checkpoint and cuts off its end. -/
def CutsCheckpoint (k : Nat) (records : List (Rec β)) (master : Nat) : Prop :=
  (∃ r ∈ survivors k records, r.lsn = master ∧ r.type = .beginCheckpoint) ∧
    ¬∃ r ∈ survivors k records, r.prevLsn = master ∧ r.type = .endCheckpoint

instance (k : Nat) (records : List (Rec β)) (master : Nat) :
    Decidable (CutsCheckpoint k records master) :=
  inferInstanceAs (Decidable (_ ∧ _))

theorem survivors_eq_take (k : Nat) (records : List (Rec β)) :
    ∃ n, survivors k records = records.take n :=
  ⟨_, List.prefix_iff_eq_take.mp (List.takeWhile_prefix _)⟩

section Bytes

open Recovery.WalFormat
open Recovery.LogManager (ensureWalInitializedAndTrimmed frameBytes masterInvalid
  masterRecordSize scanWalFile)

def viewFrom (offset : Nat) (recs : List (LogRecord Bytes)) : List (Rec Bytes) :=
  (WalFormat.placed offset recs).map viewRecord

structure Regular (rec : LogRecord Bytes) : Prop where
  fits : Fits rec
  before : rec.beforeImage = [] ∨ rec.beforeImage.length = pageSize
  after : rec.afterImage = [] ∨ rec.afterImage.length = pageSize
  small : 4 + (serializeLogRecordPayload rec).length < 2 ^ 32

variable {rec : LogRecord Bytes} {recs : List (LogRecord Bytes)}

private theorem recordSize_view (regular : Regular rec) (lsn : Nat) :
    recordSize (viewRecord { withoutPage rec with lsn := lsn }) = (frameBytes lsn rec).length := by
  rw [length_frameBytes_eq_recordSize lsn rec regular.before regular.after]
  unfold withoutPage
  split <;> rfl

private theorem exists_payload (regular : Regular rec) (lsn : Nat) :
    ∃ payload decoded, frameBytes lsn rec = leBytes 4 (4 + payload.length) ++ payload ∧
      4 + payload.length < 2 ^ 32 ∧ deserializeLogRecordPayload payload = some decoded ∧
      decoded.type = rec.type := by
  have small := regular.small
  rw [← length_serialize rec lsn] at small
  refine ⟨_, _, ?_, small, deserialize_at regular.fits lsn, ?_⟩
  · unfold frameBytes
    dsimp only
    rw [Nat.mod_eq_of_lt small]
  · unfold withoutPage
    split <;> rfl

private theorem stuck_cut (regular : Regular rec) {lsn m : Nat}
    (cut : m < (frameBytes lsn rec).length) (more : Bytes) :
    Stuck ((frameBytes lsn rec ++ more).take m) := by
  obtain ⟨payload, _, frame, small, _⟩ := exists_payload regular lsn
  intro payload' rest small' _ same
  have length := congrArg List.length same
  have whole := List.take_append_drop m (frameBytes lsn rec ++ more)
  rw [same, frame, List.append_assoc] at whole
  obtain ⟨rfl, _⟩ := frame_unique small' small whole
  rw [frame] at cut
  simp only [List.length_take, List.length_append, length_leBytes] at length cut
  omega

private theorem viewFrom_cons (offset : Nat) (rec : LogRecord Bytes) (recs : List (LogRecord Bytes)) :
    viewFrom offset (rec :: recs) = viewRecord { withoutPage rec with lsn := offset } ::
      viewFrom (offset + (frameBytes offset rec).length) recs := rfl

private theorem frames_truncated (regular : ∀ r ∈ recs, Regular r) (offset m : Nat) :
    ∃ n rest found, (framesFrom offset recs).take m =
      framesFrom offset (recs.take n) ++ rest ∧ Stuck rest ∧
      Frames offset (framesFrom offset (recs.take n)) found ∧
      survivors (offset + m) (viewFrom offset recs) = viewFrom offset (recs.take n) ∧
      found.map (fun f => (f.1.lsn, f.1.type)) =
        (viewFrom offset (recs.take n)).map fun r => (r.lsn, r.type) := by
  induction recs generalizing offset m with
  | nil => exact ⟨0, [], [], by simp [framesFrom], stuck_nil, .nil, rfl, rfl⟩
  | cons rec recs ih =>
    have here := regular rec List.mem_cons_self
    have size := recordSize_view here offset
    have at_ : (viewRecord { withoutPage rec with lsn := offset }).lsn = offset := rfl
    by_cases fits : (frameBytes offset rec).length ≤ m
    · obtain ⟨n, rest, found, split, stuck, frames, kept, spans⟩ :=
        ih (fun r member => regular r (List.mem_cons_of_mem _ member))
          (offset + (frameBytes offset rec).length) (m - (frameBytes offset rec).length)
      obtain ⟨payload, decoded, frame, small, accepted, type⟩ := exists_payload here offset
      have length : (frameBytes offset rec).length = 4 + payload.length := by
        rw [frame, List.length_append, length_leBytes]
      refine ⟨n + 1, rest, (⟨offset, 4 + payload.length, decoded.type⟩,
        { decoded with lsn := offset }) :: found, ?_, stuck, ?_, ?_, ?_⟩
      · rw [framesFrom, List.take_append, List.take_of_length_le fits, split, List.take_succ_cons,
          framesFrom, List.append_assoc]
      · rw [List.take_succ_cons, framesFrom, length, frame]
        rw [length] at frames
        exact .cons small accepted frames
      · have total : offset + m =
            offset + (frameBytes offset rec).length + (m - (frameBytes offset rec).length) := by
          omega
        rw [← total] at kept
        rw [viewFrom_cons, List.take_succ_cons, viewFrom_cons, ← kept, survivors,
          List.takeWhile_cons_of_pos]
        · rfl
        · rw [at_, size, decide_eq_true_iff]
          omega
      · have sameType : (viewRecord { withoutPage rec with lsn := offset }).type = rec.type := by
          unfold withoutPage
          split <;> rfl
        rw [List.take_succ_cons, viewFrom_cons, List.map_cons, List.map_cons, spans, at_, sameType,
          type]
    · refine ⟨0, _, [], rfl, ?_, .nil, ?_, rfl⟩
      · exact stuck_cut here (Nat.lt_of_not_le fits) _
      · rw [viewFrom_cons, survivors, List.takeWhile_cons_of_neg]
        · rfl
        · rw [at_, size, decide_eq_true_iff]
          omega

theorem ensure_truncated {master : Nat} (small : master < 2 ^ 64) (regular : ∀ r ∈ recs, Regular r)
    (k : Nat) : ∃ n,
      survivors k (viewFrom 8 recs) = viewFrom 8 (recs.take n) ∧
      (ensureWalInitializedAndTrimmed
        (some ((leBytes 8 master ++ framesFrom 8 recs).take k))).1 =
          leBytes 8 (repairedMaster (viewFrom 8 (recs.take n)) master) ++
            framesFrom 8 (recs.take n) := by
  by_cases whole : 8 ≤ k
  · obtain ⟨n, rest, found, split, stuck, frames, kept, spans⟩ := frames_truncated regular 8 (k - 8)
    rw [Nat.add_sub_cancel' whole] at kept
    refine ⟨n, kept, ?_⟩
    have file : (leBytes 8 master ++ framesFrom 8 recs).take k =
        leBytes 8 master ++ (framesFrom 8 (recs.take n) ++ rest) := by
      rw [List.take_append, List.take_of_length_le (by simpa using whole), length_leBytes, split]
    have scanned : scanWalFile (leBytes 8 master ++ (framesFrom 8 (recs.take n) ++ rest)) =
        ⟨8 + (framesFrom 8 (recs.take n)).length, found.map Prod.fst⟩ :=
      scanLoop_frames frames (List.drop_left' (length_leBytes 8 master)) stuck (by simp; omega) []
    have read : leNat (leBytes 8 master) = master := by
      rw [leNat_leBytes]
      exact Nat.mod_eq_of_lt (by simpa using small)
    have long : ¬(leBytes 8 master ++ (framesFrom 8 (recs.take n) ++ rest)).length <
        masterRecordSize := by
      rw [List.length_append, length_leBytes, masterRecordSize]
      omega
    have trimmed : (leBytes 8 master ++ (framesFrom 8 (recs.take n) ++ rest)).take
        (8 + (framesFrom 8 (recs.take n)).length) =
          leBytes 8 master ++ framesFrom 8 (recs.take n) := by
      rw [← List.append_assoc, List.take_left' (by simp)]
    have found_ : (found.map Prod.fst).any (fun r => r.lsn == master && r.type == .beginCheckpoint) =
        (viewFrom 8 (recs.take n)).any fun r => r.lsn == master && r.type == .beginCheckpoint := by
      have same := congrArg (fun l => l.any fun x : Nat × LogRecordType =>
        x.1 == master && x.2 == .beginCheckpoint) spans
      simpa only [List.any_map, Function.comp_def] using same
    rw [file]
    unfold ensureWalInitializedAndTrimmed
    dsimp only
    rw [Option.getD_some, if_neg long, scanned]
    dsimp only
    rw [trimmed, List.take_left' (length_leBytes 8 master), List.drop_left' (length_leBytes 8 master),
      read, masterInvalid, repairedMaster]
    dsimp only
    rw [found_]
    by_cases zero : master = 0
    · subst zero
      simp
    · by_cases keeps : ((viewFrom 8 (recs.take n)).any fun r =>
          r.lsn == master && r.type == .beginCheckpoint) = true
      · simp [zero, keeps]
      · simp [zero, keeps]
  · refine ⟨0, ?_, ?_⟩
    · cases recs with
      | nil => rfl
      | cons rec recs =>
        have size := recordSize_view (regular rec List.mem_cons_self) 8
        have at_ : (viewRecord { withoutPage rec with lsn := 8 }).lsn = 8 := rfl
        rw [viewFrom_cons, survivors, List.takeWhile_cons_of_neg]
        · rfl
        · rw [at_, decide_eq_true_iff]
          omega
    · have short : ((leBytes 8 master ++ framesFrom 8 recs).take k).length < masterRecordSize := by
        rw [List.length_take, masterRecordSize]
        omega
      unfold ensureWalInitializedAndTrimmed
      dsimp only
      rw [Option.getD_some, if_pos short]
      rfl

end Bytes

section Log

structure LogSound (records : List (Rec β)) (active : AList fun _ : Nat => TransactionState)
    (lastLsn : Nat → Nat) : Prop where
  chained : Chained records
  disciplined : Disciplined records
  live : ∀ t, live records t = (active.lookup t).map fun _ => lastLsn t
  states : ∀ t state, active.lookup t = some state → isLoserState state = true
  linked : ∀ t, Linked records t (lastLsn t)

variable {records : List (Rec β)} {active : AList fun _ : Nat => TransactionState}
  {lastLsn : Nat → Nat}

private theorem Linked.append {t lsn : Nat} (linked : Linked records t lsn) (rec : Rec β) :
    Linked (append records rec) t lsn :=
  linked.mono fun _ member => mem_append.mpr (.inl member)

private theorem linked_logged (linked : ∀ t, Linked records t (lastLsn t)) (rec : Rec β)
    (ofTxn : isTxnRecord rec.type = true) (t : Nat) :
    Linked (append records rec) t
      (Function.update lastLsn rec.txnId (endLsn records) t) := by
  by_cases same : t = rec.txnId
  · subst same
    rw [update_self]
    exact .inr ⟨_, mem_append.mpr (.inr rfl), ⟨ofTxn, rfl⟩, rfl⟩
  · rw [update_of_ne same]
    exact Linked.append (linked t) rec

section

variable (sound : LogSound records active lastLsn)

include sound

theorem LogSound.update {rec : Rec β}
    (isUpdate : isPageUpdateRecord rec.type = true) (links : Links records rec)
    (isActive : (active.lookup rec.txnId).isSome = true) :
    LogSound (append records rec) active (Function.update lastLsn rec.txnId (endLsn records)) := by
  have ofTxn : isTxnRecord rec.type = true := by simp [isTxnRecord, isUpdate]
  have known : CheckpointedLog.live records rec.txnId = some (lastLsn rec.txnId) := by
    obtain ⟨state, found⟩ := isSome_iff_exists.mp isActive
    rw [sound.live, found]
    rfl
  have notEnd : rec.type ≠ .endCheckpoint := by
    intro isEnd
    rw [isEnd] at isUpdate
    simp [isPageUpdateRecord, isUndoablePageRecord] at isUpdate
  refine ⟨sound.chained.append links, sound.disciplined.append ⟨fun _ _ => by rw [known]; rfl,
    fun isEnd => absurd isEnd notEnd⟩, fun t => ?_, sound.states,
    linked_logged sound.linked rec ofTxn⟩
  rw [live_update isUpdate known t]
  by_cases same : t = rec.txnId
  · subst same
    obtain ⟨state, found⟩ := isSome_iff_exists.mp isActive
    have earlier := (sound.linked rec.txnId).lt_end sound.chained.placed
    rw [if_pos rfl, found, update_self, Option.map_some,
      max_eq_right (Nat.le_of_lt earlier)]
  · rw [if_neg same, update_of_ne same]
    exact sound.live t

theorem LogSound.begin (t : Nat) :
    LogSound (append records (txnRecord .begin t (lastLsn t))) (active.insert t .active)
      (Function.update lastLsn t (endLsn records)) := by
  refine ⟨sound.chained.append (links_txnRecord (.inl rfl) (sound.linked t)),
    sound.disciplined.append ⟨fun _ other => absurd rfl other, fun isEnd => ?_⟩, fun u => ?_,
    fun u state found => ?_, linked_logged sound.linked (txnRecord .begin t (lastLsn t)) rfl⟩
  · cases isEnd
  · rw [live_begin]
    by_cases same : u = t
    · subst same
      rw [if_pos rfl, AList.lookup_insert, update_self]
      rfl
    · rw [if_neg same, AList.lookup_insert_ne same, update_of_ne same]
      exact sound.live u
  · by_cases same : u = t
    · subst same
      rw [AList.lookup_insert, Option.some.injEq] at found
      rw [← found]
      rfl
    · rw [AList.lookup_insert_ne same] at found
      exact sound.states u state found

theorem LogSound.finish {t : Nat} {type : LogRecordType}
    (ends : type = .commit ∨ type = .abort) (isActive : (active.lookup t).isSome = true) :
    LogSound (append records (txnRecord type t (lastLsn t))) (active.erase t)
      (Function.update lastLsn t (endLsn records)) := by
  have ofTxn : isTxnRecord type = true := by
    rcases ends with rfl | rfl <;> rfl
  refine ⟨sound.chained.append (links_txnRecord (.inr ends) (sound.linked t)),
    sound.disciplined.append ⟨fun _ _ => ?_, fun isEnd => ?_⟩, fun u => ?_,
    fun u state found => ?_, linked_logged sound.linked (txnRecord type t (lastLsn t)) ofTxn⟩
  · obtain ⟨state, found⟩ := isSome_iff_exists.mp isActive
    rw [show (txnRecord type t (lastLsn t) : Rec β).txnId = t from rfl, sound.live, found]
    rfl
  · have same : type = .endCheckpoint := isEnd
    simp [same] at ends
  · rw [live_ended records t _ u ends]
    by_cases same : u = t
    · subst same
      rw [if_pos rfl, AList.lookup_erase]
      rfl
    · rw [if_neg same, AList.lookup_erase_ne same, update_of_ne same]
      exact sound.live u
  · by_cases same : u = t
    · subst same
      rw [AList.lookup_erase] at found
      cases found
    · rw [AList.lookup_erase_ne same] at found
      exact sound.states u state found

private theorem LogSound.other {rec : Rec β}
    (links : Links records rec) (follows : Follows records rec)
    (same : ∀ t, CheckpointedLog.live (append records rec) t = CheckpointedLog.live records t) :
    LogSound (append records rec) active lastLsn :=
  ⟨sound.chained.append links, sound.disciplined.append follows,
    fun t => (same t).trans (sound.live t), sound.states, fun t => Linked.append (sound.linked t) rec⟩

theorem LogSound.beginCheckpoint :
    LogSound (append records beginCheckpointRecord) active lastLsn := by
  refine sound.other (links_checkpointRecord (.inl rfl) (by simp))
    ⟨fun ofTxn => (nomatch ofTxn), fun isEnd => (nomatch isEnd)⟩ fun t => ?_
  unfold CheckpointedLog.live
  rw [append, analysis_append, txns_other]
  · rfl
  · exact fun isEnd => by cases isEnd

end

theorem mem_snapshot {tx : CheckpointTxnEntry} : tx ∈ snapshot active lastLsn ↔
    active.lookup tx.txnId = some tx.state ∧ tx.lastLsn = lastLsn tx.txnId := by
  unfold snapshot
  rw [mem_map]
  constructor
  · rintro ⟨⟨t, state⟩, member, rfl⟩
    exact ⟨AList.mem_lookup_iff.mpr member, rfl⟩
  · rintro ⟨found, last⟩
    refine ⟨⟨tx.txnId, tx.state⟩, AList.mem_lookup_iff.mp found, ?_⟩
    rw [← last]

theorem LogSound.listed (sound : LogSound records active lastLsn) :
    (∀ tx ∈ snapshot active lastLsn, isLoserState tx.state = true ∧
      CheckpointedLog.live records tx.txnId = some tx.lastLsn) ∧
    ∀ t, (CheckpointedLog.live records t).isSome → ∃ tx ∈ snapshot active lastLsn, tx.txnId = t := by
  constructor
  · intro tx member
    obtain ⟨found, last⟩ := mem_snapshot.mp member
    refine ⟨sound.states tx.txnId tx.state found, ?_⟩
    rw [sound.live, found, last]
    rfl
  · intro t isLive
    rw [sound.live, Option.isSome_map] at isLive
    obtain ⟨state, found⟩ := isSome_iff_exists.mp isLive
    exact ⟨⟨t, state, lastLsn t⟩, mem_snapshot.mpr ⟨found, rfl⟩, rfl⟩

theorem LogSound.endCheckpoint (sound : LogSound records active lastLsn) {beginLsn : Nat}
    (begins : ∃ older begin, records = older ++ [begin] ∧ begin.type = .beginCheckpoint ∧
      begin.lsn = beginLsn) (pages : List DirtyPageEntry) :
    LogSound (append records (endCheckpointRecord beginLsn (snapshot active lastLsn) pages))
      active lastLsn := by
  obtain ⟨listed, all⟩ := sound.listed
  refine sound.other (links_checkpointRecord (.inr rfl) fun tx member => ?_)
    ⟨fun ofTxn => (nomatch ofTxn), fun _ => ⟨begins, listed, all⟩⟩ fun t => ?_
  · rw [(mem_snapshot.mp member).2]
    exact sound.linked tx.txnId
  · unfold CheckpointedLog.live
    rw [append, analysis_append, txns_end]
    · exact loserLsn_observe_listed listed t
    · rfl

end Log

section Runs

/-- The pool once the pending compensations have reached their pages. -/
def settledPool (s : System β) : Pool β :=
  { s.core.pool with
    buffered := fun p =>
      match s.pending.find? fun c => decide (c.pageId = p) with
      | some c => ⟨c.lsn, c.image⟩
      | none => s.core.pool.buffered p
    pins := s.core.pool.pins ++ s.pending.map fun c => ⟨c.txnId, c.pageId, none, some c.lsn⟩ }

def settled (s : System β) : CheckpointDirtyRace.State β :=
  { s.core with pool := settledPool s }

def CheckpointListed (records : List (Rec β)) (listed : List CheckpointTxnEntry) :
    CheckpointPc → Prop
  | .begun b => ∃ older begin, records = older ++ [begin] ∧ begin.type = .beginCheckpoint ∧
      begin.lsn = b
  | .txnsTaken b txns | .pagesTaken b txns _ => (∃ older begin, records = older ++ [begin] ∧
      begin.type = .beginCheckpoint ∧ begin.lsn = b) ∧ txns = listed
  | .idle | .ended _ _ | .flushed _ => True

structure Inv (base : List (Rec β)) (s : System β) : Prop where
  core : CheckpointDirtyRace.Inv base (settled s)
  log : LogSound s.core.wal.records s.active s.core.lastLsn
  listed : CheckpointListed s.core.wal.records (snapshot s.active s.core.lastLsn) s.core.checkpoint
  apart : (s.pending.map Compensation.pageId).Nodup
  older : ∀ c ∈ s.pending, (s.core.pool.buffered c.pageId).lsn ≤ c.lsn
  behind : ∀ p, (s.core.pool.disk p).lsn ≤ (s.core.pool.buffered p).lsn

variable {s : System β} {core : CheckpointDirtyRace.State β}

private theorem settled_of_nil (none_ : s.pending = []) : settled s = s.core := by
  unfold settled settledPool
  rw [none_]
  simp

private theorem settled_free {p : PageId} (free : ∀ c ∈ s.pending, c.pageId ≠ p) :
    (settledPool s).buffered p = s.core.pool.buffered p := by
  have none_ : (s.pending.find? fun c => decide (c.pageId = p)) = none :=
    List.find?_eq_none.mpr fun c member => by simpa using free c member
  simp only [settledPool, none_]

private theorem settled_pending (apart : (s.pending.map Compensation.pageId).Nodup)
    {c : Compensation β} (member : c ∈ s.pending) :
    (settledPool s).buffered c.pageId = ⟨c.lsn, c.image⟩ := by
  have some_ : (s.pending.find? fun c' => decide (c'.pageId = c.pageId)).isSome :=
    List.find?_isSome.mpr ⟨c, member, decide_eq_true rfl⟩
  obtain ⟨c', found⟩ := isSome_iff_exists.mp some_
  have same : c'.pageId = c.pageId := of_decide_eq_true (List.find?_some found :)
  obtain rfl := List.inj_on_of_nodup_map apart (List.mem_of_find?_eq_some found) member same
  simp only [settledPool, found]

private theorem idle_iff : s.idle = true ↔ s.core.checkpoint = .idle :=
  decide_eq_true_iff

variable {base : List (Rec β)}

private theorem inv_logged {s' : System β} (idle : s.core.checkpoint = .idle)
    (sameCheckpoint : s'.core.checkpoint = s.core.checkpoint)
    (core : CheckpointDirtyRace.Inv base (settled s'))
    (log : LogSound s'.core.wal.records s'.active s'.core.lastLsn)
    (apart : (s'.pending.map Compensation.pageId).Nodup)
    (older : ∀ c ∈ s'.pending, (s'.core.pool.buffered c.pageId).lsn ≤ c.lsn)
    (behind : ∀ p, (s'.core.pool.disk p).lsn ≤ (s'.core.pool.buffered p).lsn) : Inv base s' := by
  refine ⟨core, log, ?_, apart, older, behind⟩
  rw [sameCheckpoint, idle]
  trivial

section

variable (inv : Inv base s)

include inv

private theorem Inv.buffered_le (p : PageId) :
    (s.core.pool.buffered p).lsn ≤ ((settledPool s).buffered p).lsn := by
  by_cases free : ∀ c ∈ s.pending, c.pageId ≠ p
  · rw [settled_free free]
  · simp only [not_forall, not_not] at free
    obtain ⟨c, member, rfl⟩ := free
    rw [settled_pending inv.apart member]
    exact inv.older c member

private theorem Inv.setPool {wal : Wal β} {pool : Pool β}
    (same : wal.records = s.core.wal.records)
    (synced : ∀ e ∈ s.core.wal.records.take s.core.wal.synced, e ∈ wal.records.take wal.synced)
    (sound : PagesSound base s.core.wal.records
      (settledPool { s with core := { s.core with wal := wal, pool := pool } }))
    (newer : ∀ p, (s.core.pool.disk p).lsn ≤ (pool.disk p).lsn)
    (lsns : ∀ p, (pool.buffered p).lsn = (s.core.pool.buffered p).lsn)
    (behind : ∀ p, (pool.disk p).lsn ≤ (pool.buffered p).lsn) :
    Inv base { s with core := { s.core with wal := wal, pool := pool } } := by
  refine ⟨inv.core.setPool same synced sound newer, ?_, ?_, inv.apart, fun c member => ?_, behind⟩
  · show LogSound wal.records s.active s.core.lastLsn
    rw [same]
    exact inv.log
  · show CheckpointListed wal.records (snapshot s.active s.core.lastLsn) s.core.checkpoint
    rw [same]
    exact inv.listed
  · show (pool.buffered c.pageId).lsn ≤ c.lsn
    rw [lsns]
    exact inv.older c member

private theorem Inv.fetch (t : Nat) (p : PageId) :
    Inv base { s with core := { s.core with pool := s.core.pool.fetch t p } } := by
  refine inv.setPool rfl (fun _ member => member) ?_ (fun _ => le_rfl) (fun _ => rfl) inv.behind
  refine inv.core.pages.congr (fun _ => rfl) rfl rfl ?_ ?_
  · intro pin member isLogged
    obtain member | late := List.mem_append.mp member
    · obtain old | new := List.mem_append.mp member
      · exact ⟨pin, mem_append_left _ old, rfl, rfl⟩
      · rw [mem_singleton.mp new] at isLogged
        cases isLogged
    · exact ⟨pin, mem_append_right _ late, rfl, rfl⟩
  · intro pin member isLogged
    obtain old | late := List.mem_append.mp member
    · exact ⟨pin, mem_append_left _ (mem_append_left _ old), rfl, isLogged⟩
    · exact ⟨pin, mem_append_right _ late, rfl, isLogged⟩

private theorem Inv.modify {i : Nat} {pin : Pin β} (found : s.core.pool.pins[i]? = some pin)
    (body : β) :
    Inv base { s with core := { s.core with pool := s.core.pool.modify i pin body } } := by
  have lsns (p : PageId) : ((s.core.pool.modify i pin body).buffered p).lsn =
      (s.core.pool.buffered p).lsn := Pool.modify_lsn body p
  refine inv.setPool rfl (fun _ member => member) ?_ (fun _ => le_rfl) lsns fun p => ?_
  · refine inv.core.pages.congr (fun p => ?_) rfl rfl ?_ ?_
    · unfold settled settledPool
      dsimp only
      split
      · rfl
      · exact lsns p
    · intro other member isLogged
      obtain member | late := List.mem_append.mp member
      · obtain old | rfl := List.mem_or_eq_of_mem_set member
        · exact ⟨other, mem_append_left _ old, rfl, rfl⟩
        · exact ⟨pin, mem_append_left _ (List.mem_of_getElem? found), rfl, rfl⟩
      · exact ⟨other, mem_append_right _ late, rfl, rfl⟩
    · intro other member isLogged
      obtain old | late := List.mem_append.mp member
      · obtain still | rfl := CheckpointDirtyRace.mem_set_of_mem found old
        · exact ⟨other, mem_append_left _ still, rfl, isLogged⟩
        · exact ⟨_, mem_append_left _ (CheckpointDirtyRace.mem_set_self found), rfl, isLogged⟩
      · exact ⟨other, mem_append_right _ late, rfl, isLogged⟩
  · rw [lsns]
    exact inv.behind p

private theorem Inv.unpin {i : Nat} {pin : Pin β} (found : s.core.pool.pins[i]? = some pin) :
    Inv base { s with core := { s.core with pool := s.core.pool.unpin i pin } } := by
  refine inv.setPool rfl (fun _ member => member) ?_ (fun _ => le_rfl) (fun _ => rfl) inv.behind
  have fewer : ∀ other ∈ s.core.pool.pins.eraseIdx i ++ s.pending.map
      (fun c => (⟨c.txnId, c.pageId, none, some c.lsn⟩ : Pin β)),
      other ∈ (settled s).pool.pins := by
    intro other member
    obtain old | late := List.mem_append.mp member
    · exact mem_append_left _ (List.mem_of_mem_eraseIdx old)
    · exact mem_append_right _ late
  have kept : ∀ other ∈ (settled s).pool.pins, other ≠ pin →
      other ∈ s.core.pool.pins.eraseIdx i ++ s.pending.map
        (fun c => (⟨c.txnId, c.pageId, none, some c.lsn⟩ : Pin β)) := by
    intro other member apart
    obtain old | late := List.mem_append.mp member
    · obtain still | rfl := CheckpointDirtyRace.mem_eraseIdx_of_mem found old
      · exact mem_append_left _ still
      · exact absurd rfl apart
    · exact mem_append_right _ late
  by_cases isLogged : pin.logged.isSome
  · refine inv.core.pages.listed (inv.buffered_le pin.pageId) rfl rfl (if_pos isLogged) fewer ?_
    exact fun other member apart => kept other member fun same => apart (by rw [same])
  · refine inv.core.pages.congr (fun _ => rfl) rfl (if_neg isLogged)
      (fun other member _ => ⟨other, fewer other member, rfl, rfl⟩) ?_
    exact fun other member otherLogged => ⟨other, kept other member
      fun same => isLogged (same ▸ otherLogged), rfl, otherLogged⟩

private theorem Inv.flushLog (lsn : Nat) :
    Inv base { s with core := { s.core with wal := s.core.wal.flushUpTo lsn } } :=
  inv.setPool (s.core.wal.records_flushUpTo lsn)
    (fun _ member => CheckpointDirtyRace.mem_take_flushUpTo lsn member) inv.core.pages
    (fun _ => le_rfl) (fun _ => rfl) inv.behind

private theorem Inv.flushPage (p : PageId) : Inv base { s with core := { s.core with
    wal := s.core.wal.flushUpTo (s.core.pool.buffered p).lsn
    pool := s.core.pool.flush p } } := by
  have onDisk (q : PageId) : (s.core.pool.disk q).lsn ≤ ((s.core.pool.flush p).disk q).lsn ∧
      ((s.core.pool.flush p).disk q).lsn ≤ (s.core.pool.buffered q).lsn := by
    by_cases same : q = p
    · subst same
      simpa [Pool.flush] using inv.behind q
    · simpa [Pool.flush, update_of_ne same] using inv.behind q
  refine inv.setPool (s.core.wal.records_flushUpTo _)
    (fun _ member => CheckpointDirtyRace.mem_take_flushUpTo _ member) ?_ (fun q => (onDisk q).1)
    (fun _ => rfl) fun q => (onDisk q).2
  refine inv.core.pages.flushed (inv.behind p) (inv.buffered_le p) ?_
  by_cases free : ∀ c ∈ s.pending, c.pageId ≠ p
  · exact .inl (congrArg Page.lsn (settled_free free).symm)
  · simp only [not_forall, not_not] at free
    obtain ⟨c, member, rfl⟩ := free
    exact .inr ⟨_, mem_append_right _ (mem_map.mpr ⟨c, member, rfl⟩), rfl, rfl⟩

private theorem Inv.logUpdate (idle : s.core.checkpoint = .idle) {i : Nat} {pin : Pin β}
    {type : LogRecordType} {body : β} (found : s.core.pool.pins[i]? = some pin)
    (free : ∀ c ∈ s.pending, c.pageId ≠ pin.pageId) (undoable : isUndoablePageRecord type = true)
    (isActive : (s.active.lookup pin.txnId).isSome = true)
    (isUpdate : isPageUpdateRecord type = true) :
    Inv base { s with core := { s.core with
      wal := s.core.wal.append (updateRecord s.core pin body type)
      lastLsn := Function.update s.core.lastLsn pin.txnId (endLsn s.core.wal.records)
      pool := s.core.pool.setPageLsn i pin (endLsn s.core.wal.records) } } := by
  have keeps (q : PageId) (apart : q ≠ pin.pageId) :
      (s.core.pool.setPageLsn i pin (endLsn s.core.wal.records)).buffered q =
        s.core.pool.buffered q := by
    simp [Pool.setPageLsn, update_of_ne apart]
  have sets : ((s.core.pool.setPageLsn i pin (endLsn s.core.wal.records)).buffered
      pin.pageId).lsn = endLsn s.core.wal.records := by
    simp [Pool.setPageLsn]
  refine inv_logged idle rfl ?_ ?_ inv.apart (fun c member => ?_) fun p => ?_
  · refine inv.core.logged (fun isEnd => ?_) ?_ rfl
    · have same : type = .endCheckpoint := isEnd
      rw [same] at isUpdate
      cases isUpdate
    · refine inv.core.pages.logImage inv.core.placed inv.core.grown (p := pin.pageId)
        ⟨isUpdate, rfl, rfl, rfl⟩ rfl rfl ?_ ?_
        ⟨_, mem_append_left _ (CheckpointDirtyRace.mem_set_self found), rfl, rfl⟩ ?_ ?_
      · exact Eq.trans (congrArg Page.lsn (settled_free free)) sets
      · intro q apart
        unfold settled settledPool
        dsimp only
        split
        · rfl
        · exact keeps q apart
      · intro other member apart
        obtain old | late := List.mem_append.mp member
        · obtain still | rfl := CheckpointDirtyRace.mem_set_of_mem found old
          · exact mem_append_left _ still
          · exact absurd rfl apart
        · exact mem_append_right _ late
      · intro other member lsn isLogged
        obtain member | late := List.mem_append.mp member
        · obtain prior | rfl := List.mem_or_eq_of_mem_set member
          · exact .inl ⟨other, mem_append_left _ prior, rfl, isLogged⟩
          · cases isLogged
            exact .inr ⟨rfl, rfl⟩
        · exact .inl ⟨other, mem_append_right _ late, rfl, isLogged⟩
  · exact inv.log.update isUpdate
      (links_makePageImageLogRecord undoable (inv.log.linked pin.txnId)) isActive
  · dsimp only
    rw [keeps _ (free c member)]
    exact inv.older c member
  · dsimp only
    by_cases same : p = pin.pageId
    · subst same
      rw [sets]
      exact Nat.le_of_lt (lt_of_le_of_lt (inv.core.pages.behind _) (inv.core.pages.inLog _))
    · rw [keeps p same]
      exact inv.behind p

private theorem Inv.logTxn {t : Nat} {type : LogRecordType}
    (taken : CheckpointDirtyRace.step s.core (.logTxn t type) = some core) :
    CheckpointDirtyRace.Inv base (settled { s with core := core }) ∧
      core.wal.records = append s.core.wal.records (txnRecord type t (s.core.lastLsn t)) ∧
      core.lastLsn = Function.update s.core.lastLsn t (endLsn s.core.wal.records) ∧
      core.checkpoint = s.core.checkpoint ∧ core.pool = s.core.pool := by
  have allowed : SnapshotAllowed (settled s) (.logTxn t type) := trivial
  simp only [CheckpointDirtyRace.step] at taken
  split at taken
  · rename_i kind
    cases taken
    exact ⟨CheckpointDirtyRace.inv_step inv.core allowed (if_pos kind), rfl, rfl, rfl, rfl⟩
  · cases taken

private theorem Inv.appendClr (idle : s.core.checkpoint = .idle) {t : Nat} {rec : Rec β} {image : β}
    (free : ∀ c ∈ s.pending, c.pageId ≠ rec.pageId) (member : rec ∈ s.core.wal.records)
    (hasImage : rec.beforeImage = some image) (undoable : isUndoablePageRecord rec.type = true)
    (own : rec.txnId = t) (isActive : (s.active.lookup t).isSome = true) :
    Inv base { s with
      core := { s.core with
        wal := s.core.wal.append (clrRecord s t rec)
        lastLsn := Function.update s.core.lastLsn t (endLsn s.core.wal.records) }
      pending := s.pending ++ [⟨t, rec.pageId, endLsn s.core.wal.records, image⟩] } := by
  have version : IsUpdateOf rec.pageId (clrRecord s t rec) :=
    ⟨rfl, rfl, rfl,
      by rw [show (clrRecord s t rec).afterImage = rec.beforeImage from rfl, hasImage]; rfl⟩
  have notIn : rec.pageId ∉ s.pending.map Compensation.pageId := by
    intro among
    obtain ⟨c, inside, same⟩ := mem_map.mp among
    exact free c inside same
  let last : Compensation β := ⟨t, rec.pageId, endLsn s.core.wal.records, image⟩
  have apart : ((s.pending ++ [last]).map Compensation.pageId).Nodup := by
    rw [List.map_append, List.map_singleton]
    exact List.nodup_append_comm.mp (List.nodup_cons.mpr ⟨notIn, inv.apart⟩)
  have among : last ∈ s.pending ++ [last] := mem_append_right _ (mem_singleton.mpr rfl)
  refine inv_logged idle rfl ?_ ?_ apart (fun c inside => ?_) inv.behind
  · refine inv.core.logged (fun isEnd => by cases isEnd) ?_ rfl
    refine inv.core.pages.logImage inv.core.placed inv.core.grown version rfl rfl ?_ ?_
      ⟨⟨t, rec.pageId, none, some last.lsn⟩, mem_append_right _
        (mem_map.mpr ⟨last, among, rfl⟩), rfl, rfl⟩ ?_ ?_
    · exact congrArg Page.lsn (settled_pending (c := last) apart among)
    · intro q other
      have miss : decide (rec.pageId = q) = false := decide_eq_false other.symm
      simp only [settled, settledPool, List.find?_append, List.find?_singleton, miss,
        Bool.false_eq_true, if_false, Option.or_none]
    · intro pin inside _
      obtain old | late := List.mem_append.mp inside
      · exact mem_append_left _ old
      · refine mem_append_right _ ?_
        rw [List.map_append]
        exact mem_append_left _ late
    · intro pin inside lsn isLogged
      obtain old | late := List.mem_append.mp inside
      · exact .inl ⟨pin, mem_append_left _ old, rfl, isLogged⟩
      · rw [List.map_append] at late
        obtain late | new := List.mem_append.mp late
        · exact .inl ⟨pin, mem_append_right _ late, rfl, isLogged⟩
        · rw [mem_singleton.mp new] at isLogged ⊢
          exact .inr ⟨rfl, (Option.some.inj isLogged).symm⟩
  · have link : Linked s.core.wal.records t rec.prevLsn := by
      rw [← own]
      exact inv.log.chained.linked_prev member (isTxnRecord_of_undoable undoable)
    have links : Links s.core.wal.records (clrRecord s t rec) :=
      links_makeClrPageUndoRecord (inv.log.linked t) link
    exact inv.log.update rfl links isActive
  · obtain old | new := List.mem_append.mp inside
    · exact inv.older c old
    · rw [mem_singleton.mp new]
      have inLog := inv.core.pages.inLog rec.pageId
      rw [show (settled s).pool.buffered rec.pageId = _ from settled_free free] at inLog
      exact Nat.le_of_lt inLog

private theorem Inv.applyClr {i : Nat} {c : Compensation β}
    (found : s.pending[i]? = some c) : Inv base { s with
      core := { s.core with pool := applyImage s.core.pool c }
      pending := s.pending.eraseIdx i } := by
  obtain ⟨inside, rfl⟩ := List.getElem?_eq_some_iff.mp found
  have perm := List.getElem_cons_eraseIdx_perm inside
  have distinct := (perm.map Compensation.pageId).nodup_iff.mpr inv.apart
  obtain ⟨alone, rest⟩ := List.nodup_cons.mp distinct
  have others : ∀ c ∈ s.pending.eraseIdx i, c.pageId ≠ s.pending[i].pageId :=
    fun c member same => alone (mem_map.mpr ⟨c, member, same⟩)
  have here : s.pending[i] ∈ s.pending := List.getElem_mem inside
  have buffered (p : PageId) : ((settledPool { s with
      core := { s.core with pool := applyImage s.core.pool s.pending[i] }
      pending := s.pending.eraseIdx i }).buffered p).lsn = ((settledPool s).buffered p).lsn := by
    by_cases same : p = s.pending[i].pageId
    · rw [same, settled_free others, settled_pending inv.apart here]
      simp [applyImage]
    · by_cases free : ∀ c ∈ s.pending, c.pageId ≠ p
      · rw [settled_free free, settled_free fun c member => free c (List.mem_of_mem_eraseIdx member)]
        simp [applyImage, update_of_ne same]
      · simp only [not_forall, not_not] at free
        obtain ⟨c, member, rfl⟩ := free
        have still : c ∈ s.pending.eraseIdx i := by
          obtain rfl | still := List.mem_cons.mp (perm.mem_iff.mpr member)
          · exact absurd rfl same
          · exact still
        rw [settled_pending inv.apart member, settled_pending (s := { s with
          core := { s.core with pool := applyImage s.core.pool s.pending[i] }
          pending := s.pending.eraseIdx i }) rest still]
  have core : CheckpointDirtyRace.Inv base (settled { s with
      core := { s.core with pool := applyImage s.core.pool s.pending[i] }
      pending := s.pending.eraseIdx i }) := by
    refine inv.core.setPool rfl (fun _ member => member) ?_ (fun _ => le_rfl)
    refine inv.core.pages.congr buffered rfl rfl ?_ ?_
    · intro pin member isLogged
      obtain member | late := List.mem_append.mp member
      · obtain old | new := List.mem_append.mp member
        · exact ⟨pin, mem_append_left _ old, rfl, rfl⟩
        · rw [mem_singleton.mp new]
          exact ⟨_, mem_append_right _ (mem_map.mpr ⟨_, here, rfl⟩), rfl, rfl⟩
      · obtain ⟨c, inRest, rfl⟩ := mem_map.mp late
        exact ⟨_, mem_append_right _ (mem_map.mpr
          ⟨c, List.mem_of_mem_eraseIdx inRest, rfl⟩), rfl, rfl⟩
    · intro pin member isLogged
      obtain old | late := List.mem_append.mp member
      · exact ⟨pin, mem_append_left _ (mem_append_left _ old), rfl, isLogged⟩
      · obtain ⟨c, among, rfl⟩ := mem_map.mp late
        obtain rfl | still := List.mem_cons.mp (perm.mem_iff.mpr among)
        · exact ⟨_, mem_append_left _ (mem_append_right _
            (mem_singleton.mpr rfl)), rfl, rfl⟩
        · exact ⟨_, mem_append_right _ (mem_map.mpr ⟨c, still, rfl⟩), rfl, rfl⟩
  refine ⟨core, inv.log, inv.listed, rest, fun c member => ?_, fun p => ?_⟩
  · simp only [applyImage, update_of_ne (others c member)]
    exact inv.older c (List.mem_of_mem_eraseIdx member)
  · by_cases same : p = s.pending[i].pageId
    · rw [same]
      simp only [applyImage, update_self]
      exact le_trans (inv.behind _) (inv.older _ here)
    · simp only [applyImage, update_of_ne same]
      exact inv.behind p

private theorem Inv.page {a : Label β} (allowed : Applied s (.page a))
    (enabled : (isFlush a || s.idle && isOperation s a) = true)
    (taken : CheckpointDirtyRace.step s.core a = some core) : Inv base { s with core := core } := by
  cases a with
  | fetch t p =>
    cases taken
    exact inv.fetch t p
  | modify i body =>
    simp only [CheckpointDirtyRace.step, bind_eq_bind, bind_eq_some_iff] at taken
    obtain ⟨pin, found, rest⟩ := taken
    split at rest <;> cases rest
    exact inv.modify found body
  | logUpdate i type =>
    simp only [CheckpointDirtyRace.step, bind_eq_bind, bind_eq_some_iff] at taken
    obtain ⟨pin, found, body, changed, rest⟩ := taken
    split at rest
    · rename_i isUpdate
      cases rest
      simp only [isFlush, Bool.false_or, Bool.and_eq_true, isOperation, found, Option.any_some]
        at enabled
      obtain ⟨idle, undoable, isActive⟩ := enabled
      exact inv.logUpdate (idle_iff.mp idle) found (allowed pin found) undoable isActive isUpdate
    · cases rest
  | unpin i =>
    simp only [CheckpointDirtyRace.step, bind_eq_bind, bind_eq_some_iff] at taken
    obtain ⟨pin, found, rest⟩ := taken
    split at rest <;> cases rest
    exact inv.unpin found
  | logTxn t type => simp [isFlush, isOperation] at enabled
  | flushLog lsn =>
    cases taken
    exact inv.flushLog lsn
  | flushPage p =>
    simp only [CheckpointDirtyRace.step] at taken
    split at taken <;> cases taken
    exact inv.flushPage p
  | checkpoint txns => simp [isFlush, isOperation] at enabled

private theorem Inv.checkpoint (quiet : s.quiet = true)
    (taken : CheckpointDirtyRace.step s.core (.checkpoint (snapshot s.active s.core.lastLsn)) =
      some core) :
    Inv base { s with core := core } := by
  obtain ⟨empty, calm⟩ := Bool.and_eq_true_iff.mp quiet
  have none_ : s.pending = [] := List.isEmpty_iff.mp empty
  have before : CheckpointDirtyRace.Inv base s.core := settled_of_nil none_ ▸ inv.core
  have allowed : SnapshotAllowed s.core (.checkpoint (snapshot s.active s.core.lastLsn)) := by
    intro pin member unlisted
    have unlogged := (Bool.and_eq_true_iff.mp (List.all_eq_true.mp calm pin member)).2
    rw [Option.isNone_iff_eq_none] at unlogged
    unfold CheckpointDirtyRace.UnlistedUpdate at unlisted
    rw [unlogged] at unlisted
    cases pc : s.core.checkpoint <;> rw [pc] at unlisted <;> exact unlisted
  have after := CheckpointDirtyRace.inv_step before allowed taken
  have listed := inv.listed
  have logSound := inv.log
  have samePool : core.pool = s.core.pool := by
    cases taken
    rfl
  refine ⟨by rw [settled_of_nil (by exact none_)]; exact after, ?_, ?_, inv.apart,
    samePool ▸ inv.older, samePool ▸ inv.behind⟩
  all_goals
    cases taken
    cases pc : s.core.checkpoint with
    | idle => ?_
    | begun b => ?_
    | txnsTaken b txns => ?_
    | pagesTaken b txns pages => ?_
    | ended b e => ?_
    | flushed b => ?_
  · exact logSound.beginCheckpoint
  · exact logSound
  · exact logSound
  · rw [pc] at listed
    obtain ⟨begins, rfl⟩ := listed
    exact logSound.endCheckpoint begins pages
  · simpa [createCheckpoint] using logSound
  · exact logSound
  · exact ⟨s.core.wal.records, _, rfl, rfl, rfl⟩
  · rw [pc] at listed
    exact ⟨listed, rfl⟩
  · rw [pc] at listed
    exact listed
  · trivial
  · trivial
  · trivial

theorem inv_step {s' : System β} {a : Event β} (allowed : Applied s a)
    (taken : step s a = some s') : Inv base s' := by
  cases a with
  | begin =>
    simp only [step] at taken
    split at taken
    · rename_i idle
      obtain ⟨core, moved, rfl⟩ := map_eq_some_iff.mp taken
      obtain ⟨after, records, lastLsn, checkpoint, samePool⟩ := inv.logTxn moved
      refine inv_logged (idle_iff.mp idle) checkpoint after ?_ inv.apart (samePool ▸ inv.older)
        (samePool ▸ inv.behind)
      dsimp only
      rw [records, lastLsn]
      exact inv.log.begin s.nextTxnId
    · cases taken
  | setState t state =>
    simp only [step] at taken
    split at taken
    · rename_i enabled
      cases taken
      simp only [Bool.and_eq_true] at enabled
      obtain ⟨⟨idle, isActive⟩, loser⟩ := enabled
      obtain ⟨old, found⟩ := isSome_iff_exists.mp isActive
      refine inv_logged (idle_iff.mp idle) rfl inv.core ?_ inv.apart inv.older inv.behind
      refine ⟨inv.log.chained, inv.log.disciplined, fun u => ?_, fun u new known => ?_,
        inv.log.linked⟩
      · rw [inv.log.live]
        by_cases same : u = t
        · subst same
          rw [found, AList.lookup_insert]
          rfl
        · rw [AList.lookup_insert_ne same]
      · by_cases same : u = t
        · subst same
          rw [AList.lookup_insert, Option.some.injEq] at known
          rw [← known]
          exact loser
        · rw [AList.lookup_insert_ne same] at known
          exact inv.log.states u new known
    · cases taken
  | page a =>
    simp only [step] at taken
    split at taken
    · rename_i enabled
      obtain ⟨core, moved, rfl⟩ := map_eq_some_iff.mp taken
      exact inv.page allowed enabled moved
    · cases taken
  | appendClr t lsn =>
    simp only [step, bind_eq_bind, bind_eq_some_iff] at taken
    obtain ⟨rec, found, image, hasImage, rest⟩ := taken
    split at rest
    · rename_i enabled
      cases rest
      simp only [Bool.and_eq_true, decide_eq_true_iff] at enabled
      obtain ⟨⟨⟨idle, isActive⟩, undoable⟩, own⟩ := enabled
      exact inv.appendClr (idle_iff.mp idle) (allowed rec found) (findRecord_mem found).1 hasImage
        undoable own isActive
    · cases rest
  | applyClr i =>
    simp only [step, bind_eq_bind, bind_eq_some_iff] at taken
    obtain ⟨c, found, rest⟩ := taken
    split at rest
    · cases rest
      exact inv.applyClr found
    · cases rest
  | finish t final =>
    simp only [step, bind_eq_bind, bind_eq_some_iff] at taken
    obtain ⟨type, ends, rest⟩ := taken
    split at rest
    · rename_i enabled
      simp only [Bool.and_eq_true] at enabled
      obtain ⟨core, moved, rfl⟩ := map_eq_some_iff.mp rest
      obtain ⟨after, records, lastLsn, checkpoint, samePool⟩ := inv.logTxn moved
      have kind : type = .commit ∨ type = .abort := by
        cases final <;> simp [endType] at ends <;> simp [← ends]
      have ended : Inv base { s with core := core, active := s.active.erase t } := by
        refine inv_logged (idle_iff.mp enabled.1) checkpoint after ?_ inv.apart
          (samePool ▸ inv.older) (samePool ▸ inv.behind)
        dsimp only
        rw [records, lastLsn]
        exact inv.log.finish kind enabled.2
      exact ended.flushLog (endLsn s.core.wal.records)
    · cases rest
  | checkpoint =>
    simp only [step] at taken
    split at taken
    · rename_i quiet
      obtain ⟨core, moved, rfl⟩ := map_eq_some_iff.mp taken
      exact inv.checkpoint quiet moved
    · cases taken

end

structure Opened (base : List (Rec β)) (master : Nat) (disk : PageId → Page β) : Prop where
  chained : Chained base
  disciplined : Disciplined base
  ended : ∀ t, live base t = none
  known : master < endLsn base
  recovered : Recovered base disk

def freshDisk (body : PageId → β) : PageId → Page β := fun p => ⟨0, body p⟩

theorem opened_fresh (body : PageId → β) : Opened [] 0 (freshDisk body) where
  chained := chained_nil
  disciplined := disciplined_nil
  ended _ := rfl
  known := by simp [LogManager.masterRecordSize]
  recovered := ⟨fun _ _ member => absurd member List.not_mem_nil, fun _ => by
    simp [freshDisk, LogManager.masterRecordSize]⟩

private theorem inv_start {master : Nat} {disk : PageId → Page β} (opened : Opened base master disk) :
    Inv base (System.start base master disk) := by
  have start : Run CheckpointDirtyRace.step SnapshotAllowed
      (CheckpointDirtyRace.State.start base master disk) [] (.start base master disk) := .nil
  refine ⟨CheckpointDirtyRace.inv_run opened.chained.placed opened.known opened.recovered start,
    ⟨opened.chained, opened.disciplined, fun t => ?_, fun t state found => ?_, fun _ => .inl rfl⟩,
    trivial, List.nodup_nil, fun _ member => absurd member List.not_mem_nil, fun _ => le_rfl⟩
  · exact opened.ended t
  · simp [System.start] at found

theorem inv_run {master : Nat} {disk : PageId → Page β} (opened : Opened base master disk)
    {events : List (Event β)} (run : Run step Applied (System.start base master disk) events s) :
    Inv base s :=
  run.invariant (Inv base) (inv_start opened) fun _ _ _ inv allowed taken =>
    inv_step inv allowed taken

end Runs

section Restart

variable {base : List (Rec β)}

variable {e : Rec β} {s : System β}

private theorem exists_checkpoint {log : List (Rec β)} (disciplined : Disciplined log)
    (member : e ∈ log) (ends : e.type = .endCheckpoint) :
    ∃ before begin after, log = before ++ begin :: e :: after ∧ begin.type = .beginCheckpoint ∧
      begin.lsn = e.prevLsn := by
  obtain ⟨before, after, split⟩ := List.append_of_mem member
  obtain ⟨older, begin, whole, begins, at_⟩ := ((disciplined before e after split).ends ends).begins
  refine ⟨older, begin, after, ?_, begins, at_⟩
  rw [split, whole, List.append_assoc, List.singleton_append]

private theorem covers_missing (inv : Inv base s) {n : Nat} {r : Rec β} {p : PageId}
    (endKept : e ∈ s.core.wal.records.take n) (ends : e.type = .endCheckpoint)
    (later : e.prevLsn < e.lsn) (kept : r ∈ s.core.wal.records.take n) (update : IsUpdateOf p r)
    (last : ∀ x ∈ s.core.wal.records.take n, IsUpdateOf p x → x.lsn ≤ r.lsn)
    (missing : (s.core.pool.disk p).lsn < r.lsn) :
    Covers (analysis e.prevLsn (s.core.wal.records.take n)).dirtyPages p r.lsn := by
  have inLog {x : Rec β} (found : x ∈ s.core.wal.records.take n) : x ∈ s.core.wal.records :=
    List.mem_of_mem_take found
  have sameDisk : (settled s).pool.disk = s.core.pool.disk := rfl
  by_cases reached : e.prevLsn ≤ r.lsn
  · exact covers_of_update (mem_scanned.mpr ⟨kept, .inr reached⟩) update
  · by_cases fresh : endLsn base ≤ e.lsn
    · obtain ⟨r', found, version, beforeEnd, rest⟩ := (inv.core.ends e (inLog endKept) ends fresh).2
        p r (inLog kept) update (by omega) (by rw [sameDisk]; exact missing)
      have found' : r' ∈ s.core.wal.records.take n :=
        inv.core.placed.mem_take_of_lt endKept found beforeEnd
      have bound := last r' found' version
      rcases rest with after | ⟨dp, listed, rfl, le⟩
      · omega
      · exact (covers_of_checkpoint (mem_scanned.mpr ⟨endKept, .inr (by omega)⟩) ends listed).mono
          (le_trans le bound)
    · have old := inv.core.pages.current p r (inLog kept) update (by omega)
      rw [sameDisk] at old
      omega

private theorem redo_eq (inv : Inv base s) {n : Nat} (endKept : e ∈ s.core.wal.records.take n)
    (ends : e.type = .endCheckpoint) (later : e.prevLsn < e.lsn) :
    redo (analysis e.prevLsn (s.core.wal.records.take n)).dirtyPages (s.core.wal.records.take n)
      s.core.pool.disk =
    redo (analysis 0 (s.core.wal.records.take n)).dirtyPages (s.core.wal.records.take n)
      s.core.pool.disk := by
  funext p
  by_cases current : ∀ r ∈ s.core.wal.records.take n, IsUpdateOf p r →
      r.lsn ≤ (s.core.pool.disk p).lsn
  · rw [redo_current current, redo_current current]
  · simp only [not_forall, Nat.not_le] at current
    obtain ⟨r, member, update, missing⟩ := current
    have placed := placed_take inv.core.placed n
    change Placed (s.core.wal.records.take n) at placed
    obtain ⟨before, newest, after, split, version, last⟩ := exists_newest ⟨r, member, update⟩
    have isNewest : ∀ x ∈ s.core.wal.records.take n, IsUpdateOf p x → x.lsn ≤ newest.lsn := by
      intro x found isVersion
      rw [split] at found placed
      rcases List.mem_append.mp found with early | late
      · have atNewest := placed before after newest rfl
        have bound := (placed_left placed).lsn_lt_end early
        omega
      · rcases List.mem_cons.mp late with rfl | afterwards
        · exact le_rfl
        · exact absurd isVersion (last x afterwards)
    have kept : newest ∈ s.core.wal.records.take n := by
      rw [split]
      simp
    have older : (s.core.pool.disk p).lsn < newest.lsn :=
      lt_of_lt_of_le missing (isNewest r member update)
    have covers := covers_missing inv endKept ends later kept version isNewest older
    have covers' := covers_of_update (mem_scanned.mpr ⟨kept, .inl rfl⟩) version
    obtain ⟨body, image⟩ := isSome_iff_exists.mp version.image
    rw [split] at covers covers' placed ⊢
    rw [redo_newest s.core.pool.disk placed version image last covers older,
      redo_newest s.core.pool.disk placed version image last covers' older]

theorem recover_truncated {master : Nat} {disk : PageId → Page β} (opened : Opened base master disk)
    {events : List (Event β)} (run : Run step Applied (System.start base master disk) events s)
    (k : Nat) (whole : ¬CutsCheckpoint k s.core.wal.records s.core.master) :
    ∃ fromMaster fromStart,
      recover (repairedMaster (survivors k s.core.wal.records) s.core.master)
        (survivors k s.core.wal.records) s.core.pool.disk = .done fromMaster ∧
      recover 0 (survivors k s.core.wal.records) s.core.pool.disk = .done fromStart ∧
      fromMaster.pages = fromStart.pages := by
  have inv := inv_run opened run
  obtain ⟨n, prefix_⟩ := survivors_eq_take k s.core.wal.records
  have chained := inv.log.chained.take n
  have disciplined := inv.log.disciplined.take n
  by_cases keeps : ∃ r ∈ survivors k s.core.wal.records, r.lsn = s.core.master ∧
      r.type = .beginCheckpoint
  · have ended : ∃ e ∈ survivors k s.core.wal.records, e.prevLsn = s.core.master ∧
        e.type = .endCheckpoint := by
      by_contra cut
      exact whole ⟨keeps, cut⟩
    have kept : repairedMaster (survivors k s.core.wal.records) s.core.master = s.core.master := by
      obtain ⟨r, member, at_, begins⟩ := keeps
      refine if_pos (List.any_eq_true.mpr ⟨r, member, ?_⟩)
      simp [at_, begins]
    rw [kept, prefix_]
    rw [prefix_] at ended
    obtain ⟨e, endKept, back, ends⟩ := ended
    obtain ⟨before, begin, after, split, begins, at_⟩ := exists_checkpoint disciplined endKept ends
    have later : e.prevLsn < e.lsn := by
      have placed := chained.placed
      rw [split, ← List.nil_append (e :: after)] at placed
      rw [← at_]
      exact placed.lsn_lt
    refine recover_eq chained ?_ ?_
    · rw [← back, ← at_, split]
      rw [split] at disciplined chained
      exact sameLosers_analysis chained.placed disciplined begins ends
    · rw [← back]
      exact redo_eq inv endKept ends later
  · have cleared : repairedMaster (survivors k s.core.wal.records) s.core.master = 0 := by
      refine if_neg fun found => keeps ?_
      obtain ⟨r, member, both⟩ := List.any_eq_true.mp found
      simp only [Bool.and_eq_true, beq_iff_eq] at both
      exact ⟨r, member, both⟩
    rw [cleared, prefix_]
    exact recover_eq chained (fun _ => rfl) rfl

/-- While the compensation of transaction `1` is on its way to page `(1, 0)`, that page is flushed
and `2` logs an update of page `(1, 1)`; a checkpoint follows. -/
def rolledBackTrace : List (Event Nat) :=
  [.begin, .begin, .page (.fetch 1 ⟨1, 0⟩), .page (.modify 0 7), .page (.logUpdate 0 .heapInsert),
    .page (.unpin 0), .page (.fetch 2 ⟨1, 1⟩), .page (.modify 0 9), .appendClr 1 116,
    .page (.logUpdate 0 .heapInsert), .page (.flushPage ⟨1, 0⟩), .applyClr 0, .page (.unpin 0),
    .page (.unpin 0), .finish 1 .aborted, .checkpoint, .checkpoint, .checkpoint, .checkpoint,
    .checkpoint, .checkpoint]

/-- Transaction `1` changes page `(1, 0)`, the page is flushed, and a checkpoint follows. -/
def checkpointedTrace : List (Event Nat) :=
  [.begin, .page (.fetch 1 ⟨1, 0⟩), .page (.modify 0 7), .page (.logUpdate 0 .heapInsert),
    .page (.unpin 0), .page (.flushPage ⟨1, 0⟩), .checkpoint, .checkpoint, .checkpoint,
    .checkpoint, .checkpoint, .checkpoint]

/-- Transaction `2` logs an update of the page that the compensation of transaction `1` is on its way
to, and the page is set back to the older record. -/
def overtakenTrace : List (Event Nat) :=
  [.begin, .begin, .page (.fetch 1 ⟨1, 0⟩), .page (.modify 0 7), .page (.logUpdate 0 .heapInsert),
    .page (.unpin 0), .appendClr 1 116, .page (.fetch 2 ⟨1, 0⟩), .page (.modify 0 9),
    .page (.logUpdate 0 .heapUpdate), .page (.unpin 0), .applyClr 0, .page (.unpin 0),
    .finish 1 .aborted, .finish 2 .committed, .page (.flushPage ⟨1, 0⟩), .checkpoint, .checkpoint,
    .checkpoint, .checkpoint, .checkpoint, .checkpoint]

theorem recover_differs_overtaken : ∃ s : System Nat,
    Run step (fun _ _ => True) (System.start [] 0 (freshDisk fun _ => 0)) overtakenTrace s ∧
    ((recover s.core.master s.core.wal.records s.core.pool.disk).state.pages ⟨1, 0⟩).body = 0 ∧
    ((recover 0 s.core.wal.records s.core.pool.disk).state.pages ⟨1, 0⟩).body = 9 := by
  have executed : ((exec (fun s a => if True then step s a else none)
      (System.start ([] : List (Rec Nat)) 0 (freshDisk fun _ => 0)) overtakenTrace).map fun s =>
        decide (((recover s.core.master s.core.wal.records
          s.core.pool.disk).state.pages ⟨1, 0⟩).body = 0 ∧
          ((recover 0 s.core.wal.records s.core.pool.disk).state.pages ⟨1, 0⟩).body = 9)) =
      some true := by
    decide
  obtain ⟨s, ran, facts⟩ := map_eq_some_iff.mp executed
  exact ⟨s, run_of_exec ran, of_decide_eq_true facts⟩

end Restart

end GraniteDb.Recovery.MasterRepair
