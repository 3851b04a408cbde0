/- The log file at byte level, its durable prefix, and what FlushUpTo makes durable. -/

import GraniteDb.Recovery.WalRecords
import Mathlib.Data.List.Induction
import Mathlib.Algebra.Ring.Nat

set_option linter.dupNamespace false

namespace GraniteDb.Recovery.LogManager

open Recovery.WalRecords
open List (length_append mem_singleton)

/-- `sizeof(LSN)`: the master record is the first eight bytes of the file. -/
def masterRecordSize : Nat := 8

structure RecordSpan where
  lsn : Nat
  size : Nat
  type : LogRecordType
  deriving DecidableEq

/-- What `ScanWalFile` finds: the end of the valid part and the records before it. -/
structure WalScanResult where
  validEnd : Nat
  records : List RecordSpan
  deriving DecidableEq

/-- The loop of `ScanWalFile` at `offset`. A round that goes on advances by at least the
four size bytes, so the file length is fuel enough. -/
def scanLoop (file : Bytes) : Nat → Nat → List RecordSpan → WalScanResult
  | 0, offset, found => ⟨offset, found⟩
  | fuel + 1, offset, found =>
    if offset < file.length then
      match readPod 4 (file.drop offset) with
      | none => ⟨offset, found⟩
      | some (totalSize, rest) =>
        if totalSize < 4 then ⟨offset, found⟩
        else if file.length < offset + totalSize then ⟨offset, found⟩
        else
          match deserializeLogRecordPayload (rest.take (totalSize - 4)) with
          | none => ⟨offset, found⟩
          | some rec =>
            scanLoop file fuel (offset + totalSize)
              (found ++ [⟨offset, totalSize, rec.type⟩])
    else ⟨offset, found⟩

/-- `ScanWalFile`, for a file that holds at least the master record. -/
def scanWalFile (file : Bytes) : WalScanResult :=
  scanLoop file file.length masterRecordSize []

/-- A nonzero master Nat must be the offset of a `BEGIN_CHECKPOINT` record. -/
def masterInvalid (scan : WalScanResult) (master : Nat) : Bool :=
  master ≠ 0 && !(scan.records.any fun r => r.lsn == master && r.type == .beginCheckpoint)

/-- `EnsureWalInitializedAndTrimmed`: the file the constructor goes on with, and the scan
of it. `none` is a missing file. -/
def ensureWalInitializedAndTrimmed (content : Option Bytes) : Bytes × WalScanResult :=
  let file := content.getD []
  if file.length < masterRecordSize then
    (leBytes 8 0, ⟨masterRecordSize, []⟩)
  else
    let scan := scanWalFile file
    let trimmed := file.take scan.validEnd
    if masterInvalid scan (leNat (trimmed.take 8)) then
      (leBytes 8 0 ++ trimmed.drop 8, scan)
    else (trimmed, scan)

/-- A `LogManager`. `file` is what the stream has been given; the first `synced` bytes of
it are on stable storage. -/
structure LogManager where
  file : Bytes
  synced : Nat
  persistentLsn : Nat
  nextLsn : Nat
  deriving DecidableEq

/-- The constructor. What the file holds at open is what survived on disk. -/
def LogManager.open (content : Option Bytes) : LogManager :=
  let file := (ensureWalInitializedAndTrimmed content).1
  { file := file, synced := file.length, persistentLsn := file.length, nextLsn := file.length }

/-- The bytes `AppendRecord` writes for a record placed at `lsn`. The size field is a
`uint32_t`. -/
def frameBytes (lsn : Nat) (rec : LogRecord Bytes) : Bytes :=
  let payload := serializeLogRecordPayload { rec with lsn := lsn }
  leBytes 4 ((4 + payload.length) % 2 ^ 32) ++ payload

def LogManager.appendRecord (log : LogManager) (rec : LogRecord Bytes) : LogManager × Nat :=
  let lsn := log.file.length
  let payload := serializeLogRecordPayload { rec with lsn := lsn }
  let totalSize := (4 + payload.length) % 2 ^ 32
  ({ log with file := log.file ++ frameBytes lsn rec, nextLsn := lsn + totalSize }, lsn)

def LogManager.flushUpTo (log : LogManager) (lsn : Nat) : LogManager :=
  if lsn ≤ log.persistentLsn then log
  else { log with synced := log.file.length, persistentLsn := min lsn log.nextLsn }

def LogManager.setMasterCheckpointLsn (log : LogManager) (checkpointLsn : Nat) : LogManager :=
  { log with
    file := leBytes 8 checkpointLsn ++ log.file.drop 8
    synced := (leBytes 8 checkpointLsn ++ log.file.drop 8).length }

/-- The loop of `ReadAllRecordsFrom` at `offset`: `none` is an exception. -/
def readLoop (file : Bytes) : Nat → Nat → Option (List (LogRecord Bytes))
  | 0, _ => some []
  | fuel + 1, offset =>
    if file.length ≤ offset then some []
    else
      match readPod 4 (file.drop offset) with
      | none => some []
      | some (totalSize, rest) =>
        if totalSize < 4 then none
        else if file.length < offset + totalSize then some []
        else do
          let rec ← deserializeLogRecordPayload (rest.take (totalSize - 4))
          let others ← readLoop file fuel (offset + totalSize)
          pure ({ rec with lsn := offset } :: others)

def LogManager.readAllRecordsFrom (log : LogManager) (startLsn : Nat) :
    Option (List (LogRecord Bytes)) :=
  readLoop log.file log.file.length (max startLsn masterRecordSize)

/-- The whole record in `span` is in the synced part of the log. -/
def Durable (log : LogManager) (span : RecordSpan) : Prop :=
  span.lsn + span.size ≤ log.synced

instance (log : LogManager) (span : RecordSpan) : Decidable (Durable log span) :=
  inferInstanceAs (Decidable (span.lsn + span.size ≤ log.synced))

section Session

inductive Call
  | append (rec : LogRecord Bytes)
  | flushUpTo (lsn : Nat)
  | setMaster (lsn : Nat)

/-- An open log together with the records it holds: those found at open and those
appended since. -/
structure Session where
  log : LogManager
  records : List RecordSpan

def Session.start (content : Option Bytes) : Session where
  log := .open content
  records := (ensureWalInitializedAndTrimmed content).2.records

def Session.call (s : Session) : Call → Session
  | .append rec =>
    { log := (s.log.appendRecord rec).1
      records := s.records ++
        [⟨(s.log.appendRecord rec).2, (frameBytes s.log.file.length rec).length, rec.type⟩] }
  | .flushUpTo lsn => { s with log := s.log.flushUpTo lsn }
  | .setMaster lsn => { s with log := s.log.setMasterCheckpointLsn lsn }

/-- The session reached from an opened file by a sequence of calls. -/
def Session.after (content : Option Bytes) (calls : List Call) : Session :=
  calls.foldl Session.call (.start content)

structure Sound (s : Session) : Prop where
  mark : s.log.persistentLsn ≤ s.log.synced
  next : s.log.nextLsn ≤ s.log.file.length
  master : masterRecordSize ≤ s.log.file.length
  within : ∀ r ∈ s.records, r.lsn + r.size ≤ s.log.file.length
  uncut : ∀ r ∈ s.records, r.lsn + r.size ≤ s.log.synced ∨ s.log.synced ≤ r.lsn
  synced : s.log.synced ≤ s.log.file.length
  nonempty : ∀ r ∈ s.records, 4 ≤ r.size

private theorem scanLoop_sound (file : Bytes) (fuel : Nat) (offset : Nat)
    (found : List RecordSpan) (inside : offset ≤ file.length)
    (before : ∀ r ∈ found, r.lsn + r.size ≤ offset ∧ 4 ≤ r.size) :
    offset ≤ (scanLoop file fuel offset found).validEnd ∧
      (scanLoop file fuel offset found).validEnd ≤ file.length ∧
      ∀ r ∈ (scanLoop file fuel offset found).records,
        r.lsn + r.size ≤ (scanLoop file fuel offset found).validEnd ∧ 4 ≤ r.size := by
  have here : offset ≤ (WalScanResult.mk offset found).validEnd ∧
      (WalScanResult.mk offset found).validEnd ≤ file.length ∧
      ∀ r ∈ (WalScanResult.mk offset found).records,
        r.lsn + r.size ≤ (WalScanResult.mk offset found).validEnd ∧ 4 ≤ r.size :=
    ⟨le_rfl, inside, before⟩
  induction fuel generalizing offset found with
  | zero => exact here
  | succ fuel ih =>
    unfold scanLoop
    split
    · split
      · exact here
      · rename_i totalSize rest _
        split
        · exact here
        · split
          · exact here
          · split
            · exact here
            · rename_i large fits _ rec _
              have advanced : ∀ r ∈ found ++ [⟨offset, totalSize, rec.type⟩],
                  r.lsn + r.size ≤ offset + totalSize ∧ 4 ≤ r.size := by
                intro r member
                rcases List.mem_append.mp member with old | new
                · have bound := before r old
                  exact ⟨by omega, bound.2⟩
                · rw [mem_singleton.mp new]
                  exact ⟨le_rfl, Nat.le_of_not_lt large⟩
              have step := ih (offset + totalSize) _ (by omega) advanced
                ⟨le_rfl, by simpa using fits, advanced⟩
              exact ⟨by omega, step.2.1, step.2.2⟩
    · exact here

private theorem length_trimmed (content : Option Bytes) :
    masterRecordSize ≤ (ensureWalInitializedAndTrimmed content).1.length ∧
      ∀ r ∈ (ensureWalInitializedAndTrimmed content).2.records,
        r.lsn + r.size ≤ (ensureWalInitializedAndTrimmed content).1.length ∧ 4 ≤ r.size := by
  unfold ensureWalInitializedAndTrimmed
  dsimp only
  split
  · simp [masterRecordSize]
  · rename_i whole
    have scanned := scanLoop_sound (content.getD []) (content.getD []).length masterRecordSize []
      (by omega) (by simp)
    change masterRecordSize ≤ (scanWalFile (content.getD [])).validEnd ∧ _ at scanned
    have atEnd := scanned.2.1
    change (scanWalFile (content.getD [])).validEnd ≤ _ at atEnd
    have kept : ((content.getD []).take (scanWalFile (content.getD [])).validEnd).length =
        (scanWalFile (content.getD [])).validEnd := by
      rw [List.length_take]
      omega
    split
    · simp only [length_append, length_leBytes, List.length_drop, kept]
      refine ⟨by unfold masterRecordSize; omega, fun r member => ?_⟩
      have bound := scanned.2.2 r member
      change _ ≤ (scanWalFile (content.getD [])).validEnd ∧ _ at bound
      exact ⟨by omega, bound.2⟩
    · rw [kept]
      exact ⟨scanned.1, scanned.2.2⟩

private theorem sound_start (content : Option Bytes) : Sound (.start content) where
  mark := le_rfl
  next := le_rfl
  master := (length_trimmed content).1
  within r member := ((length_trimmed content).2 r member).1
  uncut r member := .inl ((length_trimmed content).2 r member).1
  synced := le_rfl
  nonempty r member := ((length_trimmed content).2 r member).2

private theorem length_frameBytes (lsn : Nat) (rec : LogRecord Bytes) :
    (frameBytes lsn rec).length =
      4 + (serializeLogRecordPayload { rec with lsn := lsn }).length := by
  simp [frameBytes]

variable {s : Session}

private theorem sound_append (sound : Sound s) (rec : LogRecord Bytes) :
    Sound (s.call (.append rec)) := by
  have size := length_frameBytes s.log.file.length rec
  have wrapped := Nat.mod_le
    (4 + (serializeLogRecordPayload { rec with lsn := s.log.file.length }).length) (2 ^ 32)
  have synced := sound.synced
  constructor
  · exact sound.mark
  · simp only [Session.call, LogManager.appendRecord, length_append]
    omega
  · simp only [Session.call, LogManager.appendRecord, length_append]
    exact le_trans sound.master (Nat.le_add_right _ _)
  · intro r member
    simp only [Session.call, LogManager.appendRecord, length_append]
    rcases List.mem_append.mp member with old | new
    · have bound := sound.within r old
      omega
    · rw [mem_singleton.mp new]
      exact le_rfl
  · intro r member
    rcases List.mem_append.mp member with old | new
    · exact sound.uncut r old
    · rw [mem_singleton.mp new]
      exact .inr synced
  · simp only [Session.call, LogManager.appendRecord, length_append]
    omega
  · intro r member
    rcases List.mem_append.mp member with old | new
    · exact sound.nonempty r old
    · rw [mem_singleton.mp new]
      change 4 ≤ (frameBytes s.log.file.length rec).length
      omega

private theorem sound_flushUpTo (sound : Sound s) (lsn : Nat) :
    Sound (s.call (.flushUpTo lsn)) := by
  by_cases early : lsn ≤ s.log.persistentLsn
  · have unchanged : s.call (.flushUpTo lsn) = s := by
      simp [Session.call, LogManager.flushUpTo, early]
    rw [unchanged]
    exact sound
  · have flushed : s.call (.flushUpTo lsn) =
        { s with log :=
          { s.log with synced := s.log.file.length, persistentLsn := min lsn s.log.nextLsn } } := by
      simp [Session.call, LogManager.flushUpTo, early]
    rw [flushed]
    exact {
      mark := le_trans (min_le_right _ _) sound.next
      next := sound.next
      master := sound.master
      within := sound.within
      uncut := fun r member => .inl (sound.within r member)
      synced := le_rfl
      nonempty := sound.nonempty }

private theorem sound_setMaster (sound : Sound s) (lsn : Nat) :
    Sound (s.call (.setMaster lsn)) := by
  have whole := sound.master
  have same : (leBytes 8 lsn ++ s.log.file.drop 8).length = s.log.file.length := by
    simp only [length_append, length_leBytes, List.length_drop]
    unfold masterRecordSize at whole
    omega
  constructor
  all_goals simp only [Session.call, LogManager.setMasterCheckpointLsn, same]
  · exact le_trans sound.mark sound.synced
  · exact sound.next
  · exact whole
  · exact sound.within
  · exact fun r member => .inl (sound.within r member)
  · exact le_rfl
  · exact sound.nonempty

theorem sound_call (sound : Sound s) (c : Call) : Sound (s.call c) := by
  cases c with
  | append rec => exact sound_append sound rec
  | flushUpTo lsn => exact sound_flushUpTo sound lsn
  | setMaster lsn => exact sound_setMaster sound lsn

theorem sound_after (content : Option Bytes) (calls : List Call) :
    Sound (.after content calls) := by
  unfold Session.after
  induction calls using List.reverseRecOn with
  | nil => exact sound_start content
  | append_singleton calls c ih =>
    rw [List.foldl_append]
    exact sound_call ih c

/-- `FlushUpTo` leaves a record volatile exactly when the mark stands at its offset and nothing was
synced since it was appended. -/
theorem durable_flushUpTo_iff (sound : Sound s) {r : RecordSpan} (member : r ∈ s.records) :
    Durable (s.log.flushUpTo r.lsn) r ↔
      ¬(s.log.persistentLsn = r.lsn ∧ s.log.synced = r.lsn) := by
  have mark := sound.mark
  have size := sound.nonempty r member
  have within := sound.within r member
  unfold Durable LogManager.flushUpTo
  split
  · rcases sound.uncut r member with covered | volatile <;> constructor <;> intro h <;> omega
  · constructor <;> intro h
    · omega
    · exact within

end Session

end GraniteDb.Recovery.LogManager
