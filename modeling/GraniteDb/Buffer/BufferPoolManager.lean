/- Dirty-page bookkeeping of the buffer pool and the write-ahead rule of FlushFrame. -/

import GraniteDb.Recovery.LogManager
import Mathlib.Data.List.AList

namespace GraniteDb.Buffer.BufferPoolManager

open Common.Types Recovery.WalRecords Recovery.LogManager

/-- `dirty_page_table_`: for each dirty page the LSN `UnpinPage` recorded. -/
abbrev DirtyPageTable := AList fun _ : PageId => Nat

/-- The table update of `UnpinPage(page_id, true)` for a page whose LSN is `recLsn`. -/
def markDirty (table : DirtyPageTable) (pageId : PageId) (recLsn : Nat) : DirtyPageTable :=
  match table.lookup pageId with
  | none => table.insert pageId recLsn
  | some old => table.insert pageId (min old recLsn)

structure FrameDesc where
  pageId : PageId
  isDirty : Bool
  isValid : Bool
  deriving DecidableEq

def getPageLsn (page : Bytes) : Nat := leNat (page.take 8)

/-- What `FlushFrame` reads and changes, with the page writes it has issued. -/
structure FrameState where
  log : LogManager
  frame : FrameDesc
  page : Bytes
  dirtyPages : DirtyPageTable
  writes : List (PageId × Bytes)

/-- `FlushFrame`, for a pool that has a log manager. -/
def flushFrame (s : FrameState) : FrameState :=
  if s.frame.isValid && s.frame.isDirty then
    { s with
      log := s.log.flushUpTo (getPageLsn s.page)
      writes := s.writes ++ [(s.frame.pageId, s.page)]
      frame := { s.frame with isDirty := false }
      dirtyPages := s.dirtyPages.erase s.frame.pageId }
  else s

/-- If `FlushFrame` wrote a page whose LSN is that of `r`, then `r` was in the synced part of the
log. -/
def WritesAhead (before : FrameState) (r : RecordSpan) : Prop :=
  ∀ write ∈ (flushFrame before).writes.drop before.writes.length,
    getPageLsn write.2 = r.lsn → Durable (flushFrame before).log r

/-- The log's flush mark stands at `lsn` and the log was last synced before the record at
`lsn` was appended. -/
def MarkedUnsynced (log : LogManager) (lsn : Nat) : Prop :=
  log.persistentLsn = lsn ∧ log.synced = lsn

private theorem writesAhead_iff {before : FrameState} {r : RecordSpan}
    (valid : before.frame.isValid = true) (dirty : before.frame.isDirty = true)
    (named : getPageLsn before.page = r.lsn) :
    WritesAhead before r ↔ Durable (before.log.flushUpTo r.lsn) r := by
  simp only [WritesAhead, flushFrame, valid, dirty, Bool.and_self, if_true, List.drop_left,
    List.mem_singleton, forall_eq, named, forall_true_left]

/-- `FlushUpTo` makes the record at its argument durable, and `FlushFrame` keeps the write-ahead
rule for a page naming it, exactly when the flush mark does not stand at it while it is unsynced. -/
theorem flushUpTo_durable_iff_not_markedUnsynced (content : Option Bytes) (calls : List Call)
    (r : RecordSpan) (member : r ∈ (Session.after content calls).records) :
    (Durable ((Session.after content calls).log.flushUpTo r.lsn) r ↔
      ¬MarkedUnsynced (Session.after content calls).log r.lsn) ∧
    ∀ before : FrameState, before.log = (Session.after content calls).log →
      before.frame.isValid = true → before.frame.isDirty = true →
      getPageLsn before.page = r.lsn →
      (WritesAhead before r ↔ ¬MarkedUnsynced (Session.after content calls).log r.lsn) := by
  have flushed := durable_flushUpTo_iff (sound_after content calls) member
  refine ⟨flushed, ?_⟩
  intro before same valid dirty named
  rw [writesAhead_iff valid dirty named, same]
  exact flushed

def beginRecord : LogRecord Bytes := { LogRecord.blank [] .begin with txnId := 1 }

/-- After two appends and no flush the second record is flushed as promised. -/
theorem flushUpTo_durable_second_record :
    (⟨62, 54, .begin⟩ : RecordSpan) ∈
        (Session.after none [.append beginRecord, .append beginRecord]).records ∧
      Durable ((Session.after none [.append beginRecord, .append beginRecord]).log.flushUpTo 62)
        ⟨62, 54, .begin⟩ :=
  have member : (⟨62, 54, .begin⟩ : RecordSpan) ∈
      (Session.after none [.append beginRecord, .append beginRecord]).records := by
    decide
  ⟨member,
    (flushUpTo_durable_iff_not_markedUnsynced none _ _ member).1.mpr (by
      unfold MarkedUnsynced
      decide)⟩

/-- The first record appended to a new log: `FlushUpTo` returns early and the record stays
volatile, and a dirty page carrying its LSN is written nevertheless. -/
theorem flushUpTo_misses_first_record :
    ¬∀ (content : Option Bytes) (calls : List Call),
      ∀ r ∈ (Session.after content calls).records,
        Durable ((Session.after content calls).log.flushUpTo r.lsn) r ∧
          ∀ before : FrameState, before.log = (Session.after content calls).log →
            WritesAhead before r := by
  intro rule
  have durable := (rule none [.append beginRecord] ⟨8, 54, .begin⟩ (by decide)).1
  revert durable
  decide

end GraniteDb.Buffer.BufferPoolManager
