/- The log as a list of records whose LSNs are their byte offsets in the file. -/

import GraniteDb.Recovery.LogManager
import Mathlib.Data.List.AList

namespace GraniteDb.Recovery.RecordLog

open Common.Types Recovery.WalRecords Recovery.LogManager
open List (length_append append_of_mem take_append_drop take_length)

/-- A page, in memory or on disk: its LSN field and the remaining bytes, of type `β`. -/
structure Page (β : Type) where
  lsn : Nat
  body : β
  deriving DecidableEq

/-- A log record as recovery reads it. An image is the body of a page, or nothing where the vector
is empty; its LSN bytes are overwritten whenever it is applied. -/
abbrev Rec (β : Type) := LogRecord (Option β)

variable {β : Type}

def imageSize : Option β → Nat
  | none => 0
  | some _ => pageSize

def recordSize (rec : Rec β) : Nat :=
  54 + (if rec.hasPage then 8 else 0) + imageSize rec.beforeImage + imageSize rec.afterImage +
    17 * rec.activeTxns.length + 16 * rec.dirtyPages.length

def endLsn (records : List (Rec β)) : Nat :=
  masterRecordSize + (records.map recordSize).sum

/-- `AppendRecord` at record level. -/
def append (records : List (Rec β)) (rec : Rec β) : List (Rec β) :=
  records ++ [{ rec with lsn := endLsn records }]

def Placed (records : List (Rec β)) : Prop :=
  ∀ (before after : List (Rec β)) (rec : Rec β),
    records = before ++ rec :: after → rec.lsn = endLsn before

/-- `by_lsn[lsn]`; offsets are unique, so the first match is the only one. -/
def findRecord (records : List (Rec β)) (lsn : Nat) : Option (Rec β) :=
  records.find? fun rec => rec.lsn == lsn

/-- The log manager at record level: how many records are synced, and the flush mark. -/
structure Wal (β : Type) where
  records : List (Rec β)
  synced : Nat
  persistentLsn : Nat

def Wal.open (records : List (Rec β)) : Wal β :=
  ⟨records, records.length, endLsn records⟩

def Wal.append (wal : Wal β) (rec : Rec β) : Wal β :=
  { wal with records := RecordLog.append wal.records rec }

/-- `FlushUpTo`, with its early return. -/
def Wal.flushUpTo (wal : Wal β) (lsn : Nat) : Wal β :=
  if lsn ≤ wal.persistentLsn then wal
  else { wal with synced := wal.records.length, persistentLsn := min lsn (endLsn wal.records) }

/-- The sync at the end of `SetMasterCheckpointLSN`. -/
def Wal.sync (wal : Wal β) : Wal β := { wal with synced := wal.records.length }

def viewImage (image : Bytes) : Option Bytes :=
  if image = [] then none else some (image.drop 8)

def viewRecord (rec : LogRecord Bytes) : Rec Bytes where
  type := rec.type
  lsn := rec.lsn
  txnId := rec.txnId
  prevLsn := rec.prevLsn
  undoNextLsn := rec.undoNextLsn
  hasPage := rec.hasPage
  pageId := rec.pageId
  beforeImage := viewImage rec.beforeImage
  afterImage := viewImage rec.afterImage
  activeTxns := rec.activeTxns
  dirtyPages := rec.dirtyPages

private theorem imageSize_view {image : Bytes} (whole : image = [] ∨ image.length = pageSize) :
    imageSize (viewImage image) = image.length := by
  rcases whole with empty | full
  · subst empty
    rfl
  · have nonempty : image ≠ [] := by
      intro empty
      rw [empty] at full
      exact absurd full (by decide)
    rw [viewImage, if_neg nonempty]
    exact full.symm

theorem length_frameBytes_eq_recordSize (lsn : Nat) (rec : LogRecord Bytes)
    (before : rec.beforeImage = [] ∨ rec.beforeImage.length = pageSize)
    (after : rec.afterImage = [] ∨ rec.afterImage.length = pageSize) :
    (frameBytes lsn rec).length = recordSize (viewRecord rec) := by
  have txns : (rec.activeTxns.flatMap walWriteTxn).length = 17 * rec.activeTxns.length := by
    induction rec.activeTxns with
    | nil => rfl
    | cons entry rest ih =>
      simp only [List.flatMap_cons, length_append, ih, List.length_cons, walWriteTxn,
        length_leBytes]
      omega
  have pages : (rec.dirtyPages.flatMap walWriteDirtyPage).length =
      16 * rec.dirtyPages.length := by
    induction rec.dirtyPages with
    | nil => rfl
    | cons entry rest ih =>
      simp only [List.flatMap_cons, length_append, ih, List.length_cons,
        walWriteDirtyPage, length_leBytes]
      omega
  have sizes : (imageSize (viewRecord rec).beforeImage = rec.beforeImage.length) ∧
      (imageSize (viewRecord rec).afterImage = rec.afterImage.length) :=
    ⟨imageSize_view before, imageSize_view after⟩
  unfold frameBytes serializeLogRecordPayload recordSize
  rw [sizes.1, sizes.2]
  simp only [length_append, length_leBytes, txns, pages, walWriteVector, viewRecord]
  by_cases page : rec.hasPage = true
  · simp only [page, if_true, length_append, length_leBytes]
    omega
  · simp only [page, Bool.false_eq_true, if_false, List.length_nil]
    omega

section Offsets

@[simp] theorem Wal.records_append (wal : Wal β) (rec : Rec β) :
    (wal.append rec).records = RecordLog.append wal.records rec := rfl

@[simp] theorem Wal.records_flushUpTo (wal : Wal β) (lsn : Nat) :
    (wal.flushUpTo lsn).records = wal.records := by
  unfold Wal.flushUpTo
  split <;> rfl

@[simp] theorem Wal.records_sync (wal : Wal β) : wal.sync.records = wal.records := rfl

variable {rec : Rec β} {records : List (Rec β)}

@[simp] theorem mem_append {r : Rec β} :
    r ∈ append records rec ↔ r ∈ records ∨ r = { rec with lsn := endLsn records } := by
  simp [append]

@[simp] theorem endLsn_nil : endLsn ([] : List (Rec β)) = masterRecordSize := rfl

theorem endLsn_append (first second : List (Rec β)) :
    endLsn (first ++ second) = endLsn first + (second.map recordSize).sum := by
  simp [endLsn, Nat.add_assoc]

theorem endLsn_lt_append_cons (first second : List (Rec β)) (rec : Rec β) :
    endLsn first < endLsn (first ++ rec :: second) := by
  rw [endLsn_append]
  simp only [List.map_cons, List.sum_cons, recordSize]
  omega

theorem masterRecordSize_le_endLsn (records : List (Rec β)) :
    masterRecordSize ≤ endLsn records :=
  Nat.le_add_right _ _

theorem placed_nil : Placed ([] : List (Rec β)) := by
  intro before after rec split
  exact absurd split (by simp)

theorem placed_left {first second : List (Rec β)} (placed : Placed (first ++ second)) :
    Placed first := by
  intro before after rec split
  exact placed before (after ++ second) rec (by rw [split, List.append_assoc, List.cons_append])

theorem placed_take (placed : Placed records) (n : Nat) : Placed (records.take n) := by
  rw [← take_append_drop n records] at placed
  exact placed_left placed

theorem placed_append (placed : Placed records) (rec : Rec β) : Placed (append records rec) := by
  intro before after r split
  unfold append at split
  rcases List.append_eq_append_iff.mp split with ⟨middle, left, right⟩ | ⟨middle, left, right⟩
  · cases middle with
    | nil =>
      simp only [List.append_nil, List.nil_append, List.cons.injEq] at left right
      rw [← right.1, left]
    | cons head tail => simp at right
  · cases middle with
    | nil =>
      simp only [List.append_nil, List.nil_append, List.cons.injEq] at left right
      rw [right.1, left]
    | cons head tail =>
      simp only [List.cons_append, List.cons.injEq] at right
      rw [right.1]
      exact placed before tail head left

theorem Placed.lsn_lt {before middle after : List (Rec β)} {first second : Rec β}
    (placed : Placed (before ++ first :: (middle ++ second :: after))) :
    first.lsn < second.lsn := by
  have lower := placed before (middle ++ second :: after) first rfl
  have upper := placed (before ++ first :: middle) after second (by simp)
  rw [lower, upper]
  exact endLsn_lt_append_cons before middle first

section

variable (placed : Placed records)

include placed

theorem Placed.lsn_lt_end (member : rec ∈ records) :
    rec.lsn < endLsn records := by
  obtain ⟨before, after, split⟩ := append_of_mem member
  rw [placed before after rec split, split]
  exact endLsn_lt_append_cons before after rec

theorem Placed.pos (member : rec ∈ records) :
    masterRecordSize ≤ rec.lsn := by
  obtain ⟨before, after, split⟩ := append_of_mem member
  rw [placed before after rec split]
  exact masterRecordSize_le_endLsn before

theorem Placed.sorted : records.Pairwise fun a b => a.lsn < b.lsn := by
  rw [List.pairwise_iff_getElem]
  intro i j hi hj lt
  have splitI := (List.getElem_cons_drop hi).symm
  have laterJ : records[j] ∈ records.drop (i + 1) := by
    rw [List.mem_iff_getElem]
    exact ⟨j - (i + 1), by simp; omega, by simp; congr 1; omega⟩
  obtain ⟨middle, after, rest⟩ := append_of_mem laterJ
  have whole : records = records.take i ++ records[i] :: (middle ++ records[j] :: after) := by
    rw [← rest, ← splitI, take_append_drop]
  rw [whole] at placed
  exact placed.lsn_lt

theorem Placed.eq_of_lsn_eq {a b : Rec β} (memberA : a ∈ records)
    (memberB : b ∈ records) (same : a.lsn = b.lsn) : a = b := by
  by_contra different
  have apart : records.Pairwise fun x y => x.lsn ≠ y.lsn :=
    placed.sorted.imp fun lt => Nat.ne_of_lt lt
  have : Std.Symm fun x y : Rec β => x.lsn ≠ y.lsn := ⟨fun _ _ ne => ne.symm⟩
  exact apart.forall memberA memberB different same

theorem Placed.mem_take_of_lt {n : Nat} {a b : Rec β}
    (memberB : b ∈ records.take n) (memberA : a ∈ records) (lt : a.lsn < b.lsn) :
    a ∈ records.take n := by
  obtain ⟨i, atI⟩ := List.mem_iff_getElem?.mp memberA
  obtain ⟨j, atJ⟩ := List.mem_iff_getElem?.mp memberB
  obtain ⟨jInTake, atJ'⟩ := List.getElem?_eq_some_iff.mp atJ
  obtain ⟨iInside, atI'⟩ := List.getElem?_eq_some_iff.mp atI
  have jInside : j < records.length := by
    rw [List.length_take] at jInTake
    omega
  have before : i < j := by
    by_contra notBefore
    have atJ'' : records[j] = b := by rw [← atJ', List.getElem_take]
    rcases Nat.lt_or_eq_of_le (Nat.not_lt.mp notBefore) with after | same
    · have order := List.pairwise_iff_getElem.mp placed.sorted j i jInside iInside after
      rw [atI', atJ''] at order
      omega
    · subst same
      rw [← atI', ← atJ''] at lt
      omega
  refine List.mem_iff_getElem?.mpr ⟨i, ?_⟩
  rw [List.length_take] at jInTake
  rw [List.getElem?_take_of_lt (by omega), atI]

theorem Placed.findRecord_eq (member : rec ∈ records) :
    findRecord records rec.lsn = some rec := by
  unfold findRecord
  rcases found : records.find? (fun r => r.lsn == rec.lsn) with _ | other
  · have absent := List.find?_eq_none.mp found rec member
    simp at absent
  · have hit := List.find?_some found
    have same : other.lsn = rec.lsn := by simpa using hit
    rw [found, placed.eq_of_lsn_eq (List.mem_of_find?_eq_some found) member same]

end

theorem findRecord_mem {lsn : Nat} (found : findRecord records lsn = some rec) :
    rec ∈ records ∧ rec.lsn = lsn := by
  have hit := List.find?_some found
  exact ⟨List.mem_of_find?_eq_some found, by simpa using hit⟩

end Offsets

section Synced

structure WalSound (wal : Wal β) : Prop where
  placed : Placed wal.records
  inside : wal.synced ≤ wal.records.length
  marked : wal.persistentLsn ≤ endLsn (wal.records.take wal.synced)

/-- The flush mark stands at `lsn`, and the log was last synced before the record at `lsn` was
appended. -/
def MarkedUnsynced (wal : Wal β) (lsn : Nat) : Prop :=
  wal.persistentLsn = lsn ∧ endLsn (wal.records.take wal.synced) = lsn

instance (wal : Wal β) (lsn : Nat) : Decidable (MarkedUnsynced wal lsn) :=
  inferInstanceAs (Decidable (_ ∧ _))

theorem walSound_open {records : List (Rec β)} (placed : Placed records) :
    WalSound (Wal.open records) :=
  ⟨placed, le_rfl, by simp [Wal.open]⟩

variable {wal : Wal β} {rec : Rec β}

theorem WalSound.append (sound : WalSound wal) (rec : Rec β) : WalSound (wal.append rec) := by
  have same : (RecordLog.append wal.records rec).take wal.synced = wal.records.take wal.synced :=
    List.take_append_of_le_length sound.inside
  refine ⟨placed_append sound.placed rec, ?_, ?_⟩
  · show wal.synced ≤ (wal.records ++ _).length
    rw [length_append]
    exact Nat.le_add_right_of_le sound.inside
  · show wal.persistentLsn ≤ endLsn ((RecordLog.append wal.records rec).take wal.synced)
    rw [same]
    exact sound.marked

theorem WalSound.flushUpTo (sound : WalSound wal) (lsn : Nat) : WalSound (wal.flushUpTo lsn) := by
  unfold Wal.flushUpTo
  split
  · exact sound
  · refine ⟨sound.placed, le_rfl, ?_⟩
    show min lsn (endLsn wal.records) ≤ endLsn (wal.records.take wal.records.length)
    rw [take_length]
    exact min_le_right _ _

theorem Wal.mem_flushUpTo (member : rec ∈ wal.records.take wal.synced) (lsn : Nat) :
    rec ∈ (wal.flushUpTo lsn).records.take (wal.flushUpTo lsn).synced := by
  unfold Wal.flushUpTo
  split
  · exact member
  · show rec ∈ wal.records.take wal.records.length
    rw [take_length]
    exact List.mem_of_mem_take member

theorem WalSound.mem_append (sound : WalSound wal) (member : rec ∈ wal.records.take wal.synced)
    (new : Rec β) :
    rec ∈ (wal.append new).records.take (wal.append new).synced := by
  show rec ∈ (wal.records ++ _).take wal.synced
  rw [List.take_append_of_le_length sound.inside]
  exact member

theorem Placed.mem_take {records : List (Rec β)} (placed : Placed records) {n : Nat}
    (member : rec ∈ records) (lt : rec.lsn < endLsn (records.take n)) : rec ∈ records.take n := by
  rw [← take_append_drop n records, List.mem_append] at member
  rcases member with inTake | inDrop
  · exact inTake
  · obtain ⟨before, after, split⟩ := append_of_mem inDrop
    have at_ : rec.lsn = endLsn (records.take n ++ before) := by
      refine placed _ after rec ?_
      rw [List.append_assoc, ← split, take_append_drop]
    rw [at_, endLsn_append] at lt
    omega

theorem WalSound.durable (sound : WalSound wal) (member : rec ∈ wal.records)
    (unmarked : ¬MarkedUnsynced wal rec.lsn) :
    rec ∈ (wal.flushUpTo rec.lsn).records.take (wal.flushUpTo rec.lsn).synced := by
  unfold Wal.flushUpTo
  split
  · rename_i early
    refine sound.placed.mem_take member ?_
    have bound := sound.marked
    rcases Nat.lt_or_eq_of_le (le_trans early bound) with lt | same
    · exact lt
    · exact absurd ⟨by omega, same.symm⟩ unmarked
  · show rec ∈ wal.records.take wal.records.length
    rw [take_length]
    exact member

end Synced

end GraniteDb.Recovery.RecordLog
