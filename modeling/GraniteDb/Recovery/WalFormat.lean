/- The log format: decoding undoes encoding, and opening, appending and reading agree on the records. -/

import GraniteDb.Recovery.LogManager
import GraniteDb.Lib.Decoding

set_option linter.dupNamespace false

namespace GraniteDb.Recovery.WalFormat

open Common.Types Recovery.WalRecords Recovery.LogManager Lib.Decoding
open List (length_append append_assoc drop_left' length_drop take_left' length_take_of_le take_left
  drop_drop)
open List (length_take take_append take_of_length_le mem_cons drop_left append_nil take_append_drop
  take_prefix)

section Payloads

/-- The fields are in the ranges of their types, and the sizes fit in 32 bits. -/
structure Fits (rec : LogRecord Bytes) : Prop where
  lsn : rec.lsn < 2 ^ 64
  txnId : rec.txnId < 2 ^ 64
  prevLsn : rec.prevLsn < 2 ^ 64
  undoNextLsn : rec.undoNextLsn < 2 ^ 64
  pageId : rec.pageId.relationId < 2 ^ 32 ∧ rec.pageId.pageNo < 2 ^ 32
  beforeImage : rec.beforeImage.length < 2 ^ 32
  afterImage : rec.afterImage.length < 2 ^ 32
  activeTxns : rec.activeTxns.length < 2 ^ 32 ∧
    ∀ e ∈ rec.activeTxns, e.txnId < 2 ^ 64 ∧ e.lastLsn < 2 ^ 64
  dirtyPages : rec.dirtyPages.length < 2 ^ 32 ∧
    ∀ e ∈ rec.dirtyPages, e.pageId.relationId < 2 ^ 32 ∧ e.pageId.pageNo < 2 ^ 32 ∧
      e.recLsn < 2 ^ 64

/-- The record without its page when `has_page` is false. -/
def withoutPage (rec : LogRecord Bytes) : LogRecord Bytes :=
  if rec.hasPage then rec else { rec with pageId := ⟨0, 0⟩ }

theorem leNat_leBytes (w n : Nat) : leNat (leBytes w n) = n % 256 ^ w := by
  induction w generalizing n with
  | zero => simp [leBytes, leNat, Nat.mod_one]
  | succ w ih =>
    have low : (UInt8.ofNat (n % 256)).toNat = n % 256 := by
      simp [UInt8.toNat_ofNat']
    rw [leBytes, leNat, ih, low, Nat.pow_succ, Nat.mul_comm (256 ^ w), Nat.mod_mul]

theorem leBytes_leNat (bytes : Bytes) : leBytes bytes.length (leNat bytes) = bytes := by
  induction bytes with
  | nil => rfl
  | cons b bytes ih =>
    have small := b.toNat_lt
    have low : (b.toNat + 256 * leNat bytes) % 256 = b.toNat := by omega
    have high : (b.toNat + 256 * leNat bytes) / 256 = leNat bytes := by omega
    rw [List.length_cons, leNat, leBytes, low, high, ih, UInt8.ofNat_toNat]

theorem decodes_readPod (w n : Nat) : Decodes (readPod w) (leBytes w n) (n % 256 ^ w) := by
  intro more
  have whole : ¬ (leBytes w n ++ more).length < w := by
    rw [length_append, length_leBytes]
    omega
  have taken : (leBytes w n ++ more).take w = leBytes w n :=
    take_left' (length_leBytes w n)
  have left : (leBytes w n ++ more).drop w = more := drop_left' (length_leBytes w n)
  rw [readPod, if_neg whole, taken, left, leNat_leBytes]

theorem steady_readPod (w : Nat) : Steady (readPod w) := by
  intro s a rest read
  unfold readPod at read
  split at read
  · cases read
  · rename_i whole
    obtain ⟨rfl, rfl⟩ := Prod.mk.inj (Option.some.inj read)
    have length : (s.take w).length = w := length_take_of_le (by omega)
    refine ⟨s.take w, (take_append_drop w s).symm, fun more => ?_⟩
    have long : ¬ (s.take w ++ more).length < w := by
      rw [length_append, length]
      omega
    rw [readPod, if_neg long, take_left' length, drop_left' length]

theorem decodes_pod {w n : Nat} (small : n < 256 ^ w) : Decodes (readPod w) (leBytes w n) n := by
  have read := decodes_readPod w n
  rwa [Nat.mod_eq_of_lt small] at read

private theorem takes (size : Nat) (s : Bytes) :
    (fun rest => if rest.length < size then none else some (rest.take size, rest.drop size) :
      Reader Bytes) s = if s.length < size then none else some (s.take size, s.drop size) := rfl

theorem decodes_readVector {bytes : Bytes} (small : bytes.length < 2 ^ 32) :
    Decodes readVector (walWriteVector bytes) bytes := by
  apply (decodes_pod (w := 4) (by simpa using small)).bind
  intro more
  have whole : ¬ (bytes ++ more).length < bytes.length := by
    rw [length_append]
    omega
  rw [takes, if_neg whole, take_left, drop_left]

theorem steady_readVector : Steady readVector := by
  apply (steady_readPod 4).bind
  intro size s a rest read
  rw [takes] at read
  split at read
  · cases read
  · rename_i whole
    obtain ⟨rfl, rfl⟩ := Prod.mk.inj (Option.some.inj read)
    have length : (s.take size).length = size := length_take_of_le (by omega)
    refine ⟨s.take size, (take_append_drop size s).symm, fun more => ?_⟩
    have long : ¬ (s.take size ++ more).length < size := by
      rw [length_append, length]
      omega
    rw [takes, if_neg long, take_left' length, drop_left' length]

theorem decodes_readMany {α : Type} {one : Reader α} {write : α → Bytes} {xs : List α}
    (each : ∀ x ∈ xs, Decodes one (write x) x) :
    Decodes (readMany one xs.length) (xs.flatMap write) xs := by
  induction xs with
  | nil => exact .pure []
  | cons x xs ih =>
    have rest := ih fun y member => each y (List.mem_cons_of_mem x member)
    rw [List.flatMap_cons]
    exact (each x List.mem_cons_self).bind (rest.last (.pure _))

theorem steady_readMany {α : Type} {one : Reader α} (steady : Steady one) (n : Nat) :
    Steady (readMany one n) := by
  induction n with
  | zero => exact .pure []
  | succ n ih => exact steady.bind fun x => ih.bind fun xs => .pure _

theorem ofByte_toByte (type : LogRecordType) : .ofByte type.toByte = type := by
  cases type with
  | unnamed code =>
    have split : LogRecordType.ofByte (16 + code.val) = .unnamed (Fin.ofNat 240 code.val) := by
      rw [Nat.add_comm]
      rfl
    rw [LogRecordType.toByte, split, Fin.ofNat_val_eq_self]
  | _ => rfl

theorem stateOfByte_stateToByte (state : TransactionState) :
    stateOfByte (stateToByte state) = state := by
  cases state with
  | unnamed code =>
    have split : stateOfByte (5 + code.val) = .unnamed (Fin.ofNat 251 code.val) := by
      rw [Nat.add_comm]
      rfl
    rw [stateToByte, split, Fin.ofNat_val_eq_self]
  | _ => rfl

theorem decodes_readTxn {e : CheckpointTxnEntry} (txnId : e.txnId < 2 ^ 64)
    (lastLsn : e.lastLsn < 2 ^ 64) : Decodes readTxn (walWriteTxn e) e := by
  have state : stateToByte e.state < 256 ^ 1 := by
    cases e.state with
    | unnamed code =>
      have small := code.isLt
      simp only [stateToByte]
      omega
    | _ => decide
  unfold walWriteTxn
  rw [append_assoc]
  apply (decodes_pod (by simpa using txnId)).bind
  apply (decodes_pod state).bind
  apply (decodes_pod (by simpa using lastLsn)).last
  rw [stateOfByte_stateToByte]
  exact .pure e

theorem decodes_readDirtyPage {e : DirtyPageEntry} (relationId : e.pageId.relationId < 2 ^ 32)
    (pageNo : e.pageId.pageNo < 2 ^ 32) (recLsn : e.recLsn < 2 ^ 64) :
    Decodes readDirtyPage (walWriteDirtyPage e) e := by
  unfold walWriteDirtyPage
  rw [append_assoc]
  apply (decodes_pod (by simpa using relationId)).bind
  apply (decodes_pod (by simpa using pageNo)).bind
  exact (decodes_pod (by simpa using recLsn)).last (.pure e)

theorem steady_readTxn : Steady readTxn :=
  (steady_readPod 8).bind fun _ => (steady_readPod 1).bind fun _ =>
    (steady_readPod 8).bind fun _ => .pure _

theorem steady_readDirtyPage : Steady readDirtyPage :=
  (steady_readPod 4).bind fun _ => (steady_readPod 4).bind fun _ =>
    (steady_readPod 8).bind fun _ => .pure _

variable {rec : LogRecord Bytes}

private theorem decodes_afterPage (fits : Fits rec)
    (make : Bytes → Bytes → List CheckpointTxnEntry → List DirtyPageEntry → LogRecord Bytes) :
    Decodes (do
        let before ← readVector
        let after ← readVector
        let txnCount ← readPod 4
        let activeTxns ← readMany readTxn txnCount
        let dptCount ← readPod 4
        let dirtyPages ← readMany readDirtyPage dptCount
        pure (make before after activeTxns dirtyPages) : Reader (LogRecord Bytes))
      (walWriteVector rec.beforeImage ++ (walWriteVector rec.afterImage ++
        (leBytes 4 rec.activeTxns.length ++ (rec.activeTxns.flatMap walWriteTxn ++
          (leBytes 4 rec.dirtyPages.length ++ rec.dirtyPages.flatMap walWriteDirtyPage)))))
      (make rec.beforeImage rec.afterImage rec.activeTxns rec.dirtyPages) := by
  apply (decodes_readVector fits.beforeImage).bind
  apply (decodes_readVector fits.afterImage).bind
  apply (decodes_pod (by simpa using fits.activeTxns.1)).bind
  apply (decodes_readMany fun e member =>
    decodes_readTxn (fits.activeTxns.2 e member).1 (fits.activeTxns.2 e member).2).bind
  apply (decodes_pod (by simpa using fits.dirtyPages.1)).bind
  exact (decodes_readMany fun e member =>
    decodes_readDirtyPage (fits.dirtyPages.2 e member).1 (fits.dirtyPages.2 e member).2.1
      (fits.dirtyPages.2 e member).2.2).last (.pure _)

theorem decodes_readRecord (fits : Fits rec) (lsn : Nat) :
    Decodes readRecord (serializeLogRecordPayload { rec with lsn := lsn })
      { withoutPage rec with lsn := lsn % 2 ^ 64 } := by
  have type : rec.type.toByte < 256 ^ 1 := by
    cases rec.type with
    | unnamed code =>
      have small := code.isLt
      simp only [LogRecordType.toByte]
      omega
    | _ => decide
  have hasPage : rec.hasPage.toNat < 256 ^ 1 := by
    cases rec.hasPage <;> decide
  unfold serializeLogRecordPayload
  simp only [append_assoc]
  apply (decodes_pod type).bind
  apply (decodes_readPod 8 lsn).bind
  apply (decodes_pod (by simpa using fits.txnId)).bind
  apply (decodes_pod (by simpa using fits.prevLsn)).bind
  apply (decodes_pod (by simpa using fits.undoNextLsn)).bind
  apply (decodes_pod hasPage).bind
  have width : lsn % 2 ^ 64 = lsn % 256 ^ 8 := by rw [show 2 ^ 64 = 256 ^ 8 from by decide]
  rw [ofByte_toByte, width]
  unfold withoutPage
  cases isPage : rec.hasPage with
  | true =>
    simp only [Bool.toNat_true, ne_eq, Nat.one_ne_zero, not_false_eq_true, if_true,
      append_assoc, pure_bind, isPage, decide_true]
    apply (decodes_pod (by simpa using fits.pageId.1)).bind
    apply (decodes_pod (by simpa using fits.pageId.2)).bind
    exact decodes_afterPage fits fun before after txns pages =>
      ⟨rec.type, lsn % 256 ^ 8, rec.txnId, rec.prevLsn, rec.undoNextLsn, true, rec.pageId, before,
        after, txns, pages⟩
  | false =>
    simp only [Bool.toNat_false, ne_eq, not_true_eq_false, if_false, pure_bind,
      decide_false, Bool.false_eq_true, List.nil_append]
    exact decodes_afterPage fits fun before after txns pages =>
      ⟨rec.type, lsn % 256 ^ 8, rec.txnId, rec.prevLsn, rec.undoNextLsn, false, ⟨0, 0⟩, before,
        after, txns, pages⟩

theorem steady_readRecord : Steady readRecord := by
  refine (steady_readPod 1).bind fun _ => (steady_readPod 8).bind fun _ =>
    (steady_readPod 8).bind fun _ => (steady_readPod 8).bind fun _ =>
    (steady_readPod 8).bind fun _ => (steady_readPod 1).bind fun hasPage => ?_
  apply Steady.ite
  · refine (steady_readPod 4).bind fun _ => (steady_readPod 4).bind fun _ =>
      (Steady.pure _).bind fun _ => ?_
    exact steady_readVector.bind fun _ => steady_readVector.bind fun _ =>
      (steady_readPod 4).bind fun txns => (steady_readMany steady_readTxn txns).bind fun _ =>
      (steady_readPod 4).bind fun pages => (steady_readMany steady_readDirtyPage pages).bind
      fun _ => .pure _
  · refine (Steady.pure _).bind fun _ => ?_
    exact steady_readVector.bind fun _ => steady_readVector.bind fun _ =>
      (steady_readPod 4).bind fun txns => (steady_readMany steady_readTxn txns).bind fun _ =>
      (steady_readPod 4).bind fun pages => (steady_readMany steady_readDirtyPage pages).bind
      fun _ => .pure _

theorem deserialize_serialize (fits : Fits rec) :
    deserializeLogRecordPayload (serializeLogRecordPayload rec) = some (withoutPage rec) := by
  have decoded := decodes_readRecord fits rec.lsn []
  rw [append_nil, Nat.mod_eq_of_lt fits.lsn] at decoded
  unfold deserializeLogRecordPayload
  change (readRecord (serializeLogRecordPayload rec)).map Prod.fst = _
  rw [decoded]
  unfold withoutPage
  cases rec.hasPage <;> rfl

theorem deserialize_at (fits : Fits rec) (lsn : Nat) :
    deserializeLogRecordPayload (serializeLogRecordPayload { rec with lsn := lsn }) =
      some { withoutPage rec with lsn := lsn % 2 ^ 64 } := by
  have decoded := decodes_readRecord fits lsn []
  rw [append_nil] at decoded
  unfold deserializeLogRecordPayload
  change (readRecord (serializeLogRecordPayload { rec with lsn := lsn })).map Prod.fst = _
  rw [decoded]
  rfl

theorem deserialize_cut (fits : Fits rec) (lsn : Nat) {kept : Bytes}
    (cut : kept <+: serializeLogRecordPayload { rec with lsn := lsn })
    (short : kept.length < (serializeLogRecordPayload { rec with lsn := lsn }).length) :
    deserializeLogRecordPayload kept = none := by
  have refused := steady_readRecord.refuses (decodes_readRecord fits lsn) cut short
  unfold deserializeLogRecordPayload
  change (readRecord kept).map Prod.fst = none
  rw [refused]
  rfl

theorem length_serialize (rec : LogRecord Bytes) (lsn : Nat) :
    (serializeLogRecordPayload { rec with lsn := lsn }).length =
      (serializeLogRecordPayload rec).length := by
  simp [serializeLogRecordPayload]

end Payloads

section Frames

/-- The bytes split into size-prefixed payloads that the decoder accepts. The spans and the
records are those of a log in which the bytes start at `offset`. -/
inductive Frames : Nat → Bytes → List (RecordSpan × LogRecord Bytes) → Prop
  | nil {offset : Nat} : Frames offset [] []
  | cons {offset : Nat} {payload rest : Bytes} {rec : LogRecord Bytes}
      {found : List (RecordSpan × LogRecord Bytes)} :
      4 + payload.length < 2 ^ 32 → deserializeLogRecordPayload payload = some rec →
      Frames (offset + (4 + payload.length)) rest found →
      Frames offset (leBytes 4 (4 + payload.length) ++ payload ++ rest)
        ((⟨offset, 4 + payload.length, rec.type⟩, { rec with lsn := offset }) :: found)

def Stuck (bytes : Bytes) : Prop :=
  ∀ payload rest, 4 + payload.length < 2 ^ 32 → (deserializeLogRecordPayload payload).isSome →
    bytes ≠ leBytes 4 (4 + payload.length) ++ payload ++ rest

theorem readPod_size {size : Nat} (small : size < 2 ^ 32) (rest : Bytes) :
    readPod 4 (leBytes 4 size ++ rest) = some (size, rest) :=
  decodes_pod (w := 4) (by simpa using small) rest

variable {rest file : Bytes} {offset : Nat} {found : List (RecordSpan × LogRecord Bytes)}

theorem readPod_four {bytes : Bytes} {size : Nat} (read : readPod 4 bytes = some (size, rest)) :
    bytes = leBytes 4 size ++ rest ∧ size < 2 ^ 32 := by
  unfold readPod at read
  split at read
  · cases read
  · rename_i whole
    obtain ⟨rfl, rfl⟩ := Prod.mk.inj (Option.some.inj read)
    have length : (bytes.take 4).length = 4 := length_take_of_le (by omega)
    have back := leBytes_leNat (bytes.take 4)
    rw [length] at back
    refine ⟨by rw [back, take_append_drop], ?_⟩
    have small := leNat_leBytes 4 (leNat (bytes.take 4))
    rw [back] at small
    omega

theorem frame_unique {payload payload' rest' : Bytes} (small : 4 + payload.length < 2 ^ 32)
    (small' : 4 + payload'.length < 2 ^ 32)
    (same : leBytes 4 (4 + payload.length) ++ payload ++ rest = leBytes 4 (4 + payload'.length) ++
      payload' ++ rest') : payload = payload' ∧ rest = rest' := by
  rw [append_assoc, append_assoc] at same
  have sizes := readPod_size small (payload ++ rest)
  rw [same, readPod_size small'] at sizes
  obtain ⟨size, rests⟩ := Prod.mk.inj (Option.some.inj sizes)
  exact (List.append_inj rests (by omega)).imp Eq.symm Eq.symm

theorem exists_frames (offset : Nat) (bytes : Bytes) :
    ∃ valid rest found, bytes = valid ++ rest ∧ Frames offset valid found ∧ Stuck rest := by
  induction length : bytes.length using Nat.strong_induction_on generalizing offset bytes with
  | _ n ih =>
    by_cases stuck : Stuck bytes
    · exact ⟨[], bytes, [], rfl, .nil, stuck⟩
    · simp only [Stuck, not_forall, not_not] at stuck
      obtain ⟨payload, more, small, accepted, rfl⟩ := stuck
      obtain ⟨rec, decoded⟩ := Option.isSome_iff_exists.mp accepted
      have shorter : more.length < n := by
        rw [← length]
        simp only [length_append, length_leBytes]
        omega
      obtain ⟨valid, rest, found, rfl, frames, stuck⟩ :=
        ih more.length shorter (offset + (4 + payload.length)) more rfl
      exact ⟨_, rest, _, (append_assoc _ _ _).symm, .cons small decoded frames, stuck⟩

theorem Frames.longest {valid valid' : Bytes} {found' : List (RecordSpan × LogRecord Bytes)}
    (frames : Frames offset valid found) (stuck : Stuck rest) (other : Frames offset valid' found')
    (within : valid' <+: valid ++ rest) :
    valid'.length ≤ valid.length := by
  induction frames generalizing valid' found' with
  | nil =>
    cases other with
    | nil => exact le_rfl
    | @cons _ payload more rec _ small decoded _ =>
      obtain ⟨suffix, same⟩ := within
      rw [append_assoc] at same
      exact absurd same.symm (stuck _ _ small (by rw [decoded]; rfl))
  | @cons offset payload more rec found small decoded frames ih =>
    cases other with
    | nil => exact Nat.zero_le _
    | @cons _ payload' more' rec' _ small' decoded' frames' =>
      obtain ⟨suffix, same⟩ := within
      rw [append_assoc, append_assoc (leBytes 4 (4 + payload.length) ++ payload)]
        at same
      obtain ⟨rfl, rests⟩ := frame_unique small' small same
      have bound := ih frames' ⟨suffix, rests⟩
      simp only [length_append] at bound ⊢
      omega

theorem scanLoop_stuck (stuck : Stuck (file.drop offset)) (fuel : Nat) (found : List RecordSpan) :
    scanLoop file fuel offset found = ⟨offset, found⟩ := by
  cases fuel with
  | zero => rfl
  | succ fuel =>
    unfold scanLoop
    split
    · cases read : readPod 4 (file.drop offset) with
      | none => rfl
      | some result =>
        obtain ⟨totalSize, rest⟩ := result
        dsimp only
        split
        · rfl
        · split
          · rfl
          · rename_i inside large fits
            obtain ⟨split, small⟩ := readPod_four read
            have length := congrArg List.length split
            simp only [length_drop, length_append, length_leBytes] at length
            have payload : (rest.take (totalSize - 4)).length = totalSize - 4 :=
              length_take_of_le (by omega)
            have total : 4 + (totalSize - 4) = totalSize := by omega
            cases decoded : deserializeLogRecordPayload (rest.take (totalSize - 4)) with
            | none => rfl
            | some rec =>
              refine absurd ?_ (stuck (rest.take (totalSize - 4)) (rest.drop (totalSize - 4))
                (by omega) (by rw [decoded]; rfl))
              rw [payload, total, append_assoc, take_append_drop, split]
    · rfl

theorem scanLoop_frame {payload : Bytes} {rec : LogRecord Bytes}
    (small : 4 + payload.length < 2 ^ 32) (decoded : deserializeLogRecordPayload payload = some rec)
    (here : file.drop offset = leBytes 4 (4 + payload.length) ++ payload ++ rest) (fuel : Nat)
    (found : List RecordSpan) :
    scanLoop file (fuel + 1) offset found =
      scanLoop file fuel (offset + (4 + payload.length))
        (found ++ [⟨offset, 4 + payload.length, rec.type⟩]) := by
  have length := congrArg List.length here
  simp only [length_drop, length_append, length_leBytes] at length
  have inside : offset < file.length := by omega
  have large : ¬ 4 + payload.length < 4 := by omega
  have fits : ¬ file.length < offset + (4 + payload.length) := by omega
  have size : 4 + payload.length - 4 = payload.length := by omega
  rw [append_assoc] at here
  rw [scanLoop, if_pos inside, here, readPod_size small]
  dsimp only
  rw [if_neg large, if_neg fits, size, take_left, decoded]

theorem scanLoop_frames {valid : Bytes} (frames : Frames offset valid found)
    (here : file.drop offset = valid ++ rest) (stuck : Stuck rest) {fuel : Nat}
    (enough : valid.length ≤ fuel) (before : List RecordSpan) :
    scanLoop file fuel offset before =
      ⟨offset + valid.length, before ++ found.map Prod.fst⟩ := by
  induction frames generalizing fuel before with
  | nil =>
    rw [scanLoop_stuck (by rw [here]; exact stuck)]
    simp
  | @cons offset payload more rec found small decoded frames ih =>
    simp only [length_append, length_leBytes] at enough
    obtain ⟨fuel, rfl⟩ : ∃ k, fuel = k + 1 := ⟨fuel - 1, by omega⟩
    rw [append_assoc (leBytes 4 (4 + payload.length) ++ payload)] at here
    have next : file.drop (offset + (4 + payload.length)) = more ++ rest := by
      rw [← drop_drop, here]
      exact drop_left' (by simp)
    rw [scanLoop_frame small decoded here, ih next (by omega)]
    simp [Nat.add_assoc]

end Frames

section Opening

theorem stuck_nil : Stuck [] := by
  intro payload rest small accepted same
  have length := congrArg List.length same
  simp only [List.length_nil, length_append, length_leBytes] at length
  omega

theorem ensure_frames (content : Option Bytes) :
    ∃ master valid rest found,
      (ensureWalInitializedAndTrimmed content).1 = master ++ valid ∧ master.length = 8 ∧
      (content.getD []).drop 8 = valid ++ rest ∧ Frames 8 valid found ∧ Stuck rest ∧
      (master = (content.getD []).take 8 ∨ master = leBytes 8 0) ∧
      ∀ validEnd, masterInvalid ⟨validEnd, found.map Prod.fst⟩ (leNat master) = false := by
  have zero (scan : WalScanResult) : masterInvalid scan (leNat (leBytes 8 0)) = false := by
    rw [leNat_leBytes]
    rfl
  unfold ensureWalInitializedAndTrimmed
  dsimp only
  split
  · rename_i short
    have nothing : (content.getD []).drop 8 = [] := List.drop_eq_nil_of_le (by
      unfold masterRecordSize at short
      omega)
    exact ⟨leBytes 8 0, [], [], [], by simp, by simp, nothing, .nil, stuck_nil, .inr rfl,
      fun _ => zero _⟩
  · rename_i whole
    have long : 8 ≤ (content.getD []).length := by
      unfold masterRecordSize at whole
      omega
    obtain ⟨valid, rest, found, split, frames, stuck⟩ :=
      exists_frames 8 ((content.getD []).drop 8)
    have length := congrArg List.length split
    simp only [length_drop, length_append] at length
    have scanned : scanWalFile (content.getD []) = ⟨8 + valid.length, found.map Prod.fst⟩ :=
      scanLoop_frames frames split stuck (by omega) []
    have trimmed : (content.getD []).take (8 + valid.length) =
        (content.getD []).take 8 ++ valid := by
      rw [List.take_add, split, take_left]
    have master : ((content.getD []).take 8).length = 8 := length_take_of_le long
    rw [scanned]
    dsimp only
    rw [trimmed, take_left' master, drop_left' master]
    split
    · exact ⟨leBytes 8 0, valid, rest, found, rfl, by simp, split, frames, stuck, .inr rfl,
        fun _ => zero _⟩
    · rename_i valid'
      exact ⟨_, valid, rest, found, rfl, master, split, frames, stuck, .inl rfl,
        fun _ => eq_false_of_ne_true valid'⟩

variable {found : List (RecordSpan × LogRecord Bytes)} {file : Bytes} {offset : Nat}

theorem ensure_keeps {master valid : Bytes} (length : master.length = 8)
    (frames : Frames 8 valid found)
    (isMaster : ∀ validEnd, masterInvalid ⟨validEnd, found.map Prod.fst⟩ (leNat master) = false) :
    (ensureWalInitializedAndTrimmed (some (master ++ valid))).1 = master ++ valid := by
  have split : (master ++ valid).drop 8 = valid ++ [] := by
    rw [drop_left' length, append_nil]
  have whole : ¬ (master ++ valid).length < masterRecordSize := by
    rw [length_append, length, masterRecordSize]
    omega
  have scanned : scanWalFile (master ++ valid) = ⟨8 + valid.length, found.map Prod.fst⟩ :=
    scanLoop_frames frames split stuck_nil (by simp) []
  have all : (master ++ valid).take (8 + valid.length) = master ++ valid :=
    take_of_length_le (by simp [length])
  unfold ensureWalInitializedAndTrimmed
  rw [Option.getD_some, if_neg whole]
  dsimp only
  rw [scanned]
  dsimp only
  rw [all, take_left' length, isMaster]
  rfl

theorem readLoop_end (atEnd : file.drop offset = []) (fuel : Nat) :
    readLoop file fuel offset = some [] := by
  cases fuel with
  | zero => rfl
  | succ fuel =>
    unfold readLoop
    rw [if_pos (List.drop_eq_nil_iff.mp atEnd)]

theorem readLoop_frame {payload rest : Bytes} {rec : LogRecord Bytes}
    (small : 4 + payload.length < 2 ^ 32) (decoded : deserializeLogRecordPayload payload = some rec)
    (here : file.drop offset = leBytes 4 (4 + payload.length) ++ payload ++ rest) (fuel : Nat) :
    readLoop file (fuel + 1) offset =
      (readLoop file fuel (offset + (4 + payload.length))).map ({ rec with lsn := offset } :: ·) := by
  have length := congrArg List.length here
  simp only [length_drop, length_append, length_leBytes] at length
  have inside : ¬ file.length ≤ offset := by omega
  have large : ¬ 4 + payload.length < 4 := by omega
  have fits : ¬ file.length < offset + (4 + payload.length) := by omega
  have size : 4 + payload.length - 4 = payload.length := by omega
  rw [append_assoc] at here
  rw [readLoop, if_neg inside, here, readPod_size small]
  dsimp only
  rw [if_neg large, if_neg fits, size, take_left, decoded]
  cases readLoop file fuel (offset + (4 + payload.length)) <;> rfl

theorem readLoop_frames {valid rest : Bytes} (frames : Frames offset valid found)
    (here : file.drop offset = valid ++ rest) (fuel : Nat) (enough : valid.length ≤ fuel) :
    ∃ fuel', fuel ≤ fuel' + valid.length ∧ readLoop file fuel offset =
      (readLoop file fuel' (offset + valid.length)).map (found.map Prod.snd ++ ·) := by
  induction frames generalizing fuel with
  | @nil offset =>
    refine ⟨fuel, Nat.le_add_right _ _, ?_⟩
    simp
  | @cons offset payload more rec found small decoded frames ih =>
    simp only [length_append, length_leBytes] at enough
    obtain ⟨fuel, rfl⟩ : ∃ k, fuel = k + 1 := ⟨fuel - 1, by omega⟩
    rw [append_assoc (leBytes 4 (4 + payload.length) ++ payload)] at here
    have next : file.drop (offset + (4 + payload.length)) = more ++ rest := by
      rw [← drop_drop, here]
      exact drop_left' (by simp)
    obtain ⟨fuel', large, read⟩ := ih next fuel (by omega)
    have length : offset + (leBytes 4 (4 + payload.length) ++ payload ++ more).length =
        offset + (4 + payload.length) + more.length := by
      simp only [length_append, length_leBytes]
      omega
    refine ⟨fuel', by simp only [length_append, length_leBytes]; omega, ?_⟩
    rw [readLoop_frame small decoded here, read, length]
    cases readLoop file fuel' (offset + (4 + payload.length) + more.length) <;> rfl

end Opening

section Appending

def framesFrom : Nat → List (LogRecord Bytes) → Bytes
  | _, [] => []
  | offset, rec :: recs =>
    frameBytes offset rec ++ framesFrom (offset + (frameBytes offset rec).length) recs

/-- The records as a reader should return them: each at its offset. -/
def placed : Nat → List (LogRecord Bytes) → List (LogRecord Bytes)
  | _, [] => []
  | offset, rec :: recs =>
    { withoutPage rec with lsn := offset } ::
      placed (offset + (frameBytes offset rec).length) recs

theorem framesFrom_append (offset : Nat) (recs : List (LogRecord Bytes)) (rec : LogRecord Bytes) :
    framesFrom offset (recs ++ [rec]) = framesFrom offset recs ++
      frameBytes (offset + (framesFrom offset recs).length) rec := by
  induction recs generalizing offset with
  | nil => simp [framesFrom]
  | cons r recs ih =>
    rw [List.cons_append, framesFrom, ih, framesFrom, append_assoc, length_append,
      Nat.add_assoc]

theorem length_frame (lsn : Nat) (rec : LogRecord Bytes) :
    (frameBytes lsn rec).length = 4 + (serializeLogRecordPayload rec).length := by
  rw [frameBytes, length_append, length_leBytes, length_serialize]

variable {file : Bytes} {offset : Nat}

theorem readLoop_refuses {kept : Bytes} {size : Nat} (small : size < 2 ^ 32)
    (here : file.drop offset = leBytes 4 size ++ kept)
    (refused : deserializeLogRecordPayload (kept.take (size - 4)) = none ∨ kept.length + 4 < size)
    (fuel : Nat) (x : LogRecord Bytes) (xs : List (LogRecord Bytes)) :
    readLoop file fuel offset ≠ some (x :: xs) := by
  have length := congrArg List.length here
  simp only [length_drop, length_append, length_leBytes] at length
  have inside : ¬ file.length ≤ offset := by omega
  cases fuel with
  | zero => simp [readLoop]
  | succ fuel =>
    rw [readLoop, if_neg inside, here, readPod_size small]
    dsimp only
    split
    · simp
    · split
      · simp
      · rcases refused with refused | short
        · rw [refused]
          simp
        · omega

theorem readLoop_short (short : (file.drop offset).length < 4) (fuel : Nat) (x : LogRecord Bytes)
    (xs : List (LogRecord Bytes)) :
    readLoop file fuel offset ≠ some (x :: xs) := by
  cases fuel with
  | zero => simp [readLoop]
  | succ fuel =>
    have none : readPod 4 (file.drop offset) = none := by
      rw [readPod, if_pos short]
    rw [readLoop, none]
    split <;> simp

theorem readLoop_cut {n : Nat} {rec : LogRecord Bytes} (fits : Fits rec)
    (here : file.drop offset = (frameBytes offset rec).take n)
    (cut : n < (frameBytes offset rec).length) (fuel : Nat) (x : LogRecord Bytes)
    (xs : List (LogRecord Bytes)) : readLoop file fuel offset ≠ some (x :: xs) := by
  by_cases short : n < 4
  · apply readLoop_short
    rw [here, length_take]
    omega
  · have size := length_frame offset rec
    rw [frameBytes, take_append, take_of_length_le (by rw [length_leBytes]; omega),
      length_leBytes] at here
    apply readLoop_refuses (Nat.mod_lt _ (by decide)) here
    left
    apply deserialize_cut fits offset
    · exact ( take_prefix _ _).trans ( take_prefix _ _)
    · simp only [length_take, length_serialize]
      omega

theorem readLoop_wrapped {rest : Bytes} {rec : LogRecord Bytes} (fits : Fits rec)
    (here : file.drop offset = frameBytes offset rec ++ rest)
    (large : 2 ^ 32 ≤ 4 + (serializeLogRecordPayload rec).length) (fuel : Nat) (x : LogRecord Bytes)
    (xs : List (LogRecord Bytes)) :
    readLoop file fuel offset ≠ some (x :: xs) := by
  have wrapped := Nat.mod_lt
    (4 + (serializeLogRecordPayload { rec with lsn := offset }).length) (show 0 < 2 ^ 32 by decide)
  have payload := length_serialize rec offset
  rw [frameBytes, append_assoc] at here
  apply readLoop_refuses wrapped here
  left
  rw [List.take_append_of_le_length (by omega)]
  apply deserialize_cut fits offset ( take_prefix _ _)
  rw [length_take]
  omega

theorem readLoop_placed {file : Bytes} {recs : List (LogRecord Bytes)} {offset n fuel : Nat}
    (fits : ∀ rec ∈ recs, Fits rec)
    (here : file.drop offset = (framesFrom offset recs).take n)
    (enough : min n (framesFrom offset recs).length ≤ fuel) :
    readLoop file fuel offset = some (placed offset recs) ↔
      (∀ rec ∈ recs, 4 + (serializeLogRecordPayload rec).length < 2 ^ 32) ∧
        (framesFrom offset recs).length ≤ n := by
  induction recs generalizing offset n fuel with
  | nil =>
    rw [readLoop_end (by rw [here, framesFrom, List.take_nil])]
    simp [placed, framesFrom]
  | cons rec recs ih =>
    have own := fits rec List.mem_cons_self
    have size := length_frame offset rec
    rw [framesFrom, length_append] at enough ⊢
    rw [framesFrom] at here
    by_cases cut : n < (frameBytes offset rec).length
    · rw [List.take_append_of_le_length (by omega)] at here
      have refused := readLoop_cut own here cut fuel
      simp only [placed, refused, mem_cons, forall_eq_or_imp, false_iff, not_and]
      intro _
      omega
    · rw [take_append, take_of_length_le (by omega)] at here
      by_cases small : 4 + (serializeLogRecordPayload rec).length < 2 ^ 32
      · obtain ⟨fuel, rfl⟩ : ∃ k, fuel = k + 1 := ⟨fuel - 1, by omega⟩
        have payload := length_serialize rec offset
        have total : 4 + (serializeLogRecordPayload { rec with lsn := offset }).length =
            (frameBytes offset rec).length := by rw [size, payload]
        have next : file.drop (offset + (frameBytes offset rec).length) =
            (framesFrom (offset + (frameBytes offset rec).length) recs).take
              (n - (frameBytes offset rec).length) := by
          rw [← drop_drop, here, drop_left]
        have later := @ih _ _ fuel (fun r member => fits r (List.mem_cons_of_mem rec member)) next
          (by omega)
        have frame := readLoop_frame (by rw [payload]; exact small) (deserialize_at own offset)
          (by rw [here, frameBytes, Nat.mod_eq_of_lt (by rw [payload]; exact small)]) fuel
        rw [frame, total, placed]
        simp only [Option.map_eq_some_iff, List.cons.injEq, mem_cons, forall_eq_or_imp]
        constructor
        · rintro ⟨others, read, -, rfl⟩
          obtain ⟨sizes, bound⟩ := later.mp read
          exact ⟨⟨small, sizes⟩, by omega⟩
        · rintro ⟨⟨-, sizes⟩, bound⟩
          exact ⟨_, later.mpr ⟨sizes, by omega⟩, trivial, rfl⟩
      · have refused := readLoop_wrapped own here (by omega) fuel
        simp only [placed, refused, mem_cons, forall_eq_or_imp, false_iff, not_and]
        intro sizes
        exact absurd sizes.1 small

end Appending

/-- A log manager with the buffer of its stream: other streams that open the file see the first
`handed` bytes. -/
structure BufferedLog where
  log : LogManager
  handed : Nat

def BufferedLog.open (content : Option Bytes) : BufferedLog :=
  ⟨.open content, (LogManager.open content).file.length⟩

/-- The calls that change the log. Of the bytes of an appended record, the stream hands over `spill`
at once, as the library chooses. -/
inductive BufferedCall
  | append (rec : LogRecord Bytes) (spill : Nat)
  | flushUpTo (lsn : Nat)
  | setMaster (lsn : Nat)

/-- `AppendRecord` seeks to the end first, which hands over what is in the buffer; the other
two flush the stream, unless `FlushUpTo` returns early. -/
def BufferedLog.call (s : BufferedLog) : BufferedCall → BufferedLog
  | .append rec spill =>
    let log := (s.log.appendRecord rec).1
    ⟨log, min (s.log.file.length + spill) log.file.length⟩
  | .flushUpTo lsn =>
    if lsn ≤ s.log.persistentLsn then s else ⟨s.log.flushUpTo lsn, s.log.file.length⟩
  | .setMaster lsn =>
    let log := s.log.setMasterCheckpointLsn lsn
    ⟨log, log.file.length⟩

def BufferedLog.after (content : Option Bytes) (calls : List BufferedCall) : BufferedLog :=
  calls.foldl BufferedLog.call (.open content)

/-- `ReadAllRecordsFrom`, which opens the file with a stream of its own. -/
def BufferedLog.readAllRecordsFrom (s : BufferedLog) (startLsn : Nat) :
    Option (List (LogRecord Bytes)) :=
  { s.log with file := s.log.file.take s.handed }.readAllRecordsFrom startLsn

def appended (calls : List BufferedCall) : List (LogRecord Bytes) :=
  calls.filterMap fun
    | .append rec _ => some rec
    | _ => none

/-- What is decoded is what was encoded; the opened file is a master record and the longest prefix
of the body that splits; the reader returns its records, and behind them those that the calls
append; opened again the file is as it was. -/
structure WalFormat (content : Option Bytes) (calls : List BufferedCall) : Prop where
  roundTrip : ∀ rec, Fits rec →
    deserializeLogRecordPayload (serializeLogRecordPayload rec) = some (withoutPage rec)
  opened : ∃ master valid rest found,
    (LogManager.open content).file = master ++ valid ∧ master.length = 8 ∧
    (content.getD []).drop 8 = valid ++ rest ∧ Frames 8 valid found ∧
    (∀ valid' found', Frames 8 valid' found' → valid' <+: (content.getD []).drop 8 →
      valid'.length ≤ valid.length) ∧
    (∀ start ≤ 8, (BufferedLog.open content).readAllRecordsFrom start =
      some (found.map Prod.snd)) ∧
    ∀ start ≤ 8, (BufferedLog.after content calls).readAllRecordsFrom start =
      some (found.map Prod.snd ++ placed (8 + valid.length) (appended calls))
  reopened : LogManager.open (some (LogManager.open content).file) = LogManager.open content

private theorem after_file {content : Option Bytes} {master valid : Bytes}
    (opened : (LogManager.open content).file = master ++ valid) (length : master.length = 8)
    (calls : List BufferedCall) :
    ∃ master', master'.length = 8 ∧ (BufferedLog.after content calls).log.file =
        master' ++ valid ++ framesFrom (8 + valid.length) (appended calls) ∧
      8 + valid.length ≤ (BufferedLog.after content calls).handed ∧
      (BufferedLog.after content calls).handed ≤
        (BufferedLog.after content calls).log.file.length := by
  unfold BufferedLog.after
  induction calls using List.reverseRecOn with
  | nil =>
    refine ⟨master, length, ?_, ?_, ?_⟩
    · simpa [BufferedLog.open, appended, framesFrom] using opened
    · simp [BufferedLog.open, opened, length]
    · exact le_rfl
  | append_singleton calls c ih =>
    obtain ⟨master', length', file, seen, bound⟩ := ih
    rw [List.foldl_append]
    generalize calls.foldl BufferedLog.call (.open content) = s at file seen bound ⊢
    have total := congrArg List.length file
    simp only [length_append, length'] at total
    cases c with
    | append rec spill =>
      have recs : appended (calls ++ [.append rec spill]) = appended calls ++ [rec] := by
        simp [appended]
      refine ⟨master', length', ?_, ?_, ?_⟩
      · change s.log.file ++ frameBytes s.log.file.length rec = _
        rw [recs, framesFrom_append, total, file]
        simp only [append_assoc]
      · change 8 + valid.length ≤ min (s.log.file.length + spill)
          (s.log.file ++ frameBytes s.log.file.length rec).length
        rw [length_append]
        omega
      · exact min_le_right _ _
    | flushUpTo lsn =>
      have recs : appended (calls ++ [.flushUpTo lsn]) = appended calls := by
        simp [appended]
      rw [recs]
      by_cases early : lsn ≤ s.log.persistentLsn
      · refine ⟨master', length', ?_⟩
        simp only [List.foldl_cons, List.foldl_nil, BufferedLog.call, if_pos early]
        exact ⟨file, seen, bound⟩
      · refine ⟨master', length', ?_⟩
        simp only [List.foldl_cons, List.foldl_nil, BufferedLog.call, if_neg early,
          LogManager.flushUpTo]
        exact ⟨file, by omega, le_rfl⟩
    | setMaster lsn =>
      have recs : appended (calls ++ [.setMaster lsn]) = appended calls := by
        simp [appended]
      rw [recs]
      have body : s.log.file.drop 8 = valid ++ framesFrom (8 + valid.length) (appended calls) := by
        rw [file, append_assoc, drop_left' length']
      refine ⟨leBytes 8 lsn, by simp, ?_, ?_, le_rfl⟩
      · change leBytes 8 lsn ++ s.log.file.drop 8 = _
        rw [body, append_assoc]
      · change 8 + valid.length ≤ (leBytes 8 lsn ++ s.log.file.drop 8).length
        rw [body]
        simp only [length_append, length_leBytes]
        omega

private theorem read_after_iff {content : Option Bytes} {master valid : Bytes}
    {found : List (RecordSpan × LogRecord Bytes)}
    (opened : (LogManager.open content).file = master ++ valid) (length : master.length = 8)
    (frames : Frames 8 valid found) {calls : List BufferedCall}
    (fits : ∀ rec ∈ appended calls, Fits rec) {start : Nat} (fromStart : start ≤ 8) :
    (BufferedLog.after content calls).readAllRecordsFrom start =
        some (found.map Prod.snd ++ placed (8 + valid.length) (appended calls)) ↔
      (∀ rec ∈ appended calls, 4 + (serializeLogRecordPayload rec).length < 2 ^ 32) ∧
        (BufferedLog.after content calls).handed =
          (BufferedLog.after content calls).log.file.length := by
  obtain ⟨master', length', file, seen, bound⟩ := after_file opened length calls
  unfold BufferedLog.readAllRecordsFrom LogManager.readAllRecordsFrom
  generalize BufferedLog.after content calls = s at file seen bound ⊢
  have total := congrArg List.length file
  simp only [length_append, length'] at total
  have visible : s.log.file.take s.handed = master' ++ (valid ++
      (framesFrom (8 + valid.length) (appended calls)).take (s.handed - (8 + valid.length))) := by
    rw [file, append_assoc, take_append, take_of_length_le (by omega),
      take_append, take_of_length_le (by omega), length', Nat.sub_sub]
  have body : (s.log.file.take s.handed).drop 8 = valid ++
      (framesFrom (8 + valid.length) (appended calls)).take (s.handed - (8 + valid.length)) := by
    rw [visible, drop_left' length']
  have size : (s.log.file.take s.handed).length = s.handed := length_take_of_le bound
  have first : max start masterRecordSize = 8 := by
    unfold masterRecordSize
    omega
  dsimp only
  rw [first]
  obtain ⟨fuel, enough, read⟩ := readLoop_frames frames body
    (s.log.file.take s.handed).length (by omega)
  have next : (s.log.file.take s.handed).drop (8 + valid.length) =
      (framesFrom (8 + valid.length) (appended calls)).take (s.handed - (8 + valid.length)) := by
    rw [← drop_drop, body, drop_left]
  have later := @readLoop_placed _ _ _ _ fuel fits next (by
    have seenSize := congrArg List.length body
    simp only [length_drop, length_append, length_take] at seenSize
    omega)
  rw [read, Option.map_eq_some_iff]
  have same : (∃ others, readLoop (s.log.file.take s.handed) fuel (8 + valid.length) = some others ∧
      found.map Prod.snd ++ others = found.map Prod.snd ++ placed (8 + valid.length)
        (appended calls)) ↔ readLoop (s.log.file.take s.handed) fuel (8 + valid.length) =
      some (placed (8 + valid.length) (appended calls)) := by
    constructor
    · rintro ⟨others, read, same⟩
      rw [read, List.append_cancel_left same]
    · intro read
      exact ⟨_, read, rfl⟩
  have whole : (framesFrom (8 + valid.length) (appended calls)).length ≤
      s.handed - (8 + valid.length) ↔ s.handed = s.log.file.length := by omega
  rw [same, later, whole]

/-- The log keeps its promises exactly when every size fits its field and the stream has handed
over the bytes of the last record before the log is read. -/
theorem walFormat_iff_handed {content : Option Bytes} {calls : List BufferedCall}
    (fits : ∀ rec ∈ appended calls, Fits rec) :
    WalFormat content calls ↔
      (∀ rec ∈ appended calls, 4 + (serializeLogRecordPayload rec).length < 2 ^ 32) ∧
        (BufferedLog.after content calls).handed =
          (BufferedLog.after content calls).log.file.length := by
  constructor
  · intro format
    obtain ⟨master, valid, rest, found, opened, length, -, frames, -, -, reads⟩ := format.opened
    exact (read_after_iff opened length frames fits (Nat.zero_le 8)).mp (reads 0 (Nat.zero_le 8))
  · intro seen
    obtain ⟨master, valid, rest, found, opened, length, split, frames, stuck, -, isMaster⟩ :=
      ensure_frames content
    refine ⟨fun rec => deserialize_serialize, ⟨master, valid, rest, found, opened, length, split,
      frames, ?_, ?_, ?_⟩, ?_⟩
    · intro valid' found' other within
      exact frames.longest stuck other (by rwa [← split])
    · intro start fromStart
      have atOpen : (BufferedLog.open content).readAllRecordsFrom start =
          some (found.map Prod.snd ++ placed (8 + valid.length) (appended [])) :=
        (@read_after_iff _ _ _ _ opened length frames [] (by simp [appended]) _
          fromStart).mpr ⟨by simp [appended], rfl⟩
      simpa [appended, placed] using atOpen
    · exact fun start fromStart => (read_after_iff opened length frames fits fromStart).mpr seen
    · have same := ensure_keeps length frames isMaster
      rw [← opened] at same
      unfold LogManager.open
      dsimp only
      rw [same]

def firstRecord : LogRecord Bytes := { LogRecord.blank [] .begin with txnId := 1 }

private theorem firstRecord_fits : Fits firstRecord where
  lsn := by decide
  txnId := by decide
  prevLsn := by decide
  undoNextLsn := by decide
  pageId := by decide
  beforeImage := by decide
  afterImage := by decide
  activeTxns := by decide
  dirtyPages := by decide

theorem walFormat_flushed :
    WalFormat none [.append firstRecord 0, .flushUpTo 62] :=
  (walFormat_iff_handed (by
    intro rec member
    obtain rfl := List.mem_singleton.mp member
    exact firstRecord_fits)).mpr ⟨by decide, by decide⟩

/-- The record that was just appended is in the buffer of the stream, and the reader does not
return it. -/
theorem walFormat_fails_buffered :
    (∀ rec ∈ appended [.append firstRecord 0], Fits rec) ∧
      (BufferedLog.after none [.append firstRecord 0]).readAllRecordsFrom 8 = some [] ∧
      ¬ WalFormat none [.append firstRecord 0] := by
  have nothing : (BufferedLog.after none [.append firstRecord 0]).readAllRecordsFrom 8 = some [] :=
    by decide
  refine ⟨?_, nothing, fun format => ?_⟩
  · intro rec member
    obtain rfl := List.mem_singleton.mp member
    exact firstRecord_fits
  · obtain ⟨_, _, _, found, -, -, -, -, -, -, reads⟩ := format.opened
    have lost := reads 8 le_rfl
    rw [nothing] at lost
    have length := congrArg List.length (Option.some.inj lost)
    simp [appended, placed] at length

end GraniteDb.Recovery.WalFormat
