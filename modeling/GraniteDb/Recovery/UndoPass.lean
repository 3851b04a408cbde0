/- Undo with its priority queue is one pass over the log from its end. -/

import GraniteDb.Recovery.LogHistory
import GraniteDb.Recovery.RecoveryFacts

namespace GraniteDb.Recovery.UndoPass

open Common.Types Recovery.WalRecords Recovery.RecordLog Recovery.RecoveryManager
open Recovery.RecoveryFacts Recovery.LogHistory

variable {β : Type}

/-- Where the rollback of a transaction stands: the record it comes to next, and the last LSN
of the transaction. -/
structure Cursor where
  next : Nat
  last : Nat
  deriving DecidableEq

/-- The log so far, and the cursors of the transactions still to be rolled back. -/
structure Pass (β : Type) where
  log : List (Rec β)
  cursors : Nat → Option Cursor

def Pass.setCursor (s : Pass β) (t : Nat) (cursor : Option Cursor) : Pass β :=
  { s with cursors := Function.update s.cursors t cursor }

def Pass.finish (s : Pass β) (t prevLsn : Nat) : Pass β where
  log := append s.log (txnRecord .abort t prevLsn)
  cursors := Function.update s.cursors t none

def Pass.stepTo (s : Pass β) (t next last : Nat) : Pass β :=
  if next ≠ 0 then s.setCursor t (some ⟨next, last⟩) else s.finish t last

def compensation (rec : Rec β) (last : Nat) : Rec β :=
  makeClrPageUndoRecord none rec.txnId last rec.prevLsn rec.pageId rec.beforeImage

def Pass.compensate (s : Pass β) (rec : Rec β) (last : Nat) : Pass β :=
  { s with log := append s.log (compensation rec last) }

def undoes (rec : Rec β) : Bool := isUndoablePageRecord rec.type && rec.hasPage

/-- What the rollback of its transaction does at `rec`. -/
def visit (s : Pass β) (rec : Rec β) (last : Nat) : Pass β :=
  if rec.type = .clr then
    if rec.undoNextLsn ≠ 0 then s.setCursor rec.txnId (some ⟨rec.undoNextLsn, last⟩)
    else s.finish rec.txnId rec.lsn
  else if rec.type = .begin then s.finish rec.txnId rec.lsn
  else if undoes rec then (s.compensate rec last).stepTo rec.txnId rec.prevLsn (endLsn s.log)
  else s.stepTo rec.txnId rec.prevLsn last

def passStep (rec : Rec β) (s : Pass β) : Pass β :=
  match s.cursors rec.txnId with
  | some cursor => if cursor.next = rec.lsn then visit s rec cursor.last else s
  | none => s

/-- The pass over `records`, the last of them first. -/
def pass (records : List (Rec β)) (s : Pass β) : Pass β := records.foldr passStep s

def cursorOf (entry : Option TxnTableEntry) : Option Cursor :=
  match entry with
  | some entry =>
    if isLoserState entry.state && entry.lastLsn != 0 then some ⟨entry.lastLsn, entry.lastLsn⟩
    else none
  | none => none

def Pass.start (log : List (Rec β)) (txns : TxnTable) : Pass β where
  log := log
  cursors := fun t => cursorOf (txns.lookup t)

/-- Every cursor stands on a record of its transaction among `records`. -/
def CursorsIn (records : List (Rec β)) (s : Pass β) : Prop :=
  ∀ t cursor, s.cursors t = some cursor → ∃ q ∈ records, Own t q ∧ q.lsn = cursor.next

section Cursors

@[simp] theorem setCursor_log (s : Pass β) (t : Nat) (cursor : Option Cursor) :
    (s.setCursor t cursor).log = s.log := rfl

@[simp] theorem setCursor_self (s : Pass β) (t : Nat) (cursor : Option Cursor) :
    (s.setCursor t cursor).cursors t = cursor := Function.update_self ..

variable {t u : Nat} {rec : Rec β} {s : Pass β}

theorem setCursor_other (s : Pass β) (cursor : Option Cursor) (other : u ≠ t) :
    (s.setCursor t cursor).cursors u = s.cursors u := Function.update_of_ne other ..

@[simp] theorem finish_self (s : Pass β) (t prevLsn : Nat) :
    (s.finish t prevLsn).cursors t = none := Function.update_self ..

theorem finish_other (s : Pass β) (prevLsn : Nat) (other : u ≠ t) :
    (s.finish t prevLsn).cursors u = s.cursors u := Function.update_of_ne other ..

theorem stepTo_other (s : Pass β) (next last : Nat) (other : u ≠ t) :
    (s.stepTo t next last).cursors u = s.cursors u := by
  unfold Pass.stepTo
  split
  · exact setCursor_other s _ other
  · exact finish_other s _ other

theorem visit_other (s : Pass β) (last : Nat) (other : u ≠ rec.txnId) :
    (visit s rec last).cursors u = s.cursors u := by
  unfold visit
  split
  · split
    · exact setCursor_other s _ other
    · exact finish_other s _ other
  · split
    · exact finish_other s _ other
    · split
      · exact stepTo_other _ _ _ other
      · exact stepTo_other _ _ _ other

theorem stepTo_next {next last : Nat} {cursor : Cursor}
    (found : (s.stepTo t next last).cursors t = some cursor) :
    next ≠ 0 ∧ cursor = ⟨next, last⟩ := by
  unfold Pass.stepTo at found
  split at found
  · rename_i more
    rw [setCursor_self, Option.some.injEq] at found
    exact ⟨more, found.symm⟩
  · rw [finish_self] at found
    cases found

theorem visit_next {last : Nat} {cursor : Cursor}
    (found : (visit s rec last).cursors rec.txnId = some cursor) :
    cursor.next ≠ 0 ∧ (cursor.next = rec.prevLsn ∨
      rec.type = .clr ∧ cursor.next = rec.undoNextLsn) := by
  unfold visit at found
  split at found
  · rename_i isClr
    split at found
    · rename_i more
      rw [setCursor_self, Option.some.injEq] at found
      subst found
      exact ⟨more, .inr ⟨isClr, rfl⟩⟩
    · rw [finish_self] at found
      cases found
  · split at found
    · rw [finish_self] at found
      cases found
    · split at found
      · obtain ⟨more, rfl⟩ := stepTo_next found
        exact ⟨more, .inl rfl⟩
      · obtain ⟨more, rfl⟩ := stepTo_next found
        exact ⟨more, .inl rfl⟩

theorem CursorsIn.passStep {records : List (Rec β)} (chained : Chained (records ++ [rec]))
    (inside : CursorsIn (records ++ [rec]) s) :
    CursorsIn records (passStep rec s) := by
  have links := chained.links_last
  -- A cursor that is not on the last record is on an earlier one.
  have earlier : ∀ t cursor, s.cursors t = some cursor →
      (t = rec.txnId → cursor.next ≠ rec.lsn) → ∃ q ∈ records, Own t q ∧ q.lsn = cursor.next := by
    intro t cursor found apart
    obtain ⟨q, member, own, at_lsn⟩ := inside t cursor found
    rcases List.mem_append.mp member with before | here
    · exact ⟨q, before, own, at_lsn⟩
    · rw [List.mem_singleton] at here
      subst here
      exact absurd at_lsn.symm (apart own.txn.symm)
  intro t cursor found
  unfold UndoPass.passStep at found
  cases known : s.cursors rec.txnId with
  | none =>
    rw [known] at found
    refine earlier t cursor found fun same => ?_
    subst same
    rw [known] at found
    cases found
  | some old =>
    rw [known] at found
    dsimp only at found
    split at found
    · rename_i here
      by_cases same : t = rec.txnId
      · subst same
        obtain ⟨nonzero, link⟩ := visit_next found
        obtain ⟨q, member, own, at_lsn⟩ := inside rec.txnId old known
        have ofTxn : isTxnRecord rec.type = true := by
          have self : q = rec := chained.placed.eq_of_lsn_eq member (by simp)
            (at_lsn.trans here)
          rw [← self]
          exact own.ofTxn
        have linked : Linked records rec.txnId cursor.next := by
          rcases link with prev | ⟨isClr, undoNext⟩
          · rw [prev]
            exact links.prev ofTxn
          · rw [undoNext]
            exact links.undoNext isClr
        rcases linked with zero | target
        · exact absurd zero nonzero
        · exact target
      · rw [visit_other s old.last same] at found
        exact earlier t cursor found fun same' => absurd same' same
    · rename_i apart
      refine earlier t cursor found fun same => ?_
      subst same
      rw [known, Option.some.injEq] at found
      rw [← found]
      exact apart

theorem cursorsIn_nil (inside : CursorsIn [] s) (t : Nat) : s.cursors t = none := by
  cases found : s.cursors t with
  | none => rfl
  | some cursor =>
    obtain ⟨q, member, _⟩ := inside t cursor found
    cases member

theorem pass_snoc (records : List (Rec β)) (rec : Rec β) (s : Pass β) :
    pass (records ++ [rec]) s = pass records (passStep rec s) := by
  simp [pass]

end Cursors

section Refinement

/-- The loop of `Undo` is at the same place as the pass. -/
structure Tracks (s : UndoState β) (w : Pass β) : Prop where
  log : s.log = w.log
  queue : ∀ item : HeapItem, item ∈ s.queue ↔
    ∃ cursor, w.cursors item.txnId = some cursor ∧ cursor.next = item.lsn
  nodup : s.queue.Nodup
  entry : ∀ t cursor, w.cursors t = some cursor →
    ∃ entry, s.txns.lookup t = some entry ∧ entry.lastLsn = cursor.last

variable {t : Nat} {cursor : Cursor} {w : Pass β} {s : UndoState β} {rec : Rec β}

theorem Tracks.pop (tracks : Tracks s w) (found : w.cursors t = some cursor) :
    Tracks { s with queue := s.queue.erase ⟨cursor.next, t⟩ } (w.setCursor t none) := by
  refine ⟨tracks.log, fun item => ?_, tracks.nodup.erase _, fun u cursor' found' => ?_⟩
  · rw [show ({ s with queue := s.queue.erase ⟨cursor.next, t⟩ } : UndoState β).queue =
      s.queue.erase ⟨cursor.next, t⟩ from rfl, tracks.nodup.mem_erase_iff, tracks.queue item]
    by_cases same : item.txnId = t
    · subst same
      rw [setCursor_self]
      constructor
      · rintro ⟨different, cursor', found', at_lsn⟩
        rw [found, Option.some.injEq] at found'
        subst found'
        exact absurd (by rw [at_lsn]) different
      · rintro ⟨cursor', none_, _⟩
        cases none_
    · rw [setCursor_other w none same]
      constructor
      · exact fun both => both.2
      · refine fun here => ⟨fun eq => same ?_, here⟩
        rw [eq]
  · by_cases same : u = t
    · subst same
      rw [setCursor_self] at found'
      cases found'
    · rw [setCursor_other w none same] at found'
      exact tracks.entry u cursor' found'

variable {entry : TxnTableEntry}

theorem Tracks.push {s : UndoState β} {w : Pass β} {t next last : Nat}
    (tracks : Tracks s (w.setCursor t none))
    (found : s.txns.lookup t = some entry) (carries : entry.lastLsn = last) :
    Tracks (push s next t) (w.setCursor t (some ⟨next, last⟩)) := by
  have absent : ∀ item ∈ s.queue, item.txnId ≠ t := by
    intro item member same
    subst same
    obtain ⟨cursor, gone, _⟩ := (tracks.queue item).mp member
    rw [setCursor_self] at gone
    cases gone
  refine ⟨tracks.log, fun item => ?_, ?_, fun u cursor' found' => ?_⟩
  · rw [show (RecoveryManager.push s next t).queue = ⟨next, t⟩ :: s.queue from rfl,
      List.mem_cons]
    by_cases same : item.txnId = t
    · have notOld : item ∉ s.queue := fun member => absent item member same
      subst same
      rw [setCursor_self]
      constructor
      · rintro (eq | member)
        · exact ⟨_, rfl, by rw [eq]⟩
        · exact absurd member notOld
      · rintro ⟨cursor', eq, at_lsn⟩
        rw [Option.some.injEq] at eq
        subst eq
        left
        show item = ⟨next, item.txnId⟩
        rw [show next = item.lsn from at_lsn]
    · rw [tracks.queue item, setCursor_other w none same, setCursor_other w _ same]
      constructor
      · rintro (eq | here)
        · exact absurd (by rw [eq]) same
        · exact here
      · exact .inr
  · show (⟨next, t⟩ :: s.queue).Nodup
    exact List.nodup_cons.mpr ⟨fun member => absent _ member rfl, tracks.nodup⟩
  · by_cases same : u = t
    · subst same
      rw [setCursor_self, Option.some.injEq] at found'
      subst found'
      exact ⟨entry, found, carries⟩
    · rw [setCursor_other w _ same] at found'
      exact tracks.entry u cursor' (by rw [setCursor_other w none same, found'])

theorem Tracks.finish (tracks : Tracks s (w.setCursor t none)) (prevLsn : Nat) :
    Tracks (finishAbortingTxn s t prevLsn) (w.finish t prevLsn) := by
  refine ⟨?_, tracks.queue, tracks.nodup, fun u cursor found => ?_⟩
  · show append s.log _ = append w.log _
    rw [show s.log = w.log from tracks.log]
    rfl
  · by_cases same : u = t
    · subst same
      rw [finish_self] at found
      cases found
    · rw [finish_other w prevLsn same] at found
      obtain ⟨entry, known, carries⟩ := tracks.entry u cursor
        (by rw [setCursor_other w none same, found])
      refine ⟨entry, ?_, carries⟩
      show (s.txns.insert t _).lookup u = some entry
      rw [AList.lookup_insert_ne same, known]

theorem Tracks.stepOrFinish {next last : Nat} (tracks : Tracks s (w.setCursor t none))
    (found : s.txns.lookup t = some entry)
    (carries : entry.lastLsn = last) :
    Tracks (stepOrFinish s t next) (w.stepTo t next last) := by
  unfold RecoveryManager.stepOrFinish Pass.stepTo
  split
  · exact tracks.push found carries
  · rw [entryOf, found, Option.getD_some, carries]
    exact tracks.finish last

theorem Tracks.undoRecord {last : Nat} (tracks : Tracks s (w.setCursor rec.txnId none))
    (carries : entry.lastLsn = last)
    (image : rec.beforeImage.isSome = true) :
    ∃ s', undoRecord s rec rec.txnId entry = .ok s' ∧
      Tracks s' ((w.compensate rec last).setCursor rec.txnId none) ∧
      s'.txns.lookup rec.txnId = some { entry with lastLsn := endLsn w.log } := by
  obtain ⟨body, isSome⟩ := Option.isSome_iff_exists.mp image
  have sameLog : s.log = w.log := tracks.log
  unfold RecoveryManager.undoRecord
  simp only [isSome, applyImage, Option.map_some]
  refine ⟨_, rfl, ⟨?_, tracks.queue, tracks.nodup, fun u cursor found => ?_⟩, ?_⟩
  · show append s.log _ = append w.log _
    rw [sameLog, compensation, isSome, carries]
  · by_cases same : u = rec.txnId
    · subst same
      rw [setCursor_self] at found
      cases found
    · obtain ⟨old, known, carriesOld⟩ := tracks.entry u cursor found
      refine ⟨old, ?_, carriesOld⟩
      show (s.txns.insert rec.txnId _).lookup u = some old
      rw [AList.lookup_insert_ne same, known]
  · show (s.txns.insert rec.txnId _).lookup rec.txnId = _
    rw [AList.lookup_insert, sameLog]

theorem Tracks.undoStep {all : List (Rec β)} (tracks : Tracks s w)
    (found : w.cursors rec.txnId = some cursor) (here : cursor.next = rec.lsn)
    (known : findRecord all rec.lsn = some rec)
    (image : isUndoablePageRecord rec.type = true → rec.beforeImage.isSome = true) :
    ∃ s', undoStep all { s with queue := s.queue.erase ⟨rec.lsn, rec.txnId⟩ }
        ⟨rec.lsn, rec.txnId⟩ = .ok s' ∧ Tracks s' (visit w rec cursor.last) := by
  have popped := tracks.pop found
  rw [here] at popped
  obtain ⟨entry, entryFound, carries⟩ := tracks.entry rec.txnId cursor found
  unfold RecoveryManager.undoStep visit
  simp only [entryFound, known]
  split
  · split
    · exact ⟨_, rfl, popped.push entryFound carries⟩
    · exact ⟨_, rfl, popped.finish rec.lsn⟩
  · split
    · exact ⟨_, rfl, popped.finish rec.lsn⟩
    · by_cases undoable : (isUndoablePageRecord rec.type && rec.hasPage) = true
      · have shape := undoable
        rw [Bool.and_eq_true] at shape
        obtain ⟨s', ok, after, entryAfter⟩ := popped.undoRecord carries (image shape.1)
        rw [if_pos undoable, if_pos (show undoes rec = true from undoable), ok]
        exact ⟨_, rfl, after.stepOrFinish entryAfter rfl⟩
      · rw [if_neg undoable, if_neg (show ¬undoes rec = true from undoable)]
        exact ⟨_, rfl, popped.stepOrFinish entryFound carries⟩

theorem Tracks.top {records : List (Rec β)} (tracks : Tracks s w)
    (placed : Placed (records ++ [rec])) (inside : CursorsIn (records ++ [rec]) w)
    (found : w.cursors rec.txnId = some cursor) (here : cursor.next = rec.lsn) :
    top s.queue = some ⟨rec.lsn, rec.txnId⟩ := by
  have queued : (⟨rec.lsn, rec.txnId⟩ : HeapItem) ∈ s.queue :=
    (tracks.queue _).mpr ⟨cursor, found, here⟩
  have largest : ∀ item ∈ s.queue, item ≠ ⟨rec.lsn, rec.txnId⟩ → item.lsn < rec.lsn := by
    intro item member different
    obtain ⟨cursor', found', at_lsn⟩ := (tracks.queue item).mp member
    obtain ⟨q, memberQ, own, at_q⟩ := inside item.txnId cursor' found'
    rcases List.mem_append.mp memberQ with before | last
    · have bound := (placed_left placed).lsn_lt_end before
      have at_end := placed records [] rec rfl
      omega
    · rw [List.mem_singleton] at last
      subst last
      refine absurd ?_ different
      rw [own.txn, at_q, at_lsn]
  cases result : RecoveryManager.top s.queue with
  | none =>
    rw [RecoveryManager.top, List.argmax_eq_none] at result
    rw [result] at queued
    cases queued
  | some item =>
    have member : item ∈ s.queue := List.argmax_mem result
    by_contra different
    have ne : item ≠ ⟨rec.lsn, rec.txnId⟩ := fun eq => different (by rw [eq])
    have small := largest item member ne
    have large : rec.lsn ≤ item.lsn := List.le_of_mem_argmax queued result
    omega

theorem Tracks.top_nil (tracks : Tracks s w) (idle : ∀ t, w.cursors t = none) : s.queue = [] := by
  rw [List.eq_nil_iff_forall_not_mem]
  intro item member
  obtain ⟨cursor, found, _⟩ := (tracks.queue item).mp member
  rw [idle] at found
  cases found

theorem Tracks.undoLoop {all rest : List (Rec β)} (fuel : Nat) (tracks : Tracks s w)
    (chained : Chained rest) (inside : CursorsIn rest w)
    (known : ∀ rec ∈ rest, findRecord all rec.lsn = some rec) (enough : rest.length ≤ fuel) :
    ∃ s', undoLoop all fuel s = .done s' ∧ Tracks s' (pass rest w) := by
  induction rest using List.reverseRecOn generalizing fuel s w with
  | nil =>
    have empty := tracks.top_nil (cursorsIn_nil inside)
    refine ⟨s, ?_, tracks⟩
    cases fuel with
    | zero => simp [RecoveryManager.undoLoop, empty]
    | succ fuel => simp [RecoveryManager.undoLoop, empty, RecoveryManager.top]
  | append_singleton records rec ih =>
    rw [List.length_append, List.length_singleton] at enough
    have later := inside.passStep chained
    have knownBefore : ∀ r ∈ records, findRecord all r.lsn = some r :=
      fun r member => known r (List.mem_append_left _ member)
    rw [pass_snoc]
    -- A record that no cursor stands on costs no round.
    have skipped (same : passStep rec w = w) : ∃ s',
        RecoveryManager.undoLoop all fuel s = .done s' ∧
          Tracks s' (pass records (passStep rec w)) := by
      rw [same] at later ⊢
      exact ih fuel tracks chained.left later knownBefore (by omega)
    cases found : w.cursors rec.txnId with
    | none => exact skipped (by simp only [passStep, found])
    | some cursor =>
      by_cases here : cursor.next = rec.lsn
      · obtain ⟨fuel', rfl⟩ : ∃ n, fuel = n + 1 := ⟨fuel - 1, by omega⟩
        have first := tracks.top chained.placed inside found here
        obtain ⟨s', ok, after⟩ := tracks.undoStep found here
          (known rec (by simp)) chained.links_last.image
        have visited : passStep rec w = visit w rec cursor.last := by
          simp only [passStep, found, here, if_true]
        rw [visited] at later ⊢
        unfold RecoveryManager.undoLoop
        rw [first]
        dsimp only
        rw [ok]
        exact ih fuel' after chained.left later knownBefore (by omega)
      · exact skipped (by simp only [passStep, found, here, if_false])

end Refinement

section Start

def EntriesIn (all : List (Rec β)) (txns : TxnTable) : Prop :=
  ∀ t entry, txns.lookup t = some entry → Linked all t entry.lastLsn

theorem EntriesIn.insert {all : List (Rec β)} {txns : TxnTable} (entries : EntriesIn all txns)
    {t : Nat} {entry : TxnTableEntry} (linked : Linked all t entry.lastLsn) :
    EntriesIn all (txns.insert t entry) := by
  intro u found known
  by_cases same : u = t
  · subst same
    rw [AList.lookup_insert, Option.some.injEq] at known
    rw [← known]
    exact linked
  · rw [AList.lookup_insert_ne same] at known
    exact entries u found known

variable {txns : TxnTable} {all : List (Rec β)}

theorem EntriesIn.observeTxn (entries : EntriesIn all txns) {tx : CheckpointTxnEntry}
    (linked : Linked all tx.txnId tx.lastLsn) : EntriesIn all (observeTxn txns tx) := by
  refine entries.insert ?_
  have old : Linked all tx.txnId (entryOf txns tx.txnId).lastLsn := by
    unfold entryOf
    cases known : txns.lookup tx.txnId with
    | none => exact .inl rfl
    | some entry => exact entries tx.txnId entry known
  show Linked all tx.txnId (max (entryOf txns tx.txnId).lastLsn tx.lastLsn)
  rcases le_total (entryOf txns tx.txnId).lastLsn tx.lastLsn with le | le
  · rw [max_eq_right le]
    exact linked
  · rw [max_eq_left le]
    exact old

theorem EntriesIn.foldl_observeTxn (entries : EntriesIn all txns) (active : List CheckpointTxnEntry)
    (linked : ∀ tx ∈ active, Linked all tx.txnId tx.lastLsn) :
    EntriesIn all (active.foldl RecoveryManager.observeTxn txns) := by
  induction active generalizing txns with
  | nil => exact entries
  | cons tx rest ih =>
    exact ih (entries.observeTxn (linked tx List.mem_cons_self))
      fun tx' member => linked tx' (List.mem_cons_of_mem _ member)

theorem EntriesIn.analysisStep {tables : Tables} {rec : Rec β} (chained : Chained all)
    (member : rec ∈ all) (entries : EntriesIn all tables.txns) :
    EntriesIn all (analysisStep tables rec).txns := by
  have own (ofTxn : isTxnRecord rec.type = true) : Linked all rec.txnId rec.lsn :=
    .inr ⟨rec, member, ⟨ofTxn, rfl⟩, rfl⟩
  unfold RecoveryManager.analysisStep
  split
  · rename_i type
    exact entries.insert (own (by simp [type, isTxnRecord]))
  · rename_i type
    exact entries.insert (own (by simp [type, isTxnRecord]))
  · rename_i type
    exact entries.insert (own (by simp [type, isTxnRecord]))
  · rename_i type
    obtain ⟨before, after, split⟩ := List.append_of_mem member
    refine entries.foldl_observeTxn rec.activeTxns fun tx here => ?_
    refine ((chained.links before rec after split).active type tx here).mono fun q inside => ?_
    rw [split]
    exact List.mem_append_left _ inside
  · exact entries
  · exact entries
  · exact entries
  all_goals
    rename_i type
    exact entries.observeTxn (own (by
      simp [type, isTxnRecord, isPageUpdateRecord, isUndoablePageRecord]))

theorem entriesIn_analysis (chained : Chained all) (master : Nat) :
    EntriesIn all (analysis master all).txns := by
  have inside : ∀ rec ∈ scanned master all, rec ∈ all := fun rec member =>
    (mem_scanned.mp member).1
  have start : EntriesIn all (⟨∅, ∅⟩ : Tables).txns := by
    intro t entry known
    simp at known
  unfold analysis
  generalize (⟨∅, ∅⟩ : Tables) = tables at start
  generalize scanned master all = records at inside
  induction records generalizing tables with
  | nil => exact start
  | cons rec rest ih =>
    exact ih _ (start.analysisStep chained (inside rec List.mem_cons_self))
      fun r member => inside r (List.mem_cons_of_mem _ member)

theorem cursorOf_eq_some {entry : Option TxnTableEntry} {cursor : Cursor}
    (found : cursorOf entry = some cursor) : ∃ e, entry = some e ∧ isLoserState e.state = true ∧
      e.lastLsn ≠ 0 ∧ cursor = ⟨e.lastLsn, e.lastLsn⟩ := by
  unfold cursorOf at found
  split at found
  · rename_i e
    split at found
    · rename_i loser
      rw [Bool.and_eq_true, bne_iff_ne] at loser
      rw [Option.some.injEq] at found
      exact ⟨e, rfl, loser.1, loser.2, found.symm⟩
    · cases found
  · cases found

theorem cursorsIn_start {log : List (Rec β)} (chained : Chained all) (master : Nat) :
    CursorsIn all (Pass.start log (analysis master all).txns) := by
  intro t cursor found
  obtain ⟨entry, known, _, nonzero, rfl⟩ := cursorOf_eq_some found
  rcases entriesIn_analysis chained master t entry known with zero | target
  · exact absurd zero nonzero
  · exact target

theorem mem_losers {item : HeapItem} : item ∈ losers txns ↔
    ∃ cursor, cursorOf (txns.lookup item.txnId) = some cursor ∧ cursor.next = item.lsn := by
  constructor
  · intro member
    obtain ⟨⟨t, entry⟩, listed, eq⟩ := List.mem_filterMap.mp member
    dsimp only at eq
    split at eq
    · rename_i loser
      cases eq
      have known : txns.lookup t = some entry := AList.mem_lookup_iff.mpr listed
      refine ⟨⟨entry.lastLsn, entry.lastLsn⟩, ?_, rfl⟩
      simp only [known, cursorOf, loser, if_true]
    · cases eq
  · rintro ⟨cursor, found, at_lsn⟩
    obtain ⟨entry, known, loser, nonzero, rfl⟩ := cursorOf_eq_some found
    refine List.mem_filterMap.mpr ⟨⟨item.txnId, entry⟩, AList.mem_lookup_iff.mp known, ?_⟩
    have both : (isLoserState entry.state && entry.lastLsn != 0) = true := by
      rw [loser, Bool.true_and, bne_iff_ne]
      exact nonzero
    rw [if_pos both, show entry.lastLsn = item.lsn from at_lsn]

theorem nodup_losers (txns : TxnTable) : (losers txns).Nodup := by
  have keys : txns.entries.Pairwise fun a b => a.1 ≠ b.1 :=
    List.pairwise_map.mp txns.nodupKeys
  refine List.pairwise_filterMap.mpr (keys.imp ?_)
  intro a b apart x hx y hy same
  split at hx <;> cases hx
  split at hy <;> cases hy
  exact apart (congrArg HeapItem.txnId same)

theorem tracks_start (all : List (Rec β)) (txns : TxnTable) (pages : PageId → Page β) :
    Tracks ⟨all, txns, pages, losers txns⟩ (Pass.start all txns) := by
  refine ⟨rfl, fun item => mem_losers, nodup_losers txns, fun t cursor found => ?_⟩
  obtain ⟨entry, known, _, _, rfl⟩ := cursorOf_eq_some found
  exact ⟨entry, known, rfl⟩

theorem pass_idle {s : Pass β} (idle : ∀ t, s.cursors t = none) (records : List (Rec β)) :
    pass records s = s := by
  induction records with
  | nil => rfl
  | cons rec rest ih =>
    show passStep rec (pass rest s) = s
    rw [ih]
    unfold passStep
    rw [idle]

theorem undoLoop_start (chained : Chained all) (master : Nat) (pages : PageId → Page β) {fuel : Nat}
    (enough : all.length ≤ fuel) : ∃ s',
      undoLoop all fuel ⟨all, (analysis master all).txns, pages,
        losers (analysis master all).txns⟩ = .done s' ∧
      s'.log = (pass all (Pass.start all (analysis master all).txns)).log := by
  have tracks := tracks_start all (analysis master all).txns pages
  have inside : CursorsIn all (Pass.start all (analysis master all).txns) :=
    cursorsIn_start chained master
  have known : ∀ rec ∈ all, findRecord all rec.lsn = some rec :=
    fun rec member => chained.placed.findRecord_eq member
  obtain ⟨s', done, after⟩ := tracks.undoLoop fuel chained inside known enough
  exact ⟨s', done, after.log⟩

theorem undo_done (chained : Chained all) (master : Nat) (pages : PageId → Page β) :
    ∃ s', undo all (analysis master all).txns pages = .done s' ∧
      s'.log = (pass all (Pass.start all (analysis master all).txns)).log := by
  unfold undo
  by_cases none_ : losers (analysis master all).txns = []
  · have tracks := tracks_start all (analysis master all).txns pages
    have idle : ∀ t, (Pass.start all (analysis master all).txns).cursors t = none := by
      intro t
      cases found : (Pass.start all (analysis master all).txns).cursors t with
      | none => rfl
      | some cursor =>
        have queued := (tracks.queue ⟨cursor.next, t⟩).mpr ⟨cursor, found, rfl⟩
        rw [show (⟨all, _, pages, losers (analysis master all).txns⟩ : UndoState β).queue =
          losers (analysis master all).txns from rfl, none_] at queued
        cases queued
    rw [none_, List.length_nil, Nat.zero_mul, pass_idle idle]
    exact ⟨⟨all, (analysis master all).txns, pages, []⟩, by simp [undoLoop], rfl⟩
  · refine undoLoop_start chained master pages ?_
    have positive : 0 < (losers (analysis master all).txns).length :=
      List.length_pos_iff.mpr none_
    calc all.length ≤ 1 * (all.length + 1) := by omega
      _ ≤ _ := Nat.mul_le_mul_right _ positive

end Start

end GraniteDb.Recovery.UndoPass
