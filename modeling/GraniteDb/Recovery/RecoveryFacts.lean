/- What analysis, redo and undo do to single transactions and single pages. -/

import GraniteDb.Recovery.RecoveryManager

namespace GraniteDb.Recovery.RecoveryFacts

open Common.Types Recovery.WalRecords Recovery.RecordLog Recovery.RecoveryManager Buffer
open Buffer.BufferPoolManager (DirtyPageTable markDirty)
open List (mem_cons_self mem_cons_of_mem mem_cons foldl_cons)

variable {β : Type}

section Analysis

theorem scanned_append (master : Nat) (first second : List (Rec β)) :
    scanned master (first ++ second) = scanned master first ++ scanned master second := by
  simp [scanned]

theorem mem_scanned {master : Nat} {records : List (Rec β)} {rec : Rec β} :
    rec ∈ scanned master records ↔ rec ∈ records ∧ (master = 0 ∨ master ≤ rec.lsn) := by
  simp only [scanned, List.mem_filter, Bool.not_eq_true', Bool.and_eq_false_iff,
    bne_eq_false_iff_eq, decide_eq_false_iff_not, Nat.not_lt]

theorem lookup_observeTxn (txns : TxnTable) (tx : CheckpointTxnEntry) (t : Nat) :
    (observeTxn txns tx).lookup t =
      if t = tx.txnId then some ((entryOf txns tx.txnId).observe tx.state tx.lastLsn)
      else txns.lookup t := by
  unfold observeTxn
  by_cases same : t = tx.txnId
  · subst same
    simp
  · simp [same, AList.lookup_insert_ne]

variable {tables : Tables} {t : Nat} {txns : TxnTable}

theorem lookup_analysisStep_of_other {rec : Rec β}
    (other : isTxnRecord rec.type = true → rec.txnId ≠ t) (notEnd : rec.type ≠ .endCheckpoint) :
    (analysisStep tables rec).txns.lookup t = tables.txns.lookup t := by
  have apart (own : isTxnRecord rec.type = true) : t ≠ rec.txnId :=
    fun same => other own same.symm
  unfold analysisStep
  split
  all_goals first
    | rfl
    | exact absurd ‹_› notEnd
    | exact AList.lookup_insert_ne (apart (by
        simp_all [isTxnRecord, isPageUpdateRecord, isUndoablePageRecord]))

/-- `t` is either unknown or known to have committed. -/
def Settled (txns : TxnTable) (t : Nat) : Prop :=
  ∀ entry, txns.lookup t = some entry → entry.state = .committed

def KnownCommitted (txns : TxnTable) (t : Nat) : Prop :=
  ∃ entry, txns.lookup t = some entry ∧ entry.state = .committed

theorem KnownCommitted.settled (known : KnownCommitted txns t) : Settled txns t := by
  intro entry found
  obtain ⟨other, foundOther, committed⟩ := known
  rw [found] at foundOther
  cases foundOther
  exact committed

theorem knownCommitted_observeTxn (known : KnownCommitted txns t) (tx : CheckpointTxnEntry) :
    KnownCommitted (observeTxn txns tx) t := by
  obtain ⟨entry, found, committed⟩ := known
  unfold KnownCommitted
  rw [lookup_observeTxn]
  by_cases same : t = tx.txnId
  · subst same
    refine ⟨_, if_pos rfl, ?_⟩
    simp [entryOf, found, TxnTableEntry.observe, committed, isTxnEndState]
  · exact ⟨entry, by rw [if_neg same, found], committed⟩

theorem settled_observeTxn (settled : Settled txns t) {tx : CheckpointTxnEntry}
    (reported : tx.txnId = t → tx.state = .committed) :
    Settled (observeTxn txns tx) t := by
  intro entry found
  rw [lookup_observeTxn] at found
  by_cases same : t = tx.txnId
  · rw [if_pos same] at found
    cases found
    unfold TxnTableEntry.observe entryOf
    cases known : txns.lookup tx.txnId with
    | none => simpa [isTxnEndState] using reported same.symm
    | some old => simp [settled old (same ▸ known), isTxnEndState]
  · rw [if_neg same] at found
    exact settled entry found

theorem knownCommitted_foldl_observeTxn (known : KnownCommitted txns t)
    (entries : List CheckpointTxnEntry) :
    KnownCommitted (entries.foldl observeTxn txns) t := by
  induction entries generalizing txns with
  | nil => exact known
  | cons tx rest ih => exact ih (knownCommitted_observeTxn known tx)

theorem settled_foldl_observeTxn (settled : Settled txns t) (entries : List CheckpointTxnEntry)
    (reported : ∀ tx ∈ entries, tx.txnId = t → tx.state = .committed) :
    Settled (entries.foldl observeTxn txns) t := by
  induction entries generalizing txns with
  | nil => exact settled
  | cons tx rest ih =>
    exact ih (settled_observeTxn settled (reported tx mem_cons_self))
      fun tx' member => reported tx' (mem_cons_of_mem _ member)

theorem knownCommitted_foldl (known : KnownCommitted tables.txns t) (records : List (Rec β))
    (others : ∀ r ∈ records, isTxnRecord r.type = true → r.txnId ≠ t) :
    KnownCommitted (records.foldl analysisStep tables).txns t := by
  induction records generalizing tables with
  | nil => exact known
  | cons r rest ih =>
    refine ih ?_ fun x member => others x (mem_cons_of_mem _ member)
    by_cases isEnd : r.type = .endCheckpoint
    · simp only [analysisStep, isEnd]
      exact knownCommitted_foldl_observeTxn known r.activeTxns
    · unfold KnownCommitted
      rw [lookup_analysisStep_of_other (others r mem_cons_self) isEnd]
      exact known

theorem settled_foldl (settled : Settled tables.txns t) (records : List (Rec β))
    (others : ∀ r ∈ records, isTxnRecord r.type = true → r.txnId ≠ t)
    (reported : ∀ e ∈ records, e.type = .endCheckpoint → ∀ tx ∈ e.activeTxns, tx.txnId = t →
      tx.state = .committed) :
    Settled (records.foldl analysisStep tables).txns t := by
  induction records generalizing tables with
  | nil => exact settled
  | cons r rest ih =>
    refine ih ?_ (fun x member => others x (mem_cons_of_mem _ member))
      (fun e member => reported e (mem_cons_of_mem _ member))
    by_cases isEnd : r.type = .endCheckpoint
    · simp only [analysisStep, isEnd]
      exact settled_foldl_observeTxn settled r.activeTxns
        (reported r mem_cons_self isEnd)
    · unfold Settled
      rw [lookup_analysisStep_of_other (others r mem_cons_self) isEnd]
      exact settled

end Analysis

section Redo

/-- The dirty-page table makes `Redo` start on page `p` no later than at `lsn`. -/
def Covers (dirtyPages : DirtyPageTable) (p : PageId) (lsn : Nat) : Prop :=
  ∃ recLsn, dirtyPages.lookup p = some recLsn ∧ recLsn ≤ lsn

variable {p : PageId} {lsn master : Nat} {dirtyPages : DirtyPageTable} {records : List (Rec β)}
  {r : Rec β}

theorem Covers.mono {lsn' : Nat} (covers : Covers dirtyPages p lsn) (le : lsn ≤ lsn') :
    Covers dirtyPages p lsn' := by
  obtain ⟨recLsn, found, bound⟩ := covers
  exact ⟨recLsn, found, le_trans bound le⟩

theorem covers_markDirty (dirtyPages : DirtyPageTable) (p : PageId) (lsn : Nat) :
    Covers (markDirty dirtyPages p lsn) p lsn := by
  unfold markDirty
  split
  · exact ⟨lsn, AList.lookup_insert _, le_rfl⟩
  · exact ⟨_, AList.lookup_insert _, min_le_right _ _⟩

theorem Covers.markDirty (covers : Covers dirtyPages p lsn) (q : PageId) (lsn' : Nat) :
    Covers (markDirty dirtyPages q lsn') p lsn := by
  obtain ⟨recLsn, found, bound⟩ := covers
  by_cases same : p = q
  · subst same
    unfold BufferPoolManager.markDirty
    rw [found]
    exact ⟨_, AList.lookup_insert _, le_trans (min_le_left _ _) bound⟩
  · refine ⟨recLsn, ?_, bound⟩
    unfold BufferPoolManager.markDirty
    split <;> rw [AList.lookup_insert_ne same, found]

theorem Covers.foldl_observePage (covers : Covers dirtyPages p lsn)
    (entries : List DirtyPageEntry) :
    Covers (entries.foldl observePage dirtyPages) p lsn := by
  induction entries generalizing dirtyPages with
  | nil => exact covers
  | cons dp rest ih => exact ih (covers.markDirty dp.pageId dp.recLsn)

theorem covers_foldl_observePage {dp : DirtyPageEntry} {entries : List DirtyPageEntry}
    (member : dp ∈ entries) (dirtyPages : DirtyPageTable) :
    Covers (entries.foldl observePage dirtyPages) dp.pageId dp.recLsn := by
  induction entries generalizing dirtyPages with
  | nil => cases member
  | cons head rest ih =>
    rcases mem_cons.mp member with rfl | later
    · exact (covers_markDirty dirtyPages dp.pageId dp.recLsn).foldl_observePage rest
    · exact ih later _

theorem Covers.analysisStep {tables : Tables} (covers : Covers tables.dirtyPages p lsn)
    (rec : Rec β) :
    Covers (analysisStep tables rec).dirtyPages p lsn := by
  unfold RecoveryManager.analysisStep
  split
  all_goals first
    | exact covers
    | exact covers.foldl_observePage rec.dirtyPages
    | (dsimp only
       split
       · exact covers.markDirty rec.pageId rec.lsn
       · exact covers)

theorem Covers.foldl {tables : Tables} (covers : Covers tables.dirtyPages p lsn)
    (records : List (Rec β)) :
    Covers (records.foldl RecoveryManager.analysisStep tables).dirtyPages p lsn := by
  induction records generalizing tables with
  | nil => exact covers
  | cons r rest ih => exact ih (covers.analysisStep r)

/-- `r` is a record whose after image is a version of page `p`. -/
structure IsUpdateOf (p : PageId) (r : Rec β) : Prop where
  update : isPageUpdateRecord r.type = true
  hasPage : r.hasPage = true
  page : r.pageId = p
  image : r.afterImage.isSome = true

theorem exists_newest (some_ : ∃ r ∈ records, IsUpdateOf p r) :
    ∃ before newest after, records = before ++ newest :: after ∧ IsUpdateOf p newest ∧
      ∀ x ∈ after, ¬IsUpdateOf p x := by
  induction records with
  | nil =>
    obtain ⟨r, member, _⟩ := some_
    cases member
  | cons head rest ih =>
    by_cases later : ∃ x ∈ rest, IsUpdateOf p x
    · obtain ⟨before, newest, after, split, found⟩ := ih later
      exact ⟨head :: before, newest, after, by rw [split]; rfl, found⟩
    · obtain ⟨r, member, update⟩ := some_
      rcases mem_cons.mp member with rfl | inRest
      · exact ⟨[], r, rest, rfl, update, fun x inRest version => later ⟨x, inRest, version⟩⟩
      · exact absurd ⟨r, inRest, update⟩ later

theorem covers_analysisStep (update : IsUpdateOf p r) (tables : Tables) :
    Covers (analysisStep tables r).dirtyPages p r.lsn := by
  obtain ⟨isUpdate, hasPage, page, _⟩ := update
  subst page
  unfold analysisStep
  split
  all_goals first
    | (rw [hasPage]; exact covers_markDirty tables.dirtyPages r.pageId r.lsn)
    | simp_all [isPageUpdateRecord, isUndoablePageRecord]

private theorem covers_of_scanned (member : r ∈ scanned master records)
    (here : ∀ tables : Tables, Covers (analysisStep tables r).dirtyPages p lsn) :
    Covers (analysis master records).dirtyPages p lsn := by
  obtain ⟨before, after, split⟩ := List.append_of_mem member
  unfold analysis
  rw [split, List.foldl_append, foldl_cons]
  exact (here _).foldl after

theorem covers_of_update (member : r ∈ scanned master records) (update : IsUpdateOf p r) :
    Covers (analysis master records).dirtyPages p r.lsn :=
  covers_of_scanned member (covers_analysisStep update)

theorem covers_of_checkpoint {e : Rec β} {dp : DirtyPageEntry} (member : e ∈ scanned master records)
    (isEnd : e.type = .endCheckpoint) (listed : dp ∈ e.dirtyPages) :
    Covers (analysis master records).dirtyPages dp.pageId dp.recLsn :=
  covers_of_scanned member fun tables => by
    simp only [analysisStep, isEnd]
    exact covers_foldl_observePage listed _

private theorem foldl_min_le (entries : List (Sigma fun _ : PageId => Nat)) (low : Nat) :
    entries.foldl (fun low entry => min low entry.2) low ≤ low ∧
      ∀ entry ∈ entries, entries.foldl (fun low entry => min low entry.2) low ≤ entry.2 := by
  induction entries generalizing low with
  | nil => simp
  | cons head rest ih =>
    obtain ⟨below, all⟩ := ih (min low head.2)
    refine ⟨le_trans below (min_le_left _ _), fun entry member => ?_⟩
    rcases mem_cons.mp member with rfl | later
    · exact le_trans below (min_le_right _ _)
    · exact all entry later

theorem redoStart_le {recLsn : Nat} (found : dirtyPages.lookup p = some recLsn) :
    redoStart dirtyPages ≤ recLsn :=
  (foldl_min_le dirtyPages.entries _).2 ⟨p, recLsn⟩ (AList.mem_lookup_iff.mp found)

theorem redoStep_other {start : Nat} {pages : PageId → Page β} (other : ¬IsUpdateOf p r) :
    redoStep start dirtyPages pages r p = pages p := by
  unfold redoStep
  split
  · rfl
  · split
    · rename_i should
      simp only [shouldRedoRecord, Bool.and_eq_true] at should
      obtain ⟨⟨⟨update, hasPage⟩, image⟩, _⟩ := should
      have apart : p ≠ r.pageId := fun same => other ⟨update, hasPage, same.symm, image⟩
      obtain ⟨body, isSome⟩ := Option.isSome_iff_exists.mp image
      simp [applyImage, isSome, Function.update_of_ne apart]
    · rfl

theorem redoStep_update {pages : PageId → Page β} {body : β} (update : IsUpdateOf p r)
    (image : r.afterImage = some body) (covers : Covers dirtyPages p r.lsn)
    (newer : (pages p).lsn < r.lsn) :
    redoStep (redoStart dirtyPages) dirtyPages pages r p = ⟨r.lsn, body⟩ := by
  obtain ⟨recLsn, found, bound⟩ := covers
  obtain ⟨isUpdate, hasPage, page, _⟩ := update
  subst page
  have reached : ¬r.lsn < redoStart dirtyPages :=
    Nat.not_lt.mpr (le_trans (redoStart_le found) bound)
  have should : shouldRedoRecord dirtyPages pages r = true := by
    simp [shouldRedoRecord, isUpdate, hasPage, image, found, bound, newer]
  simp [redoStep, reached, should, applyImage, image]

theorem redo_foldl_lsn_lt {start : Nat} (records : List (Rec β)) (pages : PageId → Page β)
    (older : (pages p).lsn < lsn) (before : ∀ r ∈ records, r.lsn < lsn) :
    ((records.foldl (redoStep start dirtyPages) pages) p).lsn < lsn := by
  induction records generalizing pages with
  | nil => exact older
  | cons r rest ih =>
    refine ih _ ?_ fun x member => before x (mem_cons_of_mem _ member)
    unfold redoStep
    split
    · exact older
    · split
      · unfold applyImage
        cases r.afterImage with
        | none => exact older
        | some body =>
          by_cases same : p = r.pageId
          · subst same
            simpa using before r mem_cons_self
          · simpa [Function.update_of_ne same] using older
      · exact older

theorem redo_newest {before after : List (Rec β)} {body : β} (disk : PageId → Page β)
    (placed : Placed (before ++ r :: after)) (update : IsUpdateOf p r)
    (image : r.afterImage = some body) (newest : ∀ x ∈ after, ¬IsUpdateOf p x)
    (covers : Covers dirtyPages p r.lsn) (older : (disk p).lsn < r.lsn) :
    redo dirtyPages (before ++ r :: after) disk p = ⟨r.lsn, body⟩ := by
  have nonempty : dirtyPages.entries ≠ [] := by
    obtain ⟨recLsn, found, _⟩ := covers
    exact List.ne_nil_of_mem (AList.mem_lookup_iff.mp found)
  have earlier : ∀ x ∈ before, x.lsn < r.lsn := by
    intro x member
    have start := placed before after r rfl
    have bound := (placed_left placed).lsn_lt_end member
    omega
  have stale : ((before.foldl (redoStep (redoStart dirtyPages) dirtyPages) disk) p).lsn < r.lsn :=
    redo_foldl_lsn_lt before disk older earlier
  have here := redoStep_update update image covers stale
  rw [redo, if_neg nonempty, List.foldl_append, foldl_cons, ← here]
  clear here placed
  generalize redoStep (redoStart dirtyPages) dirtyPages (before.foldl
    (redoStep (redoStart dirtyPages) dirtyPages) disk) r = pages
  induction after generalizing pages with
  | nil => rfl
  | cons x rest ih =>
    rw [foldl_cons, ih (fun y member => newest y (mem_cons_of_mem _ member)) _,
      redoStep_other (newest x mem_cons_self)]

end Redo

/-- `s'` comes from `s` by rounds of `Undo` on transaction `txnId` only. -/
structure OnBehalf (txnId : Nat) (s s' : UndoState β) : Prop where
  log : ∃ added, s'.log = s.log ++ added ∧ ∀ r ∈ added, r.txnId = txnId
  queue : ∀ item ∈ s'.queue, item ∈ s.queue ∨ item.txnId = txnId

theorem OnBehalf.refl (txnId : Nat) (s : UndoState β) : OnBehalf txnId s s :=
  ⟨⟨[], by simp, by simp⟩, fun _ member => .inl member⟩

theorem OnBehalf.trans {txnId : Nat} {s s' s'' : UndoState β} (first : OnBehalf txnId s s')
    (second : OnBehalf txnId s' s'') : OnBehalf txnId s s'' := by
  obtain ⟨added, log, own⟩ := first.log
  obtain ⟨added', log', own'⟩ := second.log
  refine ⟨⟨added ++ added', by rw [log', log, List.append_assoc], ?_⟩, ?_⟩
  · intro r member
    rcases List.mem_append.mp member with h | h
    · exact own r h
    · exact own' r h
  · intro item member
    rcases second.queue item member with h | h
    · exact first.queue item h
    · exact .inr h

theorem onBehalf_finishAbortingTxn (s : UndoState β) (txnId prevLsn : Nat) :
    OnBehalf txnId s (finishAbortingTxn s txnId prevLsn) :=
  ⟨⟨_, rfl, by simp⟩, fun _ member => .inl member⟩

theorem onBehalf_push (s : UndoState β) (lsn txnId : Nat) : OnBehalf txnId s (push s lsn txnId) := by
  refine ⟨⟨[], by simp [push], by simp⟩, fun item member => ?_⟩
  rcases mem_cons.mp member with rfl | old
  · exact .inr rfl
  · exact .inl old

theorem onBehalf_stepOrFinish (s : UndoState β) (txnId next : Nat) :
    OnBehalf txnId s (stepOrFinish s txnId next) := by
  unfold stepOrFinish
  split
  · exact onBehalf_push s next txnId
  · exact onBehalf_finishAbortingTxn s txnId _

def leftBy (result : Except (UndoState β) (UndoState β)) : UndoState β :=
  match result with
  | .ok s | .error s => s

theorem onBehalf_undoRecord (s : UndoState β) (rec : Rec β) (txnId : Nat)
    (entry : TxnTableEntry) : OnBehalf txnId s (leftBy (undoRecord s rec txnId entry)) := by
  unfold undoRecord
  dsimp only
  split <;> exact ⟨⟨_, rfl, by simp [makeClrPageUndoRecord]⟩, fun _ member => .inl member⟩

theorem onBehalf_undoStep (all : List (Rec β)) (s : UndoState β) (item : HeapItem) :
    OnBehalf item.txnId s (leftBy (undoStep all s item)) := by
  unfold undoStep
  split
  · exact .refl _ s
  · exact .refl _ s
  · rename_i entry rec _ _
    split
    · split
      · exact onBehalf_push s _ _
      · exact onBehalf_finishAbortingTxn s _ _
    · split
      · exact onBehalf_finishAbortingTxn s _ _
      · split
        · have undone := onBehalf_undoRecord s rec item.txnId entry
          cases result : undoRecord s rec item.txnId entry with
          | error failed =>
            rw [result] at undone
            exact undone
          | ok next =>
            rw [result] at undone
            exact undone.trans (onBehalf_stepOrFinish next _ _)
        · exact onBehalf_stepOrFinish s _ _

theorem undoLoop_log (all : List (Rec β)) (fuel : Nat) (s : UndoState β) :
    ∃ added, (undoLoop all fuel s).state.log = s.log ++ added ∧
      ∀ r ∈ added, ∃ item ∈ s.queue, item.txnId = r.txnId := by
  have nothing : ∃ added, s.log = s.log ++ added ∧
      ∀ r ∈ added, ∃ item ∈ s.queue, item.txnId = r.txnId := ⟨[], by simp, by simp⟩
  induction fuel generalizing s with
  | zero =>
    unfold undoLoop
    split <;> exact nothing
  | succ fuel ih =>
    unfold undoLoop
    split
    · exact nothing
    · rename_i item found
      have queued : item ∈ s.queue := List.argmax_mem found
      have round := onBehalf_undoStep all { s with queue := s.queue.erase item } item
      obtain ⟨added, log, own⟩ := round.log
      have mine : ∀ r ∈ added, ∃ item ∈ s.queue, item.txnId = r.txnId :=
        fun r member => ⟨item, queued, (own r member).symm⟩
      cases result : undoStep all { s with queue := s.queue.erase item } item with
      | error failed =>
        rw [result] at log
        exact ⟨added, log, mine⟩
      | ok next =>
        rw [result] at log round
        obtain ⟨added', log', own'⟩ := ih next ⟨[], by simp, by simp⟩
        refine ⟨added ++ added', ?_, fun r member => ?_⟩
        · exact log'.trans (by rw [show next.log = s.log ++ added from log,
            List.append_assoc])
        · rcases List.mem_append.mp member with early | late
          · exact mine r early
          · obtain ⟨other, member', same⟩ := own' r late
            rcases round.queue other member' with old | own
            · exact ⟨other, List.mem_of_mem_erase old, same⟩
            · exact ⟨item, queued, own ▸ same⟩

theorem losers_of_settled {txns : TxnTable} {t : Nat}
    (settled : ∀ entry, txns.lookup t = some entry → isLoserState entry.state = false) :
    ∀ item ∈ losers txns, item.txnId ≠ t := by
  intro item member same
  obtain ⟨⟨id, entry⟩, listed, eq⟩ := List.mem_filterMap.mp member
  dsimp only at eq
  split at eq
  · rename_i loser
    cases eq
    have found : txns.lookup t = some entry := AList.mem_lookup_iff.mpr (same ▸ listed)
    simp [settled entry found] at loser
  · cases eq

end GraniteDb.Recovery.RecoveryFacts
