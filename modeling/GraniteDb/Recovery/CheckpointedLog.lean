/- Analysis from a whole checkpoint and from the start of the log find the same losers. -/

import GraniteDb.Recovery.RecoveryRestart

namespace GraniteDb.Recovery.CheckpointedLog

open Common.Types Recovery.WalRecords Recovery.RecordLog Recovery.RecoveryManager
open Recovery.RecoveryFacts Recovery.LogHistory Recovery.UndoPass Recovery.Compensations
open Recovery.RecoveryRestart

variable {β : Type}

/-- The last LSN of an entry, if `Undo` would start from it. -/
def loserLsn (entry : Option TxnTableEntry) : Option Nat :=
  match entry with
  | some entry => if isLoserState entry.state then some entry.lastLsn else none
  | none => none

/-- The transactions that are unfinished at the end of the log, with their last LSNs. -/
def live (log : List (Rec β)) (t : Nat) : Option Nat :=
  loserLsn ((analysis 0 log).txns.lookup t)

/-- `rec` ends the checkpoint whose beginning is the last record before it, and lists the live
transactions. -/
structure Closes (before : List (Rec β)) (rec : Rec β) : Prop where
  begins : ∃ older begin, before = older ++ [begin] ∧ begin.type = .beginCheckpoint ∧
    begin.lsn = rec.prevLsn
  listed : ∀ tx ∈ rec.activeTxns,
    isLoserState tx.state = true ∧ live before tx.txnId = some tx.lastLsn
  all : ∀ t, (live before t).isSome → ∃ tx ∈ rec.activeTxns, tx.txnId = t

/-- What `rec` says of transactions is in keeping with the records before it. -/
structure Follows (before : List (Rec β)) (rec : Rec β) : Prop where
  own : isTxnRecord rec.type = true → rec.type ≠ .begin → (live before rec.txnId).isSome
  ends : rec.type = .endCheckpoint → Closes before rec

/-- Only live transactions are written about, and checkpoints are whole. -/
def Disciplined (log : List (Rec β)) : Prop :=
  ∀ before rec after, log = before ++ rec :: after → Follows before rec

def SameLosers (txns txns' : TxnTable) : Prop :=
  ∀ t, loserLsn (txns.lookup t) = loserLsn (txns'.lookup t)

section Prefixes

theorem disciplined_nil : Disciplined ([] : List (Rec β)) :=
  fun before rec after split => absurd split (by simp)

theorem Disciplined.left {first second : List (Rec β)} (disciplined : Disciplined (first ++ second)) :
    Disciplined first := by
  intro before rec after split
  exact disciplined before rec (after ++ second)
    (by rw [split, List.append_assoc, List.cons_append])

variable {log : List (Rec β)}

theorem Disciplined.take (disciplined : Disciplined log) (n : Nat) : Disciplined (log.take n) := by
  rw [← List.take_append_drop n log] at disciplined
  exact disciplined.left

theorem Disciplined.last {rec : Rec β} (disciplined : Disciplined (log ++ [rec])) :
    Follows log rec :=
  disciplined log rec [] rfl

theorem Disciplined.append (disciplined : Disciplined log) {rec : Rec β} (follows : Follows log rec) :
    Disciplined (RecordLog.append log rec) := by
  intro before r after split
  unfold RecordLog.append at split
  rcases List.eq_nil_or_concat after with rfl | ⟨older, last, rfl⟩
  · obtain ⟨rfl, same⟩ := List.append_inj' split rfl
    rw [← List.singleton_inj.mp same]
    exact ⟨follows.own, fun isEnd => ⟨(follows.ends isEnd).begins, (follows.ends isEnd).listed,
      (follows.ends isEnd).all⟩⟩
  · rw [List.concat_eq_append, ← List.cons_append, ← List.append_assoc] at split
    obtain ⟨same, _⟩ := List.append_inj' split rfl
    exact disciplined before r older same

end Prefixes

section Losers

theorem analysis_append (log : List (Rec β)) (rec : Rec β) :
    analysis 0 (log ++ [rec]) = analysisStep (analysis 0 log) rec :=
  analysis_snoc (Nat.zero_le _)

variable {lsn : Nat} {txns : TxnTable} {rec : Rec β} {entries : List CheckpointTxnEntry}
  {before : List (Rec β)}

theorem loserLsn_observe {tx : CheckpointTxnEntry} (loser : isLoserState tx.state = true)
    (known : loserLsn (txns.lookup tx.txnId) = some lsn) (t : Nat) :
    loserLsn ((observeTxn txns tx).lookup t) =
      if t = tx.txnId then some (max lsn tx.lastLsn) else loserLsn (txns.lookup t) := by
  rw [lookup_observeTxn]
  split
  · cases found : txns.lookup tx.txnId with
    | none =>
      rw [found] at known
      cases known
    | some entry =>
      rw [found] at known
      unfold loserLsn at known
      dsimp only at known
      split at known
      · rename_i running
        have notEnded : isTxnEndState entry.state = false := by
          cases state : entry.state <;> simp_all [isLoserState, isTxnEndState]
        cases known
        simp [loserLsn, entryOf, found, TxnTableEntry.observe, notEnded, loser]
      · cases known
  · rfl

theorem loserLsn_observe_new {tx : CheckpointTxnEntry} (loser : isLoserState tx.state = true)
    (unknown : txns.lookup tx.txnId = none) (t : Nat) :
    loserLsn ((observeTxn txns tx).lookup t) =
      if t = tx.txnId then some tx.lastLsn else loserLsn (txns.lookup t) := by
  rw [lookup_observeTxn]
  split
  · simp [loserLsn, entryOf, unknown, TxnTableEntry.observe, isTxnEndState, loser]
  · rfl

theorem loserLsn_begin (tables : Tables) (type : rec.type = .begin) (t : Nat) :
    loserLsn ((analysisStep tables rec).txns.lookup t) =
      if t = rec.txnId then some rec.lsn else loserLsn (tables.txns.lookup t) := by
  unfold analysisStep
  rw [type]
  by_cases same : t = rec.txnId
  · subst same
    simp [loserLsn, isLoserState]
  · simp [same, AList.lookup_insert_ne]

theorem loserLsn_ended (tables : Tables) (type : rec.type = .commit ∨ rec.type = .abort) (t : Nat) :
    loserLsn ((analysisStep tables rec).txns.lookup t) =
      if t = rec.txnId then none else loserLsn (tables.txns.lookup t) := by
  unfold analysisStep
  by_cases same : t = rec.txnId
  · subst same
    rcases type with type | type <;> rw [type] <;> simp [loserLsn, isLoserState]
  · rcases type with type | type <;> rw [type] <;> simp [same, AList.lookup_insert_ne]

theorem loserLsn_update (tables : Tables) (type : isPageUpdateRecord rec.type = true)
    (known : loserLsn (tables.txns.lookup rec.txnId) = some lsn) (t : Nat) :
    loserLsn ((analysisStep tables rec).txns.lookup t) =
      if t = rec.txnId then some (max lsn rec.lsn) else loserLsn (tables.txns.lookup t) := by
  have observed : (analysisStep tables rec).txns =
      observeTxn tables.txns ⟨rec.txnId, .active, rec.lsn⟩ := by
    unfold analysisStep
    split
    all_goals first
      | rfl
      | simp_all [isPageUpdateRecord, isUndoablePageRecord]
  rw [observed]
  have loser : isLoserState (⟨rec.txnId, .active, rec.lsn⟩ : CheckpointTxnEntry).state = true := rfl
  exact loserLsn_observe loser known t

theorem txns_other (tables : Tables) (own : isTxnRecord rec.type = false)
    (notEnd : rec.type ≠ .endCheckpoint) : (analysisStep tables rec).txns = tables.txns := by
  unfold analysisStep
  split
  all_goals first
    | rfl
    | exact absurd ‹_› notEnd
    | simp_all [isTxnRecord, isPageUpdateRecord, isUndoablePageRecord]

theorem txns_end (tables : Tables) (type : rec.type = .endCheckpoint) :
    (analysisStep tables rec).txns = rec.activeTxns.foldl observeTxn tables.txns := by
  unfold analysisStep
  rw [type]

theorem record_kinds (type : LogRecordType) :
    type = .begin ∨ (type = .commit ∨ type = .abort) ∨ isPageUpdateRecord type = true ∨
      type = .endCheckpoint ∨ isTxnRecord type = false ∧ type ≠ .endCheckpoint := by
  cases type <;> simp [isTxnRecord, isPageUpdateRecord, isUndoablePageRecord]

theorem live_begin (log : List (Rec β)) (t prevLsn u : Nat) :
    live (RecordLog.append log (txnRecord .begin t prevLsn)) u =
      if u = t then some (endLsn log) else live log u := by
  unfold live
  rw [RecordLog.append, analysis_append]
  exact loserLsn_begin _ rfl u

theorem live_ended (log : List (Rec β)) {type : LogRecordType} (t prevLsn u : Nat)
    (ends : type = .commit ∨ type = .abort) :
    live (RecordLog.append log (txnRecord type t prevLsn)) u =
      if u = t then none else live log u := by
  unfold live
  rw [RecordLog.append, analysis_append]
  exact loserLsn_ended _ ends u

theorem live_update {log : List (Rec β)} (isUpdate : isPageUpdateRecord rec.type = true)
    (known : live log rec.txnId = some lsn) (u : Nat) : live (RecordLog.append log rec) u =
      if u = rec.txnId then some (max lsn (endLsn log)) else live log u := by
  unfold live
  rw [RecordLog.append, analysis_append]
  have logged : isPageUpdateRecord { rec with lsn := endLsn log }.type = true := isUpdate
  exact loserLsn_update (analysis 0 log) logged known u

theorem loserLsn_observe_listed
    (listed : ∀ tx ∈ entries, isLoserState tx.state = true ∧ loserLsn (txns.lookup tx.txnId) = some
      tx.lastLsn)
    (t : Nat) :
    loserLsn ((entries.foldl observeTxn txns).lookup t) = loserLsn (txns.lookup t) := by
  induction entries generalizing txns with
  | nil => rfl
  | cons tx rest ih =>
    obtain ⟨loser, known⟩ := listed tx List.mem_cons_self
    have same (u : Nat) : loserLsn ((observeTxn txns tx).lookup u) =
        loserLsn (txns.lookup u) := by
      rw [loserLsn_observe loser known, max_self]
      split
      · rename_i here
        rw [here, known]
      · rfl
    rw [List.foldl_cons, ih fun tx' member => ?_, same]
    obtain ⟨loser', known'⟩ := listed tx' (List.mem_cons_of_mem _ member)
    exact ⟨loser', by rw [same, known']⟩

def Partial (part whole : TxnTable) : Prop :=
  ∀ t, part.lookup t = none ∨
    loserLsn (part.lookup t) = loserLsn (whole.lookup t) ∧ (loserLsn (whole.lookup t)).isSome

theorem Partial.observe {part whole : TxnTable} (isPart : Partial part whole)
    (listed : ∀ tx ∈ entries, isLoserState tx.state = true ∧ loserLsn (whole.lookup tx.txnId) =
      some tx.lastLsn) :
    Partial (entries.foldl observeTxn part) whole ∧
      ∀ t, (part.lookup t ≠ none ∨ ∃ tx ∈ entries, tx.txnId = t) →
        (entries.foldl observeTxn part).lookup t ≠ none := by
  induction entries generalizing part with
  | nil => exact ⟨isPart, fun t known => known.elim id (fun ⟨_, member, _⟩ => by cases member)⟩
  | cons tx rest ih =>
    obtain ⟨loser, known⟩ := listed tx List.mem_cons_self
    have here : loserLsn ((observeTxn part tx).lookup tx.txnId) = some tx.lastLsn := by
      rcases isPart tx.txnId with unknown | ⟨same, _⟩
      · rw [loserLsn_observe_new loser unknown, if_pos rfl]
      · rw [known] at same
        rw [loserLsn_observe loser same, if_pos rfl, max_self]
    have next : Partial (observeTxn part tx) whole := by
      intro t
      by_cases same : t = tx.txnId
      · subst same
        exact .inr ⟨by rw [here, known], by rw [known]; rfl⟩
      · rw [lookup_observeTxn, if_neg same]
        exact isPart t
    obtain ⟨still, complete⟩ := ih next fun tx' member => listed tx' (List.mem_cons_of_mem _ member)
    refine ⟨still, fun t reason => complete t ?_⟩
    by_cases same : t = tx.txnId
    · subst same
      refine .inl fun gone => ?_
      rw [gone] at here
      cases here
    · rcases reason with old | ⟨tx', member, eq⟩
      · refine .inl ?_
        rwa [lookup_observeTxn, if_neg same]
      · rcases List.mem_cons.mp member with rfl | later
        · exact absurd eq.symm same
        · exact .inr ⟨tx', later, eq⟩

theorem sameLosers_closes {ended : Rec β} (closes : Closes before ended) {tables : Tables}
    (txns : tables.txns = ∅) (type : ended.type = .endCheckpoint) :
    SameLosers (analysisStep tables ended).txns (analysisStep (analysis 0 before) ended).txns := by
  intro t
  rw [txns_end tables type, txns_end _ type, txns, loserLsn_observe_listed closes.listed]
  have empty : Partial ∅ (analysis 0 before).txns := fun t => .inl (AList.lookup_empty t)
  obtain ⟨isPart, complete⟩ := empty.observe closes.listed
  rcases isPart t with unknown | ⟨same, _⟩
  · rw [unknown]
    cases known : loserLsn ((analysis 0 before).txns.lookup t) with
    | none => rfl
    | some lsn =>
      have listed := closes.all t (by rw [live, known]; rfl)
      exact absurd unknown (complete t (.inr listed))
  · exact same

theorem SameLosers.step {tables tables' : Tables} (same : SameLosers tables.txns tables'.txns)
    (whole : tables' = analysis 0 before) (follows : Follows before rec) :
    SameLosers (analysisStep tables rec).txns (analysisStep tables' rec).txns := by
  intro t
  rcases record_kinds rec.type with type | type | type | type | ⟨own, notEnd⟩
  · rw [loserLsn_begin tables type, loserLsn_begin tables' type, same t]
  · rw [loserLsn_ended tables type, loserLsn_ended tables' type, same t]
  · have ofTxn : isTxnRecord rec.type = true := by simp [isTxnRecord, type]
    have notBegin : rec.type ≠ .begin := by
      intro begins
      rw [begins] at type
      simp [isPageUpdateRecord, isUndoablePageRecord] at type
    obtain ⟨lsn, known⟩ := Option.isSome_iff_exists.mp (follows.own ofTxn notBegin)
    have known' : loserLsn (tables'.txns.lookup rec.txnId) = some lsn := by rw [whole]; exact known
    rw [loserLsn_update tables type (by rw [same, known']), loserLsn_update tables' type known',
      same t]
  · have listed' : ∀ tx ∈ rec.activeTxns, isLoserState tx.state = true ∧
        loserLsn (tables'.txns.lookup tx.txnId) = some tx.lastLsn := by
      rw [whole]
      exact (follows.ends type).listed
    have listed : ∀ tx ∈ rec.activeTxns, isLoserState tx.state = true ∧
        loserLsn (tables.txns.lookup tx.txnId) = some tx.lastLsn := by
      intro tx member
      rw [same]
      exact listed' tx member
    rw [txns_end tables type, txns_end tables' type, loserLsn_observe_listed listed,
      loserLsn_observe_listed listed', same t]
  · rw [txns_other tables own notEnd, txns_other tables' own notEnd, same t]

theorem scanned_split {after : List (Rec β)} {begin : Rec β}
    (placed : Placed (before ++ begin :: after)) :
    scanned begin.lsn (before ++ begin :: after) = begin :: after := by
  have nonzero : begin.lsn ≠ 0 := by
    have member : begin ∈ before ++ begin :: after := by simp
    have bound := placed.pos member
    have size : LogManager.masterRecordSize = 8 := rfl
    omega
  have earlier : scanned begin.lsn before = [] := by
    refine List.filter_eq_nil_iff.mpr fun r member => ?_
    have at_end := placed before after begin rfl
    have bound := (placed_left placed).lsn_lt_end member
    simp only [bne_iff_ne.mpr nonzero, Bool.true_and, Bool.not_eq_true', decide_eq_false_iff_not,
      not_not]
    omega
  have later : scanned begin.lsn (begin :: after) = begin :: after := by
    refine List.filter_eq_self.mpr fun r member => ?_
    have le : begin.lsn ≤ r.lsn := by
      rcases List.mem_cons.mp member with rfl | inside
      · exact le_rfl
      · obtain ⟨middle, rest, split⟩ := List.append_of_mem inside
        rw [split] at placed
        exact Nat.le_of_lt placed.lsn_lt
    simp [Nat.not_lt.mpr le]
  rw [scanned_append, earlier, later, List.nil_append]

theorem sameLosers_analysis {after : List (Rec β)} {begin ended : Rec β}
    (placed : Placed (before ++ begin :: ended :: after))
    (disciplined : Disciplined (before ++ begin :: ended :: after))
    (begins : begin.type = .beginCheckpoint) (ends : ended.type = .endCheckpoint) :
    SameLosers (analysis begin.lsn (before ++ begin :: ended :: after)).txns
      (analysis 0 (before ++ begin :: ended :: after)).txns := by
  rw [analysis, scanned_split placed]
  induction after using List.reverseRecOn with
  | nil =>
    have whole : before ++ [begin, ended] = (before ++ [begin]) ++ [ended] := by simp
    rw [whole] at disciplined ⊢
    rw [analysis_append]
    have closes := disciplined.last.ends ends
    have nothing : (analysisStep (⟨∅, ∅⟩ : Tables) begin).txns = ∅ :=
      txns_other _ (by rw [begins]; rfl) (by rw [begins]; simp)
    exact sameLosers_closes closes nothing ends
  | append_singleton after rec ih =>
    have whole : before ++ begin :: ended :: (after ++ [rec]) =
        (before ++ begin :: ended :: after) ++ [rec] := by simp
    rw [whole] at placed disciplined ⊢
    have same := ih (placed_left placed) disciplined.left
    rw [analysis_append, ← List.cons_append, ← List.cons_append, List.foldl_append]
    exact same.step rfl disciplined.last

end Losers

section Recover

theorem cursorOf_eq (entry : Option TxnTableEntry) :
    cursorOf entry = (loserLsn entry).bind fun lsn => if lsn ≠ 0 then some ⟨lsn, lsn⟩ else none := by
  cases entry with
  | none => rfl
  | some entry =>
    unfold cursorOf loserLsn
    dsimp only
    by_cases loser : isLoserState entry.state = true
    · simp only [loser, Bool.true_and, bne_iff_ne, if_true, Option.bind_some]
    · simp [loser]

variable {log : List (Rec β)}

theorem compensations_eq {master master' : Nat}
    (same : SameLosers (analysis master log).txns (analysis master' log).txns) :
    compensations master log = compensations master' log := by
  have starts : Pass.start log (analysis master log).txns =
      Pass.start log (analysis master' log).txns := by
    unfold Pass.start
    congr 1
    ext1 t
    rw [cursorOf_eq, cursorOf_eq, same t]
  unfold compensations undoPass
  rw [starts]

theorem recover_eq {master : Nat} {disk : PageId → Page β} (chained : Chained log)
    (losers : SameLosers (analysis master log).txns (analysis 0 log).txns)
    (redone : redo (analysis master log).dirtyPages log disk = redo (analysis 0 log).dirtyPages log
      disk) :
    ∃ fromMaster fromStart, recover master log disk = .done fromMaster ∧
      recover 0 log disk = .done fromStart ∧ fromMaster.pages = fromStart.pages := by
  obtain ⟨fromMaster, done, _, pages⟩ := recover_done master (s := ⟨log, disk⟩) chained
  obtain ⟨fromStart, done', _, pages'⟩ := recover_done 0 (s := ⟨log, disk⟩) chained
  refine ⟨fromMaster, fromStart, done, done', ?_⟩
  rw [pages, pages', compensations_eq losers, redone]

theorem redo_current {dirtyPages : Buffer.BufferPoolManager.DirtyPageTable} {disk : PageId → Page β}
    {p : PageId} (current : ∀ r ∈ log, IsUpdateOf p r → r.lsn ≤ (disk p).lsn) :
    redo dirtyPages log disk p = disk p := by
  rw [redo_eq_redoPage]
  exact redoPage_ahead fun r member update _ => current r member update

end Recover

end GraniteDb.Recovery.CheckpointedLog
