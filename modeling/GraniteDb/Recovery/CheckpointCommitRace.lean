/- Commits interleaved step by step with a checkpoint, and what Analysis makes of them. -/

import GraniteDb.Lib.GuardedRun
import GraniteDb.Recovery.CheckpointManager
import GraniteDb.Recovery.RecoveryFacts

namespace GraniteDb.Recovery.CheckpointCommitRace

open Common.Types Recovery.WalRecords Recovery.RecordLog Recovery.RecoveryManager
open Recovery.RecoveryFacts Recovery.CheckpointManager Lib.GuardedRun

variable {β : Type}

/-- How far `Commit` or `Abort` has come after appending its final record. -/
inductive EndPhase
  | appended
  | lastLsnSet
  | flushed
  | stateSet
  | released
  deriving DecidableEq

inductive Pc
  | starting
  | running
  | ending (final : TransactionState) (lsn : Nat) (phase : EndPhase)
  | erased
  deriving DecidableEq

structure Txn where
  state : TransactionState
  lastLsn : Nat
  pc : Pc
  deriving DecidableEq

/-- The transaction is in `active_txns_`: from the end of `Begin` to the end of `Commit`
or `Abort`. -/
def Txn.listed (txn : Txn) : Bool :=
  match txn.pc with
  | .starting | .erased => false
  | .running | .ending _ _ _ => true

structure State (β : Type) where
  wal : Wal β
  master : Nat
  nextTxnId : Nat
  txns : AList fun _ : Nat => Txn
  checkpoint : CheckpointPc

def State.start (base : List (Rec β)) (master : Nat) : State β where
  wal := .open base
  master := master
  nextTxnId := 1
  txns := ∅
  checkpoint := .idle

/-- `GetTransactionTableSnapshot`. -/
def snapshot (txns : AList fun _ : Nat => Txn) : List CheckpointTxnEntry :=
  txns.entries.filterMap fun entry =>
    if entry.2.listed then some ⟨entry.1, entry.2.state, entry.2.lastLsn⟩ else none

inductive Label (β : Type)
  | begin
  | register (t : Nat)
  | setWaiting (t : Nat) (waiting : Bool)
  | markAborting (t : Nat)
  | logPage (t : Nat) (rec : Rec β)
  | appendEnd (t : Nat) (final : TransactionState)
  | advance (t : Nat)
  | flush (lsn : Nat)
  | checkpoint (pages : List DirtyPageEntry)

def endRecord (final : TransactionState) (t prevLsn : Nat) : Rec β :=
  { LogRecord.blank none (if final = .committed then .commit else .abort) with
    txnId := t, prevLsn := prevLsn }

/-- The steps of `Commit` (and, with other values, of `Abort`) after the append: set the
last LSN, flush, set the state, release the locks, erase the table entry. -/
def advanceTxn (wal : Wal β) (txn : Txn) : Option (Wal β × Txn) :=
  match txn.pc with
  | .ending final lsn .appended =>
    some (wal, { txn with lastLsn := lsn, pc := .ending final lsn .lastLsnSet })
  | .ending final lsn .lastLsnSet =>
    some (wal.flushUpTo lsn, { txn with pc := .ending final lsn .flushed })
  | .ending final lsn .flushed =>
    some (wal, { txn with state := final, pc := .ending final lsn .stateSet })
  | .ending final lsn .stateSet => some (wal, { txn with pc := .ending final lsn .released })
  | .ending _ _ .released => some (wal, { txn with pc := .erased })
  | .starting | .running | .erased => none

/-- A transaction's own thread changes its entry, while it is between operations. -/
def whenRunning (s : State β) (t : Nat) (f : Txn → Option (State β)) : Option (State β) :=
  match s.txns.lookup t with
  | some txn => if txn.pc = .running then f txn else none
  | none => none

def step (s : State β) : Label β → Option (State β)
  | .begin =>
    some { s with
      wal := s.wal.append { LogRecord.blank none .begin with txnId := s.nextTxnId }
      nextTxnId := s.nextTxnId + 1
      txns := s.txns.insert s.nextTxnId ⟨.active, endLsn s.wal.records, .starting⟩ }
  | .register t =>
    match s.txns.lookup t with
    | some txn =>
      if txn.pc = .starting then
        some { s with txns := s.txns.insert t { txn with pc := .running } }
      else none
    | none => none
  | .setWaiting t waiting =>
    whenRunning s t fun txn =>
      if txn.state = .active ∨ txn.state = .waiting then
        some { s with
          txns := s.txns.insert t { txn with state := if waiting then .waiting else .active } }
      else none
  | .markAborting t =>
    whenRunning s t fun txn =>
      some { s with txns := s.txns.insert t { txn with state := .aborting } }
  | .logPage t rec =>
    whenRunning s t fun txn =>
      if isPageUpdateRecord rec.type then
        some { s with
          wal := s.wal.append { rec with txnId := t, prevLsn := txn.lastLsn }
          txns := s.txns.insert t { txn with lastLsn := endLsn s.wal.records } }
      else none
  | .appendEnd t final =>
    whenRunning s t fun txn =>
      if (final = .committed ∧ txn.state ≠ .aborting ∧ txn.state ≠ .aborted) ∨
          (final = .aborted ∧ txn.state = .aborting) then
        some { s with
          wal := s.wal.append (endRecord final t txn.lastLsn)
          txns := s.txns.insert t
            { txn with pc := .ending final (endLsn s.wal.records) .appended } }
      else none
  | .advance t =>
    match s.txns.lookup t with
    | some txn =>
      (advanceTxn s.wal txn).map fun next =>
        { s with wal := next.1, txns := s.txns.insert t next.2 }
    | none => none
  | .flush lsn => some { s with wal := s.wal.flushUpTo lsn }
  | .checkpoint pages =>
    let next := createCheckpoint ⟨s.wal, s.master, s.checkpoint⟩ (snapshot s.txns) pages
    some { s with wal := next.wal, master := next.master, checkpoint := next.pc }

/-- The transaction has logged its `COMMIT` record before the running checkpoint began and
has not yet set its state. -/
def CommitPending (checkpoint : CheckpointPc) (txn : Txn) : Prop :=
  match checkpoint, txn.pc with
  | .begun b, .ending .committed lsn _ => lsn < b ∧ txn.state ≠ .committed
  | _, _ => False

instance (checkpoint : CheckpointPc) (txn : Txn) : Decidable (CommitPending checkpoint txn) := by
  unfold CommitPending
  split <;> infer_instance

def SnapshotAllowed (s : State β) : Label β → Prop
  | .checkpoint _ => ∀ entry ∈ s.txns.entries, ¬CommitPending s.checkpoint entry.2
  | _ => True

instance (s : State β) (a : Label β) : Decidable (SnapshotAllowed s a) := by
  unfold SnapshotAllowed
  split <;> infer_instance

/-- `c` is the `COMMIT` record of a transaction of this process: it lies after the log
`base` the process opened. -/
structure IsCommit (base records : List (Rec β)) (c : Rec β) : Prop where
  member : c ∈ records
  fresh : endLsn base ≤ c.lsn
  commit : c.type = .commit

structure LogSound (base records : List (Rec β)) : Prop where
  placed : Placed records
  quiet : ∀ c, IsCommit base records c → ∀ r ∈ records, c.lsn < r.lsn →
    isTxnRecord r.type = true → r.txnId ≠ c.txnId
  reported : ∀ c, IsCommit base records c → ∀ e ∈ records, e.type = .endCheckpoint →
    endLsn base ≤ e.lsn → c.lsn < e.prevLsn →
    ∀ entry ∈ e.activeTxns, entry.txnId = c.txnId → entry.state = .committed
  pointsBack : ∀ e ∈ records, e.type = .endCheckpoint → endLsn base ≤ e.lsn → e.prevLsn ≤ e.lsn
  sequential : ∀ e ∈ records, e.type = .endCheckpoint → endLsn base ≤ e.lsn →
    ∀ b ∈ records, b.type = .beginCheckpoint → b.lsn < e.lsn → b.lsn ≤ e.prevLsn

private theorem isCommit_append {base records : List (Rec β)} {r c : Rec β}
    (commit : IsCommit base (append records r) c) :
    IsCommit base records c ∨ (c = { r with lsn := endLsn records } ∧ r.type = .commit) := by
  rcases mem_append.mp commit.member with old | new
  · exact .inl ⟨old, commit.fresh, commit.commit⟩
  · exact .inr ⟨new, by simpa [new] using commit.commit⟩

theorem LogSound.append {base records : List (Rec β)} (sound : LogSound base records)
    (r : Rec β)
    (live : isTxnRecord r.type = true → ∀ c, IsCommit base records c → r.txnId ≠ c.txnId)
    (past : r.type = .endCheckpoint → r.prevLsn ≤ endLsn records)
    (reports : r.type = .endCheckpoint → ∀ c, IsCommit base records c → c.lsn < r.prevLsn →
      ∀ entry ∈ r.activeTxns, entry.txnId = c.txnId → entry.state = .committed)
    (latest : r.type = .endCheckpoint → ∀ b ∈ records, b.type = .beginCheckpoint →
      b.lsn ≤ r.prevLsn) :
    LogSound base (append records r) := by
  have beforeEnd {x : Rec β} (member : x ∈ records) : x.lsn < endLsn records :=
    sound.placed.lsn_lt_end member
  constructor
  · exact placed_append sound.placed r
  · intro c commit x member later own
    rcases isCommit_append commit with old | ⟨same, _⟩
    · rcases mem_append.mp member with prior | new
      · exact sound.quiet c old x prior later own
      · rw [new] at own ⊢
        exact live own c old
    · rcases mem_append.mp member with prior | new
      · have bound := beforeEnd prior
        rw [same] at later
        exact absurd later (Nat.not_lt.mpr (Nat.le_of_lt bound))
      · rw [same, new] at later
        exact absurd later (Nat.lt_irrefl _)
  · intro c commit e member isEnd fresh older entry listed same
    rcases isCommit_append commit with old | ⟨new, _⟩
    · rcases mem_append.mp member with prior | rfl
      · exact sound.reported c old e prior isEnd fresh older entry listed same
      · exact reports isEnd c old older entry listed same
    · rw [new] at older
      change endLsn records < e.prevLsn at older
      rcases mem_append.mp member with prior | rfl
      · have bound := beforeEnd prior
        have back := sound.pointsBack e prior isEnd fresh
        omega
      · exact absurd older (Nat.not_lt.mpr (past isEnd))
  · intro e member isEnd fresh
    rcases mem_append.mp member with prior | rfl
    · exact sound.pointsBack e prior isEnd fresh
    · exact past isEnd
  · intro e member isEnd fresh b found isBegin older
    rcases mem_append.mp member with prior | rfl
    · rcases mem_append.mp found with priorB | rfl
      · exact sound.sequential e prior isEnd fresh b priorB isBegin older
      · exact absurd older (Nat.not_lt.mpr (Nat.le_of_lt (beforeEnd prior)))
    · rcases mem_append.mp found with priorB | rfl
      · exact latest isEnd b priorB isBegin
      · exact absurd older (Nat.lt_irrefl _)

section Invariant

/-- The invariant of the guarded runs of a process that opened `base`. -/
structure Inv (base : List (Rec β)) (s : State β) : Prop where
  log : LogSound base s.wal.records
  grown : endLsn base ≤ endLsn s.wal.records
  ids : ∀ t txn, s.txns.lookup t = some txn → t < s.nextTxnId
  finished : ∀ c, IsCommit base s.wal.records c → ∃ txn, s.txns.lookup c.txnId = some txn ∧
    (txn.pc = .erased ∨ ∃ phase, txn.pc = .ending .committed c.lsn phase)
  begins : ∀ b, s.checkpoint.beginLsn = some b →
    (∀ r ∈ s.wal.records, r.type = .beginCheckpoint → r.lsn ≤ b) ∧
      ∃ r ∈ s.wal.records, r.type = .beginCheckpoint ∧ endLsn base ≤ r.lsn ∧ r.lsn = b
  taken : ∀ b, s.checkpoint.beginLsn = some b → ∀ c, IsCommit base s.wal.records c →
    c.lsn < b → ∀ entry ∈ s.checkpoint.takenTxns, entry.txnId = c.txnId → entry.state = .committed
  master : s.master = 0 ∨ s.master < endLsn base ∨
    ∃ r ∈ s.wal.records, r.type = .beginCheckpoint ∧ endLsn base ≤ r.lsn ∧ r.lsn = s.master

variable {base : List (Rec β)} {c : Rec β} {txn txn' : Txn} {t b master : Nat} {s : State β}
  {wal : Wal β}

private theorem Inv.not_committed (inv : Inv base s) (found : s.txns.lookup t = some txn)
    (alive : txn.pc = .starting ∨ txn.pc = .running) (commit : IsCommit base s.wal.records c) :
    t ≠ c.txnId := by
  intro same
  obtain ⟨other, foundOther, finished⟩ := inv.finished c commit
  rw [← same, found] at foundOther
  cases foundOther
  rcases finished with erased | ⟨phase, ending⟩ <;> rcases alive with h | h <;> simp_all

private theorem Inv.unused (inv : Inv base s) (commit : IsCommit base s.wal.records c) :
    s.nextTxnId ≠ c.txnId := by
  obtain ⟨txn, found, _⟩ := inv.finished c commit
  exact Nat.ne_of_gt (inv.ids _ _ found)

private theorem Inv.setTxn (inv : Inv base s) (same : wal.records = s.wal.records)
    (found : s.txns.lookup t = some txn)
    (ends : ∀ lsn, (txn.pc = .erased ∨ ∃ phase, txn.pc = .ending .committed lsn phase) → (txn'.pc =
      .erased ∨ ∃ phase, txn'.pc = .ending .committed lsn phase)) :
    Inv base { s with wal := wal, txns := s.txns.insert t txn' } := by
  obtain ⟨log, grown, ids, finished, begins, taken, master⟩ := inv
  rw [← same] at log grown finished begins taken master
  refine ⟨log, grown, ?_, ?_, begins, taken, master⟩
  · intro u other lookup
    by_cases eq : u = t
    · subst eq
      exact ids u txn found
    · exact ids u other (by rwa [AList.lookup_insert_ne eq] at lookup)
  · intro c commit
    obtain ⟨known, lookup, past⟩ := finished c commit
    by_cases eq : c.txnId = t
    · rw [eq, found] at lookup
      cases lookup
      exact ⟨txn', by rw [eq]; exact AList.lookup_insert _, ends c.lsn past⟩
    · exact ⟨known, by rwa [AList.lookup_insert_ne eq], past⟩

private theorem endLsn_le_append (records : List (Rec β)) (r : Rec β) :
    endLsn records ≤ endLsn (append records r) :=
  Nat.le_of_lt (endLsn_lt_append_cons records [] _)

private theorem begins_append {records : List (Rec β)} {r : Rec β}
    (begins : ∃ r ∈ records, r.type = .beginCheckpoint ∧ endLsn base ≤ r.lsn ∧ r.lsn = b) :
    ∃ x ∈ append records r, x.type = .beginCheckpoint ∧ endLsn base ≤ x.lsn ∧ x.lsn = b := by
  obtain ⟨x, member, rest⟩ := begins
  exact ⟨x, mem_append.mpr (.inl member), rest⟩

section

variable (inv : Inv base s)

include inv

private theorem Inv.logTxn {next : Nat} {r : Rec β}
    (own : isTxnRecord r.type = true) (mine : r.txnId = t)
    (live : ∀ c, IsCommit base s.wal.records c → t ≠ c.txnId) (idBound : t < next)
    (idsGrow : s.nextTxnId ≤ next)
    (ends : r.type = .commit → ∃ phase, txn'.pc = .ending .committed (endLsn s.wal.records) phase) :
    Inv base { s with wal := s.wal.append r, nextTxnId := next, txns := s.txns.insert t txn' } := by
  have notEnd : r.type ≠ .endCheckpoint := by
    intro isEnd
    rw [isEnd] at own
    exact absurd own (by decide)
  have notBegin : r.type ≠ .beginCheckpoint := by
    intro isBegin
    rw [isBegin] at own
    exact absurd own (by decide)
  constructor
  · exact inv.log.append r (fun _ c commit => mine ▸ live c commit) (fun h => absurd h notEnd)
      (fun h => absurd h notEnd) (fun h => absurd h notEnd)
  · exact le_trans inv.grown (endLsn_le_append _ _)
  · intro u other lookup
    by_cases eq : u = t
    · rw [eq]
      exact idBound
    · rw [AList.lookup_insert_ne eq] at lookup
      exact lt_of_lt_of_le (inv.ids u other lookup) idsGrow
  · intro c commit
    rcases isCommit_append commit with old | ⟨new, isCommit⟩
    · obtain ⟨known, lookup, past⟩ := inv.finished c old
      exact ⟨known, by rwa [AList.lookup_insert_ne (live c old).symm], past⟩
    · refine ⟨txn', ?_, .inr ?_⟩
      · rw [new, mine]
        exact AList.lookup_insert _
      · rw [new]
        exact ends isCommit
  · intro b running
    obtain ⟨bound, present⟩ := inv.begins b running
    refine ⟨fun x member isBegin => ?_, begins_append present⟩
    rcases mem_append.mp member with prior | rfl
    · exact bound x prior isBegin
    · exact absurd isBegin notBegin
  · intro b running c commit older
    rcases isCommit_append commit with old | ⟨new, _⟩
    · exact inv.taken b running c old older
    · -- A commit logged now lies after the running checkpoint's start.
      obtain ⟨x, member, _, _, atB⟩ := (inv.begins b running).2
      have bound := inv.log.placed.lsn_lt_end member
      rw [new] at older
      change endLsn s.wal.records < b at older
      omega
  · rcases inv.master with zero | old | present
    · exact .inl zero
    · exact .inr (.inl old)
    · exact .inr (.inr (begins_append present))

private theorem Inv.checkpointBegin :
    Inv base { s with
      wal := s.wal.append beginCheckpointRecord
      checkpoint := .begun (endLsn s.wal.records) } := by
  have commits {c : Rec β}
      (commit : IsCommit base (append s.wal.records beginCheckpointRecord) c) :
      IsCommit base s.wal.records c := by
    rcases isCommit_append commit with old | ⟨_, isCommit⟩
    · exact old
    · exact absurd isCommit (by simp)
  constructor
  · exact inv.log.append _ (fun own => absurd own (by
      simp [isTxnRecord, isPageUpdateRecord, isUndoablePageRecord])) (fun h => absurd h (by simp))
      (fun h => absurd h (by simp))
      (fun h => absurd h (by simp))
  · exact le_trans inv.grown (endLsn_le_append _ _)
  · exact inv.ids
  · exact fun c commit => inv.finished c (commits commit)
  · intro b running
    cases running
    refine ⟨fun x member _ => ?_, ?_⟩
    · rcases mem_append.mp member with prior | rfl
      · exact Nat.le_of_lt (inv.log.placed.lsn_lt_end prior)
      · exact le_rfl
    · exact ⟨_, mem_append.mpr (.inr rfl), rfl, inv.grown, rfl⟩
  · intro b _ c _ _ entry member
    exact absurd member (List.not_mem_nil)
  · rcases inv.master with zero | old | present
    · exact .inl zero
    · exact .inr (.inl old)
    · exact .inr (.inr (begins_append present))

private theorem Inv.checkpointEnd {txns : List CheckpointTxnEntry}
    {pages : List DirtyPageEntry} (at_ : s.checkpoint = .pagesTaken b txns pages) :
    Inv base { s with
      wal := s.wal.append
        (endCheckpointRecord b txns pages)
      checkpoint := .ended b (endLsn s.wal.records) } := by
  have running : s.checkpoint.beginLsn = some b := by rw [at_]; rfl
  obtain ⟨bound, present⟩ := inv.begins b running
  have commits {c : Rec β} (commit : IsCommit base (append s.wal.records
      (endCheckpointRecord b txns pages)) c) :
      IsCommit base s.wal.records c := by
    rcases isCommit_append commit with old | ⟨_, isCommit⟩
    · exact old
    · exact absurd isCommit (by simp)
  constructor
  · refine inv.log.append _ (fun own => absurd own (by
      simp [isTxnRecord, isPageUpdateRecord, isUndoablePageRecord]))
        (fun _ => ?_) (fun _ => ?_) (fun _ => bound)
    · obtain ⟨x, member, _, _, atB⟩ := present
      exact atB ▸ Nat.le_of_lt (inv.log.placed.lsn_lt_end member)
    · intro c commit older entry member
      exact inv.taken b running c commit older entry (by rw [at_]; exact member)
  · exact le_trans inv.grown (endLsn_le_append _ _)
  · exact inv.ids
  · exact fun c commit => inv.finished c (commits commit)
  · intro b' running'
    cases running'
    refine ⟨fun x member isBegin => ?_, begins_append present⟩
    rcases mem_append.mp member with prior | rfl
    · exact bound x prior isBegin
    · exact absurd isBegin (by simp)
  · intro b' _ c _ _ entry member
    exact absurd member (List.not_mem_nil)
  · rcases inv.master with zero | old | present'
    · exact .inl zero
    · exact .inr (.inl old)
    · exact .inr (.inr (begins_append present'))

private theorem Inv.setCheckpoint (same : wal.records = s.wal.records)
    {p : CheckpointPc} (beginLsn : p.beginLsn = s.checkpoint.beginLsn ∨ p.beginLsn = none)
    (taken : ∀ b, s.checkpoint.beginLsn = some b → ∀ c, IsCommit base s.wal.records c → c.lsn < b →
      ∀ entry ∈ p.takenTxns, entry.txnId = c.txnId → entry.state = .committed)
    (fixed : master = s.master ∨ s.checkpoint.beginLsn = some master) :
    Inv base { s with wal := wal, checkpoint := p, master := master } := by
  obtain ⟨log, grown, ids, finished, begins, _, known⟩ := inv
  have running {b : Nat} (h : p.beginLsn = some b) : s.checkpoint.beginLsn = some b := by
    rcases beginLsn with eq | none
    · rw [← eq, h]
    · rw [none] at h
      cases h
  rw [← same] at log grown finished begins taken known
  refine ⟨log, grown, ids, finished, fun b h => begins b (running h),
    fun b h => taken b (running h), ?_⟩
  rcases fixed with eq | atBegin
  · rw [eq]
    exact known
  · exact .inr (.inr (begins master atBegin).2)

private theorem taken_snapshot (at_ : s.checkpoint = .begun b)
    (allowed : ∀ entry ∈ s.txns.entries, ¬CommitPending s.checkpoint entry.2)
    (commit : IsCommit base s.wal.records c) (older : c.lsn < b) {entry : CheckpointTxnEntry}
    (member : entry ∈ snapshot s.txns) (same : entry.txnId = c.txnId) :
    entry.state = .committed := by
  obtain ⟨⟨t, txn⟩, listed, eq⟩ := List.mem_filterMap.mp member
  have found : s.txns.lookup t = some txn := AList.mem_lookup_iff.mpr listed
  by_cases shown : txn.listed = true
  · simp only [shown, if_true, Option.some.injEq] at eq
    subst eq
    obtain ⟨other, foundOther, finished⟩ := inv.finished c commit
    change t = c.txnId at same
    rw [← same, found] at foundOther
    cases foundOther
    rcases finished with erased | ⟨phase, ending⟩
    · exact absurd shown (by simp [Txn.listed, erased])
    · by_contra pending
      refine allowed ⟨t, txn⟩ listed ?_
      simp only [CommitPending, at_, ending]
      exact ⟨older, pending⟩
  · simp [shown] at eq

end

private theorem whenRunning_eq_some {t : State β} {id : Nat} {f : Txn → Option (State β)}
    (taken : whenRunning s id f = some t) :
    ∃ txn, s.txns.lookup id = some txn ∧ txn.pc = .running ∧ f txn = some t := by
  unfold whenRunning at taken
  split at taken
  · rename_i txn found
    split at taken
    · rename_i running
      exact ⟨txn, found, running, taken⟩
    · cases taken
  · cases taken

private theorem advanceTxn_ends {wal' : Wal β} (taken : advanceTxn wal txn = some (wal', txn')) :
    wal'.records = wal.records ∧
      ∀ lsn, (txn.pc = .erased ∨ ∃ phase, txn.pc = .ending .committed lsn phase) →
        (txn'.pc = .erased ∨ ∃ phase, txn'.pc = .ending .committed lsn phase) := by
  unfold advanceTxn at taken
  split at taken
  all_goals cases taken
  all_goals refine ⟨by simp, fun lsn past => ?_⟩
  all_goals simp_all

theorem inv_step {t : State β} {a : Label β} (inv : Inv base s) (allowed : SnapshotAllowed s a)
    (taken : step s a = some t) : Inv base t := by
  cases a with
  | begin =>
    cases taken
    exact inv.logTxn (r := { LogRecord.blank none .begin with txnId := s.nextTxnId }) rfl rfl
      (fun c commit => inv.unused commit) (Nat.lt_succ_self _) (Nat.le_succ _)
      (fun h => absurd h (by simp [LogRecord.blank]))
  | register id =>
    simp only [step] at taken
    split at taken
    · rename_i txn found
      split at taken
      · rename_i starting
        cases taken
        exact inv.setTxn rfl found (by simp [starting])
      · cases taken
    · cases taken
  | setWaiting id waiting =>
    obtain ⟨txn, found, running, rest⟩ := whenRunning_eq_some taken
    split at rest
    · cases rest
      exact inv.setTxn rfl found (by simp [running])
    · cases rest
  | markAborting id =>
    obtain ⟨txn, found, running, rest⟩ := whenRunning_eq_some taken
    cases rest
    exact inv.setTxn rfl found (by simp [running])
  | logPage id rec =>
    obtain ⟨txn, found, running, rest⟩ := whenRunning_eq_some taken
    split at rest
    · rename_i page
      cases rest
      exact inv.logTxn (r := { rec with txnId := id, prevLsn := txn.lastLsn })
        (by simp [isTxnRecord, page]) rfl
        (fun c commit => inv.not_committed found (.inr running) commit)
        (inv.ids id txn found) le_rfl
        (fun h => absurd page (by
          rw [show rec.type = .commit from h]
          decide))
    · cases rest
  | appendEnd id final =>
    obtain ⟨txn, found, running, rest⟩ := whenRunning_eq_some taken
    split at rest
    · rename_i kind
      cases rest
      have live := fun c commit => inv.not_committed (c := c) found (.inr running) commit
      rcases kind with ⟨rfl, _⟩ | ⟨rfl, _⟩
      · exact inv.logTxn (r := endRecord .committed id txn.lastLsn) rfl rfl live
          (inv.ids id txn found) le_rfl (fun _ => ⟨.appended, rfl⟩)
      · exact inv.logTxn (r := endRecord .aborted id txn.lastLsn) rfl rfl live
          (inv.ids id txn found) le_rfl
          (fun h => absurd h (by simp [endRecord, LogRecord.blank]))
    · cases rest
  | advance id =>
    simp only [step] at taken
    split at taken
    · rename_i txn found
      simp only [Option.map_eq_some_iff] at taken
      obtain ⟨⟨wal, txn'⟩, moved, rfl⟩ := taken
      obtain ⟨same, ends⟩ := advanceTxn_ends moved
      exact inv.setTxn same found ends
    · cases taken
  | flush lsn =>
    cases taken
    exact inv.setCheckpoint (by simp) (.inl rfl) inv.taken (.inl rfl)
  | checkpoint pages =>
    cases taken
    cases pc : s.checkpoint with
    | idle => exact inv.checkpointBegin
    | begun b =>
      refine inv.setCheckpoint rfl (.inl (by rw [pc]; rfl)) ?_ (.inl rfl)
      intro b' running c commit older entry member same
      rw [pc] at running
      cases running
      exact taken_snapshot inv pc allowed commit older member same
    | txnsTaken b txns =>
      refine inv.setCheckpoint rfl (.inl (by rw [pc]; rfl)) ?_ (.inl rfl)
      intro b' running c commit older entry member
      exact inv.taken b' running c commit older entry (by rw [pc]; exact member)
    | pagesTaken b txns dirty => exact inv.checkpointEnd pc
    | ended b e =>
      exact inv.setCheckpoint (s.wal.records_flushUpTo e) (.inl (by rw [pc]; rfl))
        (fun _ _ _ _ _ entry member => absurd member List.not_mem_nil) (.inl rfl)
    | flushed b =>
      exact inv.setCheckpoint (p := .idle) s.wal.records_sync (.inr rfl)
        (fun _ _ _ _ _ entry member => absurd member List.not_mem_nil)
        (.inr (by rw [pc]; rfl))

private theorem inv_start (placed : Placed base) (known : master < endLsn base) :
    Inv base (State.start base master) := by
  have noCommit {c : Rec β} (commit : IsCommit base base c) : False :=
    absurd commit.fresh (Nat.not_le.mpr (placed.lsn_lt_end commit.member))
  have noEnd {e : Rec β} (member : e ∈ base) (fresh : endLsn base ≤ e.lsn) : False :=
    absurd fresh (Nat.not_le.mpr (placed.lsn_lt_end member))
  constructor
  · exact ⟨placed, fun c commit => (noCommit commit).elim, fun c commit => (noCommit commit).elim,
      fun e member _ fresh => (noEnd member fresh).elim,
      fun e member _ fresh => (noEnd member fresh).elim⟩
  · exact le_rfl
  · intro t txn found
    exact absurd found (by simp [State.start])
  · exact fun c commit => (noCommit commit).elim
  · intro b running
    cases running
  · intro b running
    cases running
  · exact .inr (.inl known)

theorem inv_run (placed : Placed base) (known : master < endLsn base) {labels : List (Label β)}
    (run : Run step SnapshotAllowed (State.start base master) labels s) : Inv base s :=
  run.invariant (Inv base) (inv_start placed known)
    fun _ _ _ inv allowed taken => inv_step inv allowed taken

end Invariant

theorem settled_analysis {base : List (Rec β)} {s : State β} (inv : Inv base s) (n : Nat)
    {c : Rec β} (commit : IsCommit base (s.wal.records.take n) c) :
    Settled (analysis s.master (s.wal.records.take n)).txns c.txnId := by
  have kept {r : Rec β} (member : r ∈ s.wal.records.take n) : r ∈ s.wal.records :=
    List.mem_of_mem_take member
  have whole : IsCommit base s.wal.records c := ⟨kept commit.member, commit.fresh, commit.commit⟩
  by_cases seen : s.master = 0 ∨ s.master ≤ c.lsn
  · obtain ⟨before, after, split⟩ := List.append_of_mem commit.member
    have placed := placed_take inv.log.placed n
    rw [split] at placed
    have later : ∀ r ∈ scanned s.master after, isTxnRecord r.type = true → r.txnId ≠ c.txnId := by
      intro r member
      have inAfter := (mem_scanned.mp member).1
      obtain ⟨middle, rest, splitAfter⟩ := List.append_of_mem inAfter
      rw [splitAfter] at placed
      exact inv.log.quiet c whole r (kept (by rw [split]; simp [inAfter])) placed.lsn_lt
    have here : scanned s.master (c :: after) = c :: scanned s.master after := by
      have keep : c ∈ scanned s.master [c] := mem_scanned.mpr ⟨List.mem_singleton.mpr rfl, seen⟩
      have single : scanned s.master [c] = [c] := by
        unfold scanned at keep ⊢
        rw [List.filter_eq_self]
        intro x member
        rw [List.mem_singleton.mp member]
        exact (List.mem_filter.mp keep).2
      rw [show c :: after = [c] ++ after from rfl, scanned_append, single]
      rfl
    have start (tables : Tables) : KnownCommitted (analysisStep tables c).txns c.txnId := by
      refine ⟨⟨.committed, c.lsn⟩, ?_, rfl⟩
      simp [analysisStep, commit.commit]
    unfold analysis
    rw [split, scanned_append, here, List.foldl_append, List.foldl_cons]
    exact (knownCommitted_foldl (start _) _ later).settled
  · have nonzero : s.master ≠ 0 := fun zero => seen (.inl zero)
    have beyond : c.lsn < s.master := Nat.not_le.mp fun le => seen (.inr le)
    -- The scan starts at a checkpoint of this process, after the commit.
    obtain ⟨b, foundB, isBegin, freshB, atMaster⟩ : ∃ r ∈ s.wal.records,
        r.type = .beginCheckpoint ∧ endLsn base ≤ r.lsn ∧ r.lsn = s.master := by
      rcases inv.master with zero | old | present
      · exact absurd zero nonzero
      · have := commit.fresh
        omega
      · exact present
    unfold analysis
    refine settled_foldl (fun entry found => absurd found (by simp)) _ ?_ ?_
    · intro r member
      obtain ⟨found, from_⟩ := mem_scanned.mp member
      have bound : c.lsn < r.lsn := by
        rcases from_ with zero | le
        · exact absurd zero nonzero
        · omega
      exact inv.log.quiet c whole r (kept found) bound
    · intro e member isEnd
      obtain ⟨found, from_⟩ := mem_scanned.mp member
      have apart : b ≠ e := by
        intro same
        rw [same, isEnd] at isBegin
        cases isBegin
      have after : b.lsn < e.lsn := by
        rcases from_ with zero | le
        · exact absurd zero nonzero
        · have ne : b.lsn ≠ e.lsn := fun same =>
            apart (inv.log.placed.eq_of_lsn_eq foundB (kept found) same)
          omega
      have fresh : endLsn base ≤ e.lsn := by omega
      have behind := inv.log.sequential e (kept found) isEnd fresh b foundB isBegin after
      exact inv.log.reported c whole e (kept found) isEnd fresh (by omega)

/-- Where no checkpoint reads the transaction table while a commit that it will not scan is pending,
a transaction whose `COMMIT` record survives a crash has no loser's entry after `Analysis`, and
`Undo` logs nothing for it. -/
theorem committed_not_undone {base : List (Rec β)} {master : Nat} (placed : Placed base)
    (known : master < endLsn base) {labels : List (Label β)} {s : State β}
    (run : Run step SnapshotAllowed (State.start base master) labels s) (n : Nat)
    (c : Rec β) (commit : IsCommit base (s.wal.records.take n) c) :
    (∀ entry, (analysis s.master (s.wal.records.take n)).txns.lookup c.txnId = some entry →
      isLoserState entry.state = false) ∧
    ∀ (disk : PageId → Page β), ∃ added,
      (recover s.master (s.wal.records.take n) disk).state.log =
        s.wal.records.take n ++ added ∧ ∀ r ∈ added, r.txnId ≠ c.txnId := by
  have settled := settled_analysis (inv_run placed known run) n commit
  have notLoser : ∀ entry, (analysis s.master (s.wal.records.take n)).txns.lookup c.txnId =
      some entry → isLoserState entry.state = false := by
    intro entry found
    rw [settled entry found]
    rfl
  refine ⟨notLoser, fun disk => ?_⟩
  obtain ⟨added, log, queued⟩ := undoLoop_log (s.wal.records.take n)
    ((losers (analysis s.master (s.wal.records.take n)).txns).length *
      ((s.wal.records.take n).length + 1))
    ⟨s.wal.records.take n, (analysis s.master (s.wal.records.take n)).txns,
      redo (analysis s.master (s.wal.records.take n)).dirtyPages (s.wal.records.take n) disk,
      losers (analysis s.master (s.wal.records.take n)).txns⟩
  refine ⟨added, log, fun r member same => ?_⟩
  obtain ⟨item, listed, mine⟩ := queued r member
  exact losers_of_settled notLoser item listed (mine.trans same)

/-- A run in which the checkpoint begins after the commit has set the state. -/
def settledTrace : List (Label Nat) :=
  [.begin, .register 1,
    .logPage 1 (makePageImageLogRecord none .heapInsert 1 0 ⟨1, 0⟩ (some 0) (some 7)),
    .appendEnd 1 .committed, .advance 1, .advance 1, .advance 1,
    .checkpoint [], .checkpoint [], .checkpoint [], .checkpoint [], .checkpoint [],
    .checkpoint []]

/-- The same transaction, with the checkpoint between its `COMMIT` record and its state. -/
def pendingTrace : List (Label Nat) :=
  [.begin, .register 1,
    .logPage 1 (makePageImageLogRecord none .heapInsert 1 0 ⟨1, 0⟩ (some 0) (some 7)),
    .appendEnd 1 .committed, .advance 1,
    .checkpoint [], .checkpoint [], .checkpoint [], .checkpoint [], .checkpoint [],
    .checkpoint []]

def committedRecord : Rec Nat := { endRecord .committed 1 62 with lsn := 16508 }

theorem committed_not_undone_after_stateSet :
    ∃ s : State Nat, Run step SnapshotAllowed (State.start [] 0) settledTrace s ∧
      IsCommit [] (s.wal.records.take 4) committedRecord ∧
      ∀ entry, (analysis s.master (s.wal.records.take 4)).txns.lookup 1 = some entry →
        isLoserState entry.state = false := by
  have executed : ((exec (fun s a => if SnapshotAllowed s a then step s a else none)
      (State.start ([] : List (Rec Nat)) 0) settledTrace).map fun s =>
        decide (committedRecord ∈ s.wal.records.take 4)) = some true := by
    decide
  obtain ⟨s, ran, member⟩ := Option.map_eq_some_iff.mp executed
  have run := run_of_exec ran
  have commit : IsCommit [] (s.wal.records.take 4) committedRecord :=
    ⟨of_decide_eq_true member, by decide, rfl⟩
  exact ⟨s, run, commit,
    (committed_not_undone placed_nil (by decide) run 4 committedRecord commit).1⟩

/-- The pending commit is durable, and `Analysis` takes its transaction for a loser. -/
theorem committed_loser_at_pending_snapshot :
    ¬∀ (labels : List (Label Nat)) (s : State Nat) (n : Nat) (c : Rec Nat),
      Run step (fun _ _ => True) (State.start [] 0) labels s → s.wal.synced ≤ n →
      IsCommit [] (s.wal.records.take n) c →
      ∀ entry, (analysis s.master (s.wal.records.take n)).txns.lookup c.txnId = some entry →
        isLoserState entry.state = false := by
  intro claim
  have executed : ((exec (fun s a => if True then step s a else none)
      (State.start ([] : List (Rec Nat)) 0) pendingTrace).map fun s =>
        decide (s.wal.synced ≤ 6 ∧ committedRecord ∈ s.wal.records.take 6 ∧
          (analysis s.master (s.wal.records.take 6)).txns.lookup 1 = some ⟨.active, 16508⟩)) =
      some true := by
    decide
  obtain ⟨s, ran, facts⟩ := Option.map_eq_some_iff.mp executed
  obtain ⟨synced, member, entry⟩ := of_decide_eq_true facts
  have verdict := claim pendingTrace s 6 committedRecord (run_of_exec ran) synced
    ⟨member, by decide, rfl⟩ _ entry
  exact absurd verdict (by decide)

end GraniteDb.Recovery.CheckpointCommitRace
