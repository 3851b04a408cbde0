/- Logged page updates step by step against flushes and evictions of their pages. -/

import GraniteDb.Lib.GuardedRun
import GraniteDb.Recovery.RecordLog

namespace GraniteDb.Buffer.WriteAhead

open Common.Types Recovery.WalRecords Recovery.RecordLog Lib.GuardedRun
open Function (update_of_ne update_self)
open Option (bind_eq_bind bind_eq_some_iff)

variable {β : Type}

/-- How far an update of a pinned page has come. `before` is the image taken under the
page's exclusive latch, `lsn` that of the record. -/
inductive Phase (β : Type)
  | pinned
  | changed (before : β)
  | logged (lsn : Nat)
  | stamped (lsn : Nat)
  | unpinned (lsn : Option Nat)
  deriving DecidableEq

def Phase.halfway : Phase β → Bool
  | .changed _ | .logged _ => true
  | _ => false

def Phase.recordLsn : Phase β → Option Nat
  | .pinned | .changed _ => none
  | .logged lsn | .stamped lsn => some lsn
  | .unpinned lsn => lsn

structure Update (β : Type) where
  txnId : Nat
  pageId : PageId
  phase : Phase β
  deriving DecidableEq

structure Version (β : Type) where
  page : Page β
  updates : List Nat
  deriving DecidableEq

structure Frame (β : Type) where
  version : Version β
  isDirty : Bool
  pinCount : Nat
  deriving DecidableEq

/-- A running `FlushFrame`, under the pool's latch: it has read the page's LSN, and may have
flushed the log. An eviction drops the frame afterwards. -/
structure Flush where
  pageId : PageId
  lsn : Nat
  logFlushed : Bool
  evicts : Bool
  deriving DecidableEq

structure State (β : Type) where
  wal : Wal β
  lastLsn : Nat → Nat
  frames : PageId → Option (Frame β)
  disk : PageId → Version β
  updates : Nat → Option (Update β)
  /-- The update that holds a page's exclusive latch. -/
  latches : PageId → Option Nat
  flush : Option Flush

def State.start (base : List (Rec β)) (disk : PageId → Page β) : State β where
  wal := .open base
  lastLsn := fun _ => 0
  frames := fun _ => none
  disk := fun p => ⟨disk p, []⟩
  updates := fun _ => none
  latches := fun _ => none
  flush := none

inductive Label (β : Type)
  /-- Transaction `t` fetches the page `p` for the update `i`. -/
  | fetch (i t : Nat) (p : PageId)
  | change (i : Nat) (body : β)
  | append (i : Nat) (type : LogRecordType)
  | setPageLsn (i : Nat)
  | unpin (i : Nat)
  | logTxn (t : Nat) (type : LogRecordType)
  | flushLog (lsn : Nat)
  /-- `FlushPage`, or the turn of one frame in `FlushAllPages`. -/
  | beginFlush (p : PageId)
  | beginEviction (p : PageId)
  | flushUpTo
  | writePage

def State.setFrame (s : State β) (p : PageId) (frame : Option (Frame β)) : State β :=
  { s with frames := Function.update s.frames p frame }

def State.setPhase (s : State β) (i : Nat) (update : Update β) (phase : Phase β) : State β :=
  { s with updates := Function.update s.updates i (some { update with phase := phase }) }

def State.setLatch (s : State β) (p : PageId) (holder : Option Nat) : State β :=
  { s with latches := Function.update s.latches p holder }

/-- New bytes, by the update `i`. -/
def Frame.change (frame : Frame β) (i : Nat) (body : β) : Frame β :=
  { frame with
    version := ⟨{ frame.version.page with body := body }, frame.version.updates ++ [i]⟩ }

/-- `SetPageLSN`. -/
def Frame.stamp (frame : Frame β) (lsn : Nat) : Frame β :=
  { frame with version := ⟨{ frame.version.page with lsn := lsn }, frame.version.updates⟩ }

/-- `FetchPage`, of a page that has a frame or finds a free one. -/
def fetch (s : State β) (p : PageId) : State β :=
  match s.frames p with
  | some frame => s.setFrame p (some { frame with pinCount := frame.pinCount + 1 })
  | none => s.setFrame p (some ⟨s.disk p, false, 1⟩)

def unpin (s : State β) (p : PageId) (isDirty : Bool) : State β :=
  match s.frames p with
  | some frame =>
    if frame.pinCount = 0 then s
    else s.setFrame p (some
      { frame with pinCount := frame.pinCount - 1, isDirty := frame.isDirty || isDirty })
  | none => s

/-- The record of an update: the images are the page before and after the change. -/
def updateRecord (s : State β) (update : Update β) (type : LogRecordType) (before after : β) :
    Rec β :=
  makePageImageLogRecord none type update.txnId (s.lastLsn update.txnId) update.pageId
    (some before) (some after)

def State.append (s : State β) (t : Nat) (rec : Rec β) : State β :=
  { s with
    wal := s.wal.append rec
    lastLsn := Function.update s.lastLsn t (endLsn s.wal.records) }

def step (s : State β) : Label β → Option (State β)
  | .fetch i t p =>
    match s.flush, s.updates i with
    | none, none =>
      some { fetch s p with updates := Function.update s.updates i (some ⟨t, p, .pinned⟩) }
    | _, _ => none
  | .change i body => do
    let update ← s.updates i
    let frame ← s.frames update.pageId
    match update.phase, s.latches update.pageId with
    | .pinned, none =>
      some (((s.setLatch update.pageId (some i)).setFrame update.pageId
        (some (frame.change i body))).setPhase i update (.changed frame.version.page.body))
    | _, _ => none
  | .append i type => do
    let update ← s.updates i
    let frame ← s.frames update.pageId
    match update.phase with
    | .changed before =>
      if isUndoablePageRecord type then
        some ((s.append update.txnId (updateRecord s update type before
          frame.version.page.body)).setPhase i update (.logged (endLsn s.wal.records)))
      else none
    | _ => none
  | .setPageLsn i => do
    let update ← s.updates i
    let frame ← s.frames update.pageId
    match update.phase with
    | .logged lsn =>
      some (((s.setLatch update.pageId none).setFrame update.pageId
        (some (frame.stamp lsn))).setPhase i update (.stamped lsn))
    | _ => none
  | .unpin i => do
    let update ← s.updates i
    match s.flush, update.phase with
    | none, .stamped lsn =>
      some ((unpin s update.pageId true).setPhase i update (.unpinned (some lsn)))
    | none, .pinned => some ((unpin s update.pageId false).setPhase i update (.unpinned none))
    | _, _ => none
  | .logTxn t type =>
    if type = .begin ∨ type = .commit ∨ type = .abort then
      some (s.append t { LogRecord.blank none type with txnId := t, prevLsn := s.lastLsn t })
    else none
  | .flushLog lsn => some { s with wal := s.wal.flushUpTo lsn }
  | .beginFlush p =>
    match s.flush, s.frames p with
    | none, some frame =>
      if frame.isDirty then some { s with flush := some ⟨p, frame.version.page.lsn, false, false⟩ }
      else some s
    | _, _ => none
  | .beginEviction p =>
    match s.flush, s.frames p with
    | none, some frame =>
      -- The replacer passes over pinned frames.
      if frame.pinCount ≠ 0 then none
      else if frame.isDirty then
        some { s with flush := some ⟨p, frame.version.page.lsn, false, true⟩ }
      else some (s.setFrame p none)
    | _, _ => none
  | .flushUpTo =>
    match s.flush with
    | some ⟨p, lsn, false, evicts⟩ =>
      some { s with wal := s.wal.flushUpTo lsn, flush := some ⟨p, lsn, true, evicts⟩ }
    | _ => none
  | .writePage =>
    match s.flush with
    | some ⟨p, _, true, evicts⟩ =>
      match s.frames p with
      | some frame =>
        some { s.setFrame p (if evicts then none else some { frame with isDirty := false }) with
          disk := Function.update s.disk p frame.version, flush := none }
      | none => none
    | _ => none

structure IsRecordOf (update : Update β) (r : Rec β) : Prop where
  lsn : update.phase.recordLsn = some r.lsn
  txn : r.txnId = update.txnId
  hasPage : r.hasPage = true
  page : r.pageId = update.pageId

def Durable (wal : Wal β) (update : Update β) : Prop :=
  ∃ r ∈ wal.records.take wal.synced, IsRecordOf update r

def LogFirst (s : State β) : Prop :=
  ∀ p, ∀ i ∈ (s.disk p).updates, ∃ update, s.updates i = some update ∧ Durable s.wal update

/-- No page is flushed while an update of it is between its change and `SetPageLSN`, none is changed
while it is being flushed, and `FlushFrame` meets no unsynced flush mark. -/
def FlushesApart (s : State β) : Label β → Prop
  | .change i _ =>
    ∀ update flush, s.updates i = some update → s.flush = some flush →
      flush.pageId ≠ update.pageId
  | .beginFlush p => s.latches p = none
  | .beginEviction p => s.latches p = none
  | .flushUpTo => ∀ flush, s.flush = some flush → ¬MarkedUnsynced s.wal flush.lsn
  | _ => True

instance (s : State β) (label : Label β) : Decidable (FlushesApart s label) :=
  match label with
  | .change i _ =>
    match found : s.updates i, running : s.flush with
    | some update, some flush =>
      if apart : flush.pageId ≠ update.pageId then
        isTrue fun u f hu hf => by
          rw [found] at hu
          rw [running] at hf
          cases hu
          cases hf
          exact apart
      else isFalse fun all => apart (all update flush found running)
    | none, _ => isTrue fun u f hu _ => by rw [found] at hu; cases hu
    | _, none => isTrue fun u f _ hf => by rw [running] at hf; cases hf
  | .beginFlush p | .beginEviction p => inferInstanceAs (Decidable (s.latches p = none))
  | .flushUpTo =>
    match running : s.flush with
    | some flush =>
      if unmarked : ¬MarkedUnsynced s.wal flush.lsn then
        isTrue fun f hf => by
          rw [running] at hf
          cases hf
          exact unmarked
      else isFalse fun all => unmarked (all flush running)
    | none => isTrue fun f hf => by rw [running] at hf; cases hf
  | .fetch _ _ _ | .append _ _ | .setPageLsn _ | .unpin _ | .logTxn _ _ | .flushLog _
  | .writePage => isTrue trivial

section Invariant

variable {s s' : State β} {p : PageId} {i : Nat}

/-- The update `i` is on page `p` and logged no later than the record at `top`, which the page
carries. -/
structure Settled (s : State β) (p : PageId) (top i : Nat) (update : Update β) (lsn : Nat) :
    Prop where
  known : s.updates i = some update
  page : update.pageId = p
  whole : update.phase.halfway = false
  logged : update.phase.recordLsn = some lsn
  below : lsn ≤ top
  carried : ∃ r ∈ s.wal.records, r.lsn = top

/-- The updates in a version of `p` are settled, but for the one that holds the latch. -/
def VersionSound (s : State β) (p : PageId) (version : Version β) : Prop :=
  ∀ i ∈ version.updates, s.latches p = some i ∨
    ∃ update lsn, Settled s p version.page.lsn i update lsn

def VersionDurable (s : State β) (p : PageId) (version : Version β) : Prop :=
  ∀ i ∈ version.updates, ∃ update lsn,
    Settled s p version.page.lsn i update lsn ∧ Durable s.wal update

structure Sound (s : State β) : Prop where
  wal : WalSound s.wal
  latched : ∀ i update, s.updates i = some update →
    (update.phase.halfway = true ↔ s.latches update.pageId = some i)
  holder : ∀ p i, s.latches p = some i → ∃ update, s.updates i = some update ∧ update.pageId = p
  logged : ∀ i update lsn, s.updates i = some update → update.phase.recordLsn = some lsn →
    ∃ r ∈ s.wal.records, IsRecordOf update r
  newest : ∀ i update lsn, s.updates i = some update → update.phase = .logged lsn →
    ∀ j other l, s.updates j = some other → other.pageId = update.pageId →
      other.phase.halfway = false → other.phase.recordLsn = some l → l < lsn
  frames : ∀ p frame, s.frames p = some frame → VersionSound s p frame.version
  disk : ∀ p, VersionDurable s p (s.disk p)
  flush : ∀ flush, s.flush = some flush → s.latches flush.pageId = none ∧
    ∃ frame, s.frames flush.pageId = some frame ∧ frame.version.page.lsn = flush.lsn ∧
      (flush.logFlushed = true → VersionDurable s flush.pageId frame.version)

/-- Settled updates stay, and so do records, in the log and in its synced part. -/
structure Evolves (s s' : State β) : Prop where
  updates : ∀ i update lsn, s.updates i = some update → update.phase.halfway = false →
    update.phase.recordLsn = some lsn → ∃ update', s'.updates i = some update' ∧
      update'.pageId = update.pageId ∧ update'.txnId = update.txnId ∧
      update'.phase.halfway = false ∧ update'.phase.recordLsn = some lsn
  records : ∀ r ∈ s.wal.records, r ∈ s'.wal.records
  synced : ∀ r ∈ s.wal.records.take s.wal.synced, r ∈ s'.wal.records.take s'.wal.synced

theorem evolves_same (updates : s'.updates = s.updates) (wal : s'.wal = s.wal) : Evolves s s' :=
  ⟨fun i update lsn known whole logged =>
      ⟨update, by rw [updates]; exact known, rfl, rfl, whole, logged⟩,
    fun r member => by rw [wal]; exact member, fun r member => by rw [wal]; exact member⟩

variable {update : Update β} {lsn : Nat} {version : Version β} {phase : Phase β} {frame : Frame β}

theorem Settled.evolve {top : Nat} (settled : Settled s p top i update lsn)
    (evolves : Evolves s s') :
    ∃ update', Settled s' p top i update' lsn ∧ update'.txnId = update.txnId := by
  obtain ⟨update', known, page, txn, whole, logged⟩ :=
    evolves.updates i update lsn settled.known settled.whole settled.logged
  obtain ⟨r, member, at_⟩ := settled.carried
  exact ⟨update', ⟨known, page.trans settled.page, whole, logged, settled.below,
    r, evolves.records r member, at_⟩, txn⟩

theorem VersionSound.evolve (sound : VersionSound s p version) (evolves : Evolves s s')
    (latches : s'.latches p = s.latches p) :
    VersionSound s' p version := by
  intro i member
  rcases sound i member with held | ⟨update, lsn, settled⟩
  · exact .inl (latches.trans held)
  · obtain ⟨update', settled', _⟩ := settled.evolve evolves
    exact .inr ⟨update', lsn, settled'⟩

theorem VersionDurable.evolve (durable : VersionDurable s p version) (evolves : Evolves s s') :
    VersionDurable s' p version := by
  intro i member
  obtain ⟨update, lsn, settled, r, inSynced, recordOf⟩ := durable i member
  obtain ⟨update', settled', txn⟩ := settled.evolve evolves
  have same : r.lsn = lsn := Option.some.inj (recordOf.lsn.symm.trans settled.logged)
  exact ⟨update', lsn, settled', r, evolves.synced r inSynced,
    settled'.logged.trans (congrArg some same.symm), recordOf.txn.trans txn.symm,
    recordOf.hasPage, (recordOf.page.trans settled.page).trans settled'.page.symm⟩

theorem VersionDurable.sound (durable : VersionDurable s p version) : VersionSound s p version := by
  intro i member
  obtain ⟨update, lsn, settled, _⟩ := durable i member
  exact .inr ⟨update, lsn, settled⟩

/-- What stays of the pages where a step leaves pages, latches and the flush as they are. -/
theorem Sound.pages (sound : Sound s) (evolves : Evolves s s') (frames : s'.frames = s.frames)
    (disk : s'.disk = s.disk) (latches : s'.latches = s.latches) (same : s'.flush = s.flush) :
    (∀ p frame, s'.frames p = some frame → VersionSound s' p frame.version) ∧
    (∀ p, VersionDurable s' p (s'.disk p)) ∧
    ∀ flush, s'.flush = some flush → s'.latches flush.pageId = none ∧
      ∃ frame, s'.frames flush.pageId = some frame ∧ frame.version.page.lsn = flush.lsn ∧
        (flush.logFlushed = true → VersionDurable s' flush.pageId frame.version) := by
  rw [frames, disk, latches, same]
  refine ⟨fun p frame at_ => ?_, fun p => (sound.disk p).evolve evolves, fun flush running => ?_⟩
  · exact (sound.frames p frame at_).evolve evolves (congrFun latches p)
  · obtain ⟨free, frame, at_, lsn, flushed⟩ := sound.flush flush running
    exact ⟨free, frame, at_, lsn, fun done => (flushed done).evolve evolves⟩

theorem Sound.setWal (sound : Sound s) {wal : Wal β} (walSound : WalSound wal)
    (records : ∀ r ∈ s.wal.records, r ∈ wal.records)
    (synced : ∀ r ∈ s.wal.records.take s.wal.synced, r ∈ wal.records.take wal.synced)
    (lastLsn : Nat → Nat) : Sound { s with wal := wal, lastLsn := lastLsn } := by
  have evolves : Evolves s { s with wal := wal, lastLsn := lastLsn } :=
    ⟨fun i update lsn known whole logged => ⟨update, known, rfl, rfl, whole, logged⟩,
      records, synced⟩
  obtain ⟨frames, disk, flush⟩ := sound.pages evolves rfl rfl rfl rfl
  refine ⟨walSound, sound.latched, sound.holder, ?_, sound.newest, frames, disk, flush⟩
  intro i update lsn known logged
  obtain ⟨r, member, recordOf⟩ := sound.logged i update lsn known logged
  exact ⟨r, records r member, recordOf⟩

theorem Sound.append (sound : Sound s) (t : Nat) (rec : Rec β) : Sound (s.append t rec) :=
  sound.setWal (sound.wal.append rec) (fun _ member => mem_append.mpr (.inl member))
    (fun _ member => sound.wal.mem_append member rec) _

theorem Sound.flushLog (sound : Sound s) (lsn : Nat) :
    Sound { s with wal := s.wal.flushUpTo lsn } :=
  sound.setWal (sound.wal.flushUpTo lsn)
    (fun r member => by rw [Wal.records_flushUpTo]; exact member)
    (fun _ member => Wal.mem_flushUpTo member lsn) s.lastLsn

theorem Sound.versionDurable (sound : Sound s) (versionSound : VersionSound s p version)
    (free : s.latches p = none) (unmarked : ¬MarkedUnsynced s.wal version.page.lsn) :
    VersionDurable { s with wal := s.wal.flushUpTo version.page.lsn } p version := by
  intro i member
  rcases versionSound i member with held | ⟨update, lsn, settled⟩
  · rw [free] at held
    cases held
  · obtain ⟨top, topMember, topAt⟩ := settled.carried
    obtain ⟨r, inLog, recordOf⟩ := sound.logged i update lsn settled.known settled.logged
    have at_ : r.lsn = lsn := Option.some.inj (recordOf.lsn.symm.trans settled.logged)
    have topDurable := sound.wal.durable topMember (topAt ▸ unmarked)
    rw [topAt] at topDurable
    have walSound := sound.wal.flushUpTo version.page.lsn
    have inFlushed : r ∈ (s.wal.flushUpTo version.page.lsn).records := by
      rw [Wal.records_flushUpTo]
      exact inLog
    have inSynced : r ∈ (s.wal.flushUpTo version.page.lsn).records.take
        (s.wal.flushUpTo version.page.lsn).synced := by
      rcases Nat.lt_or_eq_of_le settled.below with lt | same
      · exact walSound.placed.mem_take_of_lt topDurable inFlushed (by omega)
      · have equal := sound.wal.placed.eq_of_lsn_eq inLog topMember (by omega)
        rw [equal]
        exact topDurable
    refine ⟨update, lsn, ⟨settled.known, settled.page, settled.whole, settled.logged,
      settled.below, top, ?_, topAt⟩, r, inSynced, recordOf⟩
    rw [Wal.records_flushUpTo]
    exact topMember

theorem Sound.start {base : List (Rec β)} (placed : Placed base) (disk : PageId → Page β) :
    Sound (State.start base disk) where
  wal := walSound_open placed
  latched := fun _ _ known => by cases known
  holder := fun _ _ held => by cases held
  logged := fun _ _ _ known => by cases known
  newest := fun _ _ _ known => by cases known
  frames := fun _ _ at_ => by cases at_
  disk := fun _ _ member => by cases member
  flush := fun _ running => by cases running

theorem setPhase_self (s : State β) (i : Nat) (update : Update β) (phase : Phase β) :
    (s.setPhase i update phase).updates i = some { update with phase := phase } :=
  update_self _ _ _

theorem setPhase_other {j : Nat} (different : j ≠ i) (phase : Phase β) :
    (s.setPhase i update phase).updates j = s.updates j :=
  update_of_ne different _ _

theorem setPhase_cases {j : Nat} {other : Update β}
    (known : (s.setPhase i update phase).updates j = some other) :
    (j = i ∧ other = { update with phase := phase }) ∨ (j ≠ i ∧ s.updates j = some other) := by
  by_cases same : j = i
  · subst same
    rw [setPhase_self] at known
    exact .inl ⟨rfl, (Option.some.inj known).symm⟩
  · rw [setPhase_other same] at known
    exact .inr ⟨same, known⟩

theorem Sound.holder_setPhase (sound : Sound s) (known : s.updates i = some update) {q : PageId}
    {j : Nat} (held : s.latches q = some j) :
    ∃ other, (s.setPhase i update phase).updates j = some other ∧ other.pageId = q := by
  obtain ⟨other, knownJ, atQ⟩ := sound.holder q j held
  by_cases same : j = i
  · subst same
    rw [known] at knownJ
    cases knownJ
    exact ⟨_, setPhase_self _ _ _ _, atQ⟩
  · exact ⟨other, (setPhase_other same _).trans knownJ, atQ⟩

theorem evolves_setPhase (known : s.updates i = some update)
    (unsettled : update.phase.halfway = true ∨ update.phase.recordLsn = none)
    (updates : s'.updates = (s.setPhase i update phase).updates) (wal : s'.wal = s.wal) :
    Evolves s s' := by
  refine ⟨?_, fun r member => by rw [wal]; exact member, fun r member => by rw [wal]; exact member⟩
  intro j other lsn knownJ whole logged
  have apart : j ≠ i := by
    rintro rfl
    rw [known] at knownJ
    cases knownJ
    rcases unsettled with half | none_
    · rw [whole] at half
      cases half
    · rw [none_] at logged
      cases logged
  refine ⟨other, ?_, rfl, rfl, whole, logged⟩
  rw [updates]
  simpa [State.setPhase, apart] using knownJ

section

variable (sound : Sound s)

include sound

theorem Sound.advance {latch : Option Nat} {new : Frame β} (known : s.updates i = some update)
    (after : s' = ((s.setLatch update.pageId latch).setFrame update.pageId
      (some new)).setPhase i update phase)
    (unsettled : update.phase.halfway = true ∨ update.phase.recordLsn = none)
    (owned : ∀ j, s.latches update.pageId = some j → j = i) (owner : ∀ j, latch = some j → j = i)
    (latched : phase.halfway = true ↔ latch = some i) (notLogged : ∀ l, phase ≠ .logged l)
    (logged : ∀ l, phase.recordLsn = some l →
      ∃ r ∈ s.wal.records, IsRecordOf { update with phase := phase } r)
    (apart : ∀ flush, s.flush = some flush → flush.pageId ≠ update.pageId)
    (version : Evolves s s' → VersionSound s' update.pageId new.version) : Sound s' := by
  have evolves : Evolves s s' :=
    evolves_setPhase known unsettled (by rw [after]; rfl) (by rw [after]; rfl)
  have versionSound := version evolves
  subst after
  have elsewhere {q : PageId} (other : q ≠ update.pageId) :
      Function.update s.latches update.pageId latch q = s.latches q :=
    update_of_ne other _ _
  refine ⟨sound.wal, ?_, ?_, ?_, ?_, ?_, ?_, ?_⟩
  · intro j other knownJ
    rcases setPhase_cases knownJ with ⟨rfl, rfl⟩ | ⟨different, old⟩
    · simpa [State.setPhase, State.setFrame, State.setLatch] using latched
    · have latchedJ := sound.latched j other old
      by_cases same : other.pageId = update.pageId
      · have before : s.latches update.pageId ≠ some j := fun held => different (owned j held)
        have after : latch ≠ some j := fun held => different (owner j held)
        rw [same] at latchedJ
        simpa [State.setPhase, State.setFrame, State.setLatch, same, after, before] using latchedJ
      · simpa [State.setPhase, State.setFrame, State.setLatch, elsewhere same] using latchedJ
  · intro q j held
    by_cases same : q = update.pageId
    · subst same
      obtain rfl := owner j (by simpa [State.setPhase, State.setFrame, State.setLatch] using held)
      exact ⟨_, setPhase_self _ _ _ _, rfl⟩
    · have old : s.latches q = some j := (elsewhere same).symm.trans held
      obtain ⟨other, knownJ, page⟩ := sound.holder q j old
      have different : j ≠ i := by
        rintro rfl
        rw [known] at knownJ
        cases knownJ
        exact same page.symm
      exact ⟨other, (setPhase_other different _).trans knownJ, page⟩
  · intro j other l knownJ loggedJ
    rcases setPhase_cases knownJ with ⟨_, rfl⟩ | ⟨_, old⟩
    · exact logged l loggedJ
    · exact sound.logged j other l old loggedJ
  · intro j other l knownJ loggedJ k third l' knownK page whole recorded
    rcases setPhase_cases knownJ with ⟨_, rfl⟩ | ⟨different, oldJ⟩
    · exact absurd loggedJ (notLogged l)
    · rcases setPhase_cases knownK with ⟨_, rfl⟩ | ⟨_, oldK⟩
      · have held := (sound.latched j other oldJ).mp (by rw [loggedJ]; rfl)
        rw [← page] at held
        exact absurd (owned j held) different
      · exact sound.newest j other l oldJ loggedJ k third l' oldK page whole recorded
  · intro q frame' atQ
    by_cases same : q = update.pageId
    · subst same
      obtain rfl : frame' = new := by
        simpa [State.setPhase, State.setFrame, eq_comm] using atQ
      exact versionSound
    · have old : s.frames q = some frame' := by
        simpa [State.setPhase, State.setFrame, State.setLatch, same] using atQ
      exact (sound.frames q frame' old).evolve evolves (elsewhere same)
  · intro q
    exact (sound.disk q).evolve evolves
  · intro flush running
    obtain ⟨free, frame', atF, l, flushed⟩ := sound.flush flush running
    have different := apart flush running
    refine ⟨(elsewhere different).trans free, frame', ?_, l,
      fun done => (flushed done).evolve evolves⟩
    simpa [State.setPhase, State.setFrame, State.setLatch, different] using atF

theorem Sound.change (known : s.updates i = some update)
    (at_ : s.frames update.pageId = some frame) (pinned : update.phase = .pinned)
    (free : s.latches update.pageId = none)
    (apart : ∀ flush, s.flush = some flush → flush.pageId ≠ update.pageId) (body before : β) :
    Sound (((s.setLatch update.pageId (some i)).setFrame update.pageId
      (some (frame.change i body))).setPhase i update (.changed before)) := by
  have unsettled : update.phase.halfway = true ∨ update.phase.recordLsn = none :=
    .inr (by rw [pinned]; rfl)
  refine sound.advance known rfl unsettled (fun j held => ?_)
    (fun j held => (Option.some.inj held).symm) (iff_of_true rfl rfl) nofun nofun apart ?_
  · rw [free] at held
    cases held
  · intro evolves j member
    rcases List.mem_append.mp member with old | new
    · rcases sound.frames _ frame at_ j old with held | ⟨other, lsn, settled⟩
      · rw [free] at held
        cases held
      · obtain ⟨other', settled', _⟩ := settled.evolve evolves
        exact .inr ⟨other', lsn, settled'⟩
    · rw [List.mem_singleton.mp new]
      refine .inl ?_
      simp [State.setPhase, State.setFrame, State.setLatch]

theorem Sound.log {before : β} {rec : Rec β} (known : s.updates i = some update)
    (phase : update.phase = .changed before) (txn : rec.txnId = update.txnId)
    (hasPage : rec.hasPage = true) (page : rec.pageId = update.pageId) :
    Sound ((s.append update.txnId rec).setPhase i update (.logged (endLsn s.wal.records))) := by
  have appended := sound.append update.txnId rec
  have evolves : Evolves (s.append update.txnId rec)
      ((s.append update.txnId rec).setPhase i update (.logged (endLsn s.wal.records))) :=
    evolves_setPhase known (.inr (by rw [phase]; rfl)) rfl rfl
  obtain ⟨frames, disk, flush⟩ := appended.pages evolves rfl rfl rfl rfl
  refine ⟨appended.wal, ?_, fun _ _ held => sound.holder_setPhase known held, ?_, ?_, frames, disk,
    flush⟩
  · intro j other knownJ
    rcases setPhase_cases knownJ with ⟨rfl, rfl⟩ | ⟨_, old⟩
    · have latched := sound.latched j update known
      rw [phase] at latched
      exact latched
    · exact sound.latched j other old
  · intro j other lsn knownJ logged
    rcases setPhase_cases knownJ with ⟨_, rfl⟩ | ⟨_, old⟩
    · exact ⟨_, mem_append.mpr (.inr rfl), rfl, txn, hasPage, page⟩
    · exact appended.logged j other lsn old logged
  · intro j other lsn knownJ logged k third l knownK samePage whole recorded
    have oldK : s.updates k = some third := by
      rcases setPhase_cases knownK with ⟨_, rfl⟩ | ⟨_, old⟩
      · cases whole
      · exact old
    rcases setPhase_cases knownJ with ⟨_, rfl⟩ | ⟨_, oldJ⟩
    · cases logged
      obtain ⟨r, member, recordOf⟩ := sound.logged k third l oldK recorded
      have same : r.lsn = l := Option.some.inj (recordOf.lsn.symm.trans recorded)
      rw [← same]
      exact sound.wal.placed.lsn_lt_end member
    · exact sound.newest j other lsn oldJ logged k third l oldK samePage whole recorded

theorem Sound.stamp (known : s.updates i = some update)
    (at_ : s.frames update.pageId = some frame) (phase : update.phase = .logged lsn) :
    Sound (((s.setLatch update.pageId none).setFrame update.pageId
      (some (frame.stamp lsn))).setPhase i update (.stamped lsn)) := by
  have unsettled : update.phase.halfway = true ∨ update.phase.recordLsn = none :=
    .inl (by rw [phase]; rfl)
  have held : s.latches update.pageId = some i :=
    (sound.latched i update known).mp (by rw [phase]; rfl)
  have owned {j : Nat} (heldJ : s.latches update.pageId = some j) : j = i :=
    Option.some.inj (heldJ.symm.trans held)
  obtain ⟨r, member, recordOf⟩ := sound.logged i update lsn known (by rw [phase]; rfl)
  have recordAt : r.lsn = lsn := by
    have logged := recordOf.lsn
    rw [phase] at logged
    exact (Option.some.inj logged).symm
  have carried : ∃ r ∈ s.wal.records, r.lsn = lsn := ⟨r, member, recordAt⟩
  refine sound.advance known rfl unsettled (fun _ => owned) nofun (by simp [Phase.halfway]) nofun
    (fun _ _ => ?_) (fun flush running same => ?_) ?_
  · exact ⟨r, member, congrArg some recordAt.symm, recordOf.txn, recordOf.hasPage, recordOf.page⟩
  · have free := (sound.flush flush running).1
    rw [same, held] at free
    cases free
  · intro evolves j memberJ
    rcases sound.frames _ frame at_ j memberJ with heldJ | ⟨other, l, settled⟩
    · obtain rfl := owned heldJ
      exact .inr ⟨{ update with phase := .stamped lsn }, lsn,
        ⟨setPhase_self _ _ _ _, rfl, rfl, rfl, le_rfl, carried⟩⟩
    · have lt := sound.newest i update lsn known phase j other l settled.known settled.page
        settled.whole settled.logged
      have raised : Settled s update.pageId lsn j other l :=
        ⟨settled.known, settled.page, settled.whole, settled.logged, lt.le, carried⟩
      obtain ⟨other', settled', _⟩ := raised.evolve evolves
      exact .inr ⟨other', l, settled'⟩

theorem Sound.setFrames (quiet : s.flush = none)
    {frames : PageId → Option (Frame β)}
    (versions : ∀ p frame, frames p = some frame → VersionSound s p frame.version) :
    Sound { s with frames := frames } where
  wal := sound.wal
  latched := sound.latched
  holder := sound.holder
  logged := sound.logged
  newest := sound.newest
  frames := fun p frame at_ => (versions p frame at_).evolve (evolves_same rfl rfl) rfl
  disk := fun p => (sound.disk p).evolve (evolves_same rfl rfl)
  flush := fun flush running => by
    rw [show s.flush = some flush from running] at quiet
    cases quiet

theorem Sound.settle (known : s.updates i = some update)
    (whole : update.phase.halfway = false) (still : phase.halfway = false)
    (recordLsn : phase.recordLsn = update.phase.recordLsn) :
    Sound (s.setPhase i update phase) := by
  have evolves : Evolves s (s.setPhase i update phase) := by
    refine ⟨?_, fun _ member => member, fun _ member => member⟩
    intro j other lsn knownJ wholeJ logged
    by_cases same : j = i
    · subst same
      rw [known] at knownJ
      cases knownJ
      exact ⟨_, setPhase_self _ _ _ _, rfl, rfl, still, recordLsn.trans logged⟩
    · exact ⟨other, (setPhase_other same _).trans knownJ, rfl, rfl, wholeJ, logged⟩
  obtain ⟨frames, disk, flush⟩ := sound.pages evolves rfl rfl rfl rfl
  refine ⟨sound.wal, ?_, fun _ _ held => sound.holder_setPhase known held, ?_, ?_, frames, disk,
    flush⟩
  · intro j other knownJ
    rcases setPhase_cases knownJ with ⟨rfl, rfl⟩ | ⟨_, old⟩
    · have latched := sound.latched j update known
      rw [whole] at latched
      show phase.halfway = true ↔ _
      rw [still]
      exact latched
    · exact sound.latched j other old
  · intro j other lsn knownJ logged
    rcases setPhase_cases knownJ with ⟨_, rfl⟩ | ⟨_, old⟩
    · obtain ⟨r, member, recordOf⟩ :=
        sound.logged i update lsn known (recordLsn.symm.trans logged)
      exact ⟨r, member, recordLsn.trans recordOf.lsn, recordOf.txn, recordOf.hasPage,
        recordOf.page⟩
    · exact sound.logged j other lsn old logged
  · intro j other lsn knownJ logged k third l knownK page wholeK recorded
    rcases setPhase_cases knownJ with ⟨_, rfl⟩ | ⟨_, oldJ⟩
    · rw [show phase = .logged lsn from logged] at still
      cases still
    · rcases setPhase_cases knownK with ⟨_, rfl⟩ | ⟨_, oldK⟩
      · exact sound.newest j other lsn oldJ logged i update l known page whole
          (recordLsn.symm.trans recorded)
      · exact sound.newest j other lsn oldJ logged k third l oldK page wholeK recorded

theorem Sound.begin (fresh : s.updates i = none) (t : Nat) (p : PageId) :
    Sound { s with updates := Function.update s.updates i (some ⟨t, p, .pinned⟩) } := by
  have other {j : Nat} (known : j ≠ i) :
      Function.update s.updates i (some ⟨t, p, .pinned⟩) j = s.updates j :=
    update_of_ne known _ _
  have old {j : Nat} {update : Update β} (known : s.updates j = some update) :
      Function.update s.updates i (some ⟨t, p, .pinned⟩) j = some update := by
    refine (other ?_).trans known
    rintro rfl
    rw [fresh] at known
    cases known
  have cases_ {j : Nat} {update : Update β}
      (known : Function.update s.updates i (some ⟨t, p, .pinned⟩) j = some update) :
      (j = i ∧ update = ⟨t, p, .pinned⟩) ∨ s.updates j = some update := by
    by_cases same : j = i
    · subst same
      rw [update_self] at known
      exact .inl ⟨rfl, (Option.some.inj known).symm⟩
    · exact .inr ((other same).symm.trans known)
  have evolves : Evolves s
      { s with updates := Function.update s.updates i (some ⟨t, p, .pinned⟩) } :=
    ⟨fun j update lsn known whole logged => ⟨update, old known, rfl, rfl, whole, logged⟩,
      fun _ member => member, fun _ member => member⟩
  obtain ⟨frames, disk, flush⟩ := sound.pages evolves rfl rfl rfl rfl
  refine ⟨sound.wal, ?_, ?_, ?_, ?_, frames, disk, flush⟩
  · intro j update known
    rcases cases_ known with ⟨rfl, rfl⟩ | known
    · refine ⟨fun half => (by cases half), fun held => ?_⟩
      obtain ⟨holder, knownJ, _⟩ := sound.holder p j held
      rw [fresh] at knownJ
      cases knownJ
    · exact sound.latched j update known
  · intro q j held
    obtain ⟨update, known, page⟩ := sound.holder q j held
    exact ⟨update, old known, page⟩
  · intro j update lsn known logged
    rcases cases_ known with ⟨_, rfl⟩ | known
    · cases logged
    · exact sound.logged j update lsn known logged
  · intro j update lsn known logged k third l knownK page whole recorded
    rcases cases_ known with ⟨_, rfl⟩ | known
    · cases logged
    · rcases cases_ knownK with ⟨_, rfl⟩ | knownK
      · cases recorded
      · exact sound.newest j update lsn known logged k third l knownK page whole recorded

theorem Sound.fetch_versions (p : PageId) :
    ∃ frames, fetch s p = { s with frames := frames } ∧
      ∀ q frame, frames q = some frame → VersionSound s q frame.version := by
  have update (new : Frame β) (versionSound : VersionSound s p new.version) (q : PageId)
      (frame : Frame β) (at_ : Function.update s.frames p (some new) q = some frame) :
      VersionSound s q frame.version := by
    by_cases same : q = p
    · subst same
      rw [update_self] at at_
      cases at_
      exact versionSound
    · rw [update_of_ne same] at at_
      exact sound.frames q frame at_
  unfold fetch
  split
  · rename_i frame at_
    exact ⟨_, rfl, update _ (sound.frames p frame at_)⟩
  · exact ⟨_, rfl, update _ (sound.disk p).sound⟩

theorem Sound.unpin_versions (p : PageId) (isDirty : Bool) :
    ∃ frames, unpin s p isDirty = { s with frames := frames } ∧
      ∀ q frame, frames q = some frame → VersionSound s q frame.version := by
  unfold unpin
  split
  · rename_i frame at_
    split
    · exact ⟨_, rfl, sound.frames⟩
    · refine ⟨_, rfl, ?_⟩
      intro q new atQ
      by_cases same : q = p
      · subst same
        rw [update_self] at atQ
        cases atQ
        exact sound.frames q frame at_
      · rw [update_of_ne same] at atQ
        exact sound.frames q new atQ
  · exact ⟨_, rfl, sound.frames⟩

theorem Sound.beginFlush (at_ : s.frames p = some frame)
    (free : s.latches p = none) (evicts : Bool) :
    Sound { s with flush := some ⟨p, frame.version.page.lsn, false, evicts⟩ } where
  wal := sound.wal
  latched := sound.latched
  holder := sound.holder
  logged := sound.logged
  newest := sound.newest
  frames := fun p frame at_ => (sound.frames p frame at_).evolve (evolves_same rfl rfl) rfl
  disk := fun p => (sound.disk p).evolve (evolves_same rfl rfl)
  flush := fun flush running => by
    cases running
    exact ⟨free, frame, at_, rfl, fun done => by cases done⟩

theorem Sound.flushUpTo {evicts : Bool}
    (running : s.flush = some ⟨p, lsn, false, evicts⟩) (unmarked : ¬MarkedUnsynced s.wal lsn) :
    Sound { s with wal := s.wal.flushUpTo lsn, flush := some ⟨p, lsn, true, evicts⟩ } := by
  obtain ⟨free, frame, at_, same, _⟩ := sound.flush _ running
  dsimp only at same
  subst same
  have flushed := sound.flushLog frame.version.page.lsn
  have durable := sound.versionDurable (sound.frames p frame at_) free unmarked
  exact {
    wal := flushed.wal
    latched := flushed.latched
    holder := flushed.holder
    logged := flushed.logged
    newest := flushed.newest
    frames := fun p frame at_ => (flushed.frames p frame at_).evolve (evolves_same rfl rfl) rfl
    disk := fun p => (flushed.disk p).evolve (evolves_same rfl rfl)
    flush := fun flush running => by
      cases running
      exact ⟨free, frame, at_, rfl, fun _ => durable.evolve (evolves_same rfl rfl)⟩ }

theorem Sound.writePage {evicts : Bool}
    (running : s.flush = some ⟨p, lsn, true, evicts⟩) (at_ : s.frames p = some frame) :
    Sound { s.setFrame p (if evicts then none else some { frame with isDirty := false }) with
      disk := Function.update s.disk p frame.version, flush := none } := by
  obtain ⟨_, frame', atP, _, flushed⟩ := sound.flush _ running
  rw [at_] at atP
  cases atP
  exact {
    wal := sound.wal
    latched := sound.latched
    holder := sound.holder
    logged := sound.logged
    newest := sound.newest
    frames := fun q new atQ => by
      by_cases same : q = p
      · subst same
        simp only [State.setFrame, update_self] at atQ
        split at atQ <;> cases atQ
        exact (sound.frames q frame at_).evolve (evolves_same rfl rfl) rfl
      · simp only [State.setFrame, update_of_ne same] at atQ
        exact (sound.frames q new atQ).evolve (evolves_same rfl rfl) rfl
    disk := fun q => by
      by_cases same : q = p
      · subst same
        simp only [update_self]
        exact (flushed rfl).evolve (evolves_same rfl rfl)
      · simp only [update_of_ne same]
        exact (sound.disk q).evolve (evolves_same rfl rfl)
    flush := fun flush running => by cases running }

theorem Sound.step {label : Label β} (apart : FlushesApart s label)
    (taken : step s label = some s') : Sound s' := by
  cases label with
  | fetch i t p =>
    simp only [WriteAhead.step] at taken
    split at taken
    · rename_i quiet fresh
      cases taken
      obtain ⟨frames, same, versions⟩ := sound.fetch_versions p
      rw [same]
      exact (sound.setFrames quiet versions).begin fresh t p
    · cases taken
  | change i body =>
    simp only [WriteAhead.step, bind_eq_bind, bind_eq_some_iff] at taken
    obtain ⟨update, known, frame, at_, taken⟩ := taken
    split at taken
    · rename_i pinned free
      cases taken
      exact sound.change known at_ pinned free (fun flush => apart update flush known) body _
    · cases taken
  | append i type =>
    simp only [WriteAhead.step, bind_eq_bind, bind_eq_some_iff] at taken
    obtain ⟨update, known, frame, at_, taken⟩ := taken
    split at taken
    · rename_i before phase
      split at taken
      · cases taken
        exact sound.log known phase rfl rfl rfl
      · cases taken
    · cases taken
  | setPageLsn i =>
    simp only [WriteAhead.step, bind_eq_bind, bind_eq_some_iff] at taken
    obtain ⟨update, known, frame, at_, taken⟩ := taken
    split at taken
    · rename_i lsn phase
      cases taken
      exact sound.stamp known at_ phase
    · cases taken
  | unpin i =>
    simp only [WriteAhead.step, bind_eq_bind, bind_eq_some_iff] at taken
    obtain ⟨update, known, taken⟩ := taken
    split at taken
    · rename_i quiet phase
      cases taken
      obtain ⟨frames, same, versions⟩ := sound.unpin_versions update.pageId true
      rw [same]
      exact (sound.setFrames quiet versions).settle known (by rw [phase]; rfl) rfl
        (by rw [phase]; rfl)
    · rename_i quiet phase
      cases taken
      obtain ⟨frames, same, versions⟩ := sound.unpin_versions update.pageId false
      rw [same]
      exact (sound.setFrames quiet versions).settle known (by rw [phase]; rfl) rfl
        (by rw [phase]; rfl)
    · cases taken
  | logTxn t type =>
    simp only [WriteAhead.step] at taken
    split at taken
    · cases taken
      exact sound.append t _
    · cases taken
  | flushLog lsn =>
    cases taken
    exact sound.flushLog lsn
  | beginFlush p =>
    simp only [WriteAhead.step] at taken
    split at taken
    · rename_i frame quiet at_
      split at taken
      · cases taken
        exact sound.beginFlush at_ apart false
      · cases taken
        exact sound
    · cases taken
  | beginEviction p =>
    simp only [WriteAhead.step] at taken
    split at taken
    · rename_i frame quiet at_
      split at taken
      · cases taken
      · split at taken
        · cases taken
          exact sound.beginFlush at_ apart true
        · cases taken
          refine sound.setFrames quiet ?_
          intro q new atQ
          by_cases same : q = p
          · subst same
            rw [update_self] at atQ
            cases atQ
          · rw [update_of_ne same] at atQ
            exact sound.frames q new atQ
    · cases taken
  | flushUpTo =>
    simp only [WriteAhead.step] at taken
    split at taken
    · rename_i p lsn evicts running
      cases taken
      exact sound.flushUpTo running (apart _ running)
    · cases taken
  | writePage =>
    simp only [WriteAhead.step] at taken
    split at taken
    · rename_i p lsn evicts running
      split at taken
      · rename_i frame at_
        cases taken
        exact sound.writePage running at_
      · cases taken
    · cases taken

end

end Invariant

/-- In every run whose steps are apart, every change that has reached disk has a durable record. -/
theorem logFirst {base : List (Rec β)} (placed : Placed base) {disk : PageId → Page β}
    {labels : List (Label β)} {s : State β}
    (run : Run step FlushesApart (State.start base disk) labels s) : LogFirst s := by
  have sound : Sound s :=
    run.invariant Sound (Sound.start placed disk) fun _ _ _ sound apart => sound.step apart
  intro p i member
  obtain ⟨update, lsn, settled, durable⟩ := sound.disk p i member
  exact ⟨update, settled.known, durable⟩

def zeroPages : PageId → Page Nat := fun _ => ⟨0, 0⟩

def firstUpdate : List (Label Nat) :=
  [.logTxn 1 .begin, .fetch 0 1 ⟨1, 0⟩, .change 0 7, .append 0 .heapInsert, .setPageLsn 0, .unpin 0]

def flushPage (p : PageId) : List (Label Nat) := [.beginFlush p, .flushUpTo, .writePage]

theorem logFirst_firstUpdate : ∃ s,
    Run step FlushesApart (State.start [] zeroPages) (firstUpdate ++ flushPage ⟨1, 0⟩) s ∧
      LogFirst s := by
  have executed : (exec (fun s a => if FlushesApart s a then step s a else none)
      (State.start [] zeroPages) (firstUpdate ++ flushPage ⟨1, 0⟩)).isSome = true := by
    decide +kernel
  obtain ⟨s, reached⟩ := Option.isSome_iff_exists.mp executed
  exact ⟨s, run_of_exec reached, logFirst placed_nil (run_of_exec reached)⟩

/-- Transaction 2 changes the bytes of the same, still dirty page, and the page is flushed
before the change is logged. -/
def flushedBetween : List (Label Nat) :=
  firstUpdate ++ [.logTxn 2 .begin, .fetch 1 2 ⟨1, 0⟩, .change 1 9] ++ flushPage ⟨1, 0⟩

/-- The bytes of the second update are on disk, and it has no record at all. -/
theorem unlogged_change_flushed : ∃ s,
    Run step (fun _ _ => True) (State.start [] zeroPages) flushedBetween s ∧
      1 ∈ (s.disk ⟨1, 0⟩).updates ∧ (s.disk ⟨1, 0⟩).page.body = 9 ∧
      s.updates 1 = some ⟨2, ⟨1, 0⟩, .changed 7⟩ ∧ ¬LogFirst s := by
  have executed : (exec (fun s a => if True then step s a else none)
      (State.start [] zeroPages) flushedBetween).any (fun s =>
        decide (1 ∈ (s.disk ⟨1, 0⟩).updates ∧ (s.disk ⟨1, 0⟩).page.body = 9 ∧
          s.updates 1 = some ⟨2, ⟨1, 0⟩, .changed 7⟩)) = true := by
    decide +kernel
  obtain ⟨s, reached, facts⟩ := (Option.any_eq_true _ _).mp executed
  obtain ⟨onDisk, body, unlogged⟩ := of_decide_eq_true facts
  refine ⟨s, run_of_exec reached, onDisk, body, unlogged, fun logFirst => ?_⟩
  obtain ⟨update, known, r, _, recordOf⟩ := logFirst ⟨1, 0⟩ 1 onDisk
  rw [unlogged] at known
  cases known
  cases recordOf.lsn

end GraniteDb.Buffer.WriteAhead
