/- Page updates interleaved step by step with a checkpoint, and what Redo restores. -/

import GraniteDb.Lib.GuardedRun
import GraniteDb.Recovery.CheckpointManager
import GraniteDb.Recovery.RecoveryFacts

namespace GraniteDb.Recovery.CheckpointDirtyRace

open Common.Types Recovery.WalRecords Recovery.RecordLog Recovery.RecoveryManager
open Recovery.RecoveryFacts Recovery.CheckpointManager Buffer Lib.GuardedRun
open Buffer.BufferPoolManager (DirtyPageTable markDirty)

variable {β : Type}

/-- A page an operation has fetched and not yet unpinned: the image before a change that is not yet
logged, and the newest record logged through this pin. -/
structure Pin (β : Type) where
  txnId : Nat
  pageId : PageId
  before : Option β
  logged : Option Nat
  deriving DecidableEq

/-- The buffer pool and the disk below it. A page that is not resident has its disk copy
as its buffered contents. -/
structure Pool (β : Type) where
  buffered : PageId → Page β
  disk : PageId → Page β
  dirtyPages : DirtyPageTable
  pins : List (Pin β)

structure State (β : Type) where
  wal : Wal β
  master : Nat
  lastLsn : Nat → Nat
  pool : Pool β
  checkpoint : CheckpointPc

/-- A process that has opened the log `base` and recovered the pages on `disk`. -/
def State.start (base : List (Rec β)) (master : Nat) (disk : PageId → Page β) : State β where
  wal := .open base
  master := master
  lastLsn := fun _ => 0
  pool := ⟨disk, disk, ∅, []⟩
  checkpoint := .idle

inductive Label (β : Type)
  | fetch (t : Nat) (p : PageId)
  | modify (i : Nat) (body : β)
  | logUpdate (i : Nat) (type : LogRecordType)
  | unpin (i : Nat)
  | logTxn (t : Nat) (type : LogRecordType)
  | flushLog (lsn : Nat)
  | flushPage (p : PageId)
  | checkpoint (txns : List CheckpointTxnEntry)

def snapshot (dirtyPages : DirtyPageTable) : List DirtyPageEntry :=
  dirtyPages.entries.map fun entry => ⟨entry.1, entry.2⟩

def Pool.fetch (pool : Pool β) (t : Nat) (p : PageId) : Pool β :=
  { pool with pins := pool.pins ++ [⟨t, p, none, none⟩] }

/-- Change the bytes of the page of pin `i`, keeping the image taken before. -/
def Pool.modify (pool : Pool β) (i : Nat) (pin : Pin β) (body : β) : Pool β :=
  { pool with
    buffered := Function.update pool.buffered pin.pageId
      ⟨(pool.buffered pin.pageId).lsn, body⟩
    pins := pool.pins.set i { pin with before := some (pool.buffered pin.pageId).body } }

/-- `SetPageLSN` after the update through pin `i` was logged at `lsn`. -/
def Pool.setPageLsn (pool : Pool β) (i : Nat) (pin : Pin β) (lsn : Nat) : Pool β :=
  { pool with
    buffered := Function.update pool.buffered pin.pageId ⟨lsn, (pool.buffered pin.pageId).body⟩
    pins := pool.pins.set i { pin with before := none, logged := some lsn } }

/-- `UnpinPage`, dirty if something was logged through the pin. -/
def Pool.unpin (pool : Pool β) (i : Nat) (pin : Pin β) : Pool β :=
  { pool with
    pins := pool.pins.eraseIdx i
    dirtyPages :=
      if pin.logged.isSome then
        markDirty pool.dirtyPages pin.pageId (pool.buffered pin.pageId).lsn
      else pool.dirtyPages }

/-- The write of `FlushFrame`. -/
def Pool.flush (pool : Pool β) (p : PageId) : Pool β :=
  { pool with
    disk := Function.update pool.disk p (pool.buffered p)
    dirtyPages := pool.dirtyPages.erase p }

def updateRecord (s : State β) (pin : Pin β) (before : β) (type : LogRecordType) : Rec β :=
  makePageImageLogRecord none type pin.txnId (s.lastLsn pin.txnId) pin.pageId (some before)
    (some (s.pool.buffered pin.pageId).body)

def txnRecord (s : State β) (t : Nat) (type : LogRecordType) : Rec β :=
  { LogRecord.blank none type with txnId := t, prevLsn := s.lastLsn t }

def step (s : State β) : Label β → Option (State β)
  | .fetch t p => some { s with pool := s.pool.fetch t p }
  | .modify i body => do
    let pin ← s.pool.pins[i]?
    -- The page's exclusive latch is held from here to the end of `logUpdate`.
    if s.pool.pins.all fun other => other.pageId != pin.pageId || other.before.isNone then
      some { s with pool := s.pool.modify i pin body }
    else none
  | .logUpdate i type => do
    let pin ← s.pool.pins[i]?
    let before ← pin.before
    if isPageUpdateRecord type then
      some { s with
        wal := s.wal.append (updateRecord s pin before type)
        lastLsn := Function.update s.lastLsn pin.txnId (endLsn s.wal.records)
        pool := s.pool.setPageLsn i pin (endLsn s.wal.records) }
    else none
  | .unpin i => do
    let pin ← s.pool.pins[i]?
    if pin.before.isNone then some { s with pool := s.pool.unpin i pin } else none
  | .logTxn t type =>
    if type = .begin ∨ type = .commit ∨ type = .abort then
      some { s with
        wal := s.wal.append (txnRecord s t type)
        lastLsn := Function.update s.lastLsn t (endLsn s.wal.records) }
    else none
  | .flushLog lsn => some { s with wal := s.wal.flushUpTo lsn }
  | .flushPage p =>
    -- `FlushFrame` writes a frame only if it is dirty, that is, in the table.
    if (s.pool.dirtyPages.lookup p).isSome then
      some { s with
        wal := s.wal.flushUpTo (s.pool.buffered p).lsn
        pool := s.pool.flush p }
    else none
  | .checkpoint txns =>
    let next := createCheckpoint ⟨s.wal, s.master, s.checkpoint⟩ txns
      (snapshot s.pool.dirtyPages)
    some { s with wal := next.wal, master := next.master, checkpoint := next.pc }

/-- An update of the pinned page was logged before the running checkpoint began, and the
page is not in the dirty-page table. -/
def UnlistedUpdate (s : State β) (pin : Pin β) : Prop :=
  match s.checkpoint, pin.logged with
  | .txnsTaken b _, some lsn => lsn < b ∧ s.pool.dirtyPages.lookup pin.pageId = none
  | _, _ => False

instance (s : State β) (pin : Pin β) : Decidable (UnlistedUpdate s pin) := by
  unfold UnlistedUpdate
  split <;> infer_instance

/-- The dirty-page table is not read while such an update is under way. -/
def SnapshotAllowed (s : State β) : Label β → Prop
  | .checkpoint _ => ∀ pin ∈ s.pool.pins, ¬UnlistedUpdate s pin
  | _ => True

instance (s : State β) (a : Label β) : Decidable (SnapshotAllowed s a) := by
  unfold SnapshotAllowed
  split <;> infer_instance

section Pages

structure PagesSound (base records : List (Rec β)) (pool : Pool β) : Prop where
  newest : ∀ p, ∀ r ∈ records, IsUpdateOf p r → r.lsn ≤ (pool.buffered p).lsn
  logged : ∀ p, (pool.buffered p).lsn ≤ (pool.disk p).lsn ∨
    ∃ r ∈ records, IsUpdateOf p r ∧ r.lsn = (pool.buffered p).lsn
  behind : ∀ p, (pool.disk p).lsn ≤ (pool.buffered p).lsn
  inLog : ∀ p, (pool.buffered p).lsn < endLsn records
  current : ∀ p, ∀ r ∈ records, IsUpdateOf p r → r.lsn < endLsn base → r.lsn ≤ (pool.disk p).lsn
  pinned : ∀ pin ∈ pool.pins, ∀ lsn, pin.logged = some lsn →
    ∃ r ∈ records, IsUpdateOf pin.pageId r ∧ r.lsn = lsn
  bound : ∀ p recLsn, pool.dirtyPages.lookup p = some recLsn → recLsn ≤ (pool.buffered p).lsn
  lost : ∀ p, ∀ r ∈ records, IsUpdateOf p r → (pool.disk p).lsn < r.lsn →
    (pool.dirtyPages.lookup p).isSome ∨ ∃ pin ∈ pool.pins, pin.pageId = p ∧ pin.logged.isSome

variable {pin : Pin β} {i : Nat} {pins : List (Pin β)} {base records : List (Rec β)} {pool : Pool β}

section

variable (found : pins[i]? = some pin)

include found

theorem mem_set_of_mem {new other : Pin β}
    (member : other ∈ pins) :
    other ∈ pins.set i new ∨ other = pin := by
  obtain ⟨j, at_⟩ := List.mem_iff_getElem?.mp member
  by_cases same : i = j
  · subst same
    rw [found] at at_
    exact .inr (Option.some.inj at_).symm
  · refine .inl (List.mem_iff_getElem?.mpr ⟨j, ?_⟩)
    rw [List.getElem?_set_ne same, at_]

theorem mem_set_self {new : Pin β} :
    new ∈ pins.set i new := by
  obtain ⟨inside, _⟩ := List.getElem?_eq_some_iff.mp found
  exact List.mem_set inside _

theorem mem_eraseIdx_of_mem {other : Pin β}
    (member : other ∈ pins) :
    other ∈ pins.eraseIdx i ∨ other = pin := by
  obtain ⟨j, at_⟩ := List.mem_iff_getElem?.mp member
  by_cases same : j = i
  · subst same
    rw [found] at at_
    exact .inr (Option.some.inj at_).symm
  · exact .inl (List.mem_eraseIdx_iff_getElem?.mpr ⟨j, same, at_⟩)

end

theorem Pool.modify_lsn (body : β) (p : PageId) :
    ((pool.modify i pin body).buffered p).lsn = (pool.buffered p).lsn := by
  by_cases same : p = pin.pageId
  · subst same
    simp [Pool.modify]
  · simp [Pool.modify, Function.update_of_ne same]

section

variable (sound : PagesSound base records pool)

include sound

theorem PagesSound.congr {pool' : Pool β}
    (lsns : ∀ p, (pool'.buffered p).lsn = (pool.buffered p).lsn) (disk : pool'.disk = pool.disk)
    (table : pool'.dirtyPages = pool.dirtyPages)
    (fewer : ∀ pin ∈ pool'.pins, pin.logged.isSome →
      ∃ old ∈ pool.pins, old.pageId = pin.pageId ∧ old.logged = pin.logged)
    (kept : ∀ pin ∈ pool.pins, pin.logged.isSome →
      ∃ new ∈ pool'.pins, new.pageId = pin.pageId ∧ new.logged.isSome) :
    PagesSound base records pool' := by
  constructor
  · intro p
    rw [lsns]
    exact sound.newest p
  · intro p
    rw [lsns, disk]
    exact sound.logged p
  · intro p
    rw [lsns, disk]
    exact sound.behind p
  · intro p
    rw [lsns]
    exact sound.inLog p
  · rw [disk]
    exact sound.current
  · intro pin member lsn isLogged
    obtain ⟨old, inside, page, same⟩ := fewer pin member (by rw [isLogged]; rfl)
    rw [← page]
    exact sound.pinned old inside lsn (same.trans isLogged)
  · intro p recLsn listed
    rw [lsns]
    exact sound.bound p recLsn (table ▸ listed)
  · intro p r member update older
    rw [disk] at older
    rw [table]
    obtain listed | ⟨pin, pinned, page, isLogged⟩ := sound.lost p r member update older
    · exact .inl listed
    · obtain ⟨new, inside, samePage, stillLogged⟩ := kept pin pinned isLogged
      exact .inr ⟨new, inside, samePage.trans page, stillLogged⟩

theorem PagesSound.listed {pool' : Pool β} {p : PageId} {lsn : Nat}
    (le : lsn ≤ (pool.buffered p).lsn) (buffered : pool'.buffered = pool.buffered)
    (disk : pool'.disk = pool.disk) (table : pool'.dirtyPages = markDirty pool.dirtyPages p lsn)
    (fewer : ∀ pin ∈ pool'.pins, pin ∈ pool.pins)
    (kept : ∀ pin ∈ pool.pins, pin.pageId ≠ p → pin ∈ pool'.pins) :
    PagesSound base records pool' := by
  refine ⟨?_, ?_, ?_, ?_, ?_, fun pin member => sound.pinned pin (fewer pin member), ?_, ?_⟩
  · rw [buffered]
    exact sound.newest
  · rw [buffered, disk]
    exact sound.logged
  · rw [buffered, disk]
    exact sound.behind
  · rw [buffered]
    exact sound.inLog
  · rw [disk]
    exact sound.current
  · intro q recLsn listed
    rw [table] at listed
    rw [buffered]
    by_cases same : q = p
    · subst same
      obtain ⟨x, at_, bound⟩ := covers_markDirty pool.dirtyPages q lsn
      rw [listed] at at_
      cases at_
      exact le_trans bound le
    · unfold BufferPoolManager.markDirty at listed
      split at listed <;> rw [AList.lookup_insert_ne same] at listed
      all_goals exact sound.bound q recLsn listed
  · intro q r member update older
    rw [disk] at older
    rw [table]
    by_cases same : q = p
    · subst same
      obtain ⟨x, at_, _⟩ := covers_markDirty pool.dirtyPages q lsn
      exact .inl (by rw [at_]; rfl)
    · obtain listed | ⟨pin, pinned, page, isLogged⟩ := sound.lost q r member update older
      · obtain ⟨recLsn, at_⟩ := Option.isSome_iff_exists.mp listed
        obtain ⟨x, still, _⟩ := Covers.markDirty ⟨recLsn, at_, le_rfl⟩ p lsn
        exact .inl (by rw [still]; rfl)
      · exact .inr ⟨pin, kept pin pinned (page ▸ same), page, isLogged⟩

theorem PagesSound.flushed {p : PageId} {page : Page β} (newer : (pool.disk p).lsn ≤ page.lsn)
    (older : page.lsn ≤ (pool.buffered p).lsn) (seen : page.lsn = (pool.buffered p).lsn ∨
      ∃ pin ∈ pool.pins, pin.pageId = p ∧ pin.logged.isSome) :
    PagesSound base records { pool with
      disk := Function.update pool.disk p page
      dirtyPages := pool.dirtyPages.erase p } := by
  have onDisk (q : PageId) : (pool.disk q).lsn ≤ (Function.update pool.disk p page q).lsn := by
    by_cases same : q = p
    · subst same
      rwa [Function.update_self]
    · rw [Function.update_of_ne same]
  constructor
  · exact sound.newest
  · intro q
    rcases sound.logged q with le | present
    · exact .inl (le_trans le (onDisk q))
    · exact .inr present
  · intro q
    by_cases same : q = p
    · subst same
      simpa using older
    · simpa [Function.update_of_ne same] using sound.behind q
  · exact sound.inLog
  · intro q r member update old
    exact le_trans (sound.current q r member update old) (onDisk q)
  · exact sound.pinned
  · intro q recLsn listed
    by_cases same : q = p
    · subst same
      simp at listed
    · refine sound.bound q recLsn ?_
      rwa [AList.lookup_erase_ne same] at listed
  · intro q r member update missing
    by_cases same : q = p
    · subst same
      simp only [Function.update_self] at missing
      obtain whole | vouched := seen
      · have covered := sound.newest q r member update
        omega
      · exact .inr vouched
    · rcases sound.lost q r member update (lt_of_le_of_lt (onDisk q) missing) with listed | pinned
      · refine .inl ?_
        rwa [AList.lookup_erase_ne same]
      · exact .inr pinned

theorem PagesSound.fetch (t : Nat) (p : PageId) :
    PagesSound base records (pool.fetch t p) := by
  refine sound.congr (fun _ => rfl) rfl rfl ?_ fun pin member isLogged =>
    ⟨pin, List.mem_append_left _ member, rfl, isLogged⟩
  intro pin member isLogged
  rcases List.mem_append.mp member with old | new
  · exact ⟨pin, old, rfl, rfl⟩
  · rw [List.mem_singleton.mp new] at isLogged
    cases isLogged

theorem PagesSound.modify (found : pool.pins[i]? = some pin)
    (body : β) :
    PagesSound base records (pool.modify i pin body) := by
  refine sound.congr (Pool.modify_lsn body) rfl rfl ?_ ?_
  · intro other member _
    rcases List.mem_or_eq_of_mem_set member with old | rfl
    · exact ⟨other, old, rfl, rfl⟩
    · exact ⟨pin, List.mem_of_getElem? found, rfl, rfl⟩
  · intro other member isLogged
    rcases mem_set_of_mem found member with still | rfl
    · exact ⟨other, still, rfl, isLogged⟩
    · exact ⟨_, mem_set_self found, rfl, isLogged⟩

theorem PagesSound.unpin (found : pool.pins[i]? = some pin) :
    PagesSound base records (pool.unpin i pin) := by
  by_cases isLogged : pin.logged.isSome
  · refine sound.listed le_rfl rfl rfl (if_pos isLogged)
      (fun other member => List.mem_of_mem_eraseIdx member) fun other member apart => ?_
    rcases mem_eraseIdx_of_mem found member with still | rfl
    · exact still
    · exact absurd rfl apart
  · refine sound.congr (fun _ => rfl) rfl (if_neg isLogged)
      (fun other member _ => ⟨other, List.mem_of_mem_eraseIdx member, rfl, rfl⟩)
      fun other member otherLogged => ?_
    rcases mem_eraseIdx_of_mem found member with still | rfl
    · exact ⟨other, still, rfl, otherLogged⟩
    · exact absurd otherLogged isLogged

theorem PagesSound.flush (p : PageId) :
    PagesSound base records (pool.flush p) :=
  sound.flushed (sound.behind p) le_rfl (.inl rfl)

theorem PagesSound.appendOther {r : Rec β}
    (noUpdate : isPageUpdateRecord r.type = false) :
    PagesSound base (append records r) pool := by
  have old {p : PageId} {x : Rec β} (member : x ∈ append records r)
      (update : IsUpdateOf p x) : x ∈ records := by
    rcases mem_append.mp member with prior | rfl
    · exact prior
    · exact absurd update.update (by simp [noUpdate])
  have grown := endLsn_lt_append_cons records [] { r with lsn := endLsn records }
  constructor
  · exact fun p x member update => sound.newest p x (old member update) update
  · intro p
    rcases sound.logged p with le | ⟨x, member, rest⟩
    · exact .inl le
    · exact .inr ⟨x, mem_append.mpr (.inl member), rest⟩
  · exact sound.behind
  · exact fun p => lt_trans (sound.inLog p) grown
  · exact fun p x member update => sound.current p x (old member update) update
  · intro pin member lsn isLogged
    obtain ⟨x, found, rest⟩ := sound.pinned pin member lsn isLogged
    exact ⟨x, mem_append.mpr (.inl found), rest⟩
  · exact sound.bound
  · exact fun p x member update => sound.lost p x (old member update) update

theorem PagesSound.logImage {pool' : Pool β}
    (placed : Placed records) (grown : endLsn base ≤ endLsn records) {p : PageId} {rec : Rec β}
    (version : IsUpdateOf p rec) (sameDisk : pool'.disk = pool.disk)
    (sameTable : pool'.dirtyPages = pool.dirtyPages)
    (sets : (pool'.buffered p).lsn = endLsn records)
    (keeps : ∀ q ≠ p, pool'.buffered q = pool.buffered q)
    (vouched : ∃ pin ∈ pool'.pins, pin.pageId = p ∧ pin.logged.isSome)
    (still : ∀ pin ∈ pool.pins, pin.pageId ≠ p → pin ∈ pool'.pins)
    (only : ∀ pin ∈ pool'.pins, ∀ lsn, pin.logged = some lsn → (∃ old ∈ pool.pins, old.pageId =
      pin.pageId ∧ old.logged = some lsn) ∨ pin.pageId = p ∧ lsn = endLsn records) :
    PagesSound base (append records rec) pool' := by
  have update : IsUpdateOf p { rec with lsn := endLsn records } :=
    ⟨version.update, version.hasPage, version.page, version.image⟩
  have logged := endLsn_lt_append_cons records [] { rec with lsn := endLsn records }
  have old {q : PageId} (apart : q ≠ p) {x : Rec β} (member : x ∈ append records rec)
      (version' : IsUpdateOf q x) : x ∈ records := by
    rcases mem_append.mp member with prior | rfl
    · exact prior
    · exact absurd (version'.page.symm.trans update.page) apart
  constructor
  · intro q x member version'
    by_cases same : q = p
    · subst same
      rw [sets]
      rcases mem_append.mp member with prior | rfl
      · exact Nat.le_of_lt (placed.lsn_lt_end prior)
      · exact le_rfl
    · rw [keeps q same]
      exact sound.newest q x (old same member version') version'
  · intro q
    by_cases same : q = p
    · subst same
      rw [sets]
      exact .inr ⟨_, mem_append.mpr (.inr rfl), update, rfl⟩
    · rw [keeps q same, sameDisk]
      rcases sound.logged q with le | ⟨x, member, rest⟩
      · exact .inl le
      · exact .inr ⟨x, mem_append.mpr (.inl member), rest⟩
  · intro q
    rw [sameDisk]
    by_cases same : q = p
    · subst same
      rw [sets]
      exact Nat.le_of_lt (lt_of_le_of_lt (sound.behind q) (sound.inLog q))
    · rw [keeps q same]
      exact sound.behind q
  · intro q
    by_cases same : q = p
    · subst same
      rw [sets]
      exact logged
    · rw [keeps q same]
      exact lt_trans (sound.inLog q) logged
  · intro q x member version' inBase
    rw [sameDisk]
    rcases mem_append.mp member with prior | rfl
    · exact sound.current q x prior version' inBase
    · exact absurd inBase (Nat.not_lt.mpr grown)
  · intro pin member lsn isLogged
    rcases only pin member lsn isLogged with ⟨prior, member', page, isLogged'⟩ | ⟨page, rfl⟩
    · obtain ⟨x, inLog, rest⟩ := sound.pinned prior member' lsn isLogged'
      exact ⟨x, mem_append.mpr (.inl inLog), page ▸ rest⟩
    · exact ⟨_, mem_append.mpr (.inr rfl), page ▸ update, rfl⟩
  · intro q recLsn listed
    rw [sameTable] at listed
    by_cases same : q = p
    · subst same
      rw [sets]
      exact Nat.le_of_lt (lt_of_le_of_lt (sound.bound _ recLsn listed) (sound.inLog _))
    · rw [keeps q same]
      exact sound.bound q recLsn listed
  · intro q x member version' older
    rw [sameTable]
    rw [sameDisk] at older
    by_cases same : q = p
    · subst same
      exact .inr vouched
    · rcases sound.lost q x (old same member version') version' older with
        listed | ⟨other, pinned, page, isLogged⟩
      · exact .inl listed
      · exact .inr ⟨other, still other pinned (page ▸ same), page, isLogged⟩

end

theorem PagesSound.logUpdate {s : State β} (sound : PagesSound base s.wal.records s.pool)
    (placed : Placed s.wal.records) (grown : endLsn base ≤ endLsn s.wal.records) {before : β}
    {type : LogRecordType} (found : s.pool.pins[i]? = some pin)
    (isUpdate : isPageUpdateRecord type = true) :
    PagesSound base (append s.wal.records (updateRecord s pin before type))
      (s.pool.setPageLsn i pin (endLsn s.wal.records)) := by
  refine sound.logImage placed grown (p := pin.pageId) ⟨isUpdate, rfl, rfl, rfl⟩ rfl rfl
    (by simp [Pool.setPageLsn]) (fun q apart => by simp [Pool.setPageLsn, Function.update_of_ne apart])
    ⟨_, mem_set_self found, rfl, rfl⟩ ?_ ?_
  · intro other member apart
    rcases mem_set_of_mem found member with still | rfl
    · exact still
    · exact absurd rfl apart
  · intro other member lsn isLogged
    rcases List.mem_or_eq_of_mem_set member with prior | rfl
    · exact .inl ⟨other, prior, rfl, isLogged⟩
    · cases isLogged
      exact .inr ⟨rfl, rfl⟩

end Pages

section Checkpoints

/-- Dirty-page entries taken after the record at `beginLsn` stand in for the updates before it: a
page with such an update missing on disk is listed, or was updated again before `limit`. -/
def Represents (records : List (Rec β)) (disk : PageId → Page β) (beginLsn limit : Nat)
    (entries : List DirtyPageEntry) : Prop :=
  ∀ p, ∀ r ∈ records, IsUpdateOf p r → r.lsn < beginLsn → (disk p).lsn < r.lsn →
    ∃ r' ∈ records, IsUpdateOf p r' ∧ r'.lsn < limit ∧
      (beginLsn ≤ r'.lsn ∨ ∃ dp ∈ entries, dp.pageId = p ∧ dp.recLsn ≤ r'.lsn)

variable {disk : PageId → Page β} {base : List (Rec β)} {s : State β}

theorem Represents.mono {records records' : List (Rec β)} {disk' : PageId → Page β}
    {beginLsn limit limit' : Nat} {entries : List DirtyPageEntry}
    (represents : Represents records disk beginLsn limit entries)
    (longer : ∀ r ∈ records, r ∈ records') (fresh : ∀ r ∈ records', r.lsn < beginLsn → r ∈ records)
    (newer : ∀ p, (disk p).lsn ≤ (disk' p).lsn) (later : limit ≤ limit') :
    Represents records' disk' beginLsn limit' entries := by
  intro p r member update older missing
  obtain ⟨r', member', update', before, rest⟩ := represents p r (fresh r member older) update
    older (lt_of_le_of_lt (newer p) missing)
  exact ⟨r', longer r' member', update', lt_of_lt_of_le before later, rest⟩

theorem represents_snapshot (sound : PagesSound base s.wal.records s.pool) {b : Nat}
    {txns : List CheckpointTxnEntry} (at_ : s.checkpoint = .txnsTaken b txns)
    (allowed : ∀ pin ∈ s.pool.pins, ¬UnlistedUpdate s pin) :
    Represents s.wal.records s.pool.disk b (endLsn s.wal.records) (snapshot s.pool.dirtyPages) := by
  intro p r member update older missing
  have newest := sound.newest p r member update
  obtain ⟨r', member', update', atPage⟩ : ∃ r' ∈ s.wal.records, IsUpdateOf p r' ∧
      r'.lsn = (s.pool.buffered p).lsn := by
    rcases sound.logged p with le | present
    · omega
    · exact present
  have inLog := sound.inLog p
  have listed (isListed : (s.pool.dirtyPages.lookup p).isSome) :
      ∃ dp ∈ snapshot s.pool.dirtyPages, dp.pageId = p ∧ dp.recLsn ≤ r'.lsn := by
    obtain ⟨recLsn, found⟩ := Option.isSome_iff_exists.mp isListed
    exact ⟨⟨p, recLsn⟩, List.mem_map.mpr ⟨⟨p, recLsn⟩, AList.mem_lookup_iff.mp found, rfl⟩, rfl,
      atPage ▸ sound.bound p recLsn found⟩
  rcases sound.lost p r member update missing with isListed | ⟨pin, pinned, page, isLogged⟩
  · exact ⟨r', member', update', atPage ▸ inLog, .inr (listed isListed)⟩
  · obtain ⟨lsn, logged⟩ := Option.isSome_iff_exists.mp isLogged
    by_cases early : lsn < b
    · have isListed : (s.pool.dirtyPages.lookup p).isSome := by
        rw [← Option.ne_none_iff_isSome]
        intro absent
        refine allowed pin pinned ?_
        simp only [UnlistedUpdate, at_, logged]
        exact ⟨early, page ▸ absent⟩
      exact ⟨r', member', update', atPage ▸ inLog, .inr (listed isListed)⟩
    · obtain ⟨x, inRecords, version, atLsn⟩ := sound.pinned pin pinned lsn logged
      rw [page] at version
      have bound := sound.newest p x inRecords version
      exact ⟨x, inRecords, version, by omega, .inl (by omega)⟩

/-- The dirty-page entries the running checkpoint has taken but not yet logged. -/
def takenPages : CheckpointPc → Option (Nat × List DirtyPageEntry)
  | .pagesTaken b _ pages => some (b, pages)
  | _ => none

def CheckpointLogged (base records : List (Rec β)) : CheckpointPc → Prop
  | .idle => True
  | .begun b | .txnsTaken b _ | .pagesTaken b _ _ => endLsn base ≤ b ∧ b < endLsn records
  | .ended b _ | .flushed b =>
    ∃ e ∈ records, e.type = .endCheckpoint ∧ endLsn base ≤ e.lsn ∧ e.prevLsn = b ∧ b < e.lsn

theorem CheckpointLogged.grow {base records : List (Rec β)} {pc : CheckpointPc}
    (logged : CheckpointLogged base records pc) (r : Rec β) :
    CheckpointLogged base (append records r) pc := by
  have grown := endLsn_lt_append_cons records [] { r with lsn := endLsn records }
  cases pc with
  | idle => trivial
  | begun b => exact ⟨logged.1, lt_trans logged.2 grown⟩
  | txnsTaken b _ => exact ⟨logged.1, lt_trans logged.2 grown⟩
  | pagesTaken b _ _ => exact ⟨logged.1, lt_trans logged.2 grown⟩
  | ended b _ =>
    obtain ⟨e, member, rest⟩ := logged
    exact ⟨e, mem_append.mpr (.inl member), rest⟩
  | flushed b =>
    obtain ⟨e, member, rest⟩ := logged
    exact ⟨e, mem_append.mpr (.inl member), rest⟩

structure Inv (base : List (Rec β)) (s : State β) : Prop where
  placed : Placed s.wal.records
  grown : endLsn base ≤ endLsn s.wal.records
  pages : PagesSound base s.wal.records s.pool
  running : CheckpointLogged base s.wal.records s.checkpoint
  taken : ∀ b entries, takenPages s.checkpoint = some (b, entries) →
    Represents s.wal.records s.pool.disk b (endLsn s.wal.records) entries
  ends : ∀ e ∈ s.wal.records, e.type = .endCheckpoint → endLsn base ≤ e.lsn →
    e.prevLsn ≤ e.lsn ∧ Represents s.wal.records s.pool.disk e.prevLsn e.lsn e.dirtyPages
  master : s.master < endLsn base ∨ ∃ e ∈ s.wal.records.take s.wal.synced,
    e.type = .endCheckpoint ∧ endLsn base ≤ e.lsn ∧ e.prevLsn = s.master ∧ s.master < e.lsn

theorem mem_take_flushUpTo {wal : Wal β} {e : Rec β} (lsn : Nat)
    (member : e ∈ wal.records.take wal.synced) :
    e ∈ (wal.flushUpTo lsn).records.take (wal.flushUpTo lsn).synced := by
  unfold Wal.flushUpTo
  split
  · exact member
  · simpa using List.mem_of_mem_take member

section

variable (inv : Inv base s)

include inv

theorem Inv.setPool {wal : Wal β} {pool : Pool β}
    (same : wal.records = s.wal.records)
    (synced : ∀ e ∈ s.wal.records.take s.wal.synced, e ∈ wal.records.take wal.synced)
    (sound : PagesSound base s.wal.records pool)
    (newer : ∀ p, (s.pool.disk p).lsn ≤ (pool.disk p).lsn) :
    Inv base { s with wal := wal, pool := pool } := by
  constructor
  · exact same ▸ inv.placed
  · exact same ▸ inv.grown
  · exact same ▸ sound
  · exact same ▸ inv.running
  · intro b entries taken
    have old := (inv.taken b entries taken).mono (fun _ member => member)
      (fun _ member _ => member) newer le_rfl
    change Represents wal.records pool.disk b (endLsn wal.records) entries
    rw [same]
    exact old
  · intro e member isEnd fresh
    have old := inv.ends e (same ▸ member) isEnd fresh
    refine ⟨old.1, ?_⟩
    change Represents wal.records pool.disk e.prevLsn e.lsn e.dirtyPages
    rw [same]
    exact old.2.mono (fun _ member => member) (fun _ member _ => member) newer le_rfl
  · rcases inv.master with old | ⟨e, member, rest⟩
    · exact .inl old
    · exact .inr ⟨e, synced e member, rest⟩

private theorem represents_append {r e : Rec β} (member : e ∈ s.wal.records)
    (isEnd : e.type = .endCheckpoint) (fresh : endLsn base ≤ e.lsn) :
    e.prevLsn ≤ e.lsn ∧
      Represents (append s.wal.records r) s.pool.disk e.prevLsn e.lsn e.dirtyPages := by
  obtain ⟨back, represents⟩ := inv.ends e member isEnd fresh
  refine ⟨back, represents.mono (fun x old => mem_append.mpr (.inl old)) ?_ (fun _ => le_rfl)
    le_rfl⟩
  intro x found older
  rcases mem_append.mp found with old | rfl
  · exact old
  · have bound := inv.placed.lsn_lt_end member
    change endLsn s.wal.records < e.prevLsn at older
    omega

private theorem master_append (r : Rec β) :
    s.master < endLsn base ∨ ∃ e ∈ (append s.wal.records r).take s.wal.synced,
      e.type = .endCheckpoint ∧ endLsn base ≤ e.lsn ∧ e.prevLsn = s.master ∧ s.master < e.lsn := by
  rcases inv.master with old | ⟨e, member, rest⟩
  · exact .inl old
  · refine .inr ⟨e, ?_, rest⟩
    rw [append, List.take_append]
    exact List.mem_append_left _ member

theorem Inv.logged {r : Rec β} {lastLsn : Nat → Nat} {pool : Pool β}
    (notEnd : r.type ≠ .endCheckpoint) (sound : PagesSound base (append s.wal.records r) pool)
    (sameDisk : pool.disk = s.pool.disk) :
    Inv base { s with wal := s.wal.append r, lastLsn := lastLsn, pool := pool } := by
  have grows := endLsn_lt_append_cons s.wal.records [] { r with lsn := endLsn s.wal.records }
  constructor
  · exact placed_append inv.placed r
  · exact le_trans inv.grown (Nat.le_of_lt grows)
  · exact sound
  · exact inv.running.grow r
  · intro b entries taken
    have started : b < endLsn s.wal.records := by
      have running := inv.running
      cases pc : s.checkpoint <;> simp_all [takenPages, CheckpointLogged]
    refine (inv.taken b entries taken).mono (fun x old => mem_append.mpr (.inl old)) ?_
      (fun p => by simp [sameDisk]) (Nat.le_of_lt grows)
    intro x found older
    rcases mem_append.mp found with old | rfl
    · exact old
    · exact absurd older (Nat.not_lt.mpr (Nat.le_of_lt started))
  · intro e member isEnd fresh
    rcases mem_append.mp member with old | rfl
    · simpa [sameDisk] using represents_append inv old isEnd fresh
    · exact absurd isEnd notEnd
  · exact master_append inv r

private theorem inv_checkpoint
    (allowed : ∀ pin ∈ s.pool.pins, ¬UnlistedUpdate s pin) (txns : List CheckpointTxnEntry)
    {next : Checkpointer β}
    (moved : createCheckpoint ⟨s.wal, s.master, s.checkpoint⟩ txns (snapshot s.pool.dirtyPages) =
      next) :
    Inv base { s with wal := next.wal, master := next.master, checkpoint := next.pc } := by
  have running := inv.running
  cases pc : s.checkpoint with
  | idle =>
    rw [pc] at moved
    subst moved
    have logged : Inv base { s with wal := s.wal.append beginCheckpointRecord } :=
      inv.logged (by simp) (inv.pages.appendOther rfl) rfl
    exact {
      placed := logged.placed
      grown := logged.grown
      pages := logged.pages
      running := ⟨inv.grown, endLsn_lt_append_cons s.wal.records [] _⟩
      taken := fun b entries taken => by cases taken
      ends := logged.ends
      master := logged.master }
  | begun b =>
    rw [pc] at moved running
    subst moved
    exact {
      placed := inv.placed
      grown := inv.grown
      pages := inv.pages
      running := running
      taken := fun b entries taken => by cases taken
      ends := inv.ends
      master := inv.master }
  | txnsTaken b taken =>
    rw [pc] at moved running
    subst moved
    exact {
      placed := inv.placed
      grown := inv.grown
      pages := inv.pages
      running := running
      taken := fun b entries taken => by
        cases taken
        exact represents_snapshot inv.pages pc allowed
      ends := inv.ends
      master := inv.master }
  | pagesTaken b taken entries =>
    rw [pc] at moved running
    subst moved
    have represents := inv.taken b entries (by rw [pc]; rfl)
    have grows := endLsn_lt_append_cons s.wal.records []
      { endCheckpointRecord b taken entries with lsn := endLsn s.wal.records }
    exact {
      placed := placed_append inv.placed _
      grown := le_trans inv.grown (Nat.le_of_lt grows)
      pages := inv.pages.appendOther rfl
      running := ⟨_, mem_append.mpr (.inr rfl), rfl, inv.grown, rfl, running.2⟩
      taken := fun b entries taken => by cases taken
      ends := fun e member isEnd fresh => by
        rcases mem_append.mp member with old | rfl
        · exact represents_append inv old isEnd fresh
        · refine ⟨Nat.le_of_lt running.2, represents.mono
            (fun x old => mem_append.mpr (.inl old)) ?_ (fun _ => le_rfl) le_rfl⟩
          intro x found older
          rcases mem_append.mp found with old | rfl
          · exact old
          · exact absurd older (Nat.not_lt.mpr (Nat.le_of_lt running.2))
      master := master_append inv _ }
  | ended b e =>
    rw [pc] at moved running
    subst moved
    have kept := inv.setPool (s.wal.records_flushUpTo e)
      (fun x member => mem_take_flushUpTo e member) inv.pages (fun _ => le_rfl)
    exact {
      placed := kept.placed
      grown := kept.grown
      pages := kept.pages
      running := by simpa [CheckpointLogged, createCheckpoint] using running
      taken := fun b entries taken => by cases taken
      ends := kept.ends
      master := kept.master }
  | flushed b =>
    rw [pc] at moved running
    subst moved
    exact {
      placed := inv.placed
      grown := inv.grown
      pages := inv.pages
      running := trivial
      taken := fun b entries taken => by cases taken
      ends := inv.ends
      master := by
        obtain ⟨e, member, rest⟩ := running
        exact .inr ⟨e, by simpa [createCheckpoint, Wal.sync] using member, rest⟩ }

theorem inv_step {t : State β} {a : Label β} (allowed : SnapshotAllowed s a)
    (taken : step s a = some t) : Inv base t := by
  cases a with
  | fetch id p =>
    cases taken
    exact inv.setPool rfl (fun _ member => member) (inv.pages.fetch id p) (fun _ => le_rfl)
  | modify i body =>
    simp only [step, Option.bind_eq_bind, Option.bind_eq_some_iff] at taken
    obtain ⟨pin, found, rest⟩ := taken
    split at rest
    · cases rest
      exact inv.setPool rfl (fun _ member => member) (inv.pages.modify found body)
        (fun _ => le_rfl)
    · cases rest
  | logUpdate i type =>
    simp only [step, Option.bind_eq_bind, Option.bind_eq_some_iff] at taken
    obtain ⟨pin, found, before, changed, rest⟩ := taken
    split at rest
    · rename_i isUpdate
      cases rest
      refine inv.logged ?_ (inv.pages.logUpdate inv.placed inv.grown found isUpdate) rfl
      intro isEnd
      have type : type = .endCheckpoint := isEnd
      rw [type] at isUpdate
      exact absurd isUpdate (by decide)
    · cases rest
  | unpin i =>
    simp only [step, Option.bind_eq_bind, Option.bind_eq_some_iff] at taken
    obtain ⟨pin, found, rest⟩ := taken
    split at rest
    · cases rest
      exact inv.setPool rfl (fun _ member => member) (inv.pages.unpin found) (fun _ => le_rfl)
    · cases rest
  | logTxn id type =>
    simp only [step] at taken
    split at taken
    · rename_i kind
      cases taken
      refine inv.logged ?_ (inv.pages.appendOther ?_) rfl
      · rcases kind with rfl | rfl | rfl <;> simp [txnRecord, LogRecord.blank]
      · rcases kind with rfl | rfl | rfl <;> rfl
    · cases taken
  | flushLog lsn =>
    cases taken
    exact inv.setPool (s.wal.records_flushUpTo lsn) (fun x member => mem_take_flushUpTo lsn member)
      inv.pages (fun _ => le_rfl)
  | flushPage p =>
    simp only [step] at taken
    split at taken
    · cases taken
      refine inv.setPool (s.wal.records_flushUpTo _)
        (fun x member => mem_take_flushUpTo _ member) (inv.pages.flush p) fun q => ?_
      by_cases same : q = p
      · subst same
        simpa [Pool.flush] using inv.pages.behind q
      · simp [Pool.flush, Function.update_of_ne same]
    · cases taken
  | checkpoint txns =>
    cases taken
    exact inv_checkpoint inv allowed txns rfl

end

/-- Recovery has left every page on `disk` at least as new as the log `base`. -/
structure Recovered (base : List (Rec β)) (disk : PageId → Page β) : Prop where
  current : ∀ p, ∀ r ∈ base, IsUpdateOf p r → r.lsn ≤ (disk p).lsn
  inLog : ∀ p, (disk p).lsn < endLsn base

private theorem inv_start {master : Nat} (placed : Placed base) (known : master < endLsn base)
    (recovered : Recovered base disk) :
    Inv base (State.start base master disk) := by
  constructor
  · exact placed
  · exact le_rfl
  · refine ⟨recovered.current, fun p => .inl le_rfl, fun p => le_rfl, recovered.inLog,
      fun p r member update _ => recovered.current p r member update, ?_, ?_, ?_⟩
    · intro pin member
      cases member
    · intro p recLsn listed
      exact absurd listed (by simp [State.start])
    · intro p r member update older
      exact absurd (recovered.current p r member update) (Nat.not_le.mpr older)
  · trivial
  · intro b entries taken
    cases taken
  · intro e member isEnd fresh
    exact absurd fresh (Nat.not_le.mpr (placed.lsn_lt_end member))
  · exact .inl known

theorem inv_run {master : Nat} (placed : Placed base) (known : master < endLsn base)
    (recovered : Recovered base disk) {labels : List (Label β)}
    (run : Run step SnapshotAllowed (State.start base master disk) labels s) : Inv base s :=
  run.invariant (Inv base) (inv_start placed known recovered)
    fun _ _ _ inv allowed taken => inv_step inv allowed taken

end Checkpoints

/-- Where no checkpoint reads the dirty-page table while a logged update that it will not scan is
missing there, every update that survives a crash and is missing on disk is redone: `Analysis`
covers its page no later than at the newest surviving version, which `Redo` leaves. -/
theorem lost_update_redone {base : List (Rec β)} {master : Nat} {disk : PageId → Page β}
    (placed : Placed base) (known : master < endLsn base) (recovered : Recovered base disk)
    {labels : List (Label β)} {s : State β}
    (run : Run step SnapshotAllowed (State.start base master disk) labels s) (n : Nat)
    (durable : s.wal.synced ≤ n) (p : PageId) (r : Rec β) (member : r ∈ s.wal.records.take n)
    (update : IsUpdateOf p r) (missing : (s.pool.disk p).lsn < r.lsn) :
    ∃ newest ∈ s.wal.records.take n, IsUpdateOf p newest ∧
      (∀ x ∈ s.wal.records.take n, IsUpdateOf p x → x.lsn ≤ newest.lsn) ∧
      Covers (analysis s.master (s.wal.records.take n)).dirtyPages p newest.lsn ∧
      some (redo (analysis s.master (s.wal.records.take n)).dirtyPages (s.wal.records.take n)
        s.pool.disk p).body = newest.afterImage ∧
      (redo (analysis s.master (s.wal.records.take n)).dirtyPages (s.wal.records.take n)
        s.pool.disk p).lsn = newest.lsn := by
  have inv := inv_run placed known recovered run
  have kept {x : Rec β} (found : x ∈ s.wal.records.take n) : x ∈ s.wal.records :=
    List.mem_of_mem_take found
  have placedTake := placed_take inv.placed n
  obtain ⟨before, newest, after, split, version, last⟩ := exists_newest ⟨r, member, update⟩
  have isNewest : ∀ x ∈ s.wal.records.take n, IsUpdateOf p x → x.lsn ≤ newest.lsn := by
    intro x found isVersion
    rw [split] at found placedTake
    rcases List.mem_append.mp found with early | late
    · have atNewest := placedTake before after newest rfl
      have bound := (placed_left placedTake).lsn_lt_end early
      omega
    · rcases List.mem_cons.mp late with rfl | later
      · exact le_rfl
      · exact absurd isVersion (last x later)
  have inTake : newest ∈ s.wal.records.take n := by
    rw [split]
    simp
  have scannedCovers {x : Rec β} (found : x ∈ s.wal.records.take n) (isVersion : IsUpdateOf p x)
      (reached : s.master ≤ x.lsn) :
      Covers (analysis s.master (s.wal.records.take n)).dirtyPages p newest.lsn :=
    (covers_of_update (mem_scanned.mpr ⟨found, .inr reached⟩) isVersion).mono
      (isNewest x found isVersion)
  have covers : Covers (analysis s.master (s.wal.records.take n)).dirtyPages p newest.lsn := by
    by_cases reached : s.master ≤ r.lsn
    · exact scannedCovers member update reached
    · rcases inv.master with inBase | ⟨e, inSynced, isEnd, fresh, begin, later⟩
      · -- A missing update is one of this process, after the master record of an older one.
        have old := inv.pages.current p r (kept member) update (by omega)
        omega
      · have inPrefix : e ∈ s.wal.records.take n := List.take_subset_take_left _ durable inSynced
        obtain ⟨r', found, isVersion, beforeEnd, rest⟩ := (inv.ends e (kept inPrefix) isEnd
          fresh).2 p r (kept member) update (by omega) missing
        have found' : r' ∈ s.wal.records.take n :=
          inv.placed.mem_take_of_lt inPrefix found beforeEnd
        rcases rest with after | ⟨dp, listed, rfl, bound⟩
        · exact scannedCovers found' isVersion (begin ▸ after)
        · exact (covers_of_checkpoint (mem_scanned.mpr ⟨inPrefix, .inr (by omega)⟩) isEnd
            listed).mono (le_trans bound (isNewest r' found' isVersion))
  have older : (s.pool.disk p).lsn < newest.lsn :=
    lt_of_lt_of_le missing (isNewest r member update)
  obtain ⟨body, image⟩ := Option.isSome_iff_exists.mp version.image
  have redone : redo (analysis s.master (s.wal.records.take n)).dirtyPages (s.wal.records.take n)
      s.pool.disk p = ⟨newest.lsn, body⟩ := by
    have result := redo_newest s.pool.disk (split ▸ placedTake) version image last covers older
    rwa [← split] at result
  exact ⟨newest, inTake, version, isNewest, covers, by rw [redone, image], by rw [redone]⟩

/-- Transaction `1` inserts into page `(1, 0)` and commits; the page is unpinned before the
checkpoint. -/
def listedTrace : List (Label Nat) :=
  [.logTxn 1 .begin, .fetch 1 ⟨1, 0⟩, .modify 0 7, .logUpdate 0 .heapInsert, .unpin 0,
    .logTxn 1 .commit, .checkpoint [], .checkpoint [], .checkpoint [], .checkpoint [],
    .checkpoint [], .checkpoint []]

/-- The same, with the checkpoint between the log record and `UnpinPage`. -/
def unlistedTrace : List (Label Nat) :=
  [.logTxn 1 .begin, .fetch 1 ⟨1, 0⟩, .modify 0 7, .logUpdate 0 .heapInsert,
    .checkpoint [], .checkpoint [], .checkpoint [], .checkpoint [],
    .checkpoint [], .checkpoint [], .unpin 0, .logTxn 1 .commit, .flushLog 32852]

def emptyDisk : PageId → Page Nat := fun _ => ⟨0, 0⟩

def insertRecord : Rec Nat :=
  { makePageImageLogRecord none .heapInsert 1 8 ⟨1, 0⟩ (some 0) (some 7) with lsn := 62 }

private theorem recovered_empty : Recovered [] emptyDisk :=
  ⟨fun _ _ member => absurd member List.not_mem_nil,
    fun _ => by simp [emptyDisk, LogManager.masterRecordSize]⟩

private theorem isUpdateOf_insertRecord : IsUpdateOf ⟨1, 0⟩ insertRecord := ⟨rfl, rfl, rfl, rfl⟩

theorem lost_update_redone_after_unpin :
    ∃ s : State Nat, Run step SnapshotAllowed (State.start [] 0 emptyDisk) listedTrace s ∧
      (s.pool.disk ⟨1, 0⟩).lsn < 62 ∧
      Covers (analysis s.master (s.wal.records.take 5)).dirtyPages ⟨1, 0⟩ 62 := by
  have executed : ((exec (fun s a => if SnapshotAllowed s a then step s a else none)
      (State.start ([] : List (Rec Nat)) 0 emptyDisk) listedTrace).map fun s =>
        decide (insertRecord ∈ s.wal.records.take 5 ∧ (s.pool.disk ⟨1, 0⟩).lsn < 62 ∧
          s.wal.synced ≤ 5 ∧
          ∀ x ∈ s.wal.records.take 5, x.afterImage.isSome → x.lsn = 62)) = some true := by
    decide
  obtain ⟨s, ran, facts⟩ := Option.map_eq_some_iff.mp executed
  obtain ⟨member, missing, synced, only⟩ := of_decide_eq_true facts
  have run := run_of_exec ran
  obtain ⟨newest, found, version, _, covers, _⟩ := lost_update_redone placed_nil (by decide)
    recovered_empty run 5 synced ⟨1, 0⟩ insertRecord member isUpdateOf_insertRecord missing
  exact ⟨s, run, missing, only newest found version.image ▸ covers⟩

/-- The update is durable and missing on disk, and its page is in no dirty-page table. -/
theorem lost_update_at_unlisted_snapshot :
    ¬∀ (labels : List (Label Nat)) (s : State Nat) (n : Nat) (p : PageId) (r : Rec Nat),
      Run step (fun _ _ => True) (State.start [] 0 emptyDisk) labels s → s.wal.synced ≤ n →
      r ∈ s.wal.records.take n → IsUpdateOf p r → (s.pool.disk p).lsn < r.lsn →
      ∃ newest ∈ s.wal.records.take n, IsUpdateOf p newest ∧
        Covers (analysis s.master (s.wal.records.take n)).dirtyPages p newest.lsn := by
  intro claim
  have executed : ((exec (fun s a => if True then step s a else none)
      (State.start ([] : List (Rec Nat)) 0 emptyDisk) unlistedTrace).map fun s =>
        decide (insertRecord ∈ s.wal.records.take 5 ∧ (s.pool.disk ⟨1, 0⟩).lsn < 62 ∧
          s.wal.synced ≤ 5 ∧
          (analysis s.master (s.wal.records.take 5)).dirtyPages.lookup ⟨1, 0⟩ = none)) =
      some true := by
    decide
  obtain ⟨s, ran, facts⟩ := Option.map_eq_some_iff.mp executed
  obtain ⟨member, missing, synced, absent⟩ := of_decide_eq_true facts
  obtain ⟨newest, _, _, recLsn, found, _⟩ := claim unlistedTrace s 5 ⟨1, 0⟩ insertRecord
    (run_of_exec ran) synced member isUpdateOf_insertRecord missing
  rw [absent] at found
  cases found

end GraniteDb.Recovery.CheckpointDirtyRace
