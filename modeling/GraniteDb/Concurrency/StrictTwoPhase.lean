/- Granted locks stay compatible until ReleaseAll in every run that strands no upgrade. -/

import GraniteDb.Concurrency.LockManager
import GraniteDb.Lib.GuardedRun

namespace GraniteDb.Concurrency.StrictTwoPhase

open Common.Types Common.Value Execution.Expressions Concurrency.LockManager Lib.GuardedRun
open Option (bind_eq_bind bind_some bind_eq_some_iff)
open List (mem_cons map_append mem_cons_of_mem mem_cons_self mem_append_left nodup_append mem_map
  mem_singleton map_cons mem_map_of_mem mem_append mem_filter)
open Function (update_of_ne update_self)

/-- Whatever is compatible with `strong` is compatible with `weak`. -/
def Covers (isTable : Bool) (strong weak : LockMode) : Prop :=
  ∀ requested, compatible isTable requested strong = true → compatible isTable requested weak = true

theorem covers_refl (isTable : Bool) (mode : LockMode) : Covers isTable mode mode :=
  fun _ h => h

theorem Covers.trans {isTable : Bool} {a b c : LockMode} (first : Covers isTable a b)
    (second : Covers isTable b c) : Covers isTable a c :=
  fun requested h => second requested (first requested h)

theorem compatible_symm (isTable : Bool) (a b : LockMode) :
    compatible isTable a b = compatible isTable b a := by
  cases isTable <;> cases a <;> cases b <;> rfl

private theorem covers_combineTableModes (held requested : LockMode) :
    Covers true (combineTableModes held requested) held := by
  intro other
  cases held <;> cases requested <;> cases other <;> decide

private theorem covers_combineTupleOrRangeModes (held requested : LockMode)
    (valid : isTupleOrRangeLockMode held = true) :
    Covers false (combineTupleOrRangeModes held requested) held := by
  intro other
  revert valid
  cases held <;> cases requested <;> cases other <;> decide

def ValidMode (q : QueueId) (mode : LockMode) : Prop :=
  q.isTable = true ∨ isTupleOrRangeLockMode mode = true

theorem covers_combine {q : QueueId} {held : LockMode} (valid : ValidMode q held)
    (requested : LockMode) : Covers q.isTable (q.combine held requested) held := by
  cases q with
  | table _ => exact covers_combineTableModes held requested
  | record _ =>
    exact covers_combineTupleOrRangeModes held requested
      (by simpa [ValidMode, QueueId.isTable] using valid)
  | keyRange _ =>
    exact covers_combineTupleOrRangeModes held requested
      (by simpa [ValidMode, QueueId.isTable] using valid)

theorem validMode_combine (q : QueueId) (held requested : LockMode) :
    ValidMode q (q.combine held requested) := by
  have tuple : isTupleOrRangeLockMode (combineTupleOrRangeModes held requested) = true := by
    unfold combineTupleOrRangeModes
    split <;> rfl
  cases q with
  | table _ => exact .inl rfl
  | record _ => exact .inr tuple
  | keyRange _ => exact .inr tuple

theorem compareKeys_self (key : List Value) : compareKeys key key ≠ some .lt ∧
    compareKeys key key ≠ some .gt := by
  have bytes (x : List UInt8) : compareBytes x x = .eq := by
    simp [compareBytes, List.lt_irrefl]
  have bools (x : Bool) : compareBools x x = .eq := by simp [compareBools]
  have values (v : Value) : compareValues v v = none ∨ compareValues v v = some .eq := by
    cases v <;> simp [compareValues, valueToDouble, Value.isNull, bytes, bools]
  induction key with
  | nil => simp [compareKeys]
  | cons v rest ih =>
    rcases values v with thrown | same
    · simp [compareKeys, thrown]
    · simpa [compareKeys, same] using ih

theorem sameRange_self (range : Option KeyRange) : sameRange range range ≠ some false := by
  have keys (key : Option (List Value)) : sameOptionalKey key key ≠ some false := by
    cases key with
    | none => simp [sameOptionalKey]
    | some key =>
      have self := compareKeys_self key
      simp only [sameOptionalKey, compareKeyVectors, if_true]
      cases result : compareKeys key key with
      | none => simp
      | some o =>
        cases o
        · exact absurd result self.1
        · simp
        · exact absurd result self.2
  cases range with
  | none => simp [sameRange]
  | some r =>
    have lower := keys r.lower
    have upper := keys r.upper
    unfold sameRange
    simp only [bne_self_eq_false, Bool.or_self, Bool.false_eq_true, if_false]
    cases first : sameOptionalKey r.lower r.lower with
    | none => simp
    | some b =>
      cases b
      · exact absurd first lower
      · simpa using upper

theorem overlap_symm {a b : Option KeyRange} (h : overlap a b = some true) :
    overlap b a = some true := by
  cases a with
  | none => cases b <;> rfl
  | some a =>
    cases b with
    | none => rfl
    | some b =>
      simp only [overlap, rangesOverlap] at h ⊢
      cases ab : rangeEndsBefore a b with
      | none => simp [ab] at h
      | some x =>
        cases ba : rangeEndsBefore b a with
        | none =>
          rw [ab, ba] at h
          cases x <;> simp at h
        | some y =>
          rw [ab, ba] at h
          cases x <;> cases y <;> simp_all

section Queues

def own (t : Nat) (requests : List LockRequest) : List LockRequest :=
  requests.filter fun r => r.txnId == t

variable {requests : List LockRequest} {t : Nat} {r : LockRequest} {range : Option KeyRange}
  {c : Cursor} {isTable : Bool}

theorem own_filter {u : Nat} {keep : LockRequest → Bool}
    (kept : ∀ r ∈ requests, r.txnId = u → keep r = true) :
    own u (requests.filter keep) = own u requests := by
  unfold own
  rw [List.filter_filter]
  apply List.filter_congr
  intro r member
  by_cases mine : r.txnId = u
  · simp [mine, kept r member mine]
  · simp [mine]

/-- `r` is the first request of `t` that a call with this range finds. -/
def FirstMatch (t : Nat) (range : Option KeyRange) (requests : List LockRequest)
    (r : LockRequest) : Prop :=
  ∃ before after, own t requests = before ++ r :: after ∧
    sameRange r.range range = some true ∧
    ∀ x ∈ before, sameRange x.range range = some false

theorem FirstMatch.congr {requests' : List LockRequest} (first : FirstMatch t range requests r)
    (same : own t requests' = own t requests) : FirstMatch t range requests' r := by
  unfold FirstMatch
  rw [same]
  exact first

theorem firstMatch_unique {r' : LockRequest} (first : FirstMatch t range requests r)
    (second : FirstMatch t range requests r') : r = r' := by
  obtain ⟨before, after, split, hit, misses⟩ := first
  obtain ⟨before', after', split', hit', misses'⟩ := second
  rw [split] at split'
  rcases List.append_eq_append_iff.mp split' with ⟨middle, left, right⟩ | ⟨middle, left, right⟩
  · cases middle with
    | nil =>
      simp only [List.nil_append, List.cons.injEq] at right
      exact right.1
    | cons head tail =>
      simp only [List.cons_append, List.cons.injEq] at right
      have miss := misses' head (by rw [left]; simp)
      rw [← right.1, hit] at miss
      cases miss
  · cases middle with
    | nil =>
      simp only [List.nil_append, List.cons.injEq] at right
      exact right.1.symm
    | cons head tail =>
      simp only [List.cons_append, List.cons.injEq] at right
      have miss := misses head (by rw [left]; simp)
      rw [← right.1, hit'] at miss
      cases miss

/-- The cursor stands in the queue at the first request of `t` that matches. -/
structure Found (t : Nat) (range : Option KeyRange) (requests : List LockRequest) (c : Cursor) :
    Prop where
  split : requests = c.before ++ c.request :: c.after
  mine : c.request.txnId = t
  hit : sameRange c.request.range range = some true
  misses : ∀ x ∈ c.before, x.txnId = t → sameRange x.range range = some false

private theorem findRequest_found (front : List LockRequest)
    (passed : ∀ x ∈ front, x.txnId = t → sameRange x.range range = some false)
    (found : findRequest t range front requests = some (some c)) :
    Found t range (front ++ requests) c := by
  induction requests generalizing front with
  | nil => simp [findRequest] at found
  | cons r rest ih =>
    have next : findRequest t range (front ++ [r]) rest = some (some c) →
        (r.txnId = t → sameRange r.range range = some false) →
        Found t range (front ++ r :: rest) c := by
      intro later miss
      have shifted := ih (front ++ [r]) ?_ later
      · simpa using shifted
      · intro x member isMine
        rcases mem_append.mp member with old | new
        · exact passed x old isMine
        · rw [mem_singleton.mp new] at isMine ⊢
          exact miss isMine
    unfold findRequest at found
    by_cases mine : r.txnId = t
    · simp only [mine, if_true] at found
      cases same : sameRange r.range range with
      | none => simp [same] at found
      | some b =>
        cases b with
        | true =>
          simp only [same, bind_eq_bind, bind_some, if_true] at found
          cases found
          exact ⟨rfl, mine, same, passed⟩
        | false =>
          simp only [same, bind_eq_bind, bind_some, Bool.false_eq_true,
            if_false] at found
          exact next found fun _ => same
    · simp only [mine, if_false] at found
      exact next found fun isMine => absurd isMine mine

theorem findRequest_some (found : findRequest t range [] requests = some (some c)) :
    Found t range requests c :=
  findRequest_found [] (by simp) found

theorem Found.firstMatch (found : Found t range requests c) :
    FirstMatch t range requests c.request := by
  refine ⟨own t c.before, own t c.after, ?_, found.hit, ?_⟩
  · simp [found.split, own, found.mine]
  · intro x member
    have inBefore := mem_filter.mp member
    exact found.misses x inBefore.1 (by simpa using inBefore.2)

theorem Found.put (found : Found t range requests c) (txn : r.txnId = t)
    (same : r.range = c.request.range) : FirstMatch t range (c.put r) r := by
  have moved : Found t range (c.put r) ⟨c.before, r, c.after⟩ :=
    ⟨rfl, txn, same ▸ found.hit, found.misses⟩
  exact moved.firstMatch

theorem findRequest_none {front : List LockRequest}
    (found : findRequest t range front requests = some none) :
    ∀ r ∈ requests, r.txnId = t → sameRange r.range range = some false := by
  induction requests generalizing front with
  | nil => simp
  | cons r rest ih =>
    unfold findRequest at found
    intro x member mine
    by_cases isMine : r.txnId = t
    · simp only [isMine, if_true] at found
      cases same : sameRange r.range range with
      | none => simp [same] at found
      | some b =>
        cases b with
        | true => simp [same] at found
        | false =>
          simp only [same, bind_eq_bind, bind_some, Bool.false_eq_true,
            if_false] at found
          rcases mem_cons.mp member with rfl | later
          · exact same
          · exact ih found x later mine
    · simp only [isMine, if_false] at found
      rcases mem_cons.mp member with rfl | later
      · exact absurd mine isMine
      · exact ih found x later mine

theorem grantableBefore_true {target : LockRequest}
    (grantable : grantableBefore isTable target requests = some true) :
    ∀ r ∈ requests, r.txnId ≠ target.txnId → overlap r.range target.range = some true →
      r.granted = true ∧ compatible isTable target.mode r.mode = true := by
  rw [grantableBefore_eq, allM_eq_true] at grantable
  intro r member apart overlaps
  simpa [passesBefore, apart, overlaps] using grantable r member

theorem grantableAfter_true {target : LockRequest}
    (grantable : grantableAfter isTable target requests = some true) :
    ∀ r ∈ requests, r.txnId ≠ target.txnId → r.granted = true →
      overlap r.range target.range = some true → compatible isTable target.mode r.mode = true := by
  rw [grantableAfter_eq, allM_eq_true] at grantable
  intro r member apart isGranted overlaps
  simpa [passesAfter, apart, isGranted, overlaps] using grantable r member

theorem canGrantRequest_true (grantable : canGrantRequest isTable c = some true) :
    (∀ r ∈ c.before, r.txnId ≠ c.request.txnId → overlap r.range c.request.range = some true →
      r.granted = true ∧ compatible isTable c.request.mode r.mode = true) ∧
    ∀ r ∈ c.after, r.txnId ≠ c.request.txnId → r.granted = true →
      overlap r.range c.request.range = some true →
      compatible isTable c.request.mode r.mode = true := by
  unfold canGrantRequest at grantable
  cases first : grantableBefore isTable c.request c.before with
  | none => simp [first] at grantable
  | some b =>
    cases b with
    | false => simp [first] at grantable
    | true =>
      simp only [first, bind_eq_bind, bind_some, if_true] at grantable
      exact ⟨grantableBefore_true first, grantableAfter_true grantable⟩

end Queues

section Invariant

def key (r : LockRequest) : Nat × Option KeyRange := (r.txnId, r.range)

/-- A lock was granted through the request with this key, and not released since. -/
def CarriesLock (grants : List Grant) (q : QueueId) (k : Nat × Option KeyRange) : Prop :=
  ∃ g ∈ grants, g.txnId = k.1 ∧ g.queue = q ∧ g.range = k.2

instance (grants : List Grant) (q : QueueId) (k : Nat × Option KeyRange) :
    Decidable (CarriesLock grants q k) :=
  inferInstanceAs (Decidable (∃ g ∈ grants, _))

def IsKeyRange : QueueId → Prop
  | .keyRange _ => True
  | _ => False

/-- What holds of each queue. `earlier`: an overlapping request of another transaction that
stands before one carrying a lock carries one too. -/
structure QueueSound (grants : List Grant) (calls : Nat → Option Call)
    (locks : Nat → QueueId → Option LockMode) (q : QueueId) (queue : LockRequestQueue) :
    Prop where
  live : ∀ g ∈ grants, g.queue = q → ∃ r ∈ queue.requests, r.txnId = g.txnId ∧
    r.range = g.range ∧ Covers q.isTable r.mode g.mode
  carried : ∀ r ∈ queue.requests, r.granted = true → ⟨r.txnId, q, r.range, r.mode⟩ ∈ grants
  upgrading : ∀ r ∈ queue.requests, r.granted = false → CarriesLock grants q (key r) →
    queue.upgradingTxn = some r.txnId ∧ ∃ call, calls r.txnId = some call ∧
      call.phase = .waiting ∧ call.queue = q ∧ FirstMatch r.txnId call.range queue.requests r
  earlier : (queue.requests.map key).Pairwise fun b k => CarriesLock grants q k → b.1 ≠ k.1 →
    overlap b.2 k.2 = some true → CarriesLock grants q b
  nodup : (queue.requests.map key).Nodup
  valid : ∀ r ∈ queue.requests, ValidMode q r.mode
  single : ¬IsKeyRange q → (queue.requests.map LockRequest.txnId).Nodup
  recorded : ¬IsKeyRange q → ∀ r ∈ queue.requests, r.granted = true →
    locks r.txnId q = some r.mode
  prepared : ¬IsKeyRange q → ∀ r ∈ queue.requests, r.granted = true → ∀ call held,
    calls r.txnId = some call → call.queue = q → call.phase = .prepared held → held = some r.mode

variable {r : LockRequest} {q : QueueId} {grants : List Grant}
  {locks : Nat → QueueId → Option LockMode} {queue : LockRequestQueue} {t : Nat} {s : LockState}
  {c : Cursor} {call : Call} {k : Nat × Option KeyRange}

theorem QueueSound.carries {calls : Nat → Option Call}
    (sound : QueueSound grants calls locks q queue) (member : r ∈ queue.requests)
    (granted : r.granted = true) : CarriesLock grants q (key r) :=
  ⟨_, sound.carried r member granted, rfl, rfl, rfl⟩

structure Inv (s : LockState) : Prop where
  queues : ∀ q, QueueSound s.grants s.calls s.locks q (s.queues q)
  compatible : ∀ g ∈ s.grants, ∀ g' ∈ s.grants, g.txnId ≠ g'.txnId → g.queue = g'.queue →
    overlap g.range g'.range = some true →
    LockManager.compatible g.queue.isTable g.mode g'.mode = true
  calls : ∀ t call, s.calls t = some call → validCall call.queue call.range call.mode = true

private theorem Inv.no_upgrade (inv : Inv s)
    (idle : ∀ call, s.calls t = some call → call.phase ≠ .waiting)
    (member : r ∈ (s.queues q).requests) (mine : r.txnId = t) (ungranted : r.granted = false) :
    ¬CarriesLock s.grants q (key r) := by
  intro carries
  obtain ⟨_, call, calls, waiting, _⟩ := (inv.queues q).upgrading r member ungranted carries
  exact idle call (mine ▸ calls) waiting

private theorem Inv.setCall (inv : Inv s) {call' : Option Call}
    (stranded : ∀ q, ∀ r ∈ (s.queues q).requests, r.txnId = t → r.granted = false → ¬CarriesLock
      s.grants q (key r))
    (valid : ∀ call, call' = some call → validCall call.queue call.range call.mode = true)
    (prepared : ∀ call held, call' = some call → call.phase = .prepared held → ¬IsKeyRange
      call.queue → ∀ r ∈ (s.queues call.queue).requests, r.txnId = t → r.granted = true → held =
      some r.mode) :
    Inv (s.setCall t call') := by
  constructor
  · intro q
    have sound := inv.queues q
    refine ⟨sound.live, sound.carried, ?_, sound.earlier, sound.nodup, sound.valid, sound.single,
      sound.recorded, ?_⟩
    · intro r member ungranted carries
      by_cases mine : r.txnId = t
      · exact absurd carries (stranded q r member mine ungranted)
      · obtain ⟨upgrading, call, calls, rest⟩ := sound.upgrading r member ungranted carries
        exact ⟨upgrading, call, by rw [setCall_calls_of_ne s _ mine]; exact calls, rest⟩
    · intro notRange r member granted call held calls atQueue phase
      by_cases mine : r.txnId = t
      · subst atQueue
        rw [mine, setCall_calls_self] at calls
        exact prepared call held calls phase notRange r member mine granted
      · rw [setCall_calls_of_ne s _ mine] at calls
        exact sound.prepared notRange r member granted call held calls atQueue phase
  · exact inv.compatible
  · intro u call calls
    by_cases mine : u = t
    · subst mine
      rw [setCall_calls_self] at calls
      exact valid call calls
    · rw [setCall_calls_of_ne s _ mine] at calls
      exact inv.calls u call calls

private theorem Inv.setTxnState (inv : Inv s) (t : Nat) (state : TransactionState) :
    Inv (s.setTxnState t state) :=
  ⟨inv.queues, inv.compatible, inv.calls⟩

private theorem map_key_put (c : Cursor) (same : key r = key c.request) :
    (c.put r).map key = (c.before ++ c.request :: c.after).map key := by
  simp [Cursor.put, same]

theorem map_txnId_put (c : Cursor) (same : r.txnId = c.request.txnId) :
    (c.put r).map LockRequest.txnId =
      (c.before ++ c.request :: c.after).map LockRequest.txnId := by
  simp [Cursor.put, same]

theorem own_put (c : Cursor) {u : Nat} (other : c.request.txnId ≠ u)
    (same : r.txnId = c.request.txnId) :
    own u (c.put r) = own u (c.before ++ c.request :: c.after) := by
  simp [own, Cursor.put, same, other]

theorem mem_put {x : LockRequest} : x ∈ c.put r ↔ x ∈ c.before ∨ x = r ∨ x ∈ c.after := by
  simp [Cursor.put]

private theorem other_of_mem {x : LockRequest}
    (nodup : ((c.before ++ c.request :: c.after).map key).Nodup)
    (member : x ∈ c.before ∨ x ∈ c.after) : key x ≠ key c.request := by
  intro same
  simp only [map_append, map_cons] at nodup
  have parts := nodup_append.mp nodup
  rcases member with early | late
  · exact parts.2.2 (key x) (mem_map_of_mem early) (key c.request) mem_cons_self same
  · exact (List.nodup_cons.mp parts.2.1).1 (same ▸ mem_map_of_mem late)

private theorem QueueSound.shrink {calls : Nat → Option Call} {queue' : LockRequestQueue}
    (sound : QueueSound grants calls locks q queue) (sub : queue'.requests.Sublist queue.requests)
    (lost : ∀ r ∈ queue.requests, r ∈ queue'.requests ∨ ¬CarriesLock grants q (key r))
    (kept : ∀ r ∈ queue'.requests, r.granted = false → CarriesLock grants q (key r) →
      queue.upgradingTxn = some r.txnId → queue'.upgradingTxn = some r.txnId ∧ own r.txnId
      queue'.requests = own r.txnId queue.requests) :
    QueueSound grants calls locks q queue' := by
  refine ⟨?_, fun r member => sound.carried r (sub.subset member), ?_,
    sound.earlier.sublist (sub.map key), sound.nodup.sublist (sub.map key),
    fun r member => sound.valid r (sub.subset member),
    fun notRange => (sound.single notRange).sublist (sub.map _),
    fun notRange r member => sound.recorded notRange r (sub.subset member),
    fun notRange r member => sound.prepared notRange r (sub.subset member)⟩
  · intro g member atQueue
    obtain ⟨r, inQueue, txn, range, covers⟩ := sound.live g member atQueue
    rcases lost r inQueue with inRest | free
    · exact ⟨r, inRest, txn, range, covers⟩
    · exact absurd ⟨g, member, txn.symm, atQueue, range.symm⟩ free
  · intro r member ungranted carries
    obtain ⟨upgrading, other, calls, waiting, atQueue, first⟩ :=
      sound.upgrading r (sub.subset member) ungranted carries
    obtain ⟨upgrading', same⟩ := kept r member ungranted carries upgrading
    exact ⟨upgrading', other, calls, waiting, atQueue, first.congr same⟩

private theorem Inv.eraseRequest (inv : Inv s)
    (found : Found t call.range (s.queues call.queue).requests c)
    (stranded : ∀ r ∈ (s.queues call.queue).requests, r.txnId = t → r.granted = false →
      ¬CarriesLock s.grants call.queue (key r))
    (erased : ¬CarriesLock s.grants call.queue (key c.request)) :
    Inv (s.setQueue call.queue
      ⟨c.erase, resetUpgrading (s.queues call.queue).upgradingTxn t⟩) := by
  refine ⟨fun q => ?_, inv.compatible, inv.calls⟩
  by_cases here : q = call.queue
  swap
  · rw [setQueue_queues_of_ne s _ here]
    exact inv.queues q
  · subst here
    rw [setQueue_queues_self]
    have sub : c.erase.Sublist (s.queues call.queue).requests := by
      rw [found.split]
      exact (List.Sublist.refl _).append (List.sublist_cons_self _ _)
    apply (inv.queues call.queue).shrink sub
    · intro r inQueue
      rw [found.split] at inQueue
      rcases mem_append.mp inQueue with early | late
      · exact .inl (mem_append_left _ early)
      · rcases mem_cons.mp late with rfl | later
        · exact .inr erased
        · exact .inl (List.mem_append_right _ later)
    · intro r member ungranted carries upgrading
      have mine : r.txnId ≠ t := fun mine =>
        stranded r (sub.subset member) mine ungranted carries
      constructor
      · rw [upgrading, resetUpgrading, if_neg (by simpa using mine)]
      · have apart : c.request.txnId ≠ r.txnId := by
          rw [found.mine]
          exact mine.symm
        simp [own, found.split, Cursor.erase, apart]

private theorem Inv.abortVictim (inv : Inv s)
    (stranded : ∀ q, ∀ r ∈ (s.queues q).requests, r.txnId = t → r.granted = false → ¬CarriesLock
      s.grants q (key r)) :
    Inv (abortVictim s t) := by
  unfold LockManager.abortVictim
  split
  · exact inv
  refine ⟨fun q => ?_, inv.compatible, inv.calls⟩
  apply (inv.queues q).shrink List.filter_sublist
  · intro r member
    by_cases removed : r.txnId = t ∧ r.granted = false
    · exact .inr (stranded q r member removed.1 removed.2)
    · refine .inl (mem_filter.mpr ⟨member, ?_⟩)
      by_cases mine : r.txnId = t
      · simpa [mine] using removed
      · simp [mine]
  · intro r member ungranted carries upgrading
    have apart : r.txnId ≠ t := fun mine =>
      stranded q r (List.mem_of_mem_filter member) mine ungranted carries
    constructor
    · show resetUpgrading (s.queues q).upgradingTxn t = some r.txnId
      rw [upgrading, resetUpgrading, if_neg (by simpa using apart)]
    · apply own_filter
      intro x _ same
      simp [same, apart]

private theorem carriesLock_filter :
    CarriesLock (grants.filter fun g => g.txnId != t) q k ↔
      k.1 ≠ t ∧ CarriesLock grants q k := by
  unfold CarriesLock
  constructor
  · rintro ⟨g, member, txn, rest⟩
    obtain ⟨inGrants, apart⟩ := mem_filter.mp member
    exact ⟨by rw [← txn]; simpa using apart, g, inGrants, txn, rest⟩
  · rintro ⟨apart, g, member, txn, rest⟩
    exact ⟨g, mem_filter.mpr ⟨member, by simpa [txn] using apart⟩, txn, rest⟩

private theorem Inv.releaseAll (inv : Inv s) (t : Nat) : Inv (releaseAll s t) := by
  have others {r : LockRequest} {requests : List LockRequest}
      (member : r ∈ requests.filter fun r => r.txnId != t) : r ∈ requests ∧ r.txnId ≠ t := by
    obtain ⟨inQueue, apart⟩ := mem_filter.mp member
    exact ⟨inQueue, by simpa using apart⟩
  refine ⟨fun q => ?_, ?_, inv.calls⟩
  · have sound := inv.queues q
    have sub : ((s.queues q).requests.filter fun r => r.txnId != t).Sublist
        (s.queues q).requests := List.filter_sublist
    refine ⟨?_, ?_, ?_, ?_, sound.nodup.sublist (sub.map key),
      fun r member => sound.valid r (others member).1,
      fun notRange => (sound.single notRange).sublist (sub.map _), ?_,
      fun notRange r member => sound.prepared notRange r (others member).1⟩
    · intro g member atQueue
      obtain ⟨inGrants, apart⟩ := mem_filter.mp member
      obtain ⟨r, inQueue, txn, rest⟩ := sound.live g inGrants atQueue
      exact ⟨r, mem_filter.mpr ⟨inQueue, by rw [txn]; exact apart⟩, txn, rest⟩
    · intro r member granted
      obtain ⟨inQueue, apart⟩ := others member
      exact mem_filter.mpr ⟨sound.carried r inQueue granted, by simpa using apart⟩
    · intro r member ungranted carries
      obtain ⟨inQueue, apart⟩ := others member
      obtain ⟨upgrading, call, calls, waiting, atQueue, first⟩ :=
        sound.upgrading r inQueue ungranted (carriesLock_filter.mp carries).2
      refine ⟨?_, call, calls, waiting, atQueue, first.congr ?_⟩
      · show resetUpgrading (s.queues q).upgradingTxn t = some r.txnId
        rw [upgrading, resetUpgrading, if_neg (by simpa using apart)]
      · apply own_filter
        intro x _ same
        simp [same, apart]
    · apply (sound.earlier.sublist (sub.map key)).imp_of_mem
      intro b k before _ order carries apart overlaps
      obtain ⟨r, member, rfl⟩ := mem_map.mp before
      exact carriesLock_filter.mpr ⟨(others member).2,
        order (carriesLock_filter.mp carries).2 apart overlaps⟩
    · intro notRange r member granted
      obtain ⟨inQueue, apart⟩ := others member
      show Function.update s.locks t (fun _ => none) r.txnId q = some r.mode
      rw [update_of_ne apart]
      exact sound.recorded notRange r inQueue granted
  · intro g member g' member'
    exact inv.compatible g (List.mem_of_mem_filter member) g' (List.mem_of_mem_filter member')

private theorem Inv.fits (inv : Inv s)
    (split : (s.queues q).requests = c.before ++ c.request :: c.after)
    (grantable : canGrantRequest q.isTable c = some true) {g : Grant} (member : g ∈ s.grants)
    (apart : g.txnId ≠ c.request.txnId) (atQueue : g.queue = q)
    (overlaps : overlap g.range c.request.range = some true) :
    LockManager.compatible q.isTable c.request.mode g.mode = true := by
  have sound := inv.queues q
  obtain ⟨checkBefore, checkAfter⟩ := canGrantRequest_true grantable
  obtain ⟨r, inRequests, txn, range, covers⟩ := sound.live g member atQueue
  have inQueue : c.request ∈ (s.queues q).requests := by
    rw [split]
    simp
  have other : r.txnId ≠ c.request.txnId := txn ▸ apart
  have shared : overlap r.range c.request.range = some true := range ▸ overlaps
  have place := inRequests
  rw [split] at place
  rcases mem_append.mp place with early | late
  · exact covers _ (checkBefore r early other shared).2
  · rcases mem_cons.mp late with rfl | later
    · exact absurd rfl other
    · cases granted : r.granted with
      | true => exact covers _ (checkAfter r later other granted shared)
      | false =>
        -- A later upgrade: the request under the cursor carries a lock as well.
        have carries : CarriesLock s.grants q (key r) :=
          ⟨g, member, txn.symm, atQueue, range.symm⟩
        have order := sound.earlier
        rw [split, map_append, map_cons, List.pairwise_append] at order
        have carried := (List.pairwise_cons.mp order.2.1).1 (key r)
          (mem_map_of_mem later) carries other.symm (overlap_symm shared)
        have upgrade := (sound.upgrading r inRequests granted carries).1
        cases held : c.request.granted with
        | false =>
          have upgrade' := (sound.upgrading c.request inQueue held carried).1
          rw [upgrade] at upgrade'
          exact absurd (Option.some.inj upgrade') other
        | true =>
          have pair := inv.compatible _ (sound.carried c.request inQueue held) g member
            apart.symm atQueue.symm (overlap_symm overlaps)
          exact pair

private theorem carriesLock_cons {g : Grant} :
    CarriesLock (g :: grants) q k ↔
      (g.queue = q ∧ k = (g.txnId, g.range)) ∨ CarriesLock grants q k := by
  unfold CarriesLock
  constructor
  · rintro ⟨x, member, txn, queue, range⟩
    rcases mem_cons.mp member with rfl | old
    · exact .inl ⟨queue, Prod.ext txn.symm range.symm⟩
    · exact .inr ⟨x, old, txn, queue, range⟩
  · rintro (⟨queue, rfl⟩ | ⟨x, member, rest⟩)
    · exact ⟨g, mem_cons_self, rfl, queue, rfl⟩
    · exact ⟨x, mem_cons_of_mem _ member, rest⟩

private theorem earlier_grant (inv : Inv s)
    (split : (s.queues q).requests = c.before ++ c.request :: c.after)
    (grantable : canGrantRequest q.isTable c = some true) (mode : LockMode) :
    ((c.before ++ c.request :: c.after).map key).Pairwise fun b k =>
      CarriesLock (⟨c.request.txnId, q, c.request.range, mode⟩ :: s.grants) q k → b.1 ≠ k.1 →
      overlap b.2 k.2 = some true →
      CarriesLock (⟨c.request.txnId, q, c.request.range, mode⟩ :: s.grants) q b := by
  have sound := inv.queues q
  have order := sound.earlier
  have nodup := sound.nodup
  obtain ⟨checkBefore, _⟩ := canGrantRequest_true grantable
  rw [split] at order nodup
  rw [map_append, map_cons] at order nodup ⊢
  have parts := nodup_append.mp nodup
  have lift {b k : Nat × Option KeyRange} (other : k ≠ key c.request)
      (old : CarriesLock s.grants q k → b.1 ≠ k.1 → overlap b.2 k.2 = some true →
        CarriesLock s.grants q b)
      (carries : CarriesLock (⟨c.request.txnId, q, c.request.range, mode⟩ :: s.grants) q k)
      (apart : b.1 ≠ k.1) (overlaps : overlap b.2 k.2 = some true) :
      CarriesLock (⟨c.request.txnId, q, c.request.range, mode⟩ :: s.grants) q b := by
    rcases carriesLock_cons.mp carries with ⟨_, same⟩ | carried
    · exact absurd same other
    · exact carriesLock_cons.mpr (.inr (old carried apart overlaps))
  obtain ⟨front, back, across⟩ := List.pairwise_append.mp order
  obtain ⟨first, rest⟩ := List.pairwise_cons.mp back
  have notBefore {k} (member : k ∈ c.before.map key) : k ≠ key c.request :=
    parts.2.2 k member (key c.request) mem_cons_self
  have notAfter {k} (member : k ∈ c.after.map key) : k ≠ key c.request := fun same =>
    (List.nodup_cons.mp parts.2.1).1 (same ▸ member)
  refine List.pairwise_append.mpr ⟨?_, List.pairwise_cons.mpr ⟨?_, ?_⟩, ?_⟩
  · exact front.imp_of_mem fun _ inBefore old => lift (notBefore inBefore) old
  · exact fun k inAfter => lift (notAfter inAfter) (first k inAfter)
  · exact rest.imp_of_mem fun _ inAfter old => lift (notAfter inAfter) old
  · intro b inBefore k inBack
    rcases mem_cons.mp inBack with rfl | inAfter
    · intro _ apart overlaps
      obtain ⟨r, early, rfl⟩ := mem_map.mp inBefore
      have granted := (checkBefore r early apart overlaps).1
      have member : r ∈ (s.queues q).requests := by
        rw [split]
        exact mem_append_left _ early
      exact carriesLock_cons.mpr (.inr (sound.carries member granted))
    · exact lift (notAfter inAfter) (across b inBefore k inBack)

private theorem Inv.grant {s : LockState} (inv : Inv s) {t : Nat} {call : Call}
    (calls : s.calls t = some call) {c : Cursor}
    (found : Found t call.range (s.queues call.queue).requests c)
    (grantable : canGrantRequest call.queue.isTable c = some true) :
    Inv (grantRequest s t call c) := by
  have split := found.split
  have mine := found.mine
  have grantsEq : (grantRequest s t call c).grants =
      ⟨c.request.txnId, call.queue, c.request.range, c.request.mode⟩ :: s.grants := by
    simp only [grantRequest, mine]
  have callsSelf : (grantRequest s t call c).calls t = none := update_self _ _ _
  have callsOther {u : Nat} (apart : u ≠ t) : (grantRequest s t call c).calls u = s.calls u :=
    update_of_ne apart _ _
  have locksOther {u : Nat} {q : QueueId} (apart : u ≠ t ∨ q ≠ call.queue) :
      (grantRequest s t call c).locks u q = s.locks u q := by
    cases queue : call.queue with
    | keyRange _ => simp only [grantRequest, queue]
    | table _ | record _ =>
      simp only [grantRequest, queue]
      by_cases same : u = t
      · subst same
        rw [update_self]
        exact update_of_ne (queue ▸ apart.resolve_left (by simp)) _ _
      · rw [update_of_ne same]
  have locksSelf (notRange : ¬IsKeyRange call.queue) :
      (grantRequest s t call c).locks t call.queue = some c.request.mode := by
    cases queue : call.queue with
    | keyRange _ =>
      rw [queue] at notRange
      exact absurd trivial notRange
    | table _ | record _ => simp [grantRequest, queue]
  refine ⟨fun q => ?_, ?_, ?_⟩
  · rw [grantsEq]
    by_cases here : q = call.queue
    swap
    · have queueEq : (grantRequest s t call c).queues q = s.queues q :=
        update_of_ne here _ _
      rw [queueEq]
      have sound := inv.queues q
      have old {k : Nat × Option KeyRange}
          (carries : CarriesLock
            (⟨c.request.txnId, call.queue, c.request.range, c.request.mode⟩ :: s.grants) q k) :
          CarriesLock s.grants q k := by
        rcases carriesLock_cons.mp carries with ⟨same, _⟩ | old
        · exact absurd same.symm here
        · exact old
      refine ⟨?_, ?_, ?_, ?_, sound.nodup, sound.valid, sound.single, ?_, ?_⟩
      · intro g member atQueue
        rcases mem_cons.mp member with rfl | old
        · exact absurd atQueue.symm here
        · exact sound.live g old atQueue
      · exact fun r member granted => mem_cons_of_mem _ (sound.carried r member granted)
      · intro r member ungranted carries
        obtain ⟨upgrading, other, otherCall, phase, atQueue, first⟩ :=
          sound.upgrading r member ungranted (old carries)
        have apart : r.txnId ≠ t := by
          intro same
          rw [same, calls] at otherCall
          cases otherCall
          exact here atQueue.symm
        exact ⟨upgrading, other, by rw [callsOther apart]; exact otherCall, phase, atQueue, first⟩
      · exact sound.earlier.imp fun order carries apart overlaps =>
          carriesLock_cons.mpr (.inr (order (old carries) apart overlaps))
      · intro notRange r member granted
        rw [locksOther (.inr here)]
        exact sound.recorded notRange r member granted
      · intro notRange r member granted other held otherCall atQueue phase
        by_cases same : r.txnId = t
        · rw [same, callsSelf] at otherCall
          cases otherCall
        · rw [callsOther same] at otherCall
          exact sound.prepared notRange r member granted other held otherCall atQueue phase
    · subst here
      have queueEq : (grantRequest s t call c).queues call.queue =
          ⟨c.put { c.request with granted := true },
            resetUpgrading (s.queues call.queue).upgradingTxn t⟩ := update_self _ _ _
      rw [queueEq]
      have sound := inv.queues call.queue
      have nodup := sound.nodup
      rw [split] at nodup
      have inOld {x : LockRequest} (member : x ∈ c.before ∨ x ∈ c.after) :
          x ∈ (s.queues call.queue).requests := by
        rw [split]
        rcases member with early | late
        · exact mem_append_left _ early
        · exact List.mem_append_right _ (mem_cons_of_mem _ late)
      have places {x : LockRequest}
          (member : x ∈ c.put { c.request with granted := true }) :
          x = { c.request with granted := true } ∨ x ∈ c.before ∨ x ∈ c.after := by
        rcases mem_put.mp member with early | same | late
        · exact .inr (.inl early)
        · exact .inl same
        · exact .inr (.inr late)
      have inQueue : c.request ∈ (s.queues call.queue).requests := by
        rw [split]
        simp
      have sameKey : key { c.request with granted := true } = key c.request := rfl
      have sameTxn : ({ c.request with granted := true } : LockRequest).txnId =
          c.request.txnId := rfl
      refine ⟨?_, ?_, ?_, ?_, ?_, ?_, ?_, ?_, ?_⟩
      · intro g member atQueue
        rcases mem_cons.mp member with rfl | old
        · exact ⟨_, mem_put.mpr (.inr (.inl rfl)), rfl, rfl, covers_refl _ _⟩
        · obtain ⟨r, inRequests, rest⟩ := sound.live g old atQueue
          rw [split] at inRequests
          rcases mem_append.mp inRequests with early | late
          · exact ⟨r, mem_put.mpr (.inl early), rest⟩
          · rcases mem_cons.mp late with rfl | later
            · exact ⟨_, mem_put.mpr (.inr (.inl rfl)), rest⟩
            · exact ⟨r, mem_put.mpr (.inr (.inr later)), rest⟩
      · intro r member granted
        rcases places member with rfl | other
        · exact mem_cons_self
        · exact mem_cons_of_mem _ (sound.carried r (inOld other) granted)
      · intro r member ungranted carries
        rcases places member with rfl | other
        · cases ungranted
        have notSame := other_of_mem nodup other
        rcases carriesLock_cons.mp carries with ⟨_, same⟩ | carried
        · exact absurd same notSame
        obtain ⟨upgrading, otherCall, hasCall, phase, atQueue, first⟩ :=
          sound.upgrading r (inOld other) ungranted carried
        have apart : r.txnId ≠ t := by
          intro same
          rw [same] at hasCall first
          rw [calls] at hasCall
          cases hasCall
          exact notSame (congrArg key (firstMatch_unique first found.firstMatch))
        refine ⟨?_, otherCall, by rw [callsOther apart]; exact hasCall, phase, atQueue,
          first.congr ?_⟩
        · rw [upgrading, resetUpgrading, if_neg (by simpa using apart)]
        · rw [own_put c (mine ▸ apart.symm) sameTxn, ← split]
      · rw [map_key_put c sameKey]
        exact earlier_grant inv split grantable c.request.mode
      · rw [map_key_put c sameKey]
        exact nodup
      · intro r member
        rcases places member with rfl | other
        · exact sound.valid c.request inQueue
        · exact sound.valid r (inOld other)
      · intro notRange
        rw [map_txnId_put c sameTxn, ← split]
        exact sound.single notRange
      · intro notRange r member granted
        rcases places member with rfl | other
        · rw [mine]
          exact locksSelf notRange
        · have apart : r.txnId ≠ t := by
            have single := sound.single notRange
            rw [split, map_append, map_cons] at single
            have parts := nodup_append.mp single
            intro same
            rw [← mine] at same
            rcases other with early | late
            · exact parts.2.2 _ (mem_map_of_mem early) _ mem_cons_self same
            · exact (List.nodup_cons.mp parts.2.1).1 (same ▸ mem_map_of_mem late)
          rw [locksOther (.inl apart)]
          exact sound.recorded notRange r (inOld other) granted
      · intro notRange r member granted other held hasCall atQueue phase
        by_cases same : r.txnId = t
        · rw [same, callsSelf] at hasCall
          cases hasCall
        · rw [callsOther same] at hasCall
          rcases places member with rfl | inPlace
          · exact absurd mine same
          · exact sound.prepared notRange r (inOld inPlace) granted other held hasCall atQueue phase
  · rw [grantsEq]
    intro g member g' member' apart atQueue overlaps
    rcases mem_cons.mp member with rfl | old
    · rcases mem_cons.mp member' with rfl | old'
      · exact absurd rfl apart
      · exact inv.fits split grantable old' apart.symm atQueue.symm (overlap_symm overlaps)
    · rcases mem_cons.mp member' with rfl | old'
      · rw [compatible_symm, atQueue]
        exact inv.fits split grantable old apart atQueue overlaps
      · exact inv.compatible g old g' old' apart atQueue overlaps
  · intro u other hasCall
    by_cases same : u = t
    · rw [same, callsSelf] at hasCall
      cases hasCall
    · rw [callsOther same] at hasCall
      exact inv.calls u other hasCall

private theorem QueueSound.startWait (sound : QueueSound s.grants s.calls s.locks q queue)
    (stranded : ∀ r ∈ queue.requests, r.txnId = t → r.granted = false → ¬CarriesLock s.grants q
      (key r))
    (waiting : call.phase = .waiting) :
    QueueSound s.grants (s.setCall t (some call)).calls s.locks q queue := by
  refine ⟨sound.live, sound.carried, ?_, sound.earlier, sound.nodup, sound.valid, sound.single,
    sound.recorded, ?_⟩
  · intro r member ungranted carries
    have apart : r.txnId ≠ t := fun mine => stranded r member mine ungranted carries
    obtain ⟨upgrading, other, hasCall, rest⟩ := sound.upgrading r member ungranted carries
    exact ⟨upgrading, other, (setCall_calls_of_ne _ _ apart).trans hasCall, rest⟩
  · intro notRange r member granted other held hasCall atQueue phase
    by_cases mine : r.txnId = t
    · rw [mine, setCall_calls_self] at hasCall
      cases hasCall
      rw [waiting] at phase
      cases phase
    · rw [setCall_calls_of_ne _ _ mine] at hasCall
      exact sound.prepared notRange r member granted other held hasCall atQueue phase

private theorem Inv.retarget (inv : Inv s) (calls : s.calls t = some call)
    (idle : call.phase ≠ .waiting) (found : Found t call.range (s.queues call.queue).requests c)
    (sameKey : key r = key c.request) (valid : ValidMode call.queue r.mode)
    (covers : c.request.granted = true → Covers call.queue.isTable r.mode c.request.mode)
    (held : r.granted = true → c.request.granted = true ∧ r.mode = c.request.mode)
    {upgrading' : Option Nat}
    (others : ∀ u, u ≠ t → (s.queues call.queue).upgradingTxn = some u → upgrading' = some u)
    (upgrade : r.granted = false → c.request.granted = true → upgrading' = some t) :
    Inv ((s.setQueue call.queue ⟨c.put r, upgrading'⟩).setCall t
      (some { call with phase := .waiting })) := by
  have split := found.split
  have mine := found.mine
  have txn : r.txnId = c.request.txnId := congrArg Prod.fst sameKey
  have range : r.range = c.request.range := congrArg Prod.snd sameKey
  have stranded {q : QueueId} : ∀ x ∈ (s.queues q).requests, x.txnId = t → x.granted = false →
      ¬CarriesLock s.grants q (key x) := fun x member own =>
    inv.no_upgrade (fun other hasCall => by rw [calls] at hasCall; cases hasCall; exact idle)
      member own
  have inQueue : c.request ∈ (s.queues call.queue).requests := by
    rw [split]
    simp
  refine ⟨fun q => ?_, inv.compatible, ?_⟩
  swap
  · intro u other hasCall
    by_cases same : u = t
    · rw [same, setCall_calls_self] at hasCall
      cases hasCall
      exact inv.calls t call calls
    · rw [setCall_calls_of_ne _ _ same] at hasCall
      exact inv.calls u other hasCall
  by_cases here : q = call.queue
  swap
  · show QueueSound s.grants _ s.locks q ((s.setQueue call.queue ⟨c.put r, upgrading'⟩).queues q)
    rw [setQueue_queues_of_ne s _ here]
    exact (inv.queues q).startWait stranded rfl
  subst here
  show QueueSound s.grants _ s.locks call.queue
    ((s.setQueue call.queue ⟨c.put r, upgrading'⟩).queues call.queue)
  rw [setQueue_queues_self]
  have sound := inv.queues call.queue
  have nodup := sound.nodup
  rw [split] at nodup
  have inOld {x : LockRequest} (member : x ∈ c.before ∨ x ∈ c.after) :
      x ∈ (s.queues call.queue).requests := by
    rw [split]
    rcases member with early | late
    · exact mem_append_left _ early
    · exact List.mem_append_right _ (mem_cons_of_mem _ late)
  have places {x : LockRequest} (member : x ∈ c.put r) : x = r ∨ x ∈ c.before ∨ x ∈ c.after := by
    rcases mem_put.mp member with early | same | late
    · exact .inr (.inl early)
    · exact .inl same
    · exact .inr (.inr late)
  refine ⟨?_, ?_, ?_, ?_, ?_, ?_, ?_, ?_, ?_⟩
  · intro g member atQueue
    obtain ⟨x, inRequests, gTxn, gRange, covers'⟩ := sound.live g member atQueue
    rw [split] at inRequests
    rcases mem_append.mp inRequests with early | late
    · exact ⟨x, mem_put.mpr (.inl early), gTxn, gRange, covers'⟩
    · rcases mem_cons.mp late with rfl | later
      · have granted : c.request.granted = true := by
          cases granted : c.request.granted with
          | true => rfl
          | false =>
            exact absurd ⟨g, member, gTxn.symm, atQueue, gRange.symm⟩
              (stranded _ inQueue mine granted)
        exact ⟨r, mem_put.mpr (.inr (.inl rfl)), txn.trans gTxn, range.trans gRange,
          (covers granted).trans covers'⟩
      · exact ⟨x, mem_put.mpr (.inr (.inr later)), gTxn, gRange, covers'⟩
  · intro x member granted
    rcases places member with rfl | other
    · obtain ⟨was, mode⟩ := held granted
      rw [txn, range, mode]
      exact sound.carried c.request inQueue was
    · exact sound.carried x (inOld other) granted
  · intro x member ungranted carries
    rcases places member with rfl | other
    · rw [sameKey] at carries
      have granted : c.request.granted = true := by
        cases granted : c.request.granted with
        | true => rfl
        | false => exact absurd carries (stranded _ inQueue mine granted)
      refine ⟨(upgrade ungranted granted).trans (by rw [txn, mine]),
        { call with phase := .waiting }, ?_, rfl, rfl, ?_⟩
      · rw [txn, mine]
        exact setCall_calls_self _ _ _
      · rw [txn, mine]
        exact found.put (txn.trans mine) range
    · have apart : x.txnId ≠ t := fun own => stranded x (inOld other) own ungranted carries
      obtain ⟨upgrading, otherCall, hasCall, phase, atQueue, first⟩ :=
        sound.upgrading x (inOld other) ungranted carries
      refine ⟨others _ apart upgrading, otherCall, (setCall_calls_of_ne _ _ apart).trans hasCall,
        phase, atQueue, first.congr ?_⟩
      show own x.txnId (c.put r) = _
      rw [own_put c (mine ▸ apart.symm) txn, ← split]
  · show ((c.put r).map key).Pairwise _
    rw [map_key_put c sameKey, ← split]
    exact sound.earlier
  · show ((c.put r).map key).Nodup
    rw [map_key_put c sameKey]
    exact nodup
  · intro x member
    rcases places member with rfl | other
    · exact valid
    · exact sound.valid x (inOld other)
  · intro notRange
    show ((c.put r).map LockRequest.txnId).Nodup
    rw [map_txnId_put c txn, ← split]
    exact sound.single notRange
  · intro notRange x member granted
    rcases places member with rfl | other
    · obtain ⟨was, mode⟩ := held granted
      rw [txn, mode]
      exact sound.recorded notRange c.request inQueue was
    · exact sound.recorded notRange x (inOld other) granted
  · intro notRange x member granted other held' hasCall atQueue phase
    by_cases same : x.txnId = t
    · rw [same, setCall_calls_self] at hasCall
      cases hasCall
      cases phase
    · rw [setCall_calls_of_ne _ _ same] at hasCall
      rcases places member with rfl | inPlace
      · exact absurd (txn.trans mine) same
      · exact sound.prepared notRange x (inOld inPlace) granted other held' hasCall atQueue phase

private theorem Inv.push {s : LockState} (inv : Inv s) {t : Nat} {call : Call}
    (calls : s.calls t = some call) (idle : call.phase ≠ .waiting)
    (absent : findRequest t call.range [] (s.queues call.queue).requests = some none)
    {mode : LockMode} (valid : ValidMode call.queue mode) :
    Inv ((s.setQueue call.queue
        ⟨(s.queues call.queue).requests ++ [⟨t, mode, false, call.range⟩],
          (s.queues call.queue).upgradingTxn⟩).setCall t
      (some { call with phase := .waiting })) := by
  have misses := findRequest_none absent
  have fresh : ∀ x ∈ (s.queues call.queue).requests, key x ≠ (t, call.range) := by
    intro x member same
    have mine : x.txnId = t := congrArg Prod.fst same
    have range : x.range = call.range := congrArg Prod.snd same
    have miss := misses x member mine
    rw [range] at miss
    exact sameRange_self call.range miss
  have free : ¬CarriesLock s.grants call.queue (t, call.range) := by
    rintro ⟨g, member, txn, atQueue, range⟩
    obtain ⟨x, inQueue, txn', range', _⟩ := (inv.queues call.queue).live g member atQueue
    exact fresh x inQueue (Prod.ext (txn'.trans txn) (range'.trans range))
  have stranded {q : QueueId} : ∀ x ∈ (s.queues q).requests, x.txnId = t → x.granted = false →
      ¬CarriesLock s.grants q (key x) := fun x member own =>
    inv.no_upgrade (fun other hasCall => by rw [calls] at hasCall; cases hasCall; exact idle)
      member own
  have validRange := inv.calls t call calls
  refine ⟨fun q => ?_, inv.compatible, ?_⟩
  swap
  · intro u other hasCall
    by_cases same : u = t
    · rw [same, setCall_calls_self] at hasCall
      cases hasCall
      exact validRange
    · rw [setCall_calls_of_ne _ _ same] at hasCall
      exact inv.calls u other hasCall
  have sound := inv.queues q
  by_cases here : q = call.queue
  swap
  · show QueueSound s.grants _ s.locks q ((s.setQueue call.queue _).queues q)
    rw [setQueue_queues_of_ne s _ here]
    exact sound.startWait stranded rfl
  subst here
  show QueueSound s.grants _ s.locks call.queue ((s.setQueue call.queue _).queues call.queue)
  rw [setQueue_queues_self]
  have places {x : LockRequest}
      (member : x ∈ (s.queues call.queue).requests ++ [⟨t, mode, false, call.range⟩]) :
      x ∈ (s.queues call.queue).requests ∨ x = ⟨t, mode, false, call.range⟩ := by
    simpa using member
  refine ⟨?_, ?_, ?_, ?_, ?_, ?_, ?_, ?_, ?_⟩
  · intro g member atQueue
    obtain ⟨x, inQueue, rest⟩ := sound.live g member atQueue
    exact ⟨x, mem_append_left _ inQueue, rest⟩
  · intro x member granted
    rcases places member with old | rfl
    · exact sound.carried x old granted
    · cases granted
  · intro x member ungranted carries
    rcases places member with old | rfl
    · have apart : x.txnId ≠ t := fun own => stranded x old own ungranted carries
      obtain ⟨upgrading, other, hasCall, phase, atQueue, first⟩ :=
        sound.upgrading x old ungranted carries
      refine ⟨upgrading, other, (setCall_calls_of_ne _ _ apart).trans hasCall, phase, atQueue,
        first.congr ?_⟩
      simp [own, apart.symm]
    · exact absurd carries free
  · show (((s.queues call.queue).requests ++ [_]).map key).Pairwise _
    rw [map_append]
    refine List.pairwise_append.mpr ⟨sound.earlier, List.pairwise_singleton _ _, ?_⟩
    intro b _ k last carries
    rw [List.map_singleton, mem_singleton] at last
    subst last
    exact absurd carries free
  · show (((s.queues call.queue).requests ++ [_]).map key).Nodup
    rw [map_append]
    refine nodup_append.mpr ⟨sound.nodup, List.pairwise_singleton _ _, ?_⟩
    intro b member k last same
    rw [List.map_singleton, mem_singleton] at last
    obtain ⟨x, inQueue, rfl⟩ := mem_map.mp member
    exact fresh x inQueue (same.trans last)
  · intro x member
    rcases places member with old | rfl
    · exact sound.valid x old
    · exact valid
  · intro notRange
    show (((s.queues call.queue).requests ++ [_]).map LockRequest.txnId).Nodup
    rw [map_append]
    refine nodup_append.mpr ⟨sound.single notRange, List.pairwise_singleton _ _, ?_⟩
    intro u member v last same
    rw [List.map_singleton, mem_singleton] at last
    obtain ⟨x, inQueue, rfl⟩ := mem_map.mp member
    have miss := misses x inQueue (same.trans last)
    have noRange : call.range = none := by
      cases queue : call.queue with
      | keyRange _ =>
        rw [queue] at notRange
        exact absurd trivial notRange
      | table _ | record _ =>
        simp only [validCall, queue, Bool.and_eq_true, Option.isNone_iff_eq_none] at validRange
        first | exact validRange | exact validRange.1
    rw [noRange] at miss
    cases range : x.range <;> simp [sameRange, range] at miss
  · intro notRange x member granted
    rcases places member with old | rfl
    · exact sound.recorded notRange x old granted
    · cases granted
  · intro notRange x member granted other held hasCall atQueue phase
    by_cases same : x.txnId = t
    · rw [same, setCall_calls_self] at hasCall
      cases hasCall
      cases phase
    · rw [setCall_calls_of_ne _ _ same] at hasCall
      rcases places member with old | rfl
      · exact sound.prepared notRange x old granted other held hasCall atQueue phase
      · exact absurd rfl same

theorem validMode_of_call (valid : validCall call.queue call.range call.mode = true) :
    ValidMode call.queue call.mode := by
  cases queue : call.queue with
  | table _ => exact .inl rfl
  | record _ | keyRange _ =>
    simp only [validCall, queue, Bool.and_eq_true] at valid
    exact .inr valid.2

/-- The state in which a call that has entered its queue waits there. -/
def entered (s : LockState) (t : Nat) (call : Call) (queue : LockRequestQueue) : LockState :=
  (s.setQueue call.queue queue).setCall t (some { call with phase := .waiting })

private theorem Inv.enterRetarget (inv : Inv s) (calls : s.calls t = some call)
    (idle : call.phase ≠ .waiting) (found : Found t call.range (s.queues call.queue).requests c)
    {target : LockMode} (valid : ValidMode call.queue target)
    (covers : c.request.granted = true → Covers call.queue.isTable target c.request.mode)
    (queued : LockManager.retarget (s.queues call.queue) t c target = .queued queue) :
    Inv (entered s t call queue) := by
  unfold LockManager.retarget at queued
  split at queued
  · split at queued
    · cases queued
    · rename_i free
      cases queued
      refine inv.retarget calls idle found (r := { c.request with mode := target, granted := false })
        rfl valid covers (by rintro ⟨⟩) ?_ (fun _ _ => rfl)
      intro u apart upgrading
      simp only [upgrading, Option.isSome_some, Bool.true_and, bne_iff_ne, ne_eq,
        Option.some.injEq, not_not] at free
      exact absurd free apart
  · rename_i same
    cases queued
    refine inv.retarget calls idle found (r := { c.request with mode := target }) rfl valid covers
      ?_ (fun _ _ upgrading => upgrading) ?_
    · intro granted
      refine ⟨granted, ?_⟩
      by_contra apart
      exact same (Bool.and_eq_true_iff.mpr ⟨granted, bne_iff_ne.mpr (Ne.symm apart)⟩)
    · intro ungranted granted
      have ungranted' : c.request.granted = false := ungranted
      rw [ungranted'] at granted
      cases granted

private theorem Inv.enterQueue (inv : Inv s) {held : Option LockMode}
    (calls : s.calls t = some call) (phase : call.phase = .prepared held)
    (queued : LockManager.enterQueue (s.queues call.queue) t call held = some (.queued queue)) :
    Inv (entered s t call queue) := by
  have idle : call.phase ≠ .waiting := by
    rw [phase]
    exact nofun
  have valid := validMode_of_call (inv.calls t call calls)
  have validTarget : ValidMode call.queue (targetMode call held) := by
    cases held with
    | none => exact valid
    | some _ => exact validMode_combine _ _ _
  unfold LockManager.enterQueue at queued
  obtain ⟨found, search, entry⟩ := Option.map_eq_some_iff.mp queued
  cases found with
  | none =>
    simp only [Entry.queued.injEq] at entry
    subst entry
    apply inv.push calls idle search
    split
    · exact valid
    · exact validTarget
  | some c =>
    have found := findRequest_some search
    have sound := inv.queues call.queue
    have inQueue : c.request ∈ (s.queues call.queue).requests := by
      rw [found.split]
      simp
    have validHeld := sound.valid c.request inQueue
    simp only at entry
    split at entry
    · split at entry
      · cases entry
      · exact inv.enterRetarget calls idle found (validMode_combine _ _ _)
          (fun _ => covers_combine validHeld _) entry
    · rename_i notRange
      refine inv.enterRetarget calls idle found validTarget ?_ entry
      intro granted
      have knows : held = some c.request.mode := by
        refine sound.prepared ?_ c.request inQueue granted call held ?_ rfl phase
        · intro range
          cases queue : call.queue with
          | keyRange id => exact notRange id queue
          | table _ | record _ =>
            rw [queue] at range
            exact range
        · rw [found.mine]
          exact calls
      rw [knows]
      exact covers_combine validHeld _

theorem waitLoopPass_setCall (s : LockState) (t : Nat) (call : Call)
    (other : Option Call) (phase : CallPhase) :
    waitLoopPass (s.setCall t other) t { call with phase := phase } = waitLoopPass s t call := by
  unfold waitLoopPass
  simp only [LockState.setCall, LockState.setQueue, LockState.setTxnState, grantRequest,
    Function.update_idem]

/-- The requests that a pass of the wait loop erases, or that stay ungranted when it gives up. -/
def abandoned (s : LockState) (t : Nat) (call : Call) : List LockRequest :=
  let requests := (s.queues call.queue).requests
  let ungranted := requests.filter fun r => r.txnId == t && !r.granted
  match findRequest t call.range [] requests with
  | some (some c) =>
    if isAbortPendingOrDone (s.txnState t) then c.request :: ungranted
    else if canGrantRequest call.queue.isTable c = none then ungranted
    else []
  | _ => ungranted

def passKeeps (s : LockState) (t : Nat) (call : Call) : Bool :=
  (abandoned s t call).all fun r => !decide (CarriesLock s.grants call.queue (key r))

private theorem Inv.waitLoopPass (inv : Inv s) (calls : s.calls t = some call)
    (waiting : call.phase = .waiting) (keeps : passKeeps s t call = true) :
    Inv (LockManager.waitLoopPass s t call) := by
  have free : ∀ r ∈ abandoned s t call, ¬CarriesLock s.grants call.queue (key r) := by
    intro r member
    simpa using List.all_eq_true.mp keeps r member
  -- The upgrade a transaction waits for stands in the queue of its call.
  have everywhere
      (here : ∀ r ∈ (s.queues call.queue).requests, r.txnId = t → r.granted = false →
        r ∈ abandoned s t call) :
      ∀ q, ∀ r ∈ (s.queues q).requests, r.txnId = t → r.granted = false →
        ¬CarriesLock s.grants q (key r) := by
    intro q r member mine ungranted carries
    obtain ⟨_, other, hasCall, _, atQueue, _⟩ :=
      (inv.queues q).upgrading r member ungranted carries
    rw [mine, calls] at hasCall
    cases hasCall
    subst atQueue
    exact free r (here r member mine ungranted) carries
  have ends (here : ∀ r ∈ (s.queues call.queue).requests, r.txnId = t → r.granted = false →
      r ∈ abandoned s t call) : Inv (s.setCall t none) :=
    inv.setCall (everywhere here) (fun _ absurdity => nomatch absurdity)
      (fun _ _ absurdity => nomatch absurdity)
  have inUngranted {r : LockRequest} (member : r ∈ (s.queues call.queue).requests)
      (mine : r.txnId = t) (ungranted : r.granted = false) :
      r ∈ (s.queues call.queue).requests.filter fun r => r.txnId == t && !r.granted :=
    mem_filter.mpr ⟨member, by simp [mine, ungranted]⟩
  unfold LockManager.waitLoopPass
  simp only
  cases search : findRequest t call.range [] (s.queues call.queue).requests with
  | none =>
    apply ends
    intro r member mine ungranted
    simpa only [abandoned, search] using inUngranted member mine ungranted
  | some result =>
    cases result with
    | none =>
      apply ends
      intro r member mine ungranted
      simpa only [abandoned, search] using inUngranted member mine ungranted
    | some c =>
      have found := findRequest_some search
      simp only
      split
      · rename_i aborting
        have lists : abandoned s t call = c.request ::
            (s.queues call.queue).requests.filter fun r => r.txnId == t && !r.granted := by
          simp only [abandoned, search, aborting, if_true]
        have here : ∀ r ∈ (s.queues call.queue).requests, r.txnId = t → r.granted = false →
            r ∈ abandoned s t call := by
          intro r member mine ungranted
          rw [lists]
          exact mem_cons_of_mem _ (inUngranted member mine ungranted)
        have erased : ¬CarriesLock s.grants call.queue (key c.request) :=
          free _ (lists ▸ mem_cons_self)
        have left := inv.eraseRequest found (everywhere here call.queue) erased
        apply left.setCall _ (by rintro _ ⟨⟩) (by rintro _ _ ⟨⟩)
        intro q r member
        apply everywhere here q r
        by_cases same : q = call.queue
        · subst same
          rw [setQueue_queues_self] at member
          rw [found.split]
          rcases mem_append.mp member with early | late
          · exact mem_append_left _ early
          · exact List.mem_append_right _ (mem_cons_of_mem _ late)
        · rw [setQueue_queues_of_ne _ _ same] at member
          exact member
      · rename_i running
        cases check : canGrantRequest call.queue.isTable c with
        | none =>
          apply ends
          intro r member mine ungranted
          have lists : abandoned s t call =
              (s.queues call.queue).requests.filter fun r => r.txnId == t && !r.granted := by
            simp only [abandoned, search, running, check, if_true, Bool.false_eq_true,
              if_false]
          rw [lists]
          exact inUngranted member mine ungranted
        | some grantable =>
          cases grantable with
          | true => exact inv.grant calls found check
          | false =>
            have same : some { call with phase := .waiting } = s.calls t := by
              rw [calls, ← waiting]
            have unchanged : (s.setTxnState t (setWaitingIfNotAborting (s.txnState t))).setCall
                t (some { call with phase := .waiting }) =
                s.setTxnState t (setWaitingIfNotAborting (s.txnState t)) := by
              rw [same]
              simp [LockState.setCall, LockState.setTxnState]
            show Inv ((s.setTxnState t _).setCall t (some { call with phase := .waiting }))
            rw [unchanged]
            exact inv.setTxnState _ _

end Invariant

section Runs

/-- No upgrade of `t` is waiting: each of its granted locks is held by a granted request. -/
def noUpgradePending (s : LockState) (t : Nat) : Bool :=
  s.grants.all fun g => g.txnId != t ||
    (s.queues g.queue).requests.all fun r =>
      r.txnId != t || r.range != g.range || r.granted

/-- Neither the exit from a wait nor the choice of a victim removes or strands an ungranted request
that replaced a granted one. -/
def keepsUpgrades (s : LockState) : Label → Bool
  | .enqueue t =>
    match s.calls t with
    | some call =>
      match call.phase with
      | .prepared held =>
        match enterQueue (s.queues call.queue) t call held with
        | some (.queued queue) => passKeeps (s.setQueue call.queue queue) t call
        | _ => true
      | _ => true
    | none => true
  | .wake t =>
    match s.calls t with
    | some call => passKeeps s t call
    | none => true
  | .abortVictim cycle =>
    let state := s.txnState (cycleVictim cycle)
    state == .committed || state == .aborted || state == .aborting ||
      noUpgradePending s (cycleVictim cycle)
  | _ => true

variable {s s' : LockState}

private theorem abortVictim_ended {t : Nat}
    (ended : (s.txnState t == .committed || s.txnState t == .aborted || s.txnState t == .aborting)
      = true) : abortVictim s t = s := by
  unfold abortVictim
  rw [if_pos]
  simpa [or_assoc] using ended

private theorem stranded_of_noUpgradePending {t : Nat} (none : noUpgradePending s t = true)
    (q : QueueId) :
    ∀ r ∈ (s.queues q).requests, r.txnId = t → r.granted = false →
      ¬CarriesLock s.grants q (key r) := by
  rintro r member mine ungranted ⟨g, inGrants, txn, rfl, range⟩
  have rest := List.all_eq_true.mp none g inGrants
  have txn' : g.txnId = t := txn.trans mine
  simp only [txn', bne_self_eq_false, Bool.false_or] at rest
  have checked := List.all_eq_true.mp rest r member
  have range' : g.range = r.range := range
  simp [mine, ungranted, range'] at checked

theorem Inv.empty : Inv LockState.empty := by
  constructor
  · intro q
    constructor <;> simp [LockState.empty]
  · simp [LockState.empty]
  · simp [LockState.empty]

theorem Inv.step {label : Label} (inv : Inv s) (keeps : keepsUpgrades s label = true)
    (taken : LockManager.step s label = some s') :
    Inv s' := by
  have ends {t : Nat} {call : Call} (calls : s.calls t = some call)
      (idle : call.phase ≠ .waiting) : Inv (s.setCall t none) :=
    inv.setCall (fun q r member mine => inv.no_upgrade
        (fun other hasCall => by rw [calls] at hasCall; cases hasCall; exact idle) member mine)
      (fun _ absurdity => nomatch absurdity) (fun _ _ absurdity => nomatch absurdity)
  cases label with
  | call t q range mode =>
    simp only [LockManager.step] at taken
    split at taken
    · rename_i valid
      obtain ⟨isNone, valid⟩ := Bool.and_eq_true_iff.mp valid
      split at taken
      · cases taken
        exact inv
      · cases taken
        apply inv.setCall
        · exact fun q r member mine => inv.no_upgrade
            (fun other hasCall => by simp [hasCall] at isNone) member mine
        · rintro _ ⟨⟩
          exact valid
        · rintro _ _ ⟨⟩ ⟨⟩
    · cases taken
  | prepare t =>
    simp only [LockManager.step, bind_eq_bind, bind_eq_some_iff] at taken
    obtain ⟨call, calls, taken⟩ := taken
    split at taken
    swap
    · cases taken
    rename_i checked
    have idle : call.phase ≠ .waiting := by
      rw [checked]
      exact nofun
    have next {held : Option LockMode}
        (knows : ¬IsKeyRange call.queue → ∀ r ∈ (s.queues call.queue).requests, r.txnId = t →
          r.granted = true → held = some r.mode) :
        Inv (s.setCall t (some { call with phase := .prepared held })) := by
      apply inv.setCall
      · exact fun q r member mine => inv.no_upgrade
          (fun other hasCall => by rw [calls] at hasCall; cases hasCall; exact idle) member mine
      · rintro _ ⟨⟩
        exact inv.calls t call calls
      · rintro _ _ ⟨⟩ ⟨⟩
        exact knows
    have reads (notRange : ¬IsKeyRange call.queue) :
        ∀ r ∈ (s.queues call.queue).requests, r.txnId = t → r.granted = true →
          heldMode s t call.queue = some r.mode := by
      intro r member mine granted
      have known := (inv.queues call.queue).recorded notRange r member granted
      rw [mine] at known
      cases queue : call.queue with
      | keyRange _ =>
        rw [queue] at notRange
        exact absurd trivial notRange
      | table _ | record _ =>
        rw [queue] at known
        exact known
    split at taken
    · cases taken
      exact ends calls idle
    · split at taken
      · rename_i held heldEq
        split at taken
        · cases taken
          exact ends calls idle
        · cases taken
          apply next
          intro notRange r member mine granted
          rw [← heldEq, reads notRange r member mine granted]
      · rename_i heldEq
        cases taken
        apply next
        intro notRange r member mine granted
        rw [← heldEq, reads notRange r member mine granted]
  | enqueue t =>
    simp only [LockManager.step, bind_eq_bind, bind_eq_some_iff] at taken
    obtain ⟨call, calls, taken⟩ := taken
    split at taken
    swap
    · cases taken
    rename_i held phase
    have idle : call.phase ≠ .waiting := by
      rw [phase]
      exact nofun
    split at taken
    · cases taken
      exact ends calls idle
    · cases taken
      exact (ends calls idle).setTxnState t _
    · cases taken
      exact ends calls idle
    · rename_i queue queued
      cases taken
      have inQueue := inv.enterQueue calls phase queued
      rw [← waitLoopPass_setCall _ t call (some { call with phase := .waiting }) .waiting]
      apply inQueue.waitLoopPass (setCall_calls_self _ _ _) rfl
      simp only [keepsUpgrades, calls, phase, queued] at keeps
      exact keeps
  | wake t =>
    simp only [LockManager.step, bind_eq_bind, bind_eq_some_iff] at taken
    obtain ⟨call, calls, taken⟩ := taken
    split at taken
    · rename_i waiting
      cases taken
      apply inv.waitLoopPass calls waiting
      simpa only [keepsUpgrades, calls] using keeps
    · cases taken
  | setState t state =>
    cases taken
    exact inv.setTxnState t state
  | tryMarkAborting t =>
    cases taken
    exact inv.setTxnState t _
  | abortVictim cycle =>
    cases cycle with
    | nil => cases taken
    | cons first rest =>
      simp only [LockManager.step] at taken
      split at taken
      · cases taken
        simp only [keepsUpgrades, Bool.or_eq_true] at keeps
        rcases keeps with ended | pending
        · rw [abortVictim_ended (by simpa only [Bool.or_eq_true] using ended)]
          exact inv
        · exact inv.abortVictim (stranded_of_noUpgradePending pending)
      · cases taken
  | releaseAll t =>
    cases taken
    exact inv.releaseAll t

theorem grant_kept {label : Label} {g : Grant} (member : g ∈ s.grants)
    (taken : step s label = some s') (unreleased : label ≠ .releaseAll g.txnId) :
    g ∈ s'.grants := by
  have pass (m : LockState) (t : Nat) (call : Call) (held : g ∈ m.grants) :
      g ∈ (waitLoopPass m t call).grants := by
    unfold waitLoopPass
    simp only
    split
    · exact held
    · exact held
    · split
      · exact held
      · split
        · exact held
        · exact mem_cons_of_mem _ held
        · exact held
  cases label with
  | call t q range mode =>
    simp only [step] at taken
    split at taken
    · split at taken <;> (cases taken; exact member)
    · cases taken
  | prepare t =>
    simp only [step, bind_eq_bind, bind_eq_some_iff] at taken
    obtain ⟨call, _, taken⟩ := taken
    split at taken
    · split at taken
      · cases taken
        exact member
      · split at taken
        · split at taken <;> (cases taken; exact member)
        · cases taken
          exact member
    · cases taken
  | enqueue t =>
    simp only [step, bind_eq_bind, bind_eq_some_iff] at taken
    obtain ⟨call, _, taken⟩ := taken
    split at taken
    · split at taken
      · cases taken
        exact member
      · cases taken
        exact member
      · cases taken
        exact member
      · cases taken
        exact pass _ t call member
    · cases taken
  | wake t =>
    simp only [step, bind_eq_bind, bind_eq_some_iff] at taken
    obtain ⟨call, _, taken⟩ := taken
    split at taken
    · cases taken
      exact pass s t call member
    · cases taken
  | setState t state =>
    cases taken
    exact member
  | tryMarkAborting t =>
    cases taken
    exact member
  | abortVictim cycle =>
    cases cycle with
    | nil => cases taken
    | cons first rest =>
      simp only [step] at taken
      split at taken
      · cases taken
        unfold abortVictim
        split <;> exact member
      · cases taken
  | releaseAll t =>
    cases taken
    refine mem_filter.mpr ⟨member, ?_⟩
    have apart : g.txnId ≠ t := fun same => unreleased (same ▸ rfl)
    simpa using apart

private theorem grant_kept_run {ok : LockState → Label → Prop} {labels : List Label} {g : Grant}
    (member : g ∈ s.grants) (run : Run step ok s labels s')
    (unreleased : Label.releaseAll g.txnId ∉ labels) : g ∈ s'.grants := by
  induction run with
  | nil => exact member
  | snoc _ _ taken ih =>
    rw [mem_append, not_or] at unreleased
    obtain ⟨notBefore, notLast⟩ := unreleased
    apply grant_kept (ih notBefore) taken
    intro same
    exact notLast (mem_singleton.mpr same.symm)

/-- In every run that gives up no upgrade: from the grant of a lock to the `ReleaseAll` of its
transaction, whatever else is granted on the same resource is compatible with it. -/
theorem granted_until_releaseAll {before labels : List Label} {s s' : LockState}
    (granted : Run step (fun s a => keepsUpgrades s a = true) .empty before s)
    (run : Run step (fun s a => keepsUpgrades s a = true) s labels s')
    {g g' : Grant} (held : g ∈ s.grants) (unreleased : Label.releaseAll g.txnId ∉ labels)
    (other : g' ∈ s'.grants) (apart : g'.txnId ≠ g.txnId) (queue : g'.queue = g.queue)
    (overlaps : overlap g'.range g.range = some true) :
    compatible g.queue.isTable g'.mode g.mode = true := by
  have inv : Inv s' := (granted.append run).invariant Inv Inv.empty
    fun m a t inv keeps taken => inv.step keeps taken
  have still := grant_kept_run held run unreleased
  rw [← queue]
  exact inv.compatible g' other g still apart queue overlaps

def sharedTrace : List Label :=
  [.call 1 (.table 7) none .is, .prepare 1, .enqueue 1]

theorem granted_until_releaseAll_shared :
    ∃ s s' : LockState, ∃ g ∈ s.grants, ∃ g' ∈ s'.grants, g'.txnId ≠ g.txnId ∧
      compatible g.queue.isTable g'.mode g.mode = true := by
  have executed : ((exec (fun s a => if keepsUpgrades s a = true then step s a else none)
      .empty sharedTrace).bind fun s =>
        (exec (fun s a => if keepsUpgrades s a = true then step s a else none) s
          [.call 2 (.table 7) none .s, .prepare 2, .enqueue 2]).map fun s' =>
            decide ((⟨1, .table 7, none, .is⟩ : Grant) ∈ s.grants ∧
              (⟨2, .table 7, none, .s⟩ : Grant) ∈ s'.grants)) = some true := by
    decide
  obtain ⟨s, first, rest⟩ := bind_eq_some_iff.mp executed
  obtain ⟨s', second, facts⟩ := Option.map_eq_some_iff.mp rest
  obtain ⟨held, other⟩ := of_decide_eq_true facts
  exact ⟨s, s', _, held, _, other, by decide, granted_until_releaseAll (run_of_exec first)
    (run_of_exec second) held (by decide) other (by decide) rfl rfl⟩

/-- Transaction 2 waits to upgrade its `S` lock on table 7 and is chosen as victim. -/
def victimTrace : List Label :=
  [.call 1 (.table 7) none .is, .prepare 1, .enqueue 1,
    .call 2 (.table 7) none .s, .prepare 2, .enqueue 2,
    .call 2 (.table 8) none .x, .prepare 2, .enqueue 2]

/-- Its rollback has not begun when transaction 3 gets an `IX` lock on the table. -/
def victimTail : List Label :=
  [.call 2 (.table 7) none .x, .prepare 2, .enqueue 2,
    .call 1 (.table 8) none .s, .prepare 1, .enqueue 1,
    .abortVictim [(1, .table 8), (2, .table 7)],
    .call 3 (.table 7) none .ix, .prepare 3, .enqueue 3]

/-- The victim's granted lock is lost with the upgrade request that replaced it. -/
theorem victim_loses_granted_lock :
    ¬∀ (before labels : List Label) (s s' : LockState) (g g' : Grant),
      Run step (fun _ _ => True) .empty before s → Run step (fun _ _ => True) s labels s' →
      g ∈ s.grants → Label.releaseAll g.txnId ∉ labels → g' ∈ s'.grants →
      g'.txnId ≠ g.txnId → g'.queue = g.queue → overlap g'.range g.range = some true →
      compatible g.queue.isTable g'.mode g.mode = true := by
  intro claim
  have executed : ((exec (fun s a => if True then step s a else none) .empty victimTrace).bind
      fun s => (exec (fun s a => if True then step s a else none) s victimTail).map fun s' =>
        decide ((⟨2, .table 7, none, .s⟩ : Grant) ∈ s.grants ∧
          (⟨3, .table 7, none, .ix⟩ : Grant) ∈ s'.grants)) = some true := by
    decide
  obtain ⟨s, first, rest⟩ := bind_eq_some_iff.mp executed
  obtain ⟨s', second, facts⟩ := Option.map_eq_some_iff.mp rest
  obtain ⟨held, other⟩ := of_decide_eq_true facts
  have verdict := claim victimTrace victimTail s s' _ _ (run_of_exec first) (run_of_exec second)
    held (by decide) other (by decide) rfl rfl
  exact absurd verdict (by decide)

end Runs

end GraniteDb.Concurrency.StrictTwoPhase
