/- Lock modes, request queues and the latched steps of the lock manager. -/

import GraniteDb.Common.Types
import GraniteDb.Execution.Expressions
import Mathlib.Logic.Function.Basic

namespace GraniteDb.Concurrency.LockManager

open Common.Types Common.Value Execution.Expressions
open List (allM)
open Function (update)

inductive LockMode
  | is
  | ix
  | s
  | six
  | x
  deriving DecidableEq

/-- `IsTupleOrRangeLockMode`; every mode is a table lock mode. -/
def isTupleOrRangeLockMode : LockMode → Bool
  | .s | .x => true
  | _ => false

def combineTableModes (current requested : LockMode) : LockMode :=
  if current = requested then current
  else if current = .x ∨ requested = .x then .x
  else if current = .six ∨ requested = .six then .six
  else if (current = .s ∧ requested = .ix) ∨ (current = .ix ∧ requested = .s) then .six
  else if current = .s ∨ requested = .s then .s
  else if current = .ix ∨ requested = .ix then .ix
  else .is

def combineTupleOrRangeModes (current requested : LockMode) : LockMode :=
  if current = .x ∨ requested = .x then .x else .s

/-- `Compatible`; `RangeModesCompatible` is the case of no table lock. -/
def compatible (isTableLock : Bool) (requested held : LockMode) : Bool :=
  if isTableLock then
    match requested with
    | .is => held == .is || held == .ix || held == .s || held == .six
    | .ix => held == .is || held == .ix
    | .s => held == .is || held == .s
    | .six => held == .is
    | .x => false
  else requested == .s && held == .s

/-- The bounds of a key-range lock; a missing key is an unbounded end. -/
structure KeyRange where
  lower : Option (List Value)
  upper : Option (List Value)
  lowerInclusive : Bool
  upperInclusive : Bool
  deriving DecidableEq

/-- The loop of `CompareKeyVectors`. -/
def compareKeys : List Value → List Value → Option Ordering
  | a :: as, b :: bs => do
    let cmp ← compareValues a b
    if cmp = .eq then compareKeys as bs else some cmp
  | _, _ => some .eq

/-- `CompareKeyVectors`; `none` is an exception. -/
def compareKeyVectors (lhs rhs : List Value) : Option Ordering :=
  if lhs.length = rhs.length then compareKeys lhs rhs else none

def sameOptionalKey : Option (List Value) → Option (List Value) → Option Bool
  | none, none => some true
  | some a, some b => (compareKeyVectors a b).map (· == .eq)
  | _, _ => some false

def rangeEndsBefore (a b : KeyRange) : Option Bool :=
  match a.upper, b.lower with
  | some u, some l =>
    (compareKeyVectors u l).map fun cmp =>
      cmp == .lt || (cmp == .eq && !(a.upperInclusive && b.lowerInclusive))
  | _, _ => some false

def rangesOverlap (a b : KeyRange) : Option Bool := do
  if ← rangeEndsBefore a b then some false
  else return !(← rangeEndsBefore b a)

structure LockRequest where
  txnId : Nat
  mode : LockMode
  granted : Bool
  range : Option KeyRange
  deriving DecidableEq

structure LockRequestQueue where
  requests : List LockRequest
  upgradingTxn : Option Nat
  deriving DecidableEq

structure RecordLockId where
  relationId : Nat
  rid : RID
  deriving DecidableEq

/-- The three lock tables. Key-range requests of one index share a queue. -/
inductive QueueId
  | table (relationId : Nat)
  | record (id : RecordLockId)
  | keyRange (indexRelationId : Nat)
  deriving DecidableEq

def QueueId.isTable : QueueId → Bool
  | .table _ => true
  | _ => false

def QueueId.combine : QueueId → LockMode → LockMode → LockMode
  | .table _ => combineTableModes
  | _ => combineTupleOrRangeModes

/-- `TableModeSatisfies` and `TupleOrRangeModeSatisfies`. -/
def QueueId.satisfies (q : QueueId) (held requested : LockMode) : Bool :=
  q.combine held requested == held

def overlap : Option KeyRange → Option KeyRange → Option Bool
  | some a, some b => rangesOverlap a b
  | _, _ => some true

/-- The range test of `FindKeyRangeRequest`; there is none for the other queues. -/
def sameRange : Option KeyRange → Option KeyRange → Option Bool
  | some a, some b =>
    if a.lower.isSome != b.lower.isSome || a.upper.isSome != b.upper.isSome ||
        a.lowerInclusive != b.lowerInclusive || a.upperInclusive != b.upperInclusive then
      some false
    else do
      if ← sameOptionalKey a.lower b.lower then sameOptionalKey a.upper b.upper
      else some false
  | _, _ => some true

/-- An iterator into a queue: the requests before it, at it and after it. -/
structure Cursor where
  before : List LockRequest
  request : LockRequest
  after : List LockRequest
  deriving DecidableEq

def Cursor.put (c : Cursor) (r : LockRequest) : List LockRequest := c.before ++ r :: c.after

def Cursor.erase (c : Cursor) : List LockRequest := c.before ++ c.after

/-- `FindRequest` and `FindKeyRangeRequest`; `none` is an exception. -/
def findRequest (txnId : Nat) (range : Option KeyRange) (before : List LockRequest) :
    List LockRequest → Option (Option Cursor)
  | [] => some none
  | r :: rest => do
    if r.txnId = txnId then
      if ← sameRange r.range range then return some ⟨before, r, rest⟩
    findRequest txnId range (before ++ [r]) rest

/-- The first loop of `CanGrantRequest` and `CanGrantKeyRangeRequest`. -/
def grantableBefore (isTable : Bool) (target : LockRequest) : List LockRequest → Option Bool
  | [] => some true
  | r :: rest => do
    if r.txnId = target.txnId then grantableBefore isTable target rest
    else if ← overlap r.range target.range then
      if r.granted && compatible isTable target.mode r.mode then
        grantableBefore isTable target rest
      else some false
    else grantableBefore isTable target rest

def grantableAfter (isTable : Bool) (target : LockRequest) : List LockRequest → Option Bool
  | [] => some true
  | r :: rest => do
    if r.txnId = target.txnId || !r.granted then grantableAfter isTable target rest
    else if ← overlap r.range target.range then
      if compatible isTable target.mode r.mode then grantableAfter isTable target rest
      else some false
    else grantableAfter isTable target rest

/-- `CanGrantRequest` and `CanGrantKeyRangeRequest`. -/
def canGrantRequest (isTable : Bool) (c : Cursor) : Option Bool := do
  if ← grantableBefore isTable c.request c.before then
    grantableAfter isTable c.request c.after
  else some false

/-- `r` keeps the request under the cursor from being granted, by `BuildWaitsForGraphLocked`. -/
def blocks (isTable : Bool) (target : LockRequest) (isBefore : Bool) (r : LockRequest) : Bool :=
  r.txnId != target.txnId && overlap r.range target.range == some true &&
    ((isBefore && !r.granted) || (r.granted && !compatible isTable target.mode r.mode))

/-- The waits-for edges from the ungranted requests of `t` in one queue lead to `u`. -/
def waitsForIn (isTable : Bool) (t u : Nat) (before : List LockRequest) :
    List LockRequest → Bool
  | [] => false
  | r :: rest =>
    (r.txnId == t && !r.granted &&
      (before.any (fun b => b.txnId == u && blocks isTable r true b) ||
        rest.any (fun a => a.txnId == u && blocks isTable r false a))) ||
    waitsForIn isTable t u (before ++ [r]) rest

/-- Where a lock call is: it has seen no abort, it has read the held mode, or it waits. -/
inductive CallPhase
  | checked
  | prepared (held : Option LockMode)
  | waiting
  deriving DecidableEq

structure Call where
  queue : QueueId
  range : Option KeyRange
  mode : LockMode
  phase : CallPhase
  deriving DecidableEq

/-- A lock that was granted and not yet released: this is what the callers were told. -/
structure Grant where
  txnId : Nat
  queue : QueueId
  range : Option KeyRange
  mode : LockMode
  deriving DecidableEq

structure LockState where
  queues : QueueId → LockRequestQueue
  txnState : Nat → TransactionState
  /-- `table_locks_` and `record_locks_` of each transaction. -/
  locks : Nat → QueueId → Option LockMode
  calls : Nat → Option Call
  /-- Every lock granted to a transaction since its last `ReleaseAll`. -/
  grants : List Grant

def LockState.empty : LockState where
  queues := fun _ => ⟨[], none⟩
  txnState := fun _ => .active
  locks := fun _ _ => none
  calls := fun _ => none
  grants := []

def isAbortPendingOrDone (state : TransactionState) : Bool :=
  state == .aborting || state == .aborted

def setWaitingIfNotAborting (state : TransactionState) : TransactionState :=
  if state = .active ∨ state = .waiting then .waiting else state

def setActiveIfNotAborting (state : TransactionState) : TransactionState :=
  if state = .active ∨ state = .waiting then .active else state

def tryMarkAborting (state : TransactionState) : TransactionState :=
  if state = .committed ∨ state = .aborted then state else .aborting

def resetUpgrading (upgrading : Option Nat) (txnId : Nat) : Option Nat :=
  if upgrading = some txnId then none else upgrading

def LockState.setQueue (s : LockState) (q : QueueId) (queue : LockRequestQueue) : LockState :=
  { s with queues := update s.queues q queue }

def LockState.setCall (s : LockState) (t : Nat) (call : Option Call) : LockState :=
  { s with calls := update s.calls t call }

def LockState.setTxnState (s : LockState) (t : Nat) (state : TransactionState) : LockState :=
  { s with txnState := update s.txnState t state }

@[simp] theorem setCall_calls_self (s : LockState) (t : Nat) (call : Option Call) :
    (s.setCall t call).calls t = call := Function.update_self _ _ _

theorem setCall_calls_of_ne (s : LockState) {t u : Nat} (call : Option Call) (apart : u ≠ t) :
    (s.setCall t call).calls u = s.calls u := Function.update_of_ne apart _ _

@[simp] theorem setQueue_queues_self (s : LockState) (q : QueueId) (queue : LockRequestQueue) :
    (s.setQueue q queue).queues q = queue := Function.update_self _ _ _

theorem setQueue_queues_of_ne (s : LockState) {q q' : QueueId} (queue : LockRequestQueue)
    (apart : q' ≠ q) : (s.setQueue q queue).queues q' = s.queues q' :=
  Function.update_of_ne apart _ _

/-- The table-lock tests of `LockRecord`. -/
def holdsTableLockFor (s : LockState) (t : Nat) (q : QueueId) (mode : LockMode) : Bool :=
  match q with
  | .record id =>
    match s.locks t (.table id.relationId), mode with
    | some held, .s => held == .is || held == .ix || held == .s || held == .six || held == .x
    | some held, .x => held == .ix || held == .six || held == .x
    | none, _ => false
    | _, _ => true
  | _ => true

/-- `GetTableLockMode` or `GetRecordLockMode`; key ranges keep no such record. -/
def heldMode (s : LockState) (t : Nat) : QueueId → Option LockMode
  | .keyRange _ => none
  | q => s.locks t q

def grantRequest (s : LockState) (t : Nat) (call : Call) (c : Cursor) : LockState :=
  let queue := s.queues call.queue
  { queues := update s.queues call.queue
      ⟨c.put { c.request with granted := true }, resetUpgrading queue.upgradingTxn t⟩
    txnState := update s.txnState t (setActiveIfNotAborting (s.txnState t))
    locks :=
      match call.queue with
      | .keyRange _ => s.locks
      | q => update s.locks t (update (s.locks t) q (some c.request.mode))
    calls := update s.calls t none
    grants := ⟨t, call.queue, c.request.range, c.request.mode⟩ :: s.grants }

/-- One pass of the `while (true)` loop of the lock functions. -/
def waitLoopPass (s : LockState) (t : Nat) (call : Call) : LockState :=
  let queue := s.queues call.queue
  match findRequest t call.range [] queue.requests with
  | none | some none => s.setCall t none
  | some (some c) =>
    if isAbortPendingOrDone (s.txnState t) then
      (s.setQueue call.queue ⟨c.erase, resetUpgrading queue.upgradingTxn t⟩).setCall t none
    else
      match canGrantRequest call.queue.isTable c with
      | none => s.setCall t none
      | some true => grantRequest s t call c
      | some false =>
        (s.setTxnState t (setWaitingIfNotAborting (s.txnState t))).setCall t
          (some { call with phase := .waiting })

/-- The target mode where the held mode was read before the latch was taken. -/
def targetMode (call : Call) (held : Option LockMode) : LockMode :=
  match held with
  | some held => call.queue.combine held call.mode
  | none => call.mode

/-- What the latched part of a lock function does before its loop. -/
inductive Entry
  | refused
  | satisfied
  | queued (queue : LockRequestQueue)
  deriving DecidableEq

/-- An existing request gets the mode `target`: an upgrade if it was granted in another
mode, which only one transaction of a queue may wait for. -/
def retarget (queue : LockRequestQueue) (t : Nat) (c : Cursor) (target : LockMode) : Entry :=
  if c.request.granted && c.request.mode != target then
    if queue.upgradingTxn.isSome && queue.upgradingTxn != some t then .refused
    else .queued ⟨c.put { c.request with mode := target, granted := false }, some t⟩
  else .queued ⟨c.put { c.request with mode := target }, queue.upgradingTxn⟩

/-- Enqueue a new request or change the existing one; `none` is an exception. -/
def enterQueue (queue : LockRequestQueue) (t : Nat) (call : Call) (held : Option LockMode) :
    Option Entry :=
  (findRequest t call.range [] queue.requests).map fun
    | none =>
      let mode :=
        match call.queue with
        | .keyRange _ => call.mode
        | _ => targetMode call held
      .queued ⟨queue.requests ++ [⟨t, mode, false, call.range⟩], queue.upgradingTxn⟩
    | some c =>
      match call.queue with
      | .keyRange _ =>
        let target := call.queue.combine c.request.mode call.mode
        if c.request.granted && c.request.mode == target then .satisfied
        else retarget queue t c target
      | _ => retarget queue t c (targetMode call held)

/-- `RemoveUngrantedRequestsLocked`, on one queue. -/
def removeUngranted (t : Nat) (queue : LockRequestQueue) : LockRequestQueue :=
  ⟨queue.requests.filter fun r => !(r.txnId == t && !r.granted),
    resetUpgrading queue.upgradingTxn t⟩

/-- `ReleaseAll`, on one queue. -/
def releaseQueue (t : Nat) (queue : LockRequestQueue) : LockRequestQueue :=
  ⟨queue.requests.filter fun r => r.txnId != t, resetUpgrading queue.upgradingTxn t⟩

def abortVictim (s : LockState) (t : Nat) : LockState :=
  if s.txnState t = .committed ∨ s.txnState t = .aborted ∨ s.txnState t = .aborting then s
  else
    { s with
      queues := fun q => removeUngranted t (s.queues q)
      txnState := update s.txnState t (tryMarkAborting (s.txnState t)) }

def releaseAll (s : LockState) (t : Nat) : LockState :=
  { s with
    queues := fun q => releaseQueue t (s.queues q)
    locks := update s.locks t fun _ => none
    grants := s.grants.filter fun g => g.txnId != t }

/-- The edges of a path in the waits-for graph, each with the queue it arises in, lead from
transaction to transaction and back to the first one. -/
def isCycle (s : LockState) (first : Nat) : List (Nat × QueueId) → Bool
  | [] => false
  | [(t, q)] => waitsForIn q.isTable t first [] (s.queues q).requests
  | (t, q) :: (u, q') :: rest =>
    waitsForIn q.isTable t u [] (s.queues q).requests && isCycle s first ((u, q') :: rest)

/-- The victim `DetectCycleVictimLocked` chooses on a cycle: the largest id. -/
def cycleVictim (cycle : List (Nat × QueueId)) : Nat := (cycle.map Prod.fst).foldl max 0

inductive Label
  | call (t : Nat) (queue : QueueId) (range : Option KeyRange) (mode : LockMode)
  | prepare (t : Nat)
  /-- `t` takes the latch, enters the queue and goes through the loop once. -/
  | enqueue (t : Nat)
  | wake (t : Nat)
  | setState (t : Nat) (state : TransactionState)
  | tryMarkAborting (t : Nat)
  | abortVictim (cycle : List (Nat × QueueId))
  | releaseAll (t : Nat)
  deriving DecidableEq

/-- The range goes with the queue: key-range calls have one, the others do not. -/
def validCall (queue : QueueId) (range : Option KeyRange) (mode : LockMode) : Bool :=
  match queue with
  | .table _ => range.isNone
  | .record _ => range.isNone && isTupleOrRangeLockMode mode
  | .keyRange _ => range.isSome && isTupleOrRangeLockMode mode

def step (s : LockState) : Label → Option LockState
  | .call t q range mode =>
    if (s.calls t).isNone && validCall q range mode then
      if isAbortPendingOrDone (s.txnState t) then some s
      else some (s.setCall t (some ⟨q, range, mode, .checked⟩))
    else none
  | .prepare t => do
    let call ← s.calls t
    if call.phase = .checked then
      if !holdsTableLockFor s t call.queue call.mode then some (s.setCall t none)
      else
        match heldMode s t call.queue with
        | some held =>
          if call.queue.satisfies held call.mode then some (s.setCall t none)
          else some (s.setCall t (some { call with phase := .prepared (some held) }))
        | none => some (s.setCall t (some { call with phase := .prepared none }))
    else none
  | .enqueue t => do
    let call ← s.calls t
    match call.phase with
    | .prepared held =>
      match enterQueue (s.queues call.queue) t call held with
      | none => some (s.setCall t none)
      | some .refused =>
        some ((s.setTxnState t (tryMarkAborting (s.txnState t))).setCall t none)
      | some .satisfied => some (s.setCall t none)
      | some (.queued queue) => some (waitLoopPass (s.setQueue call.queue queue) t call)
    | _ => none
  | .wake t => do
    let call ← s.calls t
    if call.phase = .waiting then some (waitLoopPass s t call) else none
  | .setState t state => some (s.setTxnState t state)
  | .tryMarkAborting t => some (s.setTxnState t (tryMarkAborting (s.txnState t)))
  | .abortVictim cycle =>
    match cycle with
    | [] => none
    | (first, _) :: _ =>
      if isCycle s first cycle then some (abortVictim s (cycleVictim cycle)) else none
  | .releaseAll t => some (releaseAll s t)

section Scans

variable {α : Type} {f : α → Option Bool} {xs : List α}

theorem allM_eq_true : xs.allM f = some true ↔ ∀ x ∈ xs, f x = some true := by
  induction xs with
  | nil => simp [allM]
  | cons x xs ih =>
    cases tested : f x with
    | none => simp [allM, tested]
    | some passes => cases passes <;> simp [allM, tested, ih]

theorem allM_eq_false (stops : xs.allM f = some false) : ∃ x ∈ xs, f x = some false := by
  induction xs with
  | nil => simp [allM] at stops
  | cons x xs ih =>
    cases tested : f x with
    | none => simp [allM, tested] at stops
    | some passes =>
      cases passes with
      | false => exact ⟨x, List.mem_cons_self, tested⟩
      | true =>
        obtain ⟨y, member, fails⟩ := ih (by simpa [allM, tested] using stops)
        exact ⟨y, List.mem_cons_of_mem _ member, fails⟩

theorem allM_ne_none (tests : ∀ x ∈ xs, f x ≠ none) : xs.allM f ≠ none := by
  induction xs with
  | nil => simp [allM]
  | cons x xs ih =>
    have later := ih fun y member => tests y (List.mem_cons_of_mem _ member)
    cases tested : f x with
    | none => exact absurd tested (tests x List.mem_cons_self)
    | some passes => cases passes <;> simp [allM, tested, later]

/-- The request does not keep a later one from being granted; `none` is an exception. -/
def passesBefore (isTable : Bool) (target r : LockRequest) : Option Bool :=
  if r.txnId = target.txnId then some true
  else (overlap r.range target.range).map fun overlaps =>
    !overlaps || (r.granted && compatible isTable target.mode r.mode)

def passesAfter (isTable : Bool) (target r : LockRequest) : Option Bool :=
  if r.txnId = target.txnId || !r.granted then some true
  else (overlap r.range target.range).map fun overlaps =>
    !overlaps || compatible isTable target.mode r.mode

variable {isTable : Bool} {target : LockRequest} {requests : List LockRequest}

theorem grantableBefore_eq :
    grantableBefore isTable target requests = requests.allM (passesBefore isTable target) := by
  induction requests with
  | nil => rfl
  | cons r rest ih =>
    rw [grantableBefore, allM, ih, passesBefore]
    split
    · rfl
    · rcases overlap r.range target.range with _ | _ | _
      · rfl
      · rfl
      · cases r.granted && compatible isTable target.mode r.mode <;> rfl

theorem grantableAfter_eq :
    grantableAfter isTable target requests = requests.allM (passesAfter isTable target) := by
  induction requests with
  | nil => rfl
  | cons r rest ih =>
    rw [grantableAfter, allM, ih, passesAfter]
    split
    · rfl
    · rcases overlap r.range target.range with _ | _ | _
      · rfl
      · rfl
      · cases compatible isTable target.mode r.mode <;> rfl

theorem grantableBefore_ne_none
    (compares : ∀ b ∈ requests, b.txnId ≠ target.txnId → overlap b.range target.range ≠ none) :
    grantableBefore isTable target requests ≠ none := by
  rw [grantableBefore_eq]
  refine allM_ne_none fun r member => ?_
  unfold passesBefore
  split
  · simp
  · rename_i apart
    simpa using compares r member apart

theorem grantableAfter_ne_none
    (compares : ∀ b ∈ requests, b.txnId ≠ target.txnId → b.granted = true → overlap b.range
      target.range ≠ none) : grantableAfter isTable target requests ≠ none := by
  rw [grantableAfter_eq]
  refine allM_ne_none fun r member => ?_
  unfold passesAfter
  split
  · simp
  · rename_i counts
    have counted : r.txnId ≠ target.txnId ∧ r.granted = true := by simpa using counts
    simpa using compares r member counted.1 counted.2

end Scans

end GraniteDb.Concurrency.LockManager
