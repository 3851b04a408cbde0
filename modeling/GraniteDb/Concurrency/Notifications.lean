/- Notified waiters: when a queue's condition variable is notified, and who wakes. -/

import GraniteDb.Concurrency.LockQueues

namespace GraniteDb.Concurrency.Notifications

open Concurrency.LockManager

/-- The lock manager, with the transactions that were notified and have not yet re-checked. -/
structure WakeState where
  locks : LockState
  notified : Nat → Bool

def WakeState.empty : WakeState := ⟨.empty, fun _ => false⟩

def waitsOn (s : LockState) (t : Nat) (q : QueueId) : Bool :=
  match s.calls t with
  | some call => call.phase == .waiting && call.queue == q
  | none => false

/-- `queue.cv.notify_all()` in the wait loop: the pass erases the request of an aborting
transaction. -/
def passNotifies (s : LockState) (t : Nat) (call : Call) (q : QueueId) : Bool :=
  call.queue == q && isAbortPendingOrDone (s.txnState t) &&
    match findRequest t call.range [] (s.queues call.queue).requests with
    | some (some _) => true
    | _ => false

/-- The latched part of a lock call up to its loop: the state in which the loop starts. -/
def loopStart (s : LockState) (t : Nat) : Option (Call × LockState) := do
  let call ← s.calls t
  match call.phase with
  | .prepared held =>
    match enterQueue (s.queues call.queue) t call held with
    | some (.queued queue) => some (call, s.setQueue call.queue queue)
    | _ => none
  | _ => none

def loopResume (s : LockState) (t : Nat) : Option (Call × LockState) := do
  let call ← s.calls t
  if call.phase = .waiting then some (call, s) else none

def notifies (s : LockState) : Label → QueueId → Bool
  | .enqueue t, q => (loopStart s t).any fun pass => passNotifies pass.2 t pass.1 q
  | .wake t, q => (loopResume s t).any fun pass => passNotifies pass.2 t pass.1 q
  | .abortVictim cycle, _ =>
    let state := s.txnState (cycleVictim cycle)
    !(state == .committed || state == .aborted || state == .aborting)
  | .releaseAll _, _ => true
  | _, _ => false

/-- A waiter re-checks when it was notified; a transaction's own thread sets its state, outside
of its lock calls. -/
def enabled (w : WakeState) : Label → Bool
  | .wake t => w.notified t
  | .setState t _ => (w.locks.calls t).isNone
  | _ => true

/-- The waiters notified after a step: those that were before and have not re-checked, or wait on a
queue that the step notifies. -/
def notifiedAfter (w : WakeState) (label : Label) (s : LockState) (t : Nat) : Bool :=
  match w.locks.calls t with
  | some call => waitsOn w.locks t call.queue && waitsOn s t call.queue &&
      ((w.notified t && label != .wake t) || notifies w.locks label call.queue)
  | none => false

def wakeStep (w : WakeState) (label : Label) : Option WakeState :=
  if enabled w label then (step w.locks label).map fun s => ⟨s, notifiedAfter w label s⟩ else none

def cursors (before : List LockRequest) : List LockRequest → List Cursor
  | [] => []
  | r :: rest => ⟨before, r, rest⟩ :: cursors (before ++ [r]) rest

def waitsUngranted (s : LockState) (q : QueueId) (r : LockRequest) : Bool :=
  waitsOn s r.txnId q && !isAbortPendingOrDone (s.txnState r.txnId) && !r.granted

/-- While no waiter of the queue has a notification pending, no waiting request of it could be
granted. -/
def NoLostWakeUp (w : WakeState) (q : QueueId) : Prop :=
  (∀ t, waitsOn w.locks t q = true → w.notified t = false) →
    ∀ c ∈ cursors [] (w.locks.queues q).requests, waitsUngranted w.locks q c.request = true →
      canGrantRequest q.isTable c ≠ some true

/-- Another request keeps the one under the cursor from being granted, by the edges of the
waits-for graph. -/
def heldBack (isTable : Bool) (c : Cursor) : Bool :=
  c.before.any (blocks isTable c.request true) || c.after.any (blocks isTable c.request false)

/-- Among these requests, nothing holds back some waiter that has no notification pending. -/
def strands (w : WakeState) (q : QueueId) (requests : List LockRequest) : Bool :=
  (cursors [] requests).any fun c =>
    waitsUngranted w.locks q c.request && !w.notified c.request.txnId && !heldBack q.isTable c

def passThrows (s : LockState) (t : Nat) (call : Call) : Bool :=
  match findRequest t call.range [] (s.queues call.queue).requests with
  | none => true
  | some none => false
  | some (some c) => !isAbortPendingOrDone (s.txnState t) &&
      (canGrantRequest call.queue.isTable c).isNone

/-- The pass grants the request, which alone held back a waiter that has re-checked before. -/
def passStrands (w : WakeState) (t : Nat) (call : Call) : Bool :=
  match findRequest t call.range [] (w.locks.queues call.queue).requests with
  | some (some c) => !isAbortPendingOrDone (w.locks.txnState t) &&
      canGrantRequest call.queue.isTable c == some true &&
      strands w call.queue (c.put { c.request with granted := true })
  | _ => false

/-- No comparison of keys fails in the loop, and a woken request that is granted was not the only
one to hold back a waiter that has already re-checked. -/
def wakesSafely (w : WakeState) : Label → Bool
  | .enqueue t => !(loopStart w.locks t).any fun pass => passThrows pass.2 t pass.1
  | .wake t => !(loopResume w.locks t).any fun pass =>
    passThrows pass.2 t pass.1 || passStrands w t pass.1
  | _ => true

section Cursors

variable {c : Cursor} {requests : List LockRequest}

theorem mem_cursors {before : List LockRequest} :
    c ∈ cursors before requests ↔
      ∃ front, c.before = before ++ front ∧ requests = front ++ c.request :: c.after := by
  induction requests generalizing before with
  | nil => simp [cursors]
  | cons r rest ih =>
    rw [cursors, List.mem_cons, ih]
    constructor
    · rintro (rfl | ⟨front, same, split⟩)
      · exact ⟨[], by simp, rfl⟩
      · exact ⟨r :: front, by simpa using same, by simp [split]⟩
    · rintro ⟨front, same, split⟩
      cases front with
      | nil =>
        obtain ⟨rfl, rfl⟩ := List.cons.inj split
        left
        cases c
        simpa using same
      | cons r' front =>
        obtain ⟨rfl, rfl⟩ := List.cons.inj split
        exact .inr ⟨front, by simpa using same, rfl⟩

def At (requests : List LockRequest) (c : Cursor) : Prop :=
  requests = c.before ++ c.request :: c.after

theorem mem_cursors_iff : c ∈ cursors [] requests ↔ At requests c := by
  rw [mem_cursors]
  simp [At]

theorem At.mem (here : At requests c) : c.request ∈ requests := by
  rw [here]
  simp

theorem place_cases {b b' a a' : List LockRequest} {r r' : LockRequest}
    (same : b ++ r :: a = b' ++ r' :: a') :
    (b' = b ∧ r' = r ∧ a' = a) ∨ (∃ m, b = b' ++ r' :: m ∧ a' = m ++ r :: a) ∨
      ∃ m, a = m ++ r' :: a' ∧ b' = b ++ r :: m := by
  rcases List.append_eq_append_iff.mp same with ⟨m, left, right⟩ | ⟨m, left, right⟩
  · cases m with
    | nil =>
      obtain ⟨rfl, rfl⟩ := List.cons.inj right
      exact .inl ⟨by simpa using left, rfl, rfl⟩
    | cons x m =>
      obtain ⟨rfl, rfl⟩ := List.cons.inj right
      exact .inr (.inr ⟨m, rfl, left⟩)
  · cases m with
    | nil =>
      obtain ⟨rfl, rfl⟩ := List.cons.inj right
      exact .inl ⟨by simpa using left.symm, rfl, rfl⟩
    | cons x m =>
      obtain ⟨rfl, rfl⟩ := List.cons.inj right
      exact .inr (.inl ⟨m, left, rfl⟩)

end Cursors

end GraniteDb.Concurrency.Notifications
