/- What lock calls return, and that the locks they report stay in their queues. -/

import GraniteDb.Concurrency.QueueChanges
import Mathlib.Logic.Relation

namespace GraniteDb.Concurrency.HeldLocks

open Concurrency.LockManager Concurrency.QueueChanges
open Concurrency.StrictTwoPhase (Found findRequest_some findRequest_none IsKeyRange
  mem_put entered waitLoopPass_setCall)
open Function (update_of_ne update_self update)
open Option (bind_eq_bind bind_some bind_eq_some_iff)

/-- What a pass of the wait loop returns, if it ends the call. An exception counts as a
refusal: the callers throw on either. -/
def passVerdict (s : LockState) (t : Nat) (call : Call) : Option Bool :=
  match findRequest t call.range [] (s.queues call.queue).requests with
  | none | some none => some false
  | some (some c) =>
    if isAbortPendingOrDone (s.txnState t) then some false
    else
      match canGrantRequest call.queue.isTable c with
      | none => some false
      | some true => some true
      | some false => none

def verdict (s : LockState) : Label → Option Bool
  | .call t _ _ _ => if isAbortPendingOrDone (s.txnState t) then some false else none
  | .prepare t => do
    let call ← s.calls t
    if !holdsTableLockFor s t call.queue call.mode then some false
    else
      match heldMode s t call.queue with
      | some held => if call.queue.satisfies held call.mode then some true else none
      | none => none
  | .enqueue t => do
    let call ← s.calls t
    match call.phase with
    | .prepared held =>
      match enterQueue (s.queues call.queue) t call held with
      | none | some .refused => some false
      | some .satisfied => some true
      | some (.queued queue) => passVerdict (s.setQueue call.queue queue) t call
    | _ => none
  | .wake t => do passVerdict s t (← s.calls t)
  | _ => none

/-- The ways a pass of the wait loop can go, with what it returns. -/
inductive Pass (s : LockState) (t : Nat) (call : Call) : LockState → Option Bool → Prop
  | lost (why : (∀ c, findRequest t call.range [] (s.queues call.queue).requests ≠ some (some c)) ∨
        ∃ c, Found t call.range (s.queues call.queue).requests c ∧
          canGrantRequest call.queue.isTable c = none) :
      Pass s t call (s.setCall t none) (some false)
  | erased (c : Cursor) (found : Found t call.range (s.queues call.queue).requests c)
      (aborting : isAbortPendingOrDone (s.txnState t) = true) :
      Pass s t call ((s.setQueue call.queue ⟨c.erase,
        resetUpgrading (s.queues call.queue).upgradingTxn t⟩).setCall t none) (some false)
  | granted (c : Cursor) (found : Found t call.range (s.queues call.queue).requests c)
      (running : isAbortPendingOrDone (s.txnState t) = false)
      (grantable : canGrantRequest call.queue.isTable c = some true) :
      Pass s t call (grantRequest s t call c) (some true)
  | waits (c : Cursor) (found : Found t call.range (s.queues call.queue).requests c)
      (running : isAbortPendingOrDone (s.txnState t) = false) :
      Pass s t call ((s.setTxnState t (setWaitingIfNotAborting (s.txnState t))).setCall t
        (some { call with phase := .waiting })) none

theorem pass_cases (s : LockState) (t : Nat) (call : Call) :
    Pass s t call (waitLoopPass s t call) (passVerdict s t call) := by
  unfold waitLoopPass passVerdict
  cases search : findRequest t call.range [] (s.queues call.queue).requests with
  | none => simpa [search] using .lost (.inl (by simp [search]))
  | some result =>
    cases result with
    | none => simpa [search] using .lost (.inl (by simp [search]))
    | some c =>
      have found := findRequest_some search
      cases aborting : isAbortPendingOrDone (s.txnState t) with
      | true => simpa [search] using .erased c found aborting
      | false =>
        cases grantable : canGrantRequest call.queue.isTable c with
        | none => simpa [search, grantable] using .lost (.inr ⟨c, found, grantable⟩)
        | some b =>
          cases b with
          | true => simpa [search, grantable] using .granted c found aborting grantable
          | false => simpa [search, grantable] using .waits c found aborting

section Invariant

structure Sound (q : QueueId) (s : LockState) : Prop where
  queue : QueueInv q (s.queues q)
  callFits : ∀ t call, s.calls t = some call → call.queue = q → Fits q call.range
  recorded : ¬IsKeyRange q → ∀ r ∈ (s.queues q).requests, r.granted = true →
    s.locks r.txnId q = some r.mode
  prepared : ∀ t call held, s.calls t = some call → call.queue = q →
    call.phase = .prepared held → ∀ mode, heldMode s t q = some mode →
      held = some mode ∧ q.satisfies mode call.mode = false
  waiting : ∀ t call, s.calls t = some call → call.queue = q → call.phase = .waiting →
    ∀ r ∈ (s.queues q).requests, r.txnId = t → sameRange r.range call.range = some true →
      r.granted = false ∧ (call.mode = .x → r.mode = .x)

theorem combine_exclusive (q : QueueId) (mode : LockMode) : q.combine mode .x = .x := by
  cases q <;> cases mode <;> rfl

variable {call : Call} {t : Nat} {s' : LockState} {released aborted : Nat → Prop}
  {queue : LockRequestQueue}

theorem targetMode_exclusive (exclusive : call.mode = .x) (held : Option LockMode) :
    targetMode call held = .x := by
  cases held with
  | none => exact exclusive
  | some mode => rw [targetMode, exclusive, combine_exclusive]

theorem Sound.empty (q : QueueId) : Sound q LockState.empty where
  queue := QueueInv.empty q
  callFits _ _ calls := by cases calls
  recorded _ _ member := by cases member
  prepared _ _ _ calls := by cases calls
  waiting _ _ calls := by cases calls

theorem heldMode_congr {s : LockState} {q : QueueId} (same : s'.locks t q = s.locks t q) :
    heldMode s' t q = heldMode s t q := by
  cases q with
  | table _ | record _ => exact same
  | keyRange _ => rfl

variable {q : QueueId} {s : LockState}

theorem Sound.frame (sound : Sound q s) (sameQueue : s'.queues q = s.queues q)
    (sameLocks : ∀ t, s'.locks t q = s.locks t q)
    (calls : ∀ t call, s'.calls t = some call → call.queue = q → s.calls t = some call) :
    Sound q s' where
  queue := sameQueue ▸ sound.queue
  callFits t call isCall here := sound.callFits t call (calls t call isCall here) here
  recorded notKey := by
    rw [sameQueue]
    intro r member granted
    rw [sameLocks]
    exact sound.recorded notKey r member granted
  prepared t call held isCall here phase mode := by
    rw [heldMode_congr (sameLocks t)]
    exact sound.prepared t call held (calls t call isCall here) here phase mode
  waiting t call isCall here phase := by
    rw [sameQueue]
    exact sound.waiting t call (calls t call isCall here) here phase

theorem Sound.endCall (sound : Sound q s) (t : Nat) : Sound q (s.setCall t none) := by
  refine sound.frame rfl (fun _ => rfl) ?_
  intro u call isCall _
  by_cases mine : u = t
  · rw [mine, setCall_calls_self] at isCall
    cases isCall
  · rwa [setCall_calls_of_ne s none mine] at isCall

theorem Sound.setTxnState (sound : Sound q s) (t : Nat) (state : Common.Types.TransactionState) :
    Sound q (s.setTxnState t state) :=
  sound.frame rfl (fun _ => rfl) fun _ _ isCall _ => isCall

theorem queued_pass (s : LockState) (t : Nat) (call : Call) (queue : LockRequestQueue) :
    waitLoopPass (entered s t call queue) t { call with phase := .waiting } =
      waitLoopPass (s.setQueue call.queue queue) t call :=
  waitLoopPass_setCall _ _ _ _ _

abbrev Changes (q : QueueId) (released aborted : Nat → Prop) :
    LockRequestQueue → LockRequestQueue → Prop :=
  Relation.ReflTransGen (Change q released aborted)

theorem Changes.keeps_exclusive {queue' : LockRequestQueue}
    (changes : Changes q released aborted queue queue') {r : LockRequest}
    (member : r ∈ queue.requests) (granted : r.granted = true) (exclusive : r.mode = .x)
    (kept : ¬released r.txnId) : r ∈ queue'.requests := by
  induction changes with
  | refl => exact member
  | tail _ change ih => exact change.keeps_exclusive ih granted exclusive kept

theorem Changes.keeps_foothold {queue' : LockRequestQueue}
    (changes : Changes q released aborted queue queue') (foothold : Foothold queue t)
    (kept : ¬released t) (running : ¬aborted t) : Foothold queue' t := by
  induction changes with
  | refl => exact foothold
  | tail _ change ih => exact change.keeps_foothold ih kept running

private theorem not_satisfies_exclusive {q : QueueId} {mode : LockMode} {held : LockMode}
    (weak : q.satisfies held mode = false) : held ≠ .x := by
  rintro rfl
  cases q <;> cases mode <;>
    simp [QueueId.satisfies, QueueId.combine, combineTableModes, combineTupleOrRangeModes] at weak

section

variable (sound : Sound q s)

include sound

theorem Sound.enters {held : Option LockMode} (calls : s.calls t = some call)
    (here : call.queue = q) (phase : call.phase = .prepared held)
    (queued : enterQueue (s.queues call.queue) t call held = some (.queued queue)) :
    Change q released aborted (s.queues q) queue ∧
      (∀ r ∈ queue.requests, r.granted = true → r ∈ (s.queues q).requests) ∧
      (∀ u, u ≠ t → ∀ r ∈ queue.requests, r.txnId = u → r ∈ (s.queues q).requests) ∧
      ∀ r ∈ queue.requests, r.txnId = t → sameRange r.range call.range = some true →
        r.granted = false ∧ (call.mode = .x → r.mode = .x) := by
  subst here
  have fits := sound.callFits t call calls rfl
  obtain ⟨entry, search, isQueued⟩ := Option.map_eq_some_iff.mp queued
  cases entry with
  | none =>
    simp only [Entry.queued.injEq] at isQueued
    subst isQueued
    have absent := findRequest_none search
    refine ⟨.push t _ call.range absent fits, ?_, ?_, ?_⟩
    · intro r member granted
      rcases List.mem_append.mp member with old | new
      · exact old
      · rw [List.mem_singleton.mp new] at granted
        cases granted
    · intro u other r member mine
      rcases List.mem_append.mp member with old | new
      · exact old
      · rw [List.mem_singleton.mp new] at mine
        exact absurd mine.symm other
    · intro r member mine same
      rcases List.mem_append.mp member with old | new
      · rw [absent r old mine] at same
        cases same
      · rw [List.mem_singleton.mp new]
        refine ⟨rfl, fun exclusive => ?_⟩
        dsimp only
        split
        · exact exclusive
        · exact targetMode_exclusive exclusive held
  | some c =>
    have found := findRequest_some search
    have inQueue : c.request ∈ (s.queues call.queue).requests := by
      rw [found.split]
      simp
    have old {r : LockRequest} (member : r ∈ c.before ∨ r ∈ c.after) :
        r ∈ (s.queues call.queue).requests := by
      rw [found.split]
      rcases member with early | late
      · simp [early]
      · simp [late]
    -- Whatever request stands at the cursor now, it is not granted and still of `t`.
    have rest {r' : LockRequest} (mine' : r'.txnId = t) (ungranted : r'.granted = false)
        (strong : call.mode = .x → r'.mode = .x) :
        (∀ r ∈ c.put r', r.granted = true → r ∈ (s.queues call.queue).requests) ∧
        (∀ u, u ≠ t → ∀ r ∈ c.put r', r.txnId = u → r ∈ (s.queues call.queue).requests) ∧
        ∀ r ∈ c.put r', r.txnId = t → sameRange r.range call.range = some true →
          r.granted = false ∧ (call.mode = .x → r.mode = .x) := by
      refine ⟨?_, ?_, ?_⟩
      · intro r member granted
        rcases mem_put.mp member with early | rfl | late
        · exact old (.inl early)
        · rw [ungranted] at granted
          cases granted
        · exact old (.inr late)
      · intro u other r member mine
        rcases mem_put.mp member with early | rfl | late
        · exact old (.inl early)
        · exact absurd (mine.symm.trans mine') other
        · exact old (.inr late)
      · intro r member mine same
        have others {P : Prop} (inRest : r ∈ c.before ∨ r ∈ c.after) : P := by
          refine absurd ?_ (sound.queue.alone found inRest mine)
          exact (sound.queue.fits r (old inRest)).match_trans
            (sound.queue.fits c.request inQueue) fits same found.hit
        rcases mem_put.mp member with early | rfl | late
        · exact others (.inl early)
        · exact ⟨ungranted, strong⟩
        · exact others (.inr late)
    have marked {target : LockMode}
        (weak : c.request.granted = true → c.request.mode ≠ target ∧ c.request.mode ≠ .x)
        (retargeted : retarget (s.queues call.queue) t c target = .queued queue) :
        Change call.queue released aborted (s.queues call.queue) queue ∧
        ∃ r', r'.txnId = t ∧ r'.granted = false ∧ r'.mode = target ∧
          queue.requests = c.put r' := by
      unfold retarget at retargeted
      split at retargeted
      · rename_i upgrades
        obtain ⟨granted, _⟩ := Bool.and_eq_true_iff.mp upgrades
        split at retargeted
        · cases retargeted
        · rename_i free
          cases retargeted
          refine ⟨.upgrade t call.range c target found granted (weak granted).2 ?_,
            { c.request with mode := target, granted := false }, found.mine, rfl, rfl, rfl⟩
          intro u upgrading
          simpa [upgrading] using free
      · rename_i stays
        cases retargeted
        have ungranted : c.request.granted = false := by
          cases granted : c.request.granted with
          | false => rfl
          | true => simp [granted, (weak granted).1] at stays
        exact ⟨.mark t call.range c target found ungranted, { c.request with mode := target },
          found.mine, ungranted, rfl, rfl⟩
    have finish {target : LockMode}
        (weak : c.request.granted = true → c.request.mode ≠ target ∧ c.request.mode ≠ .x)
        (strong : call.mode = .x → target = .x)
        (retargeted : retarget (s.queues call.queue) t c target = .queued queue) :
        Change call.queue released aborted (s.queues call.queue) queue ∧
        (∀ r ∈ queue.requests, r.granted = true → r ∈ (s.queues call.queue).requests) ∧
        (∀ u, u ≠ t → ∀ r ∈ queue.requests, r.txnId = u →
          r ∈ (s.queues call.queue).requests) ∧
        ∀ r ∈ queue.requests, r.txnId = t → sameRange r.range call.range = some true →
          r.granted = false ∧ (call.mode = .x → r.mode = .x) := by
      obtain ⟨change, r', mine', ungranted, isTarget, requests⟩ := marked weak retargeted
      rw [requests]
      exact ⟨change, rest mine' ungranted fun exclusive => isTarget.trans (strong exclusive)⟩
    simp only at isQueued
    split at isQueued
    · rename_i id isKey
      split at isQueued
      · cases isQueued
      · rename_i unsatisfied
        refine finish ?_ (fun exclusive => by rw [exclusive, combine_exclusive]) isQueued
        intro granted
        have differs : c.request.mode ≠ call.queue.combine c.request.mode call.mode := by
          intro same
          exact unsatisfied (Bool.and_eq_true_iff.mpr ⟨granted, beq_iff_eq.mpr same⟩)
        refine ⟨differs, ?_⟩
        intro exclusive
        rw [exclusive, isKey] at differs
        exact differs rfl
    · rename_i notRange
      refine finish ?_ (fun exclusive => targetMode_exclusive exclusive held) isQueued
      intro granted
      have notKey : ¬IsKeyRange call.queue := by
        intro isKey
        cases name : call.queue with
        | keyRange id => exact notRange id name
        | table _ | record _ =>
          rw [name] at isKey
          exact isKey
      have known := sound.recorded notKey c.request inQueue granted
      have isHeld : heldMode s t call.queue = some c.request.mode := by
        rw [found.mine] at known
        cases name : call.queue with
        | keyRange id => exact absurd name (notRange id)
        | table _ | record _ =>
          rw [name] at known
          exact known
      obtain ⟨isMode, weak⟩ := sound.prepared t call held calls rfl phase _ isHeld
      refine ⟨?_, not_satisfies_exclusive weak⟩
      intro same
      rw [isMode, targetMode] at same
      rw [QueueId.satisfies, ← same] at weak
      simp at weak

private theorem Sound.fewer (inv : QueueInv q (s'.queues q))
    (subset : ∀ r ∈ (s'.queues q).requests, r ∈ (s.queues q).requests)
    (locks : ∀ r ∈ (s'.queues q).requests, s'.locks r.txnId q = s.locks r.txnId q)
    (held : ∀ t mode, heldMode s' t q = some mode → heldMode s t q = some mode)
    (calls : ∀ t call, s'.calls t = some call → s.calls t = some call) : Sound q s' where
  queue := inv
  callFits t call isCall := sound.callFits t call (calls t call isCall)
  recorded notKey r member granted :=
    (locks r member).trans (sound.recorded notKey r (subset r member) granted)
  prepared t call mode isCall here phase mode' isHeld :=
    sound.prepared t call mode (calls t call isCall) here phase mode' (held t mode' isHeld)
  waiting t call isCall here phase r member :=
    sound.waiting t call (calls t call isCall) here phase r (subset r member)

theorem Sound.enter {held : Option LockMode} (calls : s.calls t = some call)
    (phase : call.phase = .prepared held)
    (queued : enterQueue (s.queues call.queue) t call held = some (.queued queue)) :
    Sound q (entered s t call queue) := by
  have others {u : Nat} (apart : u ≠ t) : (entered s t call queue).calls u = s.calls u :=
    setCall_calls_of_ne _ _ apart
  have own : (entered s t call queue).calls t = some { call with phase := .waiting } :=
    setCall_calls_self _ _ _
  by_cases here : call.queue = q
  · have sameQueue : (entered s t call queue).queues q = queue := by
      rw [← here]
      exact setQueue_queues_self _ _ _
    have entering : Change q (fun _ => False) (fun _ => False) (s.queues q) queue ∧ _ :=
      sound.enters calls here phase queued
    obtain ⟨change, granted, foreign, unmatched⟩ := entering
    constructor
    · rw [sameQueue]
      exact change.inv sound.queue
    · intro u call' isCall here'
      by_cases mine : u = t
      · rw [mine, own] at isCall
        cases isCall
        exact sound.callFits t call calls here
      · rw [others mine] at isCall
        exact sound.callFits u call' isCall here'
    · rw [sameQueue]
      exact fun notKey r member isGranted =>
        sound.recorded notKey r (granted r member isGranted) isGranted
    · intro u call' mode isCall here' phase' mode' isHeld
      by_cases mine : u = t
      · rw [mine, own] at isCall
        cases isCall
        cases phase'
      · rw [others mine] at isCall
        exact sound.prepared u call' mode isCall here' phase' mode' isHeld
    · rw [sameQueue]
      intro u call' isCall here' phase' r member isMine same
      by_cases mine : u = t
      · subst mine
        rw [own] at isCall
        cases isCall
        exact unmatched r member isMine same
      · rw [others mine] at isCall
        exact sound.waiting u call' isCall here' phase' r (foreign u mine r member isMine) isMine
          same
  · refine sound.frame (setQueue_queues_of_ne _ _ (Ne.symm here)) (fun _ => rfl) ?_
    intro u call' isCall here'
    by_cases mine : u = t
    · rw [mine, own] at isCall
      cases isCall
      exact absurd here' here
    · rwa [others mine] at isCall

private theorem Sound.grant {t : Nat} {call : Call} {c : Cursor}
    (calls : s.calls t = some call) (waits : call.phase = .waiting)
    (found : Found t call.range (s.queues call.queue).requests c)
    (grantable : canGrantRequest call.queue.isTable c = some true) {released aborted : Nat → Prop} :
    Sound q (grantRequest s t call c) ∧
      Changes q released aborted (s.queues q) ((grantRequest s t call c).queues q) := by
  have inQueue : c.request ∈ (s.queues call.queue).requests := by
    rw [found.split]
    simp
  have others {u : Nat} (apart : u ≠ t) : (grantRequest s t call c).calls u = s.calls u :=
    update_of_ne apart _ _
  have own : (grantRequest s t call c).calls t = none := update_self _ _ _
  have locksOf {u : Nat} (q' : QueueId) (apart : u ≠ t) :
      (grantRequest s t call c).locks u q' = s.locks u q' := by
    unfold grantRequest
    cases call.queue <;> simp [update_of_ne apart]
  by_cases here : call.queue = q
  · subst here
    have ungranted :=
      (sound.waiting t call calls rfl waits c.request inQueue found.mine found.hit).1
    have sameQueue : (grantRequest s t call c).queues call.queue =
        ⟨c.put { c.request with granted := true },
          resetUpgrading (s.queues call.queue).upgradingTxn t⟩ := update_self _ _ _
    have change : Change call.queue released aborted (s.queues call.queue)
        ((grantRequest s t call c).queues call.queue) := by
      rw [sameQueue]
      exact .grant t call.range c found ungranted grantable
    have old {r : LockRequest} (member : r ∈ c.before ∨ r ∈ c.after) :
        r ∈ (s.queues call.queue).requests := by
      rw [found.split]
      rcases member with early | late
      · simp [early]
      · simp [late]
    refine ⟨⟨change.inv sound.queue, ?_, ?_, ?_, ?_⟩, .single change⟩
    · intro u call' isCall here'
      by_cases mine : u = t
      · rw [mine, own] at isCall
        cases isCall
      · rw [others mine] at isCall
        exact sound.callFits u call' isCall here'
    · rw [sameQueue]
      intro notKey r member isGranted
      have alone {r : LockRequest} (rest : r ∈ c.before ∨ r ∈ c.after) : r.txnId ≠ t := by
        intro mine
        refine sound.queue.alone found rest mine ?_
        have fitsR := sound.queue.fits r (old rest)
        have fitsC := sound.queue.fits c.request inQueue
        cases name : call.queue with
        | keyRange id =>
          rw [name] at notKey
          exact absurd trivial notKey
        | table _ | record _ =>
          rw [name] at fitsR fitsC
          rw [show r.range = none from fitsR, show c.request.range = none from fitsC]
          rfl
      have kept (rest : r ∈ c.before ∨ r ∈ c.after) :
          (grantRequest s t call c).locks r.txnId call.queue = some r.mode := by
        rw [locksOf _ (alone rest)]
        exact sound.recorded notKey r (old rest) isGranted
      rcases mem_put.mp member with early | rfl | late
      · exact kept (.inl early)
      · show (grantRequest s t call c).locks c.request.txnId call.queue = some c.request.mode
        rw [found.mine]
        unfold grantRequest
        cases name : call.queue with
        | keyRange id =>
          rw [name] at notKey
          exact absurd trivial notKey
        | table _ | record _ => simp
      · exact kept (.inr late)
    · intro u call' mode isCall here' phase' mode' isHeld
      by_cases mine : u = t
      · rw [mine, own] at isCall
        cases isCall
      · rw [others mine] at isCall
        rw [heldMode_congr (locksOf _ mine)] at isHeld
        exact sound.prepared u call' mode isCall here' phase' mode' isHeld
    · rw [sameQueue]
      intro u call' isCall here' phase' r member isMine same
      by_cases mine : u = t
      · rw [mine, own] at isCall
        cases isCall
      · rw [others mine] at isCall
        rcases mem_put.mp member with early | rfl | late
        · exact sound.waiting u call' isCall here' phase' r (old (.inl early)) isMine same
        · exact absurd (isMine.symm.trans found.mine) mine
        · exact sound.waiting u call' isCall here' phase' r (old (.inr late)) isMine same
  · have sameQueue : (grantRequest s t call c).queues q = s.queues q :=
      update_of_ne (Ne.symm here) _ _
    refine ⟨sound.frame sameQueue ?_ ?_, ?_⟩
    · intro u
      by_cases mine : u = t
      · subst mine
        unfold grantRequest
        cases name : call.queue with
        | keyRange _ => rfl
        | table _ | record _ =>
          rw [name] at here
          simp [update_of_ne (Ne.symm here)]
      · exact locksOf q mine
    · intro u call' isCall _
      by_cases mine : u = t
      · rw [mine, own] at isCall
        cases isCall
      · rwa [others mine] at isCall
    · rw [sameQueue]

theorem Sound.pass (calls : s.calls t = some call)
    (waits : call.phase = .waiting)
    (ended : isAbortPendingOrDone (s.txnState t) = true → aborted t) :
    Sound q (waitLoopPass s t call) ∧
      Changes q released aborted (s.queues q) ((waitLoopPass s t call).queues q) := by
  have way := pass_cases s t call
  generalize waitLoopPass s t call = s', passVerdict s t call = result at way
  have ends {m : LockState} {u : Nat} {call' : Call}
      (isCall : (m.setCall t none).calls u = some call') (same : m.calls = s.calls) :
      s.calls u = some call' := by
    by_cases mine : u = t
    · rw [mine, setCall_calls_self] at isCall
      cases isCall
    · rwa [setCall_calls_of_ne _ _ mine, same] at isCall
  cases way with
  | lost _ => exact ⟨sound.endCall t, .refl⟩
  | granted c found running grantable => exact sound.grant calls waits found grantable
  | waits c found running =>
    refine ⟨sound.frame rfl (fun _ => rfl) ?_, .refl⟩
    intro u call' isCall _
    by_cases mine : u = t
    · subst mine
      rw [setCall_calls_self] at isCall
      cases isCall
      rw [calls, ← waits]
    · rwa [setCall_calls_of_ne _ _ mine] at isCall
  | erased c found aborting =>
    by_cases here : call.queue = q
    · subst here
      have inQueue : c.request ∈ (s.queues call.queue).requests := by
        rw [found.split]
        simp
      have ungranted :=
        (sound.waiting t call calls rfl waits c.request inQueue found.mine found.hit).1
      have change : Change call.queue released aborted (s.queues call.queue)
          ⟨c.erase, resetUpgrading (s.queues call.queue).upgradingTxn t⟩ :=
        .erase t call.range c found ungranted (ended aborting)
      have sameQueue : ((s.setQueue call.queue ⟨c.erase,
          resetUpgrading (s.queues call.queue).upgradingTxn t⟩).setCall t none).queues
            call.queue = ⟨c.erase, resetUpgrading (s.queues call.queue).upgradingTxn t⟩ :=
        setQueue_queues_self _ _ _
      refine ⟨sound.fewer ?_ ?_ (fun _ _ => rfl) (fun u mode isHeld => ?_)
        (fun _ _ isCall => ends isCall rfl), ?_⟩
      · rw [sameQueue]
        exact change.inv sound.queue
      · rw [sameQueue, found.split]
        intro r member
        rcases List.mem_append.mp member with early | late
        · exact List.mem_append_left _ early
        · exact List.mem_append_right _ (List.mem_cons_of_mem _ late)
      · exact (heldMode_congr rfl).symm.trans isHeld
      · rw [sameQueue]
        exact .single change
    · have sameQueue : ((s.setQueue call.queue ⟨c.erase,
          resetUpgrading (s.queues call.queue).upgradingTxn t⟩).setCall t none).queues q =
            s.queues q := setQueue_queues_of_ne _ _ (Ne.symm here)
      exact ⟨sound.frame sameQueue (fun _ => rfl) fun _ _ isCall _ => ends isCall rfl,
        by rw [sameQueue]⟩

end

private theorem pass_aborting (aborting : isAbortPendingOrDone (s.txnState t) = true) :
    isAbortPendingOrDone ((waitLoopPass s t call).txnState t) = true := by
  have way := pass_cases s t call
  generalize waitLoopPass s t call = s', passVerdict s t call = result at way
  cases way with
  | lost _ | erased _ _ _ => exact aborting
  | granted _ _ running _ | waits _ _ running =>
    rw [running] at aborting
    cases aborting

private theorem Sound.startCall (sound : Sound q s) (fits : call.queue = q → Fits q call.range)
    (phase : call.phase ≠ .waiting)
    (held : call.queue = q → ∀ mode, call.phase = .prepared mode → ∀ mode', heldMode s t q = some
      mode' → mode = some mode' ∧ q.satisfies mode' call.mode = false) :
    Sound q (s.setCall t (some call)) where
  queue := sound.queue
  callFits u call' isCall here := by
    by_cases mine : u = t
    · rw [mine, setCall_calls_self] at isCall
      cases isCall
      exact fits here
    · rw [setCall_calls_of_ne _ _ mine] at isCall
      exact sound.callFits u call' isCall here
  recorded := sound.recorded
  prepared u call' mode isCall here phase' mode' isHeld := by
    have sameHeld : heldMode s u q = some mode' := (heldMode_congr rfl).symm.trans isHeld
    by_cases mine : u = t
    · subst mine
      rw [setCall_calls_self] at isCall
      cases isCall
      exact held here mode phase' mode' sameHeld
    · rw [setCall_calls_of_ne _ _ mine] at isCall
      exact sound.prepared u call' mode isCall here phase' mode' sameHeld
  waiting u call' isCall here phase' := by
    by_cases mine : u = t
    · rw [mine, setCall_calls_self] at isCall
      cases isCall
      exact absurd phase' phase
    · rw [setCall_calls_of_ne _ _ mine] at isCall
      exact sound.waiting u call' isCall here phase'

private theorem Sound.abortVictim (sound : Sound q s) (t : Nat) :
    Sound q (LockManager.abortVictim s t) ∧ Changes q released
      (fun u => isAbortPendingOrDone ((LockManager.abortVictim s t).txnState u) = true)
      (s.queues q) ((LockManager.abortVictim s t).queues q) := by
  by_cases ended : s.txnState t = .committed ∨ s.txnState t = .aborted ∨ s.txnState t = .aborting
  · rw [LockManager.abortVictim, if_pos ended]
    exact ⟨sound, .refl⟩
  · have marked : isAbortPendingOrDone (LockManager.tryMarkAborting (s.txnState t)) = true := by
      rw [LockManager.tryMarkAborting, if_neg fun done => ended (done.imp id .inl)]
      rfl
    have change : Change q released (fun u => isAbortPendingOrDone (update s.txnState t
        (LockManager.tryMarkAborting (s.txnState t)) u) = true) (s.queues q)
        (removeUngranted t (s.queues q)) :=
      .drop t (by rwa [update_self])
    rw [LockManager.abortVictim, if_neg ended]
    refine ⟨sound.fewer (change.inv sound.queue) ?_ (fun _ _ => rfl) ?_ (fun _ _ h => h),
      .single change⟩
    · exact fun r member => List.mem_of_mem_filter member
    · exact fun _ _ isHeld => (heldMode_congr rfl).symm.trans isHeld

theorem Sound.step {label : Label} (sound : Sound q s)
    (fits : ∀ t range mode, label = .call t q range mode → Fits q range)
    (taken : LockManager.step s label = some s') :
    Sound q s' ∧ Changes q (fun u => label = .releaseAll u)
      (fun u => isAbortPendingOrDone (s'.txnState u) = true) (s.queues q) (s'.queues q) := by
  cases label with
  | call t q' range mode =>
    simp only [LockManager.step] at taken
    split at taken
    · split at taken
      · cases taken
        exact ⟨sound, .refl⟩
      · cases taken
        refine ⟨sound.startCall ?_ (by simp) (by rintro _ _ ⟨⟩), .refl⟩
        rintro rfl
        exact fits t range mode rfl
    · cases taken
  | prepare t =>
    simp only [LockManager.step, bind_eq_bind, bind_eq_some_iff] at taken
    obtain ⟨call, isCall, next⟩ := taken
    split at next
    · split at next
      · cases next
        exact ⟨sound.endCall t, .refl⟩
      · split at next
        · rename_i held isHeld
          split at next
          · cases next
            exact ⟨sound.endCall t, .refl⟩
          · rename_i weak
            cases next
            refine ⟨sound.startCall (fun here => sound.callFits t call isCall here) (by simp) ?_,
              .refl⟩
            rintro rfl mode isMode mode' isHeld'
            rw [isHeld] at isHeld'
            cases isHeld'
            cases isMode
            exact ⟨rfl, by simpa using weak⟩
        · rename_i isHeld
          cases next
          refine ⟨sound.startCall (fun here => sound.callFits t call isCall here) (by simp) ?_,
            .refl⟩
          rintro rfl mode isMode mode' isHeld'
          rw [isHeld] at isHeld'
          cases isHeld'
    · cases next
  | enqueue t =>
    simp only [LockManager.step, bind_eq_bind, bind_eq_some_iff] at taken
    obtain ⟨call, isCall, next⟩ := taken
    split at next
    · rename_i held phase
      split at next
      · cases next
        exact ⟨sound.endCall t, .refl⟩
      · cases next
        exact ⟨(sound.setTxnState t _).endCall t, .refl⟩
      · cases next
        exact ⟨sound.endCall t, .refl⟩
      · rename_i queue queued
        cases next
        rw [← queued_pass]
        have inside := sound.enter isCall phase queued
        obtain ⟨after, changes⟩ :
            Sound q (waitLoopPass (entered s t call queue) t { call with phase := .waiting }) ∧
              Changes q (fun u => Label.enqueue t = .releaseAll u)
                (fun u => isAbortPendingOrDone ((waitLoopPass (entered s t call queue) t
                  { call with phase := .waiting }).txnState u) = true)
                ((entered s t call queue).queues q)
                ((waitLoopPass (entered s t call queue) t
                  { call with phase := .waiting }).queues q) :=
          inside.pass (setCall_calls_self _ _ _) rfl pass_aborting
        refine ⟨after, ?_⟩
        by_cases here : call.queue = q
        · have sameQueue : (entered s t call queue).queues q = queue := by
            rw [← here]
            exact setQueue_queues_self _ _ _
          rw [sameQueue] at changes
          exact .head (sound.enters isCall here phase queued).1 changes
        · have sameQueue : (entered s t call queue).queues q = s.queues q :=
            setQueue_queues_of_ne _ _ (Ne.symm here)
          rwa [sameQueue] at changes
    · cases next
  | wake t =>
    simp only [LockManager.step, bind_eq_bind, bind_eq_some_iff] at taken
    obtain ⟨call, isCall, next⟩ := taken
    split at next
    · rename_i waits
      cases next
      exact sound.pass isCall waits pass_aborting
    · cases next
  | setState t state =>
    cases taken
    exact ⟨sound.setTxnState t state, .refl⟩
  | tryMarkAborting t =>
    cases taken
    exact ⟨sound.setTxnState t _, .refl⟩
  | abortVictim cycle =>
    simp only [LockManager.step] at taken
    split at taken
    · cases taken
    · split at taken
      · cases taken
        exact sound.abortVictim _
      · cases taken
  | releaseAll t =>
    cases taken
    have change : Change q (fun u => Label.releaseAll t = .releaseAll u)
        (fun u => isAbortPendingOrDone ((LockManager.releaseAll s t).txnState u) = true)
        (s.queues q) (releaseQueue t (s.queues q)) := .release t rfl
    have kept {u : Nat} (apart : u ≠ t) : (LockManager.releaseAll s t).locks u q = s.locks u q := by
      show update s.locks t (fun _ => none) u q = _
      rw [update_of_ne apart]
    refine ⟨sound.fewer (change.inv sound.queue) ?_ ?_ ?_ (fun _ _ h => h), .single change⟩
    · exact fun r member => List.mem_of_mem_filter member
    · intro r member
      refine kept ?_
      simpa using (List.mem_filter.mp member).2
    · intro u mode isHeld
      by_cases mine : u = t
      · subst mine
        have emptied : (LockManager.releaseAll s u).locks u q = none := by
          show update s.locks u (fun _ => none) u q = _
          rw [update_self]
        cases q with
        | keyRange _ => cases isHeld
        | table _ | record _ =>
          simp only [heldMode, emptied] at isHeld
          cases isHeld
      · exact (heldMode_congr (kept mine)).symm.trans isHeld

end Invariant

section Reported

variable {q : QueueId} {s : LockState}

/-- Every table lock on record is granted in the queue, unless its transaction waits there for
an upgrade or was aborted while it did. -/
def Backed (q : QueueId) (s : LockState) : Prop :=
  ∀ t mode, s.locks t q = some mode →
    (∃ r ∈ (s.queues q).requests, r.txnId = t ∧ r.granted = true ∧ r.mode = mode) ∨
    (∃ call, s.calls t = some call ∧ call.queue = q ∧ call.phase = .waiting ∧
      (isAbortPendingOrDone (s.txnState t) = true ∨
        ∃ r ∈ (s.queues q).requests, r.txnId = t)) ∨
    (s.calls t = none ∧ isAbortPendingOrDone (s.txnState t) = true)

theorem Backed.empty (q : QueueId) : Backed q LockState.empty := by
  rintro t mode ⟨⟩

def keepsAborts (s : LockState) (label : Label) : Prop :=
  ∀ t state, label = .setState t state → isAbortPendingOrDone (s.txnState t) = true →
    isAbortPendingOrDone state = true

variable {t : Nat} {requests : List LockRequest} {call : Call} {s' : LockState}
  {state : Common.Types.TransactionState}

private theorem findRequest_present {range : Option KeyRange} (front : List LockRequest)
    (ranges : ∀ r ∈ requests, sameRange r.range range = some true)
    (present : ∃ r ∈ requests, r.txnId = t) :
    ∃ c, findRequest t range front requests = some (some c) := by
  induction requests generalizing front with
  | nil =>
    obtain ⟨_, member, _⟩ := present
    cases member
  | cons r rest ih =>
    unfold findRequest
    by_cases mine : r.txnId = t
    · simp [mine, ranges r List.mem_cons_self]
    · simp only [mine, if_false]
      refine ih _ (fun r' member => ranges r' (List.mem_cons_of_mem _ member)) ?_
      obtain ⟨r', member, mine'⟩ := present
      rcases List.mem_cons.mp member with rfl | later
      · exact absurd mine' mine
      · exact ⟨r', later, mine'⟩

private theorem Sound.not_lost (sound : Sound q s) (isTable : q.isTable = true)
    (here : call.queue = q) (fits : Fits q call.range)
    (present : ∃ r ∈ (s.queues q).requests, r.txnId = t) :
    ¬((∀ c, findRequest t call.range [] (s.queues call.queue).requests ≠ some (some c)) ∨
      ∃ c, Found t call.range (s.queues call.queue).requests c ∧
        canGrantRequest call.queue.isTable c = none) := by
  subst here
  rintro (absent | ⟨c, found, failed⟩)
  · obtain ⟨c, isFound⟩ := findRequest_present (t := t) []
      (fun r member => by
        rw [(sound.queue.fits r member).eq_none isTable]
        rfl) present
    exact absent c isFound
  · have overlaps (r : LockRequest) (member : r ∈ c.before ∨ r ∈ c.after) :
        overlap r.range c.request.range ≠ none := by
      have inQueue : r ∈ (s.queues call.queue).requests := by
        rw [found.split]
        rcases member with early | late
        · simp [early]
        · simp [late]
      rw [(sound.queue.fits r inQueue).eq_none isTable]
      exact Option.some_ne_none true
    unfold canGrantRequest at failed
    cases before : grantableBefore call.queue.isTable c.request c.before with
    | none => exact grantableBefore_ne_none (fun r member _ => overlaps r (.inl member)) before
    | some b =>
      rw [before] at failed
      cases b with
      | false => cases failed
      | true =>
        exact grantableAfter_ne_none (fun r member _ _ => overlaps r (.inr member)) failed

private theorem Backed.other (s' : LockState) (backed : Backed q s)
    (locks : ∀ u, u ≠ t → s'.locks u q = s.locks u q) (calls : ∀ u, u ≠ t → s'.calls u = s.calls u)
    (states : ∀ u, u ≠ t → s'.txnState u = s.txnState u)
    (requests : ∀ u, u ≠ t → ∀ r ∈ (s.queues q).requests, r.txnId = u → r ∈ (s'.queues q).requests)
    {u : Nat} (apart : u ≠ t) {mode : LockMode} (held : s'.locks u q = some mode) :
    (∃ r ∈ (s'.queues q).requests, r.txnId = u ∧ r.granted = true ∧ r.mode = mode) ∨
    (∃ call, s'.calls u = some call ∧ call.queue = q ∧ call.phase = .waiting ∧
      (isAbortPendingOrDone (s'.txnState u) = true ∨
        ∃ r ∈ (s'.queues q).requests, r.txnId = u)) ∨
    (s'.calls u = none ∧ isAbortPendingOrDone (s'.txnState u) = true) := by
  rw [locks u apart] at held
  rw [calls u apart, states u apart]
  rcases backed u mode held with ⟨r, member, mine, granted⟩ | ⟨call, isCall, here, phase, why⟩ | done
  · exact .inl ⟨r, requests u apart r member mine, mine, granted⟩
  · refine .inr (.inl ⟨call, isCall, here, phase, why.imp id ?_⟩)
    rintro ⟨r, member, mine⟩
    exact ⟨r, requests u apart r member mine, mine⟩
  · exact .inr (.inr done)

section

variable (backed : Backed q s)

include backed

private theorem Backed.granted {t : Nat} {call : Call}
    (isCall : s.calls t = some call) (phase : call.phase ≠ .waiting) {mode : LockMode}
    (held : s.locks t q = some mode) :
    ∃ r ∈ (s.queues q).requests, r.txnId = t ∧ r.granted = true ∧ r.mode = mode := by
  rcases backed t mode held with found | ⟨call', isCall', -, waits, -⟩ | ⟨ended, -⟩
  · exact found
  · rw [isCall] at isCall'
    cases isCall'
    exact absurd waits phase
  · rw [isCall] at ended
    cases ended

private theorem Backed.pass (sound : Sound q s) (isTable : q.isTable = true)
    (calls : s.calls t = some call) :
    Backed q (waitLoopPass s t call) := by
  have way := pass_cases s t call
  generalize waitLoopPass s t call = s', passVerdict s t call = result at way
  have inRest {c : Cursor} (found : Found t call.range (s.queues call.queue).requests c)
      {u : Nat} (apart : u ≠ t) {r : LockRequest} (member : r ∈ (s.queues call.queue).requests)
      (mine : r.txnId = u) : r ∈ c.before ∨ r ∈ c.after := by
    rw [found.split] at member
    rcases List.mem_append.mp member with early | rest
    · exact .inl early
    · rcases List.mem_cons.mp rest with rfl | late
      · exact absurd (mine.symm.trans found.mine) apart
      · exact .inr late
  have inRequests {c : Cursor} (found : Found t call.range (s.queues call.queue).requests c) :
      c.request ∈ (s.queues call.queue).requests := by
    rw [found.split]
    simp
  -- Elsewhere than in the queue the call is on, a lock of `t` is granted already.
  have elsewhere (away : call.queue ≠ q) {mode : LockMode} (held : s.locks t q = some mode) :
      (∃ r ∈ (s.queues q).requests, r.txnId = t ∧ r.granted = true ∧ r.mode = mode) := by
    rcases backed t mode held with found | ⟨call', isCall, here, -, -⟩ | ⟨ended, -⟩
    · exact found
    · rw [calls] at isCall
      cases isCall
      exact absurd here away
    · rw [calls] at ended
      cases ended
  have callsOf {m : LockState} {call' : Option Call} (same : m.calls = s.calls) (u : Nat)
      (apart : u ≠ t) : (m.setCall t call').calls u = s.calls u := by
    rw [setCall_calls_of_ne _ _ apart, same]
  cases way with
  | lost why =>
    intro u mode held
    by_cases mine : u = t
    · subst mine
      by_cases away : call.queue ≠ q
      · exact .inl (elsewhere away held)
      · have here : call.queue = q := not_not.mp away
        have absent := sound.not_lost isTable here (sound.callFits u call calls here) (t := u)
        rcases backed u mode held with ⟨r, member, mine, -⟩ | ⟨_, _, _, _, why'⟩ | ⟨ended, -⟩
        · exact absurd why (absent ⟨r, member, mine⟩)
        · rcases why' with aborted | present
          · exact .inr (.inr ⟨setCall_calls_self _ _ _, aborted⟩)
          · exact absurd why (absent present)
        · rw [calls] at ended
          cases ended
    · exact backed.other (s.setCall t none) (fun _ _ => rfl) (callsOf rfl)
        (fun _ _ => rfl) (fun _ _ _ member _ => member) mine held
  | erased c found aborting =>
    intro u mode held
    by_cases mine : u = t
    · subst mine
      exact .inr (.inr ⟨setCall_calls_self _ _ _, aborting⟩)
    · refine backed.other _ ?_ ?_ ?_ ?_ mine held
      · exact fun _ _ => rfl
      · exact fun v apart => setCall_calls_of_ne _ _ apart
      · exact fun _ _ => rfl
      · intro v apart r member isMine
        by_cases here : q = call.queue
        · subst here
          have sameQueue : ((s.setQueue call.queue ⟨c.erase,
              resetUpgrading (s.queues call.queue).upgradingTxn t⟩).setCall t none).queues
                call.queue = ⟨c.erase, resetUpgrading (s.queues call.queue).upgradingTxn t⟩ :=
            setQueue_queues_self _ _ _
          rw [sameQueue]
          exact List.mem_append.mpr (inRest found apart member isMine)
        · show r ∈ ((s.setQueue call.queue _).queues q).requests
          rwa [setQueue_queues_of_ne _ _ here]
  | granted c found running grantable =>
    have locksOf (u : Nat) (apart : u ≠ t) :
        (grantRequest s t call c).locks u q = s.locks u q := by
      unfold grantRequest
      cases call.queue <;> simp [update_of_ne apart]
    intro u mode held
    by_cases mine : u = t
    · subst mine
      by_cases here : q = call.queue
      · subst here
        have granted : (grantRequest s u call c).locks u call.queue = some c.request.mode := by
          unfold grantRequest
          cases name : call.queue with
          | table _ => simp
          | record _ | keyRange _ =>
            rw [name] at isTable
            cases isTable
        have sameQueue : (grantRequest s u call c).queues call.queue =
            ⟨c.put { c.request with granted := true },
              resetUpgrading (s.queues call.queue).upgradingTxn u⟩ := update_self _ _ _
        rw [granted] at held
        cases held
        rw [sameQueue]
        exact .inl ⟨_, mem_put.mpr (.inr (.inl rfl)), found.mine, rfl, rfl⟩
      · have sameQueue : (grantRequest s u call c).queues q = s.queues q :=
          update_of_ne here _ _
        have sameLock : (grantRequest s u call c).locks u q = s.locks u q := by
          unfold grantRequest
          cases name : call.queue with
          | keyRange _ => rfl
          | table _ | record _ =>
            rw [name] at here
            simp [update_of_ne here]
        rw [sameLock] at held
        rw [sameQueue]
        exact .inl (elsewhere (Ne.symm here) held)
    · refine backed.other (grantRequest s t call c) locksOf
        (fun _ apart => update_of_ne apart _ _)
        (fun _ apart => update_of_ne apart _ _) ?_ mine held
      intro v apart r member isMine
      by_cases here : q = call.queue
      · subst here
        have sameQueue : (grantRequest s t call c).queues call.queue =
            ⟨c.put { c.request with granted := true },
              resetUpgrading (s.queues call.queue).upgradingTxn t⟩ := update_self _ _ _
        rw [sameQueue]
        rcases inRest found apart member isMine with early | late
        · exact mem_put.mpr (.inl early)
        · exact mem_put.mpr (.inr (.inr late))
      · have sameQueue : (grantRequest s t call c).queues q = s.queues q :=
          update_of_ne here _ _
        rwa [sameQueue]
  | waits c found running =>
    intro u mode held
    by_cases mine : u = t
    · subst mine
      by_cases here : call.queue = q
      · refine .inr (.inl ⟨_, setCall_calls_self _ _ _, here, rfl, .inr ?_⟩)
        subst here
        exact ⟨c.request, inRequests found, found.mine⟩
      · exact .inl (elsewhere here held)
    · exact backed.other ((s.setTxnState t _).setCall t _) (fun _ _ => rfl) (callsOf rfl)
        (fun _ apart => update_of_ne apart _ _) (fun _ _ _ member _ => member) mine held

private theorem Backed.quiet (sameQueue : s'.queues q = s.queues q)
    (sameLocks : ∀ u, s'.locks u q = s.locks u q) (calls : ∀ u, u ≠ t → s'.calls u = s.calls u)
    (states : ∀ u, u ≠ t → s'.txnState u = s.txnState u)
    (granted : ∀ mode, s.locks t q = some mode → ∃ r ∈ (s.queues q).requests, r.txnId = t ∧
      r.granted = true ∧ r.mode = mode) :
    Backed q s' := by
  intro u mode held
  by_cases mine : u = t
  · subst mine
    rw [sameLocks] at held
    rw [sameQueue]
    exact .inl (granted mode held)
  · refine backed.other _ (fun u _ => sameLocks u) calls states ?_ mine held
    intro v _ r member _
    rwa [sameQueue]

private theorem Backed.mark (sameQueue : s'.queues q = s.queues q)
    (sameLocks : s'.locks = s.locks) (sameCalls : s'.calls = s.calls)
    (marked : ∀ u, isAbortPendingOrDone (s.txnState u) = true → isAbortPendingOrDone (s'.txnState
      u) = true) : Backed q s' := by
  intro u mode held
  rw [sameLocks] at held
  rw [sameQueue, sameCalls]
  rcases backed u mode held with found | ⟨call, isCall, here, phase, why⟩ | ⟨ended, aborted⟩
  · exact .inl found
  · exact .inr (.inl ⟨call, isCall, here, phase, why.imp (marked u) id⟩)
  · exact .inr (.inr ⟨ended, marked u aborted⟩)

end

private theorem tryMarkAborting_keeps (aborting : isAbortPendingOrDone state = true) :
    isAbortPendingOrDone (LockManager.tryMarkAborting state) = true := by
  cases state <;> first | rfl | cases aborting

private theorem setTxnState_marked
    (keeps : isAbortPendingOrDone (s.txnState t) = true → isAbortPendingOrDone state = true)
    (u : Nat) (aborted : isAbortPendingOrDone (s.txnState u) = true) :
    isAbortPendingOrDone ((s.setTxnState t state).txnState u) = true := by
  show isAbortPendingOrDone (update s.txnState t state u) = true
  by_cases mine : u = t
  · subst mine
    rw [update_self]
    exact keeps aborted
  · rwa [update_of_ne mine]

private theorem enterQueue_present {held : Option LockMode} {queue queue' : LockRequestQueue}
    (queued : enterQueue queue t call held = some (.queued queue')) :
    (∃ r ∈ queue'.requests, r.txnId = t) ∧
      ∀ u, u ≠ t → ∀ r ∈ queue.requests, r.txnId = u → r ∈ queue'.requests := by
  obtain ⟨entry, search, isQueued⟩ := Option.map_eq_some_iff.mp queued
  cases entry with
  | none =>
    simp only [Entry.queued.injEq] at isQueued
    subst isQueued
    exact ⟨⟨_, List.mem_append_right _ (List.mem_singleton.mpr rfl), rfl⟩,
      fun _ _ r member _ => List.mem_append_left _ member⟩
  | some c =>
    have found := findRequest_some search
    have kept (r' : LockRequest) (mine' : r'.txnId = t) : (∃ r ∈ c.put r', r.txnId = t) ∧
        ∀ u, u ≠ t → ∀ r ∈ queue.requests, r.txnId = u → r ∈ c.put r' := by
      refine ⟨⟨r', mem_put.mpr (.inr (.inl rfl)), mine'⟩, ?_⟩
      intro u apart r member mine
      rw [found.split] at member
      rcases List.mem_append.mp member with early | rest
      · exact mem_put.mpr (.inl early)
      · rcases List.mem_cons.mp rest with rfl | late
        · exact absurd (mine.symm.trans found.mine) apart
        · exact mem_put.mpr (.inr (.inr late))
    have retargeted {target : LockMode} (isQueued : retarget queue t c target = .queued queue') :
        (∃ r ∈ queue'.requests, r.txnId = t) ∧
          ∀ u, u ≠ t → ∀ r ∈ queue.requests, r.txnId = u → r ∈ queue'.requests := by
      unfold retarget at isQueued
      split at isQueued
      · split at isQueued
        · cases isQueued
        · cases isQueued
          exact kept _ found.mine
      · cases isQueued
        exact kept _ found.mine
    simp only at isQueued
    split at isQueued
    · split at isQueued
      · cases isQueued
      · exact retargeted isQueued
    · exact retargeted isQueued

private theorem Backed.enter (backed : Backed q s) {held : Option LockMode}
    (calls : s.calls t = some call) (phase : call.phase = .prepared held) {queue : LockRequestQueue}
    (queued : enterQueue (s.queues call.queue) t call held = some (.queued queue)) :
    Backed q (entered s t call queue) := by
  have idle : call.phase ≠ .waiting := by
    rw [phase]
    simp
  obtain ⟨present, kept⟩ := enterQueue_present queued
  have callsOf (u : Nat) (apart : u ≠ t) : (entered s t call queue).calls u = s.calls u :=
    setCall_calls_of_ne _ _ apart
  by_cases here : q = call.queue
  · subst here
    have sameQueue : (entered s t call queue).queues call.queue = queue :=
      setQueue_queues_self _ _ _
    intro u mode isHeld
    by_cases mine : u = t
    · subst mine
      refine .inr (.inl ⟨_, setCall_calls_self _ _ _, rfl, rfl, .inr ?_⟩)
      rw [sameQueue]
      exact present
    · refine backed.other (entered s t call queue) (fun _ _ => rfl) callsOf
        (fun _ _ => rfl) ?_ mine isHeld
      rw [sameQueue]
      exact kept
  · exact backed.quiet (t := t) (setQueue_queues_of_ne _ _ here) (fun _ => rfl) callsOf
      (fun _ _ => rfl) fun mode isHeld => backed.granted calls idle isHeld

theorem Backed.step {label : Label} (backed : Backed q s) (sound : Sound q s)
    (isTable : q.isTable = true) (keeps : keepsAborts s label)
    (taken : LockManager.step s label = some s') : Backed q s' := by
  have callsOf (m : LockState) (t : Nat) (call : Option Call) (u : Nat) (apart : u ≠ t) :
      (m.setCall t call).calls u = m.calls u := setCall_calls_of_ne _ _ apart
  cases label with
  | call t q' range mode =>
    simp only [LockManager.step] at taken
    split at taken
    · rename_i free
      split at taken
      · cases taken
        exact backed
      · rename_i running
        cases taken
        refine backed.quiet (t := t) rfl (fun _ => rfl) (callsOf s t _) (fun _ _ => rfl) ?_
        intro mode' held
        have idle : s.calls t = none := Option.isNone_iff_eq_none.mp (Bool.and_eq_true_iff.mp free).1
        rcases backed t mode' held with found | ⟨call, isCall, -⟩ | ⟨-, aborted⟩
        · exact found
        · rw [idle] at isCall
          cases isCall
        · exact absurd aborted running
    · cases taken
  | prepare t =>
    simp only [LockManager.step, bind_eq_bind, bind_eq_some_iff] at taken
    obtain ⟨call, isCall, next⟩ := taken
    split at next
    · rename_i phase
      have idle : call.phase ≠ .waiting := by
        rw [phase]
        simp
      have quiet (call' : Option Call) : Backed q (s.setCall t call') :=
        backed.quiet (t := t) rfl (fun _ => rfl) (callsOf s t _) (fun _ _ => rfl)
          fun mode held => backed.granted isCall idle held
      split at next
      · cases next
        exact quiet none
      · split at next
        · split at next
          · cases next
            exact quiet none
          · cases next
            exact quiet _
        · cases next
          exact quiet _
    · cases next
  | enqueue t =>
    simp only [LockManager.step, bind_eq_bind, bind_eq_some_iff] at taken
    obtain ⟨call, isCall, next⟩ := taken
    split at next
    · rename_i held phase
      have idle : call.phase ≠ .waiting := by
        rw [phase]
        simp
      have quiet (s' : LockState) (sameQueue : s'.queues q = s.queues q)
          (sameLocks : s'.locks = s.locks) (calls : ∀ u, u ≠ t → s'.calls u = s.calls u)
          (states : ∀ u, u ≠ t → s'.txnState u = s.txnState u) : Backed q s' :=
        backed.quiet (t := t) sameQueue (fun u => by rw [sameLocks]) calls states
          fun mode held => backed.granted isCall idle held
      split at next
      · cases next
        exact quiet _ rfl rfl (callsOf s t _) fun _ _ => rfl
      · cases next
        exact quiet _ rfl rfl (callsOf (s.setTxnState t _) t _)
          fun _ apart => update_of_ne apart _ _
      · cases next
        exact quiet _ rfl rfl (callsOf s t _) fun _ _ => rfl
      · rename_i queue queued
        cases next
        rw [← queued_pass]
        exact (backed.enter isCall phase queued).pass (sound.enter isCall phase queued) isTable
          (setCall_calls_self _ _ _)
    · cases next
  | wake t =>
    simp only [LockManager.step, bind_eq_bind, bind_eq_some_iff] at taken
    obtain ⟨call, isCall, next⟩ := taken
    split at next
    · cases next
      exact backed.pass sound isTable isCall
    · cases next
  | setState t state =>
    cases taken
    exact backed.mark rfl rfl rfl (setTxnState_marked (keeps t state rfl))
  | tryMarkAborting t =>
    cases taken
    exact backed.mark rfl rfl rfl (setTxnState_marked tryMarkAborting_keeps)
  | abortVictim cycle =>
    simp only [LockManager.step] at taken
    split at taken
    · cases taken
    · split at taken
      · cases taken
        generalize cycleVictim _ = t
        unfold LockManager.abortVictim
        split
        · exact backed
        · rename_i alive
          have marked : isAbortPendingOrDone
              (LockManager.tryMarkAborting (s.txnState t)) = true := by
            rw [LockManager.tryMarkAborting, if_neg fun done => alive (done.imp id .inl)]
            rfl
          intro u mode held
          by_cases mine : u = t
          · subst mine
            rcases backed u mode held with ⟨r, member, isMine, granted, isMode⟩ |
              ⟨call, isCall, here, phase, -⟩ | ⟨ended, -⟩
            · exact .inl ⟨r, List.mem_filter.mpr ⟨member, by simp [granted]⟩, isMine, granted,
                isMode⟩
            · exact .inr (.inl ⟨call, isCall, here, phase, .inl (by simpa using marked)⟩)
            · exact .inr (.inr ⟨ended, by simpa using marked⟩)
          · refine backed.other _ ?_ ?_ ?_ ?_ mine held
            · exact fun _ _ => rfl
            · exact fun _ _ => rfl
            · exact fun _ apart => update_of_ne apart _ _
            · intro v apart r member isMine
              exact List.mem_filter.mpr ⟨member, by simp [isMine, apart]⟩
      · cases taken
  | releaseAll t =>
    cases taken
    intro u mode held
    by_cases mine : u = t
    · subst mine
      have emptied : (LockManager.releaseAll s u).locks u q = none := by
        show update s.locks u (fun _ => none) u q = _
        rw [update_self]
      rw [emptied] at held
      cases held
    · refine backed.other (LockManager.releaseAll s t) ?_ ?_ ?_ ?_ mine held
      · intro v apart
        show update s.locks t (fun _ => none) v q = _
        rw [update_of_ne apart]
      · exact fun _ _ => rfl
      · exact fun _ _ => rfl
      · intro v apart r member isMine
        exact List.mem_filter.mpr ⟨member, by simp [isMine, apart]⟩

def Granted (s : LockState) (t : Nat) (call : Call) : Prop :=
  ∃ r ∈ (s.queues call.queue).requests, r.txnId = t ∧ r.granted = true ∧
    (call.mode = .x → r.mode = .x) ∧ sameRange r.range call.range = some true

private theorem Sound.passed {t : Nat} {call : Call} (sound : Sound call.queue s)
    (calls : s.calls t = some call) (waits : call.phase = .waiting)
    (succeeded : passVerdict s t call = some true) : Granted (waitLoopPass s t call) t call := by
  have way := pass_cases s t call
  rw [succeeded] at way
  generalize waitLoopPass s t call = s' at way
  cases way with
  | granted c found running grantable =>
    have inQueue : c.request ∈ (s.queues call.queue).requests := by
      rw [found.split]
      simp
    have strong :=
      (sound.waiting t call calls rfl waits c.request inQueue found.mine found.hit).2
    refine ⟨{ c.request with granted := true }, ?_, found.mine, rfl, strong, found.hit⟩
    show _ ∈ (update s.queues call.queue _ call.queue).requests
    rw [update_self]
    exact mem_put.mpr (.inr (.inl rfl))

theorem Sound.reported {label : Label} (sound : Sound call.queue s) (isCall : s.calls t = some call)
    (own : label = .prepare t ∨ label = .enqueue t ∨ label = .wake t)
    (known : IsKeyRange call.queue ∨ (call.queue.isTable = true ∧ Backed call.queue s))
    (taken : LockManager.step s label = some s') (succeeded : verdict s label = some true) :
    Granted s' t call := by
  rcases own with rfl | rfl | rfl
  · simp only [LockManager.step, isCall, bind_eq_bind, bind_some] at taken
    simp only [verdict, isCall, bind_eq_bind, bind_some] at succeeded
    split at taken
    · rename_i phase
      split at succeeded
      · cases succeeded
      · rename_i covered
        rw [if_neg covered] at taken
        split at succeeded
        · rename_i held isHeld
          split at succeeded
          · rename_i satisfied
            have sameQueues : s'.queues = s.queues := by
              rw [isHeld] at taken
              simp only [satisfied, if_true, Option.some.injEq] at taken
              rw [← taken]
              rfl
            rcases known with isKey | ⟨isTable, backed⟩
            · cases name : call.queue with
              | keyRange _ =>
                rw [name] at isHeld
                cases isHeld
              | table _ | record _ =>
                rw [name] at isKey
                cases isKey
            · have onRecord : s.locks t call.queue = some held := by
                cases name : call.queue with
                | table _ =>
                  rw [name] at isHeld
                  exact isHeld
                | record _ | keyRange _ =>
                  rw [name] at isTable
                  cases isTable
              obtain ⟨r, member, mine, granted, isMode⟩ :=
                backed.granted isCall (by rw [phase]; simp) onRecord
              refine ⟨r, ?_, mine, granted, ?_, ?_⟩
              · rwa [sameQueues]
              · intro exclusive
                rw [QueueId.satisfies, exclusive, combine_exclusive] at satisfied
                rw [isMode]
                exact (beq_iff_eq.mp satisfied).symm
              · rw [(sound.queue.fits r member).eq_none isTable]
                rfl
          · cases succeeded
        · cases succeeded
    · cases taken
  · simp only [LockManager.step, isCall, bind_eq_bind, bind_some] at taken
    simp only [verdict, isCall, bind_eq_bind, bind_some] at succeeded
    split at taken
    · rename_i held phase
      simp only [phase] at succeeded
      cases queued : enterQueue (s.queues call.queue) t call held with
      | none =>
        rw [queued] at succeeded
        cases succeeded
      | some entry =>
        rw [queued] at taken succeeded
        cases entry with
        | refused => cases succeeded
        | satisfied =>
          cases taken
          obtain ⟨found, search, isSatisfied⟩ := Option.map_eq_some_iff.mp queued
          cases found with
          | none => cases isSatisfied
          | some c =>
            have found := findRequest_some search
            have inQueue : c.request ∈ (s.queues call.queue).requests := by
              rw [found.split]
              simp
            have never {target : LockMode}
                (isSatisfied : retarget (s.queues call.queue) t c target = .satisfied) :
                False := by
              unfold retarget at isSatisfied
              split at isSatisfied
              · split at isSatisfied <;> cases isSatisfied
              · cases isSatisfied
            simp only at isSatisfied
            split at isSatisfied
            · split at isSatisfied
              · rename_i satisfied
                obtain ⟨granted, sameMode⟩ := Bool.and_eq_true_iff.mp satisfied
                refine ⟨c.request, inQueue, found.mine, granted, ?_, found.hit⟩
                intro exclusive
                rw [beq_iff_eq.mp sameMode, exclusive, combine_exclusive]
              · exact (never isSatisfied).elim
            · exact (never isSatisfied).elim
        | queued queue =>
          cases taken
          rw [← queued_pass]
          have entered := sound.enter isCall phase queued
          have waits := setCall_calls_self (s.setQueue call.queue queue) t
            (some { call with phase := .waiting })
          exact @Sound.passed _ _ { call with phase := .waiting } entered waits rfl succeeded
    · cases taken
  · simp only [LockManager.step, isCall, bind_eq_bind, bind_some] at taken
    simp only [verdict, isCall, bind_eq_bind, bind_some] at succeeded
    split at taken
    · rename_i waits
      cases taken
      exact sound.passed isCall waits succeeded
    · cases taken

end Reported

end GraniteDb.Concurrency.HeldLocks
