/- What the latched steps do to one queue, and the queue invariant they keep. -/

import GraniteDb.Concurrency.StrictTwoPhase

namespace GraniteDb.Concurrency.LockQueues

open Concurrency.LockManager Concurrency.StrictTwoPhase Lib.GuardedRun

section QueueSteps

inductive QueueStep (q : QueueId) (queue : LockRequestQueue) : LockRequestQueue → Prop
  | push {t : Nat} {mode : LockMode} {range : Option KeyRange} :
      findRequest t range [] queue.requests = some none → (¬IsKeyRange q → range = none) →
      QueueStep q queue ⟨queue.requests ++ [⟨t, mode, false, range⟩], queue.upgradingTxn⟩
  | upgrade {t : Nat} {range : Option KeyRange} {c : Cursor} {target : LockMode} :
      Found t range queue.requests c → c.request.granted = true → c.request.mode ≠ target →
      (∀ u, queue.upgradingTxn = some u → u = t) →
      QueueStep q queue ⟨c.put { c.request with mode := target, granted := false }, some t⟩
  | remode {t : Nat} {range : Option KeyRange} {c : Cursor} {target : LockMode} :
      Found t range queue.requests c → (c.request.granted = true → c.request.mode = target) →
      QueueStep q queue ⟨c.put { c.request with mode := target }, queue.upgradingTxn⟩
  | erase {t : Nat} {range : Option KeyRange} {c : Cursor} :
      Found t range queue.requests c →
      QueueStep q queue ⟨c.erase, resetUpgrading queue.upgradingTxn t⟩
  | grant {t : Nat} {range : Option KeyRange} {c : Cursor} :
      Found t range queue.requests c → canGrantRequest q.isTable c = some true →
      QueueStep q queue
        ⟨c.put { c.request with granted := true }, resetUpgrading queue.upgradingTxn t⟩
  | removeUngranted (t : Nat) : QueueStep q queue (removeUngranted t queue)
  | release (t : Nat) : QueueStep q queue (releaseQueue t queue)

abbrev QueueSteps (q : QueueId) : LockRequestQueue → LockRequestQueue → Prop :=
  Relation.ReflTransGen (QueueStep q)

inductive PassOutcome (s : LockState) (t : Nat) (call : Call) : LockState → Prop
  | ended : (findRequest t call.range [] (s.queues call.queue).requests = none ∨
        findRequest t call.range [] (s.queues call.queue).requests = some none ∨
        ∃ c, Found t call.range (s.queues call.queue).requests c ∧
          canGrantRequest call.queue.isTable c = none) →
      PassOutcome s t call (s.setCall t none)
  | erased {c : Cursor} : Found t call.range (s.queues call.queue).requests c →
      isAbortPendingOrDone (s.txnState t) = true →
      PassOutcome s t call ((s.setQueue call.queue
        ⟨c.erase, resetUpgrading (s.queues call.queue).upgradingTxn t⟩).setCall t none)
  | granted {c : Cursor} : Found t call.range (s.queues call.queue).requests c →
      isAbortPendingOrDone (s.txnState t) = false →
      canGrantRequest call.queue.isTable c = some true →
      PassOutcome s t call (grantRequest s t call c)
  | waits {c : Cursor} : Found t call.range (s.queues call.queue).requests c →
      findRequest t call.range [] (s.queues call.queue).requests = some (some c) →
      isAbortPendingOrDone (s.txnState t) = false →
      canGrantRequest call.queue.isTable c = some false →
      PassOutcome s t call ((s.setTxnState t (setWaitingIfNotAborting (s.txnState t))).setCall t
        (some { call with phase := .waiting }))

theorem waitLoopPass_outcome (s : LockState) (t : Nat) (call : Call) :
    PassOutcome s t call (waitLoopPass s t call) := by
  unfold waitLoopPass
  simp only
  split
  · rename_i failed
    exact .ended (.inl failed)
  · rename_i gone
    exact .ended (.inr (.inl gone))
  · rename_i c search
    have found := findRequest_some search
    split
    · rename_i aborting
      exact .erased found aborting
    · rename_i going
      have going := Bool.eq_false_iff.mpr going
      split
      · rename_i failed
        exact .ended (.inr (.inr ⟨c, found, failed⟩))
      · rename_i grantable
        exact .granted found going grantable
      · rename_i blocked
        exact .waits found search going blocked

variable {t : Nat} {call : Call} {s' s : LockState}

theorem PassOutcome.queueSteps (outcome : PassOutcome s t call s') (q : QueueId) :
    QueueSteps q (s.queues q) (s'.queues q) := by
  cases outcome with
  | ended _ => exact .refl
  | waits _ _ _ _ => exact .refl
  | @erased c found _ =>
    by_cases here : q = call.queue
    · subst here
      have same : ((s.setQueue call.queue ⟨c.erase, resetUpgrading
          (s.queues call.queue).upgradingTxn t⟩).setCall t none).queues call.queue =
          ⟨c.erase, resetUpgrading (s.queues call.queue).upgradingTxn t⟩ :=
        setQueue_queues_self s _ _
      rw [same]
      exact .single (.erase found)
    · have same : ((s.setQueue call.queue ⟨c.erase, resetUpgrading
          (s.queues call.queue).upgradingTxn t⟩).setCall t none).queues q = s.queues q :=
        setQueue_queues_of_ne s _ here
      rw [same]
  | @granted c found _ grantable =>
    by_cases here : q = call.queue
    · subst here
      have same : (grantRequest s t call c).queues call.queue =
          ⟨c.put { c.request with granted := true },
            resetUpgrading (s.queues call.queue).upgradingTxn t⟩ :=
        Function.update_self _ _ _
      rw [same]
      exact .single (.grant found grantable)
    · have same : (grantRequest s t call c).queues q = s.queues q :=
        Function.update_of_ne here _ _
      rw [same]

theorem enterQueue_step {queue queue' : LockRequestQueue} {held : Option LockMode}
    (valid : validCall call.queue call.range call.mode = true)
    (entered : enterQueue queue t call held = some (.queued queue')) :
    QueueStep call.queue queue queue' := by
  have retargeted {c : Cursor} {target : LockMode} (found : Found t call.range queue.requests c)
      (queued : retarget queue t c target = .queued queue') :
      QueueStep call.queue queue queue' := by
    unfold retarget at queued
    split at queued
    · rename_i upgrades
      obtain ⟨granted, changed⟩ := Bool.and_eq_true_iff.mp upgrades
      split at queued
      · cases queued
      · rename_i free
        cases queued
        refine .upgrade found granted (bne_iff_ne.mp changed) fun u upgrading => ?_
        by_contra apart
        exact free (by simp [upgrading, apart])
    · rename_i same
      cases queued
      refine .remode found fun granted => ?_
      by_contra changed
      exact same (by simp [granted, changed])
  obtain ⟨found?, search, entry⟩ := Option.map_eq_some_iff.mp entered
  cases found? with
  | none =>
    simp only [Entry.queued.injEq] at entry
    subst entry
    refine .push search fun notRange => ?_
    cases isQueue : call.queue with
    | table _ | record _ =>
      simp only [validCall, isQueue, Bool.and_eq_true, Option.isNone_iff_eq_none] at valid
      first | exact valid | exact valid.1
    | keyRange _ =>
      rw [isQueue] at notRange
      exact absurd trivial notRange
  | some c =>
    have found := findRequest_some search
    simp only at entry
    split at entry
    · split at entry
      · cases entry
      · exact retargeted found entry
    · exact retargeted found entry

def ValidCalls (s : LockState) : Prop :=
  ∀ t call, s.calls t = some call → validCall call.queue call.range call.mode = true

theorem ValidCalls.setCall (valid : ValidCalls s) (t : Nat) {call' : Option Call}
    (isValid : ∀ call, call' = some call → validCall call.queue call.range call.mode = true) :
    ValidCalls (s.setCall t call') := by
  intro u call calls
  by_cases mine : u = t
  · subst mine
    rw [setCall_calls_self] at calls
    exact isValid call calls
  · rw [setCall_calls_of_ne s _ mine] at calls
    exact valid u call calls

theorem PassOutcome.validCalls (outcome : PassOutcome s t call s') (valid : ValidCalls s)
    (isValid : validCall call.queue call.range call.mode = true) : ValidCalls s' := by
  cases outcome with
  | ended _ | erased _ _ => exact ValidCalls.setCall (s := s) valid t (by rintro _ ⟨⟩)
  | granted _ _ _ => exact ValidCalls.setCall (s := s) valid t (by rintro _ ⟨⟩)
  | waits _ _ _ _ =>
    refine ValidCalls.setCall (s := s) valid t ?_
    rintro _ ⟨⟩
    exact isValid

theorem step_queueSteps {label : Label} (valid : ValidCalls s) (taken : step s label = some s') :
    ValidCalls s' ∧ ∀ q, QueueSteps q (s.queues q) (s'.queues q) := by
  have ends (t : Nat) : ValidCalls (s.setCall t none) ∧
      ∀ q, QueueSteps q (s.queues q) ((s.setCall t none).queues q) :=
    ⟨valid.setCall t (by rintro _ ⟨⟩), fun _ => .refl⟩
  cases label with
  | call t queue range mode =>
    simp only [step] at taken
    split at taken
    · rename_i starts
      split at taken
      · cases taken
        exact ⟨valid, fun _ => .refl⟩
      · cases taken
        refine ⟨valid.setCall t ?_, fun _ => .refl⟩
        rintro _ ⟨⟩
        exact (Bool.and_eq_true_iff.mp starts).2
    · cases taken
  | prepare t =>
    simp only [step, Option.bind_eq_bind, Option.bind_eq_some_iff] at taken
    obtain ⟨call, calls, taken⟩ := taken
    have goes (phase : CallPhase) : ValidCalls (s.setCall t (some { call with phase := phase })) ∧
        ∀ q, QueueSteps q (s.queues q)
          ((s.setCall t (some { call with phase := phase })).queues q) := by
      refine ⟨valid.setCall t ?_, fun _ => .refl⟩
      rintro _ ⟨⟩
      exact valid t call calls
    split at taken
    · split at taken
      · cases taken
        exact ends t
      · split at taken
        · split at taken
          · cases taken
            exact ends t
          · cases taken
            exact goes _
        · cases taken
          exact goes _
    · cases taken
  | enqueue t =>
    simp only [step, Option.bind_eq_bind, Option.bind_eq_some_iff] at taken
    obtain ⟨call, calls, taken⟩ := taken
    have isValid := valid t call calls
    split at taken
    · rename_i held phase
      cases entered : enterQueue (s.queues call.queue) t call held with
      | none =>
        simp only [entered, Option.some.injEq] at taken
        subst taken
        exact ends t
      | some entry =>
        cases entry with
        | refused =>
          simp only [entered, Option.some.injEq] at taken
          subst taken
          exact ends t
        | satisfied =>
          simp only [entered, Option.some.injEq] at taken
          subst taken
          exact ends t
        | queued queue =>
          simp only [entered, Option.some.injEq] at taken
          subst taken
          have outcome := waitLoopPass_outcome (s.setQueue call.queue queue) t call
          refine ⟨outcome.validCalls valid isValid, fun q => ?_⟩
          refine Relation.ReflTransGen.trans ?_ (outcome.queueSteps q)
          by_cases here : q = call.queue
          · subst here
            rw [setQueue_queues_self]
            exact .single (enterQueue_step isValid entered)
          · rw [setQueue_queues_of_ne s _ here]
    · cases taken
  | wake t =>
    simp only [step, Option.bind_eq_bind, Option.bind_eq_some_iff] at taken
    obtain ⟨call, calls, taken⟩ := taken
    split at taken
    · cases taken
      have outcome := waitLoopPass_outcome s t call
      exact ⟨outcome.validCalls valid (valid t call calls), outcome.queueSteps⟩
    · cases taken
  | setState t state =>
    cases taken
    exact ⟨valid, fun _ => .refl⟩
  | tryMarkAborting t =>
    cases taken
    exact ⟨valid, fun _ => .refl⟩
  | abortVictim cycle =>
    simp only [step] at taken
    split at taken
    · cases taken
    · split at taken
      · cases taken
        unfold abortVictim
        split
        · exact ⟨valid, fun _ => .refl⟩
        · exact ⟨valid, fun _ => .single (.removeUngranted _)⟩
      · cases taken
  | releaseAll t =>
    cases taken
    exact ⟨valid, fun _ => .single (.release t)⟩

end QueueSteps

section Invariant

structure QueueInvariant (q : QueueId) (queue : LockRequestQueue) : Prop where
  ranges : ¬IsKeyRange q → ∀ r ∈ queue.requests, r.range = none
  single : ¬IsKeyRange q → (queue.requests.map LockRequest.txnId).Nodup
  shared : ∀ r ∈ queue.requests, ∀ r' ∈ queue.requests, r.granted = true → r'.granted = true →
    r.txnId ≠ r'.txnId → overlap r.range r'.range = some true →
    compatible q.isTable r.mode r'.mode = true
  upgrading : ∀ t, queue.upgradingTxn = some t →
    ∃ r ∈ queue.requests, r.txnId = t ∧ r.granted = false

theorem QueueInvariant.empty (q : QueueId) : QueueInvariant q ⟨[], none⟩ where
  ranges := by simp
  single := by simp
  shared := by simp
  upgrading := by simp

variable {q : QueueId} {queue : LockRequestQueue}

section

variable (inv : QueueInvariant q queue)

include inv

theorem QueueInvariant.shrink {t : Nat}
    {requests : List LockRequest} (sub : requests.Sublist queue.requests)
    (kept : ∀ r ∈ queue.requests, r.txnId ≠ t → r ∈ requests) :
    QueueInvariant q ⟨requests, resetUpgrading queue.upgradingTxn t⟩ where
  ranges notRange r member := inv.ranges notRange r (sub.subset member)
  single notRange := (inv.single notRange).sublist (sub.map _)
  shared r member r' member' := inv.shared r (sub.subset member) r' (sub.subset member')
  upgrading := by
    intro u upgrading
    simp only [resetUpgrading] at upgrading
    split at upgrading
    · cases upgrading
    · rename_i other
      obtain ⟨r, member, mine, ungranted⟩ := inv.upgrading u upgrading
      refine ⟨r, kept r member ?_, mine, ungranted⟩
      rintro same
      exact other (by rw [upgrading, ← mine, same])

theorem QueueInvariant.replace {t : Nat} {range : Option KeyRange}
    {c : Cursor} (found : Found t range queue.requests c) {r : LockRequest}
    {upgradingTxn : Option Nat} (txn : r.txnId = c.request.txnId)
    (sameRange : r.range = c.request.range)
    (grantable : r.granted = true → ∀ x ∈ queue.requests, x.granted = true →
      x.txnId ≠ c.request.txnId → overlap x.range c.request.range = some true →
      compatible q.isTable r.mode x.mode = true)
    (upgrading : ∀ u, upgradingTxn = some u → (u = t ∧ r.granted = false) ∨
      (queue.upgradingTxn = some u ∧ (u = t → r.granted = c.request.granted))) :
    QueueInvariant q ⟨c.put r, upgradingTxn⟩ := by
  have inQueue {x : LockRequest} (member : x ∈ c.before ∨ x ∈ c.after) : x ∈ queue.requests := by
    rw [found.split]
    rcases member with before | after
    · exact List.mem_append_left _ before
    · exact List.mem_append_right _ (List.mem_cons_of_mem _ after)
  have atCursor : c.request ∈ queue.requests := by
    rw [found.split]
    simp
  have cases_ {x : LockRequest} (member : x ∈ c.put r) : x = r ∨ x ∈ queue.requests := by
    rcases mem_put.mp member with before | isNew | after
    · exact .inr (inQueue (.inl before))
    · exact .inl isNew
    · exact .inr (inQueue (.inr after))
  refine ⟨?_, ?_, ?_, ?_⟩
  · intro notRange x member
    rcases cases_ member with rfl | old
    · rw [sameRange]
      exact inv.ranges notRange _ atCursor
    · exact inv.ranges notRange x old
  · intro notRange
    have single := inv.single notRange
    rw [found.split] at single
    rw [map_txnId_put c txn]
    exact single
  · intro x member y member' granted granted' apart overlaps
    rcases cases_ member with rfl | old
    · rcases cases_ member' with rfl | old'
      · exact absurd rfl apart
      · rw [sameRange] at overlaps
        exact grantable granted y old' granted' (txn ▸ apart.symm) (overlap_symm overlaps)
    · rcases cases_ member' with rfl | old'
      · rw [sameRange] at overlaps
        rw [compatible_symm]
        exact grantable granted' x old granted (txn ▸ apart) overlaps
      · exact inv.shared x old y old' granted granted' apart overlaps
  · intro u isUpgrading
    rcases upgrading u isUpgrading with ⟨rfl, ungranted⟩ | ⟨before, same⟩
    · exact ⟨r, mem_put.mpr (.inr (.inl rfl)), txn.trans found.mine, ungranted⟩
    · obtain ⟨x, member, mine, ungranted⟩ := inv.upgrading u before
      rw [found.split] at member
      rcases List.mem_append.mp member with before | rest
      · exact ⟨x, mem_put.mpr (.inl before), mine, ungranted⟩
      · rcases List.mem_cons.mp rest with rfl | after
        · have still : r.granted = false := (same (mine.symm.trans found.mine)).trans ungranted
          exact ⟨r, mem_put.mpr (.inr (.inl rfl)), txn.trans mine, still⟩
        · exact ⟨x, mem_put.mpr (.inr (.inr after)), mine, ungranted⟩

theorem QueueInvariant.step {queue' : LockRequestQueue}
    (taken : QueueStep q queue queue') : QueueInvariant q queue' := by
  have reset {t u : Nat} {upgrading : Option Nat} (left : resetUpgrading upgrading t = some u) :
      u ≠ t ∧ upgrading = some u := by
    unfold resetUpgrading at left
    split at left
    · cases left
    · rename_i other
      refine ⟨?_, left⟩
      rintro rfl
      exact other left
  cases taken with
  | @push t mode range search noRange =>
    refine ⟨?_, ?_, ?_, ?_⟩
    · intro notRange r member
      rcases List.mem_append.mp member with old | new
      · exact inv.ranges notRange r old
      · rw [List.mem_singleton.mp new]
        exact noRange notRange
    · intro notRange
      rw [List.map_append]
      refine List.nodup_append.mpr ⟨inv.single notRange, by simp, ?_⟩
      rintro u inQueue v isNew rfl
      obtain ⟨r, member, mine⟩ := List.mem_map.mp inQueue
      have differs := findRequest_none search r member
        (by simpa [mine] using List.mem_singleton.mp isNew)
      rw [inv.ranges notRange r member, noRange notRange] at differs
      cases differs
    · intro r member r' member' granted granted'
      have old {x : LockRequest} (inNew : x ∈ queue.requests ++ [⟨t, mode, false, range⟩])
          (isGranted : x.granted = true) : x ∈ queue.requests := by
        rcases List.mem_append.mp inNew with old | new
        · exact old
        · rw [List.mem_singleton.mp new] at isGranted
          cases isGranted
      exact inv.shared r (old member granted) r' (old member' granted') granted granted'
    · intro u upgrading
      obtain ⟨r, member, facts⟩ := inv.upgrading u upgrading
      exact ⟨r, List.mem_append_left _ member, facts⟩
  | upgrade found granted changed free =>
    refine inv.replace found rfl rfl (by rintro ⟨⟩) fun u upgrading => ?_
    cases upgrading
    exact .inl ⟨rfl, rfl⟩
  | @remode t range c target found same =>
    have atCursor : c.request ∈ queue.requests := by
      rw [found.split]
      simp
    refine inv.replace found rfl rfl ?_ fun u upgrading => .inr ⟨upgrading, fun _ => rfl⟩
    intro granted x member isGranted apart overlaps
    rw [← same granted, compatible_symm]
    exact inv.shared x member c.request atCursor isGranted granted apart overlaps
  | @erase t range c found =>
    refine inv.shrink ?_ fun r member apart => ?_
    · rw [found.split, Cursor.erase]
      exact List.Sublist.append_left (List.sublist_cons_self _ _) _
    · rw [found.split] at member
      rcases List.mem_append.mp member with before | rest
      · exact List.mem_append_left _ before
      · rcases List.mem_cons.mp rest with rfl | after
        · exact absurd found.mine apart
        · exact List.mem_append_right _ after
  | @grant t range c found grantable =>
    obtain ⟨before, after⟩ := canGrantRequest_true grantable
    refine inv.replace found rfl rfl ?_ fun u upgrading => ?_
    · intro _ x member granted apart overlaps
      rw [found.split] at member
      rcases List.mem_append.mp member with inBefore | rest
      · exact (before x inBefore apart overlaps).2
      · rcases List.mem_cons.mp rest with rfl | inAfter
        · exact absurd rfl apart
        · exact after x inAfter apart granted overlaps
    · obtain ⟨other, still⟩ := reset upgrading
      exact .inr ⟨still, fun mine => absurd mine other⟩
  | removeUngranted t =>
    refine inv.shrink List.filter_sublist fun r member apart => ?_
    exact List.mem_filter.mpr ⟨member, by simp [apart]⟩
  | release t =>
    refine inv.shrink List.filter_sublist fun r member apart => ?_
    exact List.mem_filter.mpr ⟨member, by simp [apart]⟩

end

structure QueuesSound (s : LockState) : Prop where
  calls : ValidCalls s
  queues : ∀ q, QueueInvariant q (s.queues q)

theorem QueuesSound.empty : QueuesSound LockState.empty where
  calls := by
    intro t call calls
    cases calls
  queues := QueueInvariant.empty

theorem QueuesSound.step {s s' : LockState} {label : Label} (sound : QueuesSound s)
    (taken : LockManager.step s label = some s') : QueuesSound s' := by
  obtain ⟨calls, steps⟩ := step_queueSteps sound.calls taken
  refine ⟨calls, fun q => ?_⟩
  have start := sound.queues q
  have changes := steps q
  generalize s'.queues q = queue at changes
  induction changes with
  | refl => exact start
  | tail _ change ih => exact ih.step change

theorem queuesSound_of_run {ok : LockState → Label → Prop} {labels : List Label} {s : LockState}
    (run : Run step ok .empty labels s) : QueuesSound s :=
  run.invariant QueuesSound QueuesSound.empty fun _ _ _ sound _ taken => sound.step taken

end Invariant

/-- In every reachable state a table or record queue has one request per transaction, the granted
requests of different transactions are compatible, on overlapping key ranges they are both `S`, and
an upgrading transaction has a request that is not granted. -/
theorem lockQueues_sound {labels : List Label} {s : LockState}
    (run : Run step (fun _ _ => True) .empty labels s) (q : QueueId) :
    (¬IsKeyRange q → ((s.queues q).requests.map LockRequest.txnId).Nodup) ∧
    (¬IsKeyRange q → ∀ r ∈ (s.queues q).requests, ∀ r' ∈ (s.queues q).requests,
      r.granted = true → r'.granted = true → r.txnId ≠ r'.txnId →
      compatible q.isTable r.mode r'.mode = true) ∧
    (IsKeyRange q → ∀ r ∈ (s.queues q).requests, ∀ r' ∈ (s.queues q).requests,
      r.granted = true → r'.granted = true → r.txnId ≠ r'.txnId →
      overlap r.range r'.range = some true → r.mode = .s ∧ r'.mode = .s) ∧
    ∀ t, (s.queues q).upgradingTxn = some t →
      ∃ r ∈ (s.queues q).requests, r.txnId = t ∧ r.granted = false := by
  have inv := (queuesSound_of_run run).queues q
  refine ⟨inv.single, ?_, ?_, inv.upgrading⟩
  · intro notRange r member r' member' granted granted' apart
    have common : overlap r.range r'.range = some true := by
      rw [inv.ranges notRange r member]
      rfl
    exact inv.shared r member r' member' granted granted' apart common
  · intro isRange r member r' member' granted granted' apart overlaps
    have shared := inv.shared r member r' member' granted granted' apart overlaps
    cases q with
    | table _ | record _ => cases isRange
    | keyRange _ => simpa [compatible, QueueId.isTable] using shared

/-- Two transactions share table 7, and the second one waits for an upgrade. -/
def upgradeTrace : List Label :=
  sharedTrace ++ [.call 2 (.table 7) none .s, .prepare 2, .enqueue 2,
    .call 1 (.table 7) none .ix, .prepare 1, .enqueue 1]

theorem lockQueues_sound_upgradeTrace :
    ∃ s, exec step .empty upgradeTrace = some s ∧ (s.queues (.table 7)).upgradingTxn = some 1 ∧
      ∃ r ∈ (s.queues (.table 7)).requests, r.txnId = 1 ∧ r.granted = false := by
  have executed : ((exec (fun s a => if True then step s a else none) .empty upgradeTrace).map
      fun s => (s.queues (.table 7)).upgradingTxn) = some (some 1) := by
    decide
  obtain ⟨s, reached, upgrading⟩ := Option.map_eq_some_iff.mp executed
  refine ⟨s, by simpa using reached, upgrading, ?_⟩
  exact (lockQueues_sound (run_of_exec reached) (.table 7)).2.2.2 1 upgrading

end GraniteDb.Concurrency.LockQueues
