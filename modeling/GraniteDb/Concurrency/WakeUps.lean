/- No waiter is stranded in runs whose wakes grant nothing that a stranded waiter needs. -/

import GraniteDb.Concurrency.Notifications
import Mathlib.Data.List.Nodup

namespace GraniteDb.Concurrency.WakeUps

open Common.Types Concurrency.LockManager Concurrency.StrictTwoPhase Concurrency.LockQueues
open Concurrency.Notifications Lib.GuardedRun
open Function (update_of_ne update_self)
open Option (bind_eq_bind bind_eq_some_iff bind_some)
open List (mem_append_left map_append mem_map mem_cons mem_singleton filter_append mem_cons_of_mem
  mem_append mem_filter)

section HeldBack

variable {isTable : Bool} {c : Cursor} {target : LockRequest}

theorem heldBack_iff : heldBack isTable c = true ↔
    (∃ b ∈ c.before, blocks isTable c.request true b = true) ∨
      ∃ b ∈ c.after, blocks isTable c.request false b = true := by
  simp [heldBack]

theorem blocks_iff {isBefore : Bool} {r : LockRequest} :
    blocks isTable target isBefore r = true ↔ r.txnId ≠ target.txnId ∧
      overlap r.range target.range = some true ∧ ((isBefore = true ∧ r.granted = false) ∨
        (r.granted = true ∧ compatible isTable target.mode r.mode = false)) := by
  simp [blocks, and_assoc]

theorem not_grantable (held : heldBack isTable c = true) :
    canGrantRequest isTable c ≠ some true := by
  intro grantable
  obtain ⟨before, after⟩ := canGrantRequest_true grantable
  rcases heldBack_iff.mp held with ⟨b, member, edge⟩ | ⟨b, member, edge⟩
  · obtain ⟨apart, overlaps, rest⟩ := blocks_iff.mp edge
    have passes := before b member apart overlaps
    rcases rest with ⟨-, ungranted⟩ | ⟨-, conflicts⟩
    · rw [passes.1] at ungranted
      cases ungranted
    · rw [passes.2] at conflicts
      cases conflicts
  · obtain ⟨apart, overlaps, rest⟩ := blocks_iff.mp edge
    rcases rest with ⟨⟨⟩, -⟩ | ⟨granted, conflicts⟩
    rw [after b member apart granted overlaps] at conflicts
    cases conflicts

theorem grantableBefore_false {requests : List LockRequest}
    (blocked : grantableBefore isTable target requests = some false) :
    ∃ b ∈ requests, blocks isTable target true b = true := by
  rw [grantableBefore_eq] at blocked
  obtain ⟨b, member, stops⟩ := allM_eq_false blocked
  unfold passesBefore at stops
  split at stops
  · cases stops
  · rename_i apart
    refine ⟨b, member, blocks_iff.mpr ⟨apart, ?_⟩⟩
    cases granted : b.granted <;> simpa [granted] using stops

theorem grantableAfter_false {requests : List LockRequest}
    (blocked : grantableAfter isTable target requests = some false) :
    ∃ b ∈ requests, blocks isTable target false b = true := by
  rw [grantableAfter_eq] at blocked
  obtain ⟨b, member, stops⟩ := allM_eq_false blocked
  unfold passesAfter at stops
  split at stops
  · cases stops
  · rename_i counts
    have counted : b.txnId ≠ target.txnId ∧ b.granted = true := by simpa using counts
    exact ⟨b, member, blocks_iff.mpr ⟨counted.1, by simpa [counted.2] using stops⟩⟩

theorem heldBack_of_false (blocked : canGrantRequest isTable c = some false) :
    heldBack isTable c = true := by
  unfold canGrantRequest at blocked
  cases first : grantableBefore isTable c.request c.before with
  | none => simp [first] at blocked
  | some passes =>
    simp only [first, bind_eq_bind, bind_some] at blocked
    split at blocked
    · exact heldBack_iff.mpr (.inr (grantableAfter_false blocked))
    · rename_i stopped
      have stopped : passes = false := by simpa using stopped
      exact heldBack_iff.mpr (.inl (grantableBefore_false (stopped ▸ first)))

end HeldBack

section Places

def Settled (t : Nat) (requests : List LockRequest) : Prop :=
  ∀ r ∈ requests, r.txnId = t → r.granted = true

variable {c : Cursor} {requests : List LockRequest}

theorem found_unique {t : Nat} {range : Option KeyRange} {c' : Cursor}
    (found : Found t range requests c) (found' : Found t range requests c') :
    c' = c := by
  have earlier {a b : Cursor} (first : Found t range requests a) (second : Found t range requests b)
      (front : a.request ∈ b.before) : False := by
    have miss := second.misses a.request front first.mine
    rw [first.hit] at miss
    cases miss
  rcases place_cases (found.split.symm.trans found'.split) with
    ⟨before, request, after⟩ | ⟨m, before, -⟩ | ⟨m, -, before⟩
  · cases c
    cases c'
    simp_all
  · exact (earlier found' found (by simp [before])).elim
  · exact (earlier found found' (by simp [before])).elim

theorem at_push {x : LockRequest} (here : At (requests ++ [x]) c) : (c = ⟨requests, x, []⟩) ∨
      ∃ after, c.after = after ++ [x] ∧ At requests ⟨c.before, c.request, after⟩ := by
  rcases place_cases (show requests ++ x :: [] = c.before ++ c.request :: c.after from here) with
    ⟨before, request, after⟩ | ⟨m, before, after⟩ | ⟨m, after, -⟩
  · left
    cases c
    simp_all
  · exact .inr ⟨m, after, before⟩
  · simp at after

theorem at_put {c' : Cursor} {r : LockRequest} (found : At requests c) (here : At (c.put r) c') :
    (c' = ⟨c.before, r, c.after⟩) ∨
      (∃ m, c'.after = m ++ r :: c.after ∧
        At requests ⟨c'.before, c'.request, m ++ c.request :: c.after⟩) ∨
      ∃ m, c'.before = c.before ++ r :: m ∧
        At requests ⟨c.before ++ c.request :: m, c'.request, c'.after⟩ := by
  rcases place_cases (show c.before ++ r :: c.after = c'.before ++ c'.request :: c'.after from here)
    with ⟨before, request, after⟩ | ⟨m, before, after⟩ | ⟨m, after, before⟩
  · left
    cases c'
    simp_all
  · refine .inr (.inl ⟨m, after, ?_⟩)
    rw [At, found, before]
    simp
  · refine .inr (.inr ⟨m, before, ?_⟩)
    rw [At, found, after]
    simp

end Places

section Keeping

variable {isTable : Bool} {requests : List LockRequest} {t : Nat}

/-- Every place of the new list whose transaction is not `t` was one of the old list, and what
was held back there still is. -/
def Keeps (isTable : Bool) (t : Nat) (requests requests' : List LockRequest) : Prop :=
  ∀ c', At requests' c' → c'.request.txnId ≠ t → c'.request.granted = false →
    ∃ c, At requests c ∧ c.request = c'.request ∧
      (heldBack isTable c = true → heldBack isTable c' = true)

theorem keeps_refl : Keeps isTable t requests requests := fun c here _ _ => ⟨c, here, rfl, id⟩

theorem keeps_push {x : LockRequest} (mine : x.txnId = t) :
    Keeps isTable t requests (requests ++ [x]) := by
  intro c here apart _
  rcases at_push here with rfl | ⟨after, same, old⟩
  · exact absurd mine apart
  · refine ⟨_, old, rfl, fun held => ?_⟩
    rw [heldBack_iff] at held ⊢
    refine held.imp_right ?_
    rintro ⟨b, member, edge⟩
    exact ⟨b, by rw [same]; exact mem_append_left _ member, edge⟩

theorem keeps_put {c : Cursor} {r : LockRequest} (found : At requests c)
    (mine : c.request.txnId = t) (txn : r.txnId = t) (range : r.range = c.request.range)
    (granted : c.request.granted = true)
    (stronger : r.granted = true → Covers isTable r.mode c.request.mode)
    (free : r.granted = false → ∀ c', At requests c' → c'.request.txnId ≠ t →
      c'.request.granted = false → c.request ∈ c'.after →
      overlap c.request.range c'.request.range ≠ some true) :
    Keeps isTable t requests (c.put r) := by
  intro c' here apart waits
  -- the changed request keeps blocking what it blocked
  have still {isBefore : Bool} (edge : blocks isTable c'.request isBefore c.request = true)
      (may : r.granted = false → isBefore = true) :
      blocks isTable c'.request isBefore r = true := by
    obtain ⟨other, overlaps, rest⟩ := blocks_iff.mp edge
    refine blocks_iff.mpr ⟨by rw [txn, ← mine]; exact other, range ▸ overlaps, ?_⟩
    cases isGranted : r.granted with
    | false => exact .inl ⟨may isGranted, rfl⟩
    | true =>
      rcases rest with ⟨-, ungranted⟩ | ⟨-, conflicts⟩
      · rw [granted] at ungranted
        cases ungranted
      · refine .inr ⟨rfl, ?_⟩
        by_contra compatible_
        have passes := stronger isGranted c'.request.mode (by simpa using compatible_)
        rw [passes] at conflicts
        cases conflicts
  rcases at_put found here with rfl | ⟨m, after, old⟩ | ⟨m, before, old⟩
  · exact absurd txn apart
  · refine ⟨_, old, rfl, fun held => ?_⟩
    rw [heldBack_iff] at held ⊢
    refine held.imp_right ?_
    rintro ⟨b, member, edge⟩
    rcases mem_append.mp member with inFront | inRest
    · exact ⟨b, by simp [after, inFront], edge⟩
    · rcases mem_cons.mp inRest with rfl | inAfter
      · refine ⟨r, by simp [after], still edge fun ungranted => ?_⟩
        obtain ⟨-, overlaps, -⟩ := blocks_iff.mp edge
        exact absurd overlaps (free ungranted _ old apart waits (by simp))
      · exact ⟨b, by simp [after, inAfter], edge⟩
  · refine ⟨_, old, rfl, fun held => ?_⟩
    rw [heldBack_iff] at held ⊢
    refine held.imp_left ?_
    rintro ⟨b, member, edge⟩
    rcases mem_append.mp member with inFront | inRest
    · exact ⟨b, by simp [before, inFront], edge⟩
    · rcases mem_cons.mp inRest with rfl | inAfter
      · exact ⟨r, by simp [before], still edge fun _ => rfl⟩
      · exact ⟨b, by simp [before, inAfter], edge⟩

end Keeping

section Ready

/-- An ungranted request that a later granted one overlaps is the upgrade under way. -/
def Ahead (upgrading : Option Nat) (r b : LockRequest) : Prop :=
  r.granted = false → b.granted = true → b.txnId ≠ r.txnId →
    overlap b.range r.range = some true → upgrading = some r.txnId

/-- What holds of each queue while no lock call fails. `pending`: an ungranted request is the one
its transaction waits for. -/
structure QueueReady (calls : Nat → Option Call) (locks : Nat → QueueId → Option LockMode)
    (q : QueueId) (queue : LockRequestQueue) : Prop where
  pending : ∀ r ∈ queue.requests, r.granted = false → ∃ call, calls r.txnId = some call ∧
    call.phase = .waiting ∧ call.queue = q ∧ FirstMatch r.txnId call.range queue.requests r
  once : ((queue.requests.filter fun r => !r.granted).map LockRequest.txnId).Nodup
  ahead : queue.requests.Pairwise (Ahead queue.upgradingTxn)
  valid : ∀ r ∈ queue.requests, ValidMode q r.mode
  recorded : ¬IsKeyRange q → ∀ r ∈ queue.requests, r.granted = true →
    locks r.txnId q = some r.mode
  prepared : ¬IsKeyRange q → ∀ r ∈ queue.requests, r.granted = true → ∀ call held,
    calls r.txnId = some call → call.queue = q → call.phase = .prepared held → held = some r.mode

theorem Settled.other {t : Nat} {requests : List LockRequest} (settled : Settled t requests)
    {r : LockRequest} (member : r ∈ requests) (ungranted : r.granted = false) : r.txnId ≠ t := by
  intro mine
  rw [settled r member mine] at ungranted
  cases ungranted

variable {upgrading : Option Nat}

theorem reset_of_other {t u : Nat} (other : u ≠ t)
    (same : upgrading = some u) : resetUpgrading upgrading t = some u := by
  rw [resetUpgrading, if_neg, same]
  simpa [same] using other

variable {calls calls' : Nat → Option Call} {locks locks' : Nat → QueueId → Option LockMode}
  {q : QueueId} {queue : LockRequestQueue} {t : Nat}

section

variable (ready : QueueReady calls locks q queue)

include ready

theorem QueueReady.settled
    (idle : ∀ call, calls t = some call → call.phase = .waiting → call.queue ≠ q) :
    Settled t queue.requests := by
  intro r member mine
  by_contra ungranted
  obtain ⟨call, called, waiting, here, -⟩ := ready.pending r member (by simpa using ungranted)
  exact idle call (mine ▸ called) waiting here

theorem QueueReady.settled_beside {call : Call}
    (called : calls t = some call) {c : Cursor} (found : Found t call.range queue.requests c) :
    Settled t (c.before ++ c.after) := by
  intro r member mine
  by_contra ungranted
  have ungranted : r.granted = false := by simpa using ungranted
  have inQueue : r ∈ queue.requests := by
    rw [found.split]
    rcases mem_append.mp member with before | after
    · exact mem_append_left _ before
    · exact List.mem_append_right _ (mem_cons_of_mem _ after)
  obtain ⟨call', called', -, -, first⟩ := ready.pending r inQueue ungranted
  rw [mine, called] at called'
  cases called'
  have same := firstMatch_unique (mine ▸ first) found.firstMatch
  have once := ready.once
  rw [found.split, filter_append, List.filter_cons_of_pos (by simp [← same, ungranted]),
    map_append, List.map_cons, List.nodup_middle, List.nodup_cons] at once
  refine once.1 ?_
  rw [← map_append, ← filter_append]
  exact mem_map.mpr ⟨r, mem_filter.mpr ⟨member, by simp [ungranted]⟩, by rw [same]⟩

theorem QueueReady.recall
    (settled : Settled t queue.requests) (others : ∀ u, u ≠ t → calls' u = calls u)
    (kept : ∀ u q, u ≠ t → locks' u q = locks u q)
    (own : ¬IsKeyRange q → ∀ r ∈ queue.requests, r.txnId = t → locks' t q = some r.mode)
    (prepared : ¬IsKeyRange q → ∀ r ∈ queue.requests, r.txnId = t → ∀ call held,
      calls' t = some call → call.queue = q → call.phase = .prepared held → held = some r.mode) :
    QueueReady calls' locks' q queue where
  pending r member ungranted := by
    by_cases mine : r.txnId = t
    · rw [settled r member mine] at ungranted
      cases ungranted
    · rw [others _ mine]
      exact ready.pending r member ungranted
  once := ready.once
  ahead := ready.ahead
  valid := ready.valid
  recorded notRange r member granted := by
    by_cases mine : r.txnId = t
    · rw [mine]
      exact own notRange r member mine
    · rw [kept _ _ mine]
      exact ready.recorded notRange r member granted
  prepared notRange r member granted call held called := by
    by_cases mine : r.txnId = t
    · rw [mine] at called
      exact prepared notRange r member mine call held called
    · rw [others _ mine] at called
      exact ready.prepared notRange r member granted call held called

theorem QueueReady.drop {requests : List LockRequest}
    (sub : requests.Sublist queue.requests)
    (rest : ∀ u, u ≠ t → own u requests = own u queue.requests) (settled : Settled t requests) :
    QueueReady calls locks q ⟨requests, resetUpgrading queue.upgradingTxn t⟩ where
  pending r member ungranted := by
    have other := settled.other member ungranted
    obtain ⟨call, called, waiting, here, first⟩ := ready.pending r (sub.subset member) ungranted
    exact ⟨call, called, waiting, here, first.congr (rest _ other)⟩
  once := ready.once.sublist ((sub.filter _).map _)
  ahead := by
    refine (ready.ahead.sublist sub).imp_of_mem ?_
    intro r b member _ ahead ungranted granted apart overlaps
    exact reset_of_other (settled.other member ungranted) (ahead ungranted granted apart overlaps)
  valid r member := ready.valid r (sub.subset member)
  recorded notRange r member := ready.recorded notRange r (sub.subset member)
  prepared notRange r member := ready.prepared notRange r (sub.subset member)

end

structure OthersKept (t : Nat) (calls calls' : Nat → Option Call)
    (locks locks' : Nat → QueueId → Option LockMode) : Prop where
  calls : ∀ u, u ≠ t → calls' u = calls u
  locks : ∀ u q, u ≠ t → locks' u q = locks u q
  free : ∀ call held, calls' t = some call → call.phase ≠ .prepared held

def WaitsFor (calls : Nat → Option Call) (q : QueueId) (requests : List LockRequest)
    (r : LockRequest) : Prop :=
  ∃ call, calls r.txnId = some call ∧ call.phase = .waiting ∧ call.queue = q ∧
    FirstMatch r.txnId call.range requests r

theorem QueueReady.push (ready : QueueReady calls locks q queue)
    (settled : Settled t queue.requests) (kept : OthersKept t calls calls' locks locks')
    {x : LockRequest} (mine : x.txnId = t) (valid : ValidMode q x.mode)
    (upgrades : upgrading = queue.upgradingTxn ∨ upgrading = resetUpgrading queue.upgradingTxn t)
    (waits : x.granted = false → WaitsFor calls' q (queue.requests ++ [x]) x)
    (grantable : x.granted = true → ∀ r ∈ queue.requests, r.txnId ≠ t →
      overlap r.range x.range = some true → r.granted = true)
    (unlisted : ¬IsKeyRange q → ∀ r ∈ queue.requests, r.txnId ≠ t)
    (recorded : ¬IsKeyRange q → x.granted = true → locks' t q = some x.mode) :
    QueueReady calls' locks' q ⟨queue.requests ++ [x], upgrading⟩ where
  pending r member ungranted := by
    rcases mem_append.mp member with old | new
    · have other := settled.other old ungranted
      obtain ⟨call, called, waiting, here, first⟩ := ready.pending r old ungranted
      refine ⟨call, by rw [kept.calls _ other]; exact called, waiting, here, first.congr ?_⟩
      simp [own, mine, Ne.symm other]
    · rw [mem_singleton.mp new] at ungranted ⊢
      exact waits ungranted
  once := by
    rw [filter_append, map_append, List.nodup_append]
    refine ⟨ready.once, ?_, ?_⟩
    · cases isGranted : x.granted <;> simp [isGranted]
    · intro u inQueue v new
      obtain ⟨r, member, rfl⟩ := mem_map.mp inQueue
      obtain ⟨y, member', rfl⟩ := mem_map.mp new
      have waiting := mem_filter.mp member
      rw [mem_singleton.mp (mem_filter.mp member').1, mine]
      exact settled.other waiting.1 (by simpa using waiting.2)
  ahead := by
    refine List.pairwise_append.mpr ⟨?_, List.pairwise_singleton _ _, ?_⟩
    · refine ready.ahead.imp_of_mem ?_
      intro r b member _ ahead ungranted granted apart overlaps
      have same := ahead ungranted granted apart overlaps
      rcases upgrades with rfl | rfl
      · exact same
      · exact reset_of_other (settled.other member ungranted) same
    · intro r member b new ungranted granted apart overlaps
      rw [mem_singleton.mp new] at granted overlaps
      have other := settled.other member ungranted
      rw [grantable granted r member other (overlap_symm overlaps)] at ungranted
      cases ungranted
  valid r member := by
    rcases mem_append.mp member with old | new
    · exact ready.valid r old
    · rw [mem_singleton.mp new]
      exact valid
  recorded notRange r member granted := by
    rcases mem_append.mp member with old | new
    · rw [kept.locks _ _ (unlisted notRange r old)]
      exact ready.recorded notRange r old granted
    · rw [mem_singleton.mp new] at granted ⊢
      rw [mine]
      exact recorded notRange granted
  prepared notRange r member granted call held called here phase := by
    rcases mem_append.mp member with old | new
    · rw [kept.calls _ (unlisted notRange r old)] at called
      exact ready.prepared notRange r old granted call held called here phase
    · rw [mem_singleton.mp new, mine] at called
      exact absurd phase (kept.free call held called)

theorem QueueReady.put (ready : QueueReady calls locks q queue) {c : Cursor}
    (found : At queue.requests c) (txn : c.request.txnId = t)
    (beside : Settled t (c.before ++ c.after)) (kept : OthersKept t calls calls' locks locks')
    {x : LockRequest} (mine : x.txnId = t) (range : x.range = c.request.range)
    (valid : ValidMode q x.mode)
    (waits : x.granted = false → WaitsFor calls' q (c.put x) x ∧ upgrading = some t ∧
      ∀ u, queue.upgradingTxn = some u → u = t)
    (grantable : x.granted = true → upgrading = resetUpgrading queue.upgradingTxn t ∧
      (c.request.granted = false → ∀ r ∈ c.before, r.txnId ≠ t →
        overlap r.range x.range = some true → r.granted = true))
    (unlisted : ¬IsKeyRange q → ∀ r ∈ c.before ++ c.after, r.txnId ≠ t)
    (recorded : ¬IsKeyRange q → x.granted = true → locks' t q = some x.mode) :
    QueueReady calls' locks' q ⟨c.put x, upgrading⟩ := by
  have cases_ {r : LockRequest} (member : r ∈ c.put x) : r = x ∨ r ∈ c.before ++ c.after := by
    rcases mem_put.mp member with before | new | after
    · exact .inr (mem_append_left _ before)
    · exact .inl new
    · exact .inr (List.mem_append_right _ after)
  have old {r : LockRequest} (member : r ∈ c.before ++ c.after) : r ∈ queue.requests := by
    rw [found]
    rcases mem_append.mp member with before | after
    · exact mem_append_left _ before
    · exact List.mem_append_right _ (mem_cons_of_mem _ after)
  have ahead := ready.ahead
  have once := ready.once
  rw [found, List.pairwise_append, List.pairwise_cons] at ahead
  rw [found] at once
  obtain ⟨front, ⟨fromHere, back⟩, across⟩ := ahead
  -- an upgrade of another transaction stays the one under way, or there is none
  have follow {r b : LockRequest} (member : r ∈ c.before ++ c.after)
      (was : Ahead queue.upgradingTxn r b) : Ahead upgrading r b := by
    intro ungranted granted apart overlaps
    have other := beside.other member ungranted
    have same := was ungranted granted apart overlaps
    cases isGranted : x.granted with
    | false => exact absurd ((waits isGranted).2.2 _ same) other
    | true =>
      rw [(grantable isGranted).1]
      exact reset_of_other other same
  refine ⟨?_, ?_, ?_, ?_, ?_, ?_⟩
  · intro r member ungranted
    rcases cases_ member with rfl | member
    · exact (waits ungranted).1
    · have other := beside.other member ungranted
      obtain ⟨call, called, waiting, here, first⟩ := ready.pending r (old member) ungranted
      refine ⟨call, by rw [kept.calls _ other]; exact called, waiting, here, first.congr ?_⟩
      rw [own_put c (txn ▸ Ne.symm other) (mine.trans txn.symm), ← found]
  · have rest : (((c.before ++ c.after).filter fun r => !r.granted).map LockRequest.txnId).Nodup :=
      once.sublist (((List.sublist_cons_self _ _).append_left _ |>.filter _).map _)
    rw [Cursor.put, filter_append, map_append]
    cases isGranted : x.granted with
    | true => simpa [isGranted] using rest
    | false =>
      rw [List.filter_cons_of_pos (by simp [isGranted]), List.map_cons, List.nodup_middle,
        List.nodup_cons, ← map_append, ← filter_append]
      refine ⟨fun member => ?_, rest⟩
      obtain ⟨r, waiting, same⟩ := mem_map.mp member
      have waiting := mem_filter.mp waiting
      exact beside.other waiting.1 (by simpa using waiting.2) (same.trans mine)
  · refine List.pairwise_append.mpr ⟨?_, List.pairwise_cons.mpr ⟨?_, ?_⟩, ?_⟩
    · exact front.imp_of_mem fun member _ was => follow (mem_append_left _ member) was
    · intro b member ungranted granted apart _
      rw [mine]
      exact (waits ungranted).2.1
    · exact back.imp_of_mem fun member _ was => follow (List.mem_append_right _ member) was
    · intro r member b later
      have was := across r member
      rcases mem_cons.mp later with rfl | later
      · intro ungranted granted apart overlaps
        have other := beside.other (mem_append_left _ member) ungranted
        obtain ⟨isReset, earlier⟩ := grantable granted
        cases before : c.request.granted with
        | false =>
          rw [earlier before r member other (overlap_symm overlaps)] at ungranted
          cases ungranted
        | true =>
          exact follow (mem_append_left _ member) (was c.request (by simp)) ungranted before
            (by rw [txn, ← mine]; exact apart) (range ▸ overlaps)
      · exact follow (mem_append_left _ member) (was b (mem_cons_of_mem _ later))
  · intro r member
    rcases cases_ member with rfl | member
    · exact valid
    · exact ready.valid r (old member)
  · intro notRange r member granted
    rcases cases_ member with rfl | member
    · rw [mine]
      exact recorded notRange granted
    · rw [kept.locks _ _ (unlisted notRange r member)]
      exact ready.recorded notRange r (old member) granted
  · intro notRange r member granted call held called here phase
    rcases cases_ member with rfl | member
    · rw [mine] at called
      exact absurd phase (kept.free call held called)
    · rw [kept.calls _ (unlisted notRange r member)] at called
      exact ready.prepared notRange r (old member) granted call held called here phase

end Ready

section Entering

variable {queue queue' : LockRequestQueue} {t : Nat} {call : Call} {held : Option LockMode}

inductive Entered (queue : LockRequestQueue) (t : Nat) (call : Call) (held : Option LockMode) :
    LockRequestQueue → Prop
  | pushed {mode : LockMode} (search : findRequest t call.range [] queue.requests = some none)
      (asked : mode = call.mode ∨ mode = targetMode call held) :
      Entered queue t call held
        ⟨queue.requests ++ [⟨t, mode, false, call.range⟩], queue.upgradingTxn⟩
  | upgraded {c : Cursor} {target : LockMode} (found : Found t call.range queue.requests c)
      (asked : target = call.queue.combine c.request.mode call.mode ∨
        ¬IsKeyRange call.queue ∧ target = targetMode call held)
      (granted : c.request.granted = true) (free : ∀ u, queue.upgradingTxn = some u → u = t) :
      Entered queue t call held
        ⟨c.put { c.request with mode := target, granted := false }, some t⟩
  | remoded {c : Cursor} {target : LockMode} (found : Found t call.range queue.requests c)
      (same : c.request.granted = true → c.request.mode = target) :
      Entered queue t call held ⟨c.put { c.request with mode := target }, queue.upgradingTxn⟩

theorem entered_of_enterQueue (entered : enterQueue queue t call held = some (.queued queue')) :
    Entered queue t call held queue' := by
  have retargeted {c : Cursor} {target : LockMode} (found : Found t call.range queue.requests c)
      (asked : target = call.queue.combine c.request.mode call.mode ∨
        ¬IsKeyRange call.queue ∧ target = targetMode call held)
      (queued : retarget queue t c target = .queued queue') :
      Entered queue t call held queue' := by
    unfold retarget at queued
    split at queued
    · rename_i upgrades
      split at queued
      · cases queued
      · rename_i free
        cases queued
        refine .upgraded found asked (Bool.and_eq_true_iff.mp upgrades).1 fun u upgrading => ?_
        by_contra apart
        exact free (by simp [upgrading, apart])
    · rename_i same
      cases queued
      refine .remoded found fun granted => ?_
      by_contra changed
      exact same (by simp [granted, changed])
  obtain ⟨found?, search, entry⟩ := Option.map_eq_some_iff.mp entered
  cases found? with
  | none =>
    simp only [Entry.queued.injEq] at entry
    subst entry
    refine .pushed search ?_
    cases call.queue
    · exact .inr rfl
    · exact .inr rfl
    · exact .inl rfl
  | some c =>
    have found := findRequest_some search
    cases isQueue : call.queue with
    | keyRange _ =>
      simp only [isQueue] at entry
      split at entry
      · cases entry
      · exact retargeted found (.inl (by rw [isQueue])) entry
    | table _ | record _ =>
      simp only [isQueue] at entry
      exact retargeted found (.inr ⟨by simp [isQueue, IsKeyRange], rfl⟩) entry

variable {s : LockState}

theorem pass_cases (quiet : passThrows s t call = false) :
    (findRequest t call.range [] (s.queues call.queue).requests = some none ∧
      waitLoopPass s t call = s.setCall t none) ∨
    ∃ c, Found t call.range (s.queues call.queue).requests c ∧
      ((passNotifies s t call call.queue = true ∧ waitLoopPass s t call =
          (s.setQueue call.queue ⟨c.erase, resetUpgrading (s.queues call.queue).upgradingTxn t⟩
            ).setCall t none) ∨
        (isAbortPendingOrDone (s.txnState t) = false ∧
          canGrantRequest call.queue.isTable c = some true ∧
          waitLoopPass s t call = grantRequest s t call c) ∨
        (canGrantRequest call.queue.isTable c = some false ∧ waitLoopPass s t call =
          (s.setTxnState t (setWaitingIfNotAborting (s.txnState t))).setCall t
            (some { call with phase := .waiting }))) := by
  cases search : findRequest t call.range [] (s.queues call.queue).requests with
  | none => simp [passThrows, search] at quiet
  | some found? =>
    cases found? with
    | none => exact .inl ⟨rfl, by simp [waitLoopPass, search]⟩
    | some c =>
      refine .inr ⟨c, findRequest_some search, ?_⟩
      cases aborting : isAbortPendingOrDone (s.txnState t) with
      | true =>
        exact .inl ⟨by simp [passNotifies, search, aborting],
          by simp [waitLoopPass, search, aborting]⟩
      | false =>
        cases grantable : canGrantRequest call.queue.isTable c with
        | none => simp [passThrows, search, aborting, grantable] at quiet
        | some granted =>
          cases granted with
          | true => exact .inr (.inl ⟨rfl, rfl,
              by simp [waitLoopPass, search, aborting, grantable]⟩)
          | false => exact .inr (.inr ⟨rfl,
              by simp [waitLoopPass, search, aborting, grantable]⟩)

theorem search_of_found {c : Cursor} (found : Found t call.range (s.queues call.queue).requests c)
    (quiet : passThrows s t call = false) :
    findRequest t call.range [] (s.queues call.queue).requests = some (some c) := by
  cases search : findRequest t call.range [] (s.queues call.queue).requests with
  | none => simp [passThrows, search] at quiet
  | some found? =>
    cases found? with
    | none =>
      have misses := findRequest_none search c.request (by rw [found.split]; simp) found.mine
      rw [found.hit] at misses
      cases misses
    | some c' => rw [found_unique found (findRequest_some search)]

/-- What a pass of `t` on the queue `q` leaves as it was. -/
structure PassFrame (s s' : LockState) (t : Nat) (q : QueueId) : Prop where
  queues : ∀ q', q' ≠ q → s'.queues q' = s.queues q'
  kept : OthersKept t s.calls s'.calls s.locks s'.locks
  locks : ∀ q', q' ≠ q → s'.locks t q' = s.locks t q'
  states : ∀ u, u ≠ t → s'.txnState u = s.txnState u

theorem frame_of_setCall (s : LockState) (t : Nat) {call' : Option Call}
    (free : ∀ call held, call' = some call → call.phase ≠ .prepared held) (q : QueueId) :
    PassFrame s (s.setCall t call') t q where
  queues _ _ := rfl
  kept :=
    { calls := fun _ apart => setCall_calls_of_ne s _ apart
      locks := fun _ _ _ => rfl
      free := fun call held called => free call held (by rwa [setCall_calls_self] at called) }
  locks _ _ := rfl
  states _ _ := rfl

theorem frame_of_grant (s : LockState) (t : Nat) (call : Call) (c : Cursor) :
    PassFrame s (grantRequest s t call c) t call.queue where
  queues _ apart := update_of_ne apart _ _
  kept :=
    { calls := fun _ apart => update_of_ne apart _ _
      locks := fun u q apart => by
        unfold grantRequest
        cases call.queue <;> simp [update_of_ne apart]
      free := fun call' held called => by
        simp [grantRequest] at called }
  locks q' apart := by
    unfold grantRequest
    cases h : call.queue <;> simp_all
  states u apart := update_of_ne apart _ _

theorem pass_frame (quiet : passThrows s t call = false) :
    PassFrame s (waitLoopPass s t call) t call.queue := by
  rcases pass_cases quiet with ⟨-, ends⟩ | ⟨c, -, ⟨-, ends⟩ | ⟨-, -, ends⟩ | ⟨-, ends⟩⟩
  · rw [ends]
    exact frame_of_setCall s t (by rintro _ _ ⟨⟩) _
  · rw [ends]
    have frame := frame_of_setCall (s.setQueue call.queue ⟨c.erase,
      resetUpgrading (s.queues call.queue).upgradingTxn t⟩) t
      (fun call' held (same : none = some call') => by cases same) call.queue
    exact ⟨fun q' apart => setQueue_queues_of_ne s _ apart, frame.kept, frame.locks, frame.states⟩
  · rw [ends]
    exact frame_of_grant s t call c
  · rw [ends]
    let waiting : Call := { call with phase := .waiting }
    have frame := frame_of_setCall (s.setTxnState t (setWaitingIfNotAborting (s.txnState t))) t
      (fun call' held (same : some waiting = some call') => by cases same; simp [waiting])
      call.queue
    exact ⟨frame.queues, frame.kept, frame.locks, fun u apart => update_of_ne apart _ _⟩

end Entering

section Steps

structure Ready (s : LockState) : Prop where
  sound : QueuesSound s
  queues : ∀ q, QueueReady s.calls s.locks q (s.queues q)

variable {q : QueueId} {requests : List LockRequest}

theorem Ready.elsewhere {s s' : LockState} {t : Nat} {q' : QueueId} (ready : Ready s)
    (frame : PassFrame s s' t q) (apart : q' ≠ q) (settled : Settled t (s.queues q').requests) :
    QueueReady s'.calls s'.locks q' (s'.queues q') := by
  rw [frame.queues q' apart]
  have here := ready.queues q'
  refine here.recall settled frame.kept.calls frame.kept.locks ?_ ?_
  · intro notRange r member mine
    rw [frame.locks q' apart, ← mine]
    exact here.recorded notRange r member (settled r member mine)
  · intro _ _ _ _ call held called _ phase
    exact absurd phase (frame.kept.free call held called)

theorem ungranted_at {t : Nat} {c c' : Cursor} (here : At requests c)
    (beside : Settled t (c.before ++ c.after)) (here' : At requests c')
    (mine : c'.request.txnId = t) (ungranted : c'.request.granted = false) : c' = c := by
  rcases place_cases (here.symm.trans here') with
    ⟨before, request, after⟩ | ⟨m, before, -⟩ | ⟨m, after, -⟩
  · cases c
    cases c'
    simp_all
  · exact absurd mine (beside.other (by simp [before]) ungranted)
  · exact absurd mine (beside.other (by simp [after]) ungranted)

/-- The queue of the call stays ready, its requests fulfil `kept` unless its waiters are notified,
and `t` waits only when held back. -/
structure PassKeeps (s' : LockState) (t : Nat) (q : QueueId) (notifies : Bool)
    (kept : List LockRequest → Prop) : Prop where
  queue : QueueReady s'.calls s'.locks q (s'.queues q)
  others : notifies = false → kept (s'.queues q).requests
  waiter : ∀ c, At (s'.queues q).requests c → waitsUngranted s' q c.request = true →
    c.request.txnId = t → heldBack q.isTable c = true

theorem idle_waiter {s : LockState} {t : Nat} (ended : s.calls t = none) (c : Cursor)
    (waits : waitsUngranted s q c.request = true) (mine : c.request.txnId = t) :
    heldBack q.isTable c = true := by
  simp [waitsUngranted, waitsOn, mine, ended] at waits

theorem waitsUngranted_ungranted {s : LockState} {r : LockRequest}
    (waits : waitsUngranted s q r = true) : r.granted = false := by
  simp only [waitsUngranted, Bool.and_eq_true, Bool.not_eq_eq_eq_not, Bool.not_true] at waits
  exact waits.2

variable {s s₁ : LockState} {t : Nat} {call : Call} {queue : LockRequestQueue} {c : Cursor}

theorem grantRequest_recorded (s : LockState) (t : Nat) (call : Call) (c : Cursor)
    (notRange : ¬IsKeyRange call.queue) :
    (grantRequest s t call c).locks t call.queue = some c.request.mode := by
  unfold grantRequest
  cases h : call.queue with
  | keyRange _ =>
    rw [h] at notRange
    exact absurd trivial notRange
  | table _ | record _ => simp

theorem passKeeps_of {keeps : List LockRequest → Prop} (start : s₁ = s.setQueue call.queue queue)
    (found : Found t call.range queue.requests c) (quiet : passThrows s₁ t call = false)
    (erased : ∀ calls', OthersKept t s.calls calls' s.locks s.locks → calls' t = none →
      QueueReady calls' s.locks call.queue ⟨c.erase, resetUpgrading queue.upgradingTxn t⟩)
    (granted : isAbortPendingOrDone (s₁.txnState t) = false →
      canGrantRequest call.queue.isTable c = some true → ∀ calls' locks',
      OthersKept t s.calls calls' s.locks locks' → calls' t = none →
      (¬IsKeyRange call.queue → locks' t call.queue = some c.request.mode) →
      QueueReady calls' locks' call.queue
        ⟨c.put { c.request with granted := true }, resetUpgrading queue.upgradingTxn t⟩ ∧
      keeps (c.put { c.request with granted := true }))
    (waits : ∀ calls', OthersKept t s.calls calls' s.locks s.locks →
      calls' t = some { call with phase := .waiting } →
      QueueReady calls' s.locks call.queue queue ∧ keeps queue.requests ∧
      Settled t (c.before ++ c.after)) :
    PassKeeps (waitLoopPass s₁ t call) t call.queue (passNotifies s₁ t call call.queue) keeps := by
  have frame := pass_frame quiet
  have atQueue : s₁.queues call.queue = queue := by
    rw [start]
    exact setQueue_queues_self s _ _
  have sameCalls : s₁.calls = s.calls := by rw [start]; rfl
  have sameLocks : s₁.locks = s.locks := by rw [start]; rfl
  have kept := frame.kept
  rw [sameCalls, sameLocks] at kept
  rcases pass_cases quiet with ⟨gone, -⟩ | ⟨c', found', outcome⟩
  · rw [atQueue] at gone
    have misses := findRequest_none gone c.request (At.mem found.split) found.mine
    rw [found.hit] at misses
    cases misses
  rw [atQueue] at found'
  obtain rfl := found_unique found found'
  rcases outcome with ⟨notifies, ends⟩ | ⟨going, grantable, ends⟩ | ⟨blocked, ends⟩
  · have queues : (waitLoopPass s₁ t call).queues call.queue =
        ⟨c'.erase, resetUpgrading queue.upgradingTxn t⟩ := by
      rw [ends, ← atQueue]
      exact setQueue_queues_self s₁ _ _
    have idle : (waitLoopPass s₁ t call).calls t = none := by
      rw [ends]
      exact setCall_calls_self _ _ _
    have locks : (waitLoopPass s₁ t call).locks = s.locks := by
      rw [ends]
      exact sameLocks
    refine ⟨?_, fun silent => ?_, fun c _ => idle_waiter idle c⟩
    · rw [queues, locks]
      exact erased _ (locks ▸ kept) idle
    · rw [silent] at notifies
      cases notifies
  · have queues : (waitLoopPass s₁ t call).queues call.queue =
        ⟨c'.put { c'.request with granted := true }, resetUpgrading queue.upgradingTxn t⟩ := by
      rw [ends, ← atQueue]
      exact update_self _ _ _
    have idle : (waitLoopPass s₁ t call).calls t = none := by
      rw [ends]
      exact update_self _ _ _
    have recorded (notRange : ¬IsKeyRange call.queue) :
        (waitLoopPass s₁ t call).locks t call.queue = some c'.request.mode := by
      rw [ends]
      exact grantRequest_recorded s₁ t call c' notRange
    obtain ⟨after, stays⟩ := granted going grantable _ _ kept idle recorded
    refine ⟨by rw [queues]; exact after, fun _ => by rw [queues]; exact stays,
      fun c _ => idle_waiter idle c⟩
  · have queues : (waitLoopPass s₁ t call).queues call.queue = queue := by
      rw [ends, ← atQueue]
      rfl
    have waiting : (waitLoopPass s₁ t call).calls t = some { call with phase := .waiting } := by
      rw [ends]
      exact setCall_calls_self _ _ _
    have locks : (waitLoopPass s₁ t call).locks = s.locks := by
      rw [ends]
      exact sameLocks
    obtain ⟨after, stays, beside⟩ := waits _ (locks ▸ kept) waiting
    refine ⟨by rw [queues, locks]; exact after, fun _ => by rw [queues]; exact stays, ?_⟩
    intro c here waitsHere mine
    rw [queues] at here
    obtain rfl := ungranted_at found.split beside here mine (waitsUngranted_ungranted waitsHere)
    exact heldBack_of_false blocked

theorem findRequest_append {t : Nat} {range : Option KeyRange} {front l : List LockRequest}
    (gone : findRequest t range front l = some none) (l' : List LockRequest) :
    findRequest t range front (l ++ l') = findRequest t range (front ++ l) l' := by
  induction l generalizing front with
  | nil => simp
  | cons r rest ih =>
    unfold findRequest at gone
    rw [List.cons_append, findRequest]
    by_cases mine : r.txnId = t
    · simp only [mine, if_true] at gone ⊢
      cases same : sameRange r.range range with
      | none => simp [same] at gone
      | some hit =>
        cases hit
        · simp only [same, bind_eq_bind, bind_some, Bool.false_eq_true,
            if_false] at gone ⊢
          simpa using ih gone
        · simp [same] at gone
    · simp only [mine, if_false] at gone ⊢
      simpa using ih gone

theorem Ready.own_recorded {s : LockState} (ready : Ready s) {t : Nat}
    (settled : Settled t (s.queues q).requests) (notRange : ¬IsKeyRange q) :
    ∀ r ∈ (s.queues q).requests, r.txnId = t → s.locks t q = some r.mode := by
  intro r member mine
  rw [← mine]
  exact (ready.queues q).recorded notRange r member (settled r member mine)

theorem Ready.erased (ready : Ready s) {q : QueueId} {requests : List LockRequest}
    {calls' : Nat → Option Call} (sub : requests.Sublist (s.queues q).requests)
    (rest : ∀ u, u ≠ t → own u requests = own u (s.queues q).requests)
    (settled : Settled t requests) (kept : OthersKept t s.calls calls' s.locks s.locks) :
    QueueReady calls' s.locks q ⟨requests, resetUpgrading (s.queues q).upgradingTxn t⟩ := by
  have dropped := (ready.queues q).drop sub rest settled
  refine dropped.recall settled kept.calls kept.locks ?_ ?_
  · intro notRange r member mine
    rw [← mine]
    exact dropped.recorded notRange r member (settled r member mine)
  · intro _ _ _ _ call held called _ phase
    exact absurd phase (kept.free call held called)

theorem Ready.push (ready : Ready s)
    (settled : Settled t (s.queues call.queue).requests) {mode : LockMode}
    (valid : ValidMode call.queue mode)
    (search : findRequest t call.range [] (s.queues call.queue).requests = some none)
    (start : s₁ = s.setQueue call.queue ⟨(s.queues call.queue).requests ++
      [⟨t, mode, false, call.range⟩], (s.queues call.queue).upgradingTxn⟩)
    (quiet : passThrows s₁ t call = false) :
    PassKeeps (waitLoopPass s₁ t call) t call.queue (passNotifies s₁ t call call.queue)
      (Keeps call.queue.isTable t (s.queues call.queue).requests) := by
  have here := ready.queues call.queue
  have misses := findRequest_none search
  have hit : sameRange call.range call.range = some true := by
    have searched : findRequest t call.range [] (s₁.queues call.queue).requests ≠ none := by
      intro thrown
      simp [passThrows, thrown] at quiet
    rw [start, setQueue_queues_self, findRequest_append search] at searched
    cases self : sameRange call.range call.range with
    | none => simp [findRequest, self] at searched
    | some same =>
      cases same
      · exact absurd self (sameRange_self _)
      · rfl
  have unlisted (notRange : ¬IsKeyRange call.queue) :
      ∀ r ∈ (s.queues call.queue).requests, r.txnId ≠ t := by
    intro r member mine
    have differs := misses r member mine
    have noRange := (ready.sound.queues call.queue).ranges notRange r member
    rw [noRange] at differs
    cases call.range <;> cases differs
  have found : Found t call.range ((s.queues call.queue).requests ++ [⟨t, mode, false, call.range⟩])
      ⟨(s.queues call.queue).requests, ⟨t, mode, false, call.range⟩, []⟩ :=
    ⟨rfl, rfl, hit, misses⟩
  refine passKeeps_of start found quiet ?_ ?_ ?_
  · intro calls' kept _
    simpa [Cursor.erase] using ready.erased (List.Sublist.refl _) (fun _ _ => rfl) settled kept
  · intro _ grantable calls' locks' kept _ recorded
    refine ⟨?_, keeps_push rfl⟩
    refine here.push settled kept rfl valid (.inr rfl) (by rintro ⟨⟩) ?_ unlisted
      fun notRange _ => recorded notRange
    intro _ r member apart overlaps
    exact ((canGrantRequest_true grantable).1 r member apart overlaps).1
  · intro calls' kept waiting
    refine ⟨?_, keeps_push rfl, by simpa using settled⟩
    refine here.push settled kept rfl valid (.inl rfl) (fun _ => ?_) (by rintro ⟨⟩) unlisted
      (by rintro _ ⟨⟩)
    exact ⟨_, waiting, rfl, rfl, found.firstMatch⟩

theorem beside_sublist (here : At requests c) : (c.before ++ c.after).Sublist requests := by
  rw [here]
  exact (List.sublist_cons_self _ _).append_left _

theorem own_beside (found : Found t call.range requests c) (u : Nat) (apart : u ≠ t) :
    own u (c.before ++ c.after) = own u requests := by
  simp [own, found.split, found.mine, Ne.symm apart]

theorem Settled.sublist {requests' : List LockRequest} (settled : Settled t requests)
    (sub : requests'.Sublist requests) : Settled t requests' :=
  fun r member => settled r (sub.subset member)

section

variable (ready : Ready s)

include ready

theorem Ready.erased_found {calls' : Nat → Option Call}
    (found : Found t call.range (s.queues q).requests c) (beside : Settled t (c.before ++ c.after))
    (kept : OthersKept t s.calls calls' s.locks s.locks) :
    QueueReady calls' s.locks q ⟨c.erase, resetUpgrading (s.queues q).upgradingTxn t⟩ :=
  ready.erased (beside_sublist found.split) (own_beside found) beside kept

theorem Ready.unlisted (found : Found t call.range (s.queues q).requests c)
    (notRange : ¬IsKeyRange q) :
    ∀ r ∈ c.before ++ c.after, r.txnId ≠ t := by
  intro r member mine
  have single := (ready.sound.queues q).single notRange
  rw [found.split, map_append, List.map_cons, List.nodup_middle, List.nodup_cons,
    ← map_append, found.mine] at single
  exact single.1 (mem_map.mpr ⟨r, member, mine⟩)

theorem Ready.upgrade
    (settled : Settled t (s.queues call.queue).requests)
    (found : Found t call.range (s.queues call.queue).requests c) {target : LockMode}
    (valid : ValidMode call.queue target) (granted : c.request.granted = true)
    (stronger : Covers call.queue.isTable target c.request.mode)
    (free : ∀ u, (s.queues call.queue).upgradingTxn = some u → u = t)
    (start : s₁ = s.setQueue call.queue
      ⟨c.put { c.request with mode := target, granted := false }, some t⟩)
    (quiet : passThrows s₁ t call = false) :
    PassKeeps (waitLoopPass s₁ t call) t call.queue (passNotifies s₁ t call call.queue)
      (Keeps call.queue.isTable t (s.queues call.queue).requests) := by
  have here := ready.queues call.queue
  have beside := settled.sublist (beside_sublist found.split)
  have reset : resetUpgrading (some t) t = resetUpgrading (s.queues call.queue).upgradingTxn t := by
    cases upgrading : (s.queues call.queue).upgradingTxn with
    | none => simp [resetUpgrading]
    | some u => rw [free u upgrading]
  let changed : LockRequest := { c.request with mode := target, granted := false }
  have found₁ : Found t call.range (c.put changed) ⟨c.before, changed, c.after⟩ :=
    ⟨rfl, found.mine, found.hit, found.misses⟩
  -- no other transaction's request waits for this one as an upgrade
  have unawaited (c' : Cursor) (at' : At (s.queues call.queue).requests c')
      (other : c'.request.txnId ≠ t) (waits : c'.request.granted = false)
      (later : c.request ∈ c'.after) : overlap c.request.range c'.request.range ≠ some true := by
    intro overlaps
    have ahead := here.ahead
    rw [at', List.pairwise_append, List.pairwise_cons] at ahead
    have upgrading := ahead.2.1.1 c.request later waits granted
      (by rw [found.mine]; exact Ne.symm other) overlaps
    exact other (free _ upgrading)
  refine passKeeps_of start found₁ quiet ?_ ?_ ?_
  · intro calls' kept _
    have gone := ready.erased_found found beside kept
    rw [reset]
    exact gone
  · intro _ _ calls' locks' kept _ recorded
    rw [reset]
    let held : LockRequest := { c.request with mode := target, granted := true }
    have again : c.request.granted = false → ∀ r ∈ c.before, r.txnId ≠ t →
        overlap r.range held.range = some true → r.granted = true := by
      intro ungranted
      rw [granted] at ungranted
      cases ungranted
    exact ⟨here.put (x := held) found.split found.mine beside kept found.mine rfl valid
        (by rintro ⟨⟩) (fun _ => ⟨rfl, again⟩) (ready.unlisted found) fun notRange _ =>
          recorded notRange,
      keeps_put (c := c) (r := held) found.split found.mine found.mine rfl granted
        (fun _ => stronger) (by rintro ⟨⟩)⟩
  · intro calls' kept waiting
    have waits : WaitsFor calls' call.queue (c.put changed) changed :=
      ⟨{ call with phase := .waiting }, by rw [← waiting]; exact congrArg calls' found.mine, rfl,
        rfl, found.mine.symm ▸ found₁.firstMatch⟩
    exact ⟨here.put (x := changed) found.split found.mine beside kept found.mine rfl valid
        (fun _ => ⟨waits, rfl, free⟩) (by rintro ⟨⟩) (ready.unlisted found) (by rintro _ ⟨⟩),
      keeps_put (c := c) (r := changed) found.split found.mine found.mine rfl granted
        (by rintro ⟨⟩) (fun _ => unawaited), beside⟩

theorem Ready.remode
    (settled : Settled t (s.queues call.queue).requests)
    (found : Found t call.range (s.queues call.queue).requests c)
    (start : s₁ = s.setQueue call.queue (s.queues call.queue))
    (quiet : passThrows s₁ t call = false) :
    PassKeeps (waitLoopPass s₁ t call) t call.queue (passNotifies s₁ t call call.queue)
      (Keeps call.queue.isTable t (s.queues call.queue).requests) := by
  have here := ready.queues call.queue
  have beside := settled.sublist (beside_sublist found.split)
  have granted := settled c.request (At.mem found.split) found.mine
  refine passKeeps_of start found quiet ?_ ?_ ?_
  · intro calls' kept _
    exact ready.erased_found found beside kept
  · intro _ _ calls' locks' kept _ recorded
    let held : LockRequest := { c.request with granted := true }
    have again : c.request.granted = false → ∀ r ∈ c.before, r.txnId ≠ t →
        overlap r.range held.range = some true → r.granted = true := by
      intro ungranted
      rw [granted] at ungranted
      cases ungranted
    exact ⟨here.put (x := held) found.split found.mine beside kept found.mine rfl
        (here.valid c.request (At.mem found.split)) (by rintro ⟨⟩) (fun _ => ⟨rfl, again⟩)
        (ready.unlisted found) fun notRange _ => recorded notRange,
      keeps_put (c := c) (r := held) found.split found.mine found.mine rfl granted
        (fun _ => covers_refl _ _) (by rintro ⟨⟩)⟩
  · intro calls' kept _
    refine ⟨here.recall settled kept.calls kept.locks (ready.own_recorded settled) ?_, keeps_refl,
      beside⟩
    intro _ _ _ _ call held called _ phase
    exact absurd phase (kept.free call held called)

theorem Ready.enqueue (called : s.calls t = some call)
    {held : Option LockMode} (phase : call.phase = .prepared held)
    (entered : enterQueue (s.queues call.queue) t call held = some (.queued queue))
    (quiet : passThrows (s.setQueue call.queue queue) t call = false) :
    PassKeeps (waitLoopPass (s.setQueue call.queue queue) t call) t call.queue
      (passNotifies (s.setQueue call.queue queue) t call call.queue)
      (Keeps call.queue.isTable t (s.queues call.queue).requests) := by
  have here := ready.queues call.queue
  have settled : Settled t (s.queues call.queue).requests := by
    refine here.settled fun call' called' waiting => ?_
    rw [called] at called'
    cases called'
    rw [phase] at waiting
    cases waiting
  have valid := validMode_of_call (ready.sound.calls t call called)
  have validTarget : ValidMode call.queue (targetMode call held) := by
    cases held with
    | none => exact valid
    | some _ => exact validMode_combine _ _ _
  cases entered_of_enterQueue entered with
  | @pushed mode search asked =>
    refine ready.push settled ?_ search rfl quiet
    rcases asked with rfl | rfl
    · exact valid
    · exact validTarget
  | @upgraded c target found asked granted free =>
    have member := At.mem found.split
    have target_ : ValidMode call.queue target ∧
        Covers call.queue.isTable target c.request.mode := by
      rcases asked with rfl | ⟨notRange, rfl⟩
      · exact ⟨validMode_combine _ _ _, covers_combine (here.valid _ member) _⟩
      · have knows := here.prepared notRange c.request member granted call held
          (found.mine ▸ called) rfl phase
        subst knows
        exact ⟨validMode_combine _ _ _, covers_combine (here.valid _ member) _⟩
    exact ready.upgrade settled found target_.1 granted target_.2 free rfl quiet
  | @remoded c target found same =>
    have unchanged : (⟨c.put { c.request with mode := target },
        (s.queues call.queue).upgradingTxn⟩ : LockRequestQueue) = s.queues call.queue := by
      have granted := settled c.request (At.mem found.split) found.mine
      rw [← same granted]
      have put : c.put c.request = (s.queues call.queue).requests := found.split.symm
      rw [put]
    rw [unchanged] at quiet ⊢
    exact ready.remode settled found rfl quiet

end

def Granted (s : LockState) (t : Nat) (call : Call) (requests' : List LockRequest) : Prop :=
  requests' = (s.queues call.queue).requests ∨
    ∃ c, Found t call.range (s.queues call.queue).requests c ∧
      isAbortPendingOrDone (s.txnState t) = false ∧
      canGrantRequest call.queue.isTable c = some true ∧
      requests' = c.put { c.request with granted := true }

theorem Ready.wake (ready : Ready s) (called : s.calls t = some call)
    (phase : call.phase = .waiting) (quiet : passThrows s t call = false) :
    PassKeeps (waitLoopPass s t call) t call.queue (passNotifies s t call call.queue)
      (Granted s t call) := by
  have here := ready.queues call.queue
  have start : s = s.setQueue call.queue (s.queues call.queue) := by
    simp [LockState.setQueue]
  rcases pass_cases quiet with ⟨gone, ends⟩ | ⟨c, found, -⟩
  · have settled : Settled t (s.queues call.queue).requests := by
      intro r member mine
      by_contra ungranted
      obtain ⟨call', called', -, -, first⟩ := here.pending r member (by simpa using ungranted)
      rw [mine, called] at called'
      cases called'
      obtain ⟨_, _, _, hit, _⟩ := first
      rw [findRequest_none gone r member mine] at hit
      cases hit
    have frame := pass_frame quiet
    rw [ends] at frame ⊢
    refine ⟨?_, fun _ => .inl rfl, fun c _ => idle_waiter (setCall_calls_self _ _ _) c⟩
    refine here.recall settled frame.kept.calls frame.kept.locks (ready.own_recorded settled) ?_
    intro _ _ _ _ call held called _ phase
    exact absurd phase (frame.kept.free call held called)
  · have beside := here.settled_beside called found
    refine passKeeps_of start found quiet ?_ ?_ ?_
    · intro calls' kept _
      exact ready.erased_found found beside kept
    · intro going grantable calls' locks' kept _ recorded
      let held : LockRequest := { c.request with granted := true }
      have earlier : c.request.granted = false → ∀ r ∈ c.before, r.txnId ≠ t →
          overlap r.range held.range = some true → r.granted = true := by
        intro _ r member apart overlaps
        rw [← found.mine] at apart
        exact ((canGrantRequest_true grantable).1 r member apart overlaps).1
      exact ⟨here.put (x := held) found.split found.mine beside kept found.mine rfl
          (here.valid c.request (At.mem found.split)) (by rintro ⟨⟩) (fun _ => ⟨rfl, earlier⟩)
          (ready.unlisted found) fun notRange _ => recorded notRange,
        .inr ⟨c, found, going, grantable, rfl⟩⟩
    · intro calls' kept waiting
      have same : calls' = s.calls := by
        funext u
        by_cases mine : u = t
        · rw [mine, waiting, called, ← phase]
        · exact kept.calls u mine
      rw [same]
      exact ⟨here, .inl rfl, beside⟩

end Steps

section Runs

/-- The invariant: the queues are ready, and a waiter without a notification is held back. -/
structure NoneStranded (w : WakeState) : Prop where
  ready : Ready w.locks
  held : ∀ q c, At (w.locks.queues q).requests c → waitsUngranted w.locks q c.request = true →
    w.notified c.request.txnId = false → heldBack q.isTable c = true

/-- What one step has to keep, when it changes the call or requests of `actor` only. -/
structure StepKeeps (w : WakeState) (label : Label) (s' : LockState) (actor : Option Nat) :
    Prop where
  ready : ∀ q, QueueReady s'.calls s'.locks q (s'.queues q)
  calls : ∀ u, actor ≠ some u → s'.calls u = w.locks.calls u
  states : ∀ u, actor ≠ some u → isAbortPendingOrDone (w.locks.txnState u) = true →
    isAbortPendingOrDone (s'.txnState u) = true
  wakes : ∀ u, actor ≠ some u → label ≠ .wake u
  others : ∀ q, notifies w.locks label q = false → ∀ c, At (s'.queues q).requests c →
    actor ≠ some c.request.txnId → waitsUngranted w.locks q c.request = true →
    w.notified c.request.txnId = false → heldBack q.isTable c = true
  waiter : ∀ t, actor = some t → ∀ q c, At (s'.queues q).requests c →
    waitsUngranted s' q c.request = true → c.request.txnId = t → heldBack q.isTable c = true

variable {w : WakeState} {label : Label} {s' : LockState} {actor : Option Nat}

variable {t : Nat} {s : LockState}

theorem waitsOn_call {q : QueueId} (waits : waitsOn s t q = true) :
    ∃ call, s.calls t = some call ∧ call.phase = .waiting ∧ call.queue = q := by
  unfold waitsOn at waits
  cases called : s.calls t with
  | none => simp [called] at waits
  | some call => exact ⟨call, rfl, by simpa [called] using waits⟩

theorem NoneStranded.next (sound : QueuesSound s') (keeps : StepKeeps w label s' actor) :
    NoneStranded ⟨s', notifiedAfter w label s'⟩ := by
  refine ⟨⟨sound, keeps.ready⟩, fun q c here waits unnotified => ?_⟩
  by_cases mine : actor = some c.request.txnId
  · exact keeps.waiter _ mine q c here waits rfl
  · have waits' := waits
    simp only [waitsUngranted, Bool.and_eq_true, Bool.not_eq_eq_eq_not, Bool.not_true] at waits'
    obtain ⟨⟨waiting, going⟩, ungranted⟩ := waits'
    have waitedBefore : waitsOn w.locks c.request.txnId q = true := by
      unfold waitsOn at waiting ⊢
      rwa [keeps.calls _ mine] at waiting
    have wentBefore : isAbortPendingOrDone (w.locks.txnState c.request.txnId) = false := by
      by_contra aborting
      rw [keeps.states _ mine (by simpa using aborting)] at going
      cases going
    obtain ⟨call, called, -, atQueue⟩ := waitsOn_call waitedBefore
    simp only [notifiedAfter, called, atQueue, waitedBefore, waiting, Bool.true_and,
      Bool.or_eq_false_iff, Bool.and_eq_false_iff, bne_eq_false_iff_eq] at unnotified
    have notNotified : w.notified c.request.txnId = false :=
      unnotified.1.resolve_right (keeps.wakes _ mine)
    refine keeps.others q unnotified.2 c here mine ?_ notNotified
    simp [waitsUngranted, waitedBefore, wentBefore, ungranted]

theorem NoneStranded.of_keeps (inv : NoneStranded w) {q : QueueId} {requests : List LockRequest}
    (keeps : Keeps q.isTable t (w.locks.queues q).requests requests) (c : Cursor)
    (here : At requests c) (apart : c.request.txnId ≠ t)
    (waits : waitsUngranted w.locks q c.request = true)
    (unnotified : w.notified c.request.txnId = false) : heldBack q.isTable c = true := by
  obtain ⟨old, here', same, held⟩ := keeps c here apart (waitsUngranted_ungranted waits)
  exact held (inv.held q old here' (same ▸ waits) (same ▸ unnotified))

theorem NoneStranded.recall (inv : NoneStranded w) {call' : Option Call}
    (idle : ∀ call, w.locks.calls t = some call → call.phase ≠ .waiting)
    (queues : s'.queues = w.locks.queues) (calls : s'.calls = Function.update w.locks.calls t call')
    (locks : s'.locks = w.locks.locks) (states : ∀ u, u ≠ t → s'.txnState u = w.locks.txnState u)
    (starts : ∀ call, call' = some call → call.phase ≠ .waiting)
    (prepared : ∀ call held, call' = some call → call.phase = .prepared held → ¬IsKeyRange
      call.queue → ∀ r ∈ (w.locks.queues call.queue).requests, r.txnId = t → held = some r.mode)
    (wakes : ∀ u, u ≠ t → label ≠ .wake u) : StepKeeps w label s' (some t) where
  ready q := by
    rw [queues, locks]
    have here := inv.ready.queues q
    have settled : Settled t (w.locks.queues q).requests :=
      here.settled fun call called waiting => absurd waiting (idle call called)
    refine here.recall settled (fun u apart => ?_) (fun _ _ _ => rfl)
      (inv.ready.own_recorded settled) ?_
    · rw [calls, update_of_ne apart]
    · intro notRange r member mine call held called atQueue phase
      rw [calls, update_self] at called
      subst atQueue
      exact prepared call held called phase notRange r member mine
  calls u apart := by
    rw [calls, update_of_ne (fun same => apart (by rw [same]))]
  states u apart aborting := by
    rw [states u (fun same => apart (by rw [same]))]
    exact aborting
  wakes u apart := wakes u fun same => apart (by rw [same])
  others q _ c here _ waits unnotified := by
    rw [queues] at here
    exact inv.held q c here waits unnotified
  waiter u same q c _ waits mine := by
    obtain rfl := Option.some.inj same
    simp only [waitsUngranted, Bool.and_eq_true] at waits
    obtain ⟨call, called, waiting, -⟩ := waitsOn_call waits.1.1
    rw [mine, calls, update_self] at called
    exact absurd waiting (starts call called)

theorem not_waiting {call : Call} (called : s.calls t = some call) (phase : call.phase ≠ .waiting) :
    ∀ call', s.calls t = some call' → call'.phase ≠ .waiting := by
  intro call' called'
  rw [called] at called'
  cases called'
  exact phase

section

variable (inv : NoneStranded w)

include inv

theorem NoneStranded.call {t : Nat} {q : QueueId} {range : Option KeyRange}
    {mode : LockMode} (taken : step w.locks (.call t q range mode) = some s') :
    StepKeeps w (.call t q range mode) s' (some t) := by
  simp only [step] at taken
  split at taken
  · rename_i starts
    have free := Option.isNone_iff_eq_none.mp (Bool.and_eq_true_iff.mp starts).1
    have idle : ∀ call, w.locks.calls t = some call → call.phase ≠ .waiting := by
      simp [free]
    split at taken
    · cases taken
      have calls : w.locks.calls = Function.update w.locks.calls t none := by
        rw [← free, Function.update_eq_self]
      exact inv.recall idle rfl calls rfl (fun _ _ => rfl) (by rintro _ ⟨⟩) (by rintro _ _ ⟨⟩)
        (by simp)
    · cases taken
      refine inv.recall idle rfl rfl rfl (fun _ _ => rfl) ?_ ?_ (by simp)
      · rintro _ ⟨⟩ ⟨⟩
      · rintro _ _ ⟨⟩ ⟨⟩
  · cases taken

theorem NoneStranded.prepare (taken : step w.locks (.prepare t) = some s') :
    StepKeeps w (.prepare t) s' (some t) := by
  simp only [step, bind_eq_bind, bind_eq_some_iff] at taken
  obtain ⟨call, called, taken⟩ := taken
  split at taken
  · rename_i checked
    have idle := not_waiting called (by rw [checked]; simp)
    have ends : StepKeeps w (.prepare t) (w.locks.setCall t none) (some t) :=
      inv.recall idle rfl rfl rfl (fun _ _ => rfl) (by rintro _ ⟨⟩) (by rintro _ _ ⟨⟩) (by simp)
    have goes (held : Option LockMode) (read : heldMode w.locks t call.queue = held) :
        StepKeeps w (.prepare t)
          (w.locks.setCall t (some { call with phase := .prepared held })) (some t) := by
      refine inv.recall idle rfl rfl rfl (fun _ _ => rfl) (by rintro _ ⟨⟩ ⟨⟩) ?_ (by simp)
      rintro _ _ ⟨⟩ ⟨⟩ notRange r member mine
      have settled : Settled t (w.locks.queues call.queue).requests :=
        (inv.ready.queues _).settled fun call' called' waiting => absurd waiting (idle call' called')
      have recorded := inv.ready.own_recorded settled notRange r member mine
      rw [← recorded, ← read]
      cases atQueue : call.queue with
      | keyRange _ =>
        rw [atQueue] at notRange
        exact absurd trivial notRange
      | table _ | record _ => rfl
    split at taken
    · cases taken
      exact ends
    · split at taken
      · rename_i held read
        split at taken
        · cases taken
          exact ends
        · cases taken
          exact goes _ read
      · rename_i read
        cases taken
        exact goes _ read
  · cases taken

theorem NoneStranded.passed {t : Nat} {q : QueueId} {notified : Bool}
    {keeps : List LockRequest → Prop} (frame : PassFrame w.locks s' t q)
    (kept : PassKeeps s' t q notified keeps)
    (settled : ∀ q', q' ≠ q → Settled t (w.locks.queues q').requests)
    (wakes : ∀ u, u ≠ t → label ≠ .wake u)
    (silent : notifies w.locks label q = false → notified = false)
    (others : keeps (s'.queues q).requests → ∀ c, At (s'.queues q).requests c →
      c.request.txnId ≠ t → waitsUngranted w.locks q c.request = true →
      w.notified c.request.txnId = false → heldBack q.isTable c = true) :
    StepKeeps w label s' (some t) where
  ready q' := by
    by_cases same : q' = q
    · rw [same]
      exact kept.queue
    · exact inv.ready.elsewhere frame same (settled q' same)
  calls u apart := frame.kept.calls u fun same => apart (by rw [same])
  states u apart aborting := by
    rw [frame.states u fun same => apart (by rw [same])]
    exact aborting
  wakes u apart := wakes u fun same => apart (by rw [same])
  others q' quiet c here apart waits unnotified := by
    by_cases same : q' = q
    · rw [same] at quiet here waits ⊢
      exact others (kept.others (silent quiet)) c here (fun mine => apart (by rw [mine])) waits
        unnotified
    · rw [frame.queues q' same] at here
      exact inv.held q' c here waits unnotified
  waiter u isActor q' c here waits mine := by
    obtain rfl := Option.some.inj isActor
    by_cases same : q' = q
    · rw [same] at here waits ⊢
      exact kept.waiter c here waits mine
    · rw [frame.queues q' same] at here
      have granted := settled q' same c.request (At.mem here) mine
      rw [waitsUngranted_ungranted waits] at granted
      cases granted

theorem NoneStranded.enqueue (taken : step w.locks (.enqueue t) = some s')
    (safe : wakesSafely w (.enqueue t) = true) :
    StepKeeps w (.enqueue t) s' (some t) := by
  simp only [step, bind_eq_bind, bind_eq_some_iff] at taken
  obtain ⟨call, called, taken⟩ := taken
  split at taken
  · rename_i held phase
    have idle := not_waiting called (by rw [phase]; simp)
    have ends : StepKeeps w (.enqueue t) (w.locks.setCall t none) (some t) :=
      inv.recall idle rfl rfl rfl (fun _ _ => rfl) (by rintro _ ⟨⟩) (by rintro _ _ ⟨⟩) (by simp)
    cases entered : enterQueue (w.locks.queues call.queue) t call held with
    | none =>
      simp only [entered, Option.some.injEq] at taken
      exact taken ▸ ends
    | some entry =>
      cases entry with
      | refused =>
        simp only [entered, Option.some.injEq] at taken
        subst taken
        exact inv.recall idle rfl rfl rfl (fun u apart => update_of_ne apart _ _)
          (by rintro _ ⟨⟩) (by rintro _ _ ⟨⟩) (by simp)
      | satisfied =>
        simp only [entered, Option.some.injEq] at taken
        exact taken ▸ ends
      | queued queue =>
        simp only [entered, Option.some.injEq] at taken
        subst taken
        have starts : loopStart w.locks t = some (call, w.locks.setQueue call.queue queue) := by
          simp [loopStart, called, phase, entered]
        have quiet : passThrows (w.locks.setQueue call.queue queue) t call = false := by
          simpa [wakesSafely, starts] using safe
        have frame := pass_frame quiet
        refine inv.passed ⟨fun q' apart => ?_, frame.kept, frame.locks, frame.states⟩
          (inv.ready.enqueue called phase entered quiet) (fun q' _ => ?_) (by simp)
          (fun silent => by simpa [notifies, starts] using silent) fun keeps => inv.of_keeps keeps
        · rw [frame.queues q' apart]
          exact setQueue_queues_of_ne _ _ apart
        · exact (inv.ready.queues q').settled fun call' called' waiting =>
            absurd waiting (idle call' called')
  · cases taken

theorem NoneStranded.wake (taken : step w.locks (.wake t) = some s')
    (safe : wakesSafely w (.wake t) = true) :
    StepKeeps w (.wake t) s' (some t) := by
  simp only [step, bind_eq_bind, bind_eq_some_iff] at taken
  obtain ⟨call, called, taken⟩ := taken
  split at taken
  · rename_i waiting
    cases taken
    have resumes : loopResume w.locks t = some (call, w.locks) := by
      simp [loopResume, called, waiting]
    have safe : passThrows w.locks t call = false ∧ passStrands w t call = false := by
      simpa [wakesSafely, resumes] using safe
    refine inv.passed (pass_frame safe.1) (inv.ready.wake called waiting safe.1) (fun q' apart => ?_)
      (by simp [eq_comm]) (fun silent => by simpa [notifies, resumes] using silent) ?_
    · refine (inv.ready.queues q').settled fun call' called' _ here => ?_
      rw [called] at called'
      cases called'
      exact apart here.symm
    · rintro (unchanged | ⟨c₁, found, going, grantable, changed⟩) c here apart waits unnotified
      · rw [unchanged] at here
        exact inv.held _ c here waits unnotified
      · rw [changed] at here
        by_contra released
        have stranded : strands w call.queue (c₁.put { c₁.request with granted := true }) = true :=
          List.any_eq_true.mpr ⟨c, mem_cursors_iff.mpr here, by simp [waits, unnotified, released]⟩
        have granting : passStrands w t call = true := by
          simp [passStrands, search_of_found found safe.1, going, grantable, stranded]
        rw [safe.2] at granting
        cases granting
  · cases taken

theorem NoneStranded.mark (queues : s'.queues = w.locks.queues)
    (calls : s'.calls = w.locks.calls) (locks : s'.locks = w.locks.locks)
    (states : ∀ u, isAbortPendingOrDone (w.locks.txnState u) = true →
      isAbortPendingOrDone (s'.txnState u) = true)
    (wakes : ∀ u, label ≠ .wake u) : StepKeeps w label s' none where
  ready q := by
    rw [queues, calls, locks]
    exact inv.ready.queues q
  calls u _ := by rw [calls]
  states u _ := states u
  wakes u _ := wakes u
  others q _ c here _ waits unnotified := by
    rw [queues] at here
    exact inv.held q c here waits unnotified
  waiter := by rintro _ ⟨⟩

theorem NoneStranded.drop {keep : LockRequest → Bool}
    (queues : ∀ q, s'.queues q = ⟨(w.locks.queues q).requests.filter keep, resetUpgrading
      (w.locks.queues q).upgradingTxn t⟩)
    (rest : ∀ r : LockRequest, r.txnId ≠ t → keep r = true)
    (settled : ∀ r : LockRequest, r.txnId = t → keep r = true → r.granted = true)
    (calls : s'.calls = w.locks.calls) (kept : ∀ u, u ≠ t → s'.locks u = w.locks.locks u)
    (mine : ∀ q r, ¬IsKeyRange q → r.txnId = t → keep r = true → s'.locks t q = w.locks.locks t q)
    (states : ∀ u, u ≠ t → s'.txnState u = w.locks.txnState u)
    (notified : ∀ q, notifies w.locks label q = true) (wakes : ∀ u, label ≠ .wake u) :
    StepKeeps w label s' (some t) where
  ready q := by
    rw [queues, calls]
    have others (u : Nat) (apart : u ≠ t) :
        own u ((w.locks.queues q).requests.filter keep) = own u (w.locks.queues q).requests :=
      own_filter fun r _ same => rest r (by rw [same]; exact apart)
    have granted : Settled t ((w.locks.queues q).requests.filter keep) := fun r member same =>
      settled r same (mem_filter.mp member).2
    have dropped := (inv.ready.queues q).drop List.filter_sublist others granted
    refine dropped.recall granted (fun _ _ => rfl) (fun u _ apart => by rw [kept u apart]) ?_ ?_
    · intro notRange r member same
      rw [mine q r notRange same (mem_filter.mp member).2, ← same]
      exact dropped.recorded notRange r member (granted r member same)
    · intro notRange r member same call held called
      rw [← same] at called
      exact dropped.prepared notRange r member (granted r member same) call held called
  calls u _ := by rw [calls]
  states u apart aborting := by
    rw [states u fun same => apart (by rw [same])]
    exact aborting
  wakes u _ := wakes u
  others q quiet := by
    rw [notified q] at quiet
    cases quiet
  waiter u same q c here waits isMine := by
    obtain rfl := Option.some.inj same
    rw [queues] at here
    have granted := settled c.request isMine (mem_filter.mp (At.mem here)).2
    rw [waitsUngranted_ungranted waits] at granted
    cases granted

theorem NoneStranded.abortVictim {cycle : List (Nat × QueueId)}
    (taken : LockManager.step w.locks (.abortVictim cycle) = some s') :
    ∃ actor, StepKeeps w (.abortVictim cycle) s' actor := by
  have skipped : s' = LockManager.abortVictim w.locks (cycleVictim cycle) := by
    simp only [LockManager.step] at taken
    split at taken
    · cases taken
    · split at taken
      · cases taken
        rfl
      · cases taken
  subst skipped
  unfold LockManager.abortVictim
  split
  · exact ⟨none, inv.mark rfl rfl rfl (fun _ aborting => aborting) (by simp)⟩
  · rename_i going
    refine ⟨some (cycleVictim cycle), inv.drop (fun _ => rfl) ?_ ?_ rfl (fun _ _ => rfl)
      (fun _ _ _ _ _ => rfl) (fun u apart => update_of_ne apart _ _) ?_ (by simp)⟩
    · intro r apart
      simp [apart]
    · intro r mine keeps
      simpa [mine] using keeps
    · intro q
      simpa [notifies, and_assoc] using going

theorem NoneStranded.releaseAll (t : Nat) :
    StepKeeps w (.releaseAll t) (LockManager.releaseAll w.locks t) (some t) := by
  refine inv.drop (fun _ => rfl) (fun r apart => by simpa using apart) ?_ rfl
    (fun u apart => update_of_ne apart _ _) ?_ (fun _ _ => rfl) (fun _ => rfl) (by simp)
  · intro r mine keeps
    simp [mine] at keeps
  · intro q r _ mine keeps
    simp [mine] at keeps

end

theorem tryMarkAborting_aborting {state : TransactionState}
    (aborting : isAbortPendingOrDone state = true) :
    isAbortPendingOrDone (tryMarkAborting state) = true := by
  unfold tryMarkAborting
  split
  · exact aborting
  · rfl

theorem NoneStranded.step (inv : NoneStranded w) {w' : WakeState}
    (taken : wakeStep w label = some w') (safe : wakesSafely w label = true) : NoneStranded w' := by
  unfold wakeStep at taken
  split at taken
  · rename_i isEnabled
    obtain ⟨s', stepped, rfl⟩ := Option.map_eq_some_iff.mp taken
    have sound := inv.ready.sound.step stepped
    cases label with
    | call t q range mode => exact .next sound (inv.call stepped)
    | prepare t => exact .next sound (inv.prepare stepped)
    | enqueue t => exact .next sound (inv.enqueue stepped safe)
    | wake t => exact .next sound (inv.wake stepped safe)
    | setState t state =>
      cases stepped
      have free : w.locks.calls t = none := Option.isNone_iff_eq_none.mp isEnabled
      have calls : w.locks.calls = Function.update w.locks.calls t none := by
        rw [← free, Function.update_eq_self]
      exact .next sound (inv.recall (by simp [free]) rfl calls rfl
        (fun u apart => update_of_ne apart _ _) (by rintro _ ⟨⟩) (by rintro _ _ ⟨⟩)
        (by simp))
    | tryMarkAborting t =>
      cases stepped
      refine .next sound (inv.mark rfl rfl rfl (fun u aborting => ?_) (by simp))
      show isAbortPendingOrDone (Function.update w.locks.txnState t _ u) = true
      by_cases mine : u = t
      · rw [mine, update_self, ← mine]
        exact tryMarkAborting_aborting aborting
      · rw [update_of_ne mine]
        exact aborting
    | abortVictim cycle =>
      obtain ⟨actor, keeps⟩ := inv.abortVictim stepped
      exact .next sound keeps
    | releaseAll t =>
      cases stepped
      exact .next sound (inv.releaseAll t)
  · cases taken

theorem NoneStranded.empty : NoneStranded .empty where
  ready := ⟨.empty, fun _ => ⟨by simp [WakeState.empty, LockState.empty],
    by simp [WakeState.empty, LockState.empty], by simp [WakeState.empty, LockState.empty],
    by simp [WakeState.empty, LockState.empty], by simp [WakeState.empty, LockState.empty],
    by simp [WakeState.empty, LockState.empty]⟩⟩
  held q c here := by simp [WakeState.empty, LockState.empty, At] at here

/-- In every run in which no pass strands a waiter, a queue whose waiters have all re-checked has
no grantable waiter. -/
theorem noLostWakeUp {labels : List Label} {w : WakeState}
    (run : Run wakeStep (fun w label => wakesSafely w label = true) .empty labels w)
    (q : QueueId) : NoLostWakeUp w q := by
  have inv : NoneStranded w :=
    run.invariant NoneStranded .empty fun _ _ _ inv safe taken => inv.step taken safe
  intro quiet c here waits
  have waiting : waitsOn w.locks c.request.txnId q = true := by
    simp only [waitsUngranted, Bool.and_eq_true] at waits
    exact waits.1.1
  exact not_grantable (inv.held q c (mem_cursors_iff.mp here) waits (quiet _ waiting))

def readersWait : List Label :=
  [.call 1 (.table 7) none .x, .prepare 1, .enqueue 1, .call 2 (.table 7) none .s, .prepare 2,
    .enqueue 2, .call 3 (.table 7) none .s, .prepare 3, .enqueue 3]

theorem noLostWakeUp_readersWake : ∃ w,
    Run wakeStep (fun w label => wakesSafely w label = true) .empty
        (readersWait ++ [.releaseAll 1, .wake 2, .wake 3]) w ∧
      w.locks.calls 2 = none ∧ w.locks.calls 3 = none ∧ NoLostWakeUp w (.table 7) := by
  have executed : (exec (fun w label => if wakesSafely w label = true then wakeStep w label
      else none) .empty (readersWait ++ [.releaseAll 1, .wake 2, .wake 3])).any
        (fun w => (w.locks.calls 2).isNone && (w.locks.calls 3).isNone) = true := by
    decide +kernel
  obtain ⟨w, reached, returned⟩ := (Option.any_eq_true _ _).mp executed
  rw [Bool.and_eq_true, Option.isNone_iff_eq_none, Option.isNone_iff_eq_none] at returned
  exact ⟨w, run_of_exec reached, returned.1, returned.2, noLostWakeUp (run_of_exec reached) _⟩

theorem otherCalls_of_outcome {s' : LockState} {u : Nat} {call : Call}
    (outcome : PassOutcome s t call s') (apart : u ≠ t) : s'.calls u = s.calls u := by
  cases outcome with
  | ended _ | erased _ _ | granted _ _ _ | waits _ _ _ _ => exact update_of_ne apart _ _

theorem step_idle {s' : LockState} (taken : LockManager.step s label = some s')
    (idle : s.calls t = none) (other : ∀ q range mode, label ≠ .call t q range mode) :
    s'.calls t = none := by
  have apart {u : Nat} {call : Call} (called : s.calls u = some call) : t ≠ u := by
    rintro rfl
    rw [idle] at called
    cases called
  have passed {s₁ : LockState} {u : Nat} {call : Call} (called : s.calls u = some call)
      (same : s₁.calls = s.calls) : (waitLoopPass s₁ u call).calls t = none := by
    rw [otherCalls_of_outcome (waitLoopPass_outcome s₁ u call) (apart called), same, idle]
  cases label with
  | call u q range mode =>
    have differs : t ≠ u := fun mine => other q range mode (by rw [mine])
    simp only [LockManager.step] at taken
    split at taken
    · split at taken
      · cases taken
        exact idle
      · cases taken
        exact (setCall_calls_of_ne s _ differs).trans idle
    · cases taken
  | prepare u =>
    simp only [LockManager.step, bind_eq_bind, bind_eq_some_iff] at taken
    obtain ⟨call, called, taken⟩ := taken
    have ends (call' : Option Call) : (s.setCall u call').calls t = none :=
      (setCall_calls_of_ne s _ (apart called)).trans idle
    split at taken
    · split at taken
      · cases taken
        exact ends _
      · split at taken
        · split at taken
          · cases taken
            exact ends _
          · cases taken
            exact ends _
        · cases taken
          exact ends _
    · cases taken
  | enqueue u =>
    simp only [LockManager.step, bind_eq_bind, bind_eq_some_iff] at taken
    obtain ⟨call, called, taken⟩ := taken
    have ends : (s.setCall u none).calls t = none :=
      (setCall_calls_of_ne s _ (apart called)).trans idle
    split at taken
    · split at taken
      · cases taken
        exact ends
      · cases taken
        exact ends
      · cases taken
        exact ends
      · cases taken
        exact passed called rfl
    · cases taken
  | wake u =>
    simp only [LockManager.step, bind_eq_bind, bind_eq_some_iff] at taken
    obtain ⟨call, called, taken⟩ := taken
    split at taken
    · cases taken
      exact passed called rfl
    · cases taken
  | setState _ _ | tryMarkAborting _ | releaseAll _ =>
    cases taken
    exact idle
  | abortVictim cycle =>
    simp only [LockManager.step] at taken
    split at taken
    · cases taken
    · split at taken
      · cases taken
        unfold LockManager.abortVictim
        split <;> exact idle
      · cases taken

theorem run_idle {ok : WakeState → Label → Prop} {labels : List Label} {w w' : WakeState}
    (run : Run wakeStep ok w labels w') (idle : w.locks.calls t = none)
    (other : ∀ q range mode, .call t q range mode ∉ labels) : w'.locks.calls t = none := by
  induction run with
  | nil => exact idle
  | snoc _ _ taken ih =>
    have before := ih fun q range mode member => other q range mode (by simp [member])
    unfold wakeStep at taken
    split at taken
    · obtain ⟨s', stepped, rfl⟩ := Option.map_eq_some_iff.mp taken
      exact step_idle stepped before fun q range mode same => other q range mode (by simp [same])
    · cases taken

/-- The writer releases its lock and the second reader re-checks first. When the first one is
granted the lock, nobody wakes the second one again. -/
def secondReaderFirst : List Label :=
  readersWait ++ [.releaseAll 1, .wake 3, .wake 2]

/-- The writer and its readers have re-checked, and some reader could be granted its lock. -/
def readerStranded (w : WakeState) : Bool :=
  [1, 2, 3].all (fun t => !w.notified t) &&
    (cursors [] (w.locks.queues (.table 7)).requests).any fun c =>
      waitsUngranted w.locks (.table 7) c.request && canGrantRequest true c == some true

theorem secondReader_stranded : ∃ w, Run wakeStep (fun _ _ => True) .empty secondReaderFirst w ∧
    ¬NoLostWakeUp w (.table 7) := by
  have executed : (exec (fun w label => if True then wakeStep w label else none) .empty
      secondReaderFirst).any readerStranded = true := by decide +kernel
  obtain ⟨w, reached, stranded⟩ := (Option.any_eq_true _ _).mp executed
  have run : Run wakeStep (fun _ _ => True) .empty secondReaderFirst w := run_of_exec reached
  refine ⟨w, run, fun noneLost => ?_⟩
  obtain ⟨quiet, stuck⟩ := Bool.and_eq_true_iff.mp stranded
  obtain ⟨c, member, waits⟩ := List.any_eq_true.mp stuck
  obtain ⟨waits, grantable⟩ := Bool.and_eq_true_iff.mp waits
  refine noneLost (fun t waiting => ?_) c member waits (beq_iff_eq.mp grantable)
  by_cases known : t ∈ [1, 2, 3]
  · simpa using List.all_eq_true.mp quiet t known
  · have idle : w.locks.calls t = none := by
      refine run_idle run rfl fun q range mode member => known ?_
      simp only [secondReaderFirst, readersWait, mem_append, mem_cons,
        Label.call.injEq, List.not_mem_nil, or_false, reduceCtorEq, false_or] at member
      simp only [mem_cons, List.not_mem_nil, or_false]
      tauto
    simp [waitsOn, idle] at waiting

end Runs

end GraniteDb.Concurrency.WakeUps
