/- The single changes the lock manager makes to one of its queues. -/

import GraniteDb.Concurrency.RangeOverlap
import GraniteDb.Concurrency.StrictTwoPhase

namespace GraniteDb.Concurrency.QueueChanges

open Concurrency.LockManager Concurrency.RangeOverlap
open Concurrency.StrictTwoPhase (Found mem_put overlap_symm compatible_symm
  canGrantRequest_true)
open List (pairwise_append mem_cons pairwise_cons mem_singleton mem_append mem_filter)

section Matching

def Fits : QueueId → Option KeyRange → Prop
  | .keyRange _, range => ∃ g, range = some g ∧ plainRange g = true
  | _, range => range = none

variable {q : QueueId}

theorem Fits.match_trans {a b c : Option KeyRange} (fitsA : Fits q a) (fitsB : Fits q b)
    (fitsC : Fits q c) (first : sameRange a c = some true) (second : sameRange b c = some true) :
    sameRange a b = some true := by
  cases q with
  | table _ | record _ =>
    cases fitsA
    rfl
  | keyRange _ =>
    obtain ⟨a, rfl, plainA⟩ := fitsA
    obtain ⟨b, rfl, plainB⟩ := fitsB
    obtain ⟨c, rfl, plainC⟩ := fitsC
    have left := (sameRange_iff plainA plainC).mp first
    have right := (sameRange_iff plainB plainC).mp second
    exact (sameRange_iff plainA plainB).mpr (left.trans right.symm)

theorem Fits.match_symm {a b : Option KeyRange} (fitsA : Fits q a) (fitsB : Fits q b)
    (same : sameRange a b = some true) : sameRange b a = some true := by
  cases q with
  | table _ | record _ =>
    cases fitsB
    rfl
  | keyRange _ =>
    obtain ⟨a, rfl, plainA⟩ := fitsA
    obtain ⟨b, rfl, plainB⟩ := fitsB
    exact (sameRange_iff plainB plainA).mpr ((sameRange_iff plainA plainB).mp same).symm

theorem Fits.eq_none {range : Option KeyRange} (fits : Fits q range) (isTable : q.isTable = true) :
    range = none := by
  cases q with
  | table _ => exact fits
  | record _ | keyRange _ => cases isTable

end Matching

section Changes

/-- One change of a queue. Only a transaction for which `released` holds loses granted
requests, and only one for which `aborted` holds loses ungranted ones. -/
inductive Change (q : QueueId) (released aborted : Nat → Prop) (queue : LockRequestQueue) :
    LockRequestQueue → Prop
  | push (t : Nat) (mode : LockMode) (range : Option KeyRange)
      (absent : ∀ r ∈ queue.requests, r.txnId = t → sameRange r.range range = some false)
      (fits : Fits q range) :
      Change q released aborted queue
        ⟨queue.requests ++ [⟨t, mode, false, range⟩], queue.upgradingTxn⟩
  | mark (t : Nat) (range : Option KeyRange) (c : Cursor) (mode : LockMode)
      (found : Found t range queue.requests c) (ungranted : c.request.granted = false) :
      Change q released aborted queue
        ⟨c.put { c.request with mode := mode }, queue.upgradingTxn⟩
  | upgrade (t : Nat) (range : Option KeyRange) (c : Cursor) (mode : LockMode)
      (found : Found t range queue.requests c) (granted : c.request.granted = true)
      (weak : c.request.mode ≠ .x)
      (free : ∀ u, queue.upgradingTxn = some u → u = t) :
      Change q released aborted queue
        ⟨c.put { c.request with mode := mode, granted := false }, some t⟩
  | grant (t : Nat) (range : Option KeyRange) (c : Cursor)
      (found : Found t range queue.requests c) (ungranted : c.request.granted = false)
      (grantable : canGrantRequest q.isTable c = some true) :
      Change q released aborted queue
        ⟨c.put { c.request with granted := true }, resetUpgrading queue.upgradingTxn t⟩
  | erase (t : Nat) (range : Option KeyRange) (c : Cursor)
      (found : Found t range queue.requests c) (ungranted : c.request.granted = false)
      (ended : aborted t) :
      Change q released aborted queue ⟨c.erase, resetUpgrading queue.upgradingTxn t⟩
  | drop (t : Nat) (ended : aborted t) :
      Change q released aborted queue (removeUngranted t queue)
  | release (t : Nat) (ended : released t) :
      Change q released aborted queue (releaseQueue t queue)

variable {t : Nat} {c : Cursor} {range : Option KeyRange}

theorem resetUpgrading_eq_some {up : Option Nat} {u : Nat} :
    resetUpgrading up t = some u ↔ up = some u ∧ u ≠ t := by
  unfold resetUpgrading
  split
  · rename_i same
    simp only [reduceCtorEq, same, Option.some.injEq, false_iff, not_and, not_not]
    exact Eq.symm
  · rename_i other
    constructor
    · intro same
      exact ⟨same, fun mine => other (mine ▸ same)⟩
    · exact And.left

/-- What holds of a queue. Of the granted table locks `ordered` says that everything before
one is granted too, or waits for its upgrade. -/
structure QueueInv (q : QueueId) (queue : LockRequestQueue) : Prop where
  fits : ∀ r ∈ queue.requests, Fits q r.range
  distinct : queue.requests.Pairwise fun a b =>
    a.txnId = b.txnId → sameRange a.range b.range ≠ some true
  apart : ∀ a ∈ queue.requests, ∀ b ∈ queue.requests, a.granted = true → b.granted = true →
    a.txnId ≠ b.txnId → overlap a.range b.range = some true →
      compatible q.isTable a.mode b.mode = true
  ordered : q.isTable = true → queue.requests.Pairwise fun a b => a.txnId ≠ b.txnId →
    (b.granted = true → a.granted = true ∨ queue.upgradingTxn = some a.txnId) ∧
      (queue.upgradingTxn = some b.txnId → a.granted = true)
  exclusive : q.isTable = true → ∀ a ∈ queue.requests, ∀ b ∈ queue.requests,
    a.txnId ≠ b.txnId → a.granted = true → queue.upgradingTxn = some b.txnId → a.mode ≠ .x
  upgrader : q.isTable = true → ∀ u, queue.upgradingTxn = some u →
    ∃ r ∈ queue.requests, r.txnId = u

variable {q : QueueId} {released aborted : Nat → Prop} {queue queue' : LockRequestQueue}

theorem QueueInv.empty (q : QueueId) : QueueInv q ⟨[], none⟩ := by
  constructor <;> simp

theorem QueueInv.alone (inv : QueueInv q queue) (found : Found t range queue.requests c)
    {r : LockRequest} (member : r ∈ c.before ∨ r ∈ c.after) (mine : r.txnId = t) :
    sameRange r.range c.request.range ≠ some true := by
  have parts := inv.distinct
  have fits := inv.fits
  rw [found.split] at parts fits
  obtain ⟨-, later, across⟩ := pairwise_append.mp parts
  rcases member with early | late
  · exact across r early c.request List.mem_cons_self (mine.trans found.mine.symm)
  · intro same
    have fitsR := fits r (by simp [late])
    have fitsC := fits c.request (by simp)
    exact (pairwise_cons.mp later).1 r late (found.mine.trans mine.symm)
      (fitsR.match_symm fitsC same)

theorem QueueInv.single (inv : QueueInv q queue) (isTable : q.isTable = true) {t : Nat}
    {range : Option KeyRange} {c : Cursor} (found : Found t range queue.requests c)
    {r : LockRequest} (member : r ∈ c.before ∨ r ∈ c.after) : r.txnId ≠ t := by
  intro mine
  have inQueue : r ∈ queue.requests ∧ c.request ∈ queue.requests := by
    rw [found.split]
    rcases member with early | late
    · simp [early]
    · simp [late]
  refine inv.alone found member mine ?_
  rw [(inv.fits r inQueue.1).eq_none isTable, (inv.fits c.request inQueue.2).eq_none isTable]
  rfl

private theorem overlap_table (inv : QueueInv q queue) (isTable : q.isTable = true)
    {a : LockRequest} (member : a ∈ queue.requests) (range : Option KeyRange) :
    overlap a.range range = some true := by
  rw [(inv.fits a member).eq_none isTable]
  rfl

theorem not_x_of_compatible {isTable : Bool} {a b : LockMode}
    (fits : compatible isTable a b = true) : a ≠ .x ∧ b ≠ .x := by
  revert fits
  cases isTable <;> cases a <;> cases b <;> decide

theorem QueueInv.push (inv : QueueInv q queue) {t : Nat} {mode : LockMode}
    {range : Option KeyRange}
    (absent : ∀ r ∈ queue.requests, r.txnId = t → sameRange r.range range = some false)
    (fits : Fits q range) :
    QueueInv q ⟨queue.requests ++ [⟨t, mode, false, range⟩], queue.upgradingTxn⟩ := by
  have noUpgrade : q.isTable = true → queue.upgradingTxn ≠ some t := by
    intro isTable upgrading
    obtain ⟨r, member, mine⟩ := inv.upgrader isTable t upgrading
    have differs := absent r member mine
    rw [(inv.fits r member).eq_none isTable, fits.eq_none isTable] at differs
    cases differs
  constructor
  · intro r member
    rcases mem_append.mp member with old | new
    · exact inv.fits r old
    · rw [mem_singleton.mp new]
      exact fits
  · refine pairwise_append.mpr ⟨inv.distinct, List.pairwise_singleton _ _, ?_⟩
    intro a member b isNew mine
    rw [mem_singleton.mp isNew] at mine ⊢
    rw [absent a member mine]
    simp
  · intro a memberA b memberB grantedA grantedB
    rcases mem_append.mp memberA with oldA | newA
    · rcases mem_append.mp memberB with oldB | newB
      · exact inv.apart a oldA b oldB grantedA grantedB
      · rw [mem_singleton.mp newB] at grantedB
        cases grantedB
    · rw [mem_singleton.mp newA] at grantedA
      cases grantedA
  · intro isTable
    refine pairwise_append.mpr ⟨inv.ordered isTable, List.pairwise_singleton _ _, ?_⟩
    intro a _ b isNew _
    rw [mem_singleton.mp isNew]
    constructor
    · rintro ⟨⟩
    · exact fun upgrading => absurd upgrading (noUpgrade isTable)
  · intro isTable a memberA b memberB others granted upgrading
    rcases mem_append.mp memberA with oldA | newA
    · rcases mem_append.mp memberB with oldB | newB
      · exact inv.exclusive isTable a oldA b oldB others granted upgrading
      · rw [mem_singleton.mp newB] at upgrading
        exact absurd upgrading (noUpgrade isTable)
    · rw [mem_singleton.mp newA] at granted
      cases granted
  · intro isTable u upgrading
    obtain ⟨r, member, mine⟩ := inv.upgrader isTable u upgrading
    exact ⟨r, List.mem_append_left _ member, mine⟩

private theorem QueueInv.replace (inv : QueueInv q queue) (found : Found t range queue.requests c)
    {r : LockRequest} (mine : r.txnId = c.request.txnId) (sameKey : r.range = c.request.range)
    {up : Option Nat}
    (apart : r.granted = true → ∀ b ∈ queue.requests, b.granted = true → b.txnId ≠ t → overlap
      b.range r.range = some true → compatible q.isTable r.mode b.mode = true)
    (before : q.isTable = true → ∀ a ∈ c.before, (r.granted = true → a.granted = true ∨ up = some
      a.txnId) ∧ (up = some t → a.granted = true))
    (after : q.isTable = true → ∀ b ∈ c.after, (b.granted = true → r.granted = true ∨ up = some t)
      ∧ (up = some b.txnId → r.granted = true))
    (upgrading : q.isTable = true → ∀ u, u ≠ t → (up = some u ↔ queue.upgradingTxn = some u))
    (exclusive : q.isTable = true → (∀ a ∈ queue.requests, a.txnId ≠ t → a.granted = true → up =
      some t → a.mode ≠ .x) ∧ ∀ b ∈ queue.requests, b.txnId ≠ t → r.granted = true → up = some
      b.txnId → r.mode ≠ .x) :
    QueueInv q ⟨c.put r, up⟩ := by
  have isT : r.txnId = t := mine.trans found.mine
  have old {x : LockRequest} (member : x ∈ c.before ∨ x ∈ c.after) : x ∈ queue.requests := by
    rw [found.split]
    rcases member with early | late
    · simp [early]
    · simp [late]
  have cases' {x : LockRequest} (member : x ∈ c.put r) :
      x = r ∨ (x ∈ c.before ∨ x ∈ c.after) := by
    rcases mem_put.mp member with early | same | late
    · exact .inr (.inl early)
    · exact .inl same
    · exact .inr (.inr late)
  have inRequests : c.request ∈ queue.requests := by
    rw [found.split]
    simp
  constructor
  · intro x member
    rcases cases' member with rfl | other
    · rw [sameKey]
      exact inv.fits c.request inRequests
    · exact inv.fits x (old other)
  · have keys : ∀ x : LockRequest, x = r → x.txnId = c.request.txnId ∧ x.range = c.request.range := by
      rintro x rfl
      exact ⟨mine, sameKey⟩
    have parts := inv.distinct
    rw [found.split] at parts
    obtain ⟨first, rest, across⟩ := pairwise_append.mp parts
    obtain ⟨head, last⟩ := pairwise_cons.mp rest
    refine pairwise_append.mpr ⟨first, pairwise_cons.mpr ⟨?_, last⟩, ?_⟩
    · intro x member
      rw [mine, sameKey]
      exact head x member
    · intro x memberX y memberY
      rcases mem_cons.mp memberY with same | late
      · rw [(keys y same).1, (keys y same).2]
        exact across x memberX c.request List.mem_cons_self
      · exact across x memberX y (List.mem_cons_of_mem _ late)
  · intro a memberA b memberB grantedA grantedB others overlaps
    rcases cases' memberA with rfl | otherA
    · rcases cases' memberB with rfl | otherB
      · exact absurd rfl others
      · exact apart grantedA b (old otherB) grantedB (fun mineB => others (isT.trans mineB.symm))
          (overlap_symm overlaps)
    · rcases cases' memberB with rfl | otherB
      · rw [compatible_symm]
        exact apart grantedB a (old otherA) grantedA (fun mineA => others (mineA.trans isT.symm))
          overlaps
      · exact inv.apart a (old otherA) b (old otherB) grantedA grantedB others overlaps
  · intro isTable
    have single {x : LockRequest} (member : x ∈ c.before ∨ x ∈ c.after) : x.txnId ≠ t :=
      inv.single isTable found member
    have parts := inv.ordered isTable
    rw [found.split] at parts
    obtain ⟨first, rest, across⟩ := pairwise_append.mp parts
    obtain ⟨-, last⟩ := pairwise_cons.mp rest
    -- Between two requests of other transactions nothing has changed.
    have keep {a b : LockRequest} (memberA : a.txnId ≠ t) (memberB : b.txnId ≠ t)
        (known : a.txnId ≠ b.txnId →
          (b.granted = true → a.granted = true ∨ queue.upgradingTxn = some a.txnId) ∧
            (queue.upgradingTxn = some b.txnId → a.granted = true)) (others : a.txnId ≠ b.txnId) :
        (b.granted = true → a.granted = true ∨ up = some a.txnId) ∧
          (up = some b.txnId → a.granted = true) := by
      rw [upgrading isTable a.txnId memberA, upgrading isTable b.txnId memberB]
      exact known others
    refine pairwise_append.mpr ⟨?_, pairwise_cons.mpr ⟨?_, ?_⟩, ?_⟩
    · exact first.imp_of_mem fun memberA memberB known others =>
        keep (single (.inl memberA)) (single (.inl memberB)) known others
    · intro b member _
      rw [isT]
      exact after isTable b member
    · exact last.imp_of_mem fun memberA memberB known others =>
        keep (single (.inr memberA)) (single (.inr memberB)) known others
    · intro a memberA b memberB others
      rcases mem_cons.mp memberB with rfl | late
      · rw [isT]
        exact before isTable a memberA
      · exact keep (single (.inl memberA)) (single (.inr late))
          (across a memberA b (List.mem_cons_of_mem _ late)) others
  · intro isTable a memberA b memberB others granted isUpgrader
    obtain ⟨mineUpgrades, otherUpgrades⟩ := exclusive isTable
    rcases cases' memberA with rfl | otherA
    · rcases cases' memberB with rfl | otherB
      · exact absurd rfl others
      · exact otherUpgrades b (old otherB) (inv.single isTable found otherB) granted isUpgrader
    · rcases cases' memberB with rfl | otherB
      · rw [isT] at isUpgrader
        exact mineUpgrades a (old otherA) (inv.single isTable found otherA) granted isUpgrader
      · have known := (upgrading isTable b.txnId (inv.single isTable found otherB)).mp isUpgrader
        exact inv.exclusive isTable a (old otherA) b (old otherB) others granted known
  · intro isTable u isUpgrader
    by_cases mineUp : u = t
    · exact ⟨r, mem_put.mpr (.inr (.inl rfl)), isT.trans mineUp.symm⟩
    · obtain ⟨x, member, mineX⟩ :=
        inv.upgrader isTable u ((upgrading isTable u mineUp).mp isUpgrader)
      rw [found.split] at member
      refine ⟨x, mem_put.mpr ?_, mineX⟩
      rcases mem_append.mp member with early | late
      · exact .inl early
      · rcases mem_cons.mp late with rfl | later
        · exact absurd (mineX.symm.trans found.mine) mineUp
        · exact .inr (.inr later)

private theorem QueueInv.shrink (inv : QueueInv q queue) {requests : List LockRequest}
    (sublist : requests.Sublist queue.requests)
    (kept : ∀ r ∈ queue.requests, r.txnId ≠ t → r ∈ requests)
    (settled : q.isTable = true → ∀ r ∈ requests, r.txnId = t → r.granted = true) :
    QueueInv q ⟨requests, resetUpgrading queue.upgradingTxn t⟩ := by
  constructor
  · exact fun r member => inv.fits r (sublist.subset member)
  · exact inv.distinct.sublist sublist
  · exact fun a memberA b memberB => inv.apart a (sublist.subset memberA) b (sublist.subset memberB)
  · intro isTable
    refine ((inv.ordered isTable).sublist sublist).imp_of_mem ?_
    intro a b memberA _ known others
    obtain ⟨granted, upgrades⟩ := known others
    constructor
    · intro grantedB
      by_cases mine : a.txnId = t
      · exact .inl (settled isTable a memberA mine)
      · rcases granted grantedB with grantedA | upgrading
        · exact .inl grantedA
        · exact .inr (resetUpgrading_eq_some.mpr ⟨upgrading, mine⟩)
    · intro upgrading
      exact upgrades (resetUpgrading_eq_some.mp upgrading).1
  · intro isTable a memberA b memberB others granted upgrading
    exact inv.exclusive isTable a (sublist.subset memberA) b (sublist.subset memberB) others
      granted (resetUpgrading_eq_some.mp upgrading).1
  · intro isTable u upgrading
    obtain ⟨upgrades, other⟩ := resetUpgrading_eq_some.mp upgrading
    obtain ⟨r, member, mine⟩ := inv.upgrader isTable u upgrades
    exact ⟨r, kept r member (mine ▸ other), mine⟩

private theorem mem_of_cursor (found : Found t range queue.requests c) :
    c.request ∈ queue.requests ∧
      ∀ r, r ∈ c.before ∨ r ∈ c.after → r ∈ queue.requests := by
  rw [found.split]
  refine ⟨by simp, ?_⟩
  rintro r (early | late)
  · simp [early]
  · simp [late]

private theorem QueueInv.upgradeRequest (inv : QueueInv q queue) {mode : LockMode}
    (found : Found t range queue.requests c) (granted : c.request.granted = true)
    (free : ∀ u, queue.upgradingTxn = some u → u = t) :
    QueueInv q ⟨c.put { c.request with mode := mode, granted := false }, some t⟩ := by
  obtain ⟨inRequests, old⟩ := mem_of_cursor found
  refine inv.replace found (r := { c.request with mode := mode, granted := false }) rfl rfl
    (by rintro ⟨⟩) ?_ ?_ ?_ ?_
  · intro isTable a member
    refine ⟨by rintro ⟨⟩, fun _ => ?_⟩
    have parts := inv.ordered isTable
    rw [found.split] at parts
    have other := inv.single isTable found (.inl member)
    have known := (pairwise_append.mp parts).2.2 a member c.request List.mem_cons_self
      (fun same => other (same.trans found.mine))
    rcases known.1 granted with grantedA | upgrading
    · exact grantedA
    · exact absurd (free _ upgrading) other
  · intro isTable b member
    refine ⟨fun _ => .inr rfl, fun upgrading => ?_⟩
    cases upgrading
    exact absurd rfl (inv.single isTable found (.inr member))
  · intro _ u other
    constructor
    · rintro ⟨⟩
      exact absurd rfl other
    · exact fun upgrading => absurd (free u upgrading) other
  · intro isTable
    refine ⟨?_, by rintro _ _ _ ⟨⟩⟩
    intro a member other grantedA _
    have fits := inv.apart a member c.request inRequests grantedA granted
      (fun same => other (same.trans found.mine)) (overlap_table inv isTable member _)
    exact (not_x_of_compatible fits).1

private theorem QueueInv.grantRequest (inv : QueueInv q queue)
    (found : Found t range queue.requests c) (ungranted : c.request.granted = false)
    (grantable : canGrantRequest q.isTable c = some true) :
    QueueInv q ⟨c.put { c.request with granted := true },
      resetUpgrading queue.upgradingTxn t⟩ := by
  obtain ⟨inRequests, old⟩ := mem_of_cursor found
  obtain ⟨early, late⟩ := canGrantRequest_true grantable
  have compatibleWith (b : LockRequest) (member : b ∈ queue.requests) (grantedB : b.granted = true)
      (other : b.txnId ≠ t) (overlaps : overlap b.range c.request.range = some true) :
      compatible q.isTable c.request.mode b.mode = true := by
    have apart : b.txnId ≠ c.request.txnId := fun same => other (same.trans found.mine)
    rw [found.split] at member
    rcases mem_append.mp member with isEarly | rest
    · exact (early b isEarly apart overlaps).2
    · rcases mem_cons.mp rest with rfl | isLate
      · rw [ungranted] at grantedB
        cases grantedB
      · exact late b isLate apart grantedB overlaps
  have parts (isTable : q.isTable = true) := inv.ordered isTable
  refine inv.replace found (r := { c.request with granted := true }) rfl rfl
    (fun _ => compatibleWith) ?_ ?_ ?_ ?_
  · intro isTable a member
    have apart : a.txnId ≠ c.request.txnId := by
      rw [found.mine]
      exact inv.single isTable found (.inl member)
    have grantedA := (early a member apart
      (overlap_table inv isTable (old a (.inl member)) _)).1
    exact ⟨fun _ => .inl grantedA, fun _ => grantedA⟩
  · exact fun _ b _ => ⟨fun _ => .inl rfl, fun _ => rfl⟩
  · intro _ u other
    rw [resetUpgrading_eq_some]
    exact and_iff_left other
  · intro isTable
    constructor
    · intro _ _ _ _ upgrading
      exact absurd rfl (resetUpgrading_eq_some.mp upgrading).2
    · intro b member other _ upgrading
      have upgrades := (resetUpgrading_eq_some.mp upgrading).1
      -- The upgrading request is granted before the cursor and pending nowhere behind it.
      have grantedB : b.granted = true := by
        have apart : b.txnId ≠ c.request.txnId := fun same => other (same.trans found.mine)
        rw [found.split] at member
        rcases mem_append.mp member with isEarly | rest
        · exact (early b isEarly apart
            (overlap_table inv isTable (old b (.inl isEarly)) _)).1
        · rcases mem_cons.mp rest with rfl | isLate
          · exact absurd rfl apart
          · have chain := parts isTable
            rw [found.split] at chain
            have later := (pairwise_cons.mp (pairwise_append.mp chain).2.1).1 b isLate
            rw [(later apart.symm).2 upgrades] at ungranted
            cases ungranted
      exact (not_x_of_compatible (compatibleWith b member grantedB other
        (overlap_table inv isTable member _))).1

theorem Change.inv (change : Change q released aborted queue queue') (inv : QueueInv q queue) :
    QueueInv q queue' := by
  cases change with
  | push t mode range absent fits => exact inv.push absent fits
  | mark t range c mode found ungranted =>
    have inRequests := (mem_of_cursor found).1
    have parts (isTable : q.isTable = true) := inv.ordered isTable
    rw [found.split] at parts
    have no {P : Prop} (granted : c.request.granted = true) : P := by
      rw [ungranted] at granted
      cases granted
    refine inv.replace found (r := { c.request with mode := mode }) rfl rfl no ?_ ?_
      (fun _ _ _ => Iff.rfl) ?_
    · intro isTable a member
      have known := (pairwise_append.mp (parts isTable)).2.2 a member c.request
        List.mem_cons_self fun same =>
          inv.single isTable found (.inl member) (same.trans found.mine)
      exact ⟨no, fun upgrading => known.2 (by rw [found.mine]; exact upgrading)⟩
    · intro isTable b member
      have known := (pairwise_cons.mp (pairwise_append.mp (parts isTable)).2.1).1 b
        member fun same =>
          inv.single isTable found (.inr member) (same.symm.trans found.mine)
      rw [← found.mine]
      exact known
    · intro isTable
      refine ⟨?_, fun _ _ _ granted => no granted⟩
      intro a member other granted upgrading
      exact inv.exclusive isTable a member c.request inRequests
        (fun same => other (same.trans found.mine)) granted (by rw [found.mine]; exact upgrading)
  | upgrade t range c mode found granted _ free => exact inv.upgradeRequest found granted free
  | grant t range c found ungranted grantable => exact inv.grantRequest found ungranted grantable
  | erase t range c found ungranted _ =>
    refine inv.shrink ?_ ?_ ?_
    · rw [found.split]
      exact List.Sublist.append_left (List.sublist_cons_self _ _) _
    · intro r member other
      rw [found.split] at member
      rcases mem_append.mp member with early | rest
      · exact List.mem_append_left _ early
      · rcases mem_cons.mp rest with rfl | late
        · exact absurd found.mine other
        · exact List.mem_append_right _ late
    · intro isTable r member mine
      exact absurd mine (inv.single isTable found (mem_append.mp member))
  | drop t _ =>
    refine inv.shrink List.filter_sublist ?_ ?_
    · intro r member other
      exact mem_filter.mpr ⟨member, by simp [other]⟩
    · intro _ r member mine
      simpa [mine] using (mem_filter.mp member).2
  | release t _ =>
    refine inv.shrink List.filter_sublist ?_ ?_
    · intro r member other
      exact mem_filter.mpr ⟨member, by simpa using other⟩
    · intro _ r member mine
      have other := (mem_filter.mp member).2
      simp [mine] at other

end Changes

section Kept

variable {q : QueueId} {released aborted : Nat → Prop} {queue queue' : LockRequestQueue}

theorem Change.keeps_exclusive (change : Change q released aborted queue queue')
    {r : LockRequest} (member : r ∈ queue.requests) (granted : r.granted = true)
    (exclusive : r.mode = .x) (kept : ¬released r.txnId) : r ∈ queue'.requests := by
  have others {t : Nat} {range : Option KeyRange} {c : Cursor}
      (found : Found t range queue.requests c) (notRequest : r ≠ c.request) :
      r ∈ c.before ∨ r ∈ c.after := by
    rw [found.split] at member
    rcases mem_append.mp member with early | rest
    · exact .inl early
    · rcases mem_cons.mp rest with same | late
      · exact absurd same notRequest
      · exact .inr late
  have notUngranted {c : Cursor} (ungranted : c.request.granted = false) : r ≠ c.request := by
    rintro rfl
    rw [granted] at ungranted
    cases ungranted
  have inPut {c : Cursor} {r' : LockRequest} (other : r ∈ c.before ∨ r ∈ c.after) :
      r ∈ c.put r' := by
    rcases other with early | late
    · exact mem_put.mpr (.inl early)
    · exact mem_put.mpr (.inr (.inr late))
  cases change with
  | push t mode range absent fits => exact List.mem_append_left _ member
  | mark t range c mode found ungranted => exact inPut (others found (notUngranted ungranted))
  | upgrade t range c mode found _ weak free =>
    refine inPut (others found ?_)
    rintro rfl
    exact weak exclusive
  | grant t range c found ungranted _ => exact inPut (others found (notUngranted ungranted))
  | erase t range c found ungranted _ =>
    exact mem_append.mpr (others found (notUngranted ungranted))
  | drop t _ => exact mem_filter.mpr ⟨member, by simp [granted]⟩
  | release t ended =>
    refine mem_filter.mpr ⟨member, ?_⟩
    simp only [bne_iff_ne, ne_eq]
    rintro rfl
    exact kept ended

/-- A transaction has a granted request in the queue, or one that waits for its upgrade. -/
def Foothold (queue : LockRequestQueue) (t : Nat) : Prop :=
  ∃ r ∈ queue.requests, r.txnId = t ∧ (r.granted = true ∨ queue.upgradingTxn = some t)

theorem Change.keeps_foothold (change : Change q released aborted queue queue') {t : Nat}
    (foothold : Foothold queue t) (kept : ¬released t) (running : ¬aborted t) :
    Foothold queue' t := by
  obtain ⟨r, member, mine, place⟩ := foothold
  have inPut {u : Nat} {range : Option KeyRange} {c : Cursor} {r' : LockRequest} {up : Option Nat}
      (found : Found u range queue.requests c) (sameTxn : r'.txnId = c.request.txnId)
      (held : r = c.request → r'.granted = true ∨ up = some t)
      (upgrading : queue.upgradingTxn = some t → r'.granted = true ∧ t = u ∨ up = some t) :
      Foothold ⟨c.put r', up⟩ t := by
    by_cases same : r = c.request
    · exact ⟨r', mem_put.mpr (.inr (.inl rfl)), sameTxn.trans (same ▸ mine), held same⟩
    · have split := member
      rw [found.split] at split
      have inRest : r ∈ c.put r' := by
        rcases mem_append.mp split with early | rest
        · exact mem_put.mpr (.inl early)
        · rcases mem_cons.mp rest with isRequest | late
          · exact absurd isRequest same
          · exact mem_put.mpr (.inr (.inr late))
      rcases place with granted | pending
      · exact ⟨r, inRest, mine, .inl granted⟩
      · rcases upgrading pending with ⟨granted, isU⟩ | pending'
        · exact ⟨r', mem_put.mpr (.inr (.inl rfl)), (sameTxn.trans found.mine).trans isU.symm,
            .inl granted⟩
        · exact ⟨r, inRest, mine, .inr pending'⟩
  cases change with
  | push u mode range absent fits => exact ⟨r, List.mem_append_left _ member, mine, place⟩
  | mark u range c mode found ungranted =>
    refine inPut found rfl ?_ .inr
    rintro rfl
    exact place
  | upgrade u range c mode found granted weak free =>
    refine inPut found rfl ?_ ?_
    · rintro rfl
      exact .inr (by rw [← mine, found.mine])
    · intro pending
      rw [free t pending]
      exact .inr rfl
  | grant u range c found ungranted _ =>
    refine inPut found rfl (fun _ => .inl rfl) ?_
    intro pending
    by_cases isU : t = u
    · exact .inl ⟨rfl, isU⟩
    · exact .inr (resetUpgrading_eq_some.mpr ⟨pending, isU⟩)
  | erase u range c found ungranted ended =>
    have apart : t ≠ u := by
      rintro rfl
      exact running ended
    have notRequest : r ≠ c.request := by
      rintro rfl
      exact apart (mine.symm.trans found.mine)
    rw [found.split] at member
    refine ⟨r, mem_append.mpr ?_, mine, ?_⟩
    · rcases mem_append.mp member with early | rest
      · exact .inl early
      · rcases mem_cons.mp rest with isRequest | late
        · exact absurd isRequest notRequest
        · exact .inr late
    · exact place.imp id fun pending => resetUpgrading_eq_some.mpr ⟨pending, apart⟩
  | drop u ended =>
    have apart : t ≠ u := by
      rintro rfl
      exact running ended
    refine ⟨r, mem_filter.mpr ⟨member, by simp [mine, apart]⟩, mine, ?_⟩
    exact place.imp id fun pending => resetUpgrading_eq_some.mpr ⟨pending, apart⟩
  | release u ended =>
    have apart : t ≠ u := by
      rintro rfl
      exact kept ended
    refine ⟨r, mem_filter.mpr ⟨member, by simp [mine, apart]⟩, mine, ?_⟩
    exact place.imp id fun pending => resetUpgrading_eq_some.mpr ⟨pending, apart⟩

theorem QueueInv.not_exclusive (inv : QueueInv q queue) (isTable : q.isTable = true) {t : Nat}
    (foothold : Foothold queue t) {r : LockRequest} (member : r ∈ queue.requests)
    (granted : r.granted = true) (other : r.txnId ≠ t) : r.mode ≠ .x := by
  obtain ⟨own, inQueue, mine, place⟩ := foothold
  have apart : r.txnId ≠ own.txnId := fun same => other (same.trans mine)
  rcases place with grantedOwn | pending
  · have fits := inv.apart r member own inQueue granted grantedOwn apart
      (overlap_table inv isTable member _)
    exact (not_x_of_compatible fits).1
  · exact inv.exclusive isTable r member own inQueue apart granted (by rw [mine]; exact pending)

end Kept

end GraniteDb.Concurrency.QueueChanges
