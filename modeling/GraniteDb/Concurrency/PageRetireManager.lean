/- Epochs, retired pages, and when the reclaim callback of a retired page may run. -/

import GraniteDb.Common.Types
import GraniteDb.Lib.GuardedRun
import Mathlib.Data.List.Induction
import Mathlib.Data.List.Nodup

set_option linter.dupNamespace false

namespace GraniteDb.Concurrency.PageRetireManager

open Common.Types Lib.GuardedRun
open List (mem_cons mem_map append_inj' mem_singleton map_append mem_append)

/-- A `RetiredPageEntry`. The ticket numbers the calls of `RetirePage`: it stands for the
callback that was handed over with the page. -/
structure RetiredPageEntry where
  pageId : PageId
  retireEpoch : Nat
  ticket : Nat
  deriving DecidableEq

/-- What happens: a guard's `EnterEpoch` is through, its `ExitEpoch` has taken it out, a page is
retired, a retirement's callback is called and answers. -/
inductive Event
  | entered (guard : Nat)
  | exited (guard : Nat)
  | retired (ticket : Nat) (page : PageId)
  | called (ticket : Nat) (answer : Bool)
  deriving DecidableEq

/-- `active_epochs_`: how many guards are registered under an epoch. -/
abbrev ActiveEpochs := List (Nat × Nat)

/-- `active_epochs_[epoch]++`. -/
def increment (epoch : Nat) : ActiveEpochs → ActiveEpochs
  | [] => [(epoch, 1)]
  | (e, n) :: rest => if e = epoch then (e, n + 1) :: rest else (e, n) :: increment epoch rest

/-- The count of an epoch goes down; at one or less its entry is erased. -/
def decrement (epoch : Nat) : ActiveEpochs → ActiveEpochs
  | [] => []
  | (e, n) :: rest =>
    if e = epoch then (if n ≤ 1 then rest else (e, n - 1) :: rest)
    else (e, n) :: decrement epoch rest

def minEpoch : ActiveEpochs → Option Nat
  | [] => none
  | (e, _) :: rest => some ((minEpoch rest).elim e (min e))

/-- A `PageRetireManager`. The epochs are 64-bit counters in the source; one call of
`RetirePage` or `Drain` moves the global epoch by one. -/
structure PageRetireManager where
  globalEpoch : Nat
  activeEpochs : ActiveEpochs
  retiredPages : List RetiredPageEntry
  deriving DecidableEq

def PageRetireManager.computeSafeEpochLocked (m : PageRetireManager) : Nat :=
  match minEpoch m.activeEpochs with
  | none => m.globalEpoch
  | some epoch => if epoch = 0 then 0 else epoch - 1

/-- The loop of `TryReclaimLocked`: the entries that stay, and the callbacks it runs. The
callbacks answer as they like; those of the callers never throw. -/
def reclaimLoop (safeEpoch : Nat) (answers : Nat → Bool) :
    List RetiredPageEntry → List RetiredPageEntry × List Event
  | [] => ([], [])
  | entry :: rest =>
    let (pending, events) := reclaimLoop safeEpoch answers rest
    if safeEpoch < entry.retireEpoch then (entry :: pending, events)
    else if answers entry.ticket then (pending, .called entry.ticket true :: events)
    else (entry :: pending, .called entry.ticket false :: events)

def PageRetireManager.tryReclaimLocked (m : PageRetireManager) (answers : Nat → Bool) :
    PageRetireManager × List Event :=
  let (pending, events) := reclaimLoop m.computeSafeEpochLocked answers m.retiredPages
  ({ m with retiredPages := pending }, events)

/-- The manager with its callers: guards that have loaded the epoch and not yet registered
it, guards that are registered, and the events so far. -/
structure RetireState where
  manager : PageRetireManager
  loading : List (Nat × Nat)
  active : List (Nat × Nat)
  guards : Nat
  tickets : Nat
  log : List Event
  deriving DecidableEq

def RetireState.start : RetireState where
  manager := ⟨1, [], []⟩
  loading := []
  active := []
  guards := 0
  tickets := 0
  log := []

/-- The steps of the calls. `EnterEpoch` is two: the load of the global epoch and, under the latch,
the registration. Each other names the answers of the callbacks it may run. -/
inductive Label
  | load
  | register (guard : Nat)
  | exitEpoch (guard : Nat) (answers : Nat → Bool)
  | retirePage (page : PageId) (answers : Nat → Bool)
  | drain (answers : Nat → Bool)

/-- `ExitEpoch` before its `TryReclaimLocked`. -/
def RetireState.leave (s : RetireState) (guard epoch : Nat) : RetireState :=
  { s with
    manager := { s.manager with activeEpochs := decrement epoch s.manager.activeEpochs }
    active := s.active.erase (guard, epoch)
    log := s.log ++ [.exited guard] }

/-- `RetirePage` before its `TryReclaimLocked`. -/
def RetireState.retire (s : RetireState) (page : PageId) : RetireState :=
  let retireEpoch := s.manager.globalEpoch + 1
  { s with
    manager := { s.manager with
      globalEpoch := retireEpoch
      retiredPages := s.manager.retiredPages ++ [⟨page, retireEpoch, s.tickets⟩] }
    tickets := s.tickets + 1
    log := s.log ++ [.retired s.tickets page] }

/-- `Drain` before its `TryReclaimLocked`. -/
def RetireState.advance (s : RetireState) : RetireState :=
  { s with manager := { s.manager with globalEpoch := s.manager.globalEpoch + 1 } }

/-- `TryReclaimLocked` at the end of a latched section. -/
def RetireState.reclaim (s : RetireState) (answers : Nat → Bool) : RetireState :=
  let (manager, calls) := s.manager.tryReclaimLocked answers
  { s with manager := manager, log := s.log ++ calls }

def step (s : RetireState) : Label → Option RetireState
  | .load =>
    some { s with
      loading := (s.guards, s.manager.globalEpoch) :: s.loading, guards := s.guards + 1 }
  | .register guard =>
    (s.loading.lookup guard).map fun epoch =>
      { s with
        manager := { s.manager with activeEpochs := increment epoch s.manager.activeEpochs }
        loading := s.loading.filter (·.1 ≠ guard)
        active := (guard, epoch) :: s.active
        log := s.log ++ [.entered guard] }
  | .exitEpoch guard answers =>
    (s.active.lookup guard).map fun epoch => (s.leave guard epoch).reclaim answers
  | .retirePage page answers => some ((s.retire page).reclaim answers)
  | .drain answers => some (s.advance.reclaim answers)

/-- The guard's `EnterEpoch` was through before the call of `RetirePage`. -/
def EnteredBefore (log : List Event) (guard ticket : Nat) : Prop :=
  ∃ before after page, log = before ++ .retired ticket page :: after ∧ .entered guard ∈ before

/-- The callback of a retirement runs only when every guard that was in before it is out, and
not again once it has answered true. -/
structure ReclaimsSafely (log : List Event) : Prop where
  afterExit : ∀ ticket answer before after, log = before ++ .called ticket answer :: after →
    ∀ guard, EnteredBefore before guard ticket → .exited guard ∈ before
  once : ∀ ticket before after, log = before ++ .called ticket true :: after →
    ∀ answer, .called ticket answer ∉ after

section Epochs

def tally (epoch : Nat) : ActiveEpochs → Nat
  | [] => 0
  | (e, n) :: rest => (if e = epoch then n else 0) + tally epoch rest

private theorem tally_increment (epoch other : Nat) (m : ActiveEpochs) :
    tally other (increment epoch m) = tally other m + if other = epoch then 1 else 0 := by
  induction m with
  | nil => simp [increment, tally, eq_comm]
  | cons p rest ih =>
    obtain ⟨e, n⟩ := p
    by_cases here : e = epoch
    · subst here
      simp only [increment, if_true, tally]
      by_cases same : e = other
      · simp [same]
        omega
      · simp [same, Ne.symm same]
    · simp only [increment, here, if_false, tally, ih]
      omega

variable {m : ActiveEpochs} {epoch : Nat}

section

variable (positive : ∀ p ∈ m, 1 ≤ p.2)

include positive

private theorem tally_decrement (epoch other : Nat) :
    tally other (decrement epoch m) = tally other m - if other = epoch then 1 else 0 := by
  induction m with
  | nil => simp [decrement, tally]
  | cons p rest ih =>
    obtain ⟨e, n⟩ := p
    have count : 1 ≤ n := positive (e, n) (by simp)
    have tail := ih fun p member => positive p (by simp [member])
    by_cases here : e = epoch
    · subst here
      by_cases last : n ≤ 1
      · have one : n = 1 := by omega
        subst one
        by_cases same : e = other
        · simp [decrement, tally, same]
        · simp [decrement, tally, same, Ne.symm same]
      · by_cases same : e = other
        · simp [decrement, last, tally, same]
          omega
        · simp [decrement, last, tally, same, Ne.symm same]
    · by_cases same : e = other
      · subst same
        simp [decrement, here, tally, tail]
      · simp [decrement, here, tally, tail, same]

private theorem positive_increment (epoch : Nat) :
    ∀ p ∈ increment epoch m, 1 ≤ p.2 := by
  induction m with
  | nil => simp [increment]
  | cons q rest ih =>
    obtain ⟨e, n⟩ := q
    have tail := ih fun p member => positive p (by simp [member])
    intro p member
    unfold increment at member
    split at member
    · rcases mem_cons.mp member with rfl | member
      · exact Nat.le_add_left 1 n
      · exact positive p (by simp [member])
    · rcases mem_cons.mp member with rfl | member
      · exact positive _ (by simp)
      · exact tail p member

private theorem positive_decrement (epoch : Nat) :
    ∀ p ∈ decrement epoch m, 1 ≤ p.2 := by
  induction m with
  | nil => simp [decrement]
  | cons q rest ih =>
    obtain ⟨e, n⟩ := q
    have tail := ih fun p member => positive p (by simp [member])
    intro p member
    unfold decrement at member
    split at member
    · split at member
      · exact positive p (by simp [member])
      · rcases mem_cons.mp member with rfl | member
        · change 1 ≤ n - 1
          omega
        · exact positive p (by simp [member])
    · rcases mem_cons.mp member with rfl | member
      · exact positive _ (by simp)
      · exact tail p member

end

private theorem mem_of_tally (counted : 0 < tally epoch m) : ∃ n, (epoch, n) ∈ m := by
  induction m with
  | nil => simp [tally] at counted
  | cons p rest ih =>
    obtain ⟨e, n⟩ := p
    by_cases here : e = epoch
    · exact ⟨n, by simp [here]⟩
    · obtain ⟨n', member⟩ := ih (by simpa [tally, here] using counted)
      exact ⟨n', by simp [member]⟩

private theorem minEpoch_le {n : Nat} (member : (epoch, n) ∈ m) :
    ∃ least ≤ epoch, minEpoch m = some least := by
  induction m with
  | nil => simp at member
  | cons p rest ih =>
    obtain ⟨e, n'⟩ := p
    rcases mem_cons.mp member with same | member
    · cases same
      cases rest' : minEpoch rest with
      | none => exact ⟨epoch, le_rfl, by simp [minEpoch, rest']⟩
      | some least =>
        exact ⟨min epoch least, min_le_left _ _, by simp [minEpoch, rest']⟩
    · obtain ⟨least, below, found⟩ := ih member
      exact ⟨min e least, by omega, by simp [minEpoch, found]⟩

private theorem retired_before {m : PageRetireManager} {n retireEpoch : Nat}
    (registered : (epoch, n) ∈ m.activeEpochs) (positive : 1 ≤ retireEpoch)
    (safe : retireEpoch ≤ m.computeSafeEpochLocked) : retireEpoch < epoch := by
  obtain ⟨least, below, found⟩ := minEpoch_le registered
  unfold PageRetireManager.computeSafeEpochLocked at safe
  rw [found] at safe
  dsimp only at safe
  split at safe <;> omega

end Epochs

section Invariant

private theorem mem_reclaimLoop_pending {safeEpoch : Nat} {answers : Nat → Bool}
    {entries : List RetiredPageEntry} {entry : RetiredPageEntry}
    (member : entry ∈ (reclaimLoop safeEpoch answers entries).1) :
    entry ∈ entries ∧ (entry.retireEpoch ≤ safeEpoch → answers entry.ticket = false) := by
  induction entries with
  | nil => simp [reclaimLoop] at member
  | cons first rest ih =>
    unfold reclaimLoop at member
    dsimp only at member
    split at member
    · rename_i late
      rcases mem_cons.mp member with rfl | later
      · exact ⟨by simp, fun safe => by omega⟩
      · exact ⟨by simp [(ih later).1], (ih later).2⟩
    · split at member
      · exact ⟨by simp [(ih member).1], (ih member).2⟩
      · rename_i refused
        rcases mem_cons.mp member with rfl | later
        · exact ⟨by simp, fun _ => by simpa using refused⟩
        · exact ⟨by simp [(ih later).1], (ih later).2⟩

private theorem reclaimLoop_sublist (safeEpoch : Nat) (answers : Nat → Bool)
    (entries : List RetiredPageEntry) :
    (reclaimLoop safeEpoch answers entries).1.Sublist entries := by
  induction entries with
  | nil => exact List.Sublist.refl _
  | cons first rest ih =>
    unfold reclaimLoop
    dsimp only
    split
    · exact ih.cons_cons first
    · split
      · exact ih.cons first
      · exact ih.cons_cons first

private theorem reclaimLoop_events (safeEpoch : Nat) (answers : Nat → Bool)
    (entries : List RetiredPageEntry) :
    (reclaimLoop safeEpoch answers entries).2 =
      (entries.filter fun entry => entry.retireEpoch ≤ safeEpoch).map fun entry =>
        .called entry.ticket (answers entry.ticket) := by
  induction entries with
  | nil => rfl
  | cons first rest ih =>
    unfold reclaimLoop
    dsimp only
    split
    · rename_i late
      rw [ih, List.filter_cons_of_neg (by simpa using late)]
    · rename_i due
      rw [List.filter_cons_of_pos (by simpa using due), List.map_cons, ← ih]
      split
      · rename_i accepted
        rw [accepted]
      · rename_i refused
        rw [Bool.not_eq_true] at refused
        rw [refused]

variable {event : Event} {guard : Nat} {log : List Event} {s : RetireState}

private theorem enteredBefore_append {ticket : Nat}
    (entered : EnteredBefore (log ++ [event]) guard ticket) :
    EnteredBefore log guard ticket ∨
      (∃ page, event = .retired ticket page) ∧ .entered guard ∈ log := by
  obtain ⟨before, after, page, split, member⟩ := entered
  rcases List.eq_nil_or_concat after with rfl | ⟨after', last, rfl⟩
  · obtain ⟨rfl, same⟩ := append_inj' split rfl
    exact .inr ⟨⟨page, by simpa using same⟩, member⟩
  · have shorter : log ++ [event] = (before ++ .retired ticket page :: after') ++ [last] := by
      simpa using split
    obtain ⟨rfl, -⟩ := append_inj' shorter rfl
    exact .inl ⟨before, after', page, rfl, member⟩

private theorem enteredBefore_calls {calls : List Event} {ticket : Nat}
    (called : ∀ event ∈ calls, ∃ k answer, event = .called k answer)
    (entered : EnteredBefore (log ++ calls) guard ticket) : EnteredBefore log guard ticket := by
  induction calls using List.reverseRecOn with
  | nil => simpa using entered
  | append_singleton calls event ih =>
    rw [← List.append_assoc] at entered
    rcases enteredBefore_append entered with earlier | ⟨⟨page, retired⟩, -⟩
    · exact ih (fun e member => called e (by simp [member])) earlier
    · obtain ⟨k, answer, call⟩ := called event (by simp)
      rw [call] at retired
      cases retired

private theorem ReclaimsSafely.snoc (safely : ReclaimsSafely log)
    (allowed : ∀ ticket answer, event = .called ticket answer → (∀ guard, EnteredBefore log guard
      ticket → .exited guard ∈ log) ∧ .called ticket true ∉ log) :
    ReclaimsSafely (log ++ [event]) where
  afterExit ticket answer before after split guard entered := by
    rcases List.eq_nil_or_concat after with rfl | ⟨after', last, rfl⟩
    · obtain ⟨rfl, same⟩ := append_inj' split rfl
      have call : event = .called ticket answer := by simpa using same
      exact (allowed ticket answer call).1 guard entered
    · have shorter : log ++ [event] = (before ++ .called ticket answer :: after') ++ [last] := by
        simpa using split
      obtain ⟨rfl, -⟩ := append_inj' shorter rfl
      exact safely.afterExit ticket answer before after' rfl guard entered
  once ticket before after split answer member := by
    rcases List.eq_nil_or_concat after with rfl | ⟨after', last, rfl⟩
    · simp at member
    · have shorter : log ++ [event] = (before ++ .called ticket true :: after') ++ [last] := by
        simpa using split
      obtain ⟨rfl, same⟩ := append_inj' shorter rfl
      have last_event : event = last := by simpa using same
      rw [List.concat_eq_append, mem_append, mem_singleton] at member
      rcases member with earlier | rfl
      · exact safely.once ticket before after' rfl answer earlier
      · exact (allowed ticket answer last_event).2 (by simp)

private theorem ReclaimsSafely.other (safely : ReclaimsSafely log)
    (other : ∀ ticket answer, event ≠ .called ticket answer) :
    ReclaimsSafely (log ++ [event]) :=
  safely.snoc fun ticket answer call => absurd call (other ticket answer)

private theorem ReclaimsSafely.calls {due : List RetiredPageEntry} (answers : Nat → Bool)
    (safely : ReclaimsSafely log) (distinct : (due.map (·.ticket)).Nodup)
    (exits : ∀ entry ∈ due, ∀ guard, EnteredBefore log guard entry.ticket → .exited guard ∈ log)
    (pending : ∀ entry ∈ due, .called entry.ticket true ∉ log) :
    ReclaimsSafely (log ++ due.map fun entry => .called entry.ticket (answers entry.ticket)) := by
  induction due using List.reverseRecOn with
  | nil => simpa using safely
  | append_singleton due entry ih =>
    rw [map_append, List.nodup_append] at distinct
    obtain ⟨distinct, -, apart⟩ := distinct
    rw [map_append, ← List.append_assoc]
    apply ReclaimsSafely.snoc
    · exact ih distinct (fun e member => exits e (by simp [member]))
        fun e member => pending e (by simp [member])
    · rintro ticket answer call
      obtain ⟨rfl, -⟩ : entry.ticket = ticket ∧ answers entry.ticket = answer := by
        simpa using call
      constructor
      · intro guard entered
        have earlier : EnteredBefore log guard entry.ticket := by
          apply enteredBefore_calls _ entered
          intro event member
          obtain ⟨e, -, rfl⟩ := mem_map.mp member
          exact ⟨_, _, rfl⟩
        have out := exits entry (by simp) guard earlier
        exact List.mem_append_left _ out
      · intro member
        rcases mem_append.mp member with before | inside
        · exact pending entry (by simp) before
        · obtain ⟨e, listed, same⟩ := mem_map.mp inside
          have ticket : e.ticket = entry.ticket := by
            injection same
          exact apart e.ticket (List.mem_map_of_mem listed) entry.ticket (by simp) ticket

/-- Between the sections every guard that is in is registered under an epoch the global epoch has
reached; a page retired after its entry has a later retire epoch. -/
structure Inv (s : RetireState) : Prop where
  counted : ∀ epoch, tally epoch s.manager.activeEpochs = s.active.countP (·.2 = epoch)
  positive : ∀ p ∈ s.manager.activeEpochs, 1 ≤ p.2
  loaded : ∀ p ∈ s.loading, p.2 ≤ s.manager.globalEpoch
  inside : ∀ guard, .entered guard ∈ s.log → .exited guard ∉ s.log →
    ∃ epoch ≤ s.manager.globalEpoch, (guard, epoch) ∈ s.active
  older : ∀ entry ∈ s.manager.retiredPages, ∀ guard, EnteredBefore s.log guard entry.ticket →
    .exited guard ∉ s.log → ∃ epoch < entry.retireEpoch, (guard, epoch) ∈ s.active
  epochs : ∀ entry ∈ s.manager.retiredPages, 1 ≤ entry.retireEpoch
  distinct : (s.manager.retiredPages.map (·.ticket)).Nodup
  issued : ∀ entry ∈ s.manager.retiredPages, entry.ticket < s.tickets
  fresh : ∀ ticket page, .retired ticket page ∈ s.log → ticket < s.tickets
  answered : ∀ ticket answer, .called ticket answer ∈ s.log → ticket < s.tickets
  pending : ∀ entry ∈ s.manager.retiredPages, .called entry.ticket true ∉ s.log
  safely : ReclaimsSafely s.log

private theorem Inv.start : Inv .start where
  counted epoch := rfl
  positive p member := by simp [RetireState.start] at member
  loaded p member := by simp [RetireState.start] at member
  inside guard member := by simp [RetireState.start] at member
  older entry member := by simp [RetireState.start] at member
  epochs entry member := by simp [RetireState.start] at member
  distinct := List.nodup_nil
  issued entry member := by simp [RetireState.start] at member
  fresh ticket page member := by simp [RetireState.start] at member
  answered ticket answer member := by simp [RetireState.start] at member
  pending entry member := by simp [RetireState.start] at member
  safely := {
    afterExit := by intro ticket answer before after split; simp [RetireState.start] at split
    once := by intro ticket before after split; simp [RetireState.start] at split }

section

variable (inv : Inv s)

include inv

/-- A due entry's guards are all out: one that is still in would be registered under an epoch
below the retire epoch, and the safe epoch would be below that. -/
private theorem Inv.exits {entry : RetiredPageEntry}
    (member : entry ∈ s.manager.retiredPages)
    (due : entry.retireEpoch ≤ s.manager.computeSafeEpochLocked) (guard : Nat)
    (entered : EnteredBefore s.log guard entry.ticket) : .exited guard ∈ s.log := by
  by_contra still
  obtain ⟨epoch, before, active⟩ := inv.older entry member guard entered still
  have counted : 0 < s.active.countP (·.2 = epoch) :=
    List.countP_pos_iff.mpr ⟨(guard, epoch), active, by simp⟩
  rw [← inv.counted epoch] at counted
  obtain ⟨n, registered⟩ := mem_of_tally counted
  have after := retired_before registered (inv.epochs entry member) due
  omega

private theorem Inv.reclaim (answers : Nat → Bool) : Inv (s.reclaim answers) := by
  have kept : ∀ entry, entry ∈ (reclaimLoop s.manager.computeSafeEpochLocked answers
      s.manager.retiredPages).1 → entry ∈ s.manager.retiredPages ∧
        (entry.retireEpoch ≤ s.manager.computeSafeEpochLocked → answers entry.ticket = false) :=
    fun entry member => mem_reclaimLoop_pending member
  have sublist := reclaimLoop_sublist s.manager.computeSafeEpochLocked answers
    s.manager.retiredPages
  have log : (s.reclaim answers).log = s.log ++ (s.manager.retiredPages.filter fun entry =>
      entry.retireEpoch ≤ s.manager.computeSafeEpochLocked).map fun entry =>
        .called entry.ticket (answers entry.ticket) := by
    rw [← reclaimLoop_events]
    rfl
  have onlyCalls : ∀ event, event ∈ (s.reclaim answers).log → event ∈ s.log ∨
      ∃ entry ∈ s.manager.retiredPages,
        entry.retireEpoch ≤ s.manager.computeSafeEpochLocked ∧
          event = .called entry.ticket (answers entry.ticket) := by
    intro event member
    rw [log, mem_append] at member
    rcases member with old | new
    · exact .inl old
    · obtain ⟨entry, listed, rfl⟩ := mem_map.mp new
      have due := List.mem_filter.mp listed
      exact .inr ⟨entry, due.1, by simpa using due.2, rfl⟩
  have oldEvents : ∀ event, event ∈ s.log → event ∈ (s.reclaim answers).log := by
    intro event member
    rw [log]
    exact List.mem_append_left _ member
  constructor
  · exact inv.counted
  · exact inv.positive
  · exact inv.loaded
  · intro guard entered still
    rcases onlyCalls _ entered with old | ⟨_, _, _, call⟩
    · exact inv.inside guard old fun out => still (oldEvents _ out)
    · cases call
  · intro entry member guard entered still
    have before : EnteredBefore s.log guard entry.ticket := by
      rw [log] at entered
      apply enteredBefore_calls _ entered
      intro event called
      obtain ⟨e, -, rfl⟩ := mem_map.mp called
      exact ⟨_, _, rfl⟩
    exact inv.older entry (kept entry member).1 guard before fun out => still (oldEvents _ out)
  · exact fun entry member => inv.epochs entry (kept entry member).1
  · exact inv.distinct.sublist (sublist.map _)
  · exact fun entry member => inv.issued entry (kept entry member).1
  · intro ticket page member
    rcases onlyCalls _ member with old | ⟨_, _, _, call⟩
    · exact inv.fresh ticket page old
    · cases call
  · intro ticket answer member
    rcases onlyCalls _ member with old | ⟨entry, listed, _, call⟩
    · exact inv.answered ticket answer old
    · injection call with same
      rw [same]
      exact inv.issued entry listed
  · intro entry member called
    rcases onlyCalls _ called with old | ⟨other, listed, due, call⟩
    · exact inv.pending entry (kept entry member).1 old
    · injection call with same accepted
      have one : entry = other :=
        List.inj_on_of_nodup_map inv.distinct (kept entry member).1 listed same
      subst one
      rw [(kept entry member).2 due] at accepted
      cases accepted
  · rw [log]
    apply inv.safely.calls answers
    · exact inv.distinct.sublist (List.filter_sublist.map _)
    · intro entry listed
      have due := List.mem_filter.mp listed
      exact inv.exits due.1 (by simpa using due.2)
    · intro entry listed
      exact inv.pending entry (List.mem_filter.mp listed).1

private theorem Inv.load :
    Inv { s with
      loading := (s.guards, s.manager.globalEpoch) :: s.loading, guards := s.guards + 1 } :=
  { inv with
    loaded := fun p member => by
      rcases mem_cons.mp member with rfl | old
      · exact le_rfl
      · exact inv.loaded p old }

private theorem Inv.register {epoch : Nat} (loaded : (guard, epoch) ∈ s.loading) :
    Inv { s with
      manager := { s.manager with activeEpochs := increment epoch s.manager.activeEpochs }
      loading := s.loading.filter (·.1 ≠ guard)
      active := (guard, epoch) :: s.active
      log := s.log ++ [.entered guard] } where
  counted other := by
    have counts := inv.counted other
    rw [tally_increment, counts, List.countP_cons]
    by_cases same : epoch = other <;> simp [same, eq_comm]
  positive := positive_increment inv.positive epoch
  loaded p member := inv.loaded p (List.mem_of_mem_filter member)
  inside other entered still := by
    rcases mem_append.mp entered with old | new
    · obtain ⟨e, bound, active⟩ := inv.inside other old fun out => still (by simp [out])
      exact ⟨e, bound, List.mem_cons_of_mem _ active⟩
    · have same : other = guard := by simpa using new
      subst same
      exact ⟨epoch, inv.loaded _ loaded, List.mem_cons_self⟩
  older entry member other entered still := by
    rcases enteredBefore_append entered with before | ⟨⟨page, retired⟩, -⟩
    · obtain ⟨e, bound, active⟩ := inv.older entry member other before
        fun out => still (by simp [out])
      exact ⟨e, bound, List.mem_cons_of_mem _ active⟩
    · cases retired
  epochs := inv.epochs
  distinct := inv.distinct
  issued := inv.issued
  fresh ticket page member := inv.fresh ticket page (by simpa using member)
  answered ticket answer member := inv.answered ticket answer (by simpa using member)
  pending entry member called := inv.pending entry member (by simpa using called)
  safely := inv.safely.other (by simp)

private theorem Inv.leave {epoch : Nat} (active : (guard, epoch) ∈ s.active) :
    Inv (s.leave guard epoch) where
  counted other := by
    have counts := inv.counted other
    have whole := (List.perm_cons_erase active).countP_eq (·.2 = other)
    rw [List.countP_cons] at whole
    simp only [RetireState.leave, tally_decrement inv.positive, counts]
    by_cases same : other = epoch
    · subst same
      simp only [decide_true, if_true] at whole ⊢
      omega
    · simp only [Ne.symm same, decide_false, Bool.false_eq_true, if_false, same] at whole ⊢
      omega
  positive := positive_decrement inv.positive epoch
  loaded := inv.loaded
  inside other entered still := by
    have old : .entered other ∈ s.log := by simpa [RetireState.leave] using entered
    have apart : .exited other ∉ s.log ∧ other ≠ guard := by
      simpa [RetireState.leave] using still
    obtain ⟨e, bound, member⟩ := inv.inside other old apart.1
    have stays : (other, e) ≠ (guard, epoch) := fun same => apart.2 (congrArg Prod.fst same)
    exact ⟨e, bound, (List.mem_erase_of_ne stays).mpr member⟩
  older entry member other entered still := by
    have apart : .exited other ∉ s.log ∧ other ≠ guard := by
      simpa [RetireState.leave] using still
    rcases enteredBefore_append entered with before | ⟨⟨page, retired⟩, -⟩
    · obtain ⟨e, bound, listed⟩ := inv.older entry member other before apart.1
      have stays : (other, e) ≠ (guard, epoch) := fun same => apart.2 (congrArg Prod.fst same)
      exact ⟨e, bound, (List.mem_erase_of_ne stays).mpr listed⟩
    · cases retired
  epochs := inv.epochs
  distinct := inv.distinct
  issued := inv.issued
  fresh ticket page member := inv.fresh ticket page (by simpa [RetireState.leave] using member)
  answered ticket answer member :=
    inv.answered ticket answer (by simpa [RetireState.leave] using member)
  pending entry member called :=
    inv.pending entry member (by simpa [RetireState.leave] using called)
  safely := inv.safely.other (by simp)

private theorem Inv.retire (page : PageId) :
    Inv (s.retire page) where
  counted := inv.counted
  positive := inv.positive
  loaded p member := le_trans (inv.loaded p member) (Nat.le_succ _)
  inside guard entered still := by
    obtain ⟨epoch, bound, active⟩ := inv.inside guard
      (by simpa [RetireState.retire] using entered) (by simpa [RetireState.retire] using still)
    exact ⟨epoch, le_trans bound (Nat.le_succ _), active⟩
  older entry member guard entered still := by
    have inLog : .exited guard ∉ s.log := by simpa [RetireState.retire] using still
    rcases mem_append.mp member with old | new
    · rcases enteredBefore_append entered with before | ⟨⟨p, retired⟩, -⟩
      · exact inv.older entry old guard before inLog
      · have issued := inv.issued entry old
        injection retired with same
        omega
    · obtain rfl := mem_singleton.mp new
      have came : .entered guard ∈ s.log := by
        rcases enteredBefore_append entered with before | ⟨-, came⟩
        · obtain ⟨front, back, p, split, -⟩ := before
          have bound := inv.fresh s.tickets p (by rw [split]; simp)
          omega
        · exact came
      obtain ⟨epoch, bound, active⟩ := inv.inside guard came inLog
      exact ⟨epoch, Nat.lt_succ_of_le bound, active⟩
  epochs entry member := by
    rcases mem_append.mp member with old | new
    · exact inv.epochs entry old
    · obtain rfl := mem_singleton.mp new
      exact Nat.le_add_left 1 _
  distinct := by
    simp only [RetireState.retire, map_append, List.map_cons, List.map_nil]
    apply List.nodup_append.mpr
    refine ⟨inv.distinct, List.nodup_singleton _, ?_⟩
    intro ticket listed other last
    obtain ⟨entry, member, rfl⟩ := mem_map.mp listed
    have issued := inv.issued entry member
    have same : other = s.tickets := by simpa using last
    omega
  issued entry member := by
    rcases mem_append.mp member with old | new
    · exact Nat.lt_succ_of_lt (inv.issued entry old)
    · obtain rfl := mem_singleton.mp new
      exact Nat.lt_succ_self _
  fresh ticket p member := by
    rcases mem_append.mp member with old | new
    · exact Nat.lt_succ_of_lt (inv.fresh ticket p old)
    · have same : ticket = s.tickets ∧ p = page := by simpa using new
      rw [same.1]
      exact Nat.lt_succ_self _
  answered ticket answer member := by
    have old := inv.answered ticket answer (by simpa [RetireState.retire] using member)
    exact Nat.lt_succ_of_lt old
  pending entry member called := by
    have inLog : .called entry.ticket true ∈ s.log := by
      simpa [RetireState.retire] using called
    rcases mem_append.mp member with old | new
    · exact inv.pending entry old inLog
    · obtain rfl := mem_singleton.mp new
      have bound := inv.answered _ _ inLog
      exact Nat.lt_irrefl _ bound
  safely := inv.safely.other (by simp)

private theorem Inv.advance : Inv s.advance :=
  { inv with
    loaded := fun p member => le_trans (inv.loaded p member) (Nat.le_succ _)
    inside := fun guard entered still => by
      obtain ⟨epoch, bound, active⟩ := inv.inside guard entered still
      exact ⟨epoch, le_trans bound (Nat.le_succ _), active⟩ }

end

private theorem mem_of_lookup {pairs : List (Nat × Nat)} {key value : Nat}
    (found : pairs.lookup key = some value) : (key, value) ∈ pairs := by
  obtain ⟨front, back, rfl, -⟩ := List.lookup_eq_some_iff.mp found
  simp

private theorem Inv.step {t : RetireState} {label : Label} (inv : Inv s)
    (taken : step s label = some t) : Inv t := by
  cases label with
  | load =>
    cases taken
    exact inv.load
  | register guard =>
    obtain ⟨epoch, found, rfl⟩ := Option.map_eq_some_iff.mp taken
    exact inv.register (mem_of_lookup found)
  | exitEpoch guard answers =>
    obtain ⟨epoch, found, rfl⟩ := Option.map_eq_some_iff.mp taken
    exact (inv.leave (mem_of_lookup found)).reclaim answers
  | retirePage page answers =>
    cases taken
    exact (inv.retire page).reclaim answers
  | drain answers =>
    cases taken
    exact inv.advance.reclaim answers

end Invariant

section Runs

variable {labels : List Label} {s : RetireState}

/-- A page is reclaimed only after the guards that were in before it was retired are out, and never
again once its callback has answered true. -/
theorem reclaimsSafely (run : Run step (fun _ _ => True) .start labels s) :
    ReclaimsSafely s.log :=
  (run.invariant Inv Inv.start fun _ _ _ inv _ taken => inv.step taken).safely

/-- Guard 0 is in before the page is retired, guard 1 loads the same epoch and registers it
after: the page is held until both have left, and reclaimed once. -/
def staleTrace : List Label :=
  [.load, .load, .register 0, .retirePage ⟨1, 5⟩ fun _ => true, .register 1,
    .exitEpoch 0 fun _ => true, .exitEpoch 1 fun _ => true, .drain fun _ => true]

theorem reclaimsSafely_staleTrace :
    ∃ s, Run step (fun _ _ => True) .start staleTrace s ∧ ReclaimsSafely s.log ∧
      s.log = [.entered 0, .retired 0 ⟨1, 5⟩, .entered 1, .exited 0, .exited 1, .called 0 true] :=
  have run : Run step (fun _ _ => True) .start staleTrace _ := run_of_exec rfl
  ⟨_, run, reclaimsSafely run, rfl⟩

end Runs

end GraniteDb.Concurrency.PageRetireManager
