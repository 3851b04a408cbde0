/- A transaction whose aborts do not overlap is rolled back once, and under its locks. -/

import GraniteDb.Concurrency.TransactionManager
import GraniteDb.Lib.GuardedRun

namespace GraniteDb.Concurrency.OneRollback

open Common.Types Recovery Recovery.WalRecords Recovery.RecordLog Concurrency.TransactionManager
open Lib.GuardedRun
open Concurrency.LockManager (LockState tryMarkAborting releaseAll)
open Function (update_self update_of_ne)
open Option (bind_eq_bind bind_eq_some_iff)

variable {β : Type} {base records : List (Rec β)} {t : Nat}

section Chain

/-- `lsn` is the LSN of a record that `t` has logged since the log was opened. -/
def Own (base records : List (Rec β)) (t lsn : Nat) : Prop :=
  ∃ r ∈ records, r.lsn = lsn ∧ r.txnId = t ∧ endLsn base ≤ lsn

/-- A record of `t` that is not its first points back to earlier records of `t`. -/
structure PointsBack (base records : List (Rec β)) (t : Nat) (r : Rec β) : Prop where
  prev : Own base records t r.prevLsn
  prev_lt : r.prevLsn < r.lsn
  undoNext : r.type = .clr → Own base records t r.undoNextLsn ∧ r.undoNextLsn < r.lsn

/-- The log extends `base`, and the records `t` has logged since form a chain. -/
structure Chained (base records : List (Rec β)) (t : Nat) : Prop where
  opened : base <+: records
  placed : Placed records
  chain : ∀ r ∈ records, r.txnId = t → endLsn base ≤ r.lsn → r.type ≠ .begin →
    PointsBack base records t r

variable {lsn : Nat}

theorem Own.append (own : Own base records t lsn) (rec : Rec β) :
    Own base (append records rec) t lsn := by
  obtain ⟨r, member, rest⟩ := own
  exact ⟨r, mem_append.mpr (.inl member), rest⟩

theorem Chained.lt_end (chained : Chained base records t) (own : Own base records t lsn) :
    lsn < endLsn records := by
  obtain ⟨r, member, rfl, _⟩ := own
  exact chained.placed.lsn_lt_end member

theorem endLsn_le_of_prefix {first second : List (Rec β)} (extends_ : first <+: second) :
    endLsn first ≤ endLsn second := by
  obtain ⟨rest, rfl⟩ := extends_
  rw [endLsn_append]
  exact Nat.le_add_right _ _

theorem prefix_append (records : List (Rec β)) (rec : Rec β) : records <+: append records rec :=
  List.prefix_append _ _

section

variable (chained : Chained base records t)

include chained

theorem Chained.own_new (rec : Rec β) (mine : rec.txnId = t) :
    Own base (append records rec) t (endLsn records) :=
  ⟨_, mem_append.mpr (.inr rfl), rfl, mine, endLsn_le_of_prefix chained.opened⟩

theorem Chained.append (rec : Rec β)
    (linked : rec.txnId = t → rec.type ≠ .begin → Own base records t rec.prevLsn ∧
      (rec.type = .clr → Own base records t rec.undoNextLsn)) :
    Chained base (append records rec) t := by
  refine ⟨chained.opened.trans (prefix_append _ _), placed_append chained.placed rec, ?_⟩
  intro r member mine fresh notBegin
  rcases mem_append.mp member with old | rfl
  · have back := chained.chain r old mine fresh notBegin
    exact ⟨back.prev.append rec, back.prev_lt, fun isClr =>
      ⟨(back.undoNext isClr).1.append rec, (back.undoNext isClr).2⟩⟩
  · obtain ⟨prev, undoNext⟩ := linked mine notBegin
    exact ⟨prev.append rec, chained.lt_end prev, fun isClr =>
      ⟨(undoNext isClr).append rec, chained.lt_end (undoNext isClr)⟩⟩

theorem Chained.found_own {taken : List (Rec β)} {rec : Rec β}
    (own : Own base records t lsn) (earlier : taken <+: records)
    (found : findRecord taken lsn = some rec) :
    rec ∈ records ∧ rec.lsn = lsn ∧ rec.txnId = t ∧ endLsn base ≤ rec.lsn := by
  obtain ⟨inTaken, at_⟩ := findRecord_mem found
  obtain ⟨r, member, atR, mine, fresh⟩ := own
  have inRecords := earlier.subset inTaken
  have same := chained.placed.eq_of_lsn_eq inRecords member (at_.trans atR.symm)
  subst same
  exact ⟨inRecords, at_, mine, at_ ▸ fresh⟩

end

end Chain

/-- Everything undone lies above `lsn`. -/
def Below (history : List Event) (lsn : Nat) : Prop := ∀ x ∈ undone history, lsn < x

/-- A walk that starts at `lsn` meets nothing undone: `lsn` lies below it, or it is the LSN
of a compensation record that leads below it. -/
def Front (records : List (Rec β)) (history : List Event) (lsn : Nat) : Prop :=
  Below history lsn ∨
    ∃ r ∈ records, r.lsn = lsn ∧ r.type = .clr ∧ Below history r.undoNextLsn

structure Undoing (base records : List (Rec β)) (t : Nat) (history : List Event)
    (rec : Rec β) : Prop where
  prev : Own base records t rec.prevLsn
  prev_lt : rec.prevLsn < rec.lsn
  above : Below history rec.lsn

/-- A compensation record of `t` at `lsn` that leads to `next`. -/
def Compensates (base records : List (Rec β)) (t lsn next : Nat) : Prop :=
  ∃ r ∈ records, r.lsn = lsn ∧ r.txnId = t ∧ endLsn base ≤ lsn ∧ r.type = .clr ∧
    r.undoNextLsn = next

/-- What a thread's place in `Abort` says about the log, the last LSN and the history. -/
def PcSound (base records : List (Rec β)) (t last : Nat) (history : List Event) : Pc β → Prop
  | .read taken => taken <+: records
  | .walking taken current =>
    taken <+: records ∧ Own base records t current ∧ Front records history current
  | .logging taken rec clr =>
    taken <+: records ∧ Undoing base records t history rec ∧ clr.type = .clr ∧
      clr.txnId = t ∧ clr.undoNextLsn = rec.prevLsn ∧ Own base records t clr.prevLsn
  | .logged taken rec lsn =>
    taken <+: records ∧ Undoing base records t history rec ∧
      Compensates base records t lsn rec.prevLsn
  | .applying taken rec lsn =>
    taken <+: records ∧ Undoing base records t history rec ∧
      Compensates base records t lsn rec.prevLsn ∧ last = lsn
  | .endLogging abort =>
    abort.type = .abort ∧ abort.txnId = t ∧ Own base records t abort.prevLsn
  | .endLogged lsn => Own base records t lsn
  | _ => True

/-- The thread has logged the `ABORT` record and not yet set the state. -/
def pastAbort : Pc β → Bool
  | .endLogged _ | .endFlushing _ | .settingState => true
  | _ => false

def isReleasing : Pc β → Bool
  | .releasing => true
  | _ => false

def countAborts (base records : List (Rec β)) (t : Nat) : Nat :=
  (records.drop base.length).countP fun r => r.type = .abort ∧ r.txnId = t

/-- What holds in every guarded run. `last` is the last LSN of `t`. -/
structure Sound (base : List (Rec β)) (t : Nat) (records : List (Rec β)) (last : Nat)
    (state : TransactionState) (history : List Event) (calls : Caller → Pc β) : Prop where
  chained : Chained base records t
  last_own : Own base records t last
  alone : ∀ c, (calls c).rollingBack = true → (calls c.other).rollingBack = false
  aborting : ∀ c, (calls c).rollingBack = true → state = .aborting
  releasing : ∀ c, isReleasing (calls c) = true → state = .aborted
  released : .released ∈ history → state = .aborted
  untouched : state ≠ .aborting → state ≠ .aborted → undone history = []
  front : state ≠ .aborted → (∀ c, pastAbort (calls c) = false) → Front records history last
  noAbort : state ≠ .aborted → (∀ c, pastAbort (calls c) = false) →
    countAborts base records t = 0
  oneAbort : state = .aborted ∨ (∃ c, pastAbort (calls c) = true) → countAborts base records t = 1
  pcs : ∀ c, PcSound base records t last history (calls c)
  once : (undone history).Nodup
  underLocks : ∀ before after, history = before ++ .released :: after → undone after = []

section Growing

variable {last : Nat} {history : List Event}

theorem Undoing.append {r : Rec β} (undoing : Undoing base records t history r) (rec : Rec β) :
    Undoing base (append records rec) t history r :=
  ⟨undoing.prev.append rec, undoing.prev_lt, undoing.above⟩

variable {lsn : Nat}

theorem Compensates.append {next : Nat} (compensates : Compensates base records t lsn next)
    (rec : Rec β) : Compensates base (append records rec) t lsn next := by
  obtain ⟨r, member, rest⟩ := compensates
  exact ⟨r, mem_append.mpr (.inl member), rest⟩

theorem Front.append (front : Front records history lsn) (rec : Rec β) :
    Front (append records rec) history lsn := by
  rcases front with below | ⟨r, member, rest⟩
  · exact .inl below
  · exact .inr ⟨r, mem_append.mpr (.inl member), rest⟩

theorem PcSound.append {pc : Pc β} (sound : PcSound base records t last history pc) (rec : Rec β) :
    PcSound base (append records rec) t last history pc := by
  have longer {taken : List (Rec β)} (earlier : taken <+: records) :
      taken <+: RecordLog.append records rec := earlier.trans (prefix_append _ _)
  cases pc with
  | read taken => exact longer sound
  | walking taken current =>
    obtain ⟨earlier, own, front⟩ := sound
    exact ⟨longer earlier, own.append rec, front.append rec⟩
  | logging taken r clr =>
    obtain ⟨earlier, undoing, isClr, mine, next, prev⟩ := sound
    exact ⟨longer earlier, undoing.append rec, isClr, mine, next, prev.append rec⟩
  | logged taken r lsn =>
    obtain ⟨earlier, undoing, compensates⟩ := sound
    exact ⟨longer earlier, undoing.append rec, compensates.append rec⟩
  | applying taken r lsn =>
    obtain ⟨earlier, undoing, compensates, latest⟩ := sound
    exact ⟨longer earlier, undoing.append rec, compensates.append rec, latest⟩
  | endLogging abort =>
    obtain ⟨isAbort, mine, prev⟩ := sound
    exact ⟨isAbort, mine, prev.append rec⟩
  | endLogged lsn => exact Own.append sound rec
  | idle => trivial
  | chosen => trivial
  | called => trivial
  | marking => trivial
  | waiting => trivial
  | reading => trivial
  | flushing => trivial
  | ending => trivial
  | endFlushing _ => trivial
  | settingState => trivial
  | releasing => trivial

theorem countAborts_append (opened : base <+: records) (rec : Rec β) :
    countAborts base (append records rec) t =
      countAborts base records t + if rec.type = .abort ∧ rec.txnId = t then 1 else 0 := by
  obtain ⟨rest, rfl⟩ := opened
  unfold countAborts RecordLog.append
  rw [List.append_assoc, List.drop_left, List.drop_left, List.countP_append,
    List.countP_singleton]
  simp

theorem below_nil (nothing : undone history = []) : Below history lsn := by
  intro x member
  rw [nothing] at member
  cases member

theorem Compensates.front {next : Nat} (compensates : Compensates base records t lsn next)
    (below : Below history next) : Front records history lsn := by
  obtain ⟨r, member, at_, _, _, isClr, rfl⟩ := compensates
  exact .inr ⟨r, member, at_, isClr, below⟩

end Growing

@[simp] theorem other_other (c : Caller) : c.other.other = c := by
  cases c <;> rfl

theorem other_ne (c : Caller) : c.other ≠ c := by
  cases c <;> decide

theorem eq_or_other (c d : Caller) : d = c ∨ d = c.other := by
  cases c <;> cases d <;> decide

theorem forall_update {calls : Caller → Pc β} {c : Caller} {pc : Pc β} {p : Caller → Pc β → Prop}
    (moved : p c pc) (stayed : p c.other (calls c.other)) :
    ∀ d, p d (Function.update calls c pc d) := by
  intro d
  rcases eq_or_other c d with rfl | rfl
  · rw [update_self]
    exact moved
  · rw [update_of_ne (other_ne c)]
    exact stayed

theorem update_other (calls : Caller → Pc β) (c : Caller) (pc : Pc β) :
    Function.update calls c pc c.other = calls c.other :=
  update_of_ne (other_ne c) _ _

section Moves

variable {last : Nat} {state : TransactionState} {history : List Event} {calls : Caller → Pc β}

private theorem alone_update {c : Caller} {pc : Pc β}
    (allowed : pc.rollingBack = true → (calls c.other).rollingBack = false) :
    ∀ d, (Function.update calls c pc d).rollingBack = true →
      (Function.update calls c pc d.other).rollingBack = false := by
  intro d rolling
  rcases eq_or_other c d with rfl | rfl
  · rw [update_self] at rolling
    rw [update_other]
    exact allowed rolling
  · rw [update_other] at rolling
    rw [other_other, update_self]
    by_contra overlap
    have quiet := allowed (by simpa using overlap)
    rw [rolling] at quiet
    cases quiet

private theorem pastAbort_update {c : Caller} {pc : Pc β}
    (past : pastAbort pc = pastAbort (calls c)) (d : Caller) :
    pastAbort (Function.update calls c pc d) = pastAbort (calls d) := by
  rcases eq_or_other c d with rfl | rfl
  · rw [update_self, past]
  · rw [update_other]

section

variable (sound : Sound base t records last state history calls)

include sound

/-- A caller goes on, or leaves, and does not pass the place where the abort is logged. -/
private theorem Sound.goOn (c : Caller) (pc : Pc β)
    (rolling : pc.rollingBack = true → (calls c).rollingBack = true)
    (past : pastAbort pc = pastAbort (calls c)) (inside : isReleasing pc = false)
    (pcSound : PcSound base records t last history pc) :
    Sound base t records last state history (Function.update calls c pc) :=
  { sound with
    alone := alone_update fun isRolling => sound.alone c (rolling isRolling)
    aborting := forall_update (p := fun _ pc => pc.rollingBack = true → state = .aborting)
      (fun isRolling => sound.aborting c (rolling isRolling)) (sound.aborting c.other)
    releasing := forall_update (p := fun _ pc => isReleasing pc = true → state = .aborted)
      (fun isReleasing_ => by rw [inside] at isReleasing_; cases isReleasing_)
      (sound.releasing c.other)
    front := fun alive none_ => sound.front alive fun d =>
      (pastAbort_update past d).symm.trans (none_ d)
    noAbort := fun alive none_ => sound.noAbort alive fun d =>
      (pastAbort_update past d).symm.trans (none_ d)
    oneAbort := fun ended => sound.oneAbort (ended.imp_right fun ⟨d, isPast⟩ =>
      ⟨d, (pastAbort_update past d).symm.trans isPast⟩)
    pcs := forall_update (p := fun _ pc => PcSound base records t last history pc) pcSound
      (sound.pcs c.other) }

theorem Sound.move (c : Caller)
    (pc : Pc β) (rolling : pc.rollingBack = (calls c).rollingBack)
    (past : pastAbort pc = pastAbort (calls c)) (inside : isReleasing pc = false)
    (pcSound : PcSound base records t last history pc) :
    Sound base t records last state history (Function.update calls c pc) :=
  sound.goOn c pc (fun isRolling => rolling ▸ isRolling) past inside pcSound

theorem Sound.enter (c : Caller)
    (pc : Pc β) (quiet : (calls c).rollingBack = false)
    (other : (calls c.other).rollingBack = false) (alive : state ≠ .aborted)
    (past : pastAbort pc = false) (inside : isReleasing pc = false)
    (pcSound : PcSound base records t last history pc) :
    Sound base t records last .aborting history (Function.update calls c pc) := by
  have notPast {pc : Pc β} (rests : pc.rollingBack = false) : pastAbort pc = false := by
    cases pc <;> first | rfl | cases rests
  have pasts : ∀ d, pastAbort (calls d) = false := by
    intro d
    rcases eq_or_other c d with rfl | rfl
    · exact notPast quiet
    · exact notPast other
  have notReleasing (d : Caller) : isReleasing (calls d) = false := by
    by_contra isReleasing_
    exact alive (sound.releasing d (by simpa using isReleasing_))
  refine { sound with
    alone := alone_update fun _ => other
    aborting := fun _ _ => rfl
    releasing := forall_update (p := fun _ pc => isReleasing pc = true → _ = _)
      (fun isReleasing_ => by rw [inside] at isReleasing_; cases isReleasing_)
      (fun isReleasing_ => by rw [notReleasing] at isReleasing_; cases isReleasing_)
    released := fun released => absurd (sound.released released) alive
    untouched := fun marked => absurd rfl marked
    front := fun _ _ => sound.front alive pasts
    noAbort := fun _ _ => sound.noAbort alive pasts
    oneAbort := ?_
    pcs := forall_update (p := fun _ pc => PcSound base records t last history pc) pcSound
      (sound.pcs c.other) }
  rintro (ended | ⟨d, isPast⟩)
  · cases ended
  · rcases eq_or_other c d with rfl | rfl
    · rw [update_self, past] at isPast
      cases isPast
    · rw [update_other, pasts] at isPast
      cases isPast

theorem Sound.leave (c : Caller)
    (pc : Pc β) (past : pastAbort (calls c) = false) (quiet : pc.rollingBack = false)
    (pastAfter : pastAbort pc = false) (inside : isReleasing pc = false)
    (pcSound : PcSound base records t last history pc) :
    Sound base t records last state history (Function.update calls c pc) := by
  refine sound.goOn c pc (fun rolling => ?_) (pastAfter.trans past.symm) inside pcSound
  rw [quiet] at rolling
  cases rolling

end

/-- The state of `t` changes as its own lock calls and the deadlock worker change it. -/
def StateMoves (state state' : TransactionState) : Prop :=
  state' = state ∨ (state ≠ .aborting ∧ state ≠ .aborted ∧ state' ≠ .aborted)

section

variable (sound : Sound base t records last state history calls)

include sound

theorem Sound.setState
    {state' : TransactionState} (moves : StateMoves state state') :
    Sound base t records last state' history calls := by
  rcases moves with rfl | ⟨notAborting, alive, alive'⟩
  · exact sound
  · have nothing := sound.untouched notAborting alive
    exact { sound with
      aborting := fun c rolling => absurd (sound.aborting c rolling) notAborting
      releasing := fun c isReleasing_ => absurd (sound.releasing c isReleasing_) alive
      released := fun released => absurd (sound.released released) alive
      untouched := fun _ _ => nothing
      front := fun _ none_ => sound.front alive none_
      noAbort := fun _ none_ => sound.noAbort alive none_
      oneAbort := by
        rintro (ended | isPast)
        · exact absurd ended alive'
        · exact sound.oneAbort (.inr isPast) }

theorem Sound.append (rec : Rec β)
    (linked : rec.txnId = t → rec.type ≠ .begin → Own base records t rec.prevLsn ∧
      (rec.type = .clr → Own base records t rec.undoNextLsn))
    (noAbort : ¬(rec.type = .abort ∧ rec.txnId = t)) :
    Sound base t (append records rec) last state history calls := by
  have count := countAborts_append (t := t) sound.chained.opened rec
  rw [if_neg noAbort, Nat.add_zero] at count
  exact { sound with
    chained := sound.chained.append rec linked
    last_own := sound.last_own.append rec
    front := fun alive none_ => (sound.front alive none_).append rec
    noAbort := fun alive none_ => count.trans (sound.noAbort alive none_)
    oneAbort := fun ended => count.trans (sound.oneAbort ended)
    pcs := fun c => (sound.pcs c).append rec }

end

private theorem pcSound_of_quiet {pc : Pc β} (quiet : pc.rollingBack = false) (lsn : Nat)
    (history : List Event) : PcSound base records t lsn history pc := by
  cases pc <;> trivial

variable {lsn : Nat}

section

variable (sound : Sound base t records last state history calls)

include sound

theorem Sound.setLast
    (unmarked : state ≠ .aborting) (alive : state ≠ .aborted) (own : Own base records t lsn) :
    Sound base t records lsn state history calls := by
  have quiet (c : Caller) : (calls c).rollingBack = false := by
    by_contra rolling
    exact unmarked (sound.aborting c (by simpa using rolling))
  exact { sound with
    last_own := own
    front := fun _ _ => .inl (below_nil (sound.untouched unmarked alive))
    pcs := fun c => pcSound_of_quiet (quiet c) lsn history }

theorem Sound.moveLast (c : Caller)
    (pc : Pc β) {events : List Event} (was : (calls c).rollingBack = true)
    (rolling : pc.rollingBack = true) (past : pastAbort pc = pastAbort (calls c))
    (own : Own base records t lsn) (front : pastAbort pc = false → Front records events lsn)
    (pcSound : PcSound base records t lsn events pc) (once : (undone events).Nodup)
    (locked : .released ∉ events) :
    Sound base t records lsn state events (Function.update calls c pc) := by
  have marked := sound.aborting c was
  have quiet := sound.alone c was
  have inside : isReleasing pc = false := by
    cases pc <;> first | rfl | cases rolling
  exact {
    chained := sound.chained
    last_own := own
    alone := alone_update fun _ => quiet
    aborting := fun _ _ => marked
    releasing := forall_update (p := fun _ pc => isReleasing pc = true → state = .aborted)
      (fun isReleasing_ => by rw [inside] at isReleasing_; cases isReleasing_)
      (sound.releasing c.other)
    released := fun released => absurd released locked
    untouched := fun unmarked => absurd marked unmarked
    front := fun _ none_ => front (by simpa using none_ c)
    noAbort := fun alive none_ => sound.noAbort alive fun d =>
      (pastAbort_update past d).symm.trans (none_ d)
    oneAbort := fun ended => sound.oneAbort (ended.imp_right fun ⟨d, isPast⟩ =>
      ⟨d, (pastAbort_update past d).symm.trans isPast⟩)
    pcs := forall_update (p := fun _ pc => PcSound base records t lsn events pc) pcSound
      (pcSound_of_quiet quiet lsn events)
    once := once
    underLocks := fun before after split => absurd (split ▸ by simp) locked }

theorem Sound.not_released {c : Caller}
    (rolling : (calls c).rollingBack = true) : .released ∉ history := by
  intro released
  have marked := sound.aborting c rolling
  rw [sound.released released] at marked
  cases marked

end

private theorem undone_image (history : List Event) (lsn : Nat) :
    undone (history ++ [.image lsn]) = undone history ++ [lsn] := by
  simp [undone]

private theorem Undoing.below {rec : Rec β} (undoing : Undoing base records t history rec) :
    Below (history ++ [.image rec.lsn]) rec.prevLsn := by
  intro x member
  rw [undone_image] at member
  rcases List.mem_append.mp member with old | new
  · exact lt_trans undoing.prev_lt (undoing.above x old)
  · rw [List.mem_singleton.mp new]
    exact undoing.prev_lt

section

variable (sound : Sound base t records last state history calls)

include sound

theorem Sound.image (c : Caller)
    {taken : List (Rec β)} {rec : Rec β} (at_ : calls c = .applying taken rec lsn) :
    Sound base t records last state (history ++ [.image rec.lsn])
      (Function.update calls c (.walking taken rec.prevLsn)) := by
  have rolling : (calls c).rollingBack = true := by rw [at_]; rfl
  have here := sound.pcs c
  rw [at_] at here
  obtain ⟨earlier, undoing, compensates, rfl⟩ := here
  refine sound.moveLast c (.walking taken rec.prevLsn) rolling rfl (by rw [at_]; rfl) sound.last_own
    (fun _ => compensates.front undoing.below)
    ⟨earlier, undoing.prev, .inl undoing.below⟩ ?_ ?_
  · rw [undone_image, List.nodup_append]
    refine ⟨sound.once, List.nodup_singleton _, ?_⟩
    intro x member y new same
    rw [List.mem_singleton.mp new] at same
    exact absurd (undoing.above x member) (by omega)
  · have unreleased := sound.not_released rolling
    simpa using unreleased

theorem Sound.logAbort (c : Caller)
    {abort : Rec β} (at_ : calls c = .endLogging abort) :
    Sound base t (RecordLog.append records abort) last state history
      (Function.update calls c (.endLogged (endLsn records))) := by
  have rolling : (calls c).rollingBack = true := by rw [at_]; rfl
  have marked := sound.aborting c rolling
  have quiet := sound.alone c rolling
  have here := sound.pcs c
  rw [at_] at here
  obtain ⟨isAbort, mine, prev⟩ := here
  have alive : state ≠ .aborted := by rw [marked]; decide
  have nonePast : ∀ d, pastAbort (calls d) = false := by
    intro d
    rcases eq_or_other c d with rfl | rfl
    · rw [at_]
      rfl
    · revert quiet
      cases calls c.other <;> simp [Pc.rollingBack, pastAbort]
  have count := countAborts_append (t := t) sound.chained.opened abort
  rw [if_pos ⟨isAbort, mine⟩, sound.noAbort alive nonePast] at count
  have isPast : pastAbort (Function.update calls c (.endLogged (endLsn records)) c) = true := by
    rw [update_self]
    rfl
  exact {
    chained := sound.chained.append abort fun _ _ =>
      ⟨prev, fun isClr => by rw [isAbort] at isClr; cases isClr⟩
    last_own := sound.last_own.append abort
    alone := alone_update fun _ => quiet
    aborting := fun _ _ => marked
    releasing := forall_update (p := fun _ pc => isReleasing pc = true → state = .aborted)
      (fun isReleasing_ => by cases isReleasing_) (sound.releasing c.other)
    released := sound.released
    untouched := sound.untouched
    front := fun _ none_ => by rw [none_] at isPast; cases isPast
    noAbort := fun _ none_ => by rw [none_] at isPast; cases isPast
    oneAbort := fun _ => count
    pcs := forall_update (p := fun _ pc => PcSound base _ t last history pc)
      (sound.chained.own_new abort mine) ((sound.pcs c.other).append abort)
    once := sound.once
    underLocks := sound.underLocks }

theorem Sound.finish (c : Caller)
    (at_ : calls c = .settingState) :
    Sound base t records last .aborted history (Function.update calls c .releasing) := by
  have rolling : (calls c).rollingBack = true := by rw [at_]; rfl
  have quiet := sound.alone c rolling
  exact { sound with
    alone := alone_update fun rolling => by cases rolling
    aborting := forall_update (p := fun _ pc => pc.rollingBack = true → _ = _)
      (fun rolling => by cases rolling) (fun rolling => by rw [quiet] at rolling; cases rolling)
    releasing := fun _ _ => rfl
    released := fun _ => rfl
    untouched := fun _ alive => absurd rfl alive
    front := fun alive _ => absurd rfl alive
    noAbort := fun alive _ => absurd rfl alive
    oneAbort := fun _ => sound.oneAbort (.inr ⟨c, by rw [at_]; rfl⟩)
    pcs := forall_update (p := fun _ pc => PcSound base records t last history pc) trivial
      (sound.pcs c.other) }

theorem Sound.release (c : Caller)
    (at_ : calls c = .releasing) :
    Sound base t records last state (history ++ [.released])
      (Function.update calls c .idle) := by
  have ended := sound.releasing c (by rw [at_]; rfl)
  have quiet (d : Caller) : (calls d).rollingBack = false := by
    by_contra rolling
    have marked := sound.aborting d (by simpa using rolling)
    rw [ended] at marked
    cases marked
  have same : undone (history ++ [.released]) = undone history := by simp [undone]
  exact {
    chained := sound.chained
    last_own := sound.last_own
    alone := alone_update fun rolling => by cases rolling
    aborting := forall_update (p := fun _ pc => pc.rollingBack = true → state = _)
      (fun rolling => by cases rolling) (sound.aborting c.other)
    releasing := fun _ _ => ended
    released := fun _ => ended
    untouched := fun _ alive => absurd ended alive
    front := fun alive _ => absurd ended alive
    noAbort := fun alive _ => absurd ended alive
    oneAbort := fun _ => sound.oneAbort (.inl ended)
    pcs := forall_update (p := fun _ pc => PcSound base records t last _ pc) trivial
      (pcSound_of_quiet (quiet c.other) last _)
    once := by rw [same]; exact sound.once
    underLocks := by
      intro before after split
      rcases List.eq_nil_or_concat after with rfl | ⟨front, event, rfl⟩
      · rfl
      · have parts : history ++ [.released] = (before ++ .released :: front) ++ [event] := by
          rw [split]
          simp
        obtain ⟨rest, last_⟩ := List.append_inj' parts rfl
        cases last_
        have old := sound.underLocks before front rest
        simpa [undone] using old }

end

end Moves

section Steps

def Safe (base : List (Rec β)) (t : Nat) (s : State β) : Prop :=
  Sound base t s.wal.records (s.lastLsn t) (s.locks.txnState t) s.history s.calls

variable {s s' : State β}

theorem safe_start (placed : Placed base) (pages : PageId → Page β) :
    Safe base t (State.start base pages t) := by
  have opened : Chained base base t := by
    refine ⟨List.prefix_rfl, placed, ?_⟩
    intro r member _ fresh
    have inside := placed.lsn_lt_end member
    omega
  have begun := opened.append { LogRecord.blank none .begin with txnId := t }
    fun _ notBegin => absurd rfl notBegin
  exact {
    chained := begun
    last_own := by
      have own := opened.own_new { LogRecord.blank none .begin with txnId := t } rfl
      simpa [State.start, Wal.open] using own
    alone := fun c rolling => by cases rolling
    aborting := fun c rolling => by cases rolling
    releasing := fun c isReleasing_ => by cases isReleasing_
    released := fun released => by cases released
    untouched := fun _ _ => rfl
    front := fun _ _ => .inl (below_nil rfl)
    noAbort := fun _ _ => by
      have count := countAborts_append (t := t) opened.opened
        { LogRecord.blank none .begin with txnId := t }
      rw [if_neg (by rintro ⟨isAbort, _⟩; cases isAbort)] at count
      have none_ : countAborts base base t = 0 := by simp [countAborts]
      exact count.trans (by rw [none_])
    oneAbort := by
      rintro (ended | ⟨c, isPast⟩)
      · cases ended
      · cases isPast
    pcs := fun _ => trivial
    once := List.nodup_nil
    underLocks := fun before after split => by simp [State.start] at split }

private theorem foldl_flushUpTo (dirty : List PageId) (lsn : PageId → Nat) (wal : Wal β) :
    (dirty.foldl (fun wal p => wal.flushUpTo (lsn p)) wal).records = wal.records := by
  induction dirty generalizing wal with
  | nil => rfl
  | cons p rest ih => rw [List.foldl_cons, ih, Wal.records_flushUpTo]

theorem walk_cases {taken : List (Rec β)} {current : Nat} {history : List Event}
    (chained : Chained base records t) (earlier : taken <+: records)
    (own : Own base records t current) (front : Front records history current) :
    (walkStep taken current = .stop) ∨
      (∃ next, walkStep taken current = .skip next ∧ Own base records t next ∧
        Front records history next) ∨
      (∃ rec, walkStep taken current = .undo rec ∧ Undoing base records t history rec) := by
  unfold walkStep
  by_cases zero : current = 0
  · exact .inl (if_pos zero)
  rw [if_neg zero]
  cases found : findRecord taken current with
  | none => exact .inl rfl
  | some rec =>
    obtain ⟨member, at_, mine, fresh⟩ := chained.found_own own earlier found
    dsimp only
    by_cases isBegin : rec.type = .begin
    · exact .inl (if_pos isBegin)
    rw [if_neg isBegin]
    have back := chained.chain rec member mine fresh isBegin
    by_cases isClr : rec.type = .clr
    · rw [if_pos isClr]
      obtain ⟨undoOwn, undoLt⟩ := back.undoNext isClr
      refine .inr (.inl ⟨_, rfl, undoOwn, .inl ?_⟩)
      rcases front with below | ⟨r, memberR, atR, _, below⟩
      · intro x undone_
        exact lt_trans undoLt (at_ ▸ below x undone_)
      · have same := chained.placed.eq_of_lsn_eq memberR member (atR.trans at_.symm)
        exact same ▸ below
    · rw [if_neg isClr]
      have below : Below history rec.lsn := by
        rcases front with below | ⟨r, memberR, atR, isClr', _⟩
        · exact at_ ▸ below
        · have same := chained.placed.eq_of_lsn_eq memberR member (atR.trans at_.symm)
          exact absurd (same ▸ isClr') isClr
      split
      · exact .inr (.inr ⟨rec, rfl, back.prev, back.prev_lt, below⟩)
      · refine .inr (.inl ⟨_, rfl, back.prev, .inl ?_⟩)
        intro x undone_
        exact lt_trans back.prev_lt (below x undone_)

theorem safe_advance {c : Caller} (safe : Safe base t s) (alone : Alone t s (.advance c))
    (taken_ : advance t s c = some s') : Safe base t s' := by
  unfold Safe at safe
  have here := safe.pcs c
  unfold advance at taken_
  cases at_ : s.calls c with
  | idle => simp [at_] at taken_
  | chosen => simp [at_] at taken_
  | called =>
    simp only [at_] at taken_
    have quiet : (s.calls c).rollingBack = false := by rw [at_]; rfl
    have stay {pc : Pc β} (rests : pc.rollingBack = false) (past : pastAbort pc = false)
        (inside : isReleasing pc = false) : Safe base t (s.setCall c pc) :=
      safe.move c pc (rests.trans quiet.symm) (by rw [past, at_]; rfl) inside
        (pcSound_of_quiet rests _ _)
    split at taken_
    · cases taken_
      exact stay rfl rfl rfl
    · cases taken_
      exact stay rfl rfl rfl
    · rename_i marked
      cases taken_
      have other := alone c (by simp [entersRollback, at_, marked])
      have entered := safe.enter c (.reading) quiet other (by rw [marked]; decide) rfl rfl
        trivial
      rw [← marked] at entered
      exact entered
    · cases taken_
      exact stay rfl rfl rfl
  | marking =>
    simp only [at_] at taken_
    have quiet : (s.calls c).rollingBack = false := by rw [at_]; rfl
    split at taken_
    · cases taken_
      exact safe.move c (.waiting) (by rw [at_]; rfl) (by rw [at_]; rfl) rfl trivial
    · rename_i alive
      cases taken_
      have other := alone c (by simp only [entersRollback, at_, if_neg alive])
      have entered := safe.enter c (.reading) quiet other (fun ended => alive (.inr ended))
        rfl rfl trivial
      have marks : (s.locks.setTxnState t (tryMarkAborting (s.locks.txnState t))).txnState t =
          .aborting := by
        simp [LockState.setTxnState, tryMarkAborting, alive]
      unfold Safe
      dsimp only
      rw [marks]
      exact entered
  | waiting =>
    simp only [at_] at taken_
    split at taken_
    · cases taken_
    · cases taken_
      exact safe.move c (.idle) (by rw [at_]; rfl) (by rw [at_]; rfl) rfl trivial
  | reading =>
    simp only [at_] at taken_
    cases taken_
    exact safe.move c (.read s.wal.records) (by rw [at_]; rfl) (by rw [at_]; rfl) rfl
      List.prefix_rfl
  | read taken =>
    simp only [at_] at taken_
    cases taken_
    rw [at_] at here
    have alive : s.locks.txnState t ≠ .aborted := by
      rw [safe.aborting c (by rw [at_]; rfl)]
      decide
    have nonePast : ∀ d, pastAbort (s.calls d) = false := by
      intro d
      rcases eq_or_other c d with rfl | rfl
      · rw [at_]
        rfl
      · have quiet := safe.alone c (by rw [at_]; rfl)
        revert quiet
        cases s.calls c.other <;> simp [Pc.rollingBack, pastAbort]
    exact safe.move c (.walking taken (s.lastLsn t)) (by rw [at_]; rfl) (by rw [at_]; rfl)
      rfl ⟨here, safe.last_own, safe.front alive nonePast⟩
  | walking taken current =>
    simp only [at_] at taken_
    rw [at_] at here
    obtain ⟨earlier, own, front⟩ := here
    rcases walk_cases safe.chained earlier own front with
      stops | ⟨next, skips, nextOwn, nextFront⟩ | ⟨rec, undoes, undoing⟩
    · rw [stops] at taken_
      cases taken_
      exact safe.move c (.flushing) (by rw [at_]; rfl) (by rw [at_]; rfl) rfl trivial
    · rw [skips] at taken_
      cases taken_
      exact safe.move c (.walking taken next) (by rw [at_]; rfl) (by rw [at_]; rfl) rfl
        ⟨earlier, nextOwn, nextFront⟩
    · rw [undoes] at taken_
      cases taken_
      exact safe.move c (.logging taken rec _) (by rw [at_]; rfl) (by rw [at_]; rfl) rfl
        ⟨earlier, undoing, rfl, rfl, rfl, safe.last_own⟩
  | logging taken rec clr =>
    simp only [at_] at taken_
    cases taken_
    rw [at_] at here
    obtain ⟨earlier, undoing, isClr, mine, next, prev⟩ := here
    have logged := safe.append clr
      (fun _ _ => ⟨prev, fun _ => next ▸ undoing.prev⟩)
      (by rintro ⟨isAbort, _⟩; rw [isClr] at isAbort; cases isAbort)
    exact logged.move c (.logged taken rec (endLsn s.wal.records)) (by rw [at_]; rfl)
      (by rw [at_]; rfl) rfl
      ⟨earlier.trans (prefix_append _ _), undoing.append clr, _, mem_append.mpr (.inr rfl), rfl,
        mine, endLsn_le_of_prefix safe.chained.opened, isClr, next⟩
  | logged taken rec lsn =>
    simp only [at_] at taken_
    cases taken_
    rw [at_] at here
    obtain ⟨earlier, undoing, compensates⟩ := here
    have rolling : (s.calls c).rollingBack = true := by rw [at_]; rfl
    have front : Front s.wal.records s.history lsn := by
      refine compensates.front fun x undone_ => ?_
      exact lt_trans undoing.prev_lt (undoing.above x undone_)
    have own : Own base s.wal.records t lsn := by
      obtain ⟨r, member, atR, mine, fresh, _⟩ := compensates
      exact ⟨r, member, atR, mine, fresh⟩
    have moved := safe.moveLast c (.applying taken rec lsn) rolling rfl (by rw [at_]; rfl)
      own (fun _ => front) ⟨earlier, undoing, compensates, rfl⟩ safe.once
      (safe.not_released rolling)
    simpa [Safe, State.setLastLsn, State.setCall] using moved
  | applying taken rec lsn =>
    simp only [at_, Option.map_eq_some_iff] at taken_
    obtain ⟨pages, _, rfl⟩ := taken_
    exact safe.image c at_
  | flushing => simp [at_] at taken_
  | ending =>
    simp only [at_] at taken_
    cases taken_
    exact safe.move c (.endLogging _) (by rw [at_]; rfl) (by rw [at_]; rfl) rfl
      ⟨rfl, rfl, safe.last_own⟩
  | endLogging abort =>
    simp only [at_] at taken_
    cases taken_
    exact safe.logAbort c at_
  | endLogged lsn =>
    simp only [at_] at taken_
    cases taken_
    rw [at_] at here
    have rolling : (s.calls c).rollingBack = true := by rw [at_]; rfl
    have moved := safe.moveLast c (.endFlushing lsn) rolling rfl (by rw [at_]; rfl) here
      (fun notPast => by cases notPast) trivial safe.once (safe.not_released rolling)
    simpa [Safe, State.setLastLsn, State.setCall] using moved
  | endFlushing lsn =>
    simp only [at_] at taken_
    cases taken_
    have moved := safe.move c (.settingState) (by rw [at_]; rfl) (by rw [at_]; rfl) rfl
      trivial
    simpa [Safe, State.setCall] using moved
  | settingState =>
    simp only [at_] at taken_
    cases taken_
    have finished := safe.finish c at_
    simpa [Safe, State.setCall, LockState.setTxnState] using finished
  | releasing =>
    simp only [at_] at taken_
    cases taken_
    exact safe.release c at_

theorem stateMoves_refl (state : TransactionState) : StateMoves state state := .inl rfl

private theorem stateMoves_update {states : Nat → TransactionState}
    {change : TransactionState → TransactionState} (moves : ∀ x, StateMoves x (change x)) (u : Nat) :
    StateMoves (states t) (Function.update states u (change (states u)) t) := by
  by_cases same : t = u
  · subst same
    rw [update_self]
    exact moves _
  · rw [update_of_ne same]
    exact stateMoves_refl _

private theorem stateMoves_marking (state : TransactionState) :
    StateMoves state (tryMarkAborting state) := by
  unfold tryMarkAborting StateMoves
  split
  · exact .inl rfl
  · rename_i alive
    by_cases marked : state = .aborting
    · exact .inl marked.symm
    · exact .inr ⟨marked, fun ended => alive (.inr ended), by decide⟩

private theorem stateMoves_waiting (state : TransactionState) :
    StateMoves state (LockManager.setWaitingIfNotAborting state) ∧
      StateMoves state (LockManager.setActiveIfNotAborting state) := by
  unfold LockManager.setWaitingIfNotAborting LockManager.setActiveIfNotAborting StateMoves
  split
  · rename_i works
    have unmarked : state ≠ .aborting ∧ state ≠ .aborted := by
      rcases works with rfl | rfl <;> decide
    exact ⟨.inr ⟨unmarked.1, unmarked.2, by decide⟩, .inr ⟨unmarked.1, unmarked.2, by decide⟩⟩
  · exact ⟨.inl rfl, .inl rfl⟩

private theorem stateMoves_waitLoopPass (locks : LockState) (u : Nat) (call : LockManager.Call) :
    StateMoves (locks.txnState t) ((LockManager.waitLoopPass locks u call).txnState t) := by
  unfold LockManager.waitLoopPass
  dsimp only
  split
  · exact stateMoves_refl _
  · exact stateMoves_refl _
  · split
    · exact stateMoves_refl _
    · split
      · exact stateMoves_refl _
      · exact stateMoves_update (fun x => (stateMoves_waiting x).2) u
      · exact stateMoves_update (fun x => (stateMoves_waiting x).1) u

theorem stateMoves_of_locks {locks locks' : LockState} {label : LockManager.Label}
    (notSet : ∀ u state, label = .setState u state → t ≠ u)
    (taken_ : LockManager.step locks label = some locks') :
    StateMoves (locks.txnState t) (locks'.txnState t) := by
  cases label with
  | call u q range mode =>
    simp only [LockManager.step] at taken_
    split at taken_
    · split at taken_ <;> cases taken_ <;> exact stateMoves_refl _
    · cases taken_
  | prepare u =>
    simp only [LockManager.step, bind_eq_bind, bind_eq_some_iff] at taken_
    obtain ⟨call, _, taken_⟩ := taken_
    split at taken_
    · split at taken_
      · cases taken_
        exact stateMoves_refl _
      · split at taken_
        · split at taken_ <;> cases taken_ <;> exact stateMoves_refl _
        · cases taken_
          exact stateMoves_refl _
    · cases taken_
  | enqueue u =>
    simp only [LockManager.step, bind_eq_bind, bind_eq_some_iff] at taken_
    obtain ⟨call, _, taken_⟩ := taken_
    split at taken_
    · split at taken_ <;> cases taken_
      · exact stateMoves_refl _
      · exact stateMoves_update stateMoves_marking u
      · exact stateMoves_refl _
      · exact stateMoves_waitLoopPass _ u call
    · cases taken_
  | wake u =>
    simp only [LockManager.step, bind_eq_bind, bind_eq_some_iff] at taken_
    obtain ⟨call, _, taken_⟩ := taken_
    split at taken_
    · cases taken_
      exact stateMoves_waitLoopPass _ u call
    · cases taken_
  | setState u state =>
    cases taken_
    have apart := notSet u state rfl
    have same : (locks.setTxnState u state).txnState t = locks.txnState t :=
      update_of_ne apart _ _
    rw [same]
    exact stateMoves_refl _
  | tryMarkAborting u =>
    cases taken_
    exact stateMoves_update stateMoves_marking u
  | abortVictim cycle =>
    simp only [LockManager.step] at taken_
    split at taken_
    · cases taken_
    · split at taken_
      · cases taken_
        unfold LockManager.abortVictim
        split
        · exact stateMoves_refl _
        · exact stateMoves_update stateMoves_marking _
      · cases taken_
  | releaseAll u =>
    cases taken_
    exact stateMoves_refl _

private theorem safe_logged (rec : Rec β) {u : Nat} (safe : Safe base t s) (mine : rec.txnId = u)
    (notClr : rec.type ≠ .clr) (linked : rec.prevLsn = s.lastLsn u)
    (works : u = t → (s.locks.txnState t ≠ .aborting ∧ s.locks.txnState t ≠ .aborted) ∧
      rec.type ≠ .abort) :
    Safe base t ((s.append rec).setLastLsn u (endLsn s.wal.records)) := by
  have logged := safe.append rec
    (fun own _ => ⟨by rw [linked, ← mine, own]; exact safe.last_own,
      fun isClr => absurd isClr notClr⟩)
    (fun isAbort => (works (mine ▸ isAbort.2)).2 isAbort.1)
  by_cases own : u = t
  · subst own
    obtain ⟨⟨unmarked, alive⟩, _⟩ := works rfl
    have moved := logged.setLast unmarked alive (safe.chained.own_new rec mine)
    simpa [Safe, State.append, State.setLastLsn] using moved
  · have same : ((s.append rec).setLastLsn u (endLsn s.wal.records)).lastLsn t = s.lastLsn t :=
      update_of_ne (Ne.symm own) _ _
    unfold Safe
    rw [same]
    exact logged

theorem safe_step {label : Label β} (safe : Safe base t s) (alone : Alone t s label)
    (taken_ : step t s label = some s') : Safe base t s' := by
  cases label with
  | logTxn u type =>
    simp only [step] at taken_
    split at taken_
    · rename_i allowed
      cases taken_
      refine safe_logged _ safe rfl ?_ rfl fun own => absurd own allowed.1
      rcases allowed.2 with rfl | rfl | rfl <;> simp [LogRecord.blank]
    · cases taken_
  | update u p type body =>
    simp only [step] at taken_
    split at taken_
    · rename_i allowed
      cases taken_
      rw [Bool.and_eq_true, Bool.or_eq_true] at allowed
      obtain ⟨undoable, who⟩ := allowed
      refine safe_logged (updateRecord s u p type body) safe rfl ?_ rfl ?_
      · show type ≠ .clr
        rintro rfl
        cases undoable
      · intro own
        subst own
        have works : working u s = true := by simpa using who
        constructor
        · constructor <;> intro state <;> simp [working, state] at works
        · show type ≠ .abort
          rintro rfl
          cases undoable
    · cases taken_
  | locks label =>
    simp only [step, bind_eq_bind, bind_eq_some_iff] at taken_
    obtain ⟨⟨u, isCall⟩, actor, taken_⟩ := taken_
    split at taken_
    · rename_i allowed
      obtain ⟨locks, moved, rfl⟩ := Option.map_eq_some_iff.mp taken_
      refine safe.setState (stateMoves_of_locks ?_ moved)
      rintro v state rfl
      cases actor
      have apart : u ≠ t := by simpa using allowed
      exact apart.symm
    · cases taken_
  | detect cycle =>
    simp only [step, bind_eq_bind, bind_eq_some_iff] at taken_
    obtain ⟨locks, moved, taken_⟩ := taken_
    have next := safe.setState (stateMoves_of_locks (by rintro _ _ ⟨⟩) moved)
    split at taken_
    · rename_i at_
      split at taken_ <;> cases taken_
      · exact next.move .worker (.chosen) (by rw [at_]; rfl) (by rw [at_]; rfl) rfl trivial
      · exact next
    · rename_i at_
      split at taken_ <;> cases taken_
      · exact next.move .worker (.chosen) (by rw [at_]) (by rw [at_]) rfl trivial
      · exact next
    · cases taken_
  | callback =>
    simp only [step] at taken_
    split at taken_
    · rename_i at_
      split at taken_ <;> cases taken_
      · exact safe.move .worker (.called) (by rw [at_]; rfl) (by rw [at_]; rfl) rfl trivial
      · exact safe.move .worker (.idle) (by rw [at_]; rfl) (by rw [at_]; rfl) rfl trivial
    · cases taken_
  | abort =>
    simp only [step] at taken_
    split at taken_
    · rename_i allowed
      cases taken_
      have at_ : s.calls .client = .idle := by
        revert allowed
        cases s.calls .client <;> simp [Pc.isIdle]
      exact safe.move .client (.called) (by rw [at_]; rfl) (by rw [at_]; rfl) rfl trivial
    · cases taken_
  | advance c => exact safe_advance safe alone taken_
  | flushAllPages c dirty =>
    simp only [step] at taken_
    split at taken_
    · rename_i at_
      cases taken_
      have moved := safe.move c (.ending) (by rw [at_]; rfl) (by rw [at_]; rfl) rfl trivial
      unfold Safe
      dsimp only
      rw [foldl_flushUpTo dirty (fun p => (s.pages p).lsn)]
      exact moved
    · cases taken_
  | applyFails =>
    simp only [step] at taken_
    split at taken_
    · rename_i at_
      cases taken_
      exact safe.leave .client (.idle) (by rw [at_]; rfl) rfl rfl rfl trivial
    · cases taken_

end Steps

/-- Where no `Abort` of `t` decides to roll back while another one is rolling back, each update of
`t` is undone at most once, one `ABORT` record is logged, and no before-image is written after the
locks are released. -/
theorem oneRollback {pages : PageId → Page β} {labels : List (Label β)} {s : State β}
    (placed : Placed base) (run : Run (step t) (Alone t) (State.start base pages t) labels s) :
    OneRollback base t s := by
  have safe : Safe base t s :=
    run.invariant (Safe base t) (safe_start placed pages) fun _ _ _ => safe_step
  refine ⟨safe.once, ?_, fun ended => safe.oneAbort (.inl ended), safe.underLocks⟩
  by_cases counted : s.locks.txnState t = .aborted ∨ ∃ c, pastAbort (s.calls c) = true
  · exact (safe.oneAbort counted).le
  · have parts := not_or.mp counted
    have nonePast (c : Caller) : pastAbort (s.calls c) = false := by
      by_contra isPast
      exact parts.2 ⟨c, by simpa using isPast⟩
    have none_ := safe.noAbort parts.1 nonePast
    exact none_.le.trans (Nat.zero_le 1)

/-- Transactions 1 and 2 lock a table each, 2 updates a page of its table, and each asks for
the other's table. The worker chooses 2. -/
def deadlock : List (Label Nat) :=
  [.logTxn 1 .begin,
    .locks (.call 1 (.table 1) none .x), .locks (.prepare 1), .locks (.enqueue 1),
    .locks (.call 2 (.table 2) none .x), .locks (.prepare 2), .locks (.enqueue 2),
    .update 2 ⟨2, 0⟩ .heapUpdate 5,
    .locks (.call 1 (.table 2) none .x), .locks (.prepare 1), .locks (.enqueue 1),
    .locks (.call 2 (.table 1) none .x), .locks (.prepare 2), .locks (.enqueue 2),
    .detect [(1, .table 2), (2, .table 1)], .locks (.wake 2)]

/-- One thread's rollback of transaction 2, from its reading of the log. -/
def rollback (c : Caller) : List (Label Nat) :=
  List.replicate 7 (.advance c) ++ [.flushAllPages c [⟨2, 0⟩]] ++ List.replicate 6 (.advance c)

def zeroPages : PageId → Page Nat := fun _ => ⟨0, 0⟩

/-- The client calls `Abort` when the worker's callback is done. -/
def sequential : List (Label Nat) :=
  deadlock ++ [.callback, .advance .worker] ++ rollback .worker ++ [.abort, .advance .client]

theorem oneRollback_sequential : ∃ s,
    Run (step 2) (Alone 2) (State.start [] zeroPages 2) sequential s ∧ OneRollback [] 2 s := by
  have executed : (exec (fun s a => if Alone 2 s a then step 2 s a else none)
      (State.start [] zeroPages 2) sequential).isSome = true := by decide +kernel
  obtain ⟨s, reached⟩ := Option.isSome_iff_exists.mp executed
  exact ⟨s, run_of_exec reached, oneRollback placed_nil (run_of_exec reached)⟩

/-- The client calls `Abort` before the callback is done: both have found the update when the worker
undoes it and releases the locks. Transaction 1 updates the page and commits, and the client writes
its before-image. -/
def overlapping : List (Label Nat) :=
  deadlock ++ [.abort, .callback] ++ List.replicate 4 (.advance .client) ++
    [.advance .worker] ++ rollback .worker ++
    [.locks (.wake 1), .update 1 ⟨2, 0⟩ .heapUpdate 9, .logTxn 1 .commit] ++
    List.replicate 4 (.advance .client) ++ [.flushAllPages .client [⟨2, 0⟩]] ++
    List.replicate 6 (.advance .client)

theorem overlapping_rollbacks : ∃ s,
    Run (step 2) (fun _ _ => True) (State.start [] zeroPages 2) overlapping s ∧
      s.history = [.image 116, .released, .image 116, .released] ∧ abortRecords [] 2 s = 2 ∧
      (s.pages ⟨2, 0⟩).body = 0 ∧ ¬OneRollback [] 2 s := by
  have executed : (exec (fun s a => if True then step 2 s a else none)
      (State.start [] zeroPages 2) overlapping).any (fun s =>
        decide (s.history = [.image 116, .released, .image 116, .released] ∧
          abortRecords [] 2 s = 2 ∧ (s.pages ⟨2, 0⟩).body = 0)) = true := by decide +kernel
  obtain ⟨s, reached, facts⟩ := (Option.any_eq_true _ _).mp executed
  obtain ⟨history, aborts, page⟩ := of_decide_eq_true facts
  refine ⟨s, run_of_exec reached, history, aborts, page, fun once => ?_⟩
  have atMost := once.oneAbort
  rw [aborts] at atMost
  omega

end GraniteDb.Concurrency.OneRollback
