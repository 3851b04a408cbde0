/- A granted key-range lock keeps other transactions' table writes out of the range. -/

import GraniteDb.Storage.Sessions

namespace GraniteDb.Storage.PhantomProtection

open Common.Types Common.Value Execution.ValueOrder Concurrency.HeldLocks Concurrency.QueueChanges
open Concurrency.RangeOverlap Lib.GuardedRun Storage.TablePrograms Storage.WriteLocks
open Storage.Sessions
open Execution.Operators (ScanMode)
open Concurrency.LockManager (LockMode QueueId KeyRange LockState sameRange overlap
  rangesOverlap)
open Storage.Table (Store keysEqual hasNullComponent)

section Knowledge

def Plain (range : Option KeyRange) : Prop := ∀ g, range = some g → plainRange g = true

variable {key : List Value}

theorem plain_point : Plain (some (pointRange key)) ↔ plainKey key = true := by
  constructor
  · intro plain
    simpa [plainRange, pointRange] using plain _ rfl
  · rintro plain _ ⟨⟩
    simpa [plainRange, pointRange] using plain

def HoldsRange (locks : LockState) (t : Nat) (q : QueueId) (range : Option KeyRange) : Prop :=
  ∃ r ∈ (locks.queues q).requests, r.txnId = t ∧ r.granted = true ∧ r.mode = .x ∧
    Plain r.range ∧ sameRange r.range range = some true

private theorem forall₂_of_equalValues {key' : List Value} (plain : plainKey key = true)
    (plain' : plainKey key' = true) (sameLength : key.length = key'.length)
    (noNull : hasNullComponent key' = false) (equal : Table.equalValues key key' = some true) :
    List.Forall₂ Alike key key' := by
  induction key generalizing key' with
  | nil =>
    cases key' with
    | nil => exact .nil
    | cons _ _ => cases sameLength
  | cons l key ih =>
    cases key' with
    | nil => cases sameLength
    | cons r key' =>
      obtain ⟨numberL, plainL⟩ := plainKey_cons.mp plain
      obtain ⟨numberR, plainR⟩ := plainKey_cons.mp plain'
      obtain ⟨present, rest⟩ : r.isNull = false ∧ hasNullComponent key' = false := by
        simpa [hasNullComponent] using noNull
      unfold Table.equalValues at equal
      rw [present] at equal
      simp only [Bool.or_false, Bool.and_false, Bool.false_eq_true, if_false] at equal
      split at equal
      · cases equal
      · obtain ⟨o, compared, next⟩ := Option.bind_eq_some_iff.mp equal
        split at next
        · rename_i isEq
          rw [isEq] at compared
          obtain ⟨comparable, sameKind, ranks⟩ := (compareValues_iff numberL numberR).mp compared
          refine .cons ⟨comparable, sameKind, compare_eq_iff_eq.mp ranks.symm⟩ ?_
          exact ih plainL plainR (by simpa using sameLength) rest next
        · cases next

theorem sameRange_of_keysEqual {key' : List Value} (plain : plainKey key = true)
    (plain' : plainKey key' = true) (noNull : hasNullComponent key' = false)
    (equal : keysEqual key key' = some true) :
    SameBounds (pointRange key) (pointRange key') := by
  unfold Table.keysEqual at equal
  split at equal
  · rename_i sameLength
    have alike := forall₂_of_equalValues plain plain' sameLength noNull equal
    exact ⟨.some alike, .some alike, rfl, rfl⟩
  · cases equal

def known (i : Nat) (locks : LockState) (t : Nat) : Known Plain where
  val q range mode := q = .keyRange i → mode = .x → HoldsRange locks t q range
  property := by
    intro j key key' equal plain plain' noNull locked here exclusive
    obtain ⟨r, member, mine, granted, isX, plainR, same⟩ := locked here exclusive
    refine ⟨r, member, mine, granted, isX, plainR, ?_⟩
    cases isRange : r.range with
    | none => rfl
    | some g =>
      rw [isRange] at same
      have bounds := (sameRange_iff (plainR g isRange) (plain _ rfl)).mp same
      exact (sameRange_iff (plainR g isRange) (plain' _ rfl)).mpr (bounds.trans
        (sameRange_of_keysEqual (plain_point.mp plain) (plain_point.mp plain') noNull equal))

end Knowledge

section Invariant

/-- The next step of a program asks for no range with a NaN and changes no such key. -/
def plainHead (p : Routine (List Row)) : Bool :=
  match p with
  | .request (.lock _ (some range) _) _ => plainRange range
  | .request (.insertEntry _ key _) _ | .request (.deleteEntry _ key _) _ => plainKey key
  | _ => true

/-- No locks are released while their transaction's table write is under way, and no key or
bound is a NaN. -/
def orderly (d : Database) : Label → Bool
  | .lock t _ | .act t _ => (d.running t).all fun r => plainHead r.program
  | .manage (.releaseAll t) => (d.running t).all fun r => !r.op.isWrite
  | _ => true

structure Inv (s : Setting) (i : Nat) (d : Database) : Prop where
  coherent : Coherent d
  sound : Sound (.keyRange i) d.locks
  rules : ∀ t r, d.running t = some r → KeepsRules s (known i d.locks t) r

variable {s : Setting} {i : Nat} {d d' : Database}

theorem Inv.start (store : Store) : Inv s i (Database.start store) where
  coherent := .start store
  sound := .empty _
  rules _ _ isRunning := by cases isRunning

variable {locks : LockState} {t : Nat} {mode : LockMode} {op : Op}
  {next : Bool → Routine (List Row)} {part : LockStep} {range : Option KeyRange}

private theorem known_mono {locks' : LockState} {released aborted : Nat → Prop}
    (changes : Changes (.keyRange i) released aborted (locks.queues (.keyRange i)) (locks'.queues
      (.keyRange i)))
    (kept : ¬released t) :
    known i locks t ≤ known i locks' t := by
  intro q range mode locked here exclusive
  obtain ⟨r, member, mine, granted, isX, plain, same⟩ := locked here exclusive
  rw [here] at member ⊢
  exact ⟨r, changes.keeps_exclusive member granted isX (by rwa [mine]), mine, granted, isX, plain,
    same⟩

private theorem fits_of_orderly {queue : QueueId} {locks' : LockState}
    (isRunning : d.running t = some ⟨op, .request (.lock queue range mode) next⟩)
    (allowed : orderly d (.lock t part) = true)
    (taken : Concurrency.LockManager.step locks (part.label t queue range mode) = some locks') :
    Plain range ∧ ∀ u range' mode', part.label t queue range mode =
      .call u (.keyRange i) range' mode' → Fits (.keyRange i) range' := by
  have plain : Plain range := by
    rintro g rfl
    simpa [orderly, isRunning, plainHead] using allowed
  refine ⟨plain, ?_⟩
  intro u range' mode' isCall
  cases part with
  | call =>
    cases isCall
    simp only [LockStep.label, Concurrency.LockManager.step] at taken
    split at taken
    · rename_i free
      have valid := (Bool.and_eq_true_iff.mp free).2
      obtain ⟨hasRange, -⟩ := Bool.and_eq_true_iff.mp valid
      obtain ⟨g, isRange⟩ := Option.isSome_iff_exists.mp hasRange
      exact ⟨g, isRange, plain g isRange⟩
    · cases taken
  | prepare | enqueue | wake => cases isCall

theorem granted_of_returned (inv : Inv s i d)
    (isRunning : d.running t = some ⟨op, .request (.lock (.keyRange i) range mode) next⟩)
    (allowed : orderly d (.lock t part) = true)
    (taken : Concurrency.LockManager.step d.locks (part.label t (.keyRange i) range mode) = some
      locks)
    (replied : verdict d.locks (part.label t (.keyRange i) range mode) = some true) :
    ∃ r ∈ (locks.queues (.keyRange i)).requests, r.txnId = t ∧ r.granted = true ∧
      (mode = .x → r.mode = .x) ∧ Plain r.range ∧ sameRange r.range range = some true := by
  obtain ⟨r, member, mine, granted, exclusive, same⟩ :=
    inv.coherent.granted inv.sound (.inl trivial) isRunning taken replied
  obtain ⟨-, fits⟩ := fits_of_orderly (i := i) isRunning allowed taken
  obtain ⟨g, isRange, plain⟩ := (inv.sound.step fits taken).1.queue.fits r member
  refine ⟨r, member, mine, granted, exclusive, ?_, same⟩
  intro g' isRange'
  rw [isRange] at isRange'
  cases isRange'
  exact plain

private theorem learned_of_returned (inv : Inv s i d) {queue : QueueId} {reply : Bool}
    (isRunning : d.running t = some ⟨op, .request (.lock queue range mode) next⟩)
    (allowed : orderly d (.lock t part) = true)
    (taken : Concurrency.LockManager.step d.locks (part.label t queue range mode) = some locks)
    (replied : verdict d.locks (part.label t queue range mode) = some reply) :
    reply = true → (known i locks t).1 queue range mode := by
  rintro rfl rfl rfl
  obtain ⟨r, member, mine, granted, exclusive, plain, same⟩ :=
    granted_of_returned inv isRunning allowed taken replied
  exact ⟨r, member, mine, granted, exclusive rfl, plain, same⟩

theorem Inv.step {label : Label} (inv : Inv s i d) (allowed : orderly d label = true)
    (taken : Sessions.step s d label = some d') : Inv s i d' := by
  have coherent := inv.coherent.step taken
  cases stepped taken with
  | start t op idle =>
    refine ⟨coherent, inv.sound, rules_step inv.rules (fun _ _ _ _ => le_rfl) ?_ taken⟩
    rintro _ _ _ _ _ _ _ _ ⟨⟩
  | waits t part op queue range mode next locks isRunning advanced stays =>
    obtain ⟨-, fits⟩ := fits_of_orderly (i := i) isRunning allowed advanced
    obtain ⟨sound, changes⟩ := inv.sound.step fits advanced
    refine ⟨coherent, sound, rules_step inv.rules (fun u _ _ _ => known_mono changes ?_) ?_ taken⟩
    · cases part <;> simp [LockStep.label]
    · rintro _ _ op' _ _ _ _ reply ⟨⟩ isRunning' replied
      rw [isRunning] at isRunning'
      cases isRunning'
      rw [stays] at replied
      cases replied
  | returns t part op queue range mode next locks reply isRunning advanced replied =>
    obtain ⟨plain, fits⟩ := fits_of_orderly (i := i) isRunning allowed advanced
    obtain ⟨sound, changes⟩ := inv.sound.step fits advanced
    refine ⟨coherent, sound, rules_step inv.rules (fun u _ _ _ => known_mono changes ?_) ?_ taken⟩
    · cases part <;> simp [LockStep.label]
    · rintro _ _ op' _ _ _ _ reply' ⟨⟩ isRunning' replied'
      rw [isRunning] at isRunning'
      cases isRunning'
      exact ⟨plain, learned_of_returned inv isRunning allowed advanced replied'⟩
  | finishes t hits op result isRunning =>
    refine ⟨coherent, inv.sound, rules_step inv.rules (fun _ _ _ _ => le_rfl) ?_ taken⟩
    rintro _ _ _ _ _ _ _ _ ⟨⟩
  | acts t hits op r next done isRunning performed =>
    refine ⟨coherent, inv.sound, rules_step inv.rules (fun _ _ _ _ => le_rfl) ?_ taken⟩
    rintro _ _ _ _ _ _ _ _ ⟨⟩
  | manages label locks allowed' advanced =>
    have noCall : ∀ t range mode, label = .call t (.keyRange i) range mode →
        Fits (.keyRange i) range := by
      rintro t range mode rfl
      cases allowed'
    obtain ⟨sound, changes⟩ := inv.sound.step noCall advanced
    refine ⟨coherent, sound, rules_step inv.rules ?_ ?_ taken⟩
    · rintro u r isRunning isWrite
      refine known_mono changes ?_
      rintro rfl
      simp [orderly, isRunning, isWrite] at allowed
    · rintro _ _ _ _ _ _ _ _ ⟨⟩
  | rollsBack | undoes =>
    refine ⟨coherent, inv.sound, rules_step inv.rules (fun _ _ _ _ => le_rfl) ?_ taken⟩
    rintro _ _ _ _ _ _ _ _ ⟨⟩

end Invariant

section Phantoms

variable {s : Setting} {i : Nat} {d d' : Database}

def ScanHeld (d : Database) (t i : Nat) (mode : ScanMode) : Prop :=
  ∃ r ∈ (d.locks.queues (.keyRange i)).requests, r.txnId = t ∧ r.granted = true ∧
    sameRange r.range (some (lockRange mode)) = some true

/-- No entry with a key within the bounds of the scan has come or gone. -/
def Undisturbed (d d' : Database) (i : Nat) (mode : ScanMode) : Prop :=
  ∀ v rid, keyWithinBounds mode v = some true →
    (d'.store.entries i).count ([v], rid) = (d.store.entries i).count ([v], rid)

/-- A table operation of another transaction leaves what is scanned under the lock alone. -/
def PhantomFree (d d' : Database) (label : Label) (t i : Nat) (mode : ScanMode) : Prop :=
  ScanHeld d t i mode → ∀ u hits, u ≠ t → label = .act u hits → Undisturbed d d' i mode

private theorem contains_held {g : KeyRange} {v : Value} (plain : plainRange g = true)
    (number : isNaN v = false)
    (same : sameRange (some g) (some (pointRange [v])) = some true) : Contains g v := by
  have plainPoint : plainRange (pointRange [v]) = true := by
    simpa [plainRange, pointRange, plainKey] using number
  have bounds := (sameRange_iff plain plainPoint).mp same
  have comparable : kind v ≠ 0 := by
    have lower := bounds.lower
    rw [show (pointRange [v]).lower = some [v] from rfl] at lower
    generalize g.lower = bound at lower
    cases lower with
    | some alike =>
      obtain ⟨x, rfl⟩ := List.length_eq_one_iff.mp alike.length_eq
      have head := (List.forall₂_cons.mp alike).1
      exact head.symm.1
  exact (contains_point comparable).same bounds

private theorem Inv.keeps_out (inv : Inv s i d) {u : Nat} {op : Op} {r : Request}
    {next : Reply r → Routine (List Row)} {key : List Value} {rid : RID}
    (isRunning : d.running u = some ⟨op, .request r next⟩)
    (changes : changedEntry r = some (i, key, rid)) {hits : List RID}
    (allowed : orderly d (.act u hits) = true) {t : Nat} (others : t ≠ u) {mode : ScanMode}
    (plain : plainRange (lockRange mode) = true) (held : ScanHeld d t i mode) {v : Value}
    (isKey : key = [v]) (within : keyWithinBounds mode v = some true) : False := by
  subst isKey
  have rules := inv.rules u _ isRunning
  have head : plainHead (.request r next) = true := by
    simpa [orderly, isRunning] using allowed
  obtain ⟨plainV, holds⟩ : plainKey [v] = true ∧
      HoldsRange d.locks u (.keyRange i) (some (pointRange [v])) := by
    unfold KeepsRules at rules
    cases r with
    | insertEntry index key' rid' | deleteEntry index key' rid' =>
      cases changes
      split at rules
      · exact ⟨head, rules.1.1 (plain_point.mpr head) rfl rfl⟩
      · exact rules.1.elim
    | lock _ _ _ | look | search _ _ | insertRecord _ | deleteRecord _ | overwriteRecord _ _ =>
      cases changes
  have number : isNaN v = false := by simpa [plainKey] using plainV
  obtain ⟨x, memberX, mineX, grantedX, exclusive, -, sameX⟩ := holds
  obtain ⟨r', memberR, mineR, grantedR, sameR⟩ := held
  obtain ⟨gX, rangeX, plainX⟩ := inv.sound.queue.fits x memberX
  obtain ⟨gR, rangeR, plainR⟩ := inv.sound.queue.fits r' memberR
  rw [rangeX] at sameX
  rw [rangeR] at sameR
  have inX : Contains gX v := contains_held plainX number sameX
  have inR : Contains gR v :=
    (contains_lockRange number plain within).same ((sameRange_iff plainR plain).mp sameR)
  have overlaps : overlap r'.range x.range = some true := by
    rw [rangeR, rangeX]
    exact rangesOverlap_of_common plainR plainX inR inX
  have fits := inv.sound.queue.apart r' memberR x memberX grantedR grantedX
    (fun same => others (mineR.symm.trans (same.trans mineX))) overlaps
  exact (not_x_of_compatible fits).2 exclusive

/-- In every orderly run, no other transaction's write adds or removes an entry in the range
of a scan while its request is granted; and ranges with a common key overlap. -/
theorem phantomFree {store : Store} {labels : List Label} {label : Label}
    (run : Run (step s) (fun d label => orderly d label = true) (Database.start store) labels d)
    (allowed : orderly d label = true) (taken : step s d label = some d') {t i : Nat}
    {mode : ScanMode} (plain : plainRange (lockRange mode) = true) :
    PhantomFree d d' label t i mode ∧
      ∀ other v, plainRange (lockRange other) = true → isNaN v = false →
        keyWithinBounds mode v = some true → keyWithinBounds other v = some true →
          rangesOverlap (lockRange mode) (lockRange other) = some true := by
  have inv : Inv s i d := run.invariant (Inv s i) (Inv.start store)
    fun _ _ _ inv allowed taken => inv.step allowed taken
  constructor
  · rintro held u hits others rfl v rid within
    cases stepped taken with
    | finishes _ _ _ _ _ => rfl
    | acts _ _ op r next done isRunning performed =>
      refine perform_entries performed i ([v], rid) fun changes => ?_
      exact inv.keeps_out isRunning changes allowed others.symm plain held rfl within
  · intro other v plain' number within within'
    exact rangesOverlap_of_common plain plain' (contains_lockRange number plain within)
      (contains_lockRange number plain' within')

def indexedSetting : Setting where
  fault _ := none
  pickRid _ _ _ := none
  fresh := by simp
  relationId := 10
  table :=
    { schema := [{ name := "a", type := .int32, nullable := false, maxLength := 0 }]
      indexes := [⟨"i", 20, [⟨0, .int32, 0, false⟩], false, .notSupported, some (.btree .int32 0)⟩]
      distinct := by decide
      inSchema := by decide }
  escalates _ := false

def oneTuple : Store where
  heap := Access.HeapFile.HeapFile.empty.put ⟨0, 0⟩ ⟨[.int32 5], 17⟩
  entries := Lib.Ledger.put (fun _ => 0) 20 ([.int32 5], ⟨0, 0⟩)
  clock := 0
  failures := []

def lockCall (t : Nat) : List Label := [.lock t .call, .lock t .prepare, .lock t .enqueue]

def look (t : Nat) : Label := .act t []

/-- Transaction 1 reads the table, 2 deletes its tuple and waits for the heap, and 1 waits for the
key. The worker takes 2 for its victim and rolls it back, 1 gets its lock, and 2 is refused the
heap. -/
def victimTrace : List Label :=
  [.start 1 (.locks [⟨.table 10, none, .s⟩])] ++ lockCall 1 ++ [look 1] ++
    [.start 2 (.delete ⟨0, 0⟩), look 2] ++ lockCall 2 ++ lockCall 2 ++ [look 2, look 2] ++
    lockCall 2 ++ lockCall 2 ++ [look 2, look 2] ++ lockCall 2 ++
    [.start 1 (.scan 20 (.equality (.int32 5)))] ++ lockCall 1 ++
    [.manage (.abortVictim [(1, .keyRange 20), (2, .table 10)]), .rollback 2 true,
      .undo 2 0 0 false, .manage (.setState 2 .aborted), .manage (.releaseAll 2),
      .lock 1 .wake, .lock 2 .wake]

instance (d : Database) (t i : Nat) (mode : ScanMode) : Decidable (ScanHeld d t i mode) :=
  inferInstanceAs (Decidable (∃ r ∈ _, _))

/-- The rollback has put the entry of transaction 2 back. Refused the heap, 2 puts it back once more,
into the range that 1 has locked by then. -/
theorem entry_restored_in_range :
    ¬∀ (s : Setting) (store : Store) (labels : List Label) (d d' : Database) (label : Label),
      Run (step s) (fun _ _ => True) (Database.start store) labels d →
        step s d label = some d' → ∀ t i mode, PhantomFree d d' label t i mode := by
  intro claimed
  have traced : (exec (fun d label => if True then step indexedSetting d label else none)
      (Database.start oneTuple) victimTrace).any (fun d =>
        decide (ScanHeld d 1 20 (.equality (.int32 5))) && (step indexedSetting d (look 2)).any
          fun d' => decide ((d.store.entries 20).count ([.int32 5], ⟨0, 0⟩) = 1 ∧
            (d'.store.entries 20).count ([.int32 5], ⟨0, 0⟩) = 2)) = true := by
    decide +kernel
  obtain ⟨d, executed, found⟩ := (Option.any_eq_true _ _).mp traced
  obtain ⟨isHeld, changed⟩ := Bool.and_eq_true_iff.mp found
  obtain ⟨d', taken, differs⟩ := (Option.any_eq_true _ _).mp changed
  obtain ⟨once, twice⟩ := of_decide_eq_true differs
  have undisturbed := claimed _ _ _ d d' _ (run_of_exec executed) taken 1 20 (.equality (.int32 5))
    (of_decide_eq_true isHeld) 2 [] (by decide) rfl (.int32 5) ⟨0, 0⟩ (by decide +kernel)
  rw [once, twice] at undisturbed
  exact absurd undisturbed (by decide)

/-- Transaction 1 has scanned the keys from 0 to 3 when transaction 2 deletes its tuple. -/
def apartTrace : List Label :=
  [.start 1 (.scan 20 (.range (some (.int32 0)) (some (.int32 3)) true true))] ++ lockCall 1 ++
    [.start 2 (.delete ⟨0, 0⟩), look 2] ++ lockCall 2 ++ lockCall 2 ++ [look 2, look 2] ++
    lockCall 2 ++ lockCall 2

theorem phantomFree_apart : ∃ d d', step indexedSetting d (look 2) = some d' ∧
    ScanHeld d 1 20 (.range (some (.int32 0)) (some (.int32 3)) true true) ∧
    d'.store.entries 20 ≠ d.store.entries 20 ∧
    PhantomFree d d' (look 2) 1 20 (.range (some (.int32 0)) (some (.int32 3)) true true) := by
  have traced : (exec (fun d label =>
      if orderly d label = true then step indexedSetting d label else none)
      (Database.start oneTuple) apartTrace).any (fun d =>
        decide (ScanHeld d 1 20 (.range (some (.int32 0)) (some (.int32 3)) true true)) &&
          orderly d (look 2) && (step indexedSetting d (look 2)).any
            fun d' => decide (d'.store.entries 20 ≠ d.store.entries 20)) = true := by
    decide +kernel
  obtain ⟨d, executed, found⟩ := (Option.any_eq_true _ _).mp traced
  obtain ⟨before, changed⟩ := Bool.and_eq_true_iff.mp found
  obtain ⟨isHeld, allowed⟩ := Bool.and_eq_true_iff.mp before
  obtain ⟨d', taken, differs⟩ := (Option.any_eq_true _ _).mp changed
  exact ⟨d, d', taken, of_decide_eq_true isHeld, of_decide_eq_true differs,
    (phantomFree (run_of_exec executed) allowed taken (by decide +kernel)).1⟩

end Phantoms

end GraniteDb.Storage.PhantomProtection
