/- Transactions that run table programs side by side under the lock manager. -/

import GraniteDb.Concurrency.HeldLocks
import GraniteDb.Storage.WriteLocks

namespace GraniteDb.Storage.Sessions

open Common.Types Common.Value Access.HeapFile Execution.Expressions Concurrency.HeldLocks
open Lib.Program Storage.TablePrograms Storage.WriteLocks
open Access.IndexScan (PrefixScanSpec)
open Execution.Operators (ScanMode)
open Concurrency.LockManager (LockMode QueueId KeyRange LockState isAbortPendingOrDone
  sameRange)
open Concurrency.StrictTwoPhase (IsKeyRange)
open Storage.Table (Store IndexCatalogEntry)
open Function (update_of_ne update_self)
open Option (bind_eq_bind bind_some map_eq_some_iff bind_eq_some_iff)

inductive Executor
  | genericIndexScan (index : IndexCatalogEntry) (spec : Option PrefixScanSpec)
  | indexNestedLoopJoin (index : IndexCatalogEntry) (keyExpr : Expression) (left : List LeftRow)
  | memoizedIndexNestedLoopJoin (index : IndexCatalogEntry) (keyExpr : Expression)
      (left : List LeftRow)
  deriving DecidableEq

def Executor.program (s : Setting) : Executor → Routine (List Row)
  | .genericIndexScan index spec => TablePrograms.genericIndexScan s index spec
  | .indexNestedLoopJoin index keyExpr left =>
    TablePrograms.indexNestedLoopJoin s index keyExpr left
  | .memoizedIndexNestedLoopJoin index keyExpr left =>
    TablePrograms.memoizedIndexNestedLoopJoin s index keyExpr [] left

/-- What a transaction may run on the table; `locks` stands for its other code, of which only
the lock calls matter here. -/
inductive Op
  | insert (row : Row)
  | delete (rid : RID)
  | update (rid : RID) (row : Row)
  | scan (indexRelationId : Nat) (mode : ScanMode)
  | execute (executor : Executor)
  | locks (calls : List LockCall)
  deriving DecidableEq

def Op.isWrite : Op → Bool
  | .insert _ | .delete _ | .update _ _ => true
  | _ => false

def Op.whole : Op → Bool
  | .insert _ | .update _ _ => true
  | _ => false

def Op.program (s : Setting) : Op → Routine (List Row)
  | .insert row => do
    let _ ← TablePrograms.insertTuple s row
    pure []
  | .delete rid => do
    let _ ← TablePrograms.deleteTuple s rid
    pure []
  | .update rid row => do
    let _ ← TablePrograms.updateTuple s rid row
    pure []
  | .scan i mode => do
    indexScanInit i mode
    pure []
  | .execute executor => executor.program s
  | .locks calls => do
    acquireLocks calls
    pure []

structure Running where
  op : Op
  program : Routine (List Row)

/-- What the log records of a change hold: the heap page before it, or the index pages, by their
entries and their versions before and after it. `whole`: it was made under the table's lock. -/
inductive Image
  | heap (pageNo : Nat) (before : HeapFile)
  | entries (index : Nat) (whole : Bool) (before : Multiset (List Value × RID)) (was now : Nat)

/-- `outputs` are the rows that executors returned to a transaction since its last write; `undo`
is the chain of log records from a transaction's `LastLSN` on, and `rollbacks` holds what each
`RollbackTransaction` under way has still to undo. -/
structure Database where
  locks : LockState
  store : Store
  running : Nat → Option Running
  outputs : Nat → List (Executor × List Row)
  versions : Nat → Nat
  undo : Nat → List Image
  rollbacks : Nat → List (List Image)

def Database.start (store : Store) : Database where
  locks := .empty
  store := store
  running := fun _ => none
  outputs := fun _ => []
  versions := fun _ => 0
  undo := fun _ => []
  rollbacks := fun _ => []

def overwriteRecord (s : Setting) (rid : RID) (row : Row) (store : Store) :
    Except String (Option Bool) × Store :=
  match s.fault store.clock, Access.HeapFile.encode row s.table.schema, store.heap.record rid with
  | some (.throws what), _, _ => (.error what, store.fail .heapUpdate)
  | some .returnsFalse, _, _ => (.ok none, store.fail .heapUpdate)
  | none, .error what, _ => (.error what, store.fail .heapUpdate)
  | none, .ok _, none => (.ok none, store.fail .heapUpdate)
  | none, .ok size, some old =>
    if size ≤ old.rawLen then
      (.ok (some true), { store.tick with
        heap := store.heap.put rid ⟨decoded s.table.schema row, old.rawLen⟩ })
    else (.ok (some false), store.tick)

def hitsOf (store : Store) (index : IndexCatalogEntry) (wanted : List Value → Bool) :
    Multiset RID :=
  ((store.entries index.indexRelationId).filter fun e => wanted e.1 = true).map Prod.snd

/-- A latched step. A search returns its hits in the order the index has them in. -/
def perform (s : Setting) (store : Store) (hits : List RID) :
    (r : Request) → Option (Reply r × Store)
  | .lock _ _ _ => none
  | .look => some (store, store.tick)
  | .search index wanted =>
    match s.fault store.clock with
    | some (.throws what) =>
      some (.error what, store.fail (.searchExact index.indexRelationId))
    | _ =>
      if (hits : Multiset RID) = hitsOf store index wanted then some (.ok hits, store.tick)
      else none
  | .insertEntry index key rid => some (Table.insertEntry s.toEnvironment index key rid store)
  | .deleteEntry index key rid => some (Table.deleteEntry s.toEnvironment index key rid store)
  | .insertRecord row => some (Table.heapInsert s.toEnvironment s.table.schema row store)
  | .deleteRecord rid => some (Table.heapDelete s.toEnvironment rid store)
  | .overwriteRecord rid row => some (overwriteRecord s rid row store)

def Database.imageOf (d : Database) (op : Op) : (r : Request) → Reply r → Option Image
  | .insertRecord _, .ok rid => some (.heap rid.pageNo d.store.heap)
  | .deleteRecord rid, .ok true => some (.heap rid.pageNo d.store.heap)
  | .overwriteRecord rid _, .ok (some true) => some (.heap rid.pageNo d.store.heap)
  | .insertEntry index _ _, .ok _ | .deleteEntry index _ _, .ok true =>
    some (.entries index.indexRelationId op.whole (d.store.entries index.indexRelationId)
      (d.versions index.indexRelationId) (d.store.clock + 1))
  | _, _ => none

def Database.versionsAfter (d : Database) : Option Image → Nat → Nat
  | some (.entries i _ _ _ now) => Function.update d.versions i now
  | _ => d.versions

/-- `ApplyImage` for the page images of one change. They put an index back to its old entries if
nobody has changed its pages since; if somebody has, or only some of the pages are back, `left` is
what it holds. -/
def Database.restore (d : Database) (left : Multiset (List Value × RID)) (more : Bool) :
    Image → Database
  | .heap pageNo before =>
    { d with store := { d.store.tick with heap := d.store.heap.restorePage pageNo before } }
  | .entries i _ before was now =>
    if d.versions i = now then
      { d with
        store := { d.store.tick with
          entries := Function.update d.store.entries i (if more then left else before) }
        versions := if more then d.versions else Function.update d.versions i was }
    else
      { d with
        store := { d.store.tick with entries := Function.update d.store.entries i left }
        versions := Function.update d.versions i (d.store.clock + 1) }

inductive LockStep
  | call
  | prepare
  | enqueue
  | wake
  deriving DecidableEq

def LockStep.label (t : Nat) (queue : QueueId) (range : Option KeyRange) (mode : LockMode) :
    LockStep → Concurrency.LockManager.Label
  | .call => .call t queue range mode
  | .prepare => .prepare t
  | .enqueue => .enqueue t
  | .wake => .wake t

inductive Label
  | start (t : Nat) (op : Op)
  | lock (t : Nat) (part : LockStep)
  | act (t : Nat) (hits : List RID)
  /-- Commit, abort and the deadlock worker. -/
  | manage (label : Concurrency.LockManager.Label)
  /-- `RollbackTransaction` begins. It finds no record where it has read the log before the
  transaction's own thread logged its last one. -/
  | rollback (t : Nat) (found : Bool)
  /-- The `n`-th rollback of `t` undoes its next record, or some pages of it if there are more. -/
  | undo (t n : Nat) (left : Multiset (List Value × RID)) (more : Bool)

/-- What the transaction manager and the deadlock worker do: an aborted transaction stays so, and
its locks are released after a rollback of it, also while it still runs something. -/
def managed (d : Database) : Concurrency.LockManager.Label → Bool
  | .setState t state =>
    (!isAbortPendingOrDone (d.locks.txnState t) || isAbortPendingOrDone state) &&
      (state != .aborted || (d.rollbacks t).any List.isEmpty)
  | .tryMarkAborting _ | .abortVictim _ => true
  | .releaseAll t =>
    if isAbortPendingOrDone (d.locks.txnState t) then
      d.locks.txnState t == .aborted && (d.rollbacks t).any List.isEmpty
    else (d.running t).isNone
  | _ => false

/-- A transaction that has released its locks is not rolled back again. -/
def Database.undoAfter (d : Database) :
    Concurrency.LockManager.Label → (Nat → List Image) × (Nat → List (List Image))
  | .releaseAll t => (Function.update d.undo t [],
      Function.update d.rollbacks t ((d.rollbacks t).eraseP List.isEmpty))
  | _ => (d.undo, d.rollbacks)

def releases (t : Nat) : Concurrency.LockManager.Label → Bool
  | .releaseAll u => u == t
  | _ => false

/-- The rows of a transaction that is aborted or has ended are compared with no others. -/
def Database.outputsAfter (d : Database) (locks : LockState)
    (label : Concurrency.LockManager.Label) (t : Nat) : List (Executor × List Row) :=
  if isAbortPendingOrDone (locks.txnState t) || releases t label then [] else d.outputs t

def Database.finish (d : Database) (t : Nat) (op : Op) (result : Except String (List Row)) :
    Database :=
  let outputs :=
    match op, result with
    | .execute executor, .ok rows =>
      if isAbortPendingOrDone (d.locks.txnState t) then d.outputs
      else Function.update d.outputs t ((executor, rows) :: d.outputs t)
    | _, _ => d.outputs
  { d with running := Function.update d.running t none, outputs := outputs }

def step (s : Setting) (d : Database) : Label → Option Database
  | .start t op =>
    if (d.running t).isNone then
      some { d with
        running := Function.update d.running t (some ⟨op, op.program s⟩)
        outputs := if op.isWrite then Function.update d.outputs t [] else d.outputs }
    else none
  | .lock t part =>
    match d.running t with
    | some ⟨op, .request (.lock queue range mode) next⟩ =>
      let label := part.label t queue range mode
      (Concurrency.LockManager.step d.locks label).map fun locks =>
        { d with
          locks := locks
          running :=
            match verdict d.locks label with
            | some reply => Function.update d.running t (some ⟨op, next reply⟩)
            | none => d.running
          outputs := d.outputsAfter locks label }
    | _ => none
  | .act t hits =>
    match d.running t with
    | some ⟨op, .ret result⟩ => some (d.finish t op result)
    | some ⟨op, .request r next⟩ =>
      (perform s d.store hits r).map fun done =>
        { d with
          store := done.2
          running := Function.update d.running t (some ⟨op, next done.1⟩)
          versions := d.versionsAfter (d.imageOf op r done.1)
          undo := Function.update d.undo t ((d.imageOf op r done.1).toList ++ d.undo t) }
    | none => none
  | .manage label =>
    if managed d label then
      (Concurrency.LockManager.step d.locks label).map fun locks =>
        { d with
          locks := locks
          outputs := d.outputsAfter locks label
          undo := (d.undoAfter label).1
          rollbacks := (d.undoAfter label).2 }
    else none
  | .rollback t found =>
    if d.locks.txnState t = .aborting ∧ (found ∨ (d.running t).isSome) then
      some { d with
        rollbacks := Function.update d.rollbacks t
          ((if found then d.undo t else []) :: d.rollbacks t) }
    else none
  | .undo t n left more =>
    match (d.rollbacks t)[n]? with
    | some (image :: rest) =>
      let undone := if more then image :: rest else rest
      -- The compensation record leads on to what is left.
      some { d.restore left more image with
        undo := Function.update d.undo t undone
        rollbacks := Function.update d.rollbacks t ((d.rollbacks t).set n undone) }
    | _ => none

section Calls

open Concurrency.LockManager (Call waitLoopPass setCall_calls_self setCall_calls_of_ne
  enterQueue tryMarkAborting)

variable {locks locks' : LockState} {t : Nat}

def Asks (call : Call) (queue : QueueId) (range : Option KeyRange) (mode : LockMode) : Prop :=
  call.queue = queue ∧ call.range = range ∧ call.mode = mode

/-- What a part of a lock call leaves: other transactions' calls are as they were, and its own
has ended exactly when it has returned. -/
structure CallStep (locks locks' : LockState) (t : Nat) (queue : QueueId)
    (range : Option KeyRange) (mode : LockMode) (reply : Option Bool) : Prop where
  others : ∀ u, u ≠ t → locks'.calls u = locks.calls u
  returned : ∀ b, reply = some b → locks'.calls t = none
  goesOn : reply = none → ∀ call, locks'.calls t = some call → Asks call queue range mode
  marked : ∀ u, isAbortPendingOrDone (locks.txnState u) = true →
    isAbortPendingOrDone (locks'.txnState u) = true

variable {mode : LockMode} {queue : QueueId} {range : Option KeyRange}

private theorem callStep_setCall (locks : LockState) (t : Nat) (b : Bool) :
    CallStep locks (locks.setCall t none) t queue range mode (some b) :=
  ⟨fun _ apart => setCall_calls_of_ne _ _ apart, fun _ _ => setCall_calls_self _ _ _,
    by rintro ⟨⟩, fun _ aborted => aborted⟩

private theorem tryMarkAborting_aborted {state : TransactionState}
    (aborted : isAbortPendingOrDone state = true) :
    isAbortPendingOrDone (tryMarkAborting state) = true := by
  cases state <;> first | rfl | cases aborted

private theorem update_marked {states : Nat → TransactionState} {t : Nat} {state : TransactionState}
    (own : isAbortPendingOrDone (states t) = true → isAbortPendingOrDone state = true) (u : Nat)
    (aborted : isAbortPendingOrDone (states u) = true) :
    isAbortPendingOrDone (Function.update states t state u) = true := by
  by_cases mine : u = t
  · subst mine
    rw [update_self]
    exact own aborted
  · rwa [update_of_ne mine]

private theorem callStep_pass {call : Call} (asks : Asks call queue range mode) :
    CallStep locks (waitLoopPass locks t call) t queue range mode
      (passVerdict locks t call) := by
  have way := pass_cases locks t call
  generalize waitLoopPass locks t call = locks', passVerdict locks t call = reply at way
  cases way with
  | lost _ => exact callStep_setCall locks t false
  | erased c _ _ =>
    refine ⟨fun u apart => ?_, fun _ _ => setCall_calls_self _ _ _, by rintro ⟨⟩,
      fun _ aborted => aborted⟩
    rw [setCall_calls_of_ne _ _ apart]
    rfl
  | granted c _ running _ =>
    refine ⟨fun u apart => update_of_ne apart _ _,
      fun _ _ => update_self _ _ _, by rintro ⟨⟩, update_marked ?_⟩
    intro aborted
    rw [running] at aborted
    cases aborted
  | waits c _ running =>
    refine ⟨fun u apart => ?_, by rintro _ ⟨⟩, ?_, update_marked ?_⟩
    · rw [setCall_calls_of_ne _ _ apart]
      rfl
    · intro _ call' isCall
      rw [setCall_calls_self] at isCall
      cases isCall
      exact asks
    · intro aborted
      rw [running] at aborted
      cases aborted

theorem callStep {part : LockStep}
    (asks : ∀ call, locks.calls t = some call → Asks call queue range mode)
    (taken : Concurrency.LockManager.step locks (part.label t queue range mode) = some locks') :
    CallStep locks locks' t queue range mode (verdict locks (part.label t queue range mode)) := by
  cases part with
  | call =>
    simp only [LockStep.label, Concurrency.LockManager.step] at taken
    simp only [LockStep.label, verdict]
    split at taken
    · rename_i free
      have idle : locks.calls t = none :=
        Option.isNone_iff_eq_none.mp (Bool.and_eq_true_iff.mp free).1
      split at taken
      · rename_i aborted
        cases taken
        rw [if_pos aborted]
        exact ⟨fun _ _ => rfl, fun _ _ => idle, by rintro ⟨⟩, fun _ marked => marked⟩
      · rename_i running
        cases taken
        rw [if_neg running]
        refine ⟨fun _ apart => setCall_calls_of_ne _ _ apart, by rintro _ ⟨⟩, ?_,
          fun _ marked => marked⟩
        intro _ call isCall
        rw [setCall_calls_self] at isCall
        cases isCall
        exact ⟨rfl, rfl, rfl⟩
    · cases taken
  | prepare =>
    simp only [LockStep.label, Concurrency.LockManager.step, bind_eq_bind,
      bind_eq_some_iff] at taken
    obtain ⟨call, isCall, next⟩ := taken
    simp only [LockStep.label, verdict, isCall, bind_eq_bind, bind_some]
    have goes (call' : Call) (asks' : Asks call' queue range mode) :
        CallStep locks (locks.setCall t (some call')) t queue range mode none := by
      refine ⟨fun _ apart => setCall_calls_of_ne _ _ apart, by rintro _ ⟨⟩, ?_,
        fun _ marked => marked⟩
      intro _ call'' isCall''
      rw [setCall_calls_self] at isCall''
      cases isCall''
      exact asks'
    split at next
    · split at next
      · rename_i uncovered
        cases next
        rw [if_pos uncovered]
        exact callStep_setCall locks t false
      · rename_i covered
        rw [if_neg covered]
        cases isHeld : Concurrency.LockManager.heldMode locks t call.queue with
        | none =>
          rw [isHeld] at next
          cases next
          exact goes _ (asks call isCall)
        | some held =>
          rw [isHeld] at next
          simp only at next ⊢
          split at next
          · rename_i satisfied
            cases next
            rw [if_pos satisfied]
            exact callStep_setCall locks t true
          · rename_i weak
            cases next
            rw [if_neg weak]
            exact goes _ (asks call isCall)
    · cases next
  | enqueue =>
    simp only [LockStep.label, Concurrency.LockManager.step, bind_eq_bind,
      bind_eq_some_iff] at taken
    obtain ⟨call, isCall, next⟩ := taken
    simp only [LockStep.label, verdict, isCall, bind_eq_bind, bind_some]
    cases phase : call.phase with
    | prepared held =>
      rw [phase] at next
      simp only at next ⊢
      cases queued : enterQueue (locks.queues call.queue) t call held with
      | none =>
        rw [queued] at next
        cases next
        exact callStep_setCall locks t false
      | some entry =>
        rw [queued] at next
        cases entry with
        | refused =>
          cases next
          refine ⟨fun u apart => ?_, fun _ _ => setCall_calls_self _ _ _, by rintro ⟨⟩,
            update_marked tryMarkAborting_aborted⟩
          rw [setCall_calls_of_ne _ _ apart]
          rfl
        | satisfied =>
          cases next
          exact callStep_setCall locks t true
        | queued entered =>
          cases next
          have passed : CallStep _ (waitLoopPass (locks.setQueue call.queue entered) t call)
              t queue range mode _ := callStep_pass (asks call isCall)
          exact ⟨passed.others, passed.returned, passed.goesOn, passed.marked⟩
    | checked | waiting =>
      rw [phase] at next
      cases next
  | wake =>
    simp only [LockStep.label, Concurrency.LockManager.step, bind_eq_bind,
      bind_eq_some_iff] at taken
    obtain ⟨call, isCall, next⟩ := taken
    simp only [LockStep.label, verdict, isCall, bind_eq_bind, bind_some]
    split at next
    · cases next
      exact callStep_pass (asks call isCall)
    · cases next

theorem managed_calls {d : Database} {label : Concurrency.LockManager.Label}
    (allowed : managed d label = true)
    (taken : Concurrency.LockManager.step d.locks label = some locks') :
    locks'.calls = d.locks.calls ∧ ∀ u, isAbortPendingOrDone (d.locks.txnState u) = true →
      isAbortPendingOrDone (locks'.txnState u) = true := by
  cases label with
  | call _ _ _ _ | prepare _ | enqueue _ | wake _ => cases allowed
  | setState t state =>
    cases taken
    refine ⟨rfl, update_marked ?_⟩
    intro aborted
    simpa [aborted] using (Bool.and_eq_true_iff.mp allowed).1
  | tryMarkAborting t =>
    cases taken
    exact ⟨rfl, update_marked tryMarkAborting_aborted⟩
  | abortVictim cycle =>
    simp only [Concurrency.LockManager.step] at taken
    split at taken
    · cases taken
    · split at taken
      · cases taken
        unfold Concurrency.LockManager.abortVictim
        split
        · exact ⟨rfl, fun _ marked => marked⟩
        · exact ⟨rfl, update_marked tryMarkAborting_aborted⟩
      · cases taken
  | releaseAll t =>
    cases taken
    exact ⟨rfl, fun _ marked => marked⟩

end Calls

section Steps

def Coherent (d : Database) : Prop :=
  ∀ t call, d.locks.calls t = some call → ∃ op next,
    d.running t = some ⟨op, .request (.lock call.queue call.range call.mode) next⟩

variable {s : Setting} {d d' : Database}

inductive Stepped (s : Setting) (d : Database) : Label → Database → Prop
  | start (t : Nat) (op : Op) (idle : d.running t = none) :
      Stepped s d (.start t op) { d with
        running := Function.update d.running t (some ⟨op, op.program s⟩)
        outputs := if op.isWrite then Function.update d.outputs t [] else d.outputs }
  | waits (t : Nat) (part : LockStep) (op : Op) (queue : QueueId) (range : Option KeyRange)
      (mode : LockMode) (next : Bool → Routine (List Row)) (locks : LockState)
      (isRunning : d.running t = some ⟨op, .request (.lock queue range mode) next⟩)
      (advanced : Concurrency.LockManager.step d.locks (part.label t queue range mode) = some locks)
      (stays : verdict d.locks (part.label t queue range mode) = none) :
      Stepped s d (.lock t part) { d with
        locks := locks, outputs := d.outputsAfter locks (part.label t queue range mode) }
  | returns (t : Nat) (part : LockStep) (op : Op) (queue : QueueId) (range : Option KeyRange)
      (mode : LockMode) (next : Bool → Routine (List Row)) (locks : LockState) (reply : Bool)
      (isRunning : d.running t = some ⟨op, .request (.lock queue range mode) next⟩)
      (advanced : Concurrency.LockManager.step d.locks (part.label t queue range mode) = some locks)
      (replied : verdict d.locks (part.label t queue range mode) = some reply) :
      Stepped s d (.lock t part) { d with
        locks := locks
        running := Function.update d.running t (some ⟨op, next reply⟩)
        outputs := d.outputsAfter locks (part.label t queue range mode) }
  | finishes (t : Nat) (hits : List RID) (op : Op) (result : Except String (List Row))
      (isRunning : d.running t = some ⟨op, .ret result⟩) :
      Stepped s d (.act t hits) (d.finish t op result)
  | acts (t : Nat) (hits : List RID) (op : Op) (r : Request)
      (next : Reply r → Routine (List Row)) (done : Reply r × Store)
      (isRunning : d.running t = some ⟨op, .request r next⟩)
      (performed : perform s d.store hits r = some done) :
      Stepped s d (.act t hits) { d with
        store := done.2
        running := Function.update d.running t (some ⟨op, next done.1⟩)
        versions := d.versionsAfter (d.imageOf op r done.1)
        undo := Function.update d.undo t ((d.imageOf op r done.1).toList ++ d.undo t) }
  | manages (label : Concurrency.LockManager.Label) (locks : LockState)
      (allowed : managed d label = true)
      (advanced : Concurrency.LockManager.step d.locks label = some locks) :
      Stepped s d (.manage label) { d with
        locks := locks
        outputs := d.outputsAfter locks label
        undo := (d.undoAfter label).1
        rollbacks := (d.undoAfter label).2 }
  | rollsBack (t : Nat) (found : Bool) (aborting : d.locks.txnState t = .aborting) :
      Stepped s d (.rollback t found) { d with
        rollbacks := Function.update d.rollbacks t
          ((if found then d.undo t else []) :: d.rollbacks t) }
  | undoes (t n : Nat) (left : Multiset (List Value × RID)) (more : Bool) (image : Image)
      (rest : List Image) (atHead : (d.rollbacks t)[n]? = some (image :: rest)) :
      Stepped s d (.undo t n left more) { d with
        store := (d.restore left more image).store
        versions := (d.restore left more image).versions
        undo := Function.update d.undo t (if more then image :: rest else rest)
        rollbacks := Function.update d.rollbacks t
          ((d.rollbacks t).set n (if more then image :: rest else rest)) }

theorem restore_frame (left : Multiset (List Value × RID)) (more : Bool) (image : Image) :
    d.restore left more image = { d with
      store := (d.restore left more image).store
      versions := (d.restore left more image).versions } := by
  cases image with
  | heap pageNo before => rfl
  | entries i whole before was now =>
    unfold Database.restore
    dsimp only
    split <;> rfl

theorem stepped {label : Label} (taken : step s d label = some d') : Stepped s d label d' := by
  cases label with
  | start t op =>
    simp only [step] at taken
    split at taken
    · rename_i idle
      cases taken
      exact .start t op (Option.isNone_iff_eq_none.mp idle)
    · cases taken
  | lock t part =>
    simp only [step] at taken
    split at taken
    · rename_i op queue range mode next isRunning
      obtain ⟨locks, advanced, isNext⟩ := map_eq_some_iff.mp taken
      subst isNext
      cases replied : verdict d.locks (part.label t queue range mode) with
      | none => exact .waits t part op queue range mode next locks isRunning advanced replied
      | some reply =>
        exact .returns t part op queue range mode next locks reply isRunning advanced replied
    · cases taken
  | act t hits =>
    simp only [step] at taken
    split at taken
    · rename_i op result isRunning
      cases taken
      exact .finishes t hits op result isRunning
    · rename_i op r next isRunning
      obtain ⟨done, performed, isNext⟩ := map_eq_some_iff.mp taken
      subst isNext
      exact .acts t hits op r next done isRunning performed
    · cases taken
  | manage label =>
    simp only [step] at taken
    split at taken
    · rename_i allowed
      obtain ⟨locks, advanced, isNext⟩ := map_eq_some_iff.mp taken
      subst isNext
      exact .manages label locks allowed advanced
    · cases taken
  | rollback t found =>
    simp only [step] at taken
    split at taken
    · rename_i aborting
      cases taken
      exact .rollsBack t found aborting.1
    · cases taken
  | undo t n left more =>
    simp only [step] at taken
    split at taken
    · rename_i image rest atHead
      cases taken
      rw [restore_frame]
      exact .undoes t n left more image rest atHead
    · cases taken

variable {t : Nat}

theorem Coherent.asks (coherent : Coherent d) {op : Op} {queue : QueueId} {range : Option KeyRange}
    {mode : LockMode} {next : Bool → Routine (List Row)}
    (isRunning : d.running t = some ⟨op, .request (.lock queue range mode) next⟩)
    (call : Concurrency.LockManager.Call) (isCall : d.locks.calls t = some call) :
    Asks call queue range mode := by
  obtain ⟨op', next', isRunning'⟩ := coherent t call isCall
  rw [isRunning] at isRunning'
  cases isRunning'
  exact ⟨rfl, rfl, rfl⟩

theorem Coherent.start (store : Store) : Coherent (Database.start store) := by
  rintro t call ⟨⟩

section

variable (coherent : Coherent d)

include coherent

private theorem Coherent.moves {running : Option Running}
    (idle : d.locks.calls t = none) (locks : d'.locks = d.locks)
    (moved : d'.running = Function.update d.running t running) : Coherent d' := by
  intro u call isCall
  rw [locks] at isCall
  have apart : u ≠ t := by
    rintro rfl
    rw [isCall] at idle
    cases idle
  obtain ⟨op, next, isRunning⟩ := coherent u call isCall
  rw [moved]
  exact ⟨op, next, (update_of_ne apart _ _).trans isRunning⟩

private theorem Coherent.idle
    (other : ∀ op queue range mode next, d.running t ≠ some ⟨op, .request (.lock queue range mode)
      next⟩) :
    d.locks.calls t = none := by
  cases isCall : d.locks.calls t with
  | none => rfl
  | some call =>
    obtain ⟨op, next, isRunning⟩ := coherent t call isCall
    exact absurd isRunning (other op _ _ _ next)

theorem Coherent.step {label : Label}
    (taken : Sessions.step s d label = some d') : Coherent d' := by
  cases stepped taken with
  | start t op idle =>
    refine coherent.moves (coherent.idle ?_) rfl rfl
    intro _ _ _ _ _ isRunning
    rw [idle] at isRunning
    cases isRunning
  | waits t part op queue range mode next locks isRunning advanced stays =>
    have after := callStep (coherent.asks isRunning) advanced
    intro u call isCall
    by_cases mine : u = t
    · subst mine
      obtain ⟨rfl, rfl, rfl⟩ := after.goesOn stays call isCall
      exact ⟨op, next, isRunning⟩
    · exact coherent u call ((after.others u mine).symm.trans isCall)
  | returns t part op queue range mode next locks reply isRunning advanced replied =>
    have after := callStep (coherent.asks isRunning) advanced
    intro u call isCall
    by_cases mine : u = t
    · subst mine
      have ended := after.returned reply replied
      rw [show locks.calls u = some call from isCall] at ended
      cases ended
    · obtain ⟨op', next', isRunning'⟩ :=
        coherent u call ((after.others u mine).symm.trans isCall)
      exact ⟨op', next', (update_of_ne mine _ _).trans isRunning'⟩
  | finishes t hits op result isRunning =>
    refine coherent.moves (coherent.idle ?_) rfl rfl
    intro _ _ _ _ _ isRunning'
    rw [isRunning] at isRunning'
    cases isRunning'
  | acts t hits op r next done isRunning performed =>
    refine coherent.moves (coherent.idle ?_) rfl rfl
    intro _ _ _ _ _ isRunning'
    rw [isRunning] at isRunning'
    cases isRunning'
    cases performed
  | manages label locks allowed advanced =>
    intro u call isCall
    exact coherent u call ((congrFun (managed_calls allowed advanced).1 u).symm.trans isCall)
  | rollsBack | undoes => exact coherent

theorem Coherent.granted {q : QueueId} (sound : Sound q d.locks)
    (known : IsKeyRange q ∨ (q.isTable = true ∧ Backed q d.locks)) {t : Nat} {part : LockStep}
    {op : Op} {range : Option KeyRange} {mode : LockMode} {next : Bool → Routine (List Row)}
    {locks : LockState}
    (isRunning : d.running t = some ⟨op, .request (.lock q range mode) next⟩)
    (taken : Concurrency.LockManager.step d.locks (part.label t q range mode) = some locks)
    (replied : verdict d.locks (part.label t q range mode) = some true) :
    ∃ r ∈ (locks.queues q).requests, r.txnId = t ∧ r.granted = true ∧
      (mode = .x → r.mode = .x) ∧ sameRange r.range range = some true := by
  have own : part.label t q range mode = .prepare t ∨ part.label t q range mode = .enqueue t ∨
      part.label t q range mode = .wake t := by
    cases part with
    | call =>
      simp only [LockStep.label, verdict] at replied
      split at replied <;> cases replied
    | prepare => exact .inl rfl
    | enqueue => exact .inr (.inl rfl)
    | wake => exact .inr (.inr rfl)
  obtain ⟨call, isCall⟩ : ∃ call, d.locks.calls t = some call := by
    cases isCall : d.locks.calls t with
    | some call => exact ⟨call, rfl⟩
    | none =>
      rcases own with isPart | isPart | isPart <;>
        simp [isPart, verdict, isCall] at replied
  obtain ⟨rfl, rfl, rfl⟩ := coherent.asks isRunning call isCall
  exact sound.reported isCall own known taken replied

end

def changedEntry : Request → Option (Nat × List Value × RID)
  | .insertEntry index key rid | .deleteEntry index key rid =>
    some (index.indexRelationId, key, rid)
  | _ => none

theorem perform_entries {store : Store} {hits : List RID} {r : Request} {done : Reply r × Store}
    (performed : perform s store hits r = some done) (j : Nat) (entry : List Value × RID)
    (other : changedEntry r ≠ some (j, entry)) :
    (done.2.entries j).count entry = (store.entries j).count entry := by
  cases r with
  | lock _ _ _ => cases performed
  | look =>
    cases performed
    rfl
  | search index wanted =>
    simp only [perform] at performed
    split at performed
    · cases performed
      rfl
    · split at performed
      · cases performed
        rfl
      · cases performed
  | insertEntry index key rid =>
    cases performed
    have apart : (j, entry) ≠ (index.indexRelationId, key, rid) :=
      fun same => other (congrArg some same.symm)
    unfold Table.insertEntry
    split
    · rfl
    · rfl
    · rw [Lib.Ledger.count_put, if_neg apart, Nat.add_zero]
  | deleteEntry index key rid =>
    cases performed
    have apart : (j, entry) ≠ (index.indexRelationId, key, rid) :=
      fun same => other (congrArg some same.symm)
    unfold Table.deleteEntry
    split
    · rfl
    · rfl
    · rfl
    · split
      · rename_i present
        have counted := Lib.Ledger.count_take present j entry
        rw [if_neg apart, Nat.add_zero] at counted
        exact counted
      · rfl
  | insertRecord row =>
    cases performed
    unfold Table.heapInsert
    split
    · rfl
    · rfl
    · split
      · rfl
      · split <;> rfl
  | deleteRecord rid =>
    cases performed
    unfold Table.heapDelete
    split
    · rfl
    · rfl
    · split <;> rfl
  | overwriteRecord rid row =>
    cases performed
    unfold overwriteRecord
    split
    · rfl
    · rfl
    · rfl
    · rfl
    · split <;> rfl

end Steps

section Rules

variable {s : Setting} {plain : Option KeyRange → Prop}

def everything : Known plain := ⟨fun _ _ _ => True, fun _ _ _ _ _ _ _ _ => trivial⟩

def KeepsRules (s : Setting) (k : Known plain) (r : Running) : Prop :=
  if r.op.isWrite then Program.Meets (writeContract s plain r.op.whole) r.program k fun _ _ => True
  else Program.Meets (readContract s plain false) r.program everything fun _ _ => True

variable {k : Known plain}

private theorem meets_of_does {α : Type} {c : Contract Request Reply (Known plain)} {p : Routine α}
    (does : Does c p k fun _ _ => True) :
    Program.Meets c p k fun _ _ => True :=
  Meets.weaken does fun _ _ _ _ => trivial

theorem keepsRules_start (k : Known plain) (op : Op) : KeepsRules s k ⟨op, op.program s⟩ := by
  unfold KeepsRules
  cases op with
  | insert row => exact meets_of_does (does_bind does_insertTuple fun _ _ _ _ => does_pure trivial)
  | delete rid => exact meets_of_does (does_bind does_deleteTuple fun _ _ _ _ => does_pure trivial)
  | update rid row =>
    exact meets_of_does (does_bind does_updateTuple fun _ _ _ _ => does_pure trivial)
  | scan j mode =>
    exact meets_of_does
      (does_bind (does_indexScanInit ordinary_read) fun _ _ _ _ => does_pure trivial)
  | locks calls =>
    exact meets_of_does
      (does_bind (does_acquireLocks ordinary_read) fun _ _ _ _ => does_pure trivial)
  | execute executor =>
    cases executor with
    | genericIndexScan index spec =>
      refine meets_of_does (does_bind (does_lock ordinary_read) fun _ _ reply _ => ?_)
      cases reply with
      | true =>
        refine does_bind (does_ask (by rintro ⟨⟩) fun _ _ _ => trivial) fun _ _ _ _ => ?_
        refine does_bind (m := fun _ _ => True) (does_ofExcept fun _ _ => trivial)
          fun _ _ _ _ => ?_
        exact does_fetchTuples ordinary_read
      | false => exact does_throwing
    | indexNestedLoopJoin index keyExpr left => exact meets_of_does does_indexNestedLoopJoin
    | memoizedIndexNestedLoopJoin index keyExpr left =>
      exact meets_of_does does_memoizedIndexNestedLoopJoin

theorem KeepsRules.grow {k k' : Known plain} {r : Running} (rules : KeepsRules s k r)
    (grown : r.op.isWrite = true → k ≤ k') : KeepsRules s k' r := by
  unfold KeepsRules at rules ⊢
  split
  · rename_i isWrite
    rw [if_pos isWrite] at rules
    exact Meets.grow (grown isWrite) (fun _ _ _ _ _ => trivial) rules
  · rename_i isRead
    rwa [if_neg isRead] at rules

private theorem KeepsRules.moves {k' : Known plain} {op : Op} {r : Request}
    {next : Reply r → Routine (List Row)} {reply : Reply r}
    (rules : KeepsRules s k ⟨op, .request r next⟩)
    (learned : op.isWrite = true → Learned k r reply k')
    (plainly : Learned (everything : Known plain) r reply everything) :
    KeepsRules s k' ⟨op, next reply⟩ := by
  unfold KeepsRules at rules ⊢
  split
  · rename_i isWrite
    rw [if_pos isWrite] at rules
    exact rules.2 reply _ (learned isWrite)
  · rename_i isRead
    rw [if_neg isRead] at rules
    exact rules.2 reply _ plainly

private theorem learned_perform {k' : Known plain} {r : Request} {store : Store} {hits : List RID}
    {done : Reply r × Store} (performed : perform s store hits r = some done) (grown : k ≤ k') :
    Learned k r done.1 k' := by
  refine ⟨grown, ?_⟩
  cases r with
  | lock _ _ _ => cases performed
  | _ => trivial

theorem rules_step {k k' : Nat → Known plain} {d d' : Database} {label : Label}
    (rules : ∀ t r, d.running t = some r → KeepsRules s (k t) r)
    (grown : ∀ t r, d.running t = some r → r.op.isWrite = true → k t ≤ k' t)
    (taught : ∀ t part op queue range mode next reply, label = .lock t part →
      d.running t = some ⟨op, .request (.lock queue range mode) next⟩ →
        verdict d.locks (part.label t queue range mode) = some reply →
          plain range ∧ (reply = true → (k' t).1 queue range mode))
    (taken : step s d label = some d') (t : Nat) (r : Running) (isRunning : d'.running t = some r) :
    KeepsRules s (k' t) r := by
  have stays (same : d.running t = some r) : KeepsRules s (k' t) r :=
    (rules t r same).grow (grown t r same)
  cases stepped taken with
  | start u op idle =>
    by_cases mine : t = u
    · subst mine
      cases (update_self t (some (Running.mk op (op.program s))) d.running).symm.trans
        isRunning
      exact keepsRules_start _ _
    · exact stays ((update_of_ne mine _ _).symm.trans isRunning)
  | waits | manages | rollsBack | undoes => exact stays isRunning
  | returns u part op queue range mode next locks reply isRunning' advanced replied =>
    by_cases mine : t = u
    · subst mine
      cases (update_self t (some (Running.mk op (next reply))) d.running).symm.trans
        isRunning
      have learned := taught t part op queue range mode next reply rfl isRunning' replied
      exact (rules t _ isRunning').moves
        (fun isWrite => ⟨grown t _ isRunning' isWrite, learned⟩)
        ⟨le_rfl, learned.1, fun _ => trivial⟩
    · exact stays ((update_of_ne mine _ _).symm.trans isRunning)
  | finishes u hits op result isRunning' =>
    by_cases mine : t = u
    · subst mine
      have ended : (d.finish t op result).running t = none := update_self _ _ _
      rw [ended] at isRunning
      cases isRunning
    · exact stays ((update_of_ne mine _ _).symm.trans isRunning)
  | acts u hits op request next done isRunning' performed =>
    by_cases mine : t = u
    · subst mine
      cases (update_self t (some (Running.mk op (next done.1))) d.running).symm.trans
        isRunning
      exact (rules t _ isRunning').moves
        (fun isWrite => learned_perform performed (grown t _ isRunning' isWrite))
        (learned_perform performed le_rfl)
    · exact stays ((update_of_ne mine _ _).symm.trans isRunning)

end Rules

end GraniteDb.Storage.Sessions
