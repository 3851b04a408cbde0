/- Index executors return the same rows again while nobody takes their entries away. -/

import GraniteDb.Storage.PhantomProtection
import GraniteDb.Storage.ReadSets

namespace GraniteDb.Storage.RepeatableReads

open Common.Types Common.Value Concurrency.HeldLocks Concurrency.QueueChanges Lib.GuardedRun
open Lib.Program Storage.TablePrograms Storage.WriteLocks Storage.Sessions Storage.ReadSets
open Concurrency.LockManager (LockMode QueueId KeyRange LockState isAbortPendingOrDone)
open Storage.Table (Store IndexCatalogEntry)
open Storage.PhantomProtection (indexedSetting oneTuple lockCall look)
open Function (update_of_ne update_self)

structure Looked where
  txn : Nat
  index : IndexCatalogEntry
  wanted : List Value → Bool

/-- The database, with the searches of the transactions that read. -/
structure Watched where
  db : Database
  looked : List Looked

def Watched.start (store : Store) : Watched := ⟨Database.start store, []⟩

/-- A transaction reads from its first executor on until it writes or ends. -/
def reading (d : Database) (t : Nat) : Bool :=
  !isAbortPendingOrDone (d.locks.txnState t) && (!(d.outputs t).isEmpty ||
    (d.running t).any fun r => match r.op with
      | .execute _ => true
      | _ => false)

def nextRequest : Routine (List Row) → Option Request
  | .request r _ => some r
  | .ret _ => none

def searched (d : Database) : Label → List Looked
  | .act t _ =>
    match (d.running t).bind fun r => nextRequest r.program with
    | some (.search index wanted) => [⟨t, index, wanted⟩]
    | _ => []
  | _ => []

def watch (s : Setting) (w : Watched) (label : Label) : Option Watched :=
  (step s w.db label).map fun d =>
    ⟨d, (searched w.db label ++ w.looked).filter fun l => reading d l.txn⟩

abbrev heapQueue (s : Setting) : QueueId := .table s.relationId

instance (queue : Concurrency.LockManager.LockRequestQueue) (t : Nat) :
    Decidable (Foothold queue t) :=
  inferInstanceAs (Decidable (∃ r ∈ _, _))

/-- Another transaction's entry goes or comes only where its finder has a lock on the table, and not
in a delete, which has none yet that would stand against it. -/
def leavesSearches (s : Setting) (w : Watched) (u : Nat) (op : Op)
    (change : Nat × List Value × RID) : Bool :=
  w.looked.all fun l =>
    l.txn == u || l.index.indexRelationId != change.1 || !l.wanted change.2.1 ||
      (op.whole && decide (Foothold (w.db.locks.queues (heapQueue s)) l.txn))

def underTable : Image → Bool
  | .heap _ _ => true
  | .entries _ whole _ _ _ => whole

/-- A rollback may change what another transaction has found only as its writes may. -/
def restoresSearches (s : Setting) (w : Watched) (left : Multiset (List Value × RID)) (more : Bool)
    (image : Image) : Bool :=
  w.looked.all fun l =>
    decide (hitsOf (w.db.restore left more image).store l.index l.wanted =
      hitsOf w.db.store l.index l.wanted) ||
      (underTable image && decide (Foothold (w.db.locks.queues (heapQueue s)) l.txn))

/-- No entry that a transaction has looked for is changed by a delete or its rollback, or while it
has no lock on the table; no index leads past the end of the heap file; and locks are not released
during their transaction's table write or another rollback of it. -/
def undisturbed (s : Setting) (w : Watched) : Label → Bool
  | .act u hits =>
    (w.db.running u).all fun r => (nextRequest r.program).all fun
      | .search _ _ => hits.all fun rid => decide (rid.pageNo < w.db.store.heap.slots.length)
      | request => (changedEntry request).all (leavesSearches s w u r.op)
  | .manage (.releaseAll u) =>
    ((w.db.running u).all fun r => !r.op.isWrite) && (w.db.rollbacks u).all List.isEmpty
  | .undo u n left more =>
    ((w.db.rollbacks u)[n]?.bind List.head?).all (restoresSearches s w left more)
  | _ => true

section Invariant

def HoldsTable (s : Setting) (locks : LockState) (t : Nat) : Prop :=
  ∃ r ∈ (locks.queues (heapQueue s)).requests, r.txnId = t ∧ r.granted = true ∧ r.mode = .x

def known (s : Setting) (locks : LockState) (t : Nat) : Known fun _ => True where
  val q _ mode := q = heapQueue s → mode = .x → HoldsTable s locks t
  property := by
    rintro i key key' - - - - - ⟨⟩

def sight (s : Setting) (w : Watched) (t : Nat) : Sight where
  possible store :=
    (∀ l ∈ w.looked, l.txn = t →
      hitsOf store l.index l.wanted = hitsOf w.db.store l.index l.wanted) ∧
    w.db.store.heap.slots.length ≤ store.heap.slots.length ∧
    (Foothold (w.db.locks.queues (heapQueue s)) t → store.heap = w.db.store.heap)
  onTable := Foothold (w.db.locks.queues (heapQueue s)) t

/-- What an executor returns is right for every store its transaction can still meet. -/
def Right (s : Setting) (executor : Executor) (k : Sight) (result : Except String (List Row)) :
    Prop :=
  ∀ rows, result = .ok rows → ∀ store, k.possible store →
    (rows : Multiset Row) = rowsOf s store executor

/-- The images that a rollback of a transaction may still restore. -/
def Logged (d : Database) (t : Nat) (image : Image) : Prop :=
  image ∈ d.undo t ∨ ∃ records ∈ d.rollbacks t, image ∈ records

structure Inv (s : Setting) (w : Watched) : Prop where
  coherent : Coherent w.db
  sound : Sound (heapQueue s) w.db.locks
  backed : Backed (heapQueue s) w.db.locks
  rules : ∀ t r, w.db.running t = some r → KeepsRules s (known s w.db.locks t) r
  quiet : ∀ t r, w.db.running t = some r → r.op.isWrite = true → w.db.outputs t = []
  fresh : ∀ t, w.db.outputs t ≠ [] → isAbortPendingOrDone (w.db.locks.txnState t) = false
  reads : ∀ t executor program, w.db.running t = some ⟨.execute executor, program⟩ →
    isAbortPendingOrDone (w.db.locks.txnState t) = false →
      program.Meets (sightContract s) (sight s w t) (Right s executor)
  outputs : ∀ t executor rows, (executor, rows) ∈ w.db.outputs t →
    Right s executor (sight s w t) (.ok rows)
  logged : ∀ t image, Logged w.db t image → underTable image = true → HoldsTable s w.db.locks t
  rolled : ∀ t, w.db.rollbacks t ≠ [] → isAbortPendingOrDone (w.db.locks.txnState t) = true

variable {s : Setting} {w w' : Watched}

theorem Inv.start (store : Store) : Inv s (Watched.start store) where
  coherent := .start store
  sound := .empty _
  backed := .empty _
  rules := by rintro _ _ ⟨⟩
  quiet := by rintro _ _ ⟨⟩
  fresh _ some := (some rfl).elim
  reads := by rintro _ _ _ ⟨⟩
  outputs := by rintro _ _ _ ⟨⟩
  logged _ _ logged := by
    obtain inUndo | ⟨_, among, _⟩ := logged
    · exact absurd inUndo List.not_mem_nil
    · exact absurd among List.not_mem_nil
  rolled _ some := (some rfl).elim

end Invariant

section Stores

variable {s : Setting} {store : Store} {hits : List RID} {r : Request} {done : Reply r × Store}

theorem hitsOf_congr {store' : Store} {index : IndexCatalogEntry} {wanted : List Value → Bool}
    (same : ∀ entry : List Value × RID, wanted entry.1 = true →
      (store'.entries index.indexRelationId).count entry =
        (store.entries index.indexRelationId).count entry) :
    hitsOf store' index wanted = hitsOf store index wanted := by
  have filtered : (store'.entries index.indexRelationId).filter (fun e => wanted e.1 = true) =
      (store.entries index.indexRelationId).filter fun e => wanted e.1 = true := by
    ext entry
    rw [Multiset.count_filter, Multiset.count_filter]
    split
    · rename_i isWanted
      exact same entry isWanted
    · rfl
  unfold hitsOf
  rw [filtered]

def changesHeap : Request → Bool
  | .insertRecord _ | .deleteRecord _ | .overwriteRecord _ _ => true
  | _ => false

theorem perform_heap (performed : perform s store hits r = some done) :
    store.heap.slots.length ≤ done.2.heap.slots.length ∧
      (changesHeap r = false → done.2.heap = store.heap) := by
  have put (rid : RID) (record : Access.HeapFile.HeapRecord) :
      store.heap.slots.length ≤ (store.heap.put rid record).slots.length := by
    show _ ≤ (Access.HeapFile.cover _ _).length
    unfold Access.HeapFile.cover
    rw [List.length_modify, List.length_append]
    omega
  cases r with
  | lock _ _ _ => cases performed
  | look =>
    cases performed
    exact ⟨le_rfl, fun _ => rfl⟩
  | search index wanted =>
    simp only [perform] at performed
    split at performed
    · cases performed
      exact ⟨le_rfl, fun _ => rfl⟩
    · split at performed
      · cases performed
        exact ⟨le_rfl, fun _ => rfl⟩
      · cases performed
  | insertEntry index key rid =>
    cases performed
    unfold Table.insertEntry
    split <;> exact ⟨le_rfl, fun _ => rfl⟩
  | deleteEntry index key rid =>
    cases performed
    unfold Table.deleteEntry
    split
    · exact ⟨le_rfl, fun _ => rfl⟩
    · exact ⟨le_rfl, fun _ => rfl⟩
    · exact ⟨le_rfl, fun _ => rfl⟩
    · split <;> exact ⟨le_rfl, fun _ => rfl⟩
  | insertRecord row =>
    cases performed
    refine ⟨?_, by rintro ⟨⟩⟩
    unfold Table.heapInsert
    split
    · exact le_rfl
    · exact le_rfl
    · split
      · exact le_rfl
      · split
        · exact le_rfl
        · exact put _ _
  | deleteRecord rid =>
    cases performed
    refine ⟨?_, by rintro ⟨⟩⟩
    unfold Table.heapDelete
    split
    · exact le_rfl
    · exact le_rfl
    · split <;> exact le_rfl
  | overwriteRecord rid row =>
    cases performed
    refine ⟨?_, by rintro ⟨⟩⟩
    unfold overwriteRecord
    split
    · exact le_rfl
    · exact le_rfl
    · exact le_rfl
    · exact le_rfl
    · split
      · exact put _ _
      · exact le_rfl

end Stores

section Locks

variable {s : Setting} {w : Watched} {d : Database}

structure LocksKept (s : Setting) (before after : Database) (label : Label) : Prop where
  sound : Sound (heapQueue s) after.locks
  backed : Backed (heapQueue s) after.locks
  marked : ∀ t, isAbortPendingOrDone (before.locks.txnState t) = true →
    isAbortPendingOrDone (after.locks.txnState t) = true
  foothold : ∀ t, Foothold (before.locks.queues (heapQueue s)) t →
    label ≠ .manage (.releaseAll t) → isAbortPendingOrDone (after.locks.txnState t) = false →
      Foothold (after.locks.queues (heapQueue s)) t
  exclusive : ∀ t, HoldsTable s before.locks t → label ≠ .manage (.releaseAll t) →
    HoldsTable s after.locks t

private theorem locksKept_of_step {label : Label} {lockLabel : Concurrency.LockManager.Label}
    (sound : Sound (heapQueue s) w.db.locks) (backed : Backed (heapQueue s) w.db.locks)
    (fits : ∀ t range mode, lockLabel = .call t (heapQueue s) range mode →
      Fits (heapQueue s) range)
    (keeps : keepsAborts w.db.locks lockLabel)
    (marked : ∀ t, isAbortPendingOrDone (w.db.locks.txnState t) = true →
      isAbortPendingOrDone (d.locks.txnState t) = true)
    (released : ∀ t, lockLabel = .releaseAll t → label = .manage (.releaseAll t))
    (advanced : Concurrency.LockManager.step w.db.locks lockLabel = some d.locks) :
    LocksKept s w.db d label := by
  obtain ⟨sound', changes⟩ := sound.step fits advanced
  refine ⟨sound', backed.step sound rfl keeps advanced, marked, ?_, ?_⟩
  · intro t foothold kept running
    refine changes.keeps_foothold foothold (fun ended => kept (released t ended)) ?_
    rw [running]
    exact Bool.false_ne_true
  · rintro t ⟨r, member, mine, granted, isX⟩ kept
    refine ⟨r, changes.keeps_exclusive member granted isX (fun ended => ?_), mine, granted, isX⟩
    rw [mine] at ended
    exact kept (released t ended)

private theorem fits_of_call {t : Nat} {part : LockStep} {queue : QueueId}
    {range : Option KeyRange} {mode : LockMode} {locks locks' : LockState}
    (advanced : Concurrency.LockManager.step locks (part.label t queue range mode) = some locks')
    (u : Nat) (range' : Option KeyRange) (mode' : LockMode)
    (isCall : part.label t queue range mode = .call u (heapQueue s) range' mode') :
    Fits (heapQueue s) range' := by
  cases part with
  | call =>
    cases isCall
    simp only [LockStep.label, Concurrency.LockManager.step] at advanced
    split at advanced
    · rename_i free
      exact Option.isNone_iff_eq_none.mp (Bool.and_eq_true_iff.mp free).2
    · cases advanced
  | prepare | enqueue | wake => cases isCall

theorem Inv.locksKept {label : Label} (inv : Inv s w) (taken : step s w.db label = some d) :
    LocksKept s w.db d label := by
  have same (sameLocks : d.locks = w.db.locks) : LocksKept s w.db d label := by
    refine ⟨?_, ?_, ?_, ?_, ?_⟩ <;> rw [sameLocks]
    · exact inv.sound
    · exact inv.backed
    · exact fun _ aborted => aborted
    · exact fun _ held _ _ => held
    · exact fun _ held _ => held
  have called {t : Nat} {part : LockStep} {op : Op} {queue : QueueId}
      {range : Option KeyRange} {mode : LockMode} {next : Bool → Routine (List Row)}
      (isRunning : w.db.running t = some ⟨op, .request (.lock queue range mode) next⟩)
      (advanced : Concurrency.LockManager.step w.db.locks (part.label t queue range mode) =
        some d.locks) : LocksKept s w.db d label := by
    refine locksKept_of_step inv.sound inv.backed (fits_of_call advanced) ?_
      (callStep (inv.coherent.asks isRunning) advanced).marked ?_ advanced
    · intro u state isSet
      cases part <;> cases isSet
    · intro u ended
      cases part <;> cases ended
  cases stepped taken with
  | start | finishes | acts | rollsBack | undoes => exact same rfl
  | waits t part op queue range mode next locks isRunning advanced stays =>
    exact called isRunning advanced
  | returns t part op queue range mode next locks reply isRunning advanced replied =>
    exact called isRunning advanced
  | manages lockLabel locks allowed advanced =>
    refine locksKept_of_step inv.sound inv.backed ?_ ?_ (managed_calls allowed advanced).2 ?_
      advanced
    · rintro t range mode rfl
      cases allowed
    · rintro t state rfl aborted
      simpa [aborted] using (Bool.and_eq_true_iff.mp allowed).1
    · rintro t rfl
      rfl

theorem restore_heap (d : Database) (left : Multiset (List Value × RID)) (more : Bool)
    (image : Image) :
    (d.restore left more image).store.heap.slots.length = d.store.heap.slots.length ∧
      (underTable image = false → (d.restore left more image).store.heap = d.store.heap) := by
  cases image with
  | heap pageNo before => exact ⟨List.length_set, by rintro ⟨⟩⟩
  | entries i whole before was now =>
    unfold Database.restore
    dsimp only
    split <;> exact ⟨rfl, fun _ => rfl⟩

end Locks

section Steps

variable {s : Setting} {w w' : Watched} {d : Database} {label : Label}

theorem Inv.writes (inv : Inv s w) {u : Nat} {op : Op} {r : Request}
    {next : Reply r → Routine (List Row)}
    (isRunning : w.db.running u = some ⟨op, .request r next⟩) :
    (∀ change, changedEntry r = some change →
      op.isWrite = true ∧ (op.whole = true → HoldsTable s w.db.locks u)) ∧
    (changesHeap r = true → op.isWrite = true ∧ HoldsTable s w.db.locks u) := by
  have rules := inv.rules u _ isRunning
  unfold KeepsRules at rules
  cases r with
  | lock _ _ _ | look | search _ _ => exact ⟨by rintro _ ⟨⟩, by rintro ⟨⟩⟩
  | insertEntry index key rid | deleteEntry index key rid =>
    refine ⟨fun _ _ => ?_, by rintro ⟨⟩⟩
    split at rules
    · rename_i isWrite
      exact ⟨isWrite, fun isWhole => rules.1.2 isWhole rfl rfl⟩
    · exact rules.1.elim
  | insertRecord _ | deleteRecord _ | overwriteRecord _ _ =>
    refine ⟨by rintro _ ⟨⟩, fun _ => ?_⟩
    split at rules
    · rename_i isWrite
      exact ⟨isWrite, rules.1 rfl rfl⟩
    · exact rules.1.elim

variable {t : Nat}

private theorem Inv.not_reading (inv : Inv s w) {r r' : Running}
    (isRunning : w.db.running t = some r) (isWrite : r.op.isWrite = true)
    (goesOn : d.running t = some r') (sameOp : r'.op = r.op)
    (outputs : d.outputs t = w.db.outputs t) : reading d t = false := by
  have none := inv.quiet t r isRunning isWrite
  unfold reading
  rw [outputs, none, goesOn]
  cases isOp : r.op <;> simp_all [Op.isWrite]

private theorem Inv.not_held (inv : Inv s w) {u : Nat}
    (foothold : Foothold (w.db.locks.queues (heapQueue s)) t) (apart : t ≠ u) :
    ¬HoldsTable s w.db.locks u := by
  rintro ⟨r, member, mine, granted, isX⟩
  refine inv.sound.queue.not_exclusive rfl foothold member granted ?_ isX
  rw [mine]
  exact apart.symm

structure Leaves (s : Setting) (w : Watched) (d : Database) (t : Nat) : Prop where
  found : ∀ l ∈ w.looked, l.txn = t →
    hitsOf d.store l.index l.wanted = hitsOf w.db.store l.index l.wanted
  longer : w.db.store.heap.slots.length ≤ d.store.heap.slots.length
  heap : Foothold (w.db.locks.queues (heapQueue s)) t → d.store.heap = w.db.store.heap

theorem Inv.leaves (inv : Inv s w) (allowed : undisturbed s w label = true)
    (taken : step s w.db label = some d) (reads : reading d t = true) :
    Leaves s w d t := by
  cases stepped taken with
  | start | waits | returns | finishes | manages | rollsBack =>
    exact ⟨fun _ _ _ => rfl, le_rfl, fun _ => rfl⟩
  | undoes u n left more image rest atHead =>
    have among := List.mem_of_getElem? atHead
    have apart : t ≠ u := by
      rintro rfl
      have aborted := inv.rolled t (List.ne_nil_of_mem among)
      simp [reading, aborted] at reads
    have holds := inv.logged u image (.inr ⟨_, among, List.mem_cons_self⟩)
    obtain ⟨longer, sameHeap⟩ := restore_heap w.db left more image
    refine ⟨fun l member mine => ?_, longer.ge, fun foothold => sameHeap ?_⟩
    · simp only [undisturbed, atHead, Option.bind_some, List.head?_cons, Option.all_some]
        at allowed
      have one := List.all_eq_true.mp allowed l member
      simp only [Bool.or_eq_true, Bool.and_eq_true, decide_eq_true_iff] at one
      obtain same | ⟨locked, foothold⟩ := one
      · exact same
      · exact (inv.not_held foothold (mine ▸ apart) (holds locked)).elim
    · exact Bool.eq_false_iff.mpr fun locked => inv.not_held foothold apart (holds locked)
  | acts u hits op r next done isRunning performed =>
    have writes := inv.writes isRunning
    have apart (isWrite : op.isWrite = true) : t ≠ u := by
      rintro rfl
      exact absurd reads (Bool.eq_false_iff.mp (inv.not_reading isRunning isWrite
        (show _ = some ⟨op, next done.1⟩ from update_self _ _ _) rfl rfl))
    obtain ⟨longer, sameHeap⟩ := perform_heap performed
    refine ⟨?_, longer, ?_⟩
    · intro l member mine
      refine hitsOf_congr fun entry isWanted => ?_
      refine perform_entries performed l.index.indexRelationId entry fun changes => ?_
      obtain ⟨isWrite, holds⟩ := writes.1 _ changes
      have guarded : leavesSearches s w u op (l.index.indexRelationId, entry) = true := by
        simp only [undisturbed, isRunning, nextRequest, Option.all_some] at allowed
        cases r with
        | insertEntry _ _ _ | deleteEntry _ _ _ =>
          rw [← Option.some.inj changes]
          exact allowed
        | lock _ _ _ | look | search _ _ | insertRecord _ | deleteRecord _
          | overwriteRecord _ _ => cases changes
      have one := List.all_eq_true.mp guarded l member
      have other : l.txn ≠ u := by
        rw [mine]
        exact apart isWrite
      have freed : op.whole = true ∧ Foothold (w.db.locks.queues (heapQueue s)) l.txn := by
        simpa [isWanted, other] using one
      exact inv.not_held freed.2 other (holds freed.1)
    · intro foothold
      refine sameHeap (Bool.eq_false_iff.mpr fun changes => ?_)
      obtain ⟨isWrite, holds⟩ := writes.2 changes
      exact inv.not_held foothold (apart isWrite) holds

theorem Inv.sight_grows (inv : Inv s w) (allowed : undisturbed s w label = true)
    (taken : step s w.db label = some d) (watched : watch s w label = some w')
    (reads : reading d t = true) : sight s w t ≤ sight s w' t := by
  have isNext : w' = ⟨d, (searched w.db label ++ w.looked).filter fun l => reading d l.txn⟩ := by
    unfold watch at watched
    rw [taken] at watched
    exact (Option.some.inj watched).symm
  subst isNext
  have leaves := inv.leaves allowed taken reads
  have locks := inv.locksKept taken
  have running : isAbortPendingOrDone (d.locks.txnState t) = false := by
    unfold reading at reads
    simpa using (Bool.and_eq_true_iff.mp reads).1
  have kept : label ≠ .manage (.releaseAll t) := by
    rintro rfl
    cases stepped taken with
    | manages lockLabel locks' free advanced =>
      have idle : w.db.running t = none := by
        have before : ¬isAbortPendingOrDone (w.db.locks.txnState t) = true := fun aborted =>
          Bool.false_ne_true (running.symm.trans (locks.marked t aborted))
        simp only [managed, if_neg before] at free
        exact Option.isNone_iff_eq_none.mp free
      unfold reading at reads
      simp [idle, Database.outputsAfter, releases] at reads
  have foothold (held : Foothold (w.db.locks.queues (heapQueue s)) t) :
      Foothold (d.locks.queues (heapQueue s)) t := locks.foothold t held kept running
  refine ⟨?_, foothold⟩
  rintro store ⟨found, longer, heap⟩
  refine ⟨fun l member mine => ?_, le_trans leaves.longer longer, fun held => ?_⟩
  · have inNext : l ∈ (searched w.db label ++ w.looked).filter fun l => reading d l.txn := by
      refine List.mem_filter.mpr ⟨List.mem_append_right _ member, ?_⟩
      rw [mine]
      exact reads
    exact (found l inNext mine).trans (leaves.found l member mine)
  · exact (heap (foothold held)).trans (leaves.heap held)

private theorem finish_cases (d : Database) (t : Nat) (op : Op)
    (result : Except String (List Row)) :
    (d.finish t op result).outputs = d.outputs ∨
      ∃ executor rows, op = .execute executor ∧ result = .ok rows ∧
        isAbortPendingOrDone (d.locks.txnState t) = false ∧
        (d.finish t op result).outputs =
          Function.update d.outputs t ((executor, rows) :: d.outputs t) := by
  cases op with
  | execute executor =>
    cases result with
    | error _ => exact .inl rfl
    | ok rows =>
      cases aborted : isAbortPendingOrDone (d.locks.txnState t) with
      | true => exact .inl (by simp [Database.finish, aborted])
      | false => exact .inr ⟨executor, rows, rfl, rfl, rfl, by simp [Database.finish, aborted]⟩
  | _ => exact .inl rfl

private theorem outputsAfter_cases (d : Database) (locks : LockState)
    (lockLabel : Concurrency.LockManager.Label) (t : Nat) :
    d.outputsAfter locks lockLabel t = [] ∨
      (d.outputsAfter locks lockLabel t = d.outputs t ∧
        isAbortPendingOrDone (locks.txnState t) = false) := by
  unfold Database.outputsAfter
  split
  · exact .inl rfl
  · rename_i kept
    refine .inr ⟨rfl, ?_⟩
    simp only [Bool.or_eq_true, not_or, Bool.not_eq_true] at kept
    exact kept.1

private theorem outputs_cases (taken : step s w.db label = some d) (t : Nat)
    (some : d.outputs t ≠ []) :
    (d.outputs t = w.db.outputs t ∧ (isAbortPendingOrDone (w.db.locks.txnState t) = false →
      isAbortPendingOrDone (d.locks.txnState t) = false)) ∨
    ∃ executor rows, w.db.running t = .some ⟨.execute executor, .ret (.ok rows)⟩ ∧
      isAbortPendingOrDone (w.db.locks.txnState t) = false ∧ d.locks = w.db.locks ∧
      d.outputs t = (executor, rows) :: w.db.outputs t := by
  have after {locks : LockState} {lockLabel : Concurrency.LockManager.Label}
      (some : w.db.outputsAfter locks lockLabel t ≠ []) :
      w.db.outputsAfter locks lockLabel t = w.db.outputs t ∧
        (isAbortPendingOrDone (w.db.locks.txnState t) = false →
          isAbortPendingOrDone (locks.txnState t) = false) := by
    rcases outputsAfter_cases w.db locks lockLabel t with none | ⟨same, running⟩
    · exact absurd none some
    · exact ⟨same, fun _ => running⟩
  cases stepped taken with
  | waits | returns | manages => exact .inl (after some)
  | acts | rollsBack | undoes => exact .inl ⟨rfl, id⟩
  | start u op idle =>
    refine .inl ⟨?_, id⟩
    dsimp only at some ⊢
    split
    · rename_i isWrite
      rw [if_pos isWrite] at some
      by_cases mine : t = u
      · subst mine
        exact absurd (update_self _ _ _) some
      · exact update_of_ne mine _ _
    · rfl
  | finishes u hits op result isRunning =>
    rcases finish_cases w.db u op result with same | ⟨executor, rows, rfl, rfl, running, new⟩
    · exact .inl ⟨congrFun same t, id⟩
    · by_cases mine : t = u
      · subst mine
        refine .inr ⟨executor, rows, isRunning, running, rfl, ?_⟩
        rw [new, update_self]
      · refine .inl ⟨?_, id⟩
        rw [new, update_of_ne mine]

private theorem running_cases (taken : step s w.db label = some d) {r : Running}
    (isRunning : d.running t = some r) :
    (∃ r', w.db.running t = some r' ∧ r'.op = r.op) ∨
      ∃ op, label = .start t op ∧ r = ⟨op, op.program s⟩ := by
  have others {running : Option Running} {u : Nat} (apart : t ≠ u)
      (isRunning : Function.update w.db.running u running t = some r) :
      ∃ r', w.db.running t = some r' ∧ r'.op = r.op :=
    ⟨r, (update_of_ne apart _ _).symm.trans isRunning, rfl⟩
  have own {running : Option Running}
      (isRunning : Function.update w.db.running t running t = some r) : running = some r := by
    rwa [update_self] at isRunning
  cases stepped taken with
  | waits | manages | rollsBack | undoes => exact .inl ⟨r, isRunning, rfl⟩
  | start u op idle =>
    by_cases mine : t = u
    · subst mine
      exact .inr ⟨op, rfl, (Option.some.inj (own isRunning)).symm⟩
    · exact .inl (others mine isRunning)
  | returns u part op queue range mode next locks reply isRunning' advanced replied =>
    by_cases mine : t = u
    · subst mine
      exact .inl ⟨_, isRunning', by rw [← Option.some.inj (own isRunning)]⟩
    · exact .inl (others mine isRunning)
  | finishes u hits op result isRunning' =>
    by_cases mine : t = u
    · subst mine
      cases own isRunning
    · exact .inl (others mine isRunning)
  | acts u hits op request next done isRunning' performed =>
    by_cases mine : t = u
    · subst mine
      exact .inl ⟨_, isRunning', by rw [← Option.some.inj (own isRunning)]⟩
    · exact .inl (others mine isRunning)

private theorem Inv.quiet_step (inv : Inv s w) (taken : step s w.db label = some d) (t : Nat)
    (r : Running) (isRunning : d.running t = some r) (isWrite : r.op.isWrite = true) :
    d.outputs t = [] := by
  rcases running_cases taken isRunning with ⟨r', isRunning', sameOp⟩ | ⟨op, rfl, rfl⟩
  · have before := inv.quiet t r' isRunning' (by rwa [sameOp])
    by_contra some
    rcases outputs_cases taken t some with ⟨same, -⟩ | ⟨executor, rows, isExecutor, -⟩
    · exact some (same.trans before)
    · rw [isRunning'] at isExecutor
      rw [← sameOp, Option.some.inj isExecutor] at isWrite
      cases isWrite
  · cases stepped taken with
    | start _ _ idle =>
      have isWrite' : op.isWrite = true := isWrite
      dsimp only
      rw [if_pos isWrite', update_self]

private theorem Inv.fresh_step (inv : Inv s w) (taken : step s w.db label = some d) (t : Nat)
    (some : d.outputs t ≠ []) : isAbortPendingOrDone (d.locks.txnState t) = false := by
  rcases outputs_cases taken t some with ⟨same, running⟩ | ⟨_, _, -, running, sameLocks, -⟩
  · exact running (inv.fresh t (same ▸ some))
  · rwa [sameLocks]

private theorem Right.grow {executor : Executor} {k k' : Sight}
    {result : Except String (List Row)} (grown : k ≤ k') (right : Right s executor k result) :
    Right s executor k' result :=
  fun rows returned store still => right rows returned store (grown.1 store still)

private theorem Inv.outputs_step (inv : Inv s w) (allowed : undisturbed s w label = true)
    (taken : step s w.db label = some d) (watched : watch s w label = some w') (t : Nat)
    (executor : Executor) (rows : List Row) (shown : (executor, rows) ∈ d.outputs t) :
    Right s executor (sight s w' t) (.ok rows) := by
  have some : d.outputs t ≠ [] := List.ne_nil_of_mem shown
  have reads : reading d t = true := by
    unfold reading
    rw [inv.fresh_step taken t some]
    simpa using .inl some
  have grown := inv.sight_grows allowed taken watched reads
  rcases outputs_cases taken t some with ⟨same, -⟩ | ⟨executor', rows', isRunning, running, -, new⟩
  · rw [same] at shown
    exact (inv.outputs t executor rows shown).grow grown
  · rw [new] at shown
    rcases List.mem_cons.mp shown with isNew | old
    · cases isNew
      exact Right.grow grown (inv.reads t _ _ isRunning running)
    · exact (inv.outputs t executor rows old).grow grown

private theorem Inv.shown (allowed : undisturbed s w label = true)
    (watched : watch s w label = some w') {hits : List RID} (isAct : label = .act t hits) {op : Op}
    {r : Request} {next : Reply r → Routine (List Row)}
    (isRunning : w.db.running t = some ⟨op, .request r next⟩) {done : Reply r × Store}
    (performed : perform s w.db.store hits r = some done) (next' : w'.db.store = done.2)
    (reads : reading w'.db t = true) (grown : sight s w t ≤ sight s w' t) :
    Shown s (sight s w t) r done.1 (sight s w' t) := by
  subst isAct
  refine ⟨grown, ?_⟩
  cases r with
  | lock _ _ _ => cases performed
  | insertEntry _ _ _ | deleteEntry _ _ _ | insertRecord _ | deleteRecord _
    | overwriteRecord _ _ => trivial
  | look =>
    cases performed
    refine ⟨⟨fun _ _ _ => rfl, le_rfl, fun _ => rfl⟩, fun held store still => ?_⟩
    exact (grown.1 store still).2.2 held
  | search index wanted =>
    cases found : done.1 with
    | error _ => trivial
    | ok rids =>
      have isHits : rids = hits ∧ (hits : Multiset RID) = hitsOf w.db.store index wanted ∧
          done.2 = w.db.store.tick := by
        simp only [perform] at performed
        split at performed
        · cases performed
          cases found
        · split at performed
          · rename_i same
            cases performed
            cases found
            exact ⟨rfl, same, rfl⟩
          · cases performed
      obtain ⟨rfl, areHits, isTick⟩ := isHits
      intro store still
      have inFile : ∀ rid ∈ rids, rid.pageNo < w.db.store.heap.slots.length := by
        simp only [undisturbed, isRunning, nextRequest, Option.all_some] at allowed
        intro rid member
        exact of_decide_eq_true (List.all_eq_true.mp allowed rid member)
      have logged : (⟨t, index, wanted⟩ : Looked) ∈ w'.looked := by
        unfold watch at watched
        obtain ⟨d, -, rfl⟩ := Option.map_eq_some_iff.mp watched
        refine List.mem_filter.mpr ⟨List.mem_append_left _ ?_, reads⟩
        simp [searched, isRunning, nextRequest]
      have same := still.1 _ logged rfl
      rw [next', isTick] at same
      refine ⟨areHits.trans same.symm, fun rid member => ?_⟩
      exact lt_of_lt_of_le (inFile rid member) (grown.1 store still).2.1

private theorem Inv.reads_step (inv : Inv s w) (allowed : undisturbed s w label = true)
    (watched : watch s w label = some w') (t : Nat) (executor : Executor)
    (program : Routine (List Row)) (isRunning : w'.db.running t = some ⟨.execute executor, program⟩)
    (alive : isAbortPendingOrDone (w'.db.locks.txnState t) = false) :
    program.Meets (sightContract s) (sight s w' t) (Right s executor) := by
  obtain ⟨d, taken, isNext⟩ := Option.map_eq_some_iff.mp watched
  have sameDb : w'.db = d := by rw [← isNext]
  rw [sameDb] at isRunning alive
  have reads : reading d t = true := by
    unfold reading
    simp [alive, isRunning]
  have grown := inv.sight_grows allowed taken watched reads
  have before : isAbortPendingOrDone (w.db.locks.txnState t) = false := by
    refine Bool.eq_false_iff.mpr fun aborted => ?_
    rw [(inv.locksKept taken).marked t aborted] at alive
    cases alive
  have stays (same : w.db.running t = some ⟨.execute executor, program⟩) :
      program.Meets (sightContract s) (sight s w' t) (Right s executor) :=
    Meets.grow grown (fun _ _ _ more right => Right.grow more right)
      (inv.reads t executor program same before)
  have own {running : Option Running} (isRunning : Function.update w.db.running t running t =
      some ⟨.execute executor, program⟩) : running = some ⟨.execute executor, program⟩ := by
    rwa [update_self] at isRunning
  cases stepped taken with
  | waits | manages | rollsBack | undoes => exact stays isRunning
  | start u op idle =>
    by_cases mine : t = u
    · subst mine
      cases own isRunning
      exact does_executor executor
    · exact stays ((update_of_ne mine _ _).symm.trans isRunning)
  | returns u part op queue range mode next locks reply isRunning' advanced replied =>
    by_cases mine : t = u
    · subst mine
      cases own isRunning
      refine (inv.reads t executor _ isRunning' before).2 reply _ ⟨grown, ?_⟩
      rintro rfl rfl
      obtain ⟨r, member, mine, granted, -⟩ := inv.coherent.granted inv.sound
        (.inr ⟨rfl, inv.backed⟩) isRunning' advanced replied
      show Foothold (w'.db.locks.queues _) t
      rw [sameDb]
      exact ⟨r, member, mine, .inl granted⟩
    · exact stays ((update_of_ne mine _ _).symm.trans isRunning)
  | finishes u hits op result isRunning' =>
    by_cases mine : t = u
    · subst mine
      cases own isRunning
    · exact stays ((update_of_ne mine _ _).symm.trans isRunning)
  | acts u hits op r next done isRunning' performed =>
    by_cases mine : t = u
    · subst mine
      cases own isRunning
      refine (inv.reads t executor _ isRunning' before).2 done.1 _ ?_
      exact Inv.shown allowed watched rfl isRunning' performed (by rw [sameDb])
        (by rw [sameDb]; exact reads) grown
    · exact stays ((update_of_ne mine _ _).symm.trans isRunning)

theorem imageOf_changes {op : Op} {r : Request} {reply : Reply r} {image : Image}
    (isImage : d.imageOf op r reply = some image) (locked : underTable image = true) :
    changesHeap r = true ∨ op.whole = true ∧ ∃ change, changedEntry r = some change := by
  cases r with
  | insertRecord _ | deleteRecord _ | overwriteRecord _ _ => exact .inl rfl
  | insertEntry index key rid =>
    cases reply with
    | ok _ =>
      cases isImage
      exact .inr ⟨locked, _, rfl⟩
    | error _ => cases isImage
  | deleteEntry index key rid =>
    cases reply with
    | ok removed =>
      cases removed with
      | true =>
        cases isImage
        exact .inr ⟨locked, _, rfl⟩
      | false => cases isImage
    | error _ => cases isImage
  | lock _ _ _ | look | search _ _ => cases isImage

private theorem Inv.logged_step (inv : Inv s w) (allowed : undisturbed s w label = true)
    (taken : step s w.db label = some d) (t : Nat) (image : Image) (logged : Logged d t image)
    (locked : underTable image = true) : HoldsTable s d.locks t := by
  have locks := inv.locksKept taken
  have stays (kept : label ≠ .manage (.releaseAll t)) (before : Logged w.db t image) :
      HoldsTable s d.locks t := locks.exclusive t (inv.logged t image before locked) kept
  cases stepped taken with
  | start | finishes | waits | returns => exact stays (by rintro ⟨⟩) logged
  | manages lockLabel locks' free advanced =>
    by_cases releases : lockLabel = .releaseAll t
    · subst releases
      simp only [undisturbed, Bool.and_eq_true] at allowed
      obtain inUndo | ⟨records, among, inRecords⟩ := logged
      · simp [Database.undoAfter] at inUndo
      · simp only [Database.undoAfter, update_self] at among
        have empty := List.all_eq_true.mp allowed.2 records (List.mem_of_mem_eraseP among)
        rw [List.isEmpty_iff.mp empty] at inRecords
        cases inRecords
    · refine stays (fun same => releases (by cases same; rfl)) ?_
      cases lockLabel with
      | releaseAll u =>
        have apart : t ≠ u := fun same => releases (by rw [same])
        simpa only [Logged, Database.undoAfter, update_of_ne apart] using logged
      | _ => exact logged
  | acts u hits op r next done isRunning performed =>
    obtain inUndo | inRollbacks := logged
    · by_cases mine : t = u
      · subst mine
        simp only [update_self] at inUndo
        obtain new | old := List.mem_append.mp inUndo
        · obtain ⟨ofEntries, ofHeap⟩ := inv.writes isRunning
          have isImage := Option.mem_toList.mp new
          obtain changes | ⟨isWhole, change, isChange⟩ := imageOf_changes isImage locked
          · exact (ofHeap changes).2
          · exact (ofEntries change isChange).2 isWhole
        · exact stays (by rintro ⟨⟩) (.inl old)
      · simp only [update_of_ne mine] at inUndo
        exact stays (by rintro ⟨⟩) (.inl inUndo)
    · exact stays (by rintro ⟨⟩) (.inr inRollbacks)
  | rollsBack u found aborting =>
    refine stays (by rintro ⟨⟩) ?_
    obtain inUndo | ⟨records, among, inRecords⟩ := logged
    · exact .inl inUndo
    · by_cases mine : t = u
      · subst mine
        simp only [update_self] at among
        obtain rfl | among := List.mem_cons.mp among
        · cases found with
          | true => exact .inl inRecords
          | false => cases inRecords
        · exact .inr ⟨records, among, inRecords⟩
      · simp only [update_of_ne mine] at among
        exact .inr ⟨records, among, inRecords⟩
  | undoes u n left more image' rest atHead =>
    refine stays (by rintro ⟨⟩) ?_
    have among := List.mem_of_getElem? atHead
    have fewer : ∀ x ∈ (if more then image' :: rest else rest), x ∈ image' :: rest := by
      intro x member
      split at member
      · exact member
      · exact List.mem_cons_of_mem _ member
    by_cases mine : t = u
    · subst mine
      obtain inUndo | ⟨records, inRollbacks, inRecords⟩ := logged
      · simp only [update_self] at inUndo
        exact .inr ⟨_, among, fewer image inUndo⟩
      · simp only [update_self] at inRollbacks
        obtain old | rfl := List.mem_or_eq_of_mem_set inRollbacks
        · exact .inr ⟨records, old, inRecords⟩
        · exact .inr ⟨_, among, fewer image inRecords⟩
    · simpa only [Logged, update_of_ne mine] using logged

private theorem Inv.rolled_step (inv : Inv s w) (taken : step s w.db label = some d) (t : Nat)
    (some : d.rollbacks t ≠ []) : isAbortPendingOrDone (d.locks.txnState t) = true := by
  have locks := inv.locksKept taken
  have stays (before : w.db.rollbacks t ≠ []) : isAbortPendingOrDone (d.locks.txnState t) = true :=
    locks.marked t (inv.rolled t before)
  cases stepped taken with
  | start | finishes | waits | returns | acts => exact stays some
  | manages lockLabel locks' free advanced =>
    refine stays fun none => some ?_
    cases lockLabel with
    | releaseAll u =>
      by_cases mine : t = u
      · subst mine
        simp [Database.undoAfter, none]
      · simpa only [Database.undoAfter, update_of_ne mine] using none
    | _ => exact none
  | rollsBack u found aborting =>
    by_cases mine : t = u
    · subst mine
      show isAbortPendingOrDone (w.db.locks.txnState t) = true
      rw [aborting]
      rfl
    · simp only [update_of_ne mine] at some
      exact stays some
  | undoes u n left more image rest atHead =>
    by_cases mine : t = u
    · subst mine
      exact stays (List.ne_nil_of_mem (List.mem_of_getElem? atHead))
    · simp only [update_of_ne mine] at some
      exact stays some

theorem Inv.step (inv : Inv s w) (allowed : undisturbed s w label = true)
    (watched : watch s w label = some w') : Inv s w' := by
  have reads := inv.reads_step allowed watched
  obtain ⟨d, taken, isNext⟩ := Option.map_eq_some_iff.mp watched
  have outputs := inv.outputs_step allowed taken watched
  have locks := inv.locksKept taken
  have rules : ∀ t r, d.running t = some r → KeepsRules s (known s d.locks t) r := by
    refine rules_step inv.rules ?_ ?_ taken
    · intro t r isRunning isWrite q range mode held here isX
      refine locks.exclusive t (held here isX) ?_
      rintro rfl
      simp [undisturbed, isRunning, isWrite] at allowed
    · rintro t part op queue range mode next reply rfl isRunning replied
      refine ⟨trivial, ?_⟩
      rintro rfl rfl rfl
      have advanced : Concurrency.LockManager.step w.db.locks
          (part.label t (heapQueue s) range .x) = some d.locks := by
        simp only [Sessions.step, isRunning] at taken
        obtain ⟨locks, advanced, isDb⟩ := Option.map_eq_some_iff.mp taken
        rw [advanced, ← isDb]
      obtain ⟨r, member, mine, granted, exclusive, -⟩ := inv.coherent.granted inv.sound
        (.inr ⟨rfl, inv.backed⟩) isRunning advanced replied
      exact ⟨r, member, mine, granted, exclusive rfl⟩
  have quiet := inv.quiet_step taken
  have fresh := inv.fresh_step taken
  have coherent := inv.coherent.step taken
  have logged := inv.logged_step allowed taken
  have rolled := inv.rolled_step taken
  subst isNext
  exact ⟨coherent, locks.sound, locks.backed, rules, quiet, fresh, reads, outputs, logged, rolled⟩

end Steps

section Rereads

variable {s : Setting} {w : Watched}

/-- An executor that a transaction runs again without a write in between returns the same rows. -/
def Repeatable (d : Database) : Prop :=
  ∀ t executor rows rows', (executor, rows) ∈ d.outputs t → (executor, rows') ∈ d.outputs t →
    (rows : Multiset Row) = rows'

def fullScan : Executor :=
  .genericIndexScan
    ⟨"i", 20, [⟨0, .int32, 0, false⟩], false, .notSupported, some (.btree .int32 0)⟩ none

def heldCall (t : Nat) : List Label := [.lock t .call, .lock t .prepare]

def firstScan : List Label :=
  [.start 1 (.execute fullScan)] ++ lockCall 1 ++ [.act 1 [⟨0, 0⟩], look 1] ++ heldCall 1 ++
    lockCall 1 ++ [look 1, look 1, look 1]

/-- Transaction 2 deletes its index entry, before it asks for the heap, and 1 scans again. -/
def deletedTrace : List Label :=
  firstScan ++ [.start 2 (.delete ⟨0, 0⟩), look 2] ++ lockCall 2 ++ lockCall 2 ++
    [look 2, look 2] ++ lockCall 2 ++ lockCall 2 ++ [look 2] ++
    [.start 1 (.execute fullScan)] ++ heldCall 1 ++ [look 1, look 1]

def wholeDelete : List Label :=
  [.start 2 (.delete ⟨0, 0⟩), look 2] ++ lockCall 2 ++ lockCall 2 ++ [look 2, look 2] ++
    lockCall 2 ++ lockCall 2 ++ [look 2, look 2] ++ lockCall 2 ++ lockCall 2 ++
    [look 2, look 2, look 2]

/-- Then it aborts: the heap page and the index pages get back what they held. -/
def rollback : List Label :=
  [.manage (.tryMarkAborting 2), .rollback 2 true, .undo 2 0 0 false, .undo 2 0 0 false,
    .manage (.setState 2 .aborted), .manage (.releaseAll 2)]

def keyJoin : Executor :=
  .indexNestedLoopJoin
    ⟨"i", 20, [⟨0, .int32, 0, false⟩], false, .notSupported, some (.btree .int32 0)⟩
    (.column .left 0) [⟨[], [.int32 5]⟩]

/-- The index join of transaction 1 finds nothing while 2 has its tuple deleted, and finds the tuple
after the rollback. -/
def restoredTrace : List Label :=
  wholeDelete ++ [.start 1 (.execute keyJoin), look 1, look 1] ++ rollback ++
    [.start 1 (.execute keyJoin), .act 1 [⟨0, 0⟩], look 1] ++ lockCall 1 ++ lockCall 1 ++
    [look 1, look 1, look 1]

theorem entry_back_after_rollback : ∃ w : Watched,
    Run (watch indexedSetting) (fun _ _ => True) (Watched.start oneTuple) restoredTrace w ∧
      w.db.outputs 1 = [(keyJoin, [[.int32 5, .int32 5]]), (keyJoin, [])] := by
  have traced : (exec (fun w label => if True then watch indexedSetting w label else none)
      (Watched.start oneTuple) restoredTrace).any (fun w =>
        decide (w.db.outputs 1 = [(keyJoin, [[.int32 5, .int32 5]]), (keyJoin, [])])) = true := by
    decide +kernel
  obtain ⟨w, executed, isOutputs⟩ := (Option.any_eq_true _ _).mp traced
  exact ⟨w, run_of_exec executed, of_decide_eq_true isOutputs⟩

/-- Transaction 2 has deleted its tuple and been rolled back when 1 scans. Transaction 3 starts an
insert and waits for the heap, and 1 scans again. -/
def waitingTrace : List Label :=
  wholeDelete ++ rollback ++ firstScan ++ [.start 3 (.insert [.int32 7])] ++ lockCall 3 ++
    lockCall 3 ++ lockCall 3 ++ [.start 1 (.execute fullScan)] ++ heldCall 1 ++
    [.act 1 [⟨0, 0⟩], look 1] ++ heldCall 1 ++ heldCall 1 ++ [look 1, look 1, look 1]

end Rereads

end GraniteDb.Storage.RepeatableReads
