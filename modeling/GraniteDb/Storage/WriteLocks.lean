/- Table writes hold the locks their changes need; executors change nothing. -/

import GraniteDb.Storage.TablePrograms

namespace GraniteDb.Storage.WriteLocks

open Common.Types Common.Value Lib.Program Storage.Table Storage.TablePrograms
open Concurrency.LockManager (LockMode QueueId KeyRange)
open Concurrency.RangeOverlap (pointRange)
open List (mem_cons_self subset_append_left subset_cons_self)

section Contracts

abbrev Locks : Type := QueueId → Option KeyRange → LockMode → Prop

/-- An exclusive lock on a key counts for the keys that compare equal. -/
def Closed (plain : Option KeyRange → Prop) (locks : Locks) : Prop :=
  ∀ i key key', keysEqual key key' = some true → plain (some (pointRange key)) →
    plain (some (pointRange key')) → hasNullComponent key' = false →
      locks (.keyRange i) (some (pointRange key)) .x →
        locks (.keyRange i) (some (pointRange key')) .x

abbrev Known (plain : Option KeyRange → Prop) : Type := { locks : Locks // Closed plain locks }

/-- What a lock call adds; nothing is said of calls whose range is not plain. -/
def Learned {plain : Option KeyRange → Prop} (k : Known plain) (r : Request) (reply : Reply r)
    (k' : Known plain) : Prop :=
  k ≤ k' ∧
    match r, reply with
    | .lock queue range mode, reply => plain range ∧ (reply = true → k'.1 queue range mode)
    | _, _ => True

theorem Learned.mono {plain : Option KeyRange → Prop} {k k' k'' : Known plain} {r : Request}
    {reply : Reply r} (grown : k ≤ k') (learned : Learned k' r reply k'') :
    Learned k r reply k'' := ⟨le_trans grown learned.1, learned.2⟩

/-- Index entries change under an exclusive lock on their key, records under one on the table;
a whole write changes its entries under both. -/
def writeContract (s : Setting) (plain : Option KeyRange → Prop) (whole : Bool) :
    Contract Request Reply (Known plain) where
  allowed k
    | .insertEntry index key _ | .deleteEntry index key _ =>
      (plain (some (pointRange key)) →
        k.1 (.keyRange index.indexRelationId) (some (pointRange key)) .x) ∧
      (whole = true → k.1 (.table s.relationId) none .x)
    | .insertRecord _ | .deleteRecord _ | .overwriteRecord _ _ =>
      k.1 (.table s.relationId) none .x
    | _ => True
  after := Learned
  grows added := added.1
  allowed_mono := by
    intro k k' r grown
    cases r with
    | insertEntry _ _ _ | deleteEntry _ _ _ =>
      exact fun locked => ⟨fun plain => grown _ _ _ (locked.1 plain),
        fun isWhole => grown _ _ _ (locked.2 isWhole)⟩
    | insertRecord _ | deleteRecord _ | overwriteRecord _ _ => exact grown _ _ _
    | lock _ _ _ | look | search _ _ => exact id
  after_mono := Learned.mono

/-- Nothing changes; a coarse reader searches under a lock on the table. -/
def readContract (s : Setting) (plain : Option KeyRange → Prop) (coarse : Bool) :
    Contract Request Reply (Known plain) where
  allowed k
    | .lock _ _ _ | .look => True
    | .search _ _ => coarse = true → k.1 (.table s.relationId) none .s
    | _ => False
  after := Learned
  grows added := added.1
  allowed_mono := by
    intro k k' r grown
    cases r with
    | search _ _ => exact fun known isCoarse => grown _ _ _ (known isCoarse)
    | _ => exact id
  after_mono := Learned.mono

variable {κ : Type} [Preorder κ] {α β : Type} {c : Contract Request Reply κ}

/-- The task keeps the contract, and `post` holds of what it returns if it does not throw. -/
def Does (c : Contract Request Reply κ) (p : Routine α) (k : κ)
    (post : κ → α → Prop) : Prop :=
  Program.Meets c p k fun k' result => ∀ a, result = .ok a → post k' a

variable {post : κ → α → Prop} {k : κ} {p : Routine α}

theorem does_pure {a : α} (holds : post k a) : Does c (pure a) k post := by
  rintro _ ⟨⟩
  exact holds

theorem does_throwing {what : String} : Does c (throwing what) k post := by
  rintro _ ⟨⟩

theorem does_ofExcept {result : Except String α} (holds : ∀ a, result = .ok a → post k a) :
    Does c (Routine.ofExcept result) k post := holds

theorem does_bind {f : α → Routine β} {m : κ → α → Prop} {post : κ → β → Prop}
    (first : Does c p k m) (second : ∀ k', k ≤ k' → ∀ a, m k' a → Does c (f a) k' post) :
    Does c (p >>= f) k post := by
  refine Meets.bind first ?_
  intro k' grown result returned
  cases result with
  | ok a => exact second k' grown a (returned a rfl)
  | error what => exact does_throwing

theorem does_weaken {post' : κ → α → Prop} (does : Does c p k post)
    (weaker : ∀ k', k ≤ k' → ∀ a, post k' a → post' k' a) :
    Does c p k post' :=
  Meets.weaken does fun k' grown _ returned a same => weaker k' grown a (returned a same)

theorem does_attempt (does : Does c p k post) :
    Does c (attempt p) k fun k' result => ∀ a, result = .ok a → post k' a := by
  refine Meets.bind does ?_
  intro k' _ result returned
  rintro _ ⟨⟩
  exact returned

theorem does_ask {r : Request} {post : κ → Reply r → Prop} (allowed : c.allowed k r)
    (learned : ∀ reply k', c.after k r reply k' → post k' reply) :
    Does c (ask r) k post := by
  refine ⟨allowed, fun reply k' added => ?_⟩
  rintro _ ⟨⟩
  exact learned reply k' added

theorem does_forEach {ι : Type} {f : ι → Routine Unit} {elements : List ι} {d : κ → ι → Prop}
    (kept : ∀ k k' i, k ≤ k' → d k i → d k' i)
    (pass : ∀ k', k ≤ k' → ∀ i ∈ elements, Does c (f i) k' fun k'' _ => d k'' i) :
    Does c (forEach f elements) k fun k' _ => ∀ i ∈ elements, d k' i := by
  induction elements generalizing k with
  | nil => exact does_pure (by simp)
  | cons i rest ih =>
    refine does_bind (pass k le_rfl i mem_cons_self) ?_
    intro k' grown _ isDone
    have later := ih fun k'' more j member =>
      pass k'' (le_trans grown more) j (List.mem_cons_of_mem _ member)
    refine does_weaken later ?_
    intro k'' more _ others j member
    rcases List.mem_cons.mp member with rfl | inRest
    · exact kept k' k'' j more isDone
    · exact others j inRest

end Contracts

section Heap

variable {plain : Option KeyRange → Prop} {s : Setting} {c : Contract Request Reply (Known plain)}

structure Ordinary (c : Contract Request Reply (Known plain)) : Prop where
  lock : ∀ k queue range mode, c.allowed k (.lock queue range mode)
  look : ∀ k, c.allowed k .look
  learned : ∀ k r reply k', c.after k r reply k' → Learned k r reply k'

theorem ordinary_write {whole : Bool} : Ordinary (writeContract s plain whole) :=
  ⟨fun _ _ _ _ => trivial, fun _ => trivial, fun _ _ _ _ added => added⟩

theorem ordinary_read {coarse : Bool} : Ordinary (readContract s plain coarse) :=
  ⟨fun _ _ _ _ => trivial, fun _ => trivial, fun _ _ _ _ added => added⟩

variable (ordinary : Ordinary c)

include ordinary

variable {mode : LockMode} {k : Known plain}

theorem does_lock {queue : QueueId} {range : Option KeyRange} :
    Does c (ask (.lock queue range mode)) k fun k' reply =>
      plain range ∧ (reply = true → k'.1 queue range mode) :=
  does_ask (ordinary.lock _ _ _ _) fun _ _ added => (ordinary.learned _ _ _ _ added).2

theorem does_look : Does c (ask .look) k fun _ _ => True :=
  does_ask (ordinary.look _) fun _ _ _ => trivial

theorem does_acquireTableLock :
    Does c (acquireTableLock s mode) k fun k' _ => k'.1 (.table s.relationId) none mode := by
  refine does_bind (does_lock ordinary) ?_
  intro k' _ reply learned
  cases reply with
  | true => exact does_pure (learned.2 rfl)
  | false => exact does_throwing

theorem does_maybeEscalateRecordLocks :
    Does c (maybeEscalateRecordLocks s mode) k fun _ _ => True := by
  refine does_bind (does_look ordinary) fun k' _ store _ => ?_
  split
  · exact does_bind (does_lock ordinary) fun _ _ _ _ => does_pure trivial
  · exact does_pure trivial

theorem does_acquireRecordLock {rid : RID} :
    Does c (acquireRecordLock s rid mode) k fun _ _ => True := by
  refine does_bind (does_lock ordinary) fun k' _ reply _ => ?_
  cases reply with
  | true => exact does_maybeEscalateRecordLocks ordinary
  | false => exact does_throwing

theorem does_getTuple {rid : RID} : Does c (getTuple s rid) k fun _ _ => True := by
  refine does_bind (does_look ordinary) fun k' _ store _ => ?_
  split
  · exact does_pure trivial
  · refine does_bind (does_acquireTableLock ordinary) fun _ _ _ _ => ?_
    refine does_bind (does_acquireRecordLock ordinary) fun _ _ _ _ => ?_
    exact does_bind (does_look ordinary) fun _ _ _ _ => does_ofExcept fun _ _ => trivial

theorem does_fetchTuples {rids : List RID} : Does c (fetchTuples s rids) k fun _ _ => True := by
  induction rids generalizing k with
  | nil => exact does_pure trivial
  | cons rid rest ih =>
    refine does_bind (does_getTuple ordinary) fun _ _ _ _ => ?_
    exact does_bind ih fun _ _ _ _ => does_pure trivial

theorem does_acquireLocks {calls : List LockCall} :
    Does c (acquireLocks calls) k fun _ _ => True := by
  refine does_weaken (does_forEach (d := fun _ _ => True) (fun _ _ _ _ _ => trivial) ?_)
    fun _ _ _ _ => trivial
  intro k' _ call _
  refine does_bind (does_lock ordinary) fun _ _ reply _ => ?_
  cases reply with
  | true => exact does_pure trivial
  | false => exact does_throwing

theorem does_indexScanInit {i : Nat} {mode : Execution.Operators.ScanMode} :
    Does c (indexScanInit i mode) k fun _ _ => True := by
  refine does_bind (does_lock ordinary) fun _ _ reply _ => ?_
  cases reply with
  | true => exact does_pure trivial
  | false => exact does_throwing

end Heap

section Records

variable {plain : Option KeyRange → Prop} {s : Setting} {whole : Bool} {k : Known plain}

variable {row : Row} {rid : RID}

theorem does_heapInsertTuple :
    Does (writeContract s plain whole) (heapInsertTuple s row) k fun k' _ =>
      k'.1 (.table s.relationId) none .x := by
  refine does_bind (does_acquireTableLock ordinary_write) fun k₁ _ _ locked => ?_
  refine does_bind (does_ask locked fun _ _ _ => trivial) fun k₂ grown₂ reply _ => ?_
  refine does_bind (m := fun _ _ => True) (does_ofExcept fun _ _ => trivial)
    fun k₃ grown₃ _ _ => ?_
  refine does_bind (does_acquireRecordLock ordinary_write) fun k₄ grown₄ _ _ => does_pure ?_
  exact le_trans grown₂ (le_trans grown₃ grown₄) _ _ _ locked

theorem does_heapDeleteTuple :
    Does (writeContract s plain whole) (heapDeleteTuple s rid) k fun _ _ => True := by
  refine does_bind (does_look ordinary_write) fun k' _ store _ => ?_
  split
  · exact does_pure trivial
  · refine does_bind (does_acquireTableLock ordinary_write) fun k' _ _ locked => ?_
    refine does_bind (does_acquireRecordLock ordinary_write) fun k'' grown _ _ => ?_
    exact does_bind (does_ask (grown _ _ _ locked) fun _ _ _ => trivial)
      fun _ _ _ _ => does_ofExcept fun _ _ => trivial

theorem does_canUpdateTupleInPlace :
    Does (writeContract s plain whole) (TablePrograms.canUpdateTupleInPlace s rid row) k
      fun _ _ => True := by
  refine does_bind (does_look ordinary_write) fun k' _ store _ => ?_
  split
  · exact does_pure trivial
  · refine does_bind (does_acquireTableLock ordinary_write) fun _ _ _ _ => ?_
    refine does_bind (does_acquireRecordLock ordinary_write) fun _ _ _ _ => ?_
    refine does_bind (m := fun _ _ => True) (does_ofExcept fun _ _ => trivial) fun _ _ _ _ => ?_
    refine does_bind (does_look ordinary_write) fun _ _ store _ => ?_
    split <;> exact does_pure trivial

theorem does_heapUpdateTuple :
    Does (writeContract s plain whole) (heapUpdateTuple s rid row) k fun _ _ => True := by
  refine does_bind (does_look ordinary_write) fun k' _ store _ => ?_
  split
  · exact does_pure trivial
  · refine does_bind (does_acquireTableLock ordinary_write) fun k₁ _ _ locked => ?_
    refine does_bind (does_acquireRecordLock ordinary_write) fun k₂ grown _ _ => ?_
    refine does_bind (m := fun _ _ => True) (does_ofExcept fun _ _ => trivial)
      fun k₃ grown' _ _ => ?_
    refine does_bind (does_ask (grown' _ _ _ (grown _ _ _ locked)) fun _ _ _ => trivial)
      fun _ _ reply _ => ?_
    refine does_bind (m := fun _ _ => True) (does_ofExcept fun _ _ => trivial)
      fun _ _ found _ => ?_
    match found with
    | none => exact does_pure trivial
    | some true => exact does_pure trivial
    | some false =>
      refine does_bind does_heapInsertTuple fun _ _ _ _ => ?_
      refine does_bind (does_acquireRecordLock ordinary_write) fun _ _ _ _ => ?_
      refine does_bind does_heapDeleteTuple fun _ _ deleted _ => ?_
      cases deleted <;> exact does_pure trivial

end Records

section IndexLocks

variable {plain : Option KeyRange → Prop} {s : Setting} {whole : Bool} {k : Known plain}

def KeyLocked (row : Row) (k : Known plain) (index : IndexCatalogEntry) : Prop :=
  ∀ key, extractKey row index = some key → plain (some (pointRange key)) →
    k.1 (.keyRange index.indexRelationId) (some (pointRange key)) .x

variable {index : IndexCatalogEntry}

theorem KeyLocked.grow {row : Row} {k k' : Known plain} (grown : k ≤ k')
    (locked : KeyLocked row k index) : KeyLocked row k' index :=
  fun key isKey isPlain => grown _ _ _ (locked key isKey isPlain)

theorem mem_of_maintenanceOrder {table : Table} {order : List IndexCatalogEntry}
    (ordered : table.getMaintenanceOrder = .ok order)
    (member : index ∈ order) : index ∈ table.indexes := by
  unfold Table.getMaintenanceOrder at ordered
  split at ordered
  · cases ordered
  · cases ordered
    exact (List.perm_insertionSort _ _).mem_iff.mp member

variable {c : Contract Request Reply (Known plain)} {row : Row}

theorem does_keyOf :
    Does c (keyOf row index) k fun _ key => extractKey row index = some key := by
  unfold keyOf
  cases isKey : extractKey row index with
  | none => exact does_throwing
  | some key => exact does_pure rfl

theorem does_acquireIndexKeyLock {i : Nat} {key : List Value} :
    Does (writeContract s plain whole) (acquireIndexKeyLock i key .x) k fun k' _ =>
      plain (some (pointRange key)) ∧ k'.1 (.keyRange i) (some (pointRange key)) .x := by
  refine does_bind (does_lock ordinary_write) fun k' _ reply learned => ?_
  cases reply with
  | true => exact does_pure ⟨learned.1, learned.2 rfl⟩
  | false => exact does_throwing

theorem does_acquireIndexRelationWriteLocks :
    Does (writeContract s plain whole) (acquireIndexRelationWriteLocks s) k fun _ _ => True := by
  refine does_bind (m := fun _ _ => True) (does_ofExcept fun _ _ => trivial)
    fun _ _ order _ => ?_
  refine does_weaken (does_forEach (d := fun _ _ => True) (fun _ _ _ _ _ => trivial) ?_)
    fun _ _ _ _ => trivial
  intro k' _ index _
  refine does_bind (does_lock ordinary_write) fun _ _ reply _ => ?_
  cases reply with
  | true => exact does_pure trivial
  | false => exact does_throwing

theorem does_acquireAllIndexMutationLocks :
    Does (writeContract s plain whole) (acquireAllIndexMutationLocks s row) k fun k' _ =>
      ∀ order, s.table.getMaintenanceOrder = .ok order → ∀ index ∈ order, KeyLocked row k' index := by
  refine does_bind (m := fun _ order => s.table.getMaintenanceOrder = .ok order)
    (does_ofExcept fun _ ordered => ordered) fun k' _ order ordered => ?_
  refine does_weaken (does_forEach (d := KeyLocked row) (fun _ _ _ grown => .grow grown) ?_) ?_
  · intro k' _ index _
    refine does_bind does_keyOf fun _ _ key isKey => ?_
    refine does_weaken does_acquireIndexKeyLock ?_
    rintro k'' _ _ ⟨_, locked⟩ key' isKey' _
    rw [isKey] at isKey'
    cases isKey'
    exact locked
  · intro k'' _ _ locked order' ordered'
    rw [ordered] at ordered'
    cases ordered'
    exact locked

theorem does_compared {γ : Type} {a : Option γ} : Does c (compared a) k fun _ b => a = some b := by
  cases a with
  | none => exact does_throwing
  | some a => exact does_pure rfl

theorem does_acquireUpdateIndexMutationLocks {old new : Row}
    (valid : s.table.validateIndexKeyCompatibility new = none) :
    Does (writeContract s plain whole) (acquireUpdateIndexMutationLocks s old new) k fun k' _ =>
      ∀ order, s.table.getMaintenanceOrder = .ok order → ∀ index ∈ order,
        KeyLocked old k' index ∧ KeyLocked new k' index := by
  refine does_bind (m := fun _ order => s.table.getMaintenanceOrder = .ok order)
    (does_ofExcept fun _ ordered => ordered) fun k' _ order ordered => ?_
  refine does_weaken (does_forEach
    (d := fun k index => KeyLocked old k index ∧ KeyLocked new k index)
    (fun _ _ _ grown locked => ⟨locked.1.grow grown, locked.2.grow grown⟩) ?_) ?_
  · intro k₀ _ index member
    refine does_bind does_keyOf fun _ _ oldKey isOld => ?_
    refine does_bind does_keyOf fun _ _ newKey isNew => ?_
    have only {k : Known plain} {row : Row} {key : List Value}
        (isKey : extractKey row index = some key)
        (locked : k.1 (.keyRange index.indexRelationId) (some (pointRange key)) .x) :
        KeyLocked row k index := by
      intro key' isKey' _
      rw [isKey] at isKey'
      cases isKey'
      exact locked
    refine does_bind does_compared fun _ _ equal isEqual => ?_
    split
    · rename_i same
      rw [same] at isEqual
      refine does_weaken does_acquireIndexKeyLock ?_
      rintro k' _ _ ⟨isPlain, locked⟩
      refine ⟨only isOld locked, ?_⟩
      intro key isKey plainKey
      rw [isNew] at isKey
      cases isKey
      have noNull : hasNullComponent newKey = false := by
        have checked := List.findSome?_eq_none_iff.mp valid index
          (mem_of_maintenanceOrder ordered member)
        split at checked
        · cases checked
        · rw [isNew] at checked
          simp only at checked
          split at checked
          · cases checked
          · rename_i hasNone
            exact Bool.eq_false_iff.mpr hasNone
      exact k'.2 _ _ _ isEqual isPlain plainKey noNull locked
    · refine does_bind does_compared fun _ _ order' _ => ?_
      split
      · refine does_bind does_acquireIndexKeyLock fun k₁ _ _ lockedOld => ?_
        refine does_weaken does_acquireIndexKeyLock ?_
        rintro k₂ grown _ ⟨_, lockedNew⟩
        exact ⟨only isOld (grown _ _ _ lockedOld.2), only isNew lockedNew⟩
      · refine does_bind does_acquireIndexKeyLock fun k₁ _ _ lockedNew => ?_
        refine does_weaken does_acquireIndexKeyLock ?_
        rintro k₂ grown _ ⟨_, lockedOld⟩
        exact ⟨only isOld lockedOld, only isNew (grown _ _ _ lockedNew.2)⟩
  · intro k'' _ _ locked order' ordered'
    rw [ordered] at ordered'
    cases ordered'
    exact locked

theorem does_acquireUniqueIndexLocks :
    Does (writeContract s plain whole) (acquireUniqueIndexLocks s row) k fun _ _ => True := by
  refine does_weaken (does_forEach (d := fun _ _ => True) (fun _ _ _ _ _ => trivial) ?_)
    fun _ _ _ _ => trivial
  intro k' _ index _
  split
  · exact does_pure trivial
  · refine does_bind does_keyOf fun _ _ key _ => ?_
    exact does_weaken does_acquireIndexKeyLock fun _ _ _ _ => trivial

theorem does_validateUniqueIndexes {ridToIgnore : Option RID} :
    Does (writeContract s plain whole) (validateUniqueIndexes s row ridToIgnore) k fun _ _ => True := by
  refine does_weaken (does_forEach (d := fun _ _ => True) (fun _ _ _ _ _ => trivial) ?_)
    fun _ _ _ _ => trivial
  intro k' _ index _
  split
  · exact does_pure trivial
  · split
    · exact does_throwing
    · refine does_bind does_keyOf fun _ _ key _ => ?_
      refine does_bind (does_look ordinary_write) fun _ _ store _ => ?_
      refine does_bind (m := fun _ _ => True) (does_ofExcept fun _ _ => trivial)
        fun _ _ hits _ => ?_
      split
      · exact does_pure trivial
      · exact does_throwing

end IndexLocks

section Writes

variable {plain : Option KeyRange → Prop} {s : Setting} {whole : Bool} {k : Known plain}

structure KeysLocked (s : Setting) (whole : Bool) (row : Row) (k : Known plain)
    (indexes : List IndexCatalogEntry) : Prop where
  keys : ∀ index ∈ indexes, KeyLocked row k index
  table : whole = true → k.1 (.table s.relationId) none .x

theorem KeysLocked.grow {row : Row} {k k' : Known plain} {indexes : List IndexCatalogEntry}
    (grown : k ≤ k') (locked : KeysLocked s whole row k indexes) :
    KeysLocked s whole row k' indexes :=
  ⟨fun index member => (locked.keys index member).grow grown,
    fun isWhole => grown _ _ _ (locked.table isWhole)⟩

variable {indexes rest d : List IndexCatalogEntry} {row : Row} {rid : RID}
  {refusal failure : String}
  {loop : List IndexCatalogEntry → Routine (List IndexCatalogEntry × Option String)}

theorem KeysLocked.subset {indexes' : List IndexCatalogEntry}
    (locked : KeysLocked s whole row k indexes) (subset : indexes' ⊆ indexes) :
    KeysLocked s whole row k indexes' :=
  ⟨fun index member => locked.keys index (subset member), locked.table⟩

theorem does_insertEntries (locked : KeysLocked s whole row k rest) :
    Does (writeContract s plain whole) (insertEntries row rid d rest) k fun _ result =>
      result.1 ⊆ d ++ rest := by
  induction rest generalizing k d with
  | nil => exact does_pure (by simp)
  | cons index rest ih =>
    unfold TablePrograms.insertEntries
    split
    · exact does_pure (subset_append_left _ _)
    · rename_i key isKey
      refine does_bind (does_ask ⟨locked.keys index mem_cons_self key isKey, locked.table⟩
        fun _ _ _ => trivial) fun k' grown reply _ => ?_
      split
      · exact does_pure (subset_append_left _ _)
      · refine does_weaken (ih (d := d ++ [index])
          ((locked.subset (subset_cons_self _ _)).grow grown)) ?_
        intro _ _ result subset
        simpa using subset

theorem does_deleteEntries (locked : KeysLocked s whole row k rest) :
    Does (writeContract s plain whole) (deleteEntries refusal row rid d rest) k fun _ result =>
      result.1 ⊆ d ++ rest := by
  induction rest generalizing k d with
  | nil => exact does_pure (by simp)
  | cons index rest ih =>
    unfold TablePrograms.deleteEntries
    split
    · exact does_pure (subset_append_left _ _)
    · rename_i key isKey
      refine does_bind (does_ask ⟨locked.keys index mem_cons_self key isKey, locked.table⟩
        fun _ _ _ => trivial) fun k' grown reply _ => ?_
      split
      · exact does_pure (subset_append_left _ _)
      · exact does_pure (subset_append_left _ _)
      · refine does_weaken (ih (d := d ++ [index])
          ((locked.subset (subset_cons_self _ _)).grow grown)) ?_
        intro _ _ result subset
        simpa using subset

theorem does_maintain {post : Known plain → List IndexCatalogEntry × Option String → Prop}
    (none : ∀ what, post k ([], some what))
    (pass : ∀ order, s.table.getMaintenanceOrder = .ok order → Does (writeContract s plain whole)
      (loop order) k post) :
    Does (writeContract s plain whole) (maintain s loop) k post := by
  unfold maintain
  split
  · exact does_pure (none _)
  · rename_i order ordered
    exact pass order ordered

section

variable (locked : KeysLocked s whole row k indexes)

include locked

theorem does_removeEntry {index : IndexCatalogEntry}
    (member : index ∈ indexes) :
    Does (writeContract s plain whole) (removeEntry refusal failure row rid index) k
      fun _ _ => True := by
  unfold removeEntry
  split
  · exact does_pure trivial
  · rename_i key isKey
    refine does_bind (does_ask ⟨locked.keys index member key isKey, locked.table⟩
      fun _ _ _ => trivial) fun _ _ reply _ => ?_
    split <;> exact does_pure trivial

theorem does_restoreEntry {index : IndexCatalogEntry}
    (member : index ∈ indexes) :
    Does (writeContract s plain whole) (restoreEntry failure row rid index) k fun _ _ => True := by
  unfold restoreEntry
  split
  · exact does_pure trivial
  · rename_i key isKey
    refine does_bind (does_ask ⟨locked.keys index member key isKey, locked.table⟩
      fun _ _ _ => trivial) fun _ _ reply _ => ?_
    split <;> exact does_pure trivial

theorem does_removeInserted :
    Does (writeContract s plain whole) (TablePrograms.removeInserted refusal failure row rid indexes) k
      fun _ _ => True := by
  induction indexes generalizing k with
  | nil => exact does_pure trivial
  | cons index rest ih =>
    refine does_bind (does_removeEntry locked mem_cons_self) fun k' grown _ _ => ?_
    exact does_bind (ih ((locked.subset (subset_cons_self _ _)).grow grown))
      fun _ _ _ _ => does_pure trivial

theorem does_restoreDeleted :
    Does (writeContract s plain whole) (TablePrograms.restoreDeleted failure row rid indexes) k
      fun _ _ => True := by
  induction indexes generalizing k with
  | nil => exact does_pure trivial
  | cons index rest ih =>
    refine does_bind (does_restoreEntry locked mem_cons_self) fun k' grown _ _ => ?_
    exact does_bind (ih ((locked.subset (subset_cons_self _ _)).grow grown))
      fun _ _ _ _ => does_pure trivial

end

theorem does_removeTuple :
    Does (writeContract s plain whole) (removeTuple s refusal failure rid) k fun _ _ => True := by
  refine does_bind (does_attempt does_heapDeleteTuple) fun _ _ result _ => ?_
  split <;> exact does_pure trivial

structure OrderLocked (s : Setting) (whole : Bool) (row : Row) (k : Known plain) : Prop where
  keys : ∀ order, s.table.getMaintenanceOrder = .ok order → ∀ index ∈ order, KeyLocked row k index
  table : whole = true → k.1 (.table s.relationId) none .x

private theorem OrderLocked.grow {row : Row} {k k' : Known plain} (grown : k ≤ k')
    (locked : OrderLocked s whole row k) : OrderLocked s whole row k' :=
  ⟨fun order ordered index member => (locked.keys order ordered index member).grow grown,
    fun isWhole => grown _ _ _ (locked.table isWhole)⟩

private theorem OrderLocked.all (locked : OrderLocked s whole row k)
    {order : List IndexCatalogEntry} (ordered : s.table.getMaintenanceOrder = .ok order) :
    KeysLocked s whole row k order :=
  ⟨locked.keys order ordered, locked.table⟩

private theorem OrderLocked.passed {row : Row} (locked : OrderLocked s whole row k)
    {done : List IndexCatalogEntry}
    (inOrder : done = [] ∨ ∃ order, s.table.getMaintenanceOrder = .ok order ∧
      done ⊆ [] ++ order) : KeysLocked s whole row k done.reverse := by
  refine ⟨fun index member => ?_, locked.table⟩
  rcases inOrder with rfl | ⟨order, ordered, subset⟩
  · cases member
  · exact locked.keys order ordered index (by simpa using subset (List.mem_reverse.mp member))

private theorem does_maintain_order
    (pass : ∀ order, s.table.getMaintenanceOrder = .ok order → Does (writeContract s plain whole)
      (loop order) k fun _ result => result.1 ⊆ [] ++ order) :
    Does (writeContract s plain whole) (maintain s loop) k fun _ result => result.1 = [] ∨
      ∃ order, s.table.getMaintenanceOrder = .ok order ∧ result.1 ⊆ [] ++ order :=
  does_maintain (fun _ => .inl rfl) fun order ordered =>
    does_weaken (pass order ordered) fun _ _ _ subset => .inr ⟨order, ordered, subset⟩

theorem does_insertTuple :
    Does (writeContract s plain whole) (TablePrograms.insertTuple s row) k fun _ _ => True := by
  unfold TablePrograms.insertTuple
  split
  · exact does_throwing
  · refine does_bind does_acquireIndexRelationWriteLocks fun _ _ _ _ => ?_
    refine does_bind does_acquireAllIndexMutationLocks fun k₁ _ _ keys => ?_
    refine does_bind does_acquireUniqueIndexLocks fun k₂ grown₂ _ _ => ?_
    refine does_bind does_validateUniqueIndexes fun k₃ grown₃ _ _ => ?_
    refine does_bind does_heapInsertTuple fun k₄ grown₄ rid table => ?_
    have grown : k₁ ≤ k₄ := le_trans grown₂ (le_trans grown₃ grown₄)
    have locked : OrderLocked s whole row k₄ :=
      ⟨fun order ordered index member => (keys order ordered index member).grow grown,
        fun _ => table⟩
    refine does_bind (does_maintain_order fun order ordered =>
      does_insertEntries (locked.all ordered)) fun k₅ grown₅ result inOrder => ?_
    split
    · exact does_pure trivial
    · refine does_bind (does_removeInserted ((locked.grow grown₅).passed inOrder))
        fun _ _ _ _ => ?_
      exact does_bind does_removeTuple fun _ _ _ _ => does_throwing

theorem does_undoDelete {deleted : List IndexCatalogEntry} {what : String}
    (locked : KeysLocked s whole row k deleted.reverse) :
    Does (writeContract s plain whole) (undoDelete row rid deleted what) k fun _ _ => True :=
  does_bind (does_restoreDeleted locked) fun _ _ _ _ => does_throwing

theorem does_deleteTuple :
    Does (writeContract s plain false) (TablePrograms.deleteTuple s rid) k fun _ _ => True := by
  refine does_bind (does_getTuple ordinary_write) fun _ _ found _ => ?_
  split
  · exact does_pure trivial
  · rename_i old
    refine does_bind does_acquireIndexRelationWriteLocks fun _ _ _ _ => ?_
    refine does_bind does_acquireAllIndexMutationLocks fun k₁ _ _ keys => ?_
    have locked : OrderLocked s false old k₁ := ⟨keys, by rintro ⟨⟩⟩
    refine does_bind (does_maintain_order fun order ordered =>
      does_deleteEntries (locked.all ordered)) fun k₂ grown result inOrder => ?_
    split
    · exact does_undoDelete ((locked.grow grown).passed inOrder)
    · refine does_bind (does_attempt does_heapDeleteTuple) fun k₃ grown' result' _ => ?_
      have back := (locked.grow (le_trans grown grown')).passed inOrder
      split
      · exact does_undoDelete back
      · exact does_undoDelete back
      · exact does_pure trivial

theorem does_undoUpdate {old new : Row} {rid newRid : RID}
    {inserted deleted : List IndexCatalogEntry} {what : String}
    (lockedOld : KeysLocked s whole old k deleted.reverse)
    (lockedNew : KeysLocked s whole new k inserted.reverse) :
    Does (writeContract s plain whole) (undoUpdate s old new rid newRid inserted deleted what) k
      fun _ _ => True := by
  refine does_bind (does_restoreDeleted lockedOld) fun _ grown _ _ => ?_
  refine does_bind (does_removeInserted (lockedNew.grow grown)) fun _ _ _ _ => ?_
  exact does_bind does_removeTuple fun _ _ _ _ => does_throwing

theorem does_replaceTuple {old new : Row}
    (valid : s.table.validateIndexKeyCompatibility new = none) :
    Does (writeContract s plain whole) (replaceTuple s rid old new) k fun _ _ => True := by
  refine does_bind does_acquireIndexRelationWriteLocks fun _ _ _ _ => ?_
  refine does_bind (does_acquireUpdateIndexMutationLocks valid) fun k₁ _ _ keys => ?_
  refine does_bind does_acquireUniqueIndexLocks fun k₂ grown₂ _ _ => ?_
  refine does_bind does_validateUniqueIndexes fun k₃ grown₃ _ _ => ?_
  refine does_bind does_heapInsertTuple fun k₄ grown₄ newRid table => ?_
  have grown : k₁ ≤ k₄ := le_trans grown₂ (le_trans grown₃ grown₄)
  have lockedOld : OrderLocked s whole old k₄ :=
    ⟨fun order ordered index member => (keys order ordered index member).1.grow grown,
      fun _ => table⟩
  have lockedNew : OrderLocked s whole new k₄ :=
    ⟨fun order ordered index member => (keys order ordered index member).2.grow grown,
      fun _ => table⟩
  refine does_bind (does_maintain_order fun order ordered =>
    does_insertEntries (lockedNew.all ordered)) fun k₅ grown₅ result inserted => ?_
  split
  · refine does_undoUpdate ⟨?_, (lockedOld.grow grown₅).table⟩
      ((lockedNew.grow grown₅).passed inserted)
    intro index member
    cases member
  · refine does_bind (does_maintain_order fun order ordered =>
      does_deleteEntries ((lockedOld.grow grown₅).all ordered)) fun k₆ grown₆ result' deleted => ?_
    have more : k₄ ≤ k₆ := le_trans grown₅ grown₆
    split
    · exact does_undoUpdate ((lockedOld.grow more).passed deleted)
        ((lockedNew.grow more).passed inserted)
    · refine does_bind (does_attempt does_heapDeleteTuple) fun k₇ grown₇ _ _ => ?_
      have last : k₄ ≤ k₇ := le_trans more grown₇
      have back (what : String) := @does_undoUpdate _ s whole k₇ old new rid newRid _ _ what
        ((lockedOld.grow last).passed deleted) ((lockedNew.grow last).passed inserted)
      split
      · exact back _
      · exact back _
      · exact does_pure trivial

theorem does_updateTuple {new : Row} :
    Does (writeContract s plain whole) (TablePrograms.updateTuple s rid new) k fun _ _ => True := by
  refine does_bind (does_getTuple ordinary_write) fun _ _ found _ => ?_
  split
  · exact does_pure trivial
  · split
    · exact does_throwing
    · rename_i valid
      refine does_bind does_compared fun _ _ changed _ => ?_
      refine does_bind does_canUpdateTupleInPlace fun _ _ inPlace _ => ?_
      split
      · exact does_heapUpdateTuple
      · exact does_replaceTuple valid

end Writes

section Executors

variable {plain : Option KeyRange → Prop} {s : Setting} {whole : Bool} {k : Known plain}

variable {index : IndexCatalogEntry} {keyExpr : Execution.Expressions.Expression}

theorem does_searchKey {key : Value} :
    Does (readContract s plain false) (searchKey index key) k fun _ _ => True := by
  unfold searchKey
  split
  · exact does_throwing
  · exact does_bind (does_ask (by rintro ⟨⟩) fun _ _ _ => trivial)
      fun _ _ _ _ => does_ofExcept fun _ _ => trivial

theorem does_leftKey {row : Row} {c : Contract Request Reply (Known plain)} :
    Does c (leftKey keyExpr row) k fun _ _ => True := by
  unfold leftKey
  split
  · exact does_pure trivial
  · exact does_throwing

theorem does_indexNestedLoopJoin {left : List LeftRow} :
    Does (readContract s plain false) (indexNestedLoopJoin s index keyExpr left) k
      fun _ _ => True := by
  induction left generalizing k with
  | nil => exact does_pure trivial
  | cons row rest ih =>
    refine does_bind (does_acquireLocks ordinary_read) fun _ _ _ _ => ?_
    refine does_bind does_leftKey fun _ _ _ _ => ?_
    refine does_bind does_searchKey fun _ _ _ _ => ?_
    refine does_bind (does_fetchTuples ordinary_read) fun _ _ _ _ => ?_
    exact does_bind ih fun _ _ _ _ => does_pure trivial

theorem does_memoizedIndexNestedLoopJoin {memo : List (List UInt8 × List Row)}
    {left : List LeftRow} :
    Does (readContract s plain false) (memoizedIndexNestedLoopJoin s index keyExpr memo left) k
      fun _ _ => True := by
  induction left generalizing k memo with
  | nil => exact does_pure trivial
  | cons row rest ih =>
    refine does_bind (does_acquireLocks ordinary_read) fun _ _ _ _ => ?_
    refine does_bind does_leftKey fun _ _ _ _ => ?_
    split
    · exact does_bind ih fun _ _ _ _ => does_pure trivial
    · refine does_bind does_searchKey fun _ _ _ _ => ?_
      refine does_bind (does_fetchTuples ordinary_read) fun _ _ _ _ => ?_
      exact does_bind ih fun _ _ _ _ => does_pure trivial

end Executors

end GraniteDb.Storage.WriteLocks
