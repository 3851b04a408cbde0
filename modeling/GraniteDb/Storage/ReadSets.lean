/- The entries an executor looked for and the locked heap fix the rows it returns. -/

import GraniteDb.Storage.Sessions
import Mathlib.Data.Multiset.Bind

namespace GraniteDb.Storage.ReadSets

open Common.Types Common.Value Execution.Expressions Lib.Program Storage.TablePrograms
open Storage.Sessions
open Access.IndexScan (PrefixScanSpec)
open Concurrency.LockManager (LockMode QueueId)
open Storage.Table (Store IndexCatalogEntry)
open Storage.WriteLocks (Does does_pure does_throwing does_ofExcept does_bind does_weaken
  does_ask does_forEach)

section Rows

variable (s : Setting) (store : Store)

def rowAt (rid : RID) : Multiset Row :=
  match store.heap.getTuple s.table.schema rid with
  | .ok (some row) => {row}
  | _ => 0

def rowsUnder (index : IndexCatalogEntry) (wanted : List Value → Bool) : Multiset Row :=
  (hitsOf store index wanted).bind (rowAt s store)

def joinedRows (index : IndexCatalogEntry) (keyExpr : Expression) : List LeftRow → Multiset Row
  | [] => 0
  | left :: rest =>
    match keyExpr.evaluate (some left.row) none with
    | none => 0
    | some key =>
      (rowsUnder s store index fun k => k == [key]).map (left.row ++ ·) +
        joinedRows index keyExpr rest

def memoizedRows (index : IndexCatalogEntry) (keyExpr : Expression)
    (memo : List (List UInt8 × Multiset Row)) : List LeftRow → Multiset Row
  | [] => 0
  | left :: rest =>
    match keyExpr.evaluate (some left.row) none with
    | none => 0
    | some key =>
      match memo.lookup (serializeValueForHash key) with
      | some matched =>
        matched.map (left.row ++ ·) + memoizedRows index keyExpr memo rest
      | none =>
        let matched := rowsUnder s store index fun k => k == [key]
        matched.map (left.row ++ ·) +
          memoizedRows index keyExpr ((serializeValueForHash key, matched) :: memo) rest

def rowsOf : Executor → Multiset Row
  | .genericIndexScan index spec => rowsUnder s store index (scanWants spec)
  | .indexNestedLoopJoin index keyExpr left => joinedRows s store index keyExpr left
  | .memoizedIndexNestedLoopJoin index keyExpr left => memoizedRows s store index keyExpr [] left

variable {s store}

end Rows

section Sights

/-- What a transaction can rely on: the stores there may still be while it reads, and whether it
has a lock on the table. -/
structure Sight where
  possible : Store → Prop
  onTable : Prop

instance : Preorder Sight where
  le k k' := (∀ store, k'.possible store → k.possible store) ∧ (k.onTable → k'.onTable)
  le_refl _ := ⟨fun _ => id, id⟩
  le_trans _ _ _ first second :=
    ⟨fun store still => first.1 store (second.1 store still), fun held => second.2 (first.2 held)⟩

/-- What a reply shows. A search shows the entries it looked for, and a look the heap, if the
table is locked by then. -/
def Shown (s : Setting) (k : Sight) (r : Request) (reply : Reply r) (k' : Sight) : Prop :=
  k ≤ k' ∧
    match r, reply with
    | .lock queue _ _, reply => queue = .table s.relationId → reply = true → k'.onTable
    | .look, store =>
      k.possible store ∧ (k.onTable → ∀ store', k'.possible store' → store'.heap = store.heap)
    | .search index wanted, .ok hits =>
      ∀ store, k'.possible store → (hits : Multiset RID) = hitsOf store index wanted ∧
        ∀ rid ∈ hits, rid.pageNo < store.heap.slots.length
    | _, _ => True

theorem Shown.mono {s : Setting} {k k' k'' : Sight} {r : Request} {reply : Reply r}
    (grown : k ≤ k') (shown : Shown s k' r reply k'') : Shown s k r reply k'' := by
  obtain ⟨more, shows⟩ := shown
  refine ⟨le_trans grown more, ?_⟩
  cases r with
  | look => exact ⟨grown.1 _ shows.1, fun held => shows.2 (grown.2 held)⟩
  | search _ _ =>
    cases reply with
    | ok _ => exact shows
    | error _ => trivial
  | _ => exact shows

def sightContract (s : Setting) : Contract Request Reply Sight where
  allowed _
    | .lock _ _ _ | .look | .search _ _ => True
    | _ => False
  after := Shown s
  grows shown := shown.1
  allowed_mono _ allowed := allowed
  after_mono := Shown.mono

variable {s : Setting} {k : Sight}

variable {mode : LockMode} {index : IndexCatalogEntry} {keyExpr : Expression}

theorem does_lock {queue : QueueId} {range : Option Concurrency.LockManager.KeyRange} :
    Does (sightContract s) (ask (.lock queue range mode)) k fun k' reply =>
      queue = .table s.relationId → reply = true → k'.onTable :=
  does_ask trivial fun _ _ shown => shown.2

theorem does_acquireTableLock :
    Does (sightContract s) (acquireTableLock s mode) k fun k' _ => k'.onTable := by
  refine does_bind does_lock fun k' _ reply held => ?_
  cases reply with
  | true => exact does_pure (held rfl rfl)
  | false => exact does_throwing

theorem does_acquireRecordLock {rid : RID} :
    Does (sightContract s) (acquireRecordLock s rid mode) k fun _ _ => True := by
  refine does_bind does_lock fun k' _ reply _ => ?_
  cases reply with
  | false => exact does_throwing
  | true =>
    refine does_bind (m := fun _ _ => True) (does_ask trivial fun _ _ _ => trivial)
      fun k'' _ store _ => ?_
    split
    · exact does_bind does_lock fun _ _ _ _ => does_pure trivial
    · exact does_pure trivial

theorem does_getTuple {rid : RID}
    (inFile : ∀ store, k.possible store → rid.pageNo < store.heap.slots.length) :
    Does (sightContract s) (getTuple s rid) k fun k' row =>
      ∀ store, k'.possible store → (row.toList : Multiset Row) = rowAt s store rid := by
  have looked : Does (sightContract s) (ask .look) k fun _ store => k.possible store :=
    does_ask trivial fun _ _ shown => shown.2.1
  refine does_bind looked fun k₁ _ store still => ?_
  have pageThere : ¬store.heap.slots.length ≤ rid.pageNo := Nat.not_le.mpr (inFile store still)
  rw [if_neg pageThere]
  refine does_bind does_acquireTableLock fun k₂ _ _ held => ?_
  refine does_bind does_acquireRecordLock fun k₃ grown _ _ => ?_
  have heapSeen : Does (sightContract s) (ask .look) k₃ fun k₄ store =>
      ∀ store', k₄.possible store' → store'.heap = store.heap :=
    does_ask trivial fun _ _ shown => shown.2.2 (grown.2 held)
  refine does_bind heapSeen fun k₄ _ store sameHeap => ?_
  refine does_ofExcept fun row read store' still' => ?_
  unfold rowAt
  rw [sameHeap store' still', read]
  cases row <;> rfl

theorem does_fetchTuples {rids : List RID}
    (inFile : ∀ store, k.possible store → ∀ rid ∈ rids, rid.pageNo < store.heap.slots.length) :
    Does (sightContract s) (fetchTuples s rids) k fun k' rows =>
      ∀ store, k'.possible store → (rows : Multiset Row) =
        (rids : Multiset RID).bind (rowAt s store) := by
  induction rids generalizing k with
  | nil => exact does_pure fun _ _ => rfl
  | cons rid rest ih =>
    have first := does_getTuple (s := s) fun store still =>
      inFile store still rid List.mem_cons_self
    refine does_bind first fun k₁ grown row isRow => ?_
    refine does_bind (ih fun store still rid' member =>
      inFile store (grown.1 store still) rid' (List.mem_cons_of_mem _ member))
      fun k₂ grown₂ rows areRows => ?_
    refine does_pure fun store still => ?_
    rw [← Multiset.cons_coe, Multiset.cons_bind, ← areRows store still,
      ← isRow store (grown₂.1 store still), Multiset.coe_add]

theorem does_acquireLocks {calls : List LockCall} :
    Does (sightContract s) (acquireLocks calls) k fun _ _ => True := by
  refine does_weaken (does_forEach (d := fun _ _ => True) (fun _ _ _ _ _ => trivial) ?_)
    fun _ _ _ _ => trivial
  intro k' _ call _
  refine does_bind does_lock fun _ _ reply _ => ?_
  cases reply with
  | true => exact does_pure trivial
  | false => exact does_throwing

def Hits (k : Sight) (index : IndexCatalogEntry) (wanted : List Value → Bool) (hits : List RID) :
    Prop :=
  ∀ store, k.possible store → (hits : Multiset RID) = hitsOf store index wanted ∧
    ∀ rid ∈ hits, rid.pageNo < store.heap.slots.length

theorem does_search {wanted : List Value → Bool} :
    Does (sightContract s) (ask (.search index wanted)) k fun k' reply =>
      ∀ hits, reply = .ok hits → Hits k' index wanted hits := by
  refine does_ask trivial fun reply k' shown => ?_
  rintro hits rfl
  exact shown.2

theorem does_fetchHits {wanted : List Value → Bool} {hits : List RID}
    (found : Hits k index wanted hits) :
    Does (sightContract s) (fetchTuples s hits) k fun k' rows =>
      ∀ store, k'.possible store → (rows : Multiset Row) = rowsUnder s store index wanted := by
  refine does_weaken (does_fetchTuples fun store still => (found store still).2) ?_
  intro k' grown rows areRows store still
  rw [areRows store still, (found store (grown.1 store still)).1]
  rfl

theorem does_genericIndexScan {spec : Option PrefixScanSpec} :
    Does (sightContract s) (genericIndexScan s index spec) k fun k' rows =>
      ∀ store, k'.possible store →
        (rows : Multiset Row) = rowsUnder s store index (scanWants spec) := by
  refine does_bind does_lock fun _ _ reply _ => ?_
  cases reply with
  | true =>
    refine does_bind does_search fun _ _ _ found => ?_
    refine does_bind (m := fun k hits => Hits k index (scanWants spec) hits)
      (does_ofExcept found) fun _ _ hits areHits => ?_
    exact does_fetchHits areHits
  | false => exact does_throwing

theorem does_searchKey {key : Value} :
    Does (sightContract s) (searchKey index key) k fun k' hits =>
      Hits k' index (fun k => k == [key]) hits := by
  unfold searchKey
  split
  · exact does_throwing
  · exact does_bind does_search fun _ _ _ found => does_ofExcept found

theorem does_leftKey {row : Row} :
    Does (sightContract s) (leftKey keyExpr row) k fun _ key =>
      keyExpr.evaluate (some row) none = some key := by
  unfold leftKey
  split
  · rename_i key isKey
    exact does_pure isKey
  · exact does_throwing

theorem does_indexNestedLoopJoin {left : List LeftRow} :
    Does (sightContract s) (indexNestedLoopJoin s index keyExpr left) k fun k' rows =>
      ∀ store, k'.possible store →
        (rows : Multiset Row) = joinedRows s store index keyExpr left := by
  induction left generalizing k with
  | nil => exact does_pure fun _ _ => rfl
  | cons row rest ih =>
    refine does_bind does_acquireLocks fun _ _ _ _ => ?_
    refine does_bind does_leftKey fun _ _ key isKey => ?_
    refine does_bind does_searchKey fun _ _ hits found => ?_
    refine does_bind (does_fetchHits found) fun k₁ _ matched areMatched => ?_
    refine does_bind ih fun k₂ grown rows areRows => does_pure fun store still => ?_
    unfold joinedRows
    rw [isKey, ← areRows store still]
    simp only [← areMatched store (grown.1 store still), Multiset.map_coe, Multiset.coe_add]

private theorem lookup_memo (bytes : List UInt8) (memo : List (List UInt8 × List Row)) :
    (memo.map fun m => (m.1, (m.2 : Multiset Row))).lookup bytes =
      (memo.lookup bytes).map fun rows : List Row => (rows : Multiset Row) := by
  induction memo with
  | nil => rfl
  | cons m memo ih =>
    rw [List.map_cons, List.lookup_cons, List.lookup_cons]
    cases bytes == m.1 with
    | true => rfl
    | false => exact ih

theorem does_memoizedIndexNestedLoopJoin {memo : List (List UInt8 × List Row)}
    {left : List LeftRow} :
    Does (sightContract s) (memoizedIndexNestedLoopJoin s index keyExpr memo left) k
      fun k' rows => ∀ store, k'.possible store → (rows : Multiset Row) =
        memoizedRows s store index keyExpr (memo.map fun m => (m.1, (m.2 : Multiset Row))) left := by
  induction left generalizing k memo with
  | nil => exact does_pure fun _ _ => rfl
  | cons row rest ih =>
    refine does_bind does_acquireLocks fun _ _ _ _ => ?_
    refine does_bind does_leftKey fun _ _ key isKey => ?_
    have looked := lookup_memo (serializeValueForHash key) memo
    split
    · rename_i matched isKnown
      refine does_bind ih fun _ _ rows areRows => does_pure fun store still => ?_
      rw [isKnown] at looked
      simp only [memoizedRows, isKey, looked, Option.map_some, ← areRows store still,
        Multiset.map_coe, Multiset.coe_add]
    · rename_i unknown
      refine does_bind does_searchKey fun _ _ hits found => ?_
      refine does_bind (does_fetchHits found) fun k₁ _ matched areMatched => ?_
      refine does_bind ih fun k₂ grown rows areRows => does_pure fun store still => ?_
      rw [unknown] at looked
      have same := areMatched store (grown.1 store still)
      have others := areRows store still
      rw [List.map_cons] at others
      simp only [memoizedRows, isKey, looked, Option.map_none, ← same, ← others,
        Multiset.map_coe, Multiset.coe_add]

theorem does_executor (executor : Executor) :
    Does (sightContract s) (executor.program s) k fun k' rows =>
      ∀ store, k'.possible store → (rows : Multiset Row) = rowsOf s store executor := by
  cases executor with
  | genericIndexScan index spec => exact does_genericIndexScan
  | indexNestedLoopJoin index keyExpr left => exact does_indexNestedLoopJoin
  | memoizedIndexNestedLoopJoin index keyExpr left => exact does_memoizedIndexNestedLoopJoin

end Sights

end GraniteDb.Storage.ReadSets
