/- What the writes of a table do when no operation fails by itself. -/

import GraniteDb.Storage.HeapIndexAgreement

namespace GraniteDb.Storage.QuietWrites

open Common.Types Common.Value Access.HeapFile Lib.Ledger Storage.Table Storage.AllOrNothing
open Storage.WriteOutcomes Storage.HeapIndexAgreement
open List (mem_cons_self mem_cons_of_mem reverse_nil mem_reverse)

section Working

/-- No operation fails by itself, and an insert always finds space. -/
structure Working (env : Environment) : Prop where
  quiet : ∀ clock, env.fault clock = none
  roomy : ∀ clock heap size, (env.pickRid clock heap size).isSome = true

variable {env : Environment} {table : Table} {s s' : Store}

theorem acquireLocks_working (working : Working env) (s : Store) :
    acquireLocks env s = (.ok (), s.tick) := by
  unfold acquireLocks
  rw [working.quiet]

theorem insertEntry_working (working : Working env) {index : IndexCatalogEntry}
    {key : List Value} (accepted : index.encodeFailure key = none) (rid : RID) (s : Store) :
    insertEntry env index key rid s =
      (.ok (), { s.tick with entries := put s.entries index.indexRelationId (key, rid) }) := by
  unfold insertEntry
  rw [working.quiet, accepted]

variable {rid : RID} {row new : Row} {r old : HeapRecord} {todo indexes : List IndexCatalogEntry}
  {what : String}

section

variable (working : Working env)

include working

theorem deleteEntry_working {index : IndexCatalogEntry} {key : List Value}
    (accepted : index.encodeFailure key = none) {s : Store}
    (present : (key, rid) ∈ s.entries index.indexRelationId) :
    deleteEntry env index key rid s =
      (.ok true, { s.tick with entries := take s.entries index.indexRelationId (key, rid) }) := by
  unfold deleteEntry
  rw [working.quiet, accepted]
  exact if_pos present

theorem heapInsert_working {schema : List Column} {size : Nat}
    (encoded : encode row schema = .ok size) (fits : size ≤ maxRecordOnEmptyPage) (s : Store) :
    ∃ rid, heapInsert env schema row s =
      (.ok rid, { s.tick with heap := s.heap.put rid ⟨decoded schema row, size⟩ }) := by
  obtain ⟨rid, picked⟩ := Option.isSome_iff_exists.mp (working.roomy s.clock s.heap size)
  refine ⟨rid, ?_⟩
  unfold heapInsert
  rw [working.quiet, encoded]
  simp only
  rw [if_neg (by omega), picked]

theorem heapDelete_working (live : s.heap.record rid = some r) :
    heapDelete env rid s = (.ok true, { s.tick with heap := s.heap.erase rid }) := by
  unfold heapDelete
  rw [working.quiet]
  simp [live]

theorem heapUpdate_working {schema : List Column}
    (live : s.heap.record rid = some r) :
    heapUpdate env schema rid row s ≠ (.ok none, s') := by
  unfold heapUpdate
  rw [working.quiet, live]
  cases encode row schema with
  | error what => simp
  | ok size =>
    simp only
    split
    · simp
    · split
      · simp
      · split <;> simp

theorem insertEntries_working (keys : HasKeys row todo)
    (accept : Accept row todo) (done : List IndexCatalogEntry) (s : Store) :
    (insertEntries env row rid todo done s).1.2 = none := by
  induction todo generalizing done s with
  | nil => rfl
  | cons index rest ih =>
    obtain ⟨key, extracted⟩ := keys index mem_cons_self
    unfold insertEntries
    simp only [extracted]
    rw [insertEntry_working working (accept index mem_cons_self key extracted)]
    exact ih (fun i member => keys i (mem_cons_of_mem _ member))
      (fun i member => accept i (mem_cons_of_mem _ member)) _ _

theorem deleteEntries_working {refusal : String} (keys : HasKeys row todo)
    (accept : Accept row todo) (done : List IndexCatalogEntry) {s : Store}
    (present : CanTake s.entries (entriesOf row rid todo)) :
    (deleteEntries env refusal row rid todo done s).1.2 = none := by
  induction todo generalizing done s with
  | nil => rfl
  | cons index rest ih =>
    obtain ⟨key, extracted⟩ := keys index mem_cons_self
    simp only [entriesOf, List.map_cons, extracted, Option.getD_some, CanTake] at present
    unfold deleteEntries
    simp only [extracted]
    rw [deleteEntry_working working (accept index mem_cons_self key extracted) present.1]
    exact ih (fun i member => keys i (mem_cons_of_mem _ member))
      (fun i member => accept i (mem_cons_of_mem _ member)) _ present.2

theorem removeInserted_working (refusal failure : String)
    (keys : HasKeys row indexes) (accept : Accept row indexes) (s : Store)
    (present : CanTake s.entries (entriesOf row rid indexes)) :
    (removeInserted env refusal failure row rid indexes s).2.failures = s.failures := by
  induction indexes generalizing s with
  | nil => rfl
  | cons index rest ih =>
    obtain ⟨key, extracted⟩ := keys index mem_cons_self
    simp only [entriesOf, List.map_cons, extracted, Option.getD_some, CanTake] at present
    unfold removeInserted
    simp only [extracted]
    rw [deleteEntry_working working (accept index mem_cons_self key extracted) present.1]
    exact ih (fun i member => keys i (mem_cons_of_mem _ member))
      (fun i member => accept i (mem_cons_of_mem _ member)) _ present.2

theorem removeTuple_working (refusal failure : String)
    (live : s.heap.record rid = some r) :
    (removeTuple env refusal failure rid s).2.failures = s.failures := by
  unfold removeTuple
  rw [heapDelete_working working live]
  rfl

theorem validateUnique_working {ignored : Option RID} {s : Store}
    (attached : ∀ index ∈ indexes, index.runtimeIndex.isSome = true) (keys : HasKeys row indexes)
    (accept : Accept row indexes)
    (unused : ∀ index ∈ indexes, index.isUnique = true → ∀ key, extractKey row index = some key → ∀
      rid, (key, rid) ∈ s.entries index.indexRelationId → ignored = some rid) :
    (validateUnique env row ignored indexes s).1 = .ok () := by
  induction indexes generalizing s with
  | nil => rfl
  | cons index rest ih =>
    have later (m : Store) (same : m.entries = s.entries) :
        (validateUnique env row ignored rest m).1 = .ok () := by
      refine ih (fun i member => attached i (mem_cons_of_mem _ member))
        (fun i member => keys i (mem_cons_of_mem _ member))
        (fun i member => accept i (mem_cons_of_mem _ member)) fun i member => ?_
      rw [same]
      exact unused i (mem_cons_of_mem _ member)
    obtain ⟨key, extracted⟩ := keys index mem_cons_self
    have isAttached : index.runtimeIndex.isNone = false := by
      have isSome := attached index mem_cons_self
      cases runtime : index.runtimeIndex with
      | none => simp [runtime] at isSome
      | some _ => rfl
    unfold validateUnique
    cases isUnique : index.isUnique with
    | false =>
      simp only [Bool.false_eq_true, if_false]
      exact later s rfl
    | true =>
      have hits : searchExact env index key s = (.ok (((s.entries index.indexRelationId).filter
          fun e => e.1 = key).map Prod.snd), s.tick) := by
        unfold searchExact
        rw [working.quiet, accept index mem_cons_self key extracted]
      have onlyIgnored : ∀ hit ∈ ((s.entries index.indexRelationId).filter
          fun e => e.1 = key).map Prod.snd, ignored = some hit := by
        intro hit isHit
        obtain ⟨entry, inFilter, rfl⟩ := Multiset.mem_map.mp isHit
        obtain ⟨present, rfl⟩ := Multiset.mem_filter.mp inFilter
        exact unused index mem_cons_self isUnique _ extracted _ present
      simp only [if_true, isAttached, Bool.false_eq_true, if_false, extracted, hits]
      rw [if_pos onlyIgnored]
      exact later s.tick rfl

end

structure Present (table : Table) (s : Store) (row : Row) (rid : RID) : Prop where
  length : row.length = table.schema.length
  entries : ∀ index ∈ table.indexes, ∀ key, extractKey row index = some key →
    (key, rid) ∈ s.entries index.indexRelationId
  accept : Accept row table.indexes

theorem Present.canTake (present : Present table s row rid) {order : List IndexCatalogEntry}
    (perm : order.Perm table.indexes) {l : Ledger Nat (List Value × RID)}
    (more : ∀ id e, e ∈ s.entries id → e ∈ l id) : CanTake l (entriesOf row rid order) := by
  refine canTake_of_nodup ?_ ?_
  · have ids : (entriesOf row rid order).map Prod.fst =
        order.map IndexCatalogEntry.indexRelationId := by
      simp [entriesOf, Function.comp_def]
    rw [ids]
    exact (perm.map _).nodup_iff.mpr table.distinct
  · intro e member
    obtain ⟨index, inOrder, rfl⟩ := List.mem_map.mp member
    obtain ⟨key, extracted⟩ := hasKeys_of_length present.length index (perm.mem_iff.mp inOrder)
    simp only [extracted, Option.getD_some]
    exact more _ _ (present.entries index (perm.mem_iff.mp inOrder) key extracted)

section

variable (working : Working env)

include working

theorem maintain_delete_working (refusal : String)
    (present : Present table s row rid)
    (attached : ∀ index ∈ table.indexes, index.runtimeIndex.isSome = true) {m : Store}
    (more : ∀ id e, e ∈ s.entries id → e ∈ m.entries id) :
    (table.maintain (deleteEntries env refusal row rid) m).1.2 = none := by
  obtain ⟨order, ordered, perm⟩ := getMaintenanceOrder_ok attached
  rw [Table.maintain, ordered]
  exact deleteEntries_working working
    (fun i member => hasKeys_of_length present.length i (perm.mem_iff.mp member))
    (fun i member => present.accept i (perm.mem_iff.mp member)) [] (present.canTake perm more)

theorem replaceTuple_error_unchanged (live : s.heap.record rid = some old)
    (present : Present table s old.row rid) (valid : table.validateIndexKeyCompatibility new = none)
    (ran : table.replaceTuple env rid old.row new s = (.error what, s')) : Unchanged s s' := by
  unfold Table.replaceTuple at ran
  rw [acquireLocks_working working] at ran
  simp only at ran
  rcases validating : validateUnique env new (some rid) table.indexes s.tick with ⟨r, s₂⟩
  have idle₂ : Unchanged s.tick s₂ ∧ s₂.heap = s.heap := by
    rcases validateUnique_idle validating with ⟨_, idle⟩ | ⟨_, idle | ⟨_, idle⟩⟩
    all_goals exact ⟨idle.unchanged, idle.heap⟩
  have unchanged₂ : Unchanged s s₂ := ⟨idle₂.1.heap, idle₂.1.entries⟩
  cases r with
  | error text =>
    simp only [validating, Prod.mk.injEq] at ran
    rw [← ran.2]
    exact unchanged₂
  | ok _ =>
  simp only [validating] at ran
  rcases storing : heapInsert env table.schema new s₂ with ⟨r, s₃⟩
  rcases heapInsert_cases storing with ⟨text, rfl, idle⟩ | ⟨newRid, size, rfl, free, _, stored⟩
  · simp only [storing, Prod.mk.injEq] at ran
    rw [← ran.2]
    exact ⟨idle.unchanged.heap.trans unchanged₂.heap, idle.entries.trans unchanged₂.entries⟩
  simp only [storing] at ran
  rcases maintaining : table.maintain (insertEntries env new newRid) s₃ with ⟨⟨made, what?⟩, s₄⟩
  obtain ⟨⟨keys, accept⟩, perm, heap, entries, _⟩ := maintain_insert valid maintaining
  have entries₄ : s₄.entries = putAll s₂.entries (entriesOf new newRid made) := by
    rw [entries, stored]
    rfl
  have heap₄ : s₄.heap = s₂.heap.put newRid ⟨decoded table.schema new, size⟩ := by
    rw [heap, stored]
  cases what? with
  | some text =>
    simp only [maintaining, Table.undoUpdate, reverse_nil, restoreDeleted,
      Prod.mk.injEq] at ran
    rw [← ran.2]
    have noneGone : HasKeys old.row [] := by simp [HasKeys]
    obtain ⟨more, failures, undone⟩ := compensated env s₄ rid free keys noneGone trivial heap₄
      entries₄ "failed to restore old index entry on " "failed to delete new index entry on "
      "failed to delete new index entry on " "failed to delete newly inserted heap tuple"
      "failed to rollback new heap tuple: "
    simp only [reverse_nil, restoreDeleted] at failures undone
    have canTake : CanTake s₄.entries (entriesOf new newRid made.reverse) := by
      rw [entries₄]
      simp only [entriesOf, List.map_reverse]
      exact canTake_reverse_putAll _ _
    have removed := removeInserted_working working "failed to delete new index entry on "
      "failed to delete new index entry on "
      (fun i member => keys i (mem_reverse.mp member) : HasKeys new made.reverse)
      (fun i member => accept i (mem_reverse.mp member)) s₄ canTake
    have kept := removeInserted_undoes env "failed to delete new index entry on "
      "failed to delete new index entry on " newRid s₄
      (fun i member => keys i (mem_reverse.mp member) : HasKeys new made.reverse)
    generalize removeInserted env "failed to delete new index entry on "
      "failed to delete new index entry on " new newRid made.reverse s₄ = back
      at removed kept failures undone ⊢
    have liveNew : back.2.heap.record newRid = some ⟨decoded table.schema new, size⟩ := by
      rw [kept.heap, heap₄, HeapFile.put_record, Function.update_self]
    have same := removeTuple_working working "failed to delete newly inserted heap tuple"
      "failed to rollback new heap tuple: " liveNew
    have none : more = [] := by
      rw [same, removed] at failures
      simpa using failures
    have undone' := undone none
    exact ⟨undone'.heap.trans unchanged₂.heap, undone'.entries.trans unchanged₂.entries⟩
  | none =>
    simp only [maintaining] at ran
    have attached : ∀ index ∈ table.indexes, index.runtimeIndex.isSome = true :=
      fun index member => (validated valid index member).1
    have more : ∀ id e, e ∈ s.entries id → e ∈ s₄.entries id := by
      intro id e member
      rw [entries₄]
      exact mem_putAll_of_mem (unchanged₂.entries ▸ member)
    have completes := maintain_delete_working working
      "old index entry delete returned false for index " present attached more
    rcases clearing : table.maintain (deleteEntries env
      "old index entry delete returned false for index " old.row rid) s₄ with ⟨⟨gone, what?⟩, s₅⟩
    rw [clearing] at completes
    simp only at completes
    subst completes
    obtain ⟨_, _, heap₅, _⟩ := maintain_delete present.length clearing
    have apart : rid ≠ newRid := by
      rintro rfl
      rw [unchanged₂.heap, live] at free
      cases free
    have live₅ : s₅.heap.record rid = some old := by
      rw [heap₅, heap₄, HeapFile.put_record, Function.update_of_ne apart, unchanged₂.heap]
      exact live
    simp only [clearing, heapDelete_working working live₅, Prod.mk.injEq] at ran
    cases ran.1

theorem updateTuple_error_unchanged (live : s.heap.record rid = some old)
    (present : Present table s old.row rid)
    (ran : table.updateTuple env rid new s = (.error what, s')) : Unchanged s s' := by
  have reading : s.heap.getTuple table.schema rid = .ok (some old.row) := by
    simp [HeapFile.getTuple, live, present.length]
  unfold Table.updateTuple at ran
  simp only [reading] at ran
  cases valid : table.validateIndexKeyCompatibility new with
  | some text =>
    simp only [valid, Prod.mk.injEq] at ran
    exact ran.2 ▸ ⟨rfl, rfl⟩
  | none =>
  simp only [valid] at ran
  split at ran
  · cases ran
    exact ⟨rfl, rfl⟩
  · split at ran
    · cases ran
      exact ⟨rfl, rfl⟩
    · split at ran
      · rcases heapUpdate_cases ran with ⟨_, idle⟩ | ⟨_, _, _, _, _, done, _⟩ |
          ⟨_, _, _, _, _, _, _, _, done, _⟩
        · exact idle.unchanged
        · cases done
        · cases done
      · exact replaceTuple_error_unchanged working live present valid ran

theorem replaceTuple_working {size : Nat}
    (live : s.heap.record rid = some old) (present : Present table s old.row rid)
    (valid : table.validateIndexKeyCompatibility new = none)
    (encoded : encode new table.schema = .ok size) (fits : size ≤ maxRecordOnEmptyPage)
    (accept : Accept new table.indexes)
    (unused : ∀ index ∈ table.indexes, index.isUnique = true → ∀ key, extractKey new index = some
      key → ∀ rid', (key, rid') ∈ s.entries index.indexRelationId → some rid = some rid') :
    ∃ newRid s', table.replaceTuple env rid old.row new s = (.ok (some newRid), s') := by
  have attached : ∀ index ∈ table.indexes, index.runtimeIndex.isSome = true :=
    fun index member => (validated valid index member).1
  have keys := (storable_of_checks valid encoded).hasKeys
  unfold Table.replaceTuple
  rw [acquireLocks_working working]
  simp only
  have passes : (validateUnique env new (some rid) table.indexes s.tick).1 = .ok () :=
    validateUnique_working working attached keys accept unused
  rcases validating : validateUnique env new (some rid) table.indexes s.tick with ⟨_ | _, s₂⟩
  · rw [validating] at passes
    cases passes
  have idle₂ : Idle s.tick s₂ [] := by
    rcases validateUnique_idle validating with ⟨_, idle⟩ | ⟨⟨_, thrown⟩, _⟩
    · exact idle
    · cases thrown
  obtain ⟨newRid, storing⟩ := heapInsert_working working encoded fits s₂
  have free : s₂.heap.record newRid = none := by
    rcases heapInsert_cases storing with ⟨_, thrown, _⟩ | ⟨_, _, same, free, _⟩
    · cases thrown
    · cases same
      exact free
  simp only [storing]
  generalize stored : ({ s₂.tick with
    heap := s₂.heap.put newRid ⟨decoded table.schema new, size⟩ } : Store) = s₃
  rcases maintaining : table.maintain (insertEntries env new newRid) s₃ with ⟨⟨made, what?⟩, s₄⟩
  have completes : what? = none := by
    obtain ⟨order, ordered, perm⟩ := getMaintenanceOrder_ok attached
    rw [Table.maintain, ordered] at maintaining
    simp only at maintaining
    have done : (insertEntries env new newRid order [] s₃).1.2 = none := insertEntries_working working
      (fun i member => keys i (perm.mem_iff.mp member) : HasKeys new order)
      (fun i member => accept i (perm.mem_iff.mp member)) [] s₃
    rw [maintaining] at done
    exact done
  subst completes
  obtain ⟨_, perm, heap₄, entries₄, _⟩ := maintain_insert valid maintaining
  have more : ∀ id e, e ∈ s.entries id → e ∈ s₄.entries id := by
    intro id e member
    rw [entries₄, ← stored]
    refine mem_putAll_of_mem ?_
    show e ∈ s₂.entries id
    rw [idle₂.entries]
    exact member
  have clears := maintain_delete_working working
    "old index entry delete returned false for index " present attached more
  rcases clearing : table.maintain (deleteEntries env
    "old index entry delete returned false for index " old.row rid) s₄ with ⟨⟨gone, what?⟩, s₅⟩
  rw [clearing] at clears
  simp only at clears
  subst clears
  obtain ⟨_, _, heap₅, _⟩ := maintain_delete present.length clearing
  have live₂ : s₂.heap.record rid = some old := by
    rw [idle₂.heap]
    exact live
  have apart : rid ≠ newRid := by
    rintro rfl
    rw [live₂] at free
    cases free
  have live₅ : s₅.heap.record rid = some old := by
    rw [heap₅, heap₄, ← stored, HeapFile.put_record, Function.update_of_ne apart]
    exact live₂
  simp only [clearing, heapDelete_working working live₅]
  exact ⟨newRid, _, rfl⟩

theorem deleteTuple_working (live : s.heap.record rid = some old)
    (present : Present table s old.row rid)
    (attached : ∀ index ∈ table.indexes, index.runtimeIndex.isSome = true) :
    ∃ s', table.deleteTuple env rid s = (.ok true, s') ∧
      Cleared table s.heap s.entries old.row rid s' := by
  have reading : s.heap.getTuple table.schema rid = .ok (some old.row) := by
    simp [HeapFile.getTuple, live, present.length]
  have more : ∀ id e, e ∈ s.entries id → e ∈ s.tick.entries id := fun _ _ member => member
  have clears := maintain_delete_working working "index delete returned false for index " present
    attached more
  rcases deleting : table.deleteTuple env rid s with ⟨r, s'⟩
  have ran := deleting
  unfold Table.deleteTuple at ran
  simp only [reading, acquireLocks_working working] at ran
  rcases clearing : table.maintain (deleteEntries env "index delete returned false for index "
    old.row rid) s.tick with ⟨⟨gone, what?⟩, s₂⟩
  rw [clearing] at clears
  simp only at clears
  subst clears
  obtain ⟨_, _, heap₂, _⟩ := maintain_delete present.length clearing
  have live₂ : s₂.heap.record rid = some old := by
    rw [heap₂]
    exact live
  simp only [clearing, heapDelete_working working live₂, Prod.mk.injEq] at ran
  rw [← ran.1] at deleting ⊢
  refine ⟨s', rfl, ?_⟩
  rcases deleteTuple_cleared deleting with ⟨absurd_, _⟩ | ⟨_, old', live', _, cleared⟩
  · cases absurd_
  · rw [live] at live'
    cases live'
    exact cleared

theorem deleteTuple_unattached
    (reading : s.heap.getTuple table.schema rid = .ok (some row))
    (refused : table.getMaintenanceOrder = .error what) :
    ∃ text s', table.deleteTuple env rid s = (.error text, s') ∧ Unchanged s s' := by
  unfold Table.deleteTuple
  simp only [reading, acquireLocks_working working, Table.maintain, refused, Table.undoDelete,
    reverse_nil, restoreDeleted]
  exact ⟨_, _, rfl, rfl, rfl⟩

end

end Working

end GraniteDb.Storage.QuietWrites
