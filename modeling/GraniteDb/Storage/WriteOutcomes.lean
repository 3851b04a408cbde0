/- What the calls of a table have checked and done when they return normally. -/

import GraniteDb.Storage.AllOrNothing

namespace GraniteDb.Storage.WriteOutcomes

open Common.Types Common.Value Access.HeapFile Storage.Table Storage.AllOrNothing Lib.Ledger

variable {env : Environment} {table : Table} {s s' : Store}

variable {row : Row} {rid : RID}

theorem validateUnique_ok {ignored : Option RID} {indexes : List IndexCatalogEntry}
    (ran : validateUnique env row ignored indexes s = (.ok (), s')) :
    ∀ index ∈ indexes, index.isUnique = true → ∃ key, extractKey row index = some key ∧
      ∀ rid, (key, rid) ∈ s.entries index.indexRelationId → ignored = some rid := by
  induction indexes generalizing s with
  | nil => simp
  | cons index rest ih =>
    intro other member isUnique
    unfold validateUnique at ran
    split at ran
    · split at ran
      · cases ran
      · split at ran
        · cases ran
        · rename_i key extracted
          rcases result : searchExact env index key s with ⟨hits, m⟩
          rcases searchExact_cases result with ⟨what, rfl, _⟩ | ⟨rfl, idle⟩
          · simp only [result] at ran
            cases ran
          · simp only [result] at ran
            split at ran
            · rename_i onlyIgnored
              rcases List.mem_cons.mp member with rfl | later
              · refine ⟨key, extracted, fun rid entry => onlyIgnored rid ?_⟩
                rw [Multiset.mem_map]
                exact ⟨(key, rid), Multiset.mem_filter.mpr ⟨entry, rfl⟩, rfl⟩
              · obtain ⟨key', extracted', only⟩ := ih ran other later isUnique
                rw [idle.entries] at only
                exact ⟨key', extracted', only⟩
            · cases ran
    · rename_i notUnique
      rcases List.mem_cons.mp member with rfl | later
      · exact absurd isUnique notUnique
      · exact ih ran other later isUnique

/-- A tuple has passed every check, was stored at `rid` and entered into every index. -/
structure Entered (table : Table) (s : Store) (row : Row) (ignored : Option RID) (rid : RID)
    (heap : HeapFile) (entries : Ledger Nat (List Value × RID)) : Prop where
  valid : table.validateIndexKeyCompatibility row = none
  unused : ∀ index ∈ table.indexes, index.isUnique = true → ∃ key,
    extractKey row index = some key ∧
      ∀ rid', (key, rid') ∈ s.entries index.indexRelationId → ignored = some rid'
  accepted : Accept row table.indexes
  free : s.heap.record rid = none
  stored : ∃ size, encode row table.schema = .ok size ∧ size ≤ maxRecordOnEmptyPage ∧
    heap = s.heap.put rid ⟨decoded table.schema row, size⟩
  entered : ∃ made : List IndexCatalogEntry, made.Perm table.indexes ∧
    entries = putAll s.entries (entriesOf row rid made)

structure Cleared (table : Table) (heap : HeapFile) (entries : Ledger Nat (List Value × RID))
    (row : Row) (rid : RID) (s' : Store) : Prop where
  heap : s'.heap = heap.erase rid
  taken : ∃ gone : List IndexCatalogEntry, gone.Perm table.indexes ∧
    CanTake entries (entriesOf row rid gone) ∧
    s'.entries = takeAll entries (entriesOf row rid gone)

theorem entered_of_steps {ignored : Option RID} {s₁ s₂ s₃ s₄ : Store}
    {made : List IndexCatalogEntry} (valid : table.validateIndexKeyCompatibility row = none)
    (idle : Idle s s₁ [])
    (validating : validateUnique env row ignored table.indexes s₁ = (.ok (), s₂))
    (storing : heapInsert env table.schema row s₂ = (.ok rid, s₃))
    (maintaining : table.maintain (insertEntries env row rid) s₃ = ((made, none), s₄)) :
    Entered table s row ignored rid s₄.heap s₄.entries := by
  have idle₂ : Idle s₁ s₂ [] := by
    rcases validateUnique_idle validating with ⟨_, idle⟩ | ⟨⟨_, thrown⟩, _⟩
    · exact idle
    · cases thrown
  obtain ⟨⟨_, accept⟩, perm, heap, entries, _⟩ := maintain_insert valid maintaining
  have unused := validateUnique_ok validating
  rw [idle.entries] at unused
  rcases heapInsert_cases storing with
    ⟨_, thrown, _⟩ | ⟨_, size, sameRid, free, ⟨encoded, fits⟩, stored⟩
  · cases thrown
  cases sameRid
  refine ⟨valid, unused, ?_, ?_, ⟨size, encoded, fits, ?_⟩, made, perm rfl, ?_⟩
  · intro index member
    exact accept index ((perm rfl).mem_iff.mpr member)
  · rw [← idle.heap, ← idle₂.heap]
    exact free
  · rw [heap, stored, ← idle.heap, ← idle₂.heap]
  · rw [entries, stored, ← idle.entries, ← idle₂.entries]
    rfl

theorem insertTuple_entered (ran : table.insertTuple env row s = (.ok rid, s')) :
    Entered table s row none rid s'.heap s'.entries := by
  unfold Table.insertTuple at ran
  cases valid : table.validateIndexKeyCompatibility row with
  | some what => simp [valid] at ran
  | none =>
  simp only [valid] at ran
  rcases locking : acquireLocks env s with ⟨r, s₁⟩
  rcases acquireLocks_cases locking with ⟨what, rfl, _⟩ | ⟨rfl, idle⟩
  · simp [locking] at ran
  simp only [locking] at ran
  rcases validating : validateUnique env row none table.indexes s₁ with ⟨_ | _, s₂⟩
  · simp [validating] at ran
  simp only [validating] at ran
  rcases storing : heapInsert env table.schema row s₂ with ⟨_ | newRid, s₃⟩
  · simp [storing] at ran
  simp only [storing] at ran
  rcases maintaining : table.maintain (insertEntries env row newRid) s₃ with ⟨⟨made, _ | what⟩, s₄⟩
  · simp only [maintaining, Prod.mk.injEq, Except.ok.injEq] at ran
    obtain ⟨rfl, rfl⟩ := ran
    exact entered_of_steps valid idle validating storing maintaining
  · simp [maintaining] at ran

theorem deleteTuple_cleared {found : Bool} (ran : table.deleteTuple env rid s = (.ok found, s')) :
    (found = false ∧ s.heap.record rid = none ∧ s' = s) ∨
    (found = true ∧ ∃ old, s.heap.record rid = some old ∧
      old.row.length = table.schema.length ∧ Cleared table s.heap s.entries old.row rid s') := by
  unfold Table.deleteTuple at ran
  cases reading : s.heap.getTuple table.schema rid with
  | error what => simp [reading] at ran
  | ok tuple =>
  cases tuple with
  | none =>
    simp only [reading, Prod.mk.injEq, Except.ok.injEq] at ran
    refine .inl ⟨ran.1.symm, ?_, ran.2.symm⟩
    unfold HeapFile.getTuple at reading
    split at reading
    · assumption
    · split at reading <;> cases reading
  | some row =>
  obtain ⟨old, live, rfl, fits⟩ := HeapFile.getTuple_some reading
  simp only [reading] at ran
  rcases locking : acquireLocks env s with ⟨r, s₁⟩
  rcases acquireLocks_cases locking with ⟨what, rfl, _⟩ | ⟨rfl, idle⟩
  · simp [locking] at ran
  simp only [locking] at ran
  rcases maintaining : table.maintain (deleteEntries env
    "index delete returned false for index " old.row rid) s₁ with ⟨⟨gone, _ | what⟩, s₂⟩
  · obtain ⟨_, perm, heap, canTake, entries, _⟩ := maintain_delete fits maintaining
    simp only [maintaining] at ran
    rcases deleting : heapDelete env rid s₂ with ⟨r, s₃⟩
    rcases heapDelete_cases deleting with ⟨⟨what, rfl⟩ | rfl, _⟩ | ⟨rfl, deleted⟩
    · simp [deleting, Table.undoDelete] at ran
    · simp [deleting, Table.undoDelete] at ran
    simp only [deleting, Prod.mk.injEq, Except.ok.injEq] at ran
    obtain ⟨rfl, rfl⟩ := ran
    rw [idle.entries] at canTake entries
    refine .inr ⟨rfl, old, live, fits, ?_, gone, perm rfl, canTake, ?_⟩
    · rw [deleted, ← idle.heap, ← heap]
    · rw [← entries, deleted]
      rfl
  · simp [maintaining, Table.undoDelete] at ran

theorem replaceTuple_entered {old new : Row} {result : Option RID}
    (fits : old.length = table.schema.length)
    (valid : table.validateIndexKeyCompatibility new = none)
    (ran : table.replaceTuple env rid old new s = (.ok result, s')) :
    ∃ newRid heap entries, result = some newRid ∧
      Entered table s new (some rid) newRid heap entries ∧ Cleared table heap entries old rid s' := by
  unfold Table.replaceTuple at ran
  rcases locking : acquireLocks env s with ⟨r, s₁⟩
  rcases acquireLocks_cases locking with ⟨what, rfl, _⟩ | ⟨rfl, idle⟩
  · simp [locking] at ran
  simp only [locking] at ran
  rcases validating : validateUnique env new (some rid) table.indexes s₁ with ⟨_ | _, s₂⟩
  · simp [validating] at ran
  simp only [validating] at ran
  rcases storing : heapInsert env table.schema new s₂ with ⟨_ | newRid, s₃⟩
  · simp [storing] at ran
  simp only [storing] at ran
  rcases maintaining : table.maintain (insertEntries env new newRid) s₃ with ⟨⟨made, _ | what⟩, s₄⟩
  · have entered := entered_of_steps valid idle validating storing maintaining
    simp only [maintaining] at ran
    rcases clearing : table.maintain (deleteEntries env
      "old index entry delete returned false for index " old rid) s₄ with ⟨⟨gone, _ | what⟩, s₅⟩
    · obtain ⟨_, goneAll, heap₅, canTake, entries₅, _⟩ := maintain_delete fits clearing
      simp only [clearing] at ran
      rcases deleting : heapDelete env rid s₅ with ⟨r, s₆⟩
      rcases heapDelete_cases deleting with ⟨⟨what, rfl⟩ | rfl, _⟩ | ⟨rfl, deleted⟩
      · simp [deleting, Table.undoUpdate] at ran
      · simp [deleting, Table.undoUpdate] at ran
      simp only [deleting, Prod.mk.injEq, Except.ok.injEq] at ran
      obtain ⟨rfl, rfl⟩ := ran
      refine ⟨newRid, s₄.heap, s₄.entries, rfl, entered, ?_, gone, goneAll rfl, canTake, ?_⟩
      · rw [deleted, ← heap₅]
      · rw [← entries₅, deleted]
        rfl
    · simp [clearing, Table.undoUpdate] at ran
  · simp [maintaining, Table.undoUpdate] at ran

theorem updateTuple_ok {new : Row} {result : Option RID}
    (ran : table.updateTuple env rid new s = (.ok result, s')) :
    (result = none ∧ s.heap.record rid = none ∧ s' = s) ∨
    ∃ old size changed, s.heap.record rid = some old ∧ old.row.length = table.schema.length ∧
      table.validateIndexKeyCompatibility new = none ∧ encode new table.schema = .ok size ∧
      table.anyIndexedKeyChanged old.row new = some changed ∧
      (((table.hasAnyRuntimeIndex = false ∨ (changed = false ∧ size ≤ old.rawLen)) ∧
          heapUpdate env table.schema rid new s = (.ok result, s')) ∨
        ((table.hasAnyRuntimeIndex = true ∧ (changed = true ∨ old.rawLen < size)) ∧
          table.replaceTuple env rid old.row new s = (.ok result, s'))) := by
  unfold Table.updateTuple at ran
  cases reading : s.heap.getTuple table.schema rid with
  | error what => simp [reading] at ran
  | ok tuple =>
  cases tuple with
  | none =>
    simp only [reading, Prod.mk.injEq, Except.ok.injEq] at ran
    refine .inl ⟨ran.1.symm, ?_, ran.2.symm⟩
    unfold HeapFile.getTuple at reading
    split at reading
    · assumption
    · split at reading <;> cases reading
  | some row =>
  obtain ⟨old, live, rfl, fits⟩ := HeapFile.getTuple_some reading
  simp only [reading] at ran
  cases valid : table.validateIndexKeyCompatibility new with
  | some what => simp [valid] at ran
  | none =>
  simp only [valid] at ran
  cases comparing : table.anyIndexedKeyChanged old.row new with
  | none => simp [comparing] at ran
  | some changed =>
  cases encoded : encode new table.schema with
  | error what => simp [comparing, canUpdateTupleInPlace, live, encoded] at ran
  | ok size =>
  simp only [comparing, canUpdateTupleInPlace, live, encoded] at ran
  refine .inr ⟨old, size, changed, live, fits, rfl, rfl, comparing, ?_⟩
  split at ran
  · rename_i fast
    refine .inl ⟨?_, ran⟩
    simpa using fast
  · rename_i slow
    refine .inr ⟨?_, ran⟩
    cases attached : table.hasAnyRuntimeIndex <;> cases changed <;> simp_all

end GraniteDb.Storage.WriteOutcomes
