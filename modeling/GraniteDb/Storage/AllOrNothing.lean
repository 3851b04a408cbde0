/- A table call in which one operation fails throws and leaves heap and indexes as before. -/

import GraniteDb.Storage.Table

namespace GraniteDb.Storage.AllOrNothing

open Common.Types Common.Value Access.HeapFile Storage.Table Lib.Ledger
open List (append_assoc mem_cons_self mem_cons_of_mem append_nil mem_reverse map_reverse)

section Operations

structure Unchanged (s s' : Store) : Prop where
  heap : s'.heap.record = s.heap.record
  entries : s'.entries = s.entries

/-- Nothing but the failures of the operations `more` happened. -/
structure Idle (s s' : Store) (more : List Operation) : Prop where
  heap : s'.heap = s.heap
  entries : s'.entries = s.entries
  failures : s'.failures = s.failures ++ more

variable {s' s : Store} {index : IndexCatalogEntry} {key : List Value} {rid : RID}

theorem Idle.unchanged {more : List Operation} (idle : Idle s s' more) :
    Unchanged s s' := ⟨congrArg HeapFile.record idle.heap, idle.entries⟩

theorem Idle.refl (s : Store) : Idle s s [] := ⟨rfl, rfl, by simp⟩

theorem Idle.tick (s : Store) : Idle s s.tick [] := ⟨rfl, rfl, by simp [Store.tick]⟩

theorem Idle.fail (s : Store) (op : Operation) : Idle s (s.fail op) [op] := ⟨rfl, rfl, rfl⟩

theorem Idle.trans {m : Store} {first second : List Operation} (one : Idle s m first)
    (two : Idle m s' second) : Idle s s' (first ++ second) where
  heap := two.heap.trans one.heap
  entries := two.entries.trans one.entries
  failures := by rw [two.failures, one.failures, append_assoc]

variable {env : Environment}

theorem acquireLocks_cases {r : Except String Unit} (ran : acquireLocks env s = (r, s')) :
    (∃ what, r = .error what ∧ Idle s s' [.acquireLocks]) ∨ (r = .ok () ∧ Idle s s' []) := by
  unfold acquireLocks at ran
  split at ran
  · cases ran
    exact .inl ⟨_, rfl, .fail s _⟩
  · cases ran
    exact .inr ⟨rfl, .tick s⟩

theorem searchExact_cases {r : Except String (Multiset RID)}
    (ran : searchExact env index key s = (r, s')) :
    (∃ what, r = .error what ∧ Idle s s' [.searchExact index.indexRelationId]) ∨
    (r = .ok (((s.entries index.indexRelationId).filter fun e => e.1 = key).map Prod.snd) ∧
      Idle s s' []) := by
  unfold searchExact at ran
  split at ran
  · cases ran
    exact .inl ⟨_, rfl, .fail s _⟩
  · cases ran
    exact .inl ⟨_, rfl, .fail s _⟩
  · cases ran
    exact .inr ⟨rfl, .tick s⟩

theorem insertEntry_cases {r : Except String Unit}
    (ran : insertEntry env index key rid s = (r, s')) :
    (∃ what, r = .error what ∧ Idle s s' [.insertEntry index.indexRelationId]) ∨
    (r = .ok () ∧ index.encodeFailure key = none ∧
      s' = { s.tick with entries := put s.entries index.indexRelationId (key, rid) }) := by
  unfold insertEntry at ran
  split at ran
  · cases ran
    exact .inl ⟨_, rfl, .fail s _⟩
  · cases ran
    exact .inl ⟨_, rfl, .fail s _⟩
  · rename_i accepted _
    cases ran
    exact .inr ⟨rfl, accepted, rfl⟩

theorem deleteEntry_cases {r : Except String Bool}
    (ran : deleteEntry env index key rid s = (r, s')) :
    (((∃ what, r = .error what) ∨ r = .ok false) ∧
      Idle s s' [.deleteEntry index.indexRelationId]) ∨
    (r = .ok true ∧ (key, rid) ∈ s.entries index.indexRelationId ∧
      s' = { s.tick with entries := take s.entries index.indexRelationId (key, rid) }) := by
  unfold deleteEntry at ran
  split at ran
  · cases ran
    exact .inl ⟨.inl ⟨_, rfl⟩, .fail s _⟩
  · cases ran
    exact .inl ⟨.inl ⟨_, rfl⟩, .fail s _⟩
  · cases ran
    exact .inl ⟨.inr rfl, .fail s _⟩
  · split at ran
    · rename_i present
      cases ran
      exact .inr ⟨rfl, present, rfl⟩
    · cases ran
      exact .inl ⟨.inr rfl, .fail s _⟩

theorem heapInsert_cases {schema : List Column} {row : Row} {r : Except String RID}
    (ran : heapInsert env schema row s = (r, s')) :
    (∃ what, r = .error what ∧ Idle s s' [.heapInsert]) ∨
    (∃ rid size, r = .ok rid ∧ s.heap.record rid = none ∧
      (encode row schema = .ok size ∧ size ≤ maxRecordOnEmptyPage) ∧
      s' = { s.tick with heap := s.heap.put rid ⟨decoded schema row, size⟩ }) := by
  unfold heapInsert at ran
  split at ran
  · cases ran
    exact .inl ⟨_, rfl, .fail s _⟩
  · cases ran
    exact .inl ⟨_, rfl, .fail s _⟩
  · rename_i size encoded _
    split at ran
    · cases ran
      exact .inl ⟨_, rfl, .fail s _⟩
    · rename_i fits
      split at ran
      · cases ran
        exact .inl ⟨_, rfl, .fail s _⟩
      · rename_i rid picked
        cases ran
        exact .inr ⟨rid, size, rfl, env.fresh picked, ⟨encoded, by omega⟩, rfl⟩

theorem heapDelete_cases {r : Except String Bool} (ran : heapDelete env rid s = (r, s')) :
    (((∃ what, r = .error what) ∨ r = .ok false) ∧ Idle s s' [.heapDelete]) ∨
    (r = .ok true ∧ s' = { s.tick with heap := s.heap.erase rid }) := by
  unfold heapDelete at ran
  split at ran
  · cases ran
    exact .inl ⟨.inl ⟨_, rfl⟩, .fail s _⟩
  · cases ran
    exact .inl ⟨.inr rfl, .fail s _⟩
  · split at ran
    · cases ran
      exact .inr ⟨rfl, rfl⟩
    · cases ran
      exact .inl ⟨.inr rfl, .fail s _⟩

theorem heapUpdate_cases {schema : List Column} {row : Row} {r : Except String (Option RID)}
    (ran : heapUpdate env schema rid row s = (r, s')) :
    (((∃ what, r = .error what) ∨ r = .ok none) ∧ Idle s s' [.heapUpdate]) ∨
    (∃ old size, s.heap.record rid = some old ∧ encode row schema = .ok size ∧
      size ≤ old.rawLen ∧ r = .ok (some rid) ∧
      s' = { s.tick with heap := s.heap.put rid ⟨decoded schema row, old.rawLen⟩ }) ∨
    (∃ old size new, s.heap.record rid = some old ∧ encode row schema = .ok size ∧
      old.rawLen < size ∧ size ≤ maxRecordOnEmptyPage ∧ s.heap.record new = none ∧
      r = .ok (some new) ∧
      s' = { s.tick with heap := (s.heap.put new ⟨decoded schema row, size⟩).erase rid }) := by
  unfold heapUpdate at ran
  split at ran
  · cases ran
    exact .inl ⟨.inl ⟨_, rfl⟩, .fail s _⟩
  · cases ran
    exact .inl ⟨.inr rfl, .fail s _⟩
  · cases ran
    exact .inl ⟨.inl ⟨_, rfl⟩, .fail s _⟩
  · cases ran
    exact .inl ⟨.inr rfl, .fail s _⟩
  · rename_i size old _ encoded live
    split at ran
    · rename_i fits
      cases ran
      exact .inr (.inl ⟨old, size, live, encoded, fits, rfl, rfl⟩)
    · rename_i moves
      split at ran
      · cases ran
        exact .inl ⟨.inl ⟨_, rfl⟩, .fail s _⟩
      · split at ran
        · cases ran
          exact .inl ⟨.inl ⟨_, rfl⟩, .fail s _⟩
        · rename_i new picked
          cases ran
          exact .inr (.inr ⟨old, size, new, live, encoded, by omega, by omega, env.fresh picked,
            rfl, rfl⟩)

end Operations

section Loops

variable {env : Environment}

def entriesOf (row : Row) (rid : RID) (indexes : List IndexCatalogEntry) :
    List (Nat × (List Value × RID)) :=
  indexes.map fun index => (index.indexRelationId, ((extractKey row index).getD [], rid))

def HasKeys (row : Row) (indexes : List IndexCatalogEntry) : Prop :=
  ∀ index ∈ indexes, ∃ key, extractKey row index = some key

def Accept (row : Row) (indexes : List IndexCatalogEntry) : Prop :=
  ∀ index ∈ indexes, ∀ key, extractKey row index = some key → index.encodeFailure key = none

/-- How a maintenance loop ends: it has done a part of its work, and all of it unless an
operation failed. `work` is what doing a part does to the entries. -/
structure LoopEnds (todo : List IndexCatalogEntry) (work : List IndexCatalogEntry →
    Ledger Nat (List Value × RID)) (s : Store) (done : List IndexCatalogEntry)
    (what : Option String) (s' : Store) : Prop where
  part : ∃ rest, todo = done ++ rest ∧ (what = none → rest = [])
  heap : s'.heap = s.heap
  entries : s'.entries = work done
  failures : (what = none ∧ s'.failures = s.failures) ∨
    (what ≠ none ∧ ∃ op, op ≠ .heapUpdate ∧ s'.failures = s.failures ++ [op])

variable {s' s : Store} {done' done todo indexes : List IndexCatalogEntry} {row : Row}

private theorem insertEntries_ends {rid : RID} {what : Option String} (keys : HasKeys row todo)
    (ran : insertEntries env row rid todo done s = ((done', what), s')) :
    ∃ made, done' = done ++ made ∧ Accept row made ∧
      LoopEnds todo (fun made => putAll s.entries (entriesOf row rid made)) s made what s' := by
  induction todo generalizing done s with
  | nil =>
    cases ran
    exact ⟨[], by simp, by simp [Accept], ⟨[], rfl, fun _ => rfl⟩, rfl, rfl, .inl ⟨rfl, rfl⟩⟩
  | cons index rest ih =>
    obtain ⟨key, extracted⟩ := keys index mem_cons_self
    have keysRest : HasKeys row rest := fun i member => keys i (mem_cons_of_mem _ member)
    unfold insertEntries at ran
    simp only [extracted] at ran
    rcases result : insertEntry env index key rid s with ⟨r, m⟩
    rcases insertEntry_cases result with ⟨text, rfl, idle⟩ | ⟨rfl, accepted, rfl⟩
    · simp only [result] at ran
      cases ran
      exact ⟨[], by simp, by simp [Accept], ⟨index :: rest, rfl, by simp⟩, idle.heap, idle.entries,
        .inr ⟨by simp, _, by simp, idle.failures⟩⟩
    · simp only [result] at ran
      obtain ⟨made, grown, accept, ends⟩ := ih keysRest ran
      obtain ⟨left, split, whole⟩ := ends.part
      refine ⟨index :: made, by simp [grown], ?_, ⟨left, by rw [split]; rfl, whole⟩, ends.heap, ?_,
        ends.failures⟩
      · intro other member key' extracted'
        rcases List.mem_cons.mp member with rfl | later
        · rw [extracted] at extracted'
          cases extracted'
          exact accepted
        · exact accept other later key' extracted'
      · rw [ends.entries]
        simp [entriesOf, putAll, extracted]

private theorem deleteEntries_ends {refusal : String} {rid : RID} {what : Option String}
    (keys : HasKeys row todo)
    (ran : deleteEntries env refusal row rid todo done s = ((done', what), s')) :
    ∃ gone, done' = done ++ gone ∧ CanTake s.entries (entriesOf row rid gone) ∧
      LoopEnds todo (fun gone => takeAll s.entries (entriesOf row rid gone)) s gone what s' := by
  induction todo generalizing done s with
  | nil =>
    cases ran
    exact ⟨[], by simp, trivial, ⟨[], rfl, fun _ => rfl⟩, rfl, rfl, .inl ⟨rfl, rfl⟩⟩
  | cons index rest ih =>
    obtain ⟨key, extracted⟩ := keys index mem_cons_self
    have keysRest : HasKeys row rest := fun i member => keys i (mem_cons_of_mem _ member)
    have stops {text : String} {m : Store} (idle : Idle s m [.deleteEntry index.indexRelationId])
        (stopped : ((done, some text), m) = ((done', what), s')) :
        ∃ gone, done' = done ++ gone ∧ CanTake s.entries (entriesOf row rid gone) ∧
          LoopEnds (index :: rest) (fun gone => takeAll s.entries (entriesOf row rid gone)) s
            gone what s' := by
      cases stopped
      exact ⟨[], by simp, trivial, ⟨index :: rest, rfl, by simp⟩, idle.heap, idle.entries,
        .inr ⟨by simp, _, by simp, idle.failures⟩⟩
    unfold deleteEntries at ran
    simp only [extracted] at ran
    rcases result : deleteEntry env index key rid s with ⟨r, m⟩
    rcases deleteEntry_cases result with ⟨⟨text, rfl⟩ | rfl, idle⟩ | ⟨rfl, present, rfl⟩
    · simp only [result] at ran
      exact stops idle ran
    · simp only [result] at ran
      exact stops idle ran
    · simp only [result] at ran
      obtain ⟨gone, grown, canTake, ends⟩ := ih keysRest ran
      obtain ⟨left, split, whole⟩ := ends.part
      have entry : entriesOf row rid (index :: gone) =
          (index.indexRelationId, (key, rid)) :: entriesOf row rid gone := by
        simp [entriesOf, extracted]
      refine ⟨index :: gone, by simp [grown], ?_, ⟨left, by rw [split]; rfl, whole⟩, ends.heap, ?_,
        ends.failures⟩
      · rw [entry]
        exact ⟨present, canTake⟩
      · rw [ends.entries, entry]
        rfl

structure Undoes (s s' : Store) (entries : Ledger Nat (List Value × RID)) : Prop where
  heap : s'.heap = s.heap
  failures : ∃ more, s'.failures = s.failures ++ more ∧ (more = [] → s'.entries = entries)

private theorem Undoes.after {m : Store} {op : Operation}
    {entries entries' : Ledger Nat (List Value × RID)} (idle : Idle s m [op])
    (undoes : Undoes m s' entries) : Undoes s s' entries' := by
  obtain ⟨more, failures, _⟩ := undoes.failures
  refine ⟨undoes.heap.trans idle.heap, [op] ++ more, ?_, by simp⟩
  rw [failures, idle.failures, append_assoc]

theorem removeInserted_undoes (env : Environment) (refusal failure : String) (rid : RID) (s : Store)
    (keys : HasKeys row indexes) :
    Undoes s (removeInserted env refusal failure row rid indexes s).2
      (takeAll s.entries (entriesOf row rid indexes)) := by
  induction indexes generalizing s with
  | nil => exact ⟨rfl, [], by simp [removeInserted], fun _ => rfl⟩
  | cons index rest ih =>
    obtain ⟨key, extracted⟩ := keys index mem_cons_self
    have later (m : Store) := ih m fun i member => keys i (mem_cons_of_mem _ member)
    unfold removeInserted
    simp only [extracted]
    rcases result : deleteEntry env index key rid s with ⟨r, m⟩
    rcases deleteEntry_cases result with ⟨⟨text, rfl⟩ | rfl, idle⟩ | ⟨rfl, _, rfl⟩
    · exact (later m).after idle
    · exact (later m).after idle
    · have undoes := later { s.tick with
        entries := take s.entries index.indexRelationId (key, rid) }
      obtain ⟨more, failures, undone⟩ := undoes.failures
      refine ⟨undoes.heap, more, failures, fun none => ?_⟩
      rw [undone none]
      simp [entriesOf, takeAll, extracted]

theorem restoreDeleted_undoes (env : Environment) (failure : String) (rid : RID) (s : Store)
    (keys : HasKeys row indexes) :
    Undoes s (restoreDeleted env failure row rid indexes s).2
      (putAll s.entries (entriesOf row rid indexes)) := by
  induction indexes generalizing s with
  | nil => exact ⟨rfl, [], by simp [restoreDeleted], fun _ => rfl⟩
  | cons index rest ih =>
    obtain ⟨key, extracted⟩ := keys index mem_cons_self
    have later (m : Store) := ih m fun i member => keys i (mem_cons_of_mem _ member)
    unfold restoreDeleted
    simp only [extracted]
    rcases result : insertEntry env index key rid s with ⟨r, m⟩
    rcases insertEntry_cases result with ⟨text, rfl, idle⟩ | ⟨rfl, _, rfl⟩
    · exact (later m).after idle
    · have undoes := later { s.tick with
        entries := put s.entries index.indexRelationId (key, rid) }
      obtain ⟨more, failures, undone⟩ := undoes.failures
      refine ⟨undoes.heap, more, failures, fun none => ?_⟩
      rw [undone none]
      simp [entriesOf, putAll, extracted]

theorem removeTuple_undoes (env : Environment) (refusal failure : String) (rid : RID)
    (s : Store) :
    (removeTuple env refusal failure rid s).2.entries = s.entries ∧
      ∃ more, (removeTuple env refusal failure rid s).2.failures = s.failures ++ more ∧
        (more = [] → (removeTuple env refusal failure rid s).2.heap = s.heap.erase rid) := by
  unfold removeTuple
  rcases result : heapDelete env rid s with ⟨r, m⟩
  rcases heapDelete_cases result with ⟨⟨text, rfl⟩ | rfl, idle⟩ | ⟨rfl, rfl⟩
  · exact ⟨idle.entries, _, idle.failures, by simp⟩
  · exact ⟨idle.entries, _, idle.failures, by simp⟩
  · exact ⟨rfl, [], by simp [Store.tick], fun _ => rfl⟩

end Loops

section Validation

variable {env : Environment} {table : Table}

variable {row : Row}

theorem validated (valid : table.validateIndexKeyCompatibility row = none) :
    ∀ index ∈ table.indexes, index.runtimeIndex.isSome = true ∧
      ∃ key, extractKey row index = some key ∧ hasNullComponent key = false := by
  intro index member
  have passes := List.findSome?_eq_none_iff.mp valid index member
  split at passes
  · cases passes
  · rename_i attached
    split at passes
    · cases passes
    · rename_i key extracted
      split at passes
      · cases passes
      · rename_i noNull
        refine ⟨?_, key, extracted, by simpa using noNull⟩
        cases runtime : index.runtimeIndex with
        | none => simp [runtime] at attached
        | some _ => rfl

theorem getMaintenanceOrder_ok
    (attached : ∀ index ∈ table.indexes, index.runtimeIndex.isSome = true) :
    ∃ order, table.getMaintenanceOrder = .ok order ∧ order.Perm table.indexes := by
  have none : (table.indexes.find? fun index => index.runtimeIndex.isNone) = .none := by
    refine List.find?_eq_none.mpr fun index member isNone => ?_
    have isSome := attached index member
    cases runtime : index.runtimeIndex with
    | none => simp [runtime] at isSome
    | some _ => simp [runtime] at isNone
  refine ⟨table.indexes.insertionSort precedes, ?_, List.perm_insertionSort _ _⟩
  rw [Table.getMaintenanceOrder, none]

theorem hasKeys_of_length (fits : row.length = table.schema.length) :
    HasKeys row table.indexes := by
  intro index member
  have columns := table.inSchema index member
  have present (cols : List Access.IndexScan.IndexKeyColumnDefinition)
      (inSchema : ∀ col ∈ cols, col.columnIdx < table.schema.length) :
      ∃ key, (cols.mapM fun col => row[col.columnIdx]?) = some key := by
    induction cols with
    | nil => exact ⟨[], rfl⟩
    | cons col rest ih =>
      obtain ⟨key, extracted⟩ := ih fun c inRest => inSchema c (mem_cons_of_mem _ inRest)
      have inRange : col.columnIdx < row.length := by
        rw [fits]
        exact inSchema col mem_cons_self
      exact ⟨row[col.columnIdx] :: key, by simp [List.mapM_cons, inRange, extracted]⟩
  exact present _ columns

theorem validateUnique_idle {ignored : Option RID} {indexes : List IndexCatalogEntry} {s s' : Store}
    {r : Except String Unit} (ran : validateUnique env row ignored indexes s = (r, s')) :
    (r = .ok () ∧ Idle s s' []) ∨ ((∃ what, r = .error what) ∧
      (Idle s s' [] ∨ ∃ id, Idle s s' [.searchExact id])) := by
  induction indexes generalizing s with
  | nil =>
    cases ran
    exact .inl ⟨rfl, .refl _⟩
  | cons index rest ih =>
    unfold validateUnique at ran
    split at ran
    · split at ran
      · cases ran
        exact .inr ⟨⟨_, rfl⟩, .inl (.refl _)⟩
      · split at ran
        · cases ran
          exact .inr ⟨⟨_, rfl⟩, .inl (.refl _)⟩
        · rename_i key _
          rcases result : searchExact env index key s with ⟨hits, m⟩
          rcases searchExact_cases result with ⟨what, rfl, idle⟩ | ⟨rfl, idle⟩
          · simp only [result] at ran
            cases ran
            exact .inr ⟨⟨_, rfl⟩, .inr ⟨_, idle⟩⟩
          · simp only [result] at ran
            split at ran
            · rcases ih ran with ⟨ok, later⟩ | ⟨error, later | ⟨id, later⟩⟩
              · exact .inl ⟨ok, idle.trans later⟩
              · exact .inr ⟨error, .inl (idle.trans later)⟩
              · exact .inr ⟨error, .inr ⟨id, idle.trans later⟩⟩
            · cases ran
              exact .inr ⟨⟨_, rfl⟩, .inl idle⟩
    · exact ih ran

end Validation

section Calls

variable {env : Environment} {table : Table}

/-- With at most one failed operation a call that throws has changed nothing, and unless that was
the heap's own update the call throws. -/
structure Settled (s s' : Store) (throws : Prop) : Prop where
  intro ::
  settled : ∃ more, s'.failures = s.failures ++ more ∧
    (more.length ≤ 1 → throws → Unchanged s s') ∧
    ((∃ op ∈ more, op ≠ .heapUpdate) → throws)

variable {s' s base : Store} {rid : RID} {made gone : List IndexCatalogEntry} {new old : Row}

theorem Settled.after {m : Store} {throws : Prop} (idle : Idle s m [])
    (settled : Settled m s' throws) : Settled s s' throws := by
  obtain ⟨more, failures, undone, reported⟩ := settled
  refine ⟨more, by rw [failures, idle.failures, append_nil], fun single isThrown => ?_, reported⟩
  have same := undone single isThrown
  exact ⟨same.heap.trans (congrArg HeapFile.record idle.heap), same.entries.trans idle.entries⟩

theorem Settled.early {throws : Prop} {more : List Operation} (idle : Idle s s' more)
    (isThrown : throws) : Settled s s' throws :=
  ⟨more, idle.failures, fun _ _ => idle.unchanged, fun _ => isThrown⟩

theorem maintain_insert {row : Row} {what : Option String}
    (valid : table.validateIndexKeyCompatibility row = none)
    (ran : table.maintain (insertEntries env row rid) s = ((made, what), s')) :
    (HasKeys row made ∧ Accept row made) ∧ (what = none → made.Perm table.indexes) ∧
      s'.heap = s.heap ∧ s'.entries = putAll s.entries (entriesOf row rid made) ∧
      ((what = none ∧ s'.failures = s.failures) ∨
        (what ≠ none ∧ ∃ op, op ≠ .heapUpdate ∧ s'.failures = s.failures ++ [op])) := by
  obtain ⟨order, ordered, perm⟩ := getMaintenanceOrder_ok fun index member =>
    (validated valid index member).1
  rw [Table.maintain, ordered] at ran
  have keys : HasKeys row order := fun index member =>
    have ⟨key, extracted, _⟩ := (validated valid index (perm.mem_iff.mp member)).2
    ⟨key, extracted⟩
  obtain ⟨made', rfl, accept, ends⟩ := insertEntries_ends keys ran
  obtain ⟨rest, split, whole⟩ := ends.part
  refine ⟨⟨?_, accept⟩, ?_, ends.heap, ends.entries, ends.failures⟩
  · intro index member
    exact keys index (by rw [split]; exact List.mem_append_left _ member)
  · intro completed
    rw [split, whole completed, append_nil] at perm
    exact perm

theorem maintain_delete {refusal : String} {row : Row} {what : Option String}
    (fits : row.length = table.schema.length)
    (ran : table.maintain (deleteEntries env refusal row rid) s = ((gone, what), s')) :
    HasKeys row gone ∧ (what = none → gone.Perm table.indexes) ∧ s'.heap = s.heap ∧
      CanTake s.entries (entriesOf row rid gone) ∧
      s'.entries = takeAll s.entries (entriesOf row rid gone) ∧
      ((what = none ∧ s'.failures = s.failures) ∨
        (what ≠ none ∧ gone = [] ∧ (∃ text, table.getMaintenanceOrder = .error text) ∧
          s'.failures = s.failures) ∨
        (what ≠ none ∧ ∃ op, op ≠ .heapUpdate ∧ s'.failures = s.failures ++ [op])) := by
  have keys := hasKeys_of_length fits
  unfold Table.maintain at ran
  split at ran
  · rename_i unordered
    cases ran
    exact ⟨by simp [HasKeys], by simp, rfl, trivial, rfl,
      .inr (.inl ⟨by simp, rfl, ⟨_, unordered⟩, rfl⟩)⟩
  · rename_i order ordered
    have perm : order.Perm table.indexes := by
      unfold Table.getMaintenanceOrder at ordered
      split at ordered
      · cases ordered
      · cases ordered
        exact List.perm_insertionSort _ _
    have keysOrder : HasKeys row order := fun index member => keys index (perm.mem_iff.mp member)
    obtain ⟨gone', rfl, canTake, ends⟩ := deleteEntries_ends keysOrder ran
    obtain ⟨rest, split, whole⟩ := ends.part
    refine ⟨?_, ?_, ends.heap, canTake, ends.entries, ?_⟩
    · intro index member
      exact keysOrder index (by rw [split]; exact List.mem_append_left _ member)
    · intro completed
      rw [split, whole completed, append_nil] at perm
      exact perm
    · rcases ends.failures with completed | failed
      · exact .inl completed
      · exact .inr (.inr failed)

theorem erase_put_record {heap : HeapFile} (free : heap.record rid = none) (r : HeapRecord) :
    ((heap.put rid r).erase rid).record = heap.record := by
  rw [HeapFile.erase_record, HeapFile.put_record, Function.update_idem]
  exact Function.update_eq_self_iff.mpr free.symm

theorem compensated (env : Environment) (s : Store) (rid : RID) {newRid : RID} {r : HeapRecord}
    (free : base.heap.record newRid = none) (madeKeys : HasKeys new made)
    (goneKeys : HasKeys old gone)
    (canTake : CanTake (putAll base.entries (entriesOf new newRid made)) (entriesOf old rid gone))
    (heap : s.heap = base.heap.put newRid r)
    (entries : s.entries = takeAll (putAll base.entries (entriesOf new newRid made)) (entriesOf old
      rid gone))
    (f₁ f₂ f₃ f₄ f₅ : String) :
    let s₁ := (restoreDeleted env f₁ old rid gone.reverse s).2
    let s₂ := (removeInserted env f₂ f₃ new newRid made.reverse s₁).2
    let s₃ := (removeTuple env f₄ f₅ newRid s₂).2
    ∃ more, s₃.failures = s.failures ++ more ∧ (more = [] → Unchanged base s₃) := by
  intro s₁ s₂ s₃
  have restored := restoreDeleted_undoes env f₁ rid s
    (fun index member => goneKeys index (mem_reverse.mp member) : HasKeys old gone.reverse)
  have removed := removeInserted_undoes env f₂ f₃ newRid s₁
    (fun index member => madeKeys index (mem_reverse.mp member) : HasKeys new made.reverse)
  obtain ⟨more₁, failures₁, entries₁⟩ := restored.failures
  obtain ⟨more₂, failures₂, entries₂⟩ := removed.failures
  obtain ⟨entries₃, more₃, failures₃, heap₃⟩ := removeTuple_undoes env f₄ f₅ newRid s₂
  refine ⟨more₁ ++ (more₂ ++ more₃), ?_, fun none => ?_⟩
  · show s₃.failures = _
    rw [failures₃, failures₂, failures₁, append_assoc, append_assoc]
  · obtain ⟨none₁, rest⟩ := List.append_eq_nil_iff.mp none
    obtain ⟨none₂, none₃⟩ := List.append_eq_nil_iff.mp rest
    have back : s₁.entries = putAll base.entries (entriesOf new newRid made) := by
      rw [entries₁ none₁, entries]
      simp only [entriesOf, map_reverse]
      exact putAll_reverse_takeAll canTake
    refine ⟨?_, ?_⟩
    · rw [heap₃ none₃, removed.heap, restored.heap, heap]
      exact erase_put_record free r
    · rw [entries₃, entries₂ none₂, back]
      simp only [entriesOf, map_reverse]
      exact takeAll_reverse_putAll _ _

theorem insertTuple_settled (env : Environment) (table : Table) (row : Row) (s : Store) :
    Settled s (table.insertTuple env row s).2
      (∃ what, (table.insertTuple env row s).1 = .error what) := by
  unfold Table.insertTuple
  cases valid : table.validateIndexKeyCompatibility row with
  | some what => exact .early (.refl s) ⟨what, rfl⟩
  | none =>
  rcases locking : acquireLocks env s with ⟨r, s₁⟩
  rcases acquireLocks_cases locking with ⟨what, rfl, idle₁⟩ | ⟨rfl, idle₁⟩
  · exact .early idle₁ ⟨what, rfl⟩
  refine Settled.after idle₁ ?_
  simp only
  rcases validating : validateUnique env row none table.indexes s₁ with ⟨r, s₂⟩
  rcases validateUnique_idle validating with ⟨rfl, idle₂⟩ | ⟨⟨what, rfl⟩, idle₂ | ⟨id, idle₂⟩⟩
  · refine Settled.after idle₂ ?_
    simp only
    rcases storing : heapInsert env table.schema row s₂ with ⟨r, s₃⟩
    rcases heapInsert_cases storing with ⟨what, rfl, idle₃⟩ | ⟨rid, size, rfl, free, _, stored⟩
    · exact .early idle₃ ⟨what, rfl⟩
    have failures₃ : s₃.failures = s₂.failures := by rw [stored]; rfl
    simp only
    rcases maintaining : table.maintain (insertEntries env row rid) s₃ with ⟨⟨made, what?⟩, s₄⟩
    obtain ⟨⟨keys, _⟩, _, heap, entries, ended⟩ := maintain_insert valid maintaining
    rcases ended with ⟨rfl, failures⟩ | ⟨thrown, op, indexOp, failures⟩
    · exact ⟨[], by simpa [failures₃] using failures, by simp, by simp⟩
    · cases what? with
      | none => exact absurd rfl thrown
      | some what =>
      have noneGone : HasKeys row [] := by simp [HasKeys]
      have undone := compensated env s₄ rid free keys noneGone trivial (by rw [heap, stored])
        (by rw [entries, stored]; rfl) "" "failed to rollback inserted index entry on "
        "rollback delete failed on " "failed to rollback inserted heap tuple"
        "heap rollback delete failed: "
      obtain ⟨more, failures', undone⟩ := undone
      refine ⟨[op] ++ more, ?_, fun single _ => undone (by simpa using single), fun _ => ⟨_, rfl⟩⟩
      rw [← append_assoc, ← failures₃, ← failures]
      exact failures'
  · exact .early idle₂ ⟨what, rfl⟩
  · exact .early idle₂ ⟨what, rfl⟩

private theorem undoDelete_settled {what : String} (failed : List Operation)
    (goneKeys : HasKeys old gone) (canTake : CanTake base.entries (entriesOf old rid gone))
    (heap : s.heap = base.heap)
    (entries : s.entries = takeAll base.entries (entriesOf old rid gone))
    (failures : s.failures = base.failures ++ failed) (anyOrEmpty : failed ≠ [] ∨ gone = []) :
    Settled base (Table.undoDelete env old rid gone what s).2
      (∃ what', (Table.undoDelete env old rid gone what s).1 = .error what') := by
  have restored := restoreDeleted_undoes env "rollback insert failed on " rid s
    (fun index member => goneKeys index (mem_reverse.mp member) : HasKeys old gone.reverse)
  obtain ⟨more, failures', entries'⟩ := restored.failures
  refine ⟨failed ++ more, ?_, fun single _ => ?_, fun _ => ⟨_, rfl⟩⟩
  · rw [← append_assoc, ← failures]
    exact failures'
  · have none : more = [] := by
      rcases anyOrEmpty with some | rfl
      · have counted := List.length_pos_iff.mpr some
        rw [List.length_append] at single
        exact List.eq_nil_of_length_eq_zero (by omega)
      · simpa [restoreDeleted] using failures'
    refine ⟨congrArg HeapFile.record (restored.heap.trans heap), ?_⟩
    show (restoreDeleted env _ old rid gone.reverse s).2.entries = base.entries
    rw [entries' none, entries]
    simp only [entriesOf, map_reverse]
    exact putAll_reverse_takeAll canTake

theorem deleteTuple_settled (env : Environment) (table : Table) (rid : RID) (s : Store) :
    Settled s (table.deleteTuple env rid s).2
      (∃ what, (table.deleteTuple env rid s).1 = .error what) := by
  unfold Table.deleteTuple
  cases reading : s.heap.getTuple table.schema rid with
  | error what => exact .early (.refl s) ⟨what, rfl⟩
  | ok found =>
  cases found with
  | none => exact ⟨[], by simp, by simp, by simp⟩
  | some old =>
  obtain ⟨record, live, _, fits⟩ := HeapFile.getTuple_some reading
  rcases locking : acquireLocks env s with ⟨r, s₁⟩
  rcases acquireLocks_cases locking with ⟨what, rfl, idle₁⟩ | ⟨rfl, idle₁⟩
  · exact .early idle₁ ⟨what, rfl⟩
  refine Settled.after idle₁ ?_
  simp only
  rcases maintaining : table.maintain
    (deleteEntries env "index delete returned false for index " old rid) s₁ with ⟨⟨gone, what?⟩, s₂⟩
  obtain ⟨keys, _, heap, canTake, entries, ended⟩ := maintain_delete fits maintaining
  cases what? with
  | some what =>
    rcases ended with ⟨completed, _⟩ | ⟨_, empty, _, failures⟩ | ⟨_, op, _, failures⟩
    · cases completed
    · exact undoDelete_settled [] keys canTake heap entries (by simpa using failures)
        (.inr empty)
    · exact undoDelete_settled _ keys canTake heap entries failures (.inl (by simp))
  | none =>
    have failures : s₂.failures = s₁.failures := by
      rcases ended with ⟨_, failures⟩ | ⟨thrown, _⟩ | ⟨thrown, _⟩
      · exact failures
      · exact absurd rfl thrown
      · exact absurd rfl thrown
    rcases deleting : heapDelete env rid s₂ with ⟨r, s₃⟩
    simp only [deleting]
    rcases heapDelete_cases deleting with ⟨⟨what, rfl⟩ | rfl, idle⟩ | ⟨rfl, deleted⟩
    · exact undoDelete_settled _ keys canTake (idle.heap.trans heap) (idle.entries.trans entries)
        (by rw [idle.failures, failures]) (.inl (by simp))
    · exact undoDelete_settled _ keys canTake (idle.heap.trans heap) (idle.entries.trans entries)
        (by rw [idle.failures, failures]) (.inl (by simp))
    · exact ⟨[], by simpa [deleted, Store.tick] using failures, by simp, by simp⟩

private theorem undoUpdate_settled {newRid : RID} {r : HeapRecord} {what : String} {op : Operation}
    (free : base.heap.record newRid = none) (madeKeys : HasKeys new made)
    (goneKeys : HasKeys old gone)
    (canTake : CanTake (putAll base.entries (entriesOf new newRid made)) (entriesOf old rid gone))
    (heap : s.heap = base.heap.put newRid r)
    (entries : s.entries = takeAll (putAll base.entries (entriesOf new newRid made)) (entriesOf old
      rid gone))
    (failures : s.failures = base.failures ++ [op]) :
    Settled base (Table.undoUpdate env old new rid newRid made gone what s).2
      (∃ what', (Table.undoUpdate env old new rid newRid made gone what s).1 = .error what') := by
  obtain ⟨more, failures', undone⟩ := compensated env s rid free madeKeys goneKeys
    canTake heap entries "failed to restore old index entry on "
    "failed to delete new index entry on " "failed to delete new index entry on "
    "failed to delete newly inserted heap tuple" "failed to rollback new heap tuple: "
  refine ⟨[op] ++ more, ?_, fun single _ => undone (by simpa using single), fun _ => ⟨_, rfl⟩⟩
  rw [← append_assoc, ← failures]
  exact failures'

theorem replaceTuple_settled (rid : RID) (s : Store)
    (valid : table.validateIndexKeyCompatibility new = none)
    (fits : old.length = table.schema.length) :
    Settled s (table.replaceTuple env rid old new s).2
      (∃ what, (table.replaceTuple env rid old new s).1 = .error what) := by
  unfold Table.replaceTuple
  rcases locking : acquireLocks env s with ⟨r, s₁⟩
  rcases acquireLocks_cases locking with ⟨what, rfl, idle₁⟩ | ⟨rfl, idle₁⟩
  · exact .early idle₁ ⟨what, rfl⟩
  refine Settled.after idle₁ ?_
  simp only
  rcases validating : validateUnique env new (some rid) table.indexes s₁ with ⟨r, s₂⟩
  rcases validateUnique_idle validating with ⟨rfl, idle₂⟩ | ⟨⟨what, rfl⟩, idle₂ | ⟨id, idle₂⟩⟩
  · refine Settled.after idle₂ ?_
    simp only
    rcases storing : heapInsert env table.schema new s₂ with ⟨r, s₃⟩
    rcases heapInsert_cases storing with ⟨what, rfl, idle₃⟩ | ⟨newRid, size, rfl, free, _, stored⟩
    · exact .early idle₃ ⟨what, rfl⟩
    have entries₃ : s₃.entries = s₂.entries := by rw [stored]; rfl
    have failures₃ : s₃.failures = s₂.failures := by rw [stored]; rfl
    have heap₃ : s₃.heap = s₂.heap.put newRid ⟨decoded table.schema new, size⟩ := by rw [stored]
    simp only
    rcases maintaining : table.maintain (insertEntries env new newRid) s₃ with ⟨⟨made, what?⟩, s₄⟩
    obtain ⟨⟨madeKeys, _⟩, _, heap₄, entries₄, ended⟩ := maintain_insert valid maintaining
    rw [entries₃] at entries₄
    rcases ended with ⟨rfl, failures₄⟩ | ⟨thrown, op, indexOp, failures₄⟩
    · simp only
      rcases clearing : table.maintain
        (deleteEntries env "old index entry delete returned false for index " old rid) s₄ with
        ⟨⟨gone, what?⟩, s₅⟩
      obtain ⟨goneKeys, _, heap₅, canTake, entries₅, ended⟩ := maintain_delete fits clearing
      rw [entries₄] at canTake entries₅
      have heap : s₅.heap = s₂.heap.put newRid ⟨decoded table.schema new, size⟩ := by
        rw [heap₅, heap₄, heap₃]
      cases what? with
      | some what =>
        rcases ended with ⟨completed, _⟩ | ⟨_, _, ⟨text, unordered⟩, _⟩ | ⟨_, op, _, failures₅⟩
        · cases completed
        · obtain ⟨order, ordered, _⟩ := getMaintenanceOrder_ok fun index member =>
            (validated valid index member).1
          rw [ordered] at unordered
          cases unordered
        · exact undoUpdate_settled free madeKeys goneKeys canTake heap entries₅
            (by rw [failures₅, failures₄, failures₃])
      | none =>
        have failures₅ : s₅.failures = s₂.failures := by
          rcases ended with ⟨_, failures⟩ | ⟨thrown, _⟩ | ⟨thrown, _⟩
          · rw [failures, failures₄, failures₃]
          · exact absurd rfl thrown
          · exact absurd rfl thrown
        rcases deleting : heapDelete env rid s₅ with ⟨r, s₆⟩
        simp only [deleting]
        rcases heapDelete_cases deleting with ⟨⟨what, rfl⟩ | rfl, idle⟩ | ⟨rfl, deleted⟩
        · exact undoUpdate_settled free madeKeys goneKeys canTake (idle.heap.trans heap)
            (idle.entries.trans entries₅) (by rw [idle.failures, failures₅])
        · exact undoUpdate_settled free madeKeys goneKeys canTake (idle.heap.trans heap)
            (idle.entries.trans entries₅) (by rw [idle.failures, failures₅])
        · exact ⟨[], by simpa [deleted, Store.tick] using failures₅, by simp, by simp⟩
    · cases what? with
      | none => exact absurd rfl thrown
      | some what =>
        exact undoUpdate_settled free madeKeys (by simp [HasKeys]) trivial (heap₄.trans heap₃)
          entries₄ (by rw [failures₄, failures₃])
  · exact .early idle₂ ⟨what, rfl⟩
  · exact .early idle₂ ⟨what, rfl⟩

theorem updateTuple_settled (env : Environment) (table : Table) (rid : RID) (new : Row)
    (s : Store) : Settled s (table.updateTuple env rid new s).2
      (∃ what, (table.updateTuple env rid new s).1 = .error what) := by
  unfold Table.updateTuple
  cases reading : s.heap.getTuple table.schema rid with
  | error what => exact .early (.refl s) ⟨what, rfl⟩
  | ok found =>
  cases found with
  | none => exact ⟨[], by simp, by simp, by simp⟩
  | some old =>
  obtain ⟨_, _, _, fits⟩ := HeapFile.getTuple_some reading
  simp only
  cases valid : table.validateIndexKeyCompatibility new with
  | some what => exact .early (.refl s) ⟨what, rfl⟩
  | none =>
  simp only
  cases table.anyIndexedKeyChanged old new with
  | none => exact .early (.refl s) ⟨_, rfl⟩
  | some changed =>
  cases canUpdateTupleInPlace table.schema s.heap rid new with
  | error what => exact .early (.refl s) ⟨what, rfl⟩
  | ok inPlace =>
  simp only
  split
  · rcases updating : heapUpdate env table.schema rid new s with ⟨r, s₁⟩
    rcases heapUpdate_cases updating with ⟨_, idle⟩ |
      ⟨_, _, _, _, _, rfl, rfl⟩ | ⟨_, _, _, _, _, _, _, _, rfl, rfl⟩
    · exact ⟨_, idle.failures, fun _ _ => idle.unchanged, by simp⟩
    · exact ⟨[], by simp [Store.tick], by simp, by simp⟩
    · exact ⟨[], by simp [Store.tick], by simp, by simp⟩
  · exact replaceTuple_settled rid s valid fits

end Calls

theorem run_settled (env : Environment) (table : Table) (call : Call) (s : Store) :
    Settled s (table.run env call s).2 (∃ what, (table.run env call s).1 = .error what) := by
  have thrown {α : Type} {f : α → Outcome} {r : Except String α} :
      (∃ what, r = .error what) ↔ ∃ what, r.map f = .error what := by
    cases r <;> simp [Except.map]
  cases call with
  | insert row =>
    have settled := insertTuple_settled env table row s
    rw [thrown (f := .inserted)] at settled
    exact settled
  | delete rid =>
    have settled := deleteTuple_settled env table rid s
    rw [thrown (f := .deleted)] at settled
    exact settled
  | update rid row =>
    have settled := updateTuple_settled env table rid row s
    rw [thrown (f := .updated)] at settled
    exact settled

/-- If one operation of a call fails, by throwing or by returning false, and nothing else, the call
throws and the live tuples and the entries of every index are those from before. The heap's own
update is one operation of the heap. -/
theorem run_allOrNothing (env : Environment) (table : Table) (call : Call) (s : Store)
    (op : Operation) (failed : (table.run env call s).2.failures = s.failures ++ [op])
    (ofTable : op ≠ .heapUpdate) :
    (∃ what, (table.run env call s).1 = .error what) ∧ Unchanged s (table.run env call s).2 := by
  obtain ⟨more, failures, undone, reported⟩ := run_settled env table call s
  have only : more = [op] := List.append_cancel_left (failures.symm.trans failed)
  have throws := reported ⟨op, by simp [only], ofTable⟩
  exact ⟨throws, undone (by simp [only]) throws⟩

def pairTable : Table where
  schema := [⟨⟨"a", .int64⟩, false, 0⟩, ⟨⟨"b", .int64⟩, false, 0⟩]
  indexes := [⟨"by_a", 10, [⟨0, .int64, 0, false⟩], true, .notSupported, some (.btree .int64 0)⟩,
    ⟨"by_b", 11, [⟨1, .int64, 0, false⟩], false, .notSupported, some (.btree .int64 0)⟩]
  distinct := by decide
  inSchema := by decide

/-- The index on `b` refuses its entry, after the heap and the index on `a` have theirs. -/
theorem run_allOrNothing_secondIndex :
    let env := Environment.onFirstPage fun clock => if clock = 4 then some (.throws "full") else none
    (∃ what, (pairTable.run env (.insert [.int64 1, .int64 2]) .empty).1 = .error what) ∧
      Unchanged .empty (pairTable.run env (.insert [.int64 1, .int64 2]) .empty).2 :=
  run_allOrNothing _ _ _ _ (.insertEntry 11) (by decide +kernel) (by decide)

end GraniteDb.Storage.AllOrNothing
