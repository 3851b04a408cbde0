/- The hash aggregation over its batch files, and that the budget does not matter. -/

import GraniteDb.Execution.Aggregates
import GraniteDb.Execution.Partitions
import GraniteDb.Lib.Grouping
import GraniteDb.Lib.Machine

namespace GraniteDb.Execution.HashAggregate

open Common.Value Lib.Pull Lib.Machine Lib.Batches Lib.Grouping Execution.Expressions
open Execution.TupleFile Execution.Partitions Execution.Aggregates
open Recovery.WalRecords (Bytes)
open Access.HeapFile (Column)
open Option (bind_some bind_eq_bind map_some bind_none map_none bind_eq_some_iff)

/-- `AggregateValueTypesFromSchema`; `none` is an exception. -/
def aggregateValueTypesFromSchema (outputSchema : List Column) (groupCount aggCount : Nat) :
    Option (List TypeId) :=
  (List.range aggCount).mapM fun i => (outputSchema[groupCount + i]?).map fun col => col.type

/-- A turn of `while (p < x) p <<= 1`, with the turns that are left. -/
def doubleUntil (x : Nat) : Nat → Nat → Nat
  | 0, p => p
  | turns + 1, p => if p < x then doubleUntil x turns (p * 2) else p

def nextPowerOfTwo (x : Nat) : Nat := if x ≤ 1 then 1 else doubleUntil x x 1

structure AggregateExecutor where
  childSchema : List Column
  groupByExprs : List Evaluation
  calls : List AggregateCall
  outputSchema : List Column
  memoryBudgetBytes : Nat

structure GroupState where
  groupVals : List Value
  aggs : List AggTransition
  deriving DecidableEq

/-- What the executor takes from the library: `std::hash`, and the order in which an unordered
map with these entries is gone through. -/
structure UnorderedMaps where
  hash : Bytes → Nat
  iterate : List (Bytes × GroupState) → List (Bytes × GroupState)
  perm : ∀ groups, (iterate groups).Perm groups

/-- The text `BuildGroupKey` builds: after every value a bar. -/
def groupKey (vals : List Value) : Bytes := vals.flatMap fun v => serializeValueForHash v ++ [124]

def groupValues (groupByExprs : List Evaluation) (row : Row) : Option (List Value) :=
  groupByExprs.mapM fun (expr : Evaluation) => expr row

/-- `BuildGroupKey`, with the group values; `none` is an exception. -/
def buildGroupKey (e : AggregateExecutor) (row : Row) : Option (Bytes × List Value) :=
  (groupValues e.groupByExprs row).map fun vals => (groupKey vals, vals)

def keyText (e : AggregateExecutor) (row : Row) : Option Bytes :=
  (buildGroupKey e row).map Prod.fst

/-- A row enters its group; a group without transitions is a new one. -/
def enterGroup (e : AggregateExecutor) (valueTypes : List TypeId) (state : GroupState)
    (item : List Value × Row) : Option GroupState :=
  let state : GroupState :=
    if state.aggs.isEmpty then ⟨item.1, makeInitialTransitions e.calls valueTypes⟩ else state
  (applyAggregateRow e.calls item.2 state.aggs).map fun aggs => { state with aggs := aggs }

def groupRows (e : AggregateExecutor) (valueTypes : List TypeId) (rows : List Row) :
    Option (List (Bytes × GroupState)) := do
  let items ← rows.mapM fun row => (buildGroupKey e row).map fun key => (key.1, key.2, row)
  table (enterGroup e valueTypes) ⟨[], []⟩ items

def outputRow (valueTypes : List TypeId) (group : Bytes × GroupState) : Row :=
  buildAggregateOutputTuple group.2.groupVals group.2.aggs valueTypes

structure AggregateState where
  emitEmpty : Bool
  results : List Row
  pos : Nat
  /-- The batches from `current_batch_idx_` on: the contents and the counted bytes. -/
  batchFiles : List (Bytes × Nat)
  deriving DecidableEq

/-- The loop of `LoadNextBatch`: the first batch that has groups, and the batches after it. -/
def loadBatches (e : AggregateExecutor) (maps : UnorderedMaps) (valueTypes : List TypeId) :
    List (Bytes × Nat) → Option (Option (List Row) × List (Bytes × Nat))
  | [] => some (none, [])
  | batch :: later => do
    let rows ← (readTuples e.childSchema batch.1).collect
    let groups ← groupRows e valueTypes rows
    if groups.isEmpty then loadBatches e maps valueTypes later
    else some (some ((maps.iterate groups).map (outputRow valueTypes)), later)

/-- `LoadNextBatch`; `none` is an exception. -/
def loadNextBatch (e : AggregateExecutor) (maps : UnorderedMaps) (s : AggregateState) :
    Option (Bool × AggregateState) := do
  let valueTypes ← aggregateValueTypesFromSchema e.outputSchema e.groupByExprs.length e.calls.length
  let (results, later) ← loadBatches e maps valueTypes s.batchFiles
  some (results.isSome, { s with results := results.getD [], pos := 0, batchFiles := later })

def emptyRow (e : AggregateExecutor) : Option Row :=
  (aggregateValueTypesFromSchema e.outputSchema e.groupByExprs.length e.calls.length).map
    fun valueTypes =>
      buildAggregateOutputTuple [] (makeInitialTransitions e.calls valueTypes) valueTypes

def next (e : AggregateExecutor) (maps : UnorderedMaps) (s : AggregateState) :
    Turn AggregateState Row :=
  if s.emitEmpty then
    match emptyRow e with
    | none => .fail
    | some row => .emit row { s with emitEmpty := false }
  else
    match s.results[s.pos]? with
    | some row => .emit row { s with pos := s.pos + 1 }
    | none =>
      match loadNextBatch e maps s with
      | none => .fail
      | some (false, _) => .stop
      | some (true, s) => .go s

/-- The number of batches for an input that is larger than the budget. -/
def batchCount (bytes budget : Nat) : Nat := nextPowerOfTwo (max 2 ((bytes + budget - 1) / budget))

/-- `Init`; `none` is an exception, and a division by a budget of zero. -/
def init (e : AggregateExecutor) (maps : UnorderedMaps) (child : Pull Row) :
    Option AggregateState := do
  let rows ← child.collect
  let allInput ← writeTuples e.childSchema rows
  let bytes := byteCount rows
  if bytes = 0 then some ⟨e.groupByExprs.isEmpty, [], 0, []⟩
  else if bytes ≤ e.memoryBudgetBytes then some ⟨false, [], 0, [(allInput, bytes)]⟩
  else if e.memoryBudgetBytes = 0 then none
  else
    (partitionFile maps.hash (batchCount bytes e.memoryBudgetBytes) e.childSchema (keyText e)
      allInput).map fun files => ⟨false, [], 0, files⟩

def Outputs (e : AggregateExecutor) (maps : UnorderedMaps) (child p : Pull Row) : Prop :=
  match init e maps child with
  | none => p = .thrown
  | some s => Yields (next e maps) s p

theorem doubleUntil_power (x turns i : Nat) : ∃ j, doubleUntil x turns (2 ^ i) = 2 ^ j := by
  induction turns generalizing i with
  | zero => exact ⟨i, rfl⟩
  | succ turns ih =>
    unfold doubleUntil
    split
    · rw [← Nat.pow_succ]
      exact ih (i + 1)
    · exact ⟨i, rfl⟩

theorem nextPowerOfTwo_power (x : Nat) : ∃ i, nextPowerOfTwo x = 2 ^ i := by
  unfold nextPowerOfTwo
  split
  · exact ⟨0, rfl⟩
  · exact doubleUntil_power x x 0

section Run

variable {e : AggregateExecutor} {maps : UnorderedMaps} {valueTypes : List TypeId}

def batchRows (e : AggregateExecutor) (maps : UnorderedMaps) (valueTypes : List TypeId)
    (batch : Bytes × Nat) : Option (List Row) := do
  let rows ← (readTuples e.childSchema batch.1).collect
  let groups ← groupRows e valueTypes rows
  some ((maps.iterate groups).map (outputRow valueTypes))

theorem yields_results {s : AggregateState} {p : Pull Row} (noEmpty : s.emitEmpty = false)
    (later : Yields (next e maps) { s with pos := s.results.length } p) :
    ∀ k, k ≤ s.results.length →
      Yields (next e maps) { s with pos := k } ((Pull.ofList (s.results.drop k)).append p) := by
  intro k inResults
  obtain ⟨left, isLeft⟩ : ∃ left, left = s.results.length - k := ⟨_, rfl⟩
  induction left generalizing k with
  | zero =>
    have atEnd : k = s.results.length := by omega
    subst atEnd
    rw [List.drop_length]
    exact later
  | succ left ih =>
    have inside : k < s.results.length := by omega
    have rest := ih (k + 1) (by omega) (by omega)
    rw [List.drop_eq_getElem_cons inside]
    refine .emit ?_ rest
    simp only [next, noEmpty, Bool.false_eq_true, if_false, List.getElem?_eq_getElem inside]

theorem yields_batches (types : aggregateValueTypesFromSchema e.outputSchema e.groupByExprs.length
      e.calls.length = some valueTypes) (batches : List (Bytes × Nat)) :
    ∀ s : AggregateState, s.emitEmpty = false → s.batchFiles = batches →
      s.results[s.pos]? = none →
      Yields (next e maps) s (Pull.concat (batchRows e maps valueTypes) batches) := by
  have turn (s : AggregateState) (noEmpty : s.emitEmpty = false)
      (atEnd : s.results[s.pos]? = none) : next e maps s =
        match loadBatches e maps valueTypes s.batchFiles with
        | none => .fail
        | some (none, _) => .stop
        | some (some results, later) =>
          .go { s with results := results, pos := 0, batchFiles := later } := by
    simp only [next, noEmpty, Bool.false_eq_true, if_false, atEnd, loadNextBatch, types,
      bind_eq_bind, bind_some]
    cases loadBatches e maps valueTypes s.batchFiles with
    | none => rfl
    | some loaded =>
      obtain ⟨results, later⟩ := loaded
      cases results <;> rfl
  induction batches with
  | nil =>
    intro s noEmpty files atEnd
    apply Yields.stop
    rw [turn s noEmpty atEnd, files]
    rfl
  | cons batch later ih =>
    intro s noEmpty files atEnd
    have here := turn s noEmpty atEnd
    simp only [files, loadBatches, bind_eq_bind] at here
    cases read : (readTuples e.childSchema batch.1).collect with
    | none =>
      have failed : batchRows e maps valueTypes batch = none := by
        simp only [batchRows, read, bind_eq_bind, bind_none]
      rw [read] at here
      simp only [Pull.concat, Pull.ofList, Pull.bind, failed]
      exact .fail here
    | some rows =>
      cases grouped : groupRows e valueTypes rows with
      | none =>
        have failed : batchRows e maps valueTypes batch = none := by
          simp only [batchRows, read, grouped, bind_eq_bind, bind_some,
            bind_none]
        simp only [read, grouped, bind_some, bind_none] at here
        simp only [Pull.concat, Pull.ofList, Pull.bind, failed]
        exact .fail here
      | some groups =>
        have output : batchRows e maps valueTypes batch =
            some ((maps.iterate groups).map (outputRow valueTypes)) := by
          simp only [batchRows, read, grouped, bind_eq_bind, bind_some]
        simp only [read, grouped, bind_some] at here
        have split : Pull.concat (batchRows e maps valueTypes) (batch :: later) =
            (Pull.ofList ((maps.iterate groups).map (outputRow valueTypes))).append
              (Pull.concat (batchRows e maps valueTypes) later) := by
          simp only [Pull.concat, Pull.ofList, Pull.bind, output]
        rw [split]
        cases none_ : groups.isEmpty with
        | true =>
          -- A batch without groups is passed over in the same call.
          have noRows : (maps.iterate groups).map (outputRow valueTypes) = [] := by
            rw [List.isEmpty_iff] at none_
            have same := maps.perm groups
            rw [none_] at same
            rw [none_, same.eq_nil, List.map_nil]
          rw [noRows]
          apply (ih { s with batchFiles := later } noEmpty rfl atEnd).congr
          rw [turn { s with batchFiles := later } noEmpty atEnd, here, none_, if_pos rfl]
        | false =>
          rw [none_] at here
          simp only [Bool.false_eq_true, if_false] at here
          refine .go here ?_
          have after := ih { s with
            results := (maps.iterate groups).map (outputRow valueTypes)
            pos := ((maps.iterate groups).map (outputRow valueTypes)).length
            batchFiles := later } noEmpty rfl (List.getElem?_eq_none le_rfl)
          exact yields_results (s := { s with
            results := (maps.iterate groups).map (outputRow valueTypes)
            batchFiles := later }) noEmpty after 0 (Nat.zero_le _)

theorem yields_typeless {s : AggregateState} (types : aggregateValueTypesFromSchema e.outputSchema
      e.groupByExprs.length e.calls.length = none) (atEnd : s.results[s.pos]? = none) :
    Yields (next e maps) s .thrown := by
  apply Yields.fail
  cases empty : s.emitEmpty with
  | true => simp only [next, empty, if_true, emptyRow, types, map_none]
  | false =>
    simp only [next, empty, Bool.false_eq_true, if_false, atEnd, loadNextBatch, types,
      bind_eq_bind, bind_none]

end Run

section Entering

variable {e : AggregateExecutor} {valueTypes : List TypeId}

theorem length_applyAggregateRow {calls : List AggregateCall} {row : Row}
    {aggs next : List AggTransition} (applied : applyAggregateRow calls row aggs = some next)
    (same : aggs.length = calls.length) : next.length = calls.length := by
  induction calls generalizing aggs next with
  | nil =>
    cases applied
    rfl
  | cons call calls ih =>
    cases aggs with
    | nil => cases same
    | cons agg aggs =>
      rw [applyAggregateRow, List.zip_cons_cons, List.mapM_cons, ← applyAggregateRow] at applied
      simp only [bind_eq_bind, bind_eq_some_iff] at applied
      obtain ⟨first, -, later, rest, shape⟩ := applied
      cases shape
      rw [List.length_cons, List.length_cons, ih rest (by simpa using same)]

theorem enterGroup_aggs {s : GroupState}
    (same : s.aggs.length = e.calls.length) (items : List (List Value × Row)) :
    (items.foldlM (enterGroup e valueTypes) s).map GroupState.aggs =
      (items.map Prod.snd).foldlM (fun aggs row => applyAggregateRow e.calls row aggs) s.aggs := by
  induction items generalizing s with
  | nil => rfl
  | cons item items ih =>
    have start : (if s.aggs.isEmpty then
        (⟨item.1, makeInitialTransitions e.calls valueTypes⟩ : GroupState) else s).aggs =
        s.aggs := by
      split
      · rename_i empty
        rw [List.isEmpty_iff] at empty
        rw [empty, List.length_nil] at same
        obtain none_ := List.length_eq_zero_iff.mp same.symm
        rw [none_, empty]
        rfl
      · rfl
    rw [List.foldlM_cons, List.map_cons, List.foldlM_cons]
    simp only [enterGroup, start]
    cases applied : applyAggregateRow e.calls item.2 s.aggs with
    | none => rfl
    | some next => exact ih (length_applyAggregateRow applied same)

variable {items : List (List Value × Row)}

theorem enterGroup_fresh (types : valueTypes.length = e.calls.length) (some_ : items ≠ []) :
    (items.foldlM (enterGroup e valueTypes) ⟨[], []⟩).map GroupState.aggs =
      (items.map Prod.snd).foldlM (fun aggs row => applyAggregateRow e.calls row aggs)
        (makeInitialTransitions e.calls valueTypes) := by
  cases items with
  | nil => exact (some_ rfl).elim
  | cons item items =>
    have length : (makeInitialTransitions e.calls valueTypes).length = e.calls.length := by
      rw [makeInitialTransitions, List.length_zipWith, types, Nat.min_self]
    rw [List.foldlM_cons, List.map_cons, List.foldlM_cons]
    simp only [enterGroup, List.isEmpty_nil, if_true]
    cases applied : applyAggregateRow e.calls item.2 (makeInitialTransitions e.calls valueTypes) with
    | none => rfl
    | some next => exact enterGroup_aggs (length_applyAggregateRow applied length) items

theorem enterGroup_vals {s final : GroupState}
    (entered : items.foldlM (enterGroup e valueTypes) s = some final) :
    final.groupVals = s.groupVals ∨ ∃ item ∈ items, final.groupVals = item.1 := by
  induction items generalizing s with
  | nil =>
    cases entered
    exact .inl rfl
  | cons item items ih =>
    rw [List.foldlM_cons] at entered
    obtain ⟨next, stepped, rest⟩ := bind_eq_some_iff.mp entered
    rcases ih rest with same | ⟨other, member, same⟩
    · obtain ⟨aggs, -, rfl⟩ := Option.map_eq_some_iff.mp stepped
      simp only at same
      split at same
      · exact .inr ⟨item, List.mem_cons_self, same⟩
      · exact .inl same
    · exact .inr ⟨other, List.mem_cons_of_mem _ member, same⟩

theorem enterGroup_fresh_vals {final : GroupState}
    (entered : items.foldlM (enterGroup e valueTypes) ⟨[], []⟩ = some final) (some_ : items ≠ []) :
    ∃ item ∈ items, final.groupVals = item.1 := by
  cases items with
  | nil => exact (some_ rfl).elim
  | cons item items =>
    rw [List.foldlM_cons] at entered
    obtain ⟨next, stepped, rest⟩ := bind_eq_some_iff.mp entered
    obtain ⟨aggs, -, rfl⟩ := Option.map_eq_some_iff.mp stepped
    rcases enterGroup_vals rest with same | ⟨other, member, same⟩
    · exact ⟨item, List.mem_cons_self, same⟩
    · exact ⟨other, List.mem_cons_of_mem _ member, same⟩

end Entering

section Output

variable {e : AggregateExecutor} {maps : UnorderedMaps} {valueTypes : List TypeId}

def itemOf (e : AggregateExecutor) (entry : Bytes × Row) : Bytes × List Value × Row :=
  (entry.1, (groupValues e.groupByExprs entry.2).getD [], entry.2)

def groupsOf (e : AggregateExecutor) (valueTypes : List TypeId) (entries : List (Bytes × Row)) :
    Option (List (Bytes × GroupState)) :=
  table (enterGroup e valueTypes) ⟨[], []⟩ (entries.map (itemOf e))

theorem groupRows_eq (rows : List Row) : groupRows e valueTypes rows =
    (entriesOf (keyText e) rows).bind (groupsOf e valueTypes) := by
  have items : (rows.mapM fun row => (buildGroupKey e row).map fun key => (key.1, key.2, row)) =
      (entriesOf (keyText e) rows).map (List.map (itemOf e)) := by
    induction rows with
    | nil => rfl
    | cons row rows ih =>
      rw [entriesOf] at ih ⊢
      rw [List.mapM_cons, List.mapM_cons, ih]
      cases values : groupValues e.groupByExprs row with
      | none => simp [buildGroupKey, keyText, values]
      | some vals =>
        cases (rows.mapM fun row => (keyText e row).map fun text => (text, row)) with
        | none => simp [buildGroupKey, keyText, values]
        | some entries => simp [buildGroupKey, keyText, values, itemOf]
  rw [groupRows, items]
  cases entriesOf (keyText e) rows <;> rfl

def mapRows (maps : UnorderedMaps) (valueTypes : List TypeId)
    (groups : List (Bytes × GroupState)) : List Row :=
  (maps.iterate groups).map (outputRow valueTypes)

theorem batchRows_eq (batch : Bytes × Nat) : batchRows e maps valueTypes batch =
    ((readTuples e.childSchema batch.1).collect.bind (entriesOf (keyText e))).bind fun entries =>
      (groupsOf e valueTypes entries).map (mapRows maps valueTypes) := by
  rw [batchRows]
  cases (readTuples e.childSchema batch.1).collect with
  | none => rfl
  | some rows =>
    simp only [bind_eq_bind, bind_some, groupRows_eq]
    cases entriesOf (keyText e) rows with
    | none => rfl
    | some entries =>
      simp only [bind_some]
      cases groupsOf e valueTypes entries <;> rfl

theorem batchRows_holds {batch : Bytes × Nat} {entries : List (Bytes × Row)}
    (holds : HoldsSide e.childSchema (keyText e) batch.1 entries) :
    batchRows e maps valueTypes batch =
      (groupsOf e valueTypes entries).map (mapRows maps valueTypes) := by
  rw [batchRows_eq, holds.read, Pull.collect_ofList, bind_some, holds.keys, bind_some]

def answer (e : AggregateExecutor) (valueTypes : List TypeId) (entries : List (Bytes × Row)) :
    Option (Multiset Row) :=
  (groupsOf e valueTypes entries).map fun groups =>
    ((groups.map (outputRow valueTypes) : List Row) : Multiset Row)

theorem mapRows_perm (groups : List (Bytes × GroupState)) :
    (mapRows maps valueTypes groups).Perm (groups.map (outputRow valueTypes)) :=
  (maps.perm groups).map _

theorem concat_batches (i : Nat) (entries : List (Bytes × Row)) :
    (Pull.concat (fun k => (groupsOf e valueTypes
        (inBatch (batchNo maps.hash (2 ^ i)) k entries)).map (mapRows maps valueTypes))
      (List.range (2 ^ i))).multiset = answer e valueTypes entries := by
  let items := entries.map (itemOf e)
  let batch (text : Bytes) : Nat := maps.hash text &&& (2 ^ i - 1)
  have own (k : Nat) : (inBatch (batchNo maps.hash (2 ^ i)) k entries).map (itemOf e) =
      inBatch (fun item => batch item.1) k items := by
    simp only [inBatch, items, List.filter_map]
    rfl
  have inRange : ∀ text ∈ items.map Prod.fst, batch text < 2 ^ i := by
    intro text _
    exact batchNo_lt maps.hash i (text, [])
  rcases @tables_batches _ _ _ _ (enterGroup e valueTypes) ⟨[], []⟩ _ _ _ inRange with
    ⟨tables, each, t, whole, perm⟩ | ⟨⟨k, less, fails⟩, whole⟩
  · have rows : ∀ k ∈ List.range (2 ^ i), (groupsOf e valueTypes
        (inBatch (batchNo maps.hash (2 ^ i)) k entries)).map (mapRows maps valueTypes) =
        some (mapRows maps valueTypes (tables k)) := by
      intro k member
      rw [groupsOf, own, each k (List.mem_range.mp member), map_some]
    rw [Pull.concat_some rows, Pull.multiset_ofList, answer, groupsOf, whole, map_some,
      Option.some.injEq, Multiset.coe_eq_coe]
    have all : ((List.range (2 ^ i)).flatMap fun k => mapRows maps valueTypes (tables k)).Perm
        (((List.range (2 ^ i)).flatMap tables).map (outputRow valueTypes)) := by
      rw [List.map_flatMap]
      exact List.Perm.flatMap_left _ fun k _ => mapRows_perm (tables k)
    exact all.trans (perm.map _)
  · have none_ := Pull.concat_none (f := fun k => (groupsOf e valueTypes
        (inBatch (batchNo maps.hash (2 ^ i)) k entries)).map (mapRows maps valueTypes))
      (List.mem_range.mpr less) (by rw [groupsOf, own, fails, map_none])
    rw [Pull.multiset, none_, answer, groupsOf, whole]
    rfl

theorem byteCount_pos {rows : List Row} (some_ : rows ≠ []) : byteCount rows ≠ 0 := by
  cases rows with
  | nil => exact (some_ rfl).elim
  | cons row rows =>
    rw [byteCount, List.map_cons, List.sum_cons, estimateTupleSize]
    omega

theorem concat_input {rows : List Row} (valid : ∀ row ∈ rows, Valid e.childSchema row)
    (some_ : rows ≠ []) (budget : 1 ≤ e.memoryBudgetBytes) :
    match init e maps (.ofList rows) with
    | none => (keptEntries e.childSchema (keyText e) rows).bind (answer e valueTypes) = none
    | some s => s.emitEmpty = false ∧ s.results = [] ∧ s.pos = 0 ∧
        (Pull.concat (batchRows e maps valueTypes) s.batchFiles).multiset =
          (keptEntries e.childSchema (keyText e) rows).bind (answer e valueTypes) := by
  obtain ⟨allInput, written⟩ := writeTuples_valid valid
  have read := readTuples_written written
  have collected : (readTuples e.childSchema allInput).collect = rows.mapM (kept e.childSchema) := by
    rw [read, Pull.collect_mapM_ofList]
  have begin_ : init e maps (.ofList rows) =
      if byteCount rows ≤ e.memoryBudgetBytes then
        some ⟨false, [], 0, [(allInput, byteCount rows)]⟩
      else (partitionFile maps.hash (batchCount (byteCount rows) e.memoryBudgetBytes) e.childSchema
        (keyText e) allInput).map fun files => ⟨false, [], 0, files⟩ := by
    have noZero : ¬ e.memoryBudgetBytes = 0 := by omega
    simp only [init, Pull.collect_ofList, bind_eq_bind, bind_some, written,
      if_neg (byteCount_pos some_), if_neg noZero]
  rw [begin_]
  by_cases fits : byteCount rows ≤ e.memoryBudgetBytes
  · rw [if_pos fits]
    refine ⟨rfl, rfl, rfl, ?_⟩
    have single : batchRows e maps valueTypes (allInput, byteCount rows) =
        (keptEntries e.childSchema (keyText e) rows).bind fun entries =>
          (groupsOf e valueTypes entries).map (mapRows maps valueTypes) := by
      rw [batchRows_eq, collected]
      rfl
    cases entries_ : keptEntries e.childSchema (keyText e) rows with
    | none =>
      rw [entries_, bind_none] at single
      rw [Pull.multiset, Pull.concat_none List.mem_cons_self single]
      rfl
    | some entries =>
      rw [entries_, bind_some] at single
      rw [bind_some, answer]
      cases grouped : groupsOf e valueTypes entries with
      | none =>
        rw [grouped, map_none] at single
        rw [Pull.multiset, Pull.concat_none List.mem_cons_self single]
        rfl
      | some groups =>
        rw [grouped, map_some] at single
        have all : ∀ batch ∈ [(allInput, byteCount rows)], batchRows e maps valueTypes batch =
            some (mapRows maps valueTypes groups) := by
          intro batch member
          rw [List.mem_singleton.mp member, single]
        rw [Pull.concat_some all, List.flatMap_singleton, Pull.multiset_ofList, map_some,
          Option.some.injEq, Multiset.coe_eq_coe]
        exact mapRows_perm groups
  · rw [if_neg fits]
    obtain ⟨i, power⟩ := nextPowerOfTwo_power
      (max 2 ((byteCount rows + e.memoryBudgetBytes - 1) / e.memoryBudgetBytes))
    rw [batchCount, power]
    cases entries_ : keptEntries e.childSchema (keyText e) rows with
    | none =>
      rw [partitionFile_none collected entries_]
      rfl
    | some entries =>
      obtain ⟨back, keptBack, keys⟩ := bind_eq_some_iff.mp entries_
      rw [Pull.mapM_ofList_some keptBack] at read
      obtain ⟨files, passed, hold⟩ := @partitionFile_ok maps.hash _ _ _ _ _ (2 ^ i) read
        (intact_of_kept valid keptBack) keys
      rw [passed, map_some]
      refine ⟨rfl, rfl, rfl, ?_⟩
      rw [bind_some, ← @concat_batches _ maps _ i entries]
      congr 1
      exact Pull.concat_congr (hold.imp fun _ _ holds => batchRows_holds holds)

theorem outputs_answer (maps : UnorderedMaps) {rows : List Row}
    (valid : ∀ row ∈ rows, Valid e.childSchema row) (budget : 1 ≤ e.memoryBudgetBytes) :
    ∃ p, Outputs e maps (.ofList rows) p ∧ p.multiset =
      (aggregateValueTypesFromSchema e.outputSchema e.groupByExprs.length e.calls.length).bind
        fun valueTypes =>
          if rows = [] then
            if e.groupByExprs = [] then
              some {buildAggregateOutputTuple [] (makeInitialTransitions e.calls valueTypes)
                valueTypes}
            else some 0
          else (keptEntries e.childSchema (keyText e) rows).bind (answer e valueTypes) := by
  by_cases none_ : rows = []
  · have begin_ : init e maps (.ofList rows) = some ⟨e.groupByExprs.isEmpty, [], 0, []⟩ := by
      rw [none_]
      rfl
    cases types : aggregateValueTypesFromSchema e.outputSchema e.groupByExprs.length
        e.calls.length with
    | none =>
      refine ⟨.thrown, ?_, rfl⟩
      rw [Outputs, begin_]
      exact yields_typeless types rfl
    | some valueTypes =>
      have later := @yields_batches _ maps _ types [] ⟨false, [], 0, []⟩ rfl rfl rfl
      rw [bind_some, if_pos none_]
      by_cases global : e.groupByExprs = []
      · refine ⟨.item (buildAggregateOutputTuple [] (makeInitialTransitions e.calls valueTypes)
          valueTypes) .done, ?_, ?_⟩
        · rw [Outputs, begin_, global]
          refine .emit ?_ later
          simp only [next, List.isEmpty_nil, if_true, emptyRow, types, map_some]
        · rw [if_pos global]
          rfl
      · refine ⟨.done, ?_, ?_⟩
        · have grouped : e.groupByExprs.isEmpty = false := by
            rw [← Bool.not_eq_true, List.isEmpty_iff]
            exact global
          rw [Outputs, begin_, grouped]
          exact later
        · rw [if_neg global]
          rfl
  · cases types : aggregateValueTypesFromSchema e.outputSchema e.groupByExprs.length
        e.calls.length with
    | none =>
      refine ⟨.thrown, ?_, rfl⟩
      have input := @concat_input _ maps [] _ valid none_ budget
      rw [Outputs]
      cases begin_ : init e maps (.ofList rows) with
      | none => rfl
      | some s =>
        rw [begin_] at input
        exact yields_typeless types (by rw [input.2.1]; rfl)
    | some valueTypes =>
      have input := @concat_input _ maps valueTypes _ valid none_ budget
      rw [bind_some, if_neg none_]
      cases begin_ : init e maps (.ofList rows) with
      | none =>
        rw [begin_] at input
        exact ⟨.thrown, by rw [Outputs, begin_], by rw [input]; rfl⟩
      | some s =>
        rw [begin_] at input
        obtain ⟨noEmpty, noResults, start, batches⟩ := input
        refine ⟨_, ?_, batches⟩
        rw [Outputs, begin_]
        exact yields_batches types _ s noEmpty rfl (by rw [noResults]; rfl)

theorem Outputs.unique {child p q : Pull Row} (first : Outputs e maps child p)
    (second : Outputs e maps child q) : p = q := by
  unfold Outputs at first second
  cases begin_ : init e maps child with
  | none =>
    rw [begin_] at first second
    rw [first, second]
  | some s =>
    rw [begin_] at first second
    exact first.unique second

/-- The same aggregation with another memory budget, under another hash function and another
order of the maps, yields the same rows. -/
theorem budget_free {rows : List Row} (valid : ∀ row ∈ rows, Valid e.childSchema row)
    (maps maps' : UnorderedMaps) {budget budget' : Nat} (one : 1 ≤ budget) (one' : 1 ≤ budget') :
    ∃ p p', Outputs { e with memoryBudgetBytes := budget } maps (.ofList rows) p ∧
      Outputs { e with memoryBudgetBytes := budget' } maps' (.ofList rows) p' ∧
      p.multiset = p'.multiset := by
  obtain ⟨p, outputs, same⟩ := outputs_answer (e := { e with memoryBudgetBytes := budget }) maps
    valid one
  obtain ⟨p', outputs', same'⟩ := outputs_answer (e := { e with memoryBudgetBytes := budget' }) maps'
    valid one'
  exact ⟨p, p', outputs, outputs', same.trans same'.symm⟩

/-- The rows of one column are counted and summed by their own value: in one batch in the order
of the entries, and in many in the reverse order. -/
theorem budget_free_counted : ∃ p p',
    Outputs ⟨[⟨⟨"a", .int32⟩, true, 0⟩], [fun row => row[0]?],
      [⟨.count, none⟩, ⟨.sum, some fun row => row[0]?⟩],
      [⟨⟨"a", .int32⟩, true, 0⟩, ⟨⟨"c", .int64⟩, true, 0⟩, ⟨⟨"s", .int64⟩, true, 0⟩], 4096⟩
      ⟨fun _ => 0, id, fun _ => .refl _⟩ (.ofList [[.int32 7], [.null .int32], [.int32 7]]) p ∧
    Outputs ⟨[⟨⟨"a", .int32⟩, true, 0⟩], [fun row => row[0]?],
      [⟨.count, none⟩, ⟨.sum, some fun row => row[0]?⟩],
      [⟨⟨"a", .int32⟩, true, 0⟩, ⟨⟨"c", .int64⟩, true, 0⟩, ⟨⟨"s", .int64⟩, true, 0⟩], 1⟩
      ⟨List.length, List.reverse, List.reverse_perm⟩
      (.ofList [[.int32 7], [.null .int32], [.int32 7]]) p' ∧
    p.multiset = p'.multiset :=
  budget_free (e := ⟨[⟨⟨"a", .int32⟩, true, 0⟩], [fun row => row[0]?],
      [⟨.count, none⟩, ⟨.sum, some fun row => row[0]?⟩],
      [⟨⟨"a", .int32⟩, true, 0⟩, ⟨⟨"c", .int64⟩, true, 0⟩, ⟨⟨"s", .int64⟩, true, 0⟩], 4096⟩)
    (by decide) ⟨fun _ => 0, id, fun _ => .refl _⟩ ⟨List.length, List.reverse, List.reverse_perm⟩
    (by decide) (by decide)

end Output

end GraniteDb.Execution.HashAggregate
