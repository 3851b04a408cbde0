/- Scan, filter, sort and join executors as streams of rows. -/

import GraniteDb.Catalog.CatalogManager
import GraniteDb.Lib.Pull
import Mathlib.Data.List.Sort

namespace GraniteDb.Execution.Operators

open Common.Types Common.Value Access.IndexScan Catalog.CatalogManager Execution.Expressions
open Lib.Pull
open Option (map_eq_some_iff bind_eq_some_iff)
open List (mem_cons_self mem_map mem_cons mem_cons_of_mem)

def seqScan (heap : HeapFile) : Pull Row := .ofList (heap.map Prod.snd)

def fetch (heap : HeapFile) (rid : RID) (rest : Pull Row) : Pull Row :=
  match getTuple heap rid with
  | some row => .item row rest
  | none => rest

/-- `IndexScanExecutor::Next` in the mode for one key: another key ends the scan. -/
def scanEqual (heap : HeapFile) (key : Value) : List LeafEntry → Pull Row
  | [] => .done
  | e :: rest =>
    match compareValues e.key key with
    | none => .thrown
    | some .eq => fetch heap e.rid (scanEqual heap key rest)
    | some _ => .done

/-- `IndexScanExecutor::Next` in the other modes: a key above the range ends the scan. -/
def scanRange (heap : HeapFile) (lower upper : Option Value)
    (lowerInclusive upperInclusive : Bool) : List LeafEntry → Pull Row
  | [] => .done
  | e :: rest =>
    match rangeVerdict lower upper lowerInclusive upperInclusive e.key with
    | none => .thrown
    | some .below => scanRange heap lower upper lowerInclusive upperInclusive rest
    | some .above => .done
    | some .within =>
      fetch heap e.rid (scanRange heap lower upper lowerInclusive upperInclusive rest)

inductive ScanMode
  | full
  | equality (key : Value)
  | range (lower upper : Option Value) (lowerInclusive upperInclusive : Bool)
  deriving DecidableEq

def indexScan (heap : HeapFile) (index : BTreeIndex) : ScanMode → Pull Row
  | .full => scanRange heap none none true true index.entries
  | .equality key =>
    match index.entriesFrom key with
    | none => .thrown
    | some entries => scanEqual heap key entries
  | .range lower upper lowerInclusive upperInclusive =>
    let entries := match lower with
      | some bound => index.entriesFrom bound
      | none => some index.entries
    match entries with
    | none => .thrown
    | some entries => scanRange heap lower upper lowerInclusive upperInclusive entries

def genericIndexScan (heap : HeapFile) (index : GenericBTreeIndex) (spec : PrefixScanSpec)
    (fullIndexScan : Bool) : Pull Row :=
  let hits := if fullIndexScan then some index.fullScanRids else index.scanPrefixRange spec
  match hits with
  | none => .thrown
  | some rids => .ofList (rids.filterMap (getTuple heap))

section RowOperators

def condition (predicate : Expression) (row : Row) : Option Bool :=
  (predicate.evaluateRow row).map valueAsBool

def filter (child : Pull Row) (predicate : Expression) : Pull Row :=
  child.filter (condition predicate)

structure SortKeySpec where
  expr : Expression
  ascending : Bool
  deriving DecidableEq

def compareValuesWithNulls (a b : Value) : Option Ordering :=
  if a.isNull && b.isNull then some .eq
  else if a.isNull then some .lt
  else if b.isNull then some .gt
  else compareValues a b

def compareTupleBySortKeys (a b : Row) : List SortKeySpec → Option Ordering
  | [] => some .eq
  | spec :: rest => do
    let va ← spec.expr.evaluateRow a
    let vb ← spec.expr.evaluateRow b
    match ← compareValuesWithNulls va vb with
    | .eq => compareTupleBySortKeys a b rest
    | cmp => some (if spec.ascending then cmp else cmp.swap)

/-- `SortExecutor`: it fails if two rows cannot be compared. -/
def sort (child : Pull Row) (keys : List SortKeySpec) : Pull Row :=
  child.drain fun rows =>
    if rows.all fun a => rows.all fun b => (compareTupleBySortKeys a b keys).isSome then
      .ofList (rows.mergeSort fun a b => compareTupleBySortKeys a b keys != some .gt)
    else .thrown

def materialize (child : Pull Row) : Pull Row := child.drain .ofList

variable {child : Pull Row} {row : Row}

theorem mem_filter {predicate : Expression} (member : row ∈ (filter child predicate).items) :
    row ∈ child.items ∧ predicate.Accepts row := by
  obtain ⟨inChild, verdict⟩ := Pull.mem_items_filter member
  exact ⟨inChild, map_eq_some_iff.mp verdict⟩

theorem mem_sort {keys : List SortKeySpec} (member : row ∈ (sort child keys).items) :
    row ∈ child.items := by
  obtain ⟨_, sorted⟩ := Pull.mem_items_drain member
  split at sorted
  · rw [Pull.items_ofList] at sorted
    exact List.mem_mergeSort.mp sorted
  · cases sorted

theorem mem_materialize (member : row ∈ (materialize child).items) : row ∈ child.items := by
  obtain ⟨_, stored⟩ := Pull.mem_items_drain member
  rwa [Pull.items_ofList] at stored

end RowOperators

section Joins

def nestedLoopJoin (left right : Pull Row) (predicate : Expression) : Pull Row :=
  left.bind fun l =>
    (right.filter fun r => (predicate.evaluate (some l) (some r)).map valueAsBool).map (l ++ ·)

def lookupRows (heap : HeapFile) (index : BTreeIndex) (key : Value) : Option (List Row) :=
  (index.search key).map fun rids => rids.filterMap (getTuple heap)

def indexNestedLoopJoin (left : Pull Row) (heap : HeapFile) (index : BTreeIndex)
    (leftKey : Expression) : Pull Row :=
  left.bind fun l =>
    match (leftKey.evaluateRow l).bind (lookupRows heap index) with
    | none => .thrown
    | some rows => .ofList (rows.map (l ++ ·))

/-- `MemoizedIndexNestedLoopJoinExecutor`, with the sets it has cached so far. -/
def memoizedIndexNestedLoopJoin (heap : HeapFile) (index : BTreeIndex) (leftKey : Expression) :
    List (List UInt8 × List Row) → Pull Row → Pull Row
  | _, .done => .done
  | _, .thrown => .thrown
  | cache, .item l rest =>
    match leftKey.evaluateRow l with
    | none => .thrown
    | some key =>
      match cache.lookup (serializeValueForHash key) with
      | some rows =>
        (Pull.ofList (rows.map (l ++ ·))).append
          (memoizedIndexNestedLoopJoin heap index leftKey cache rest)
      | none =>
        match lookupRows heap index key with
        | none => .thrown
        | some rows =>
          (Pull.ofList (rows.map (l ++ ·))).append
            (memoizedIndexNestedLoopJoin heap index leftKey
              ((serializeValueForHash key, rows) :: cache) rest)

/-- What a hash join depends on beside its inputs: the hash function of the library and the
number of batches its memory budget leads to. -/
structure Partitioning where
  hash : List UInt8 → Nat
  batches : Nat

def keyed (key : Expression) (rows : List Row) : Option (List (List UInt8 × Row)) :=
  rows.mapM fun row => (key.evaluateRow row).map fun v => (serializeValueForHash v, row)

/-- The output of `HashJoinExecutor` batch by batch: each probe row meets the build rows of
its batch that have the text of its key. -/
def probeBatches (partitioning : Partitioning) (buildLeftSide : Bool)
    (build probe : List (List UInt8 × Row)) : List Row :=
  (List.range partitioning.batches).flatMap fun batch =>
    let inBatch (entry : List UInt8 × Row) : Bool :=
      partitioning.hash entry.1 % partitioning.batches == batch
    (probe.filter inBatch).flatMap fun p =>
      ((build.filter inBatch).filter fun b => b.1 == p.1).map fun b =>
        if buildLeftSide then b.2 ++ p.2 else p.2 ++ b.2

def hashJoin (partitioning : Partitioning) (left right : Pull Row)
    (leftKey rightKey : Expression) (buildLeftSide : Bool) : Pull Row :=
  left.drain fun leftRows => right.drain fun rightRows =>
    match keyed leftKey leftRows, keyed rightKey rightRows with
    | some l, some r =>
      .ofList (probeBatches partitioning buildLeftSide
        (if buildLeftSide then l else r) (if buildLeftSide then r else l))
    | _, _ => .thrown

def compareKey (rightKey : Expression) (key : Value) (row : Row) : Option Ordering :=
  (rightKey.evaluateRow row).bind (compareValues key)

/-- Skip the inner rows below an outer key. With the comparison that ended the skipping, none
at the end of the inner input. -/
def seekRight (rightKey : Expression) (key : Value) :
    Pull Row → Option (Option Ordering × Pull Row)
  | .done => some (none, .done)
  | .thrown => none
  | .item r rest =>
    match compareKey rightKey key r with
    | none => none
    | some .gt => seekRight rightKey key rest
    | some cmp => some (some cmp, .item r rest)

/-- `EMIT_MATCHES` for one outer row: the inner input stands at the first row of the group, and the
next inner row is read before a joined row is returned. -/
def emitMatches (rightKey : Expression) (key : Value) (l : Row) (next : Pull Row → Pull Row) :
    Pull Row → Pull Row
  | .done => next .done
  | .thrown => .thrown
  | .item r .done => .item (l ++ r) (next .done)
  | .item _ .thrown => .thrown
  | .item r (.item r' rest) =>
    match (rightKey.evaluateRow r').bind fun v => compareValues v key with
    | none => .thrown
    | some .eq => .item (l ++ r) (emitMatches rightKey key l next (.item r' rest))
    | some _ => .item (l ++ r) (next (.item r' rest))

/-- `MergeJoinExecutor` from one outer row on. `mark` holds the match key and the marked inner
position while the outer rows of a group are gone through. -/
def mergeJoinFrom (leftKey rightKey : Expression) :
    Pull Row → Pull Row → Option (Value × Pull Row) → Pull Row
  | .done, _, _ => .done
  | .thrown, _, _ => .thrown
  | .item l rest, right, mark =>
    match leftKey.evaluateRow l with
    | none => .thrown
    | some key =>
      -- State `NEED_COMPARE`.
      let needCompare :=
        match seekRight rightKey key right with
        | none => .thrown
        | some (none, _) => .done
        | some (some .eq, group) =>
          emitMatches rightKey key l
            (fun after => mergeJoinFrom leftKey rightKey rest after (some (key, group))) group
        | some (some _, later) => mergeJoinFrom leftKey rightKey rest later none
      -- State `ADVANCE_OUTER_DUPLICATES`.
      match mark with
      | none => needCompare
      | some (matchKey, group) =>
        match compareValues key matchKey with
        | none => .thrown
        | some .eq =>
          emitMatches rightKey matchKey l
            (fun after => mergeJoinFrom leftKey rightKey rest after mark) group
        | some _ => needCompare

def mergeJoin (left right : Pull Row) (leftKey rightKey : Expression) : Pull Row :=
  mergeJoinFrom leftKey rightKey left right none

variable {left right : Pull Row} {row : Row} {heap : HeapFile} {index : BTreeIndex} {key : Value}
  {leftKey rightKey : Expression}

theorem mem_nestedLoopJoin {predicate : Expression}
    (member : row ∈ (nestedLoopJoin left right predicate).items) :
    ∃ l ∈ left.items, ∃ r ∈ right.items, row = l ++ r ∧
      ∃ v, predicate.evaluate (some l) (some r) = some v ∧ valueAsBool v = true := by
  obtain ⟨l, inLeft, joined⟩ := Pull.mem_items_bind member
  rw [Pull.items_map] at joined
  obtain ⟨r, kept, rfl⟩ := mem_map.mp joined
  obtain ⟨inRight, verdict⟩ := Pull.mem_items_filter kept
  exact ⟨l, inLeft, r, inRight, rfl, map_eq_some_iff.mp verdict⟩

theorem mem_lookupRows {rows : List Row} (found : lookupRows heap index key = some rows)
    (member : row ∈ rows) :
    ∃ e ∈ index.entries, getTuple heap e.rid = some row ∧ compareEncoded e.key key = some .eq := by
  obtain ⟨rids, searched, rfl⟩ := map_eq_some_iff.mp found
  obtain ⟨rid, inRids, stored⟩ := List.mem_filterMap.mp member
  obtain ⟨e, inIndex, rfl, same⟩ := search_sound searched rid inRids
  exact ⟨e, inIndex, stored, same⟩

theorem mem_indexNestedLoopJoin
    (member : row ∈ (indexNestedLoopJoin left heap index leftKey).items) :
    ∃ l ∈ left.items, ∃ key, leftKey.evaluateRow l = some key ∧
      ∃ rows, lookupRows heap index key = some rows ∧ ∃ r ∈ rows, row = l ++ r := by
  obtain ⟨l, inLeft, joined⟩ := Pull.mem_items_bind member
  split at joined
  · cases joined
  · rename_i rows found
    obtain ⟨key, evaluated, looked⟩ := bind_eq_some_iff.mp found
    rw [Pull.items_ofList] at joined
    obtain ⟨r, inRows, rfl⟩ := mem_map.mp joined
    exact ⟨l, inLeft, key, evaluated, rows, looked, r, inRows, rfl⟩

def Cached (heap : HeapFile) (index : BTreeIndex) (leftKey : Expression) (seen : List Row)
    (cache : List (List UInt8 × List Row)) : Prop :=
  ∀ text rows, cache.lookup text = some rows → ∃ l ∈ seen, ∃ key,
    leftKey.evaluateRow l = some key ∧ serializeValueForHash key = text ∧
      lookupRows heap index key = some rows

private theorem mem_memoized {seen : List Row} {cache : List (List UInt8 × List Row)}
    (cached : Cached heap index leftKey seen cache)
    (member : row ∈ (memoizedIndexNestedLoopJoin heap index leftKey cache left).items) :
    ∃ l ∈ left.items, ∃ l' ∈ seen ++ left.items, ∃ key key',
      leftKey.evaluateRow l = some key ∧ leftKey.evaluateRow l' = some key' ∧
      serializeValueForHash key = serializeValueForHash key' ∧
      ∃ rows, lookupRows heap index key' = some rows ∧ ∃ r ∈ rows, row = l ++ r := by
  induction left generalizing seen cache with
  | done => cases member
  | thrown => cases member
  | item l rest ih =>
    have later {cache' : List (List UInt8 × List Row)}
        (cached' : Cached heap index leftKey (seen ++ [l]) cache')
        (inRest : row ∈ (memoizedIndexNestedLoopJoin heap index leftKey cache' rest).items) :
        ∃ l' ∈ (Pull.item l rest).items, ∃ l'' ∈ seen ++ (Pull.item l rest).items,
          ∃ key key', leftKey.evaluateRow l' = some key ∧ leftKey.evaluateRow l'' = some key' ∧
          serializeValueForHash key = serializeValueForHash key' ∧
          ∃ rows, lookupRows heap index key' = some rows ∧ ∃ r ∈ rows, row = l' ++ r := by
      obtain ⟨l', inLeft, l'', inSeen, facts⟩ := ih cached' inRest
      refine ⟨l', mem_cons_of_mem _ inLeft, l'', ?_, facts⟩
      simpa [Pull.items] using inSeen
    unfold memoizedIndexNestedLoopJoin at member
    cases evaluated : leftKey.evaluateRow l with
    | none =>
      rw [evaluated] at member
      cases member
    | some key =>
      simp only [evaluated] at member
      cases looked : cache.lookup (serializeValueForHash key) with
      | some rows =>
        simp only [looked] at member
        obtain ⟨l', inSeen, key', evaluated', same, found⟩ := cached _ _ looked
        rcases Pull.mem_items_append member with here | inRest
        · rw [Pull.items_ofList] at here
          obtain ⟨r, inRows, rfl⟩ := mem_map.mp here
          exact ⟨l, mem_cons_self, l', List.mem_append_left _ inSeen, key, key',
            evaluated, evaluated', same.symm, rows, found, r, inRows, rfl⟩
        · apply later _ inRest
          intro text rows' hit
          obtain ⟨l'', inSeen', facts⟩ := cached text rows' hit
          exact ⟨l'', List.mem_append_left _ inSeen', facts⟩
      | none =>
        simp only [looked] at member
        cases found : lookupRows heap index key with
        | none =>
          rw [found] at member
          cases member
        | some rows =>
          simp only [found] at member
          rcases Pull.mem_items_append member with here | inRest
          · rw [Pull.items_ofList] at here
            obtain ⟨r, inRows, rfl⟩ := mem_map.mp here
            exact ⟨l, mem_cons_self, l, List.mem_append_right _ mem_cons_self,
              key, key, evaluated, evaluated, rfl, rows, found, r, inRows, rfl⟩
          · apply later _ inRest
            intro text rows' hit
            rw [List.lookup_cons] at hit
            by_cases same : text = serializeValueForHash key
            · subst same
              simp only [beq_self_eq_true] at hit
              cases hit
              exact ⟨l, List.mem_append_right _ (List.mem_singleton_self _), key,
                evaluated, rfl, found⟩
            · rw [beq_eq_false_iff_ne.mpr same] at hit
              obtain ⟨l'', inSeen', facts⟩ := cached text rows' hit
              exact ⟨l'', List.mem_append_left _ inSeen', facts⟩

theorem mem_memoizedIndexNestedLoopJoin
    (member : row ∈ (memoizedIndexNestedLoopJoin heap index leftKey [] left).items) :
    ∃ l ∈ left.items, ∃ l' ∈ left.items, ∃ key key',
      leftKey.evaluateRow l = some key ∧ leftKey.evaluateRow l' = some key' ∧
      serializeValueForHash key = serializeValueForHash key' ∧
      ∃ rows, lookupRows heap index key' = some rows ∧ ∃ r ∈ rows, row = l ++ r := by
  have empty : Cached heap index leftKey [] [] := by
    intro text rows hit
    cases hit
  simpa using mem_memoized empty member

private theorem mem_keyed {key : Expression} {rows : List Row} {pairs : List (List UInt8 × Row)}
    (done : keyed key rows = some pairs) {pair : List UInt8 × Row} (member : pair ∈ pairs) :
    pair.2 ∈ rows ∧ ∃ v, key.evaluateRow pair.2 = some v ∧ serializeValueForHash v = pair.1 := by
  induction rows generalizing pairs with
  | nil =>
    cases done
    cases member
  | cons row rest ih =>
    simp only [keyed, List.mapM_cons, Option.bind_eq_bind, bind_eq_some_iff] at done
    obtain ⟨first, evaluated, tail, inner, same⟩ := done
    cases same
    obtain ⟨v, value, rfl⟩ := map_eq_some_iff.mp evaluated
    rcases mem_cons.mp member with rfl | later
    · exact ⟨mem_cons_self, v, value, rfl⟩
    · obtain ⟨inRest, facts⟩ := ih inner later
      exact ⟨mem_cons_of_mem _ inRest, facts⟩

private theorem mem_probeBatches {partitioning : Partitioning} {buildLeftSide : Bool}
    {build probe : List (List UInt8 × Row)}
    (member : row ∈ probeBatches partitioning buildLeftSide build probe) :
    ∃ b ∈ build, ∃ p ∈ probe, b.1 = p.1 ∧
      row = if buildLeftSide then b.2 ++ p.2 else p.2 ++ b.2 := by
  obtain ⟨batch, _, inBatch⟩ := List.mem_flatMap.mp member
  obtain ⟨p, probed, joined⟩ := List.mem_flatMap.mp inBatch
  obtain ⟨b, matched, rfl⟩ := mem_map.mp joined
  obtain ⟨built, same⟩ := List.mem_filter.mp matched
  exact ⟨b, List.mem_of_mem_filter built, p, List.mem_of_mem_filter probed, by simpa using same,
    rfl⟩

theorem mem_hashJoin {partitioning : Partitioning} {buildLeftSide : Bool}
    (member : row ∈ (hashJoin partitioning left right leftKey rightKey buildLeftSide).items) :
    ∃ l ∈ left.items, ∃ r ∈ right.items, row = l ++ r ∧ ∃ kl kr,
      leftKey.evaluateRow l = some kl ∧ rightKey.evaluateRow r = some kr ∧
      serializeValueForHash kl = serializeValueForHash kr := by
  obtain ⟨_, inner⟩ := Pull.mem_items_drain member
  obtain ⟨_, joined⟩ := Pull.mem_items_drain inner
  split at joined
  · rename_i ls rs keyedLeft keyedRight
    rw [Pull.items_ofList] at joined
    obtain ⟨b, built, p, probed, same, shape⟩ := mem_probeBatches joined
    have pair {l r : List UInt8 × Row} (inLeft : l ∈ ls) (inRight : r ∈ rs) (text : l.1 = r.1)
        (shape : row = l.2 ++ r.2) :
        ∃ l ∈ left.items, ∃ r ∈ right.items, row = l ++ r ∧ ∃ kl kr,
          leftKey.evaluateRow l = some kl ∧ rightKey.evaluateRow r = some kr ∧
          serializeValueForHash kl = serializeValueForHash kr := by
      obtain ⟨lRow, kl, evalLeft, textLeft⟩ := mem_keyed keyedLeft inLeft
      obtain ⟨rRow, kr, evalRight, textRight⟩ := mem_keyed keyedRight inRight
      exact ⟨l.2, lRow, r.2, rRow, shape, kl, kr, evalLeft, evalRight,
        textLeft.trans (text.trans textRight.symm)⟩
    cases buildLeftSide with
    | true => exact pair built probed same shape
    | false => exact pair probed built same.symm shape
  · cases joined

private theorem seekRight_some {later : Pull Row} {cmp : Option Ordering}
    (sought : seekRight rightKey key right = some (cmp, later)) :
    later.items ⊆ right.items ∧
      ∀ o, cmp = some o → ∃ r rest, later = .item r rest ∧ compareKey rightKey key r = some o := by
  induction right with
  | done =>
    cases sought
    exact ⟨List.Subset.refl _, nofun⟩
  | thrown => cases sought
  | item r rest ih =>
    unfold seekRight at sought
    cases compared : compareKey rightKey key r with
    | none =>
      rw [compared] at sought
      cases sought
    | some o =>
      simp only [compared] at sought
      cases o with
      | gt =>
        obtain ⟨inRest, facts⟩ := ih sought
        exact ⟨List.subset_cons_of_subset _ inRest, facts⟩
      | lt | eq =>
        cases sought
        refine ⟨List.Subset.refl _, ?_⟩
        rintro o ⟨⟩
        exact ⟨r, rest, rfl, compared⟩

def Alike (a b : Value) : Prop := compareValues a b = some .eq

theorem Alike.symm {a b : Value} (alike : Alike a b) : Alike b a := by
  have doubles (x y : GraniteDb.Common.Double.Double) (same : compareDoubles x y = .eq) :
      compareDoubles y x = .eq := by
    unfold compareDoubles at same ⊢
    split at same
    · cases same
    · split at same
      · cases same
      · rename_i notLess notGreater
        rw [if_neg notGreater, if_neg notLess]
  have bools (x y : Bool) (same : compareBools x y = .eq) : compareBools y x = .eq := by
    cases x <;> cases y <;> first | rfl | cases same
  have bytes (x y : List UInt8) (same : compareBytes x y = .eq) : compareBytes y x = .eq := by
    unfold compareBytes at same ⊢
    split at same
    · cases same
    · split at same
      · cases same
      · rename_i notLess notGreater
        rw [if_neg notGreater, if_neg notLess]
  unfold Alike at alike ⊢
  cases a <;> cases b <;> simp only [compareValues, Value.isNull, valueToDouble, Bool.or_self,
    Bool.or_true, Bool.or_false, Bool.false_eq_true, if_true, if_false,
    Option.some.injEq, reduceCtorEq] at alike ⊢
  all_goals first
    | exact doubles _ _ alike
    | exact bools _ _ alike
    | exact bytes _ _ alike

theorem Alike.self {a b : Value} (alike : Alike a b) : Alike b b := by
  cases b with
  | null _ => cases a <;> cases alike
  | boolean x => cases x <;> rfl
  | int32 _ | int64 _ | double _ =>
    simp [Alike, compareValues, Value.isNull, valueToDouble]
  | varchar s => simp [Alike, compareValues, Value.isNull, valueToDouble, compareBytes,
      List.lt_irrefl]

def HasMatchKey (key : Expression) (matchKey : Value) (row : Row) : Prop :=
  ∃ v, key.evaluateRow row = some v ∧ Alike v matchKey

private theorem mem_emitMatches {l : Row} {next : Pull Row → Pull Row} {group : Pull Row}
    (first : ∀ r rest, group = .item r rest → HasMatchKey rightKey key r)
    (member : row ∈ (emitMatches rightKey key l next group).items) :
    (∃ r ∈ group.items, row = l ++ r ∧ HasMatchKey rightKey key r) ∨
      ∃ after : Pull Row, after.items ⊆ group.items ∧ row ∈ (next after).items := by
  induction group with
  | done => exact .inr ⟨.done, List.Subset.refl _, member⟩
  | thrown => cases member
  | item r rest ih =>
    have here := first r rest rfl
    cases rest with
    | done =>
      rcases mem_cons.mp member with rfl | later
      · exact .inl ⟨r, mem_cons_self, rfl, here⟩
      · exact .inr ⟨.done, List.nil_subset _, later⟩
    | thrown => cases member
    | item r' rest =>
      unfold emitMatches at member
      split at member
      · cases member
      · rename_i compared
        rcases mem_cons.mp member with rfl | later
        · exact .inl ⟨r, mem_cons_self, rfl, here⟩
        · obtain ⟨v, evaluated, alike⟩ := bind_eq_some_iff.mp compared
          have firstNext : ∀ r'' rest', Pull.item r' rest = .item r'' rest' →
              HasMatchKey rightKey key r'' := by
            rintro _ _ ⟨⟩
            exact ⟨v, evaluated, alike⟩
          rcases ih firstNext later with ⟨x, inRest, facts⟩ | ⟨after, sub, inNext⟩
          · exact .inl ⟨x, mem_cons_of_mem _ inRest, facts⟩
          · exact .inr ⟨after, List.subset_cons_of_subset _ sub, inNext⟩
      · rcases mem_cons.mp member with rfl | later
        · exact .inl ⟨r, mem_cons_self, rfl, here⟩
        · exact .inr ⟨.item r' rest, List.subset_cons_self _ _, later⟩

private theorem mem_mergeJoinFrom {inner : Pull Row} {outer : List Row}
    {mark : Option (Value × Pull Row)} (sub : right.items ⊆ inner.items)
    (among : left.items ⊆ outer)
    (marked : ∀ key group, mark = some (key, group) → group.items ⊆ inner.items ∧ (∃ l ∈ outer,
      leftKey.evaluateRow l = some key) ∧ ∀ r rest, group = .item r rest → HasMatchKey rightKey key
      r)
    (member : row ∈ (mergeJoinFrom leftKey rightKey left right mark).items) :
    ∃ l ∈ left.items, ∃ r ∈ inner.items, row = l ++ r ∧
      ∃ key, (∃ l' ∈ outer, leftKey.evaluateRow l' = some key) ∧
        HasMatchKey leftKey key l ∧ HasMatchKey rightKey key r := by
  induction left generalizing right mark with
  | done => cases member
  | thrown => cases member
  | item l rest ih =>
    have isOuter : l ∈ outer := among mem_cons_self
    have amongRest : rest.items ⊆ outer := fun _ inRest => among (mem_cons_of_mem _ inRest)
    have later {right' : Pull Row} {mark' : Option (Value × Pull Row)}
        (sub' : right'.items ⊆ inner.items)
        (marked' : ∀ key group, mark' = some (key, group) → group.items ⊆ inner.items ∧
          (∃ l ∈ outer, leftKey.evaluateRow l = some key) ∧
          ∀ r rest, group = .item r rest → HasMatchKey rightKey key r)
        (inRest : row ∈ (mergeJoinFrom leftKey rightKey rest right' mark').items) :
        ∃ l' ∈ (Pull.item l rest).items, ∃ r ∈ inner.items, row = l' ++ r ∧
          ∃ key, (∃ l'' ∈ outer, leftKey.evaluateRow l'' = some key) ∧
            HasMatchKey leftKey key l' ∧ HasMatchKey rightKey key r := by
      obtain ⟨l', inLeft, facts⟩ := ih sub' amongRest marked' inRest
      exact ⟨l', mem_cons_of_mem _ inLeft, facts⟩
    -- A group that is emitted for `l`, and what follows it.
    have emitted {key : Value} {group : Pull Row} {mark' : Option (Value × Pull Row)}
        (mine : leftKey.evaluateRow l = some key ∨ HasMatchKey leftKey key l)
        (inGroup : group.items ⊆ inner.items)
        (origin : ∃ l' ∈ outer, leftKey.evaluateRow l' = some key)
        (first : ∀ r rest, group = .item r rest → HasMatchKey rightKey key r)
        (same : mark' = some (key, group))
        (inEmit : row ∈ (emitMatches rightKey key l
          (fun after => mergeJoinFrom leftKey rightKey rest after mark') group).items) :
        ∃ l' ∈ (Pull.item l rest).items, ∃ r ∈ inner.items, row = l' ++ r ∧
          ∃ key, (∃ l'' ∈ outer, leftKey.evaluateRow l'' = some key) ∧
            HasMatchKey leftKey key l' ∧ HasMatchKey rightKey key r := by
      rcases mem_emitMatches first inEmit with ⟨r, member, shape, has⟩ | ⟨after, inAfter, next⟩
      · have own : HasMatchKey leftKey key l := by
          rcases mine with isKey | own
          · obtain ⟨v, _, alike⟩ := has
            exact ⟨key, isKey, alike.self⟩
          · exact own
        exact ⟨l, mem_cons_self, r, inGroup member, shape, key, origin, own, has⟩
      · apply later (List.Subset.trans inAfter inGroup) _ next
        rintro key' group' equal
        rw [same] at equal
        cases equal
        exact ⟨inGroup, origin, first⟩
    unfold mergeJoinFrom at member
    cases evaluated : leftKey.evaluateRow l with
    | none =>
      rw [evaluated] at member
      cases member
    | some key =>
      simp only [evaluated] at member
      have compare (inCompare : row ∈ (match seekRight rightKey key right with
          | none => (.thrown : Pull Row)
          | some (none, _) => .done
          | some (some .eq, group) =>
            emitMatches rightKey key l (fun after =>
              mergeJoinFrom leftKey rightKey rest after (some (key, group))) group
          | some (some _, later) => mergeJoinFrom leftKey rightKey rest later none).items) :
          ∃ l' ∈ (Pull.item l rest).items, ∃ r ∈ inner.items, row = l' ++ r ∧
            ∃ key, (∃ l'' ∈ outer, leftKey.evaluateRow l'' = some key) ∧
              HasMatchKey leftKey key l' ∧ HasMatchKey rightKey key r := by
        cases sought : seekRight rightKey key right with
        | none =>
          rw [sought] at inCompare
          cases inCompare
        | some result =>
          obtain ⟨cmp, group⟩ := result
          obtain ⟨inRight, facts⟩ := seekRight_some sought
          simp only [sought] at inCompare
          cases cmp with
          | none => cases inCompare
          | some o =>
            cases o with
            | eq =>
              apply emitted (.inl evaluated) (List.Subset.trans inRight sub)
                ⟨l, isOuter, evaluated⟩ _ rfl inCompare
              intro r rest' shape
              obtain ⟨r', rest'', shape', compared⟩ := facts .eq rfl
              rw [shape] at shape'
              cases shape'
              obtain ⟨v, value, alike⟩ := bind_eq_some_iff.mp compared
              exact ⟨v, value, Alike.symm alike⟩
            | lt | gt =>
              exact later (List.Subset.trans inRight sub) (by rintro _ _ ⟨⟩) inCompare
      cases mark with
      | none => exact compare member
      | some held =>
        obtain ⟨matchKey, group⟩ := held
        obtain ⟨inGroup, origin, first⟩ := marked matchKey group rfl
        simp only at member
        cases compared : compareValues key matchKey with
        | none =>
          rw [compared] at member
          cases member
        | some o =>
          simp only [compared] at member
          cases o with
          | eq =>
            exact emitted (.inr ⟨key, evaluated, compared⟩) inGroup origin first rfl member
          | lt | gt => exact compare member

theorem mem_mergeJoin (member : row ∈ (mergeJoin left right leftKey rightKey).items) :
    ∃ l ∈ left.items, ∃ r ∈ right.items, row = l ++ r ∧
      ∃ key, (∃ l' ∈ left.items, leftKey.evaluateRow l' = some key) ∧
        HasMatchKey leftKey key l ∧ HasMatchKey rightKey key r :=
  mem_mergeJoinFrom (List.Subset.refl _) (List.Subset.refl _) (by rintro _ _ ⟨⟩) member

end Joins

end GraniteDb.Execution.Operators
