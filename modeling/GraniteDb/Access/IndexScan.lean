/- Reading the leaf chain of a single-column and of a composite index. -/

import GraniteDb.Common.Types
import GraniteDb.Execution.Expressions

namespace GraniteDb.Access.IndexScan

open Common.Types Common.Value Execution.Expressions
open Option (bind_eq_some_iff bind_eq_bind)
open List (mem_flatten mem_cons_of_mem)

/-- The checks of `EncodeValue`. The model keeps the key as a value, not as its bytes. -/
def encodeValue (keyType : TypeId) (maxVarcharLen : Nat) (v : Value) : Option Value :=
  if v.isNull then none
  else if v.typeId ≠ keyType then none
  else
    match v with
    | .varchar s => if maxVarcharLen < s.length then none else some v
    | _ => some v

/-- `CompareEncoded`, on keys of one type; `none` is an exception. -/
def compareEncoded : Value → Value → Option Ordering
  | .boolean x, .boolean y => some (compareBools x y)
  | .int32 x, .int32 y => some (compare x.toInt y.toInt)
  | .int64 x, .int64 y => some (compare x.toInt y.toInt)
  | .double x, .double y => some (compareDoubles x y)
  | .varchar x, .varchar y => some (compareBytes x y)
  | _, _ => none

structure IndexKeyColumnDefinition where
  columnIdx : Nat
  type : TypeId
  maxVarcharLen : Nat
  nullable : Bool
  deriving DecidableEq

inductive NullPolicy
  | notSupported
  | distinctNulls
  | nullsLow
  | nullsHigh
  deriving DecidableEq

/-- The checks `EncodeKey` makes on one component. -/
def encodeComponent (policy : NullPolicy) (col : IndexKeyColumnDefinition) (v : Value) : Bool :=
  if v.isNull then policy != .notSupported && col.nullable
  else
    v.typeId == col.type &&
      match v with
      | .varchar s => !(0 < col.maxVarcharLen && col.maxVarcharLen < s.length)
      | _ => true

/-- `CompositeKeyCodec::EncodeKey`; again the values stand for their bytes. -/
def encodeKey (policy : NullPolicy) (cols : List IndexKeyColumnDefinition) (key : List Value) :
    Option (List Value) :=
  if key.length = cols.length ∧ (cols.zip key).all (fun c => encodeComponent policy c.1 c.2) then
    some key
  else none

inductive Verdict
  | below
  | within
  | above
  deriving DecidableEq

def isUnder (lower : Option Value) (inclusive : Bool) (v : Value) : Option Bool :=
  match lower with
  | none => some false
  | some bound => (compareValues v bound).map fun cmp => cmp == .lt || (cmp == .eq && !inclusive)

def isOver (upper : Option Value) (inclusive : Bool) (v : Value) : Option Bool :=
  match upper with
  | none => some false
  | some bound => (compareValues v bound).map fun cmp => cmp == .gt || (cmp == .eq && !inclusive)

/-- The bound tests of the range scans, the lower bound first; `none` is an exception. -/
def rangeVerdict (lower upper : Option Value) (lowerInclusive upperInclusive : Bool) (v : Value) :
    Option Verdict := do
  if ← isUnder lower lowerInclusive v then some .below
  else if ← isOver upper upperInclusive v then some .above
  else some .within

theorem rangeVerdict_within {lower upper : Option Value} {lowerInclusive upperInclusive : Bool}
    {v : Value} (within : rangeVerdict lower upper lowerInclusive upperInclusive v = some .within) :
    isUnder lower lowerInclusive v = some false ∧ isOver upper upperInclusive v = some false := by
  unfold rangeVerdict at within
  cases under : isUnder lower lowerInclusive v with
  | none => simp [under] at within
  | some b =>
    cases b with
    | true => simp [under] at within
    | false =>
      cases beyond : isOver upper upperInclusive v with
      | none => simp [under, beyond] at within
      | some b' =>
        cases b' with
        | true => simp [under, beyond] at within
        | false => exact ⟨rfl, rfl⟩

section SingleColumn

structure LeafEntry where
  key : Value
  rid : RID
  deriving DecidableEq

/-- A single-column index as its readers see it: the leaves along the right links, and the
position in that chain of the leaf a descent for a key ends in. -/
structure BTreeIndex where
  keyType : TypeId
  maxVarcharLen : Nat
  leaves : List (List LeafEntry)
  findLeaf : Value → Nat

/-- The loop of `Search` over one leaf: the hits, and whether a greater key stopped it. -/
def searchEntries (key : Value) : List LeafEntry → Option (List RID × Bool)
  | [] => some ([], false)
  | e :: rest => do
    match ← compareEncoded e.key key with
    | .lt => searchEntries key rest
    | .eq =>
      let (hits, stop) ← searchEntries key rest
      some (e.rid :: hits, stop)
    | .gt => some ([], true)

def endsWithKey (key : Value) (leaf : List LeafEntry) : Option Bool :=
  match leaf.getLast? with
  | none => some false
  | some last => (compareEncoded last.key key).map (· == .eq)

/-- `Search` from one leaf on: it moves right only from a leaf that ends with the key. -/
def searchLeaves (key : Value) : List (List LeafEntry) → Option (List RID)
  | [] => some []
  | leaf :: rest => do
    let (hits, stop) ← searchEntries key leaf
    let atEnd ← endsWithKey key leaf
    if !stop && !hits.isEmpty && atEnd then
      let more ← searchLeaves key rest
      some (hits ++ more)
    else some hits

def BTreeIndex.search (index : BTreeIndex) (key : Value) : Option (List RID) := do
  let encoded ← encodeValue index.keyType index.maxVarcharLen key
  searchLeaves encoded (index.leaves.drop (index.findLeaf encoded))

/-- The entries `BTreeIndexIterator` yields without a lower bound. -/
def BTreeIndex.entries (index : BTreeIndex) : List LeafEntry := index.leaves.flatten

def skipBelow (lower : Value) : List LeafEntry → Option (List LeafEntry)
  | [] => some []
  | e :: rest => do
    match ← compareEncoded e.key lower with
    | .lt => skipBelow lower rest
    | _ => some (e :: rest)

/-- The entries `BTreeIndexIterator` yields from a lower bound on. -/
def BTreeIndex.entriesFrom (index : BTreeIndex) (lower : Value) : Option (List LeafEntry) := do
  let encoded ← encodeValue index.keyType index.maxVarcharLen lower
  skipBelow encoded (index.leaves.drop (index.findLeaf encoded)).flatten

theorem skipBelow_subset {lower : Value} {entries kept : List LeafEntry}
    (skipped : skipBelow lower entries = some kept) : kept ⊆ entries := by
  induction entries generalizing kept with
  | nil =>
    cases skipped
    exact List.Subset.refl _
  | cons e rest ih =>
    simp only [skipBelow, bind_eq_bind, bind_eq_some_iff] at skipped
    obtain ⟨cmp, _, later⟩ := skipped
    cases cmp with
    | lt => exact List.subset_cons_of_subset _ (ih later)
    | eq | gt =>
      cases later
      exact List.Subset.refl _

theorem entriesFrom_subset {index : BTreeIndex} {lower : Value} {kept : List LeafEntry}
    (found : index.entriesFrom lower = some kept) : kept ⊆ index.entries := by
  simp only [BTreeIndex.entriesFrom, bind_eq_bind, bind_eq_some_iff] at found
  obtain ⟨encoded, _, skipped⟩ := found
  intro e member
  obtain ⟨leaf, inChain, inLeaf⟩ := mem_flatten.mp (skipBelow_subset skipped member)
  exact mem_flatten.mpr ⟨leaf, List.mem_of_mem_drop inChain, inLeaf⟩

variable {key : Value} {hits : List RID}

theorem searchEntries_sound {entries : List LeafEntry} {stop : Bool}
    (searched : searchEntries key entries = some (hits, stop)) :
    ∀ rid ∈ hits, ∃ e ∈ entries, e.rid = rid ∧ compareEncoded e.key key = some .eq := by
  induction entries generalizing hits stop with
  | nil =>
    cases searched
    simp
  | cons e rest ih =>
    simp only [searchEntries, bind_eq_bind, bind_eq_some_iff] at searched
    obtain ⟨cmp, compared, later⟩ := searched
    cases cmp with
    | lt =>
      intro rid member
      obtain ⟨e', inRest, facts⟩ := ih later rid member
      exact ⟨e', mem_cons_of_mem _ inRest, facts⟩
    | eq =>
      simp only [bind_eq_some_iff] at later
      obtain ⟨⟨more, stop'⟩, inner, same⟩ := later
      cases same
      intro rid member
      rcases List.mem_cons.mp member with rfl | inMore
      · exact ⟨e, List.mem_cons_self, rfl, compared⟩
      · obtain ⟨e', inRest, facts⟩ := ih inner rid inMore
        exact ⟨e', mem_cons_of_mem _ inRest, facts⟩
    | gt =>
      cases later
      simp

theorem searchLeaves_sound {leaves : List (List LeafEntry)}
    (searched : searchLeaves key leaves = some hits) :
    ∀ rid ∈ hits, ∃ e ∈ leaves.flatten, e.rid = rid ∧ compareEncoded e.key key = some .eq := by
  induction leaves generalizing hits with
  | nil =>
    cases searched
    simp
  | cons leaf rest ih =>
    simp only [searchLeaves, bind_eq_bind, bind_eq_some_iff] at searched
    obtain ⟨⟨here, stop⟩, found, atEnd, _, outcome⟩ := searched
    have inLeaf : ∀ rid ∈ here, ∃ e ∈ (leaf :: rest).flatten,
        e.rid = rid ∧ compareEncoded e.key key = some .eq := by
      intro rid member
      obtain ⟨e, inEntries, facts⟩ := searchEntries_sound found rid member
      exact ⟨e, mem_flatten.mpr ⟨leaf, List.mem_cons_self, inEntries⟩, facts⟩
    split at outcome
    · simp only [bind_eq_some_iff] at outcome
      obtain ⟨more, further, same⟩ := outcome
      cases same
      intro rid member
      rcases List.mem_append.mp member with first | second
      · exact inLeaf rid first
      · obtain ⟨e, inRest, facts⟩ := ih further rid second
        exact ⟨e, mem_flatten.mpr (by
          obtain ⟨l, inChain, inL⟩ := mem_flatten.mp inRest
          exact ⟨l, mem_cons_of_mem _ inChain, inL⟩), facts⟩
    · cases outcome
      exact inLeaf

theorem search_sound {index : BTreeIndex} (searched : index.search key = some hits) :
    ∀ rid ∈ hits, ∃ e ∈ index.entries, e.rid = rid ∧ compareEncoded e.key key = some .eq := by
  simp only [BTreeIndex.search, bind_eq_bind, bind_eq_some_iff] at searched
  obtain ⟨encoded, checked, found⟩ := searched
  have same : encoded = key := by
    unfold encodeValue at checked
    split at checked
    · cases checked
    · split at checked
      · cases checked
      · split at checked
        · split at checked
          · cases checked
          · exact (Option.some.inj checked).symm
        · exact (Option.some.inj checked).symm
  subst same
  intro rid member
  obtain ⟨e, inDropped, facts⟩ := searchLeaves_sound found rid member
  obtain ⟨leaf, inChain, inLeaf⟩ := mem_flatten.mp inDropped
  exact ⟨e, mem_flatten.mpr ⟨leaf, List.mem_of_mem_drop inChain, inLeaf⟩, facts⟩

theorem compareValues_of_compareEncoded {a b : Value} (same : compareEncoded a b = some .eq) :
    compareValues a b = some .eq := by
  cases a <;> cases b <;> simp only [compareEncoded, Option.some.injEq, reduceCtorEq] at same
  case boolean.boolean | double.double | varchar.varchar =>
    simp [compareValues, Value.isNull, valueToDouble, same]
  case int32.int32 | int64.int64 =>
    have equal := Int.compare_eq_eq.mp same
    simp [compareValues, Value.isNull, valueToDouble, equal]

end SingleColumn

structure GenericLeafEntry where
  key : List Value
  rid : RID
  deriving DecidableEq

structure GenericBTreeIndex where
  keyColumns : List IndexKeyColumnDefinition
  nullPolicy : NullPolicy
  leaves : List (List GenericLeafEntry)
  findLeaf : List Value → Nat

structure PrefixScanSpec where
  equalityPrefix : List Value
  lowerBound : Option Value
  upperBound : Option Value
  lowerInclusive : Bool
  upperInclusive : Bool
  deriving DecidableEq

/-- The least value of a type, which pads the start key of a scan. -/
def leastValue : TypeId → Option Value
  | .boolean => some (.boolean false)
  | .int32 => some (.int32 (BitVec.intMin 32))
  | .int64 => some (.int64 (BitVec.intMin 64))
  | .double => some (.double ⟨BitVec.ofNat 64 (2 ^ 63 + 2047 * 2 ^ 52)⟩)
  | .varchar => some (.varchar [])
  | .invalid => none

def startKey (cols : List IndexKeyColumnDefinition) (spec : PrefixScanSpec) : Option (List Value) :=
  let given := spec.equalityPrefix ++
    (if spec.equalityPrefix.length < cols.length then spec.lowerBound.toList else [])
  (((cols.drop given.length).mapM fun col => leastValue col.type).map (given ++ ·))

def prefixOrder : List Value → List Value → Option Ordering
  | k :: ks, p :: ps => do
    match ← compareValues k p with
    | .eq => prefixOrder ks ps
    | other => some other
  | _, _ => some .eq

def rangeColumnVerdict (spec : PrefixScanSpec) (key : List Value) : Option Verdict :=
  match key[spec.equalityPrefix.length]? with
  | some v =>
    rangeVerdict spec.lowerBound spec.upperBound spec.lowerInclusive spec.upperInclusive v
  | none => some .within

/-- The loop of `ScanPrefixRange` over the entries of the chain. -/
def scanEntries (spec : PrefixScanSpec) : List GenericLeafEntry → Option (List GenericLeafEntry)
  | [] => some []
  | e :: rest => do
    match ← prefixOrder e.key spec.equalityPrefix with
    | .lt => scanEntries spec rest
    | .gt => some []
    | .eq =>
      match ← rangeColumnVerdict spec e.key with
      | .below => scanEntries spec rest
      | .above => some []
      | .within =>
        let more ← scanEntries spec rest
        some (e :: more)

/-- The entries `FullScanRids` goes through. -/
def GenericBTreeIndex.entries (index : GenericBTreeIndex) : List GenericLeafEntry :=
  index.leaves.flatten

def GenericBTreeIndex.fullScanRids (index : GenericBTreeIndex) : List RID :=
  index.entries.map GenericLeafEntry.rid

/-- The position in the chain where `ScanPrefixRange` starts. -/
def GenericBTreeIndex.startLeaf (index : GenericBTreeIndex) (spec : PrefixScanSpec) : Option Nat :=
  if spec.equalityPrefix = [] ∧ spec.lowerBound = none then some 0
  else do
    let key ← startKey index.keyColumns spec
    let encoded ← encodeKey index.nullPolicy index.keyColumns key
    some (index.findLeaf encoded)

def GenericBTreeIndex.scanPrefixRangeEntries (index : GenericBTreeIndex) (spec : PrefixScanSpec) :
    Option (List GenericLeafEntry) :=
  if index.keyColumns.length < spec.equalityPrefix.length then none
  else if (spec.lowerBound.isSome || spec.upperBound.isSome) &&
      decide (index.keyColumns.length ≤ spec.equalityPrefix.length) then none
  else do
    let start ← index.startLeaf spec
    scanEntries spec (index.leaves.drop start).flatten

/-- `ScanPrefixRange`, which collects the RIDs alone. -/
def GenericBTreeIndex.scanPrefixRange (index : GenericBTreeIndex) (spec : PrefixScanSpec) :
    Option (List RID) :=
  (index.scanPrefixRangeEntries spec).map fun entries => entries.map GenericLeafEntry.rid

/-- `CompareWithNullPolicy`; `none` is an exception. -/
def compareWithNullPolicy (policy : NullPolicy) (a b : Value) : Option Ordering :=
  if !a.isNull && !b.isNull then compareValues a b
  else if a.isNull && b.isNull then some .eq
  else
    match policy with
    | .nullsLow => some (if a.isNull then .lt else .gt)
    | .nullsHigh => some (if a.isNull then .gt else .lt)
    | _ => none

def compareKeys (policy : NullPolicy) : List Value → List Value → Option Ordering
  | a :: as, b :: bs => do
    match ← compareWithNullPolicy policy a b with
    | .eq => compareKeys policy as bs
    | other => some other
  | _, _ => some .eq

/-- The loop of `SearchExactEntries` over one leaf: the hits, and whether a greater key stopped
it. -/
def searchExactLeaf (policy : NullPolicy) (key : List Value) :
    List GenericLeafEntry → Option (List GenericLeafEntry × Bool)
  | [] => some ([], false)
  | e :: rest => do
    match ← compareKeys policy e.key key with
    | .lt => searchExactLeaf policy key rest
    | .eq =>
      let (hits, stop) ← searchExactLeaf policy key rest
      some (e :: hits, stop)
    | .gt => some ([], true)

def endsWithExactKey (policy : NullPolicy) (key : List Value) (leaf : List GenericLeafEntry) :
    Option Bool :=
  match leaf.getLast? with
  | none => some false
  | some last => (compareKeys policy last.key key).map (· == .eq)

/-- `SearchExactEntries` from one leaf on. -/
def searchExactLeaves (policy : NullPolicy) (key : List Value) :
    List (List GenericLeafEntry) → Option (List GenericLeafEntry)
  | [] => some []
  | leaf :: rest => do
    let (hits, stop) ← searchExactLeaf policy key leaf
    let atEnd ← endsWithExactKey policy key leaf
    if !stop && !hits.isEmpty && atEnd then
      let more ← searchExactLeaves policy key rest
      some (hits ++ more)
    else some hits

def GenericBTreeIndex.searchExactEntries (index : GenericBTreeIndex) (key : List Value) :
    Option (List GenericLeafEntry) := do
  let encoded ← encodeKey index.nullPolicy index.keyColumns key
  searchExactLeaves index.nullPolicy encoded (index.leaves.drop (index.findLeaf encoded))

def InsideScan (spec : PrefixScanSpec) (key : List Value) : Prop :=
  prefixOrder key spec.equalityPrefix = some .eq ∧ rangeColumnVerdict spec key = some .within

theorem scanEntries_sound {spec : PrefixScanSpec} {entries hits : List GenericLeafEntry}
    (scanned : scanEntries spec entries = some hits) :
    ∀ e ∈ hits, e ∈ entries ∧ InsideScan spec e.key := by
  induction entries generalizing hits with
  | nil =>
    cases scanned
    simp
  | cons e rest ih =>
    have skip {later : List GenericLeafEntry} (found : scanEntries spec rest = some later) :
        ∀ e' ∈ later, e' ∈ e :: rest ∧ InsideScan spec e'.key := by
      intro e' member
      obtain ⟨inRest, facts⟩ := ih found e' member
      exact ⟨mem_cons_of_mem _ inRest, facts⟩
    simp only [scanEntries, bind_eq_bind, bind_eq_some_iff] at scanned
    obtain ⟨cmp, compared, outcome⟩ := scanned
    cases cmp with
    | lt => exact skip outcome
    | gt =>
      cases outcome
      simp
    | eq =>
      simp only [bind_eq_some_iff] at outcome
      obtain ⟨verdict, tested, outcome⟩ := outcome
      cases verdict with
      | below => exact skip outcome
      | above =>
        cases outcome
        simp
      | within =>
        simp only [bind_eq_some_iff] at outcome
        obtain ⟨more, found, same⟩ := outcome
        cases same
        intro e' member
        rcases List.mem_cons.mp member with rfl | later
        · exact ⟨List.mem_cons_self, compared, tested⟩
        · exact skip found e' later

theorem scanPrefixRange_sound {index : GenericBTreeIndex} {spec : PrefixScanSpec}
    {hits : List RID} (scanned : index.scanPrefixRange spec = some hits) :
    ∀ rid ∈ hits, ∃ e ∈ index.entries, e.rid = rid ∧ InsideScan spec e.key := by
  obtain ⟨entries, collected, rfl⟩ := Option.map_eq_some_iff.mp scanned
  unfold GenericBTreeIndex.scanPrefixRangeEntries at collected
  split at collected
  · cases collected
  split at collected
  · cases collected
  simp only [bind_eq_bind, bind_eq_some_iff] at collected
  obtain ⟨start, _, found⟩ := collected
  intro rid member
  obtain ⟨e, inHits, rfl⟩ := List.mem_map.mp member
  obtain ⟨inDropped, inside⟩ := scanEntries_sound found e inHits
  obtain ⟨leaf, inChain, inLeaf⟩ := mem_flatten.mp inDropped
  exact ⟨e, mem_flatten.mpr ⟨leaf, List.mem_of_mem_drop inChain, inLeaf⟩, rfl, inside⟩

end GraniteDb.Access.IndexScan
