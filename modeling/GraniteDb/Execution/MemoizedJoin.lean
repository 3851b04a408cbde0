/- When the join that caches the matches of a key yields what the join without a cache does. -/

import GraniteDb.Execution.Operators
import GraniteDb.Execution.ValueText

namespace GraniteDb.Execution.MemoizedJoin

open Common.Value Access.IndexScan Catalog.CatalogManager Execution.Expressions Execution.Operators
open Execution.ValueText Lib.Pull

def nullString : Value := .varchar nullText

theorem eq_of_text {k k' : Value} (same : serializeValueForHash k = serializeValueForHash k')
    (exactly : comparesExactly k.typeId = true) :
    k = k' ∨ k = .null .varchar ∧ k' = nullString ∨ k = nullString ∧ k' = .null .varchar := by
  obtain ⟨type, payload⟩ := serialize_eq_iff.mp same
  cases k with
  | double d => cases exactly
  | null t =>
    cases k' with
    | null t' =>
      have types : t = t' := type
      rw [types]
      exact .inl rfl
    | boolean b => exact absurd payload.symm (boolText_ne_null b)
    | int32 n | int64 n => exact absurd payload.symm (decimalInt_ne_null _)
    | double d =>
      have types : t = .double := type
      rw [types] at exactly
      cases exactly
    | varchar s =>
      have types : t = .varchar := type
      have text : nullText = s := payload
      rw [types, ← text]
      exact .inr (.inl ⟨rfl, rfl⟩)
  | boolean b =>
    cases k' with
    | null t => exact absurd payload (boolText_ne_null b)
    | boolean b' =>
      refine .inl ?_
      cases b <;> cases b' <;> first | rfl | cases payload
    | _ => cases type
  | int32 n =>
    cases k' with
    | null t => exact absurd payload (decimalInt_ne_null _)
    | int32 n' => exact .inl (congrArg _ (BitVec.eq_of_toInt_eq (decimalInt_injective payload)))
    | _ => cases type
  | int64 n =>
    cases k' with
    | null t => exact absurd payload (decimalInt_ne_null _)
    | int64 n' => exact .inl (congrArg _ (BitVec.eq_of_toInt_eq (decimalInt_injective payload)))
    | _ => cases type
  | varchar s =>
    cases k' with
    | null t =>
      have types : TypeId.varchar = t := type
      have text : s = nullText := payload
      rw [← types, text]
      exact .inr (.inr ⟨rfl, rfl⟩)
    | varchar s' => exact .inl (congrArg _ payload)
    | _ => cases type

theorem text_nullString :
    serializeValueForHash nullString = serializeValueForHash (.null .varchar) := rfl

theorem lookupRows_null (heap : HeapFile) (index : BTreeIndex) (t : TypeId) :
    lookupRows heap index (.null t) = none := rfl

section Streams

variable {α : Type}

theorem append_ofList_inj {l : List α} {p q : Pull α} :
    (Pull.ofList l).append p = (Pull.ofList l).append q ↔ p = q := by
  induction l with
  | nil => exact Iff.rfl
  | cons a l ih => exact (Pull.item.injEq a _ a _).to_iff.trans ((and_iff_right rfl).trans ih)

theorem append_ofList_thrown {l : List α} {p : Pull α} :
    (Pull.ofList l).append p = .thrown ↔ l = [] ∧ p = .thrown := by
  cases l with
  | nil => exact (and_iff_right rfl).symm
  | cons a l =>
    constructor
    · intro same
      cases same
    · rintro ⟨same, _⟩
      cases same

end Streams

section Joins

variable (heap : HeapFile) (index : BTreeIndex) (leftKey : Expression)

/-- The key whose matches the cache gives, if 'NULL' has been looked up or not. -/
def servedKey (seen : Bool) (k : Value) : Value :=
  if seen = true ∧ k = .null .varchar then nullString else k

/-- The join without a cache that takes 'NULL' for a NULL string once it has met 'NULL'. -/
def servedJoin : Bool → Pull Row → Pull Row
  | _, .done => .done
  | _, .thrown => .thrown
  | seen, .item l rest =>
    match leftKey.evaluateRow l with
    | none => .thrown
    | some k =>
      match lookupRows heap index (servedKey seen k) with
      | none => .thrown
      | some rows =>
        (Pull.ofList (rows.map (l ++ ·))).append (servedJoin (seen || k = nullString) rest)

/-- What the cache holds: matches under the text of a key of the join, and those of 'NULL' once it
has been looked up. -/
structure Sound (seen : Bool) (cache : List (List UInt8 × List Row)) : Prop where
  entries : ∀ t rows, cache.lookup t = some rows → ∃ k, comparesExactly k.typeId = true ∧
    lookupRows heap index k = some rows ∧ serializeValueForHash k = t
  seen : seen = (cache.lookup (serializeValueForHash nullString)).isSome

variable {heap index leftKey}

variable {seen : Bool} {rows : List Row} {cache : List (List UInt8 × List Row)} {k : Value}

section

variable (sound : Sound heap index seen cache)

include sound

theorem cached_served
    (hit : cache.lookup (serializeValueForHash k) = some rows) :
    lookupRows heap index (servedKey seen k) = some rows := by
  obtain ⟨k', exactly, found, text⟩ := sound.entries _ _ hit
  rcases eq_of_text text exactly with rfl | ⟨rfl, rfl⟩ | ⟨rfl, rfl⟩
  · have present : k' ≠ .null .varchar := by
      rintro rfl
      cases found
    rw [servedKey, if_neg fun both => present both.2]
    exact found
  · cases found
  · have isSeen : seen = true := by
      rw [sound.seen, text_nullString, hit]
      rfl
    rw [servedKey, if_pos ⟨isSeen, rfl⟩]
    exact found

theorem uncached_served
    (miss : cache.lookup (serializeValueForHash k) = none) : servedKey seen k = k := by
  rw [servedKey]
  split
  · rename_i both
    have isSeen := sound.seen
    rw [both.1, text_nullString, ← both.2, miss] at isSeen
    cases isSeen
  · rfl

theorem Sound.add (exactly : comparesExactly k.typeId = true)
    (found : lookupRows heap index k = some rows) :
    Sound heap index (seen || k = nullString) ((serializeValueForHash k, rows) :: cache) where
  entries := by
    intro t rows' hit
    rw [List.lookup_cons] at hit
    cases same : t == serializeValueForHash k with
    | true =>
      rw [same] at hit
      cases hit
      exact ⟨k, exactly, found, (eq_of_beq same).symm⟩
    | false =>
      rw [same] at hit
      exact sound.entries t rows' hit
  seen := by
    rw [List.lookup_cons]
    cases same : serializeValueForHash nullString == serializeValueForHash k with
    | true =>
      have isNull : k = nullString := by
        rcases eq_of_text (eq_of_beq same).symm exactly with eq | ⟨rfl, _⟩ | ⟨rfl, _⟩
        · exact eq
        · cases found
        · rfl
      simp [isNull]
    | false =>
      have other : k ≠ nullString := by
        rintro rfl
        simp at same
      simp [other, sound.seen]

theorem Sound.hit
    (hit : cache.lookup (serializeValueForHash k) = some rows) :
    Sound heap index (seen || k = nullString) cache where
  entries := sound.entries
  seen := by
    by_cases isNull : k = nullString
    · rw [← isNull, hit]
      simp
    · simp [isNull, sound.seen]

end

theorem memoized_eq_served {left : Pull Row}
    (keys : ∀ l ∈ left.items, ∀ k, leftKey.evaluateRow l = some k → comparesExactly k.typeId = true)
    (sound : Sound heap index seen cache) :
    memoizedIndexNestedLoopJoin heap index leftKey cache left =
      servedJoin heap index leftKey seen left := by
  induction left generalizing seen cache with
  | done => rfl
  | thrown => rfl
  | item l rest ih =>
    have later := fun l' member => keys l' (List.mem_cons_of_mem l member)
    rw [memoizedIndexNestedLoopJoin, servedJoin]
    cases key : leftKey.evaluateRow l with
    | none => rfl
    | some k =>
      simp only
      cases cached : cache.lookup (serializeValueForHash k) with
      | some rows =>
        rw [cached_served sound cached]
        simp only
        rw [ih later (sound.hit cached)]
      | none =>
        rw [uncached_served sound cached]
        cases found : lookupRows heap index k with
        | none => rfl
        | some rows =>
          have exactly := keys l List.mem_cons_self k key
          simp only
          rw [ih later (sound.add exactly found)]

end Joins

section Transparency

variable (heap : HeapFile) (index : BTreeIndex) (leftKey : Expression)

/-- With 'NULL' for a NULL string, no row matches up to one that is refused all the same. -/
def RefusedSilently : Pull Row → Prop
  | .done => False
  | .thrown => True
  | .item l rest =>
    match leftKey.evaluateRow l with
    | none => True
    | some k =>
      match lookupRows heap index (servedKey true k) with
      | none => True
      | some rows => rows = [] ∧ RefusedSilently rest

/-- The first row that is refused is not a NULL string behind a 'NULL', or it makes no
difference that the cache serves it. -/
def Unhidden : Bool → Pull Row → Prop
  | _, .done => True
  | _, .thrown => True
  | seen, .item l rest =>
    match leftKey.evaluateRow l with
    | none => True
    | some k =>
      match lookupRows heap index k with
      | some _ => Unhidden (seen || k = nullString) rest
      | none =>
        seen = true ∧ k = .null .varchar → RefusedSilently heap index leftKey (.item l rest)

variable {heap index leftKey}

theorem servedJoin_thrown {left : Pull Row} :
    servedJoin heap index leftKey true left = .thrown ↔
      RefusedSilently heap index leftKey left := by
  induction left with
  | done =>
    refine ⟨?_, False.elim⟩
    intro same
    cases same
  | thrown => exact ⟨fun _ => trivial, fun _ => rfl⟩
  | item l rest ih =>
    rw [servedJoin, RefusedSilently]
    cases leftKey.evaluateRow l with
    | none => exact ⟨fun _ => trivial, fun _ => rfl⟩
    | some k =>
      simp only
      cases lookupRows heap index (servedKey true k) with
      | none => exact ⟨fun _ => trivial, fun _ => rfl⟩
      | some rows =>
        simp only [Bool.true_or]
        rw [append_ofList_thrown, List.map_eq_nil_iff, ih]

theorem servedJoin_eq_iff {seen : Bool} {left : Pull Row} :
    servedJoin heap index leftKey seen left = indexNestedLoopJoin left heap index leftKey ↔
      Unhidden heap index leftKey seen left := by
  induction left generalizing seen with
  | done => exact ⟨fun _ => trivial, fun _ => rfl⟩
  | thrown => exact ⟨fun _ => trivial, fun _ => rfl⟩
  | item l rest ih =>
    rw [Unhidden, indexNestedLoopJoin, Pull.bind, ← indexNestedLoopJoin]
    cases key : leftKey.evaluateRow l with
    | none =>
      rw [servedJoin, key]
      exact ⟨fun _ => trivial, fun _ => rfl⟩
    | some k =>
      simp only [Option.bind_some]
      cases found : lookupRows heap index k with
      | some rows =>
        have served : servedKey seen k = k := by
          rw [servedKey]
          split
          · rename_i both
            rw [both.2, lookupRows_null] at found
            cases found
          · rfl
        rw [servedJoin, key]
        simp only [served, found]
        rw [append_ofList_inj]
        exact ih
      | none =>
        show _ = Pull.thrown ↔ _
        by_cases hidden : seen = true ∧ k = .null .varchar
        · obtain ⟨rfl, isNull⟩ := hidden
          rw [servedJoin_thrown]
          exact ⟨fun silent _ => silent, fun silent => silent ⟨rfl, isNull⟩⟩
        · rw [servedJoin, key]
          simp only [servedKey, if_neg hidden, found]
          exact ⟨fun _ both => absurd both hidden, fun _ => trivial⟩

/-- The join with a cache yields the same rows and ends the same way as the one without exactly if
no NULL string hides behind a 'NULL'. -/
theorem memoizedJoin_iff {left : Pull Row}
    (keys : ∀ l ∈ left.items, ∀ k, leftKey.evaluateRow l = some k →
      comparesExactly k.typeId = true) :
    memoizedIndexNestedLoopJoin heap index leftKey [] left =
        indexNestedLoopJoin left heap index leftKey ↔
      Unhidden heap index leftKey false left := by
  have empty : Sound heap index false [] := by
    refine ⟨?_, rfl⟩
    intro t rows hit
    cases hit
  rw [memoized_eq_served keys empty]
  exact servedJoin_eq_iff

def nullRows : Pull Row := .ofList [[nullString], [.null .varchar]]

theorem memoizedJoin_iff_nullRows :
    memoizedIndexNestedLoopJoin [(⟨1, 0⟩, [nullString])]
          ⟨.varchar, 8, [[⟨nullString, ⟨1, 0⟩⟩]], fun _ => 0⟩ (.column .left 0) [] nullRows =
        indexNestedLoopJoin nullRows [(⟨1, 0⟩, [nullString])]
          ⟨.varchar, 8, [[⟨nullString, ⟨1, 0⟩⟩]], fun _ => 0⟩ (.column .left 0) ↔
      Unhidden [(⟨1, 0⟩, [nullString])] ⟨.varchar, 8, [[⟨nullString, ⟨1, 0⟩⟩]], fun _ => 0⟩
        (.column .left 0) false nullRows :=
  memoizedJoin_iff (by
    intro l member k key
    rcases List.mem_cons.mp member with rfl | later
    · cases key
      rfl
    · obtain rfl := List.mem_singleton.mp later
      cases key
      rfl)

/-- The heap and its index hold one row, 'NULL'. The cache gives it for NULL too; without the
cache NULL is refused. -/
theorem memoizedJoin_serves_null :
    memoizedIndexNestedLoopJoin [(⟨1, 0⟩, [nullString])]
        ⟨.varchar, 8, [[⟨nullString, ⟨1, 0⟩⟩]], fun _ => 0⟩ (.column .left 0) [] nullRows =
        .ofList [[nullString, nullString], [.null .varchar, nullString]] ∧
      indexNestedLoopJoin nullRows [(⟨1, 0⟩, [nullString])]
        ⟨.varchar, 8, [[⟨nullString, ⟨1, 0⟩⟩]], fun _ => 0⟩ (.column .left 0) =
        .item [nullString, nullString] .thrown := by
  decide +kernel

end Transparency

end GraniteDb.Execution.MemoizedJoin
