/- What a search and a scan of an exact single-column index return. -/

import GraniteDb.Access.IndexScan
import GraniteDb.Execution.ValueText
import GraniteDb.Lib.SortedScan
import Mathlib.Data.List.Chain

namespace GraniteDb.Access.ExactIndex

open Common.Value Access.IndexScan Execution.Expressions Execution.ValueOrder Lib.SortedScan

section Keys

def orderedAlike : TypeId → Bool
  | .boolean | .int32 | .varchar => true
  | _ => false

structure IsKey (type : TypeId) (v : Value) : Prop where
  present : v.isNull = false
  type : v.typeId = type

variable {type : TypeId} {a b : Value}

theorem seenRank_int32 (n : BitVec 32) :
    seenRank (.int32 n) = number (n.toInt * 2 ^ 1074) :=
  GraniteDb.Execution.ValueText.rank_integer rfl trivial

theorem compareKeys_ranks (alike : orderedAlike type = true) (left : IsKey type a)
    (right : IsKey type b) : compareEncoded a b = some (compare (seenRank a) (seenRank b)) ∧
      compareValues a b = some (compare (seenRank a) (seenRank b)) := by
  obtain ⟨presentA, rfl⟩ := left
  obtain ⟨presentB, same⟩ := right
  cases a with
  | null _ => cases presentA
  | int64 _ | double _ => cases alike
  | boolean x =>
    cases b <;> cases same
    · cases presentB
    · exact ⟨congrArg some (compareBools_eq x _), compareValues_ranks rfl rfl rfl rfl⟩
  | varchar x =>
    cases b <;> cases same
    · cases presentB
    · exact ⟨congrArg some (compareBytes_eq x _), compareValues_ranks rfl rfl rfl rfl⟩
  | int32 x =>
    cases b <;> cases same
    · cases presentB
    · rename_i y
      refine ⟨?_, compareValues_ranks rfl rfl rfl rfl⟩
      have scale : (0 : Int) < 2 ^ 1074 := by positivity
      rw [seenRank_int32, seenRank_int32, compare_number, compareEncoded]
      rcases lt_trichotomy x.toInt y.toInt with less | equal | greater
      · rw [compare_lt_iff_lt.mpr less,
          compare_lt_iff_lt.mpr (Int.mul_lt_mul_of_pos_right less scale)]
      · rw [compare_eq_iff_eq.mpr equal, compare_eq_iff_eq.mpr (by rw [equal])]
      · rw [compare_gt_iff_gt.mpr greater,
          compare_gt_iff_gt.mpr (Int.mul_lt_mul_of_pos_right greater scale)]

def Searchable (index : BTreeIndex) (key : Value) : Prop :=
  encodeValue index.keyType index.maxVarcharLen key = some key

instance (index : BTreeIndex) (key : Value) : Decidable (Searchable index key) :=
  inferInstanceAs (Decidable (_ = _))

theorem Searchable.isKey {index : BTreeIndex} {key : Value} (searchable : Searchable index key) :
    IsKey index.keyType key := by
  unfold Searchable encodeValue at searchable
  split at searchable
  · cases searchable
  · rename_i present
    split at searchable
    · cases searchable
    · rename_i type
      exact ⟨by simpa using present, by simpa using type⟩

end Keys

section Exact

/-- The index holds these entries in the order of their keys. The leaves left of the one that a
descent ends in hold lesser keys, and equal keys go on from there without a gap. -/
structure ExactEntries (index : BTreeIndex) (held : List LeafEntry) : Prop where
  entries : index.entries.Perm held
  sorted : index.entries.Pairwise fun a b => compareEncoded a.key b.key ≠ some .gt
  descends : ∀ key, Searchable index key →
    ∀ e ∈ (index.leaves.take (index.findLeaf key)).flatten, compareEncoded e.key key = some .lt
  linked : ∀ key, Searchable index key → (index.leaves.drop (index.findLeaf key)).IsChain
    fun leaf next => (∃ e ∈ next, compareEncoded e.key key = some .eq) →
      ∃ e ∈ leaf, compareEncoded e.key key = some .eq

def keyZone (key : Value) (e : LeafEntry) : Ordering := compare (seenRank e.key) (seenRank key)

variable {key : Value} {entries : List LeafEntry}

section

variable (compared : ∀ e ∈ entries, compareEncoded e.key key = some (keyZone key e))

include compared

theorem searchEntries_eq :
    searchEntries key entries = some ((scan (keyZone key) entries).map LeafEntry.rid,
      entries.any fun e => keyZone key e == .gt) := by
  induction entries with
  | nil => rfl
  | cons e rest ih =>
    have later := ih fun e' member => compared e' (List.mem_cons_of_mem _ member)
    rw [searchEntries, compared e List.mem_cons_self]
    cases at_ : keyZone key e <;> simp [scan, at_, later]

theorem skipBelow_eq :
    skipBelow key entries = some (skip (keyZone key) entries) := by
  induction entries with
  | nil => rfl
  | cons e rest ih =>
    have later := ih fun e' member => compared e' (List.mem_cons_of_mem _ member)
    rw [skipBelow, compared e List.mem_cons_self]
    cases at_ : keyZone key e <;> simp [skip, at_, later]

end

theorem endsWithKey_eq (zoned : Zoned (keyZone key) entries)
    (compared : ∀ e ∈ entries, compareEncoded e.key key = some (keyZone key e))
    (some_ : ∃ e ∈ entries, keyZone key e = .eq) (none_ : ∀ e ∈ entries, keyZone key e ≠ .gt) :
    endsWithKey key entries = some true := by
  obtain ⟨e, member, same⟩ := some_
  obtain ⟨init, last, rfl⟩ : ∃ init last, entries = init ++ [last] :=
    ⟨_, _, (List.dropLast_append_getLast (List.ne_nil_of_mem member)).symm⟩
  have inLast : last ∈ init ++ [last] := List.mem_append_right _ (List.mem_singleton_self last)
  have atLast : keyZone key last = .eq := by
    cases at_ : keyZone key last with
    | eq => rfl
    | gt => exact absurd at_ (none_ last inLast)
    | lt =>
      rcases List.mem_append.mp member with before | isLast
      · have earlier := (List.pairwise_append.mp zoned).2.2 e before last
          (List.mem_singleton_self last)
        rw [earlier.1 at_] at same
        cases same
      · rw [List.mem_singleton.mp isLast, at_] at same
        cases same
  rw [endsWithKey, List.getLast?_concat]
  simp [compared last inLast, atLast]

theorem searchLeaves_eq {leaves : List (List LeafEntry)}
    (zoned : Zoned (keyZone key) leaves.flatten)
    (compared : ∀ e ∈ leaves.flatten, compareEncoded e.key key = some (keyZone key e)) :
    searchLeaves key leaves = some ((scanChain (keyZone key) leaves).map LeafEntry.rid) := by
  induction leaves with
  | nil => rfl
  | cons leaf rest ih =>
    rw [List.flatten_cons] at zoned compared
    have comparedHere : ∀ e ∈ leaf, compareEncoded e.key key = some (keyZone key e) :=
      fun e member => compared e (List.mem_append_left _ member)
    have zonedHere : Zoned (keyZone key) leaf := zoned.sublist (List.sublist_append_left _ _)
    have later := ih (zoned.sublist (List.sublist_append_right _ _))
      fun e member => compared e (List.mem_append_right _ member)
    have lastTested : ∃ atEnd, endsWithKey key leaf = some atEnd := by
      rw [endsWithKey]
      cases last : leaf.getLast? with
      | none => exact ⟨false, rfl⟩
      | some e =>
        show ∃ atEnd, (compareEncoded e.key key).map (· == .eq) = some atEnd
        rw [comparedHere e (List.mem_of_getLast? last)]
        exact ⟨_, rfl⟩
    obtain ⟨atEnd, tested⟩ := lastTested
    rw [searchLeaves, searchEntries_eq comparedHere, scanChain]
    simp only [Option.bind_eq_bind, Option.bind_some, tested]
    by_cases goesOn : scan (keyZone key) leaf ≠ [] ∧ ∀ e ∈ leaf, keyZone key e ≠ .gt
    · have found : ∃ e ∈ leaf, keyZone key e = .eq := by
        obtain ⟨e, member⟩ := List.exists_mem_of_ne_nil _ goesOn.1
        rw [scan_eq_filter zonedHere, List.mem_filter] at member
        exact ⟨e, member.1, by simpa using member.2⟩
      have ends := endsWithKey_eq zonedHere comparedHere found goesOn.2
      rw [tested] at ends
      have notStopped : (leaf.any fun e => keyZone key e == .gt) = false := by
        simpa using goesOn.2
      rw [if_pos goesOn, Option.some.inj ends, notStopped, later]
      simp [goesOn.1]
    · rw [if_neg goesOn, if_neg]
      intro all
      simp only [Bool.and_eq_true, Bool.not_eq_true', List.isEmpty_eq_false_iff, ne_eq,
        List.map_eq_nil_iff] at all
      refine goesOn ⟨all.1.2, fun e member behind => ?_⟩
      have stopped : (leaf.any fun e => keyZone key e == .gt) = true :=
        List.any_eq_true.mpr ⟨e, member, by rw [behind]; rfl⟩
      rw [stopped] at all
      cases all.1.1

variable {index : BTreeIndex} {held : List LeafEntry}

theorem ExactEntries.compared (alike : orderedAlike index.keyType = true)
    (keyed : ∀ e ∈ index.entries, IsKey index.keyType e.key) (searchable : IsKey index.keyType key)
    {e : LeafEntry} (member : e ∈ index.entries) :
    compareEncoded e.key key = some (keyZone key e) :=
  (compareKeys_ranks alike (keyed e member) searchable).1

theorem ExactEntries.ranked (exact_ : ExactEntries index held)
    (alike : orderedAlike index.keyType = true)
    (keyed : ∀ e ∈ index.entries, IsKey index.keyType e.key) :
    index.entries.Pairwise fun a b => seenRank a.key ≤ seenRank b.key := by
  refine List.Pairwise.imp_of_mem (fun {a b} inA inB notAbove => ?_) exact_.sorted
  rw [(compareKeys_ranks alike (keyed a inA) (keyed b inB)).1, ne_eq, Option.some.injEq,
    compare_gt_iff_gt, not_lt] at notAbove
  exact notAbove

theorem ExactEntries.zoned (key : Value) (exact_ : ExactEntries index held)
    (alike : orderedAlike index.keyType = true)
    (keyed : ∀ e ∈ index.entries, IsKey index.keyType e.key) :
    Zoned (keyZone key) index.entries :=
  Zoned.of_sorted (exact_.ranked alike keyed) fun _ _ _ _ below => zone_of_compare below

theorem entries_split (index : BTreeIndex) (n : Nat) :
    index.entries = (index.leaves.take n).flatten ++ (index.leaves.drop n).flatten := by
  rw [← List.flatten_append, List.take_append_drop]
  rfl

theorem ExactEntries.search (exact_ : ExactEntries index held)
    (alike : orderedAlike index.keyType = true)
    (keyed : ∀ e ∈ index.entries, IsKey index.keyType e.key) (searchable : Searchable index key) :
    index.search key =
      some ((index.entries.filter fun e => keyZone key e == .eq).map LeafEntry.rid) := by
  have split := entries_split index (index.findLeaf key)
  have sub : ∀ e ∈ (index.leaves.drop (index.findLeaf key)).flatten, e ∈ index.entries := by
    intro e member
    rw [split]
    exact List.mem_append_right _ member
  have zoned : Zoned (keyZone key) (index.leaves.drop (index.findLeaf key)).flatten := by
    have all := ExactEntries.zoned key exact_ alike keyed
    rw [split] at all
    exact all.sublist (List.sublist_append_right _ _)
  have compared {e : LeafEntry} (member : e ∈ index.entries) :=
    ExactEntries.compared alike keyed searchable.isKey member
  have reached : Reached (keyZone key) (index.leaves.drop (index.findLeaf key)) := by
    have linked := exact_.linked key searchable
    refine List.IsChain.imp_of_mem_imp (fun leaf next inLeaf inNext link => ?_) linked
    rintro ⟨e, member, same⟩
    have inside {l : List LeafEntry} {x : LeafEntry}
        (inChain : l ∈ index.leaves.drop (index.findLeaf key)) (inL : x ∈ l) :
        compareEncoded x.key key = some (keyZone key x) :=
      compared (sub x (List.mem_flatten.mpr ⟨l, inChain, inL⟩))
    obtain ⟨e', member', same'⟩ := link ⟨e, member, by rw [inside inNext member, same]⟩
    rw [inside inLeaf member'] at same'
    exact ⟨e', member', Option.some.inj same'⟩
  have before : (index.leaves.take (index.findLeaf key)).flatten.filter
      (fun e => keyZone key e == .eq) = [] := by
    rw [List.filter_eq_nil_iff]
    intro e member same
    have inEntries : e ∈ index.entries := by
      rw [split]
      exact List.mem_append_left _ member
    have below := exact_.descends key searchable e member
    rw [compared inEntries] at below
    rw [Option.some.inj below] at same
    cases same
  have encoded : encodeValue index.keyType index.maxVarcharLen key = some key := searchable
  rw [BTreeIndex.search, encoded]
  show searchLeaves key _ = _
  rw [searchLeaves_eq zoned fun e member => compared (sub e member),
    scanChain_eq_filter zoned reached, split, List.filter_append, before, List.nil_append]

theorem ExactEntries.entriesFrom (exact_ : ExactEntries index held)
    (alike : orderedAlike index.keyType = true)
    (keyed : ∀ e ∈ index.entries, IsKey index.keyType e.key) (searchable : Searchable index key) :
    index.entriesFrom key = some (index.entries.filter fun e => keyZone key e != .lt) := by
  have split := entries_split index (index.findLeaf key)
  have compared {e : LeafEntry} (member : e ∈ index.entries) :=
    ExactEntries.compared alike keyed searchable.isKey member
  have zoned : Zoned (keyZone key) (index.leaves.drop (index.findLeaf key)).flatten := by
    have all := ExactEntries.zoned key exact_ alike keyed
    rw [split] at all
    exact all.sublist (List.sublist_append_right _ _)
  have before : (index.leaves.take (index.findLeaf key)).flatten.filter
      (fun e => keyZone key e != .lt) = [] := by
    rw [List.filter_eq_nil_iff]
    intro e member notBelow
    have inEntries : e ∈ index.entries := by
      rw [split]
      exact List.mem_append_left _ member
    have below := exact_.descends key searchable e member
    rw [compared inEntries] at below
    rw [Option.some.inj below] at notBelow
    cases notBelow
  have encoded : encodeValue index.keyType index.maxVarcharLen key = some key := searchable
  rw [BTreeIndex.entriesFrom, encoded]
  show skipBelow key _ = _
  rw [skipBelow_eq, skip_eq_filter zoned, split, List.filter_append, before, List.nil_append]
  intro e member
  refine compared ?_
  rw [split]
  exact List.mem_append_right _ member

end Exact

section Bounds

def Under (lower : Option Value) (inclusive : Bool) (v : Value) : Prop :=
  ∃ bound ∈ lower, seenRank v < seenRank bound ∨ (seenRank v = seenRank bound ∧ inclusive = false)

def Over (upper : Option Value) (inclusive : Bool) (v : Value) : Prop :=
  ∃ bound ∈ upper, seenRank bound < seenRank v ∨ (seenRank v = seenRank bound ∧ inclusive = false)

open scoped Classical in
noncomputable def boundZone (lower upper : Option Value) (lowerInclusive upperInclusive : Bool)
    (v : Value) : Ordering :=
  if Under lower lowerInclusive v then .lt
  else if Over upper upperInclusive v then .gt
  else .eq

def verdictOf : Ordering → Verdict
  | .lt => .below
  | .eq => .within
  | .gt => .above

variable {lower upper : Option Value} {lowerInclusive upperInclusive : Bool} {v w : Value}

theorem Under.anti (under : Under lower lowerInclusive w) (below : seenRank v ≤ seenRank w) :
    Under lower lowerInclusive v := by
  obtain ⟨bound, isBound, less | ⟨same, exclusive⟩⟩ := under
  · exact ⟨bound, isBound, .inl (lt_of_le_of_lt below less)⟩
  · rw [same] at below
    rcases lt_or_eq_of_le below with less | same'
    · exact ⟨bound, isBound, .inl less⟩
    · exact ⟨bound, isBound, .inr ⟨same', exclusive⟩⟩

theorem Over.mono (beyond : Over upper upperInclusive v) (below : seenRank v ≤ seenRank w) :
    Over upper upperInclusive w := by
  obtain ⟨bound, isBound, less | ⟨same, exclusive⟩⟩ := beyond
  · exact ⟨bound, isBound, .inl (lt_of_lt_of_le less below)⟩
  · rw [same] at below
    rcases lt_or_eq_of_le below with less | same'
    · exact ⟨bound, isBound, .inl less⟩
    · exact ⟨bound, isBound, .inr ⟨same'.symm, exclusive⟩⟩

theorem boundZone_mono (below : seenRank v ≤ seenRank w) :
    (boundZone lower upper lowerInclusive upperInclusive w = .lt →
      boundZone lower upper lowerInclusive upperInclusive v = .lt) ∧
    (boundZone lower upper lowerInclusive upperInclusive v = .gt →
      boundZone lower upper lowerInclusive upperInclusive w = .gt) := by
  by_cases underW : Under lower lowerInclusive w
  · have underV := underW.anti below
    simp [boundZone, underV]
  · by_cases underV : Under lower lowerInclusive v
    · simp [boundZone, underV]
    · by_cases overV : Over upper upperInclusive v
      · simp [boundZone, underV, underW, overV, overV.mono below]
      · by_cases overW : Over upper upperInclusive w <;>
          simp [boundZone, underV, underW, overV, overW]

variable {type : TypeId}

theorem isUnder_eq (lowerInclusive : Bool) (alike : orderedAlike type = true) (isKey : IsKey type v)
    (bounds : ∀ bound ∈ lower, IsKey type bound) : ∃ b, isUnder lower lowerInclusive v = some b ∧
      (b = true ↔ Under lower lowerInclusive v) := by
  cases lower with
  | none => exact ⟨false, rfl, by simp [Under]⟩
  | some bound =>
    have compared := (compareKeys_ranks alike isKey (bounds bound rfl)).2
    refine ⟨_, by rw [isUnder, compared, Option.map_some], ?_⟩
    simp [Under, compare_lt_iff_lt, compare_eq_iff_eq]

theorem isOver_eq (upperInclusive : Bool) (alike : orderedAlike type = true) (isKey : IsKey type v)
    (bounds : ∀ bound ∈ upper, IsKey type bound) : ∃ b, isOver upper upperInclusive v = some b ∧
      (b = true ↔ Over upper upperInclusive v) := by
  cases upper with
  | none => exact ⟨false, rfl, by simp [Over]⟩
  | some bound =>
    have compared := (compareKeys_ranks alike isKey (bounds bound rfl)).2
    refine ⟨_, by rw [isOver, compared, Option.map_some], ?_⟩
    simp [Over, compare_gt_iff_gt, compare_eq_iff_eq]

theorem rangeVerdict_eq (alike : orderedAlike type = true) (isKey : IsKey type v)
    (lowers : ∀ bound ∈ lower, IsKey type bound) (uppers : ∀ bound ∈ upper, IsKey type bound) :
    rangeVerdict lower upper lowerInclusive upperInclusive v =
      some (verdictOf (boundZone lower upper lowerInclusive upperInclusive v)) := by
  obtain ⟨under, tested, isUnder_⟩ := isUnder_eq lowerInclusive alike isKey lowers
  obtain ⟨beyond, tested', isOver_⟩ := isOver_eq upperInclusive alike isKey uppers
  rw [rangeVerdict, tested, tested']
  cases under with
  | true =>
    have holds := isUnder_.mp rfl
    simp [boundZone, holds, verdictOf]
  | false =>
    have fails : ¬ Under lower lowerInclusive v := fun holds => by cases isUnder_.mpr holds
    cases beyond with
    | true =>
      have holds := isOver_.mp rfl
      simp [boundZone, fails, holds, verdictOf]
    | false =>
      have notOver : ¬ Over upper upperInclusive v := fun holds => by cases isOver_.mpr holds
      simp [boundZone, fails, notOver, verdictOf]

theorem boundZone_from {bound : Value}
    (inside : boundZone (some bound) upper lowerInclusive upperInclusive v = .eq) :
    compare (seenRank v) (seenRank bound) ≠ .lt := by
  intro less
  have under : Under (some bound) lowerInclusive v :=
    ⟨bound, rfl, .inl (compare_lt_iff_lt.mp less)⟩
  simp [boundZone, under] at inside

end Bounds

end GraniteDb.Access.ExactIndex
