/- The search finds a plan exactly for the queries whose join graph is connected. -/

import GraniteDb.Optimizer.JoinGraph
import GraniteDb.Optimizer.PlanSearch

namespace GraniteDb.Optimizer.CompleteSearch

open Catalog.CatalogManager Optimizer.PhysicalPath Optimizer.PlanEnumerator Optimizer.JoinSteps
open Optimizer.JoinGraph Optimizer.PlanSearch Lib.ConnectedSets
open Function (update_of_ne update_self)
open List (mem_flatMap exists_mem_of_ne_nil not_mem_nil ne_nil_of_mem)
open List (range' mem_map mem_singleton mem_range)

section Subsets

variable {query : OptimizerQuery} {mask : Nat}

variable {id i : Nat}

theorem mem_relationsOf :
    id ∈ relationsOf query mask ↔ ∃ i, query.relations[i]? = some id ∧ mask.testBit i = true := by
  rw [relationsOf, mem_map]
  constructor
  · rintro ⟨⟨id', i⟩, member, rfl⟩
    obtain ⟨indexed, bit⟩ := List.mem_filter.mp member
    exact ⟨i, List.mk_mem_zipIdx_iff_getElem?.mp indexed, bit⟩
  · rintro ⟨i, found, bit⟩
    exact ⟨(id, i), List.mem_filter.mpr ⟨List.mk_mem_zipIdx_iff_getElem?.mpr found, bit⟩, rfl⟩

theorem relationsOf_nodup (distinct : query.relations.Nodup) (mask : Nat) :
    (relationsOf query mask).Nodup := by
  refine List.Nodup.sublist (List.filter_sublist.map Prod.fst) ?_
  rw [List.zipIdx_map_fst]
  exact distinct

theorem same_index (distinct : query.relations.Nodup) {j : Nat}
    (first : query.relations[i]? = some id) (second : query.relations[j]? = some id) : i = j := by
  obtain ⟨inFirst, atFirst⟩ := List.getElem?_eq_some_iff.mp first
  obtain ⟨inSecond, atSecond⟩ := List.getElem?_eq_some_iff.mp second
  exact (List.Nodup.getElem_inj_iff distinct).mp (atFirst.trans atSecond.symm)

theorem testBit_without (mask i j : Nat) :
    (mask.ldiff (2 ^ i)).testBit j = (mask.testBit j && decide (i ≠ j)) := by
  rw [Nat.testBit_ldiff, Nat.testBit_two_pow]
  simp

theorem mem_relationsOf_single (found : query.relations[i]? = some id) {other : Nat} :
    other ∈ relationsOf query (2 ^ i) ↔ other = id := by
  rw [mem_relationsOf]
  constructor
  · rintro ⟨j, found', bit⟩
    have same : i = j := by simpa [Nat.testBit_two_pow] using bit
    rw [← same, found] at found'
    exact (Option.some.inj found').symm
  · rintro rfl
    exact ⟨i, found, by simp⟩

theorem mem_without (distinct : query.relations.Nodup) (found : query.relations[i]? = some id)
    {other : Nat} :
    other ∈ relationsOf query (mask.ldiff (2 ^ i)) ↔
      other ∈ relationsOf query mask ∧ other ≠ id := by
  rw [mem_relationsOf, mem_relationsOf]
  constructor
  · rintro ⟨j, found', bit⟩
    rw [testBit_without, Bool.and_eq_true, decide_eq_true_eq] at bit
    refine ⟨⟨j, found', bit.1⟩, ?_⟩
    rintro rfl
    exact bit.2 (same_index distinct found found')
  · rintro ⟨⟨j, found', bit⟩, different⟩
    refine ⟨j, found', ?_⟩
    rw [testBit_without, Bool.and_eq_true, decide_eq_true_eq]
    refine ⟨bit, ?_⟩
    rintro rfl
    rw [found] at found'
    exact different (Option.some.inj found').symm

theorem relationsOf_split (distinct : query.relations.Nodup) (found : query.relations[i]? = some id)
    (bit : mask.testBit i = true) :
    (relationsOf query (mask.ldiff (2 ^ i)) ++ [id]).Perm (relationsOf query mask) := by
  have apart : id ∉ relationsOf query (mask.ldiff (2 ^ i)) := fun member =>
    ((mem_without distinct found).mp member).2 rfl
  refine (List.perm_ext_iff_of_nodup ?_ (relationsOf_nodup distinct mask)).mpr ?_
  · rw [List.nodup_append]
    refine ⟨relationsOf_nodup distinct _, List.nodup_singleton _, ?_⟩
    intro a isLeft b isRight same
    rw [same, mem_singleton.mp isRight] at isLeft
    exact apart isLeft
  · intro other
    rw [List.mem_append, mem_singleton, mem_without distinct found]
    constructor
    · rintro (⟨member, -⟩ | rfl)
      · exact member
      · exact mem_relationsOf.mpr ⟨i, found, bit⟩
    · intro member
      by_cases same : other = id
      · exact .inr same
      · exact .inl ⟨member, same⟩

theorem union_bit (bit : mask.testBit i = true) : mask.ldiff (2 ^ i) ||| 2 ^ i = mask := by
  refine Nat.eq_of_testBit_eq fun j => ?_
  rw [Nat.testBit_or, testBit_without, Nat.testBit_two_pow]
  by_cases same : i = j
  · subst same
    simp [bit]
  · simp [same]

def bits (mask : Nat) : Finset Nat := (Finset.range 64).filter fun i => mask.testBit i = true

theorem popcount_eq_card (mask : Nat) : popcount mask = (bits mask).card := by
  rw [popcount, List.countP_eq_length_filter, bits]
  have same : (Finset.range 64).filter (fun i => mask.testBit i = true) =
      ((List.range 64).filter fun i => mask.testBit i).toFinset := by
    ext i
    simp
  rw [same, List.toFinset_card_of_nodup (List.nodup_range.filter _)]

theorem popcount_without (bit : mask.testBit i = true) (small : i < 64) :
    popcount (mask.ldiff (2 ^ i)) + 1 = popcount mask := by
  have erased : bits (mask.ldiff (2 ^ i)) = (bits mask).erase i := by
    ext j
    simp only [bits, Finset.mem_filter, Finset.mem_range, Finset.mem_erase, testBit_without,
      Bool.and_eq_true, decide_eq_true_eq]
    constructor
    · rintro ⟨inside, isBit, apart⟩
      exact ⟨fun same => apart same.symm, inside, isBit⟩
    · rintro ⟨apart, inside, isBit⟩
      exact ⟨inside, isBit, fun same => apart same.symm⟩
  have member : i ∈ bits mask := Finset.mem_filter.mpr ⟨Finset.mem_range.mpr small, bit⟩
  rw [popcount_eq_card, popcount_eq_card, erased, Finset.card_erase_add_one member]

theorem popcount_single (small : i < 64) : popcount (2 ^ i) = 1 := by
  have single : bits (2 ^ i) = {i} := by
    ext j
    simp only [bits, Finset.mem_filter, Finset.mem_range, Finset.mem_singleton, Nat.testBit_two_pow,
      decide_eq_true_eq]
    constructor
    · rintro ⟨-, same⟩
      exact same.symm
    · rintro rfl
      exact ⟨small, rfl⟩
  rw [popcount_eq_card, single, Finset.card_singleton]

theorem index_lt {n : Nat} (small : mask < 2 ^ n) (bit : mask.testBit i = true) : i < n := by
  by_contra above
  have less : mask < 2 ^ i :=
    small.trans_le (Nat.pow_le_pow_right (by decide) (Nat.not_lt.mp above))
  rw [Nat.testBit_lt_two_pow less] at bit
  cases bit

theorem popcount_le {n : Nat} (small : mask < 2 ^ n) : popcount mask ≤ n := by
  rw [popcount_eq_card]
  refine (Finset.card_le_card (t := Finset.range n) ?_).trans (Finset.card_range n).le
  intro i member
  exact Finset.mem_range.mpr (index_lt small (Finset.mem_filter.mp member).2)

theorem exists_relation (small : mask < 2 ^ query.relations.length) (member : i ∈ bits mask) :
    ∃ id, query.relations[i]? = some id ∧ id ∈ relationsOf query mask := by
  have bit := (Finset.mem_filter.mp member).2
  have inside := index_lt small bit
  exact ⟨query.relations[i], List.getElem?_eq_getElem inside,
    mem_relationsOf.mpr ⟨i, List.getElem?_eq_getElem inside, bit⟩⟩

end Subsets

section Steps

variable {p : PlanEnumerator} {query : OptimizerQuery} {mask : Nat}

/-- The relations, with an edge where a join predicate of the query has one column of each. -/
def joinGraph (query : OptimizerQuery) : SimpleGraph Nat :=
  SimpleGraph.fromRel fun a b =>
    ∃ j ∈ query.joins, j.leftRelationId = a ∧ j.rightRelationId = b

def nodesOf (query : OptimizerQuery) (mask : Nat) : Set Nat := {id | id ∈ relationsOf query mask}

variable {id i subset : Nat} {table : Table}

theorem nodesOf_without (distinct : query.relations.Nodup) (found : query.relations[i]? = some id) :
    nodesOf query (mask.ldiff (2 ^ i)) = nodesOf query mask \ {id} := by
  ext other
  exact mem_without distinct found

theorem nodesOf_single (found : query.relations[i]? = some id) : nodesOf query (2 ^ i) = {id} := by
  ext other
  exact mem_relationsOf_single found

theorem exists_join_iff (isRelation : id ∈ query.relations)
    (outside : id ∉ relationsOf query mask) :
    getJoinsBetweenSubsetAndRelation query (relationsOf query mask) id ≠ [] ↔
      ∃ u ∈ nodesOf query mask, (joinGraph query).Adj u id := by
  have inQuery : ∀ u ∈ relationsOf query mask, u ∈ query.relations := by
    intro u member
    obtain ⟨i, found, -⟩ := mem_relationsOf.mp member
    exact List.mem_of_getElem? found
  constructor
  · intro nonempty
    obtain ⟨j, between⟩ := exists_mem_of_ne_nil _ nonempty
    have isJoin : j ∈ query.joins := (List.mem_filter.mp between).1
    rcases joinsBetween_sides between with ⟨member, same⟩ | ⟨member, same⟩
    · refine ⟨j.leftRelationId, member, ?_⟩
      rw [joinGraph, SimpleGraph.fromRel_adj]
      exact ⟨fun equal => outside (equal ▸ member), .inl ⟨j, isJoin, rfl, same⟩⟩
    · refine ⟨j.rightRelationId, member, ?_⟩
      rw [joinGraph, SimpleGraph.fromRel_adj]
      exact ⟨fun equal => outside (equal ▸ member), .inr ⟨j, isJoin, same, rfl⟩⟩
  · rintro ⟨u, member, edge⟩
    rw [joinGraph, SimpleGraph.fromRel_adj] at edge
    have inside : u ∈ relationsOf query mask := member
    have known : u ∈ query.relations := inQuery u member
    rcases edge.2 with ⟨j, isJoin, rfl, rfl⟩ | ⟨j, isJoin, rfl, rfl⟩
    · refine ne_nil_of_mem (List.mem_filter.mpr ⟨isJoin, ?_⟩)
      simp [outside, inside, known, isRelation]
    · refine ne_nil_of_mem (List.mem_filter.mpr ⟨isJoin, ?_⟩)
      simp [outside, inside, known, isRelation]

/-- The path joins each relation of the subset once, and no other. -/
structure Covers (query : OptimizerQuery) (mask : Nat) (c : Candidate) : Prop where
  ownMask : c.relationMask = mask
  relations : c.path.relations.Perm (relationsOf query mask)

/-- What holds of `best_for_subset` all along. -/
structure Sound (query : OptimizerQuery) (table : Table) : Prop where
  nonempty : ∀ mask bucket, table mask = some bucket → bucket ≠ []
  connected : ∀ mask bucket, table mask = some bucket →
    ConnectedOn (joinGraph query) (nodesOf query mask)
  covers : ∀ mask bucket, table mask = some bucket → ∀ c ∈ bucket, Covers query mask c
  bases : ∀ i < query.relations.length, ∃ bucket, table (2 ^ i) = some bucket ∧
    ∀ c ∈ bucket, ∃ base, c.path = .base base

def Complete (query : OptimizerQuery) (size : Nat) (table : Table) : Prop :=
  ∀ mask < 2 ^ query.relations.length, popcount mask ≤ size →
    ConnectedOn (joinGraph query) (nodesOf query mask) → (table mask).isSome = true

theorem joinCandidates_ne_nil (left right : Candidate) (joinPred : QueryJoinPredicateSpec)
    {base : BasePath} (isBase : right.path = .base base) :
    joinCandidates p left right joinPred ≠ [] := by
  rw [joinCandidates, isBase]
  simp [tryBuildJoinPaths]

theorem mem_joinCandidates {left right c : Candidate} {joinPred : QueryJoinPredicateSpec}
    {base : BasePath} (isBase : right.path = .base base)
    (member : c ∈ joinCandidates p left right joinPred) :
    c.relationMask = left.relationMask ||| right.relationMask ∧
      c.path.relations = left.path.relations ++ right.path.relations := by
  rw [joinCandidates, isBase] at member
  obtain ⟨path, tried, rfl⟩ := mem_map.mp member
  obtain ⟨node, rfl, -⟩ := tryBuildJoinPaths_shape tried
  refine ⟨rfl, ?_⟩
  rw [isBase]
  rfl

section

variable (distinct : query.relations.Nodup)

include distinct

theorem mem_extensions (sound : Sound query table)
    {c : Candidate} (member : c ∈ extensions p query table subset i) :
    Covers query subset c ∧ ConnectedOn (joinGraph query) (nodesOf query subset) := by
  rw [extensions] at member
  split at member
  case isFalse => exact (not_mem_nil member).elim
  rename_i bit
  dsimp only at member
  split at member
  case h_2 => exact (not_mem_nil member).elim
  rename_i id lefts rights found isLefts isRights
  split at member
  · exact (not_mem_nil member).elim
  obtain ⟨left, inLefts, member⟩ := mem_flatMap.mp member
  obtain ⟨right, inRights, member⟩ := mem_flatMap.mp member
  obtain ⟨joinPred, between, member⟩ := mem_flatMap.mp member
  obtain ⟨inside, -⟩ := List.getElem?_eq_some_iff.mp found
  obtain ⟨bucket, isBucket, allBases⟩ := sound.bases i inside
  rw [isRights] at isBucket
  cases isBucket
  obtain ⟨base, isBase⟩ := allBases right inRights
  obtain ⟨joinMask, joinRelations⟩ := mem_joinCandidates isBase member
  have coversLeft := sound.covers _ _ isLefts left inLefts
  have coversRight := sound.covers _ _ isRights right inRights
  have single : (relationsOf query (2 ^ i)).Perm [id] := by
    refine (List.perm_ext_iff_of_nodup (relationsOf_nodup distinct _)
      (List.nodup_singleton _)).mpr fun other => ?_
    rw [mem_relationsOf_single found, mem_singleton]
  have split := relationsOf_split distinct found bit
  have outside : id ∉ relationsOf query (subset.ldiff (2 ^ i)) := fun isMember =>
    ((mem_without distinct found).mp isMember).2 rfl
  constructor
  · constructor
    · rw [joinMask, coversLeft.ownMask, coversRight.ownMask, union_bit bit]
    · rw [joinRelations]
      exact (coversLeft.relations.append (coversRight.relations.trans single)).trans split
  · obtain ⟨u, isNode, edge⟩ := (exists_join_iff (List.mem_of_getElem? found) outside).mp
      (ne_nil_of_mem between)
    have grown := (sound.connected _ _ isLefts).insert isNode edge
    rw [nodesOf_without distinct found] at grown
    have member : id ∈ nodesOf query subset := mem_relationsOf.mpr ⟨i, found, bit⟩
    rw [Set.insert_sdiff_singleton, Set.insert_eq_of_mem member] at grown
    exact grown

theorem extensions_ne_nil (sound : Sound query table)
    (found : query.relations[i]? = some id) (bit : subset.testBit i = true) {lefts : List Candidate}
    (isLefts : table (subset.ldiff (2 ^ i)) = some lefts) {u : Nat}
    (isNode : u ∈ nodesOf query (subset.ldiff (2 ^ i))) (edge : (joinGraph query).Adj u id) :
    extensions p query table subset i ≠ [] := by
  obtain ⟨inside, -⟩ := List.getElem?_eq_some_iff.mp found
  obtain ⟨rights, isRights, allBases⟩ := sound.bases i inside
  obtain ⟨left, inLefts⟩ := exists_mem_of_ne_nil _ (sound.nonempty _ _ isLefts)
  obtain ⟨right, inRights⟩ := exists_mem_of_ne_nil _ (sound.nonempty _ _ isRights)
  obtain ⟨base, isBase⟩ := allBases right inRights
  have outside : id ∉ relationsOf query (subset.ldiff (2 ^ i)) := fun isMember =>
    ((mem_without distinct found).mp isMember).2 rfl
  obtain ⟨joinPred, between⟩ := exists_mem_of_ne_nil _
    ((exists_join_iff (List.mem_of_getElem? found) outside).mpr ⟨u, isNode, edge⟩)
  obtain ⟨c, isCandidate⟩ := exists_mem_of_ne_nil _
    (joinCandidates_ne_nil (p := p) left right joinPred isBase)
  have notEmpty : subset.ldiff (2 ^ i) ≠ 0 := by
    intro zero
    rw [zero] at isNode
    obtain ⟨k, -, noBit⟩ := mem_relationsOf.mp isNode
    rw [Nat.zero_testBit] at noBit
    cases noBit
  rw [extensions, if_pos bit]
  dsimp only
  rw [found, isLefts, isRights]
  dsimp only
  rw [if_neg notEmpty]
  refine ne_nil_of_mem (a := c) ?_
  exact mem_flatMap.mpr ⟨left, inLefts, mem_flatMap.mpr
    ⟨right, inRights, mem_flatMap.mpr ⟨joinPred, between, isCandidate⟩⟩⟩

theorem Sound.fillSubset (few : query.relations.length ≤ 63)
    (sound : Sound query table) (several : 2 ≤ popcount subset) :
    Sound query (fillSubset p query table subset) := by
  rw [PlanSearch.fillSubset]
  split
  · exact sound
  rename_i notEmpty
  have stored : addAll p query [] ((List.range query.relations.length).flatMap
      (extensions p query table subset)) ≠ [] := fun none => notEmpty (by rw [none]; rfl)
  have from_ : ∀ c ∈ addAll p query [] ((List.range query.relations.length).flatMap
      (extensions p query table subset)),
      Covers query subset c ∧ ConnectedOn (joinGraph query) (nodesOf query subset) := by
    intro c member
    rcases mem_addAll member with none | candidate
    · exact (not_mem_nil none).elim
    · obtain ⟨i, -, isExtension⟩ := mem_flatMap.mp candidate
      exact mem_extensions distinct sound isExtension
  obtain ⟨some_, isSome⟩ := exists_mem_of_ne_nil _ stored
  constructor
  · intro mask bucket isBucket
    by_cases same : mask = subset
    · rw [same, update_self] at isBucket
      cases isBucket
      exact stored
    · rw [update_of_ne same] at isBucket
      exact sound.nonempty mask bucket isBucket
  · intro mask bucket isBucket
    by_cases same : mask = subset
    · rw [same]
      exact (from_ some_ isSome).2
    · rw [update_of_ne same] at isBucket
      exact sound.connected mask bucket isBucket
  · intro mask bucket isBucket
    by_cases same : mask = subset
    · rw [same, update_self] at isBucket
      cases isBucket
      rw [same]
      exact fun c member => (from_ c member).1
    · rw [update_of_ne same] at isBucket
      exact sound.covers mask bucket isBucket
  · intro i inside
    have apart : 2 ^ i ≠ subset := by
      rintro rfl
      rw [popcount_single (by omega)] at several
      omega
    rw [update_of_ne apart]
    exact sound.bases i inside

end

theorem isSome_fillSubset (subset mask : Nat) (isSome : (table mask).isSome = true) :
    (fillSubset p query table subset mask).isSome = true := by
  rw [fillSubset]
  split
  · exact isSome
  · by_cases same : mask = subset
    · rw [same, update_self]
      rfl
    · rw [update_of_ne same]
      exact isSome

theorem fillSubset_complete (distinct : query.relations.Nodup) (few : query.relations.length ≤ 63)
    (sound : Sound query table) {size : Nat} (complete : Complete query size table)
    (small : subset < 2 ^ query.relations.length) (next : popcount subset = size + 1)
    (several : 1 ≤ size) (connected : ConnectedOn (joinGraph query) (nodesOf query subset)) :
    (fillSubset p query table subset subset).isSome = true := by
  have finite : (nodesOf query subset).Finite := List.finite_toSet _
  obtain ⟨a, isA, b, isB, apart⟩ : (nodesOf query subset).Nontrivial := by
    have two : 1 < (bits subset).card := by
      rw [← popcount_eq_card]
      omega
    obtain ⟨i, isI, j, isJ, different⟩ := Finset.one_lt_card.mp two
    obtain ⟨a, atI, isA⟩ := exists_relation small isI
    obtain ⟨b, atJ, isB⟩ := exists_relation small isJ
    exact ⟨a, isA, b, isB, fun same => different (same_index distinct atI (same ▸ atJ))⟩
  obtain ⟨id, isNode, rest⟩ := connected.exists_removable finite isA isB apart
  obtain ⟨i, found, bit⟩ := mem_relationsOf.mp isNode
  obtain ⟨inside, -⟩ := List.getElem?_eq_some_iff.mp found
  obtain ⟨u, inRest, edge⟩ : ∃ u ∈ nodesOf query (subset.ldiff (2 ^ i)),
      (joinGraph query).Adj u id := by
    have another : ∃ v ∈ nodesOf query subset, id ≠ v := by
      by_cases same : id = a
      · exact ⟨b, isB, same ▸ apart⟩
      · exact ⟨a, isA, same⟩
    obtain ⟨v, isV, different⟩ := another
    obtain ⟨w, isW, edge⟩ := connected.exists_neighbour isNode isV different
    refine ⟨w, ?_, edge.symm⟩
    rw [nodesOf_without distinct found]
    exact ⟨isW, fun same => edge.ne same.symm⟩
  have fewer := popcount_without bit (by omega : i < 64)
  have atMost : subset.ldiff (2 ^ i) ≤ subset.ldiff (2 ^ i) ||| 2 ^ i := Nat.left_le_or
  rw [union_bit bit] at atMost
  have smaller : subset.ldiff (2 ^ i) < 2 ^ query.relations.length := by omega
  rw [← nodesOf_without distinct found] at rest
  obtain ⟨lefts, isLefts⟩ := Option.isSome_iff_exists.mp
    (complete _ smaller (by omega) rest)
  have extended := extensions_ne_nil (p := p) distinct sound found bit isLefts inRest edge
  obtain ⟨c, isExtension⟩ := exists_mem_of_ne_nil _ extended
  have stored : addAll p query [] ((List.range query.relations.length).flatMap
      (extensions p query table subset)) ≠ [] := by
    refine addAll_ne_nil (.inr (ne_nil_of_mem (a := c) ?_))
    exact mem_flatMap.mpr ⟨i, mem_range.mpr inside, isExtension⟩
  rw [fillSubset]
  rw [if_neg (fun none => stored (List.isEmpty_iff.mp none)), update_self]
  rfl

end Steps

section Search

variable {p : PlanEnumerator} {query : OptimizerQuery}

variable {size : Nat} {table : Table}

theorem Complete.fillSubset (complete : Complete query size table) (subset : Nat) :
    Complete query size (fillSubset p query table subset) :=
  fun mask small few connected => isSome_fillSubset subset mask (complete mask small few connected)

section

variable (distinct : query.relations.Nodup)

include distinct

theorem fillSize_from (few : query.relations.length ≤ 63)
    (several : 1 ≤ size) (subsets : List Nat)
    (small : ∀ subset ∈ subsets, subset < 2 ^ query.relations.length) (sound : Sound query table)
    (complete : Complete query size table) :
    let table' := subsets.foldl (fun table subset =>
      if popcount subset = size + 1 then fillSubset p query table subset else table) table
    Sound query table' ∧ Complete query size table' ∧
      (∀ mask, (table mask).isSome = true → (table' mask).isSome = true) ∧
      ∀ subset ∈ subsets, popcount subset = size + 1 →
        ConnectedOn (joinGraph query) (nodesOf query subset) → (table' subset).isSome = true := by
  induction subsets generalizing table with
  | nil => exact ⟨sound, complete, fun _ isSome => isSome, by simp⟩
  | cons first rest ih =>
    have smallRest : ∀ subset ∈ rest, subset < 2 ^ query.relations.length :=
      fun subset member => small subset (List.mem_cons_of_mem _ member)
    rw [List.foldl_cons]
    by_cases next : popcount first = size + 1
    · rw [if_pos next]
      have sound' : Sound query (fillSubset p query table first) :=
        sound.fillSubset distinct few (by omega)
      obtain ⟨soundEnd, completeEnd, kept, filled⟩ :=
        ih smallRest sound' (complete.fillSubset first)
      refine ⟨soundEnd, completeEnd,
        fun mask isSome => kept mask (isSome_fillSubset first mask isSome), ?_⟩
      intro subset member sized connected
      rcases List.mem_cons.mp member with rfl | later
      · exact kept subset (fillSubset_complete distinct few sound complete
          (small subset List.mem_cons_self) sized several connected)
      · exact filled subset later sized connected
    · rw [if_neg next]
      obtain ⟨soundEnd, completeEnd, kept, filled⟩ := ih smallRest sound complete
      refine ⟨soundEnd, completeEnd, kept, ?_⟩
      intro subset member sized connected
      rcases List.mem_cons.mp member with rfl | later
      · exact absurd sized next
      · exact filled subset later sized connected

theorem fillSize_next (few : query.relations.length ≤ 63)
    (several : 1 ≤ size) (sound : Sound query table) (complete : Complete query size table) :
    Sound query (fillSize p query table (size + 1)) ∧
      Complete query (size + 1) (fillSize p query table (size + 1)) := by
  obtain ⟨sound', complete', -, filled⟩ := fillSize_from (p := p) distinct few several
    (List.range (2 ^ query.relations.length)) (fun subset member => mem_range.mp member)
    sound complete
  refine ⟨sound', fun mask small sized connected => ?_⟩
  by_cases before : popcount mask ≤ size
  · exact complete' mask small before connected
  · exact filled mask (mem_range.mpr small) (by omega) connected

theorem fillSizes (few : query.relations.length ≤ 63)
    (sound : Sound query table) (complete : Complete query 1 table) (more : Nat) :
    Sound query ((range' 2 more).foldl (fillSize p query) table) ∧
      Complete query (more + 1) ((range' 2 more).foldl (fillSize p query) table) := by
  induction more with
  | zero => exact ⟨sound, complete⟩
  | succ more ih =>
    obtain ⟨sound', complete'⟩ := ih
    rw [List.range'_concat, List.foldl_concat, Nat.one_mul, Nat.add_comm 2 more]
    exact fillSize_next distinct few (by omega) sound' complete'

end

structure BaseBucket (id bit : Nat) (bucket : List Candidate) : Prop where
  nonempty : bucket ≠ []
  bases : ∀ c ∈ bucket, c.relationMask = bit ∧ ∃ base, c.path = .base base ∧ base.relationId = id

theorem baseCandidates_bucket {id bit : Nat} {rel : RelationCatalogEntry}
    (known : p.catalog.getRelation id = some rel) (analyzed : p.hasRelationStats id = true) :
    ∃ candidates, baseCandidates p query id bit = .ok candidates ∧
      BaseBucket id bit (addAll p query [] candidates) := by
  rw [baseCandidates, known]
  dsimp only
  rw [if_pos analyzed]
  refine ⟨_, rfl, addAll_ne_nil (.inr ?_), ?_⟩
  · simp [makeBaseCandidates]
  · intro c member
    rcases mem_addAll member with none | candidate
    · exact (not_mem_nil none).elim
    · obtain ⟨base, made, rfl⟩ := mem_map.mp candidate
      exact ⟨rfl, base, rfl, (candidate_facts made).1.trans (getRelation_id known)⟩

theorem fillBases_from (known : ∀ id ∈ query.relations, (p.catalog.getRelation id).isSome = true)
    (analyzed : ∀ id ∈ query.relations, p.hasRelationStats id = true) (rels : List Nat)
    (within : rels ⊆ query.relations) (k : Nat) (table : Table)
    (fresh : ∀ i, k ≤ i → table (2 ^ i) = none) :
    ∃ table', fillBases p query (rels.zipIdx k) table = .ok table' ∧
      (∀ mask, (table mask).isSome = true → table' mask = table mask) ∧
      (∀ i id, rels[i]? = some id → ∃ bucket, table' (2 ^ (k + i)) = some bucket) ∧
      ∀ mask bucket, table' mask = some bucket → table mask = some bucket ∨
        ∃ i id, rels[i]? = some id ∧ mask = 2 ^ (k + i) ∧ BaseBucket id mask bucket := by
  induction rels generalizing k table with
  | nil => exact ⟨table, rfl, fun _ _ => rfl, by simp, fun _ _ isBucket => .inl isBucket⟩
  | cons id rest ih =>
    obtain ⟨isRelation, withinRest⟩ := List.cons_subset.mp within
    obtain ⟨rel, found⟩ := Option.isSome_iff_exists.mp (known id isRelation)
    obtain ⟨candidates, made, isBase⟩ : ∃ candidates,
        baseCandidates p query id (2 ^ k) = .ok candidates ∧
          BaseBucket id (2 ^ k) (addAll p query [] candidates) :=
      baseCandidates_bucket found (analyzed id isRelation)
    have powers : ∀ i, k + 1 ≤ i → 2 ^ i ≠ 2 ^ k := by
      intro i above same
      have equal := Nat.pow_right_injective (le_refl 2) same
      omega
    obtain ⟨table', filled, kept, stored, origin⟩ := ih withinRest (k + 1)
      (Function.update table (2 ^ k) (some (addAll p query [] candidates))) (by
        intro i above
        rw [update_of_ne (powers i above)]
        exact fresh i (by omega))
    refine ⟨table', ?_, ?_, ?_, ?_⟩
    · rw [List.zipIdx_cons, fillBases, made, fresh k (le_refl k)]
      exact filled
    · intro mask isSome
      have apart : mask ≠ 2 ^ k := by
        rintro rfl
        rw [fresh k (le_refl k)] at isSome
        cases isSome
      have same := kept mask (by
        rw [update_of_ne apart]
        exact isSome)
      rw [same, update_of_ne apart]
    · intro i other found
      cases i with
      | zero =>
        refine ⟨_, (kept (2 ^ k) ?_).trans (update_self _ _ _)⟩
        rw [update_self]
        rfl
      | succ i =>
        obtain ⟨bucket, isBucket⟩ := stored i other (by simpa using found)
        refine ⟨bucket, ?_⟩
        rw [← isBucket]
        congr 2
        omega
    · intro mask bucket isBucket
      rcases origin mask bucket isBucket with before | ⟨i, other, found, same, base⟩
      · by_cases here : mask = 2 ^ k
        · rw [here, update_self] at before
          cases before
          exact .inr ⟨0, id, rfl, here, here ▸ isBase⟩
        · rw [update_of_ne here] at before
          exact .inl before
      · refine .inr ⟨i + 1, other, by simpa using found, ?_, base⟩
        rw [same]
        congr 1
        omega

end Search

section Optimal

variable {p : PlanEnumerator} {query : OptimizerQuery}

theorem bases_sound (distinct : query.relations.Nodup)
    (known : ∀ id ∈ query.relations, (p.catalog.getRelation id).isSome = true)
    (analyzed : ∀ id ∈ query.relations, p.hasRelationStats id = true) :
    ∃ table, fillBases p query query.relations.zipIdx (fun _ => none) = .ok table ∧
      Sound query table := by
  obtain ⟨table, filled, -, stored, origin⟩ := fillBases_from known analyzed query.relations
    (List.Subset.refl _) 0 (fun _ => none) fun _ _ => rfl
  have single : ∀ mask bucket, table mask = some bucket → ∃ i id, query.relations[i]? = some id ∧
      mask = 2 ^ i ∧ BaseBucket id mask bucket := by
    intro mask bucket isBucket
    rcases origin mask bucket isBucket with none | ⟨i, id, found, same, base⟩
    · cases none
    · exact ⟨i, id, found, by rw [same, Nat.zero_add], base⟩
  refine ⟨table, filled, ?_, ?_, ?_, ?_⟩
  · intro mask bucket isBucket
    obtain ⟨i, id, -, -, base⟩ := single mask bucket isBucket
    exact base.nonempty
  · intro mask bucket isBucket
    obtain ⟨i, id, found, rfl, -⟩ := single mask bucket isBucket
    rw [nodesOf_single found]
    exact connectedOn_singleton id
  · intro mask bucket isBucket c member
    obtain ⟨i, id, found, rfl, base⟩ := single mask bucket isBucket
    obtain ⟨ownMask, path, isPath, isRelation⟩ := base.bases c member
    refine ⟨ownMask, ?_⟩
    rw [isPath, PhysicalPath.relations, isRelation]
    refine (List.perm_ext_iff_of_nodup (List.nodup_singleton _)
      (relationsOf_nodup distinct _)).mpr fun other => ?_
    rw [mem_singleton, mem_relationsOf_single found]
  · intro i inside
    obtain ⟨bucket, isBucket⟩ := stored i _ (List.getElem?_eq_getElem inside)
    rw [Nat.zero_add] at isBucket
    obtain ⟨j, id, -, -, base⟩ := single _ bucket isBucket
    refine ⟨bucket, isBucket, fun c member => ?_⟩
    obtain ⟨-, path, isPath, -⟩ := base.bases c member
    exact ⟨path, isPath⟩

theorem Sound.complete_one {table : Table} (few : query.relations.length ≤ 63)
    (sound : Sound query table) : Complete query 1 table := by
  intro mask small atMostOne connected
  obtain ⟨id, member⟩ := connected.nonempty
  obtain ⟨i, found, bit⟩ := mem_relationsOf.mp member
  have inside := index_lt small bit
  have only : ∀ j, mask.testBit j = true → i = j := by
    intro j bitJ
    have insideJ := index_lt small bitJ
    rw [popcount_eq_card] at atMostOne
    refine Finset.card_le_one.mp atMostOne i ?_ j ?_
    · exact Finset.mem_filter.mpr ⟨Finset.mem_range.mpr (by omega), bit⟩
    · exact Finset.mem_filter.mpr ⟨Finset.mem_range.mpr (by omega), bitJ⟩
  have single : mask = 2 ^ i := by
    refine Nat.eq_of_testBit_eq fun j => ?_
    rw [Nat.testBit_two_pow]
    by_cases same : i = j
    · simp [← same, bit]
    · have noBit : mask.testBit j = false := by
        rw [← Bool.not_eq_true]
        exact fun bitJ => same (only j bitJ)
      simp [noBit, same]
  obtain ⟨bucket, isBucket, -⟩ := sound.bases i inside
  rw [single, isBucket]
  rfl

theorem relationsOf_full (query : OptimizerQuery) :
    relationsOf query (2 ^ query.relations.length - 1) = query.relations := by
  have all : ∀ rel ∈ query.relations.zipIdx,
      (2 ^ query.relations.length - 1).testBit rel.2 = true := by
    intro rel member
    have inside := List.snd_lt_of_mem_zipIdx member
    rw [Nat.testBit_two_pow_sub_one]
    exact decide_eq_true inside
  rw [relationsOf, List.filter_eq_self.mpr all, List.zipIdx_map_fst]

/-- `Optimize` finds a plan exactly when the join graph is connected, each plan joins each relation
once, and pruning leaves no bucket empty. -/
theorem optimize_complete (p : PlanEnumerator) (query : OptimizerQuery)
    (nonempty : query.relations ≠ []) (few : query.relations.length ≤ 63)
    (distinct : query.relations.Nodup)
    (known : ∀ id ∈ query.relations, (p.catalog.getRelation id).isSome = true)
    (analyzed : ∀ id ∈ query.relations, p.hasRelationStats id = true) :
    ((∃ c, optimize p query = .ok (some c)) ↔
        ConnectedOn (joinGraph query) {id | id ∈ query.relations}) ∧
      (∀ result, optimize p query = .ok result → ∃ c, result = some c ∧
        c.relationMask = 2 ^ query.relations.length - 1 ∧
          c.path.relations.Perm query.relations) ∧
      (¬ConnectedOn (joinGraph query) {id | id ∈ query.relations} → optimize p query =
        .error "Failed to build a complete plan. Query graph may be disconnected.") ∧
      ∀ bucket candidate, addPrunedCandidate p query bucket candidate ≠ [] := by
  obtain ⟨bases, filled, sound⟩ := bases_sound distinct known analyzed
  have positive : 0 < query.relations.length := List.length_pos_iff.mpr nonempty
  obtain ⟨soundEnd, completeEnd⟩ := fillSizes (p := p) distinct few sound
    (sound.complete_one few) (query.relations.length - 1)
  rw [Nat.sub_add_cancel positive] at completeEnd
  have full : 2 ^ query.relations.length - 1 < 2 ^ query.relations.length := by
    have pos : 0 < 2 ^ query.relations.length := Nat.two_pow_pos _
    omega
  have nodes : nodesOf query (2 ^ query.relations.length - 1) = {id | id ∈ query.relations} := by
    rw [nodesOf, relationsOf_full]
  have notEmpty : query.relations.isEmpty = false := by
    rw [← Bool.not_eq_true, List.isEmpty_iff]
    exact nonempty
  have unfolded {bucket : Option (List Candidate)}
      (isBucket : (range' 2 (query.relations.length - 1)).foldl (fillSize p query) bases
        (2 ^ query.relations.length - 1) = bucket) :
      optimize p query = bucket.elim
        (.error "Failed to build a complete plan. Query graph may be disconnected.")
        fun candidates => .ok (leastBy (computeFinalCost p query) candidates) := by
    rw [optimize, notEmpty, if_neg Bool.false_ne_true, if_neg (by omega), filled]
    simp only [bind, Except.bind, isBucket]
    cases bucket <;> rfl
  have failed : ¬ConnectedOn (joinGraph query) {id | id ∈ query.relations} →
      optimize p query =
        .error "Failed to build a complete plan. Query graph may be disconnected." := by
    intro apart
    cases isBucket : (range' 2 (query.relations.length - 1)).foldl (fillSize p query) bases
        (2 ^ query.relations.length - 1) with
    | none => exact unfolded isBucket
    | some candidates => exact absurd (nodes ▸ soundEnd.connected _ candidates isBucket) apart
  have found : ∀ result, optimize p query = .ok result → ∃ c, result = some c ∧
      c.relationMask = 2 ^ query.relations.length - 1 ∧
        c.path.relations.Perm query.relations := by
    intro result returned
    cases isBucket : (range' 2 (query.relations.length - 1)).foldl (fillSize p query) bases
        (2 ^ query.relations.length - 1) with
    | none =>
      rw [unfolded isBucket] at returned
      cases returned
    | some candidates =>
      rw [unfolded isBucket] at returned
      obtain ⟨c, least, member⟩ := exists_leastBy (computeFinalCost p query)
        (soundEnd.nonempty _ candidates isBucket)
      have covers := soundEnd.covers _ candidates isBucket c member
      cases returned
      exact ⟨c, least, covers.ownMask, relationsOf_full query ▸ covers.relations⟩
  refine ⟨⟨?_, ?_⟩, found, failed,
    fun bucket candidate => addPrunedCandidate_ne_nil bucket candidate⟩
  · rintro ⟨c, returned⟩
    by_contra apart
    rw [failed apart] at returned
    cases returned
  · intro connected
    obtain ⟨candidates, isBucket⟩ := Option.isSome_iff_exists.mp
      (completeEnd _ full (popcount_le full) (nodes ▸ connected))
    have returned : optimize p query =
        .ok (leastBy (computeFinalCost p query) candidates) := unfolded isBucket
    obtain ⟨c, least, -⟩ := found _ returned
    exact ⟨c, by rw [returned, least]⟩

/-- The search over `parallelCatalog`, with the same cost for every path. -/
def parallelEnumerator : PlanEnumerator where
  catalog := parallelCatalog
  hasRelationStats _ := true
  costModel :=
    { estimateRows := fun _ _ => .ofInt 1
      estimateBaseCost := fun _ => ⟨.ofInt 0, .ofInt 1⟩
      estimateJoin := fun _ _ _ => ⟨.ofInt 1, false⟩
      estimateJoinCost := fun _ _ _ => ⟨.ofInt 0, .ofInt 1⟩
      estimateSortCost := fun _ => ⟨.ofInt 0, .ofInt 1⟩
      estimateHashAggregateCost := fun _ => ⟨.ofInt 0, .ofInt 1⟩
      estimateStreamAggregateCost := fun _ => ⟨.ofInt 0, .ofInt 1⟩
      blendForLimit := fun cost _ _ => cost.totalCost }
  iteration entries := entries
  iterates _ := .refl _

theorem optimize_complete_parallel : ∃ c, optimize parallelEnumerator parallelQuery = .ok (some c) := by
  refine (optimize_complete parallelEnumerator parallelQuery (by decide) (by decide) (by decide)
    (by decide) (fun _ _ => rfl)).1.mpr ?_
  have edge : (joinGraph parallelQuery).Adj 0 1 := by
    rw [joinGraph, SimpleGraph.fromRel_adj]
    exact ⟨by decide, .inl ⟨⟨0, 0, 1, 0⟩, List.mem_cons_self, rfl, rfl⟩⟩
  have nodes : {id | id ∈ parallelQuery.relations} = ({1, 0} : Set Nat) := by
    ext id
    simp [parallelQuery, or_comm]
  rw [nodes]
  exact (connectedOn_singleton 0).insert (Set.mem_singleton 0) edge

end Optimal

section Enumeration

variable {p : PlanEnumerator} {query : OptimizerQuery} {table : Table} {c : Candidate}
  {subset i : Nat}

def Enumerates (p : PlanEnumerator) (query : OptimizerQuery) (table : Table) : Prop :=
  ∀ mask bucket, table mask = some bucket → ∀ c ∈ bucket, Enumerated p.catalog query c.path

theorem Enumerates.update (enumerates : Enumerates p query table) {bucket : List Candidate}
    (stored : ∀ c ∈ bucket, Enumerated p.catalog query c.path) (mask : Nat) :
    Enumerates p query (Function.update table mask (some bucket)) := by
  intro mask' bucket' isBucket
  by_cases same : mask' = mask
  · rw [same, update_self] at isBucket
    cases isBucket
    exact stored
  · rw [update_of_ne same] at isBucket
    exact enumerates mask' bucket' isBucket

theorem getJoinsBetween_congr {left right : List Nat} (same : ∀ id, id ∈ left ↔ id ∈ right)
    (id : Nat) : getJoinsBetweenSubsetAndRelation query left id =
      getJoinsBetweenSubsetAndRelation query right id := by
  have contains (id : Nat) : left.contains id = right.contains id := by
    rw [Bool.eq_iff_iff, List.contains_iff_mem, List.contains_iff_mem, same]
  simp only [getJoinsBetweenSubsetAndRelation, contains]

theorem extensions_enumerated (distinct : query.relations.Nodup) (sound : Sound query table)
    (enumerates : Enumerates p query table) (member : c ∈ extensions p query table subset i) :
    Enumerated p.catalog query c.path := by
  rw [extensions] at member
  split at member
  case isFalse => exact (not_mem_nil member).elim
  dsimp only at member
  split at member
  case h_2 => exact (not_mem_nil member).elim
  rename_i id lefts rights found isLefts isRights
  split at member
  · exact (not_mem_nil member).elim
  obtain ⟨left, inLefts, member⟩ := mem_flatMap.mp member
  obtain ⟨right, inRights, member⟩ := mem_flatMap.mp member
  obtain ⟨joinPred, between, member⟩ := mem_flatMap.mp member
  have coversLeft := (sound.covers _ _ isLefts left inLefts).relations
  have coversRight := (sound.covers _ _ isRights right inRights).relations
  rw [joinCandidates] at member
  split at member
  case h_2 => exact (not_mem_nil member).elim
  rename_i base isBase
  obtain ⟨path, tried, rfl⟩ := List.mem_map.mp member
  have outer := enumerates _ _ isLefts left inLefts
  have inner := enumerates _ _ isRights right inRights
  rw [isBase] at coversRight inner
  have own : base.relationId = id := (mem_relationsOf_single found).mp
    (coversRight.mem_iff.mp List.mem_cons_self)
  cases inner with
  | base listed retained =>
    refine .join outer listed ?_ retained ?_ tried
    · intro inLeft
      exact ((mem_without distinct found).mp (coversLeft.mem_iff.mp inLeft)).2 own
    · rw [own, getJoinsBetween_congr fun id => coversLeft.mem_iff]
      exact between
  | join _ _ _ _ _ tried =>
    obtain ⟨node, isJoin, -⟩ := tryBuildJoinPaths_shape tried
    cases isJoin

theorem Enumerates.fillSubset (distinct : query.relations.Nodup) (sound : Sound query table)
    (enumerates : Enumerates p query table) (subset : Nat) :
    Enumerates p query (fillSubset p query table subset) := by
  rw [PlanSearch.fillSubset]
  split
  · exact enumerates
  · refine enumerates.update (fun c member => ?_) subset
    rcases mem_addAll member with none | candidate
    · exact (not_mem_nil none).elim
    · obtain ⟨i, -, isExtension⟩ := mem_flatMap.mp candidate
      exact extensions_enumerated distinct sound enumerates isExtension

theorem fillSizes_enumerates (distinct : query.relations.Nodup)
    (few : query.relations.length ≤ 63) (sound : Sound query table)
    (enumerates : Enumerates p query table) (more : Nat) :
    let table' := (List.range' 2 more).foldl (fillSize p query) table
    Sound query table' ∧ Enumerates p query table' := by
  refine List.foldlRecOn (motive := fun table => Sound query table ∧ Enumerates p query table) _ _
    ⟨sound, enumerates⟩ fun table kept size member => ?_
  have several := (List.mem_range'_1.mp member).1
  refine List.foldlRecOn (motive := fun table => Sound query table ∧ Enumerates p query table) _ _
    kept fun table kept subset _ => ?_
  split
  · exact ⟨kept.1.fillSubset distinct few (by omega), kept.2.fillSubset distinct kept.1 subset⟩
  · exact kept

theorem fillBases_enumerates {rels : List (Nat × Nat)} {table' : Table}
    (listed : ∀ rel ∈ rels, rel.1 ∈ query.relations) (enumerates : Enumerates p query table)
    (filled : fillBases p query rels table = .ok table') :
    (∀ rel ∈ rels, (p.catalog.getRelation rel.1).isSome = true ∧
      p.hasRelationStats rel.1 = true) ∧ Enumerates p query table' := by
  induction rels generalizing table with
  | nil =>
    cases filled
    exact ⟨fun _ none => absurd none not_mem_nil, enumerates⟩
  | cons rel rest ih =>
    obtain ⟨inQuery, inRest⟩ := List.forall_mem_cons.mp listed
    rw [fillBases, baseCandidates] at filled
    split at filled
    case h_1 => cases filled
    rename_i entry found
    split at filled
    case isFalse => cases filled
    rename_i analyzed
    refine And.imp_left (fun known => List.forall_mem_cons.mpr
      ⟨⟨by rw [found]; rfl, analyzed⟩, known⟩) (ih inRest (enumerates.update ?_ _) filled)
    intro c member
    rcases mem_addAll member with before | candidate
    · cases isBucket : table (2 ^ rel.2) with
      | none =>
        rw [isBucket] at before
        exact (not_mem_nil before).elim
      | some bucket =>
        rw [isBucket] at before
        exact enumerates _ bucket isBucket c before
    · obtain ⟨base, made, rfl⟩ := List.mem_map.mp candidate
      have own := (candidate_facts made).1.trans (getRelation_id found)
      rw [← own] at made found inQuery
      exact .base inQuery ⟨entry, found, _, made⟩

theorem optimized_of_optimize (distinct : query.relations.Nodup)
    (returned : optimize p query = .ok (some c)) : Optimized p.catalog query c.path := by
  rw [optimize] at returned
  split at returned
  · cases returned
  split at returned
  · cases returned
  rename_i notEmpty few
  cases filled : fillBases p query query.relations.zipIdx fun _ => none with
  | error what =>
    rw [filled] at returned
    cases returned
  | ok bases =>
    rw [filled] at returned
    simp only [bind, Except.bind] at returned
    obtain ⟨known, enumerates⟩ := fillBases_enumerates
      (fun rel member => List.mem_of_getElem? (List.mk_mem_zipIdx_iff_getElem?.mp member))
      (fun _ _ none => by cases none) filled
    have all (id : Nat) (member : id ∈ query.relations) :
        (p.catalog.getRelation id).isSome = true ∧ p.hasRelationStats id = true := by
      obtain ⟨i, found⟩ := List.mem_iff_getElem?.mp member
      exact known (id, i) (List.mk_mem_zipIdx_iff_getElem?.mpr found)
    obtain ⟨bases', filled', sound⟩ := bases_sound distinct (fun id member => (all id member).1)
      fun id member => (all id member).2
    rw [filled] at filled'
    cases filled'
    obtain ⟨soundEnd, enumeratesEnd⟩ := fillSizes_enumerates distinct (by omega) sound enumerates
      (query.relations.length - 1)
    split at returned
    · cases returned
    · rename_i candidates isBucket
      obtain ⟨least, isLeast, member⟩ := exists_leastBy (computeFinalCost p query)
        (soundEnd.nonempty _ candidates isBucket)
      have same : least = c := by
        rw [isLeast] at returned
        cases returned
        rfl
      subst same
      have covers := (soundEnd.covers _ candidates isBucket least member).relations
      rw [relationsOf_full] at covers
      exact ⟨enumeratesEnd _ candidates isBucket least member, fun id => covers.mem_iff.mpr⟩

end Enumeration

end GraniteDb.Optimizer.CompleteSearch
