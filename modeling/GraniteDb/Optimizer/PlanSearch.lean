/- The search for a plan over all subsets of the relations, and what its pruning keeps. -/

import GraniteDb.Common.DoubleArithmetic
import GraniteDb.Lib.ConnectedSets
import GraniteDb.Optimizer.JoinSteps
import Mathlib.Data.Nat.Bitwise

namespace GraniteDb.Optimizer.PlanSearch

open Common.Double Catalog.CatalogManager Optimizer.PhysicalPath Optimizer.PlanEnumerator
open List (mem_cons_self mem_cons_of_mem mem_singleton mem_cons)

section Model

structure CostEstimate where
  startupCost : Double
  totalCost : Double
  deriving DecidableEq

structure Candidate where
  path : PhysicalPath
  relationMask : Nat
  startupCost : Double
  totalCost : Double
  deriving DecidableEq

def Candidate.parameterizedLike (c : Candidate) : Bool :=
  match c.path with
  | .base _ => false
  | .join node _ _ => node.joinType == .indexNestedLoop

def Candidate.usesMemoize (c : Candidate) : Bool :=
  match c.path with
  | .base _ => false
  | .join node _ _ => node.usesMemoize

/-- The estimates of `CostModel`, from the statistics of the relations. Nothing is assumed about
them. -/
structure CostModel where
  /-- The rows that the predicates leave of a relation. -/
  estimateRows : RelationCatalogEntry → List QueryPredicateSpec → Double
  estimateBaseCost : BasePath → CostEstimate
  estimateJoin : Candidate → Candidate → QueryJoinPredicateSpec → JoinEstimate
  estimateJoinCost : Candidate → Candidate → JoinNode → CostEstimate
  estimateSortCost : Double → CostEstimate
  estimateHashAggregateCost : Double → CostEstimate
  estimateStreamAggregateCost : Double → CostEstimate
  blendForLimit : CostEstimate → Double → Option Nat → Double

/-- `PlanEnumerator`. `iteration` is the order in which `best_by_order` is gone through. -/
structure PlanEnumerator where
  catalog : CatalogManager
  hasRelationStats : Nat → Bool
  costModel : CostModel
  iteration : List (String × (Candidate × Nat)) → List (String × (Candidate × Nat))
  iterates : ∀ entries, (iteration entries).Perm entries

def atMost (x y : Double) : Bool := !x.isNaN && !y.isNaN && !y.lt x

def serializeOrder (order : List PlanOrderKey) : String :=
  String.join (order.map fun key => toString key.relationId ++ ":" ++ toString key.columnIdx ++
    ":" ++ (if key.ascending then "A" else "D") ++ ";")

def signature (c : Candidate) : String :=
  serializeOrder c.path.outputOrder ++ "|p=" ++ (if c.parameterizedLike then "1" else "0") ++
    "|m=" ++ (if c.usesMemoize then "1" else "0")

/-- `other` is at most as expensive as `c` in both costs, and less in one. -/
def dominates (other c : Candidate) : Bool :=
  atMost other.totalCost c.totalCost && atMost other.startupCost c.startupCost &&
    (other.totalCost.lt c.totalCost || other.startupCost.lt c.startupCost)

/-- The paths of the bucket that no other one with the same signature dominates. The positions stand
for the pointers. -/
def nondominated (bucket : List Candidate) : List (Candidate × Nat) :=
  bucket.zipIdx.filter fun c =>
    !bucket.zipIdx.any fun other =>
      c.2 != other.2 && signature c.1 == signature other.1 && dominates other.1 c.1

/-- The first of the items with the least score; `none` is a null pointer. -/
def leastBy {α : Type} (score : α → Double) (items : List α) : Option α :=
  items.foldl (fun best item =>
    match best with
    | none => some item
    | some least => if (score item).lt (score least) then some item else some least) none

variable (p : PlanEnumerator) (query : OptimizerQuery)

def objective (c : Candidate) : Double :=
  p.costModel.blendForLimit ⟨c.startupCost, c.totalCost⟩ c.path.estRows query.limitCount

def keepPath (keep : List (Candidate × Nat)) (c : Candidate × Nat) : List (Candidate × Nat) :=
  if keep.any fun kept => kept.2 == c.2 then keep else keep ++ [c]

def keepBest (paths : List (Candidate × Nat)) (pred : Candidate → Bool)
    (score : Candidate → Double) (keep : List (Candidate × Nat)) : List (Candidate × Nat) :=
  match leastBy (fun c => score c.1) (paths.filter fun c => pred c.1) with
  | none => keep
  | some best => keepPath keep best

def bestByOrder (paths : List (Candidate × Nat)) : List (String × (Candidate × Nat)) :=
  paths.foldl (fun best c =>
    if c.1.path.outputOrder.isEmpty then best
    else
      let sig := serializeOrder c.1.path.outputOrder
      match best.lookup sig with
      | none => best ++ [(sig, c)]
      | some old =>
        if (objective p query c.1).lt (objective p query old.1) then
          best.map fun entry => if entry.1 = sig then (sig, c) else entry
        else best) []

def addPrunedCandidate (bucket : List Candidate) (candidate : Candidate) : List Candidate :=
  let paths := nondominated (bucket ++ [candidate])
  let keep := keepBest paths (fun _ => true) (objective p query) []
  let keep := keepBest paths (fun _ => true) Candidate.startupCost keep
  let keep := keepBest paths Candidate.parameterizedLike (objective p query) keep
  let keep := keepBest paths (fun c => c.path.satisfiesOrder query.requiredOrder)
    (objective p query) keep
  let keep := keepBest paths (fun c => c.path.satisfiesOrder query.groupOrder)
    (objective p query) keep
  let keep := (p.iteration (bestByOrder p query paths)).foldl
    (fun keep entry => keepPath keep entry.2) keep
  keep.map Prod.fst

def addAll (bucket candidates : List Candidate) : List Candidate :=
  candidates.foldl (addPrunedCandidate p query) bucket

def relationsOf (mask : Nat) : List Nat :=
  (query.relations.zipIdx.filter fun rel => mask.testBit rel.2).map Prod.fst

def popcount (mask : Nat) : Nat := (List.range 64).countP fun i => mask.testBit i

/-- The costed candidates of a relation; the texts are those of `GetRelation` and
`GetRelationStats`. -/
def baseCandidates (relationId bit : Nat) : Except String (List Candidate) :=
  match p.catalog.getRelation relationId with
  | none => .error "Unknown relation id in catalog"
  | some rel =>
    if p.hasRelationStats relationId then
      let predicates := getPredicatesForRelation query relationId
      .ok ((makeBaseCandidates rel predicates query (p.costModel.estimateRows rel predicates)).map
        fun base =>
          let cost := p.costModel.estimateBaseCost base
          ⟨.base base, bit, cost.startupCost, cost.totalCost⟩)
    else .error "Relation statistics not found"

/-- The costed joins with a base candidate. The relations of a join predicate have statistics where
their base candidates have been made. -/
def joinCandidates (left right : Candidate) (joinPred : QueryJoinPredicateSpec) : List Candidate :=
  match right.path with
  | .base base =>
    (tryBuildJoinPaths p.catalog left.path base joinPred
      (p.costModel.estimateJoin left right joinPred)).map fun path =>
      let cost : CostEstimate :=
        match path with
        | .base _ => ⟨left.startupCost, left.totalCost⟩
        | .join node _ _ => p.costModel.estimateJoinCost left right node
      ⟨path, left.relationMask ||| right.relationMask, cost.startupCost, cost.totalCost⟩
  | .join _ _ _ => []

/-- `best_for_subset`. -/
abbrev Table := Nat → Option (List Candidate)

/-- The candidates for a subset that end with one of its relations. -/
def extensions (table : Table) (subset relIdx : Nat) : List Candidate :=
  if subset.testBit relIdx then
    let leftSubset := subset.ldiff (2 ^ relIdx)
    match query.relations[relIdx]?, table leftSubset, table (2 ^ relIdx) with
    | some rightRel, some lefts, some rights =>
      if leftSubset = 0 then []
      else
        lefts.flatMap fun left => rights.flatMap fun right =>
          (getJoinsBetweenSubsetAndRelation query (relationsOf query leftSubset)
            rightRel).flatMap fun joinPred => joinCandidates p left right joinPred
    | _, _, _ => []
  else []

def fillSubset (table : Table) (subset : Nat) : Table :=
  let bucket := addAll p query []
    ((List.range query.relations.length).flatMap (extensions p query table subset))
  if bucket.isEmpty then table else Function.update table subset (some bucket)

def fillSize (table : Table) (size : Nat) : Table :=
  (List.range (2 ^ query.relations.length)).foldl (fun table subset =>
    if popcount subset = size then fillSubset p query table subset else table) table

def fillBases : List (Nat × Nat) → Table → Except String Table
  | [], table => .ok table
  | (relationId, i) :: rest, table => do
    let candidates ← baseCandidates p query relationId (2 ^ i)
    fillBases rest (Function.update table (2 ^ i)
      (some (addAll p query ((table (2 ^ i)).getD []) candidates)))

def computeFinalCost (c : Candidate) : Double :=
  let m := p.costModel
  let cost : CostEstimate :=
    if !query.hasAggregate && !query.requiredOrder.isEmpty &&
        !c.path.satisfiesOrder query.requiredOrder then
      let sortCost := m.estimateSortCost c.path.estRows
      ⟨c.totalCost.add sortCost.startupCost, c.totalCost.add sortCost.totalCost⟩
    else ⟨c.startupCost, c.totalCost⟩
  let cost : CostEstimate :=
    if query.hasAggregate && !query.groupOrder.isEmpty then
      if c.path.satisfiesOrder query.groupOrder then
        let agg := m.estimateStreamAggregateCost c.path.estRows
        ⟨cost.startupCost.add agg.startupCost, cost.totalCost.add agg.totalCost⟩
      else
        let hash := m.estimateHashAggregateCost c.path.estRows
        let sorted := m.estimateSortCost c.path.estRows
        let stream := m.estimateStreamAggregateCost c.path.estRows
        let quarter := c.path.estRows.mul (.ofRatio false 1 4)
        let outputSort : CostEstimate :=
          if query.requiredOrder.isEmpty then ⟨.ofInt 0, .ofInt 0⟩
          else m.estimateSortCost (if (Double.ofInt 1).lt quarter then quarter else .ofInt 1)
        let hashTotal := (c.totalCost.add hash.totalCost).add outputSort.totalCost
        let sortTotal := (c.totalCost.add sorted.totalCost).add stream.totalCost
        if atMost hashTotal sortTotal then
          ⟨(c.totalCost.add hash.startupCost).add outputSort.startupCost, hashTotal⟩
        else ⟨(c.totalCost.add sorted.totalCost).add stream.startupCost, sortTotal⟩
    else cost
  m.blendForLimit cost c.path.estRows query.limitCount

def optimize : Except String (Option Candidate) :=
  if query.relations.isEmpty then .error "Cannot optimize an empty query"
  else if 63 < query.relations.length then
    .error "Optimizer supports at most 63 base relations"
  else do
    let bases ← fillBases p query query.relations.zipIdx fun _ => none
    let table := (List.range' 2 (query.relations.length - 1)).foldl (fillSize p query) bases
    match table (2 ^ query.relations.length - 1) with
    | none => .error "Failed to build a complete plan. Query graph may be disconnected."
    | some candidates => .ok (leastBy (computeFinalCost p query) candidates)

end Model

section Pruning

variable {p : PlanEnumerator} {query : OptimizerQuery}

theorem lt_iff {x y : Double} :
    x.lt y = true ↔ x.isNaN = false ∧ y.isNaN = false ∧ x.scaled < y.scaled := by
  simp [Double.lt, and_assoc]

theorem atMost_iff {x y : Double} :
    atMost x y = true ↔ x.isNaN = false ∧ y.isNaN = false ∧ x.scaled ≤ y.scaled := by
  have compared : x.isNaN = false → y.isNaN = false →
      (y.lt x = false ↔ x.scaled ≤ y.scaled) := by
    intro left right
    rw [← Bool.not_eq_true, lt_iff]
    simp [left, right]
  rw [atMost, Bool.and_eq_true, Bool.and_eq_true, Bool.not_eq_true', Bool.not_eq_true',
    Bool.not_eq_true', and_assoc]
  constructor
  · rintro ⟨left, right, less⟩
    exact ⟨left, right, (compared left right).mp less⟩
  · rintro ⟨left, right, less⟩
    exact ⟨left, right, (compared left right).mpr less⟩

variable {c : Candidate} {α : Type} {bucket : List Candidate} {keep paths : List (Candidate × Nat)}
  {kept : Candidate × Nat}

theorem dominates_iff {other : Candidate} : dominates other c = true ↔
    atMost other.totalCost c.totalCost = true ∧ atMost other.startupCost c.startupCost = true ∧
      (other.totalCost.lt c.totalCost = true ∨ other.startupCost.lt c.startupCost = true) := by
  simp [dominates, and_assoc]

theorem not_dominates_self (c : Candidate) : dominates c c = false := by
  rw [← Bool.not_eq_true, dominates_iff, lt_iff, lt_iff]
  rintro ⟨-, -, ⟨-, -, less⟩ | ⟨-, -, less⟩⟩
  · exact lt_irrefl _ less
  · exact lt_irrefl _ less

theorem dominates_trans {a b : Candidate} (first : dominates a b = true)
    (second : dominates b c = true) : dominates a c = true := by
  rw [dominates_iff, atMost_iff, atMost_iff, lt_iff, lt_iff] at first second ⊢
  obtain ⟨⟨total, -, total₁⟩, ⟨startup, -, startup₁⟩, less⟩ := first
  obtain ⟨⟨-, total', total₂⟩, ⟨-, startup', startup₂⟩, -⟩ := second
  refine ⟨⟨total, total', by omega⟩, ⟨startup, startup', by omega⟩, ?_⟩
  rcases less with ⟨-, -, less⟩ | ⟨-, -, less⟩
  · exact .inl ⟨total, total', by omega⟩
  · exact .inr ⟨startup, startup', by omega⟩

theorem exists_unbeaten {r : α → α → Prop} (irrefl : ∀ a, ¬r a a)
    (trans : ∀ a b c, r a b → r b c → r a c) {items : List α} (nonempty : items ≠ []) :
    ∃ a ∈ items, ∀ b ∈ items, ¬r b a := by
  induction items with
  | nil => exact absurd rfl nonempty
  | cons a rest ih =>
    by_cases single : rest = []
    · subst single
      refine ⟨a, mem_cons_self, fun b member => ?_⟩
      rw [mem_singleton.mp member]
      exact irrefl a
    · obtain ⟨least, inRest, unbeaten⟩ := ih single
      by_cases beats : r a least
      · refine ⟨a, mem_cons_self, fun b member beaten => ?_⟩
        rcases mem_cons.mp member with rfl | later
        · exact irrefl b beaten
        · exact unbeaten b later (trans b a least beaten beats)
      · refine ⟨least, mem_cons_of_mem _ inRest, fun b member beaten => ?_⟩
        rcases mem_cons.mp member with rfl | later
        · exact beats beaten
        · exact unbeaten b later beaten

theorem nondominated_ne_nil (nonempty : bucket ≠ []) : nondominated bucket ≠ [] := by
  have indexed : bucket.zipIdx ≠ [] := by
    intro none
    have length := congrArg List.length none
    rw [List.length_zipIdx] at length
    exact nonempty (List.length_eq_zero_iff.mp length)
  obtain ⟨least, member, unbeaten⟩ := exists_unbeaten
    (r := fun other c : Candidate × Nat => dominates other.1 c.1 = true)
    (fun c self => by
      rw [not_dominates_self] at self
      cases self)
    (fun _ _ _ first second => dominates_trans first second) indexed
  refine List.ne_nil_of_mem (List.mem_filter.mpr ⟨member, ?_⟩)
  rw [Bool.not_eq_true', List.any_eq_false]
  intro other isOther beaten
  rw [Bool.and_eq_true] at beaten
  exact unbeaten other isOther beaten.2

theorem mem_nondominated {c : Candidate × Nat} (member : c ∈ nondominated bucket) : c.1 ∈ bucket :=
  (List.mem_zipIdx' (List.mem_filter.mp member).1).2 ▸ List.getElem_mem _

theorem leastBy_from (score : α → Double) (items : List α) (first : α) :
    ∃ least, items.foldl (fun best item =>
      match best with
      | none => some item
      | some least => if (score item).lt (score least) then some item else some least)
        (some first) = some least ∧ least ∈ first :: items := by
  induction items generalizing first with
  | nil => exact ⟨first, rfl, mem_cons_self⟩
  | cons item rest ih =>
    rw [List.foldl_cons]
    dsimp only
    split
    · obtain ⟨least, found, member⟩ := ih item
      exact ⟨least, found, mem_cons_of_mem _ member⟩
    · obtain ⟨least, found, member⟩ := ih first
      refine ⟨least, found, ?_⟩
      rcases mem_cons.mp member with rfl | later
      · exact mem_cons_self
      · exact mem_cons_of_mem _ (mem_cons_of_mem _ later)

theorem exists_leastBy (score : α → Double) {items : List α} (nonempty : items ≠ []) :
    ∃ least, leastBy score items = some least ∧ least ∈ items := by
  cases items with
  | nil => exact absurd rfl nonempty
  | cons first rest => exact leastBy_from score rest first

theorem subset_keepPath (keep : List (Candidate × Nat)) (c : Candidate × Nat) :
    keep ⊆ keepPath keep c := by
  rw [keepPath]
  split
  · exact List.Subset.refl _
  · exact List.subset_append_left _ _

theorem mem_keepPath {c : Candidate × Nat} (member : kept ∈ keepPath keep c) :
    kept ∈ keep ∨ kept = c := by
  rw [keepPath] at member
  split at member
  · exact .inl member
  · exact (List.mem_append.mp member).imp_right mem_singleton.mp

theorem subset_keepBest (paths : List (Candidate × Nat)) (pred : Candidate → Bool)
    (score : Candidate → Double) (keep : List (Candidate × Nat)) :
    keep ⊆ keepBest paths pred score keep := by
  rw [keepBest]
  split
  · exact List.Subset.refl _
  · exact subset_keepPath _ _

theorem mem_keepBest {pred : Candidate → Bool} {score : Candidate → Double}
    (member : kept ∈ keepBest paths pred score keep) : kept ∈ keep ∨ kept ∈ paths := by
  rw [keepBest] at member
  split at member
  · exact .inl member
  · rename_i best found
    rcases mem_keepPath member with old | rfl
    · exact .inl old
    · right
      have some_ : paths.filter (fun c => pred c.1) ≠ [] := by
        intro none
        rw [none] at found
        cases found
      obtain ⟨least, same, inPaths⟩ := exists_leastBy (fun c : Candidate × Nat => score c.1) some_
      rw [found] at same
      cases same
      exact (List.mem_filter.mp inPaths).1

theorem mem_bestByOrder {entry : String × (Candidate × Nat)}
    (member : entry ∈ bestByOrder p query paths) : entry.2 ∈ paths := by
  suffices from_ : ∀ (todo : List (Candidate × Nat)) (best : List (String × (Candidate × Nat))),
      (∀ old ∈ best, old.2 ∈ paths) → todo ⊆ paths →
      ∀ entry ∈ todo.foldl (fun best c =>
        if c.1.path.outputOrder.isEmpty then best
        else
          let sig := serializeOrder c.1.path.outputOrder
          match best.lookup sig with
          | none => best ++ [(sig, c)]
          | some old =>
            if (objective p query c.1).lt (objective p query old.1) then
              best.map fun entry => if entry.1 = sig then (sig, c) else entry
            else best) best, entry.2 ∈ paths from
    from_ paths [] (fun _ none => absurd none List.not_mem_nil) (List.Subset.refl _) entry member
  intro todo
  induction todo with
  | nil => exact fun best inside _ entry member => inside entry member
  | cons c rest ih =>
    intro best inside sub
    obtain ⟨isPath, subRest⟩ := List.cons_subset.mp sub
    rw [List.foldl_cons]
    refine ih _ ?_ subRest
    split
    · exact inside
    · dsimp only
      split
      · intro old isOld
        rcases List.mem_append.mp isOld with before | new
        · exact inside old before
        · rw [mem_singleton.mp new]
          exact isPath
      · split
        · intro old isOld
          obtain ⟨before, isBefore, same⟩ := List.mem_map.mp isOld
          split at same
          · rw [← same]
            exact isPath
          · rw [← same]
            exact inside before isBefore
        · exact inside

theorem mem_keepAll {entries : List (String × (Candidate × Nat))}
    (member : kept ∈ entries.foldl (fun keep entry => keepPath keep entry.2) keep) :
    kept ∈ keep ∨ ∃ entry ∈ entries, entry.2 = kept := by
  induction entries generalizing keep with
  | nil => exact .inl member
  | cons entry rest ih =>
    rcases ih member with before | ⟨later, isLater, same⟩
    · rcases mem_keepPath before with old | rfl
      · exact .inl old
      · exact .inr ⟨entry, mem_cons_self, rfl⟩
    · exact .inr ⟨later, mem_cons_of_mem _ isLater, same⟩

theorem subset_keepAll (entries : List (String × (Candidate × Nat)))
    (keep : List (Candidate × Nat)) :
    keep ⊆ entries.foldl (fun keep entry => keepPath keep entry.2) keep := by
  induction entries generalizing keep with
  | nil => exact List.Subset.refl _
  | cons entry rest ih => exact List.Subset.trans (subset_keepPath keep entry.2) (ih _)

theorem mem_addPrunedCandidate {candidate : Candidate}
    (member : c ∈ addPrunedCandidate p query bucket candidate) : c ∈ bucket ∨ c = candidate := by
  obtain ⟨kept, isKept, rfl⟩ := List.mem_map.mp member
  have fromPaths : kept ∈ nondominated (bucket ++ [candidate]) := by
    rcases mem_keepAll isKept with before | ⟨entry, isEntry, rfl⟩
    · rcases mem_keepBest before with before | inPaths
      · rcases mem_keepBest before with before | inPaths
        · rcases mem_keepBest before with before | inPaths
          · rcases mem_keepBest before with before | inPaths
            · rcases mem_keepBest before with none | inPaths
              · exact (List.not_mem_nil none).elim
              · exact inPaths
            · exact inPaths
          · exact inPaths
        · exact inPaths
      · exact inPaths
    · exact mem_bestByOrder ((p.iterates _).mem_iff.mp isEntry)
  rcases List.mem_append.mp (mem_nondominated fromPaths) with old | new
  · exact .inl old
  · exact .inr (mem_singleton.mp new)

theorem addPrunedCandidate_ne_nil (bucket : List Candidate) (candidate : Candidate) :
    addPrunedCandidate p query bucket candidate ≠ [] := by
  have paths : nondominated (bucket ++ [candidate]) ≠ [] := by
    apply nondominated_ne_nil
    simp
  have every : (nondominated (bucket ++ [candidate])).filter (fun _ => true) ≠ [] := by
    rw [List.filter_true]
    exact paths
  obtain ⟨least, found, -⟩ := exists_leastBy
    (fun c : Candidate × Nat => objective p query c.1) every
  have first : keepBest (nondominated (bucket ++ [candidate])) (fun _ => true)
      (objective p query) [] ≠ [] := by
    rw [keepBest, found]
    exact List.cons_ne_nil _ _
  obtain ⟨kept, isKept⟩ := List.exists_mem_of_ne_nil _ first
  refine List.ne_nil_of_mem (List.mem_map_of_mem (a := kept) ?_)
  apply subset_keepAll
  apply subset_keepBest
  apply subset_keepBest
  apply subset_keepBest
  apply subset_keepBest
  exact isKept

theorem mem_addAll {candidates : List Candidate} (member : c ∈ addAll p query bucket candidates) :
    c ∈ bucket ∨ c ∈ candidates := by
  induction candidates generalizing bucket with
  | nil => exact .inl member
  | cons candidate rest ih =>
    rcases ih member with pruned | later
    · rcases mem_addPrunedCandidate pruned with old | rfl
      · exact .inl old
      · exact .inr mem_cons_self
    · exact .inr (mem_cons_of_mem _ later)

theorem addAll_ne_nil {candidates : List Candidate} (nonempty : bucket ≠ [] ∨ candidates ≠ []) :
    addAll p query bucket candidates ≠ [] := by
  induction candidates generalizing bucket with
  | nil => exact nonempty.resolve_right fun absurd_ => absurd_ rfl
  | cons candidate rest ih => exact ih (.inl (addPrunedCandidate_ne_nil bucket candidate))

end Pruning

end GraniteDb.Optimizer.PlanSearch
