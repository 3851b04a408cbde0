/- The waits-for graph mirrors the grant test where it is built, and cycles are all found. -/

import GraniteDb.Concurrency.WakeUps
import GraniteDb.Lib.DepthFirst

namespace GraniteDb.Concurrency.DeadlockDetection

open Common.Value Concurrency.LockManager Concurrency.Notifications Concurrency.WakeUps
open Lib.DepthFirst
open Option (bind_eq_some_iff bind_some map_eq_some_iff)

/-- The entries of the graph, and the elements of each, in the order of iteration. -/
abbrev WaitsForGraph := List (Nat × List Nat)

def WaitsForGraph.waits (graph : WaitsForGraph) (u : Nat) : List Nat := (graph.lookup u).getD []

/-- `graph[t]`, followed by `graph[t].insert` for each of `ids`. -/
def WaitsForGraph.insert (t : Nat) (ids : List Nat) : WaitsForGraph → WaitsForGraph
  | [] => [(t, [] ∪ ids)]
  | (u, waits) :: rest =>
    if u = t then (u, waits ∪ ids) :: rest else (u, waits) :: WaitsForGraph.insert t ids rest

/-- The loop over the requests before `target`; `none` is an exception. -/
def waitsBefore (isTable : Bool) (target : LockRequest) : List LockRequest → Option (List Nat)
  | [] => some []
  | prev :: rest =>
    if prev.txnId = target.txnId then waitsBefore isTable target rest
    else
      (overlap prev.range target.range).bind fun overlaps =>
        (waitsBefore isTable target rest).map fun ids =>
          if !overlaps then ids
          else if !prev.granted then prev.txnId :: ids
          else if !compatible isTable target.mode prev.mode then prev.txnId :: ids
          else ids

/-- The loop over the requests after `target`. -/
def waitsAfter (isTable : Bool) (target : LockRequest) : List LockRequest → Option (List Nat)
  | [] => some []
  | later :: rest =>
    if later.txnId = target.txnId ∨ later.granted = false then waitsAfter isTable target rest
    else
      (overlap later.range target.range).bind fun overlaps =>
        (waitsAfter isTable target rest).map fun ids =>
          if !overlaps then ids
          else if !compatible isTable target.mode later.mode then later.txnId :: ids
          else ids

/-- The transactions inserted on account of one ungranted request. -/
def waitsOf (isTable : Bool) (c : Cursor) : Option (List Nat) :=
  (waitsBefore isTable c.request c.before).bind fun before =>
    (waitsAfter isTable c.request c.after).map fun after => before ++ after

/-- `process_queue` and `process_range_queue`, the requests `before` being done. -/
def processQueue (isTable : Bool) (graph : WaitsForGraph) (before : List LockRequest) :
    List LockRequest → Option WaitsForGraph
  | [] => some graph
  | r :: rest =>
    if r.granted then processQueue isTable graph (before ++ [r]) rest
    else
      (waitsOf isTable ⟨before, r, rest⟩).bind fun ids =>
        processQueue isTable (graph.insert r.txnId ids) (before ++ [r]) rest

abbrev LockTables := List (QueueId × LockRequestQueue)

/-- `BuildWaitsForGraphLocked`, from a graph on. -/
def buildFrom (graph : WaitsForGraph) : LockTables → Option WaitsForGraph
  | [] => some graph
  | (q, queue) :: rest =>
    (processQueue q.isTable graph [] queue.requests).bind fun graph' => buildFrom graph' rest

def buildWaitsForGraph (tables : LockTables) : Option WaitsForGraph := buildFrom [] tables

/-- The largest id from `cycle_begin` on. -/
def chosenVictim (stack : List Nat) (v : Nat) : Nat := (stack.dropWhile (· ≠ v)).foldl max v

def WaitsForGraph.ids (graph : WaitsForGraph) : List Nat :=
  graph.flatMap fun entry => entry.1 :: entry.2

/-- `DetectCycleVictimLocked`; `none` when the recursion is not over after as many levels as
there are transactions in the graph. -/
def detectCycleVictim (graph : WaitsForGraph) : Option (Option Nat) :=
  searchFrom graph.waits chosenVictim graph.ids.length Search.start (graph.map Prod.fst)

section Victims

variable {graph : WaitsForGraph}

/-- A victim is chosen exactly on the graphs with a cycle, the largest id on one. -/
def VictimExact (graph : WaitsForGraph) : Prop :=
  ∃ victim, detectCycleVictim graph = some victim ∧
    (victim.isSome = true ↔ ∃ t, Relation.TransGen (fun a b => b ∈ graph.waits a) t t) ∧
    ∀ t, victim = some t → ∃ cycle, IsCycle graph.waits cycle ∧ t ∈ cycle ∧ ∀ u ∈ cycle, u ≤ t

theorem waits_entry {u v : Nat} (edge : v ∈ graph.waits u) :
    ∃ ids, (u, ids) ∈ graph ∧ v ∈ ids := by
  rw [WaitsForGraph.waits] at edge
  cases found : graph.lookup u with
  | none => simp [found] at edge
  | some ids =>
    rw [found] at edge
    obtain ⟨before, after, split, -⟩ := List.lookup_eq_some_iff.mp found
    exact ⟨ids, by simp [split], edge⟩

theorem foldl_max (ids : List Nat) (first : Nat) :
    (ids.foldl max first = first ∨ ids.foldl max first ∈ ids) ∧ first ≤ ids.foldl max first ∧
      ∀ u ∈ ids, u ≤ ids.foldl max first := by
  induction ids generalizing first with
  | nil => simp
  | cons x rest ih =>
    obtain ⟨chosen, atLeast, largest⟩ := ih (max first x)
    simp only [List.foldl_cons]
    refine ⟨?_, by omega, ?_⟩
    · rcases chosen with same | member
      · rcases Nat.le_total first x with below | above
        · right
          rw [same, max_eq_right below]
          exact List.mem_cons_self
        · left
          rw [same, max_eq_left above]
      · exact .inr (List.mem_cons_of_mem _ member)
    · intro u member
      rcases List.mem_cons.mp member with rfl | later
      · omega
      · exact largest u later

theorem detectCycleVictim_exact (graph : WaitsForGraph) : VictimExact graph := by
  have closed : ∀ u ∈ graph.ids.toFinset, ∀ v ∈ graph.waits u, v ∈ graph.ids.toFinset := by
    intro u _ v edge
    obtain ⟨ids, entry, member⟩ := waits_entry edge
    rw [List.mem_toFinset, WaitsForGraph.ids, List.mem_flatMap]
    exact ⟨(u, ids), entry, List.mem_cons_of_mem _ member⟩
  have inside : ∀ u ∈ graph.map Prod.fst, u ∈ graph.ids.toFinset := by
    intro u root
    obtain ⟨entry, member, rfl⟩ := List.mem_map.mp root
    rw [List.mem_toFinset, WaitsForGraph.ids, List.mem_flatMap]
    exact ⟨entry, member, List.mem_cons_self⟩
  have covers : ∀ u, graph.waits u ≠ [] → u ∈ graph.map Prod.fst := by
    intro u nonempty
    obtain ⟨v, edge⟩ := List.exists_mem_of_ne_nil _ nonempty
    obtain ⟨ids, entry, -⟩ := waits_entry edge
    exact List.mem_map.mpr ⟨(u, ids), entry, rfl⟩
  rcases searchFrom_start chosenVictim closed inside covers
    (List.toFinset_card_le graph.ids) with
    ⟨t, found, stack, v, rest, victim, part, cycle⟩ | ⟨ended, acyclic⟩
  · refine ⟨some t, found, ?_, ?_⟩
    · simpa using cycle.cyclic
    · rintro _ ⟨⟩
      obtain ⟨chosen, atLeast, largest⟩ := foldl_max (v :: rest) v
      rw [chosenVictim, part] at victim
      rw [← victim] at chosen atLeast largest
      refine ⟨v :: rest, cycle, ?_, largest⟩
      rcases chosen with same | member
      · rw [same]
        exact List.mem_cons_self
      · exact member
  · refine ⟨none, ended, ?_, by simp⟩
    constructor
    · intro found
      cases found
    · rintro ⟨t, cyclic⟩
      exact absurd cyclic (acyclic t)

end Victims

section Waits

variable {isTable : Bool} {target : LockRequest}

variable {ids : List Nat} {requests : List LockRequest} {c : Cursor}

theorem waitsBefore_some (waits : waitsBefore isTable target requests = some ids) (u : Nat) :
    u ∈ ids ↔ ∃ b ∈ requests, b.txnId = u ∧ blocks isTable target true b = true := by
  induction requests generalizing ids with
  | nil =>
    cases waits
    simp
  | cons prev rest ih =>
    rw [waitsBefore] at waits
    by_cases mine : prev.txnId = target.txnId
    · rw [if_pos mine] at waits
      rw [ih waits]
      simp [blocks_iff, mine]
    · rw [if_neg mine, bind_eq_some_iff] at waits
      obtain ⟨overlaps, shared, waits⟩ := waits
      obtain ⟨ids', later, same⟩ := map_eq_some_iff.mp waits
      have apart : (prev.txnId != target.txnId) = true := by simpa using mine
      have here : blocks isTable target true prev =
          (overlaps && (!prev.granted || !compatible isTable target.mode prev.mode)) := by
        cases granted : prev.granted <;> simp [blocks, apart, shared, granted]
      rw [List.exists_mem_cons_iff, ← ih later, here, ← same]
      cases overlaps
      · simp
      · cases granted : prev.granted
        · simp [eq_comm]
        · cases passes : compatible isTable target.mode prev.mode <;> simp [eq_comm]

theorem waitsAfter_some (waits : waitsAfter isTable target requests = some ids) (u : Nat) :
    u ∈ ids ↔ ∃ b ∈ requests, b.txnId = u ∧ blocks isTable target false b = true := by
  induction requests generalizing ids with
  | nil =>
    cases waits
    simp
  | cons later rest ih =>
    rw [waitsAfter] at waits
    by_cases skipped : later.txnId = target.txnId ∨ later.granted = false
    · rw [if_pos skipped] at waits
      rw [ih waits]
      rcases skipped with mine | ungranted
      · simp [blocks_iff, mine]
      · simp [blocks_iff, ungranted]
    · rw [if_neg skipped, bind_eq_some_iff] at waits
      obtain ⟨overlaps, shared, waits⟩ := waits
      obtain ⟨ids', further, same⟩ := map_eq_some_iff.mp waits
      obtain ⟨mine, granted⟩ := not_or.mp skipped
      have apart : (later.txnId != target.txnId) = true := by simpa using mine
      have here : blocks isTable target false later =
          (overlaps && !compatible isTable target.mode later.mode) := by
        simp [blocks, apart, shared, granted]
      rw [List.exists_mem_cons_iff, ← ih further, here, ← same]
      cases overlaps
      · simp
      · cases passes : compatible isTable target.mode later.mode <;> simp [eq_comm]

theorem waitsBefore_isSome (isTable : Bool) :
    (waitsBefore isTable target requests).isSome = true ↔
      ∀ b ∈ requests, b.txnId ≠ target.txnId → overlap b.range target.range ≠ none := by
  induction requests with
  | nil => simp [waitsBefore]
  | cons prev rest ih =>
    rw [waitsBefore]
    by_cases mine : prev.txnId = target.txnId
    · simp [mine, ih]
    · cases shared : overlap prev.range target.range with
      | none => simp [mine, shared]
      | some overlaps => simp [mine, shared, ih]

theorem waitsAfter_isSome (isTable : Bool) :
    (waitsAfter isTable target requests).isSome = true ↔
      ∀ b ∈ requests, b.txnId ≠ target.txnId → b.granted = true →
        overlap b.range target.range ≠ none := by
  induction requests with
  | nil => simp [waitsAfter]
  | cons later rest ih =>
    rw [waitsAfter]
    by_cases skipped : later.txnId = target.txnId ∨ later.granted = false
    · rw [if_pos skipped, ih]
      rcases skipped with mine | ungranted
      · simp [mine]
      · simp [ungranted]
    · obtain ⟨mine, granted⟩ := not_or.mp skipped
      have granted : later.granted = true := by simpa using granted
      cases shared : overlap later.range target.range with
      | none => simp [mine, granted, shared]
      | some overlaps => simp [mine, granted, shared, ih]

def Compares (c : Cursor) : Prop :=
  (∀ b ∈ c.before, b.txnId ≠ c.request.txnId → overlap b.range c.request.range ≠ none) ∧
    ∀ b ∈ c.after, b.txnId ≠ c.request.txnId → b.granted = true →
      overlap b.range c.request.range ≠ none

theorem waitsOf_isSome (isTable : Bool) : (waitsOf isTable c).isSome = true ↔ Compares c := by
  rw [Compares, ← waitsBefore_isSome isTable, ← waitsAfter_isSome isTable]
  cases before : waitsBefore isTable c.request c.before with
  | none => simp [waitsOf, before]
  | some ids => simp [waitsOf, before]

theorem waitsOf_some (waits : waitsOf isTable c = some ids) (u : Nat) : u ∈ ids ↔
      (∃ b ∈ c.before, b.txnId = u ∧ blocks isTable c.request true b = true) ∨
        ∃ b ∈ c.after, b.txnId = u ∧ blocks isTable c.request false b = true := by
  obtain ⟨before, inserted, rest⟩ := bind_eq_some_iff.mp waits
  obtain ⟨after, inserted', same⟩ := map_eq_some_iff.mp rest
  rw [← same, List.mem_append, waitsBefore_some inserted, waitsAfter_some inserted']

theorem canGrantRequest_ne_none (compares : Compares c) : canGrantRequest isTable c ≠ none := by
  cases first : grantableBefore isTable c.request c.before with
  | none => exact absurd first (grantableBefore_ne_none compares.1)
  | some passes =>
    cases passes with
    | false => simp [canGrantRequest, first]
    | true => simpa [canGrantRequest, first] using grantableAfter_ne_none compares.2

theorem waitsOf_mirrors (waits : waitsOf isTable c = some ids) :
    ids ≠ [] ↔ canGrantRequest isTable c = some false := by
  have compares : Compares c := (waitsOf_isSome isTable).mp (by rw [waits]; rfl)
  have held : ids ≠ [] ↔ heldBack isTable c = true := by
    constructor
    · intro nonempty
      obtain ⟨u, member⟩ := List.exists_mem_of_ne_nil _ nonempty
      apply heldBack_iff.mpr
      rcases (waitsOf_some waits u).mp member with ⟨b, place, -, edge⟩ | ⟨b, place, -, edge⟩
      · exact .inl ⟨b, place, edge⟩
      · exact .inr ⟨b, place, edge⟩
    · intro held
      rcases heldBack_iff.mp held with ⟨b, place, edge⟩ | ⟨b, place, edge⟩
      · exact List.ne_nil_of_mem ((waitsOf_some waits b.txnId).mpr (.inl ⟨b, place, rfl, edge⟩))
      · exact List.ne_nil_of_mem ((waitsOf_some waits b.txnId).mpr (.inr ⟨b, place, rfl, edge⟩))
  rw [held]
  constructor
  · intro isHeld
    cases granted : canGrantRequest isTable c with
    | none => exact absurd granted (canGrantRequest_ne_none compares)
    | some grantable =>
      cases grantable with
      | false => rfl
      | true => exact absurd granted (not_grantable isHeld)
  · exact heldBack_of_false

end Waits

section Graph

@[simp] theorem waits_nil (a : Nat) : WaitsForGraph.waits [] a = [] := rfl

@[simp] theorem waits_cons (b a : Nat) (ids : List Nat) (graph : WaitsForGraph) :
    WaitsForGraph.waits ((b, ids) :: graph) a = if a = b then ids else graph.waits a := by
  by_cases same : a = b
  · simp [WaitsForGraph.waits, same]
  · have differs : (a == b) = false := by simpa using same
    simp [WaitsForGraph.waits, List.lookup_cons, same, differs]

theorem mem_insert (graph : WaitsForGraph) (t : Nat) (ids : List Nat) (a u : Nat) :
    u ∈ (graph.insert t ids).waits a ↔ u ∈ graph.waits a ∨ (a = t ∧ u ∈ ids) := by
  induction graph with
  | nil =>
    by_cases same : a = t
    · simp [WaitsForGraph.insert, same]
    · simp [WaitsForGraph.insert, same]
  | cons entry rest ih =>
    obtain ⟨b, waits⟩ := entry
    rw [WaitsForGraph.insert]
    by_cases here : b = t
    · by_cases same : a = t
      · simp [here, same]
      · simp [here, same]
    · rw [if_neg here, waits_cons, waits_cons]
      by_cases same : a = b
      · have apart : a ≠ t := same ▸ here
        simp [same, here]
      · simpa [same] using ih

/-- The graph has the edge from `t` to `u` on account of the request under the cursor. -/
def GivesEdge (isTable : Bool) (c : Cursor) (t u : Nat) : Prop :=
  c.request.granted = false ∧ c.request.txnId = t ∧
    ∃ ids, waitsOf isTable c = some ids ∧ u ∈ ids

theorem processQueue_isSome (isTable : Bool) (graph : WaitsForGraph)
    {before requests : List LockRequest} :
    (processQueue isTable graph before requests).isSome = true ↔
      ∀ c ∈ cursors before requests, c.request.granted = false → Compares c := by
  induction requests generalizing graph before with
  | nil => simp [processQueue, cursors]
  | cons r rest ih =>
    rw [processQueue, cursors, List.forall_mem_cons]
    cases granted : r.granted with
    | true =>
      rw [if_pos rfl, ih]
      simp
    | false =>
      rw [if_neg Bool.false_ne_true, ← waitsOf_isSome isTable]
      cases waits : waitsOf isTable ⟨before, r, rest⟩ with
      | none => simp
      | some ids =>
        rw [bind_some, ih]
        simp

variable {graph : WaitsForGraph}

theorem processQueue_edges {isTable : Bool} {graph' : WaitsForGraph}
    {before requests : List LockRequest}
    (built : processQueue isTable graph before requests = some graph') (t u : Nat) :
    u ∈ graph'.waits t ↔
      u ∈ graph.waits t ∨ ∃ c ∈ cursors before requests, GivesEdge isTable c t u := by
  induction requests generalizing graph before with
  | nil =>
    cases built
    simp [cursors]
  | cons r rest ih =>
    rw [processQueue] at built
    rw [cursors, List.exists_mem_cons_iff]
    cases granted : r.granted with
    | true =>
      rw [granted, if_pos rfl] at built
      rw [ih built]
      simp [GivesEdge, granted]
    | false =>
      rw [granted, if_neg Bool.false_ne_true, bind_eq_some_iff] at built
      obtain ⟨ids, waits, built⟩ := built
      have here : GivesEdge isTable ⟨before, r, rest⟩ t u ↔ t = r.txnId ∧ u ∈ ids := by
        simp [GivesEdge, granted, waits, eq_comm]
      rw [ih built, mem_insert, here, or_assoc]

theorem buildFrom_isSome {tables : LockTables} :
    (buildFrom graph tables).isSome = true ↔ ∀ entry ∈ tables,
      ∀ c ∈ cursors [] entry.2.requests, c.request.granted = false → Compares c := by
  induction tables generalizing graph with
  | nil => simp [buildFrom]
  | cons entry rest ih =>
    obtain ⟨q, queue⟩ := entry
    rw [buildFrom, List.forall_mem_cons,
      ← processQueue_isSome q.isTable graph]
    cases built : processQueue q.isTable graph [] queue.requests with
    | none => simp
    | some graph' =>
      rw [bind_some, ih]
      simp

theorem buildFrom_edges {graph' : WaitsForGraph} {tables : LockTables}
    (built : buildFrom graph tables = some graph') (t u : Nat) :
    u ∈ graph'.waits t ↔ u ∈ graph.waits t ∨ ∃ entry ∈ tables,
      ∃ c ∈ cursors [] entry.2.requests, GivesEdge entry.1.isTable c t u := by
  induction tables generalizing graph with
  | nil =>
    cases built
    simp
  | cons entry rest ih =>
    obtain ⟨q, queue⟩ := entry
    obtain ⟨graph₁, processed, built⟩ := bind_eq_some_iff.mp built
    rw [ih built, processQueue_edges processed, List.exists_mem_cons_iff, or_assoc]

end Graph

/-- The graph is built, its edges are those of the ungranted requests, and each request gives one
exactly when it cannot be granted. -/
def EdgesExact (tables : LockTables) : Prop :=
  ∃ graph, buildWaitsForGraph tables = some graph ∧
    (∀ t u, u ∈ graph.waits t ↔ ∃ entry ∈ tables, ∃ c,
      At entry.2.requests c ∧ GivesEdge entry.1.isTable c t u) ∧
    ∀ entry ∈ tables, ∀ c, At entry.2.requests c → c.request.granted = false →
      ((∃ u, GivesEdge entry.1.isTable c c.request.txnId u) ↔
        canGrantRequest entry.1.isTable c = some false)

/-- Every two bounds that the grant test and the graph may have to compare are comparable. -/
def ComparesAll (tables : LockTables) : Prop :=
  ∀ entry ∈ tables, ∀ c, At entry.2.requests c → c.request.granted = false → Compares c

theorem buildWaitsForGraph_isSome {tables : LockTables} :
    (buildWaitsForGraph tables).isSome = true ↔ ComparesAll tables := by
  rw [buildWaitsForGraph, buildFrom_isSome]
  simp only [mem_cursors_iff, ComparesAll]

theorem edgesExact_of_compares {tables : LockTables} (compares : ComparesAll tables) :
    EdgesExact tables := by
  obtain ⟨graph, built⟩ := Option.isSome_iff_exists.mp (buildWaitsForGraph_isSome.mpr compares)
  refine ⟨graph, built, ?_, ?_⟩
  · intro t u
    rw [buildFrom_edges built]
    simp [mem_cursors_iff]
  · intro entry member c here ungranted
    obtain ⟨ids, waits⟩ := Option.isSome_iff_exists.mp
      ((waitsOf_isSome entry.1.isTable).mpr (compares entry member c here ungranted))
    rw [← waitsOf_mirrors waits]
    constructor
    · rintro ⟨u, -, -, ids', waits', edge⟩
      rw [waits] at waits'
      cases waits'
      exact List.ne_nil_of_mem edge
    · intro nonempty
      obtain ⟨u, edge⟩ := List.exists_mem_of_ne_nil _ nonempty
      exact ⟨u, ungranted, rfl, ids, waits, edge⟩

theorem detection_exact_iff (tables : LockTables) :
    (EdgesExact tables ∧ ∀ graph, VictimExact graph) ↔ ComparesAll tables := by
  constructor
  · rintro ⟨⟨graph, built, -⟩, -⟩
    apply buildWaitsForGraph_isSome.mp
    rw [built]
    rfl
  · intro compares
    exact ⟨edgesExact_of_compares compares, detectCycleVictim_exact⟩

/-- A request whose bounds are NULL, which its call has left in the queue when comparing them
failed, between a granted request and one that waits for that. -/
def nullBounds : LockTables :=
  let key (v : Value) : Option KeyRange := some ⟨some [v], some [v], true, true⟩
  [(.keyRange 8, ⟨[⟨1, .x, true, key (.boolean true)⟩, ⟨2, .x, false, key (.null .boolean)⟩,
    ⟨3, .x, false, key (.boolean true)⟩], none⟩)]

/-- The third request cannot be granted, and there is no graph to have an edge for it. -/
theorem not_edgesExact_nullBounds :
    ¬ (EdgesExact nullBounds ∧ ∀ graph, VictimExact graph) ∧
      buildWaitsForGraph nullBounds = none ∧
      ∃ entry ∈ nullBounds, ∃ c, At entry.2.requests c ∧ c.request.txnId = 3 ∧
        c.request.granted = false ∧ canGrantRequest entry.1.isTable c = some false := by
  have fails : buildWaitsForGraph nullBounds = none := by decide
  refine ⟨?_, fails, (nullBounds.head (by decide)), by simp, ?_⟩
  · rintro ⟨⟨graph, built, -⟩, -⟩
    rw [fails] at built
    cases built
  · exact ⟨⟨(nullBounds.head (by decide)).2.requests.take 2,
      ⟨3, .x, false, some ⟨some [.boolean true], some [.boolean true], true, true⟩⟩, []⟩, rfl, rfl, rfl,
      by decide⟩

end GraniteDb.Concurrency.DeadlockDetection
