/- The worker's loop over victims ends exactly when every cycle's largest id can be aborted. -/

import GraniteDb.Concurrency.DeadlockDetection
import Mathlib.Algebra.Order.BigOperators.Group.List

namespace GraniteDb.Concurrency.DeadlockWorker

open Concurrency.LockManager Concurrency.Notifications Concurrency.DeadlockDetection Lib.DepthFirst
open List (mem_map not_mem_nil map_map map_cons mem_cons_self)
open Function (update)

/-- What the worker sees under the latch. `queueIds` is the order in which the lock tables are
gone through, `registered` the keys of `txn_table_`. -/
structure Detector where
  locks : LockState
  queueIds : List QueueId
  registered : Nat → Bool

def Detector.tables (d : Detector) : LockTables := d.queueIds.map fun q => (q, d.locks.queues q)

def abortVictimLocked (d : Detector) (t : Nat) : Detector :=
  if d.registered t then { d with locks := abortVictim d.locks t } else d

/-- The inner loop of `DeadlockWorker`, with the victims it has collected. `order i` is the order in
which the `i`-th graph is gone through; `none` is an exception, or the loop is not over yet. -/
def innerLoop (order : Nat → WaitsForGraph → WaitsForGraph) :
    Nat → Nat → Detector → List Nat → Option (Detector × List Nat)
  | 0, _, _, _ => none
  | fuel + 1, i, d, victims =>
    (buildWaitsForGraph d.tables).bind fun graph =>
      (detectCycleVictim (order i graph)).bind fun
        | none => some (d, victims)
        | some t =>
          innerLoop order fuel (i + 1) (abortVictimLocked d t)
            (if d.registered t then victims ++ [t] else victims)

def SameMap (graph graph' : WaitsForGraph) : Prop :=
  (graph'.map Prod.fst).Perm (graph.map Prod.fst) ∧
    ∀ u, (graph'.waits u).Perm (graph.waits u)

def Acyclic (graph : WaitsForGraph) : Prop :=
  ∀ t, ¬Relation.TransGen (fun a b => b ∈ graph.waits a) t t

/-- In whatever orders the hash tables are gone through, the loop comes to an end, and no cycle is
left. -/
def PassEnds (d : Detector) : Prop :=
  ∀ order : Nat → WaitsForGraph → WaitsForGraph, (∀ i graph, SameMap graph (order i graph)) →
    ∃ fuel d' victims graph, innerLoop order fuel 0 d [] = some (d', victims) ∧
      buildWaitsForGraph d'.tables = some graph ∧ Acyclic graph

def Abortable (d : Detector) (t : Nat) : Prop :=
  d.registered t = true ∧ ¬(d.locks.txnState t = .committed ∨ d.locks.txnState t = .aborted ∨
    d.locks.txnState t = .aborting)

/-- On every cycle the largest id is that of a transaction that can still be aborted. -/
def Breakable (d : Detector) : Prop :=
  ∀ graph, buildWaitsForGraph d.tables = some graph → ∀ cycle, IsCycle graph.waits cycle →
    ∀ t ∈ cycle, (∀ u ∈ cycle, u ≤ t) → Abortable d t

/-- The queues after a step: a lock function makes an entry for its own if there is none. -/
def openQueue (d : Detector) : Label → List QueueId
  | .enqueue t =>
    match d.locks.calls t with
    | some call => d.queueIds.insert call.queue
    | none => d.queueIds
  | _ => d.queueIds

/-- The states of the lock manager, with the transactions that are registered. A table may be gone
through in another order after a step. -/
inductive Reachable : Detector → Prop
  | start : Reachable ⟨.empty, [], fun _ => false⟩
  | registerTransaction {d : Detector} (t : Nat) : Reachable d →
      Reachable { d with registered := update d.registered t true }
  | unregisterTransaction {d : Detector} (t : Nat) : Reachable d →
      Reachable { d with registered := update d.registered t false }
  | step {d : Detector} {locks : LockState} (label : Label) (queueIds : List QueueId) :
      Reachable d → step d.locks label = some locks →
      queueIds.Perm (openQueue d label) →
      Reachable { d with locks := locks, queueIds := queueIds }

section Victims

variable {d : Detector} {t : Nat}

theorem abortVictimLocked_stuck (stuck : ¬Abortable d t) : abortVictimLocked d t = d := by
  rw [abortVictimLocked]
  split
  · rename_i known
    have done : d.locks.txnState t = .committed ∨ d.locks.txnState t = .aborted ∨
        d.locks.txnState t = .aborting := by
      by_contra goesOn
      exact stuck ⟨known, goesOn⟩
    rw [abortVictim, if_pos done]
  · rfl

theorem abortVictimLocked_tables (abortable : Abortable d t) :
    (abortVictimLocked d t).tables =
      d.tables.map fun entry => (entry.1, removeUngranted t entry.2) := by
  rw [abortVictimLocked, if_pos abortable.1, abortVictim, if_neg abortable.2, Detector.tables,
    Detector.tables, map_map]
  rfl

theorem Abortable.after_other {u : Nat} (other : u ≠ t) (abortable : Abortable d u) :
    Abortable (abortVictimLocked d t) u := by
  by_cases victim : Abortable d t
  · rw [abortVictimLocked, if_pos victim.1, abortVictim, if_neg victim.2]
    refine ⟨abortable.1, ?_⟩
    show ¬(update d.locks.txnState t _ u = _ ∨ update d.locks.txnState t _ u = _ ∨
      update d.locks.txnState t _ u = _)
    rw [Function.update_of_ne other]
    exact abortable.2
  · rw [abortVictimLocked_stuck victim]
    exact abortable

end Victims

section Shrinking

variable {tables : LockTables} {t : Nat}

theorem at_of_filter {requests : List LockRequest} {keep : LockRequest → Bool} {c' : Cursor}
    (here : At (requests.filter keep) c') : ∃ c, At requests c ∧ c.request = c'.request ∧
      (∀ b ∈ c'.before, b ∈ c.before) ∧ (∀ b ∈ c'.after, b ∈ c.after) ∧
        keep c'.request = true := by
  obtain ⟨before, rest, whole, sameBefore, isRest⟩ := List.filter_eq_append_iff.mp here
  obtain ⟨skipped, after, split, -, kept, sameAfter⟩ := List.filter_eq_cons_iff.mp isRest
  refine ⟨⟨before ++ skipped, c'.request, after⟩, ?_, rfl, ?_, ?_, kept⟩
  · rw [At, whole, split, List.append_assoc]
  · intro b member
    rw [← sameBefore] at member
    exact List.mem_append_left _ (List.mem_filter.mp member).1
  · intro b member
    rw [← sameAfter] at member
    exact (List.mem_filter.mp member).1

def without (t : Nat) (tables : LockTables) : LockTables :=
  tables.map fun entry => (entry.1, removeUngranted t entry.2)

theorem compares_without (compares : ComparesAll tables) : ComparesAll (without t tables) := by
  intro entry member c' here ungranted
  obtain ⟨old, isOld, rfl⟩ := mem_map.mp member
  obtain ⟨c, place, same, before, after, -⟩ := at_of_filter here
  obtain ⟨compares, compares'⟩ := compares old isOld c place (by rw [same]; exact ungranted)
  rw [same] at compares compares'
  exact ⟨fun b inFront => compares b (before b inFront),
    fun b behind => compares' b (after b behind)⟩

variable {u : Nat}

theorem givesEdge_of_filter {isTable : Bool} {c c' : Cursor} {v : Nat}
    (gives : GivesEdge isTable c' u v) (same : c.request = c'.request)
    (before : ∀ b ∈ c'.before, b ∈ c.before) (after : ∀ b ∈ c'.after, b ∈ c.after)
    (compares : Compares c) : GivesEdge isTable c u v := by
  obtain ⟨ungranted, mine, ids, waits, member⟩ := gives
  obtain ⟨ids', waits'⟩ := Option.isSome_iff_exists.mp ((waitsOf_isSome isTable).mpr compares)
  refine ⟨same ▸ ungranted, same ▸ mine, ids', waits', (waitsOf_some waits' v).mpr ?_⟩
  rw [same]
  rcases (waitsOf_some waits v).mp member with ⟨b, place, edge⟩ | ⟨b, place, edge⟩
  · exact .inl ⟨b, before b place, edge⟩
  · exact .inr ⟨b, after b place, edge⟩

theorem edge_without {graph graph' : WaitsForGraph} (compares : ComparesAll tables)
    (built : buildWaitsForGraph tables = some graph)
    (built' : buildWaitsForGraph (without t tables) = some graph') {v : Nat}
    (edge : v ∈ graph'.waits u) : v ∈ graph.waits u ∧ u ≠ t := by
  rcases (buildFrom_edges built' u v).mp edge with none | ⟨entry, member, c', place, gives⟩
  · exact (not_mem_nil none).elim
  obtain ⟨old, isOld, rfl⟩ := mem_map.mp member
  obtain ⟨c, place', same, before, after, kept⟩ := at_of_filter (mem_cursors_iff.mp place)
  have ungranted : c.request.granted = false := by
    rw [same]
    exact gives.1
  constructor
  · refine (buildFrom_edges built u v).mpr (.inr ⟨old, isOld, c, mem_cursors_iff.mpr place', ?_⟩)
    exact givesEdge_of_filter gives same before after (compares old isOld c place' ungranted)
  · rintro rfl
    have dropped : ((c'.request.txnId == u) && !c'.request.granted) = true := by
      rw [gives.1, gives.2.1]
      simp
    rw [dropped] at kept
    cases kept

def waiting (tables : LockTables) : Nat :=
  (tables.map fun entry => entry.2.requests.countP fun r => !r.granted).sum

theorem countP_removeUngranted_le (t : Nat) (queue : LockRequestQueue) :
    (removeUngranted t queue).requests.countP (fun r => !r.granted) ≤
      queue.requests.countP fun r => !r.granted :=
  List.Sublist.countP_le List.filter_sublist

theorem countP_removeUngranted_lt {queue : LockRequestQueue} {c : Cursor}
    (here : At queue.requests c) (mine : c.request.txnId = t) (waits : c.request.granted = false) :
    (removeUngranted t queue).requests.countP (fun r => !r.granted) <
      queue.requests.countP fun r => !r.granted := by
  have dropped : ¬(!(c.request.txnId == t && !c.request.granted)) = true := by simp [mine, waits]
  have counted : (!c.request.granted) = true := by simp [waits]
  have before : (c.before.filter fun r => !(r.txnId == t && !r.granted)).countP
      (fun r => !r.granted) ≤ c.before.countP fun r => !r.granted :=
    List.Sublist.countP_le List.filter_sublist
  have after : (c.after.filter fun r => !(r.txnId == t && !r.granted)).countP
      (fun r => !r.granted) ≤ c.after.countP fun r => !r.granted :=
    List.Sublist.countP_le List.filter_sublist
  have skipped : (c.request :: c.after).filter (fun r => !(r.txnId == t && !r.granted)) =
      c.after.filter fun r => !(r.txnId == t && !r.granted) := List.filter_cons_of_neg dropped
  have one : (c.request :: c.after).countP (fun r => !r.granted) =
      c.after.countP (fun r => !r.granted) + 1 := List.countP_cons_of_pos counted
  show (queue.requests.filter _).countP _ < _
  rw [here, List.filter_append, skipped, List.countP_append, List.countP_append, one]
  omega

theorem waiting_without {graph : WaitsForGraph} (built : buildWaitsForGraph tables = some graph)
    (edge : u ∈ graph.waits t) : waiting (without t tables) < waiting tables := by
  rcases (buildFrom_edges built t u).mp edge with none | ⟨entry, member, c, place, gives⟩
  · exact (not_mem_nil none).elim
  rw [waiting, waiting, without, map_map]
  refine List.sum_lt_sum _ _ (fun old _ => countP_removeUngranted_le t old.2) ⟨entry, member, ?_⟩
  exact countP_removeUngranted_lt (mem_cursors_iff.mp place) gives.2.1 gives.1

end Shrinking

section Ending

variable {d : Detector}

variable {graph' graph : WaitsForGraph}

theorem SameMap.mem (same : SameMap graph graph') (u v : Nat) :
    v ∈ graph'.waits u ↔ v ∈ graph.waits u := (same.2 u).mem_iff

theorem SameMap.relation (same : SameMap graph graph') :
    (fun a b => b ∈ graph'.waits a) = fun a b => b ∈ graph.waits a := by
  funext a b
  exact propext (same.mem a b)

theorem SameMap.isCycle (same : SameMap graph graph') {cycle : List Nat}
    (closed : IsCycle graph'.waits cycle) : IsCycle graph.waits cycle := by
  obtain ⟨chain, first, last, head, tail, edge⟩ := closed
  rw [same.relation] at chain
  exact ⟨chain, first, last, head, tail, (same.mem last first).mp edge⟩

theorem Breakable.after_victim {t : Nat} (compares : ComparesAll d.tables)
    (breakable : Breakable d) (abortable : Abortable d t) :
    Breakable (abortVictimLocked d t) := by
  obtain ⟨graph, built⟩ := Option.isSome_iff_exists.mp (buildWaitsForGraph_isSome.mpr compares)
  intro graph' built' cycle closed u member largest
  rw [abortVictimLocked_tables abortable] at built'
  have edges := fun {a b : Nat} (edge : b ∈ graph'.waits a) => edge_without compares built built' edge
  obtain ⟨v, -, edge⟩ := closed.exists_edge member
  have before : IsCycle graph.waits cycle := by
    obtain ⟨chain, first, last, head, tail, closing⟩ := closed
    exact ⟨chain.imp fun _ _ step => (edges step).1, first, last, head, tail, (edges closing).1⟩
  exact (breakable graph built cycle before u member largest).after_other (edges edge).2

theorem innerLoop_ends {order : Nat → WaitsForGraph → WaitsForGraph}
    (orders : ∀ i graph, SameMap graph (order i graph)) (i : Nat) (victims : List Nat)
    (compares : ComparesAll d.tables) (breakable : Breakable d) :
    ∃ fuel d' victims' graph, innerLoop order fuel i d victims = some (d', victims') ∧
      buildWaitsForGraph d'.tables = some graph ∧ Acyclic graph := by
  induction left : waiting d.tables using Nat.strong_induction_on generalizing d i victims with
  | _ n ih =>
    obtain ⟨graph, built⟩ := Option.isSome_iff_exists.mp (buildWaitsForGraph_isSome.mpr compares)
    obtain ⟨victim, detected, cyclic, largest⟩ := detectCycleVictim_exact (order i graph)
    cases victim with
    | none =>
      refine ⟨1, d, victims, graph, ?_, built, ?_⟩
      · simp [innerLoop, built, detected]
      · intro t cycle
        rw [← (orders i graph).relation] at cycle
        exact Bool.false_ne_true (cyclic.mpr ⟨t, cycle⟩)
    | some t =>
      obtain ⟨cycle, closed, member, atMost⟩ := largest t rfl
      have before : IsCycle graph.waits cycle := (orders i graph).isCycle closed
      have abortable : Abortable d t := breakable graph built cycle before t member atMost
      obtain ⟨u, -, edge⟩ := before.exists_edge member
      have tables := abortVictimLocked_tables abortable
      have fewer : waiting (abortVictimLocked d t).tables < n := by
        rw [tables, ← left]
        exact waiting_without built edge
      have compares' : ComparesAll (abortVictimLocked d t).tables := by
        rw [tables]
        exact compares_without compares
      obtain ⟨fuel, d', victims', graph', ran, ended⟩ := ih _ fewer (i + 1)
        (if d.registered t then victims ++ [t] else victims) compares'
        (breakable.after_victim compares abortable) rfl
      refine ⟨fuel + 1, d', victims', graph', ?_, ended⟩
      rw [innerLoop, built, Option.bind_some, detected]
      exact ran

end Ending

def toFront (v : Nat) (ids : List Nat) : List Nat := if v ∈ ids then v :: ids.erase v else ids

theorem toFront_perm (v : Nat) (ids : List Nat) : (toFront v ids).Perm ids := by
  rw [toFront]
  split
  · rename_i member
    exact (List.perm_cons_erase member).symm
  · exact .refl _

theorem toFront_head {v : Nat} {ids : List Nat} (member : v ∈ ids) :
    (toFront v ids).head? = some v := by
  rw [toFront, if_pos member]
  rfl

/-- The graph with the entry of `u` moved to the front. -/
def entryFirst (u : Nat) (graph : WaitsForGraph) : WaitsForGraph :=
  graph.filter (fun entry => entry.1 = u) ++ graph.filter fun entry => !decide (entry.1 = u)

theorem waits_filter (keep : Nat → Bool) (graph : WaitsForGraph) (u : Nat) :
    WaitsForGraph.waits (graph.filter fun entry => keep entry.1) u =
      if keep u then graph.waits u else [] := by
  induction graph with
  | nil => simp
  | cons entry rest ih =>
    obtain ⟨v, ids⟩ := entry
    rw [List.filter_cons]
    by_cases same : u = v
    · subst same
      split
      · simp
      · rename_i dropped
        rw [ih, if_neg dropped]
    · split
      · rw [waits_cons, waits_cons, if_neg same, if_neg same, ih]
      · rw [waits_cons, if_neg same, ih]

theorem waits_append (first second : WaitsForGraph) (u : Nat) :
    WaitsForGraph.waits (first ++ second) u =
      if u ∈ first.map Prod.fst then first.waits u else second.waits u := by
  induction first with
  | nil => simp
  | cons entry rest ih =>
    obtain ⟨v, ids⟩ := entry
    rw [List.cons_append, waits_cons, waits_cons, ih, map_cons]
    by_cases same : u = v
    · simp [same]
    · simp only [same, if_false, List.mem_cons, false_or]

variable {graph : WaitsForGraph}

theorem waits_of_not_key {u : Nat} (absent : u ∉ graph.map Prod.fst) :
    graph.waits u = [] := by
  by_contra nonempty
  obtain ⟨v, edge⟩ := List.exists_mem_of_ne_nil _ nonempty
  obtain ⟨ids, entry, -⟩ := waits_entry edge
  exact absent (mem_map.mpr ⟨(u, ids), entry, rfl⟩)

theorem entryFirst_waits (u v : Nat) (graph : WaitsForGraph) :
    (entryFirst u graph).waits v = graph.waits v := by
  rw [entryFirst, waits_append, waits_filter (fun key => decide (key = u)),
    waits_filter fun key => !decide (key = u)]
  by_cases same : v = u
  · subst same
    split
    · simp
    · rename_i absent
      have notKey : v ∉ graph.map Prod.fst := by
        intro member
        obtain ⟨entry, isEntry, rfl⟩ := mem_map.mp member
        exact absent (mem_map.mpr ⟨entry, List.mem_filter.mpr ⟨isEntry, by simp⟩, rfl⟩)
      simp [waits_of_not_key notKey]
  · have elsewhere : v ∉ (graph.filter fun entry => entry.1 = u).map Prod.fst := by
      intro member
      obtain ⟨entry, isEntry, rfl⟩ := mem_map.mp member
      exact same (of_decide_eq_true (List.mem_filter.mp isEntry).2)
    rw [if_neg elsewhere]
    simp [same]

theorem entryFirst_perm (u : Nat) (graph : WaitsForGraph) : (entryFirst u graph).Perm graph :=
  List.filter_append_perm _ graph

theorem entryFirst_keys {u : Nat} (member : u ∈ graph.map Prod.fst) :
    ∃ others, (entryFirst u graph).map Prod.fst = u :: others := by
  obtain ⟨entry, isEntry, rfl⟩ := mem_map.mp member
  cases found : graph.filter fun other => other.1 = entry.1 with
  | nil =>
    have kept : entry ∈ graph.filter fun other => other.1 = entry.1 :=
      List.mem_filter.mpr ⟨isEntry, decide_eq_true rfl⟩
    rw [found] at kept
    exact (not_mem_nil kept).elim
  | cons other rest =>
    have kept : other ∈ graph.filter fun other => other.1 = entry.1 := by
      rw [found]
      exact mem_cons_self
    have same : other.1 = entry.1 := of_decide_eq_true (List.mem_filter.mp kept).2
    rw [entryFirst, found, List.cons_append, map_cons, same]
    exact ⟨_, rfl⟩

theorem waits_map (f : Nat → List Nat → List Nat) (none : ∀ u, f u [] = []) (u : Nat)
    (graph : WaitsForGraph) :
    WaitsForGraph.waits (graph.map fun entry => (entry.1, f entry.1 entry.2)) u =
      f u (graph.waits u) := by
  induction graph with
  | nil => exact (none u).symm
  | cons entry rest ih =>
    obtain ⟨v, ids⟩ := entry
    rw [map_cons, waits_cons, waits_cons, ih]
    by_cases same : u = v
    · rw [if_pos same, if_pos same, same]
    · rw [if_neg same, if_neg same]

def along (first : Nat) (succ : Nat → Nat) (graph : WaitsForGraph) : WaitsForGraph :=
  entryFirst first (graph.map fun entry => (entry.1, toFront (succ entry.1) entry.2))

theorem along_waits (first : Nat) (succ : Nat → Nat) (graph : WaitsForGraph) (u : Nat) :
    (along first succ graph).waits u = toFront (succ u) (graph.waits u) := by
  rw [along, entryFirst_waits]
  exact waits_map (fun u ids => toFront (succ u) ids) (fun _ => rfl) u graph

theorem along_sameMap (first : Nat) (succ : Nat → Nat) (graph : WaitsForGraph) :
    SameMap graph (along first succ graph) := by
  constructor
  · have keys := (entryFirst_perm first
      (graph.map fun entry => (entry.1, toFront (succ entry.1) entry.2))).map Prod.fst
    rw [map_map] at keys
    exact keys
  · intro u
    rw [along_waits]
    exact toFront_perm _ _

section Stuck

variable {d : Detector}

theorem innerLoop_stuck {order : Nat → WaitsForGraph → WaitsForGraph}
    (built : buildWaitsForGraph d.tables = some graph)
    (stuck : ∀ i, ∃ t, detectCycleVictim (order i graph) = some (some t) ∧ ¬Abortable d t)
    (fuel i : Nat) (victims : List Nat) : innerLoop order fuel i d victims = none := by
  induction fuel generalizing i victims with
  | zero => rfl
  | succ fuel ih =>
    obtain ⟨t, detected, cannot⟩ := stuck i
    rw [innerLoop, built, Option.bind_some, detected]
    show innerLoop order fuel (i + 1) (abortVictimLocked d t) _ = none
    rw [abortVictimLocked_stuck cannot]
    exact ih _ _

theorem foldl_max_eq {ids : List Nat} {first t : Nat} (member : t ∈ first :: ids)
    (largest : ∀ u ∈ first :: ids, u ≤ t) : (first :: ids).foldl max first = t := by
  obtain ⟨chosen, -, above⟩ := foldl_max (first :: ids) first
  have atLeast := above t member
  have atMost : (first :: ids).foldl max first ≤ t := by
    rcases chosen with same | isMember
    · rw [same]
      exact largest first mem_cons_self
    · exact largest _ isMember
  omega

theorem exists_order {first : Nat} {rest : List Nat} (closed : IsCycle graph.waits (first :: rest))
    (nodup : (first :: rest).Nodup) {t : Nat} (member : t ∈ first :: rest)
    (largest : ∀ u ∈ first :: rest, u ≤ t) :
    ∃ succ, detectCycleVictim (along first succ graph) = some (some t) := by
  obtain ⟨chain, first', last, head, tail, edge⟩ := id closed
  cases head
  obtain ⟨succ, follows, closes⟩ : ∃ succ : Nat → Nat,
      (first :: rest).IsChain (fun a b => succ a = b ∧ b ∈ graph.waits a) ∧
        ∀ last, (first :: rest).getLast? = some last → succ last = first :=
    exists_successor rest chain nodup
  refine ⟨succ, ?_⟩
  have edges : ∀ u ∈ first :: rest, ∃ v, v ∈ (along first succ graph).waits u := by
    intro u isNode
    obtain ⟨v, -, step⟩ := closed.exists_edge isNode
    exact ⟨v, ((along_sameMap first succ graph).mem u v).mpr step⟩
  have keys : ∀ u ∈ first :: rest, u ∈ (along first succ graph).ids := by
    intro u isNode
    obtain ⟨v, step⟩ := edges u isNode
    obtain ⟨ids, entry, -⟩ := waits_entry step
    exact List.mem_flatMap.mpr ⟨(u, ids), entry, mem_cons_self⟩
  have enough := (List.subperm_of_subset nodup keys).length_le
  have isKey : first ∈ (graph.map fun entry =>
      (entry.1, toFront (succ entry.1) entry.2)).map Prod.fst := by
    obtain ⟨v, -, step⟩ := closed.exists_edge mem_cons_self
    obtain ⟨ids, entry, -⟩ := waits_entry step
    rw [map_map]
    exact mem_map.mpr ⟨(first, ids), entry, rfl⟩
  obtain ⟨others, roots⟩ : ∃ others, (along first succ graph).map Prod.fst = first :: others :=
    entryFirst_keys isKey
  have leads : (first :: rest).IsChain fun a b =>
      ((along first succ graph).waits a).head? = some b := by
    refine follows.imp fun a b step => ?_
    rw [along_waits, step.1]
    exact toFront_head step.2
  have returns : ∀ last', (first :: rest).getLast? = some last' →
      ((along first succ graph).waits last').head? = some first := by
    intro last' isLast
    rw [tail] at isLast
    cases isLast
    rw [along_waits, closes last tail]
    exact toFront_head edge
  rw [detectCycleVictim, roots, searchFrom_follows leads returns nodup]
  · have whole : (first :: rest).dropWhile (· ≠ first) = first :: rest :=
      List.dropWhile_cons_of_neg (by simp)
    rw [chosenVictim, whole, foldl_max_eq member largest]
  · rw [List.length_cons] at enough
    omega

end Stuck

/-- The pass ends without a cycle exactly when the bounds of the waiting requests are comparable and
the largest id on every cycle can be aborted. -/
theorem passEnds_iff (d : Detector) : PassEnds d ↔ ComparesAll d.tables ∧ Breakable d := by
  constructor
  · intro ends
    constructor
    · obtain ⟨fuel, d', victims, graph, ran, -⟩ := ends (fun _ graph => graph)
        fun _ graph => ⟨.refl _, fun _ => .refl _⟩
      apply buildWaitsForGraph_isSome.mp
      cases fuel with
      | zero => cases ran
      | succ fuel =>
        obtain ⟨built, isBuilt, -⟩ := Option.bind_eq_some_iff.mp ran
        rw [isBuilt]
        rfl
    · intro graph built cycle closed t member largest
      by_contra cannot
      obtain ⟨simple, isCycle, nodup, inSimple, within⟩ := closed.exists_nodup member
      cases simple with
      | nil => exact (not_mem_nil inSimple).elim
      | cons first rest =>
        obtain ⟨succ, detected⟩ := exists_order isCycle nodup inSimple
          fun u isNode => largest u (within u isNode)
        obtain ⟨fuel, d', victims, graph', ran, -⟩ := ends (fun _ => along first succ)
          fun _ graph => along_sameMap first succ graph
        rw [innerLoop_stuck built (fun _ => ⟨t, detected, cannot⟩)] at ran
        cases ran
  · rintro ⟨compares, breakable⟩ order orders
    exact innerLoop_ends orders 0 [] compares breakable

def run : List Label → Detector → Option Detector
  | [], d => some d
  | label :: rest, d =>
    (step d.locks label).bind fun locks =>
      run rest { d with locks := locks, queueIds := openQueue d label }

theorem Reachable.run {labels : List Label} {d d' : Detector} (reachable : Reachable d)
    (ran : DeadlockWorker.run labels d = some d') : Reachable d' := by
  induction labels generalizing d with
  | nil =>
    cases ran
    exact reachable
  | cons label rest ih =>
    obtain ⟨locks, stepped, ran⟩ := Option.bind_eq_some_iff.mp ran
    exact ih (.step label _ reachable stepped (.refl _)) ran

def twoBegun : Detector := ⟨.empty, [], update (update (fun _ => false) 1 true) 2 true⟩

theorem twoBegun_reachable : Reachable twoBegun :=
  .registerTransaction 2 (.registerTransaction 1 .start)

/-- Each of two transactions has one of two tables and waits for the other; then `Abort` is called
for the second one by another thread. -/
def crossing : List Label :=
  let lock (t relationId : Nat) : List Label :=
    [.call t (.table relationId) none .x, .prepare t, .enqueue t]
  lock 1 10 ++ lock 2 20 ++ lock 1 20 ++ lock 2 10 ++ [.tryMarkAborting 2]

theorem crossing_runs : (run crossing twoBegun).isSome = true := by decide

def crossed : Detector := (run crossing twoBegun).get crossing_runs

theorem crossed_graph :
    buildWaitsForGraph crossed.tables = some [(1, [2]), (2, [1])] := by decide

theorem crossed_stuck : ¬Abortable crossed 2 := by
  rintro ⟨-, goesOn⟩
  exact goesOn (.inr (.inr (by decide)))

theorem crossed_victim (same : SameMap [(1, [2]), (2, [1])] graph) :
    detectCycleVictim graph = some (some 2) := by
  obtain ⟨victim, detected, cyclic, largest⟩ := detectCycleVictim_exact graph
  have forth : 2 ∈ graph.waits 1 := (same.mem 1 2).mpr (by decide)
  have back : 1 ∈ graph.waits 2 := (same.mem 2 1).mpr (by decide)
  have found : victim.isSome = true :=
    cyclic.mpr ⟨1, .tail (.single forth) back⟩
  obtain ⟨t, rfl⟩ := Option.isSome_iff_exists.mp found
  obtain ⟨cycle, closed, member, atMost⟩ := largest t rfl
  obtain ⟨u, inCycle, edge⟩ := closed.exists_edge member
  have below := atMost u inCycle
  have edge' := (same.mem t u).mp edge
  rw [waits_cons, waits_cons, waits_nil] at edge'
  have isSecond : t = 2 := by
    by_cases first : t = 1
    · rw [if_pos first] at edge'
      have upper := List.mem_singleton.mp edge'
      omega
    · by_contra notSecond
      rw [if_neg first, if_neg notSecond] at edge'
      exact not_mem_nil edge'
  rw [detected, isSecond]

/-- In every order the worker finds the second transaction, and leaves it as it is, for ever. -/
theorem not_passEnds_crossed : Reachable crossed ∧ ¬PassEnds crossed ∧
    ∀ order : Nat → WaitsForGraph → WaitsForGraph, (∀ i graph, SameMap graph (order i graph)) →
      ∀ fuel, innerLoop order fuel 0 crossed [] = none := by
  have forever : ∀ order : Nat → WaitsForGraph → WaitsForGraph,
      (∀ i graph, SameMap graph (order i graph)) →
        ∀ fuel, innerLoop order fuel 0 crossed [] = none := by
    intro order orders fuel
    exact innerLoop_stuck crossed_graph
      (fun i => ⟨2, crossed_victim (orders i _), crossed_stuck⟩) fuel 0 []
  refine ⟨twoBegun_reachable.run (Option.some_get crossing_runs).symm, ?_, forever⟩
  intro ends
  have orders : ∀ (i : Nat) (graph : WaitsForGraph), SameMap graph ((fun _ graph => graph) i graph) :=
    fun _ graph => ⟨.refl _, fun _ => .refl _⟩
  obtain ⟨fuel, d', victims, graph, ran, -⟩ := ends _ orders
  rw [forever _ orders fuel] at ran
  cases ran

end GraniteDb.Concurrency.DeadlockWorker
