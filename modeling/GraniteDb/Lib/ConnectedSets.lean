/- Connected sets of nodes of a graph grow and shrink by one node at a time. -/

import Mathlib.Combinatorics.SimpleGraph.Acyclic
import Mathlib.Combinatorics.SimpleGraph.Connectivity.Subgraph

namespace GraniteDb.Lib.ConnectedSets

variable {α : Type} (graph : SimpleGraph α)

/-- The set is not empty, and its nodes reach each other within it. -/
def ConnectedOn (nodes : Set α) : Prop := (graph.induce nodes).Connected

variable {graph}

variable {nodes : Set α}

theorem ConnectedOn.nonempty (connected : ConnectedOn graph nodes) : nodes.Nonempty :=
  Set.nonempty_coe_sort.mp (SimpleGraph.Connected.nonempty connected)

theorem connectedOn_singleton (v : α) : ConnectedOn graph {v} := by
  rw [ConnectedOn, SimpleGraph.induce_singleton_eq_top]
  exact SimpleGraph.connected_top

theorem ConnectedOn.insert {nodes : Set α} (connected : ConnectedOn graph nodes) {u v : α}
    (member : u ∈ nodes) (edge : graph.Adj u v) : ConnectedOn graph (insert v nodes) := by
  have single : ConnectedOn graph {v} := connectedOn_singleton v
  rw [Set.insert_eq, Set.union_comm]
  exact SimpleGraph.connected_induce_union connected.preconnected single.preconnected member
    (Set.mem_singleton v) edge

theorem ConnectedOn.exists_neighbour (connected : ConnectedOn graph nodes) {u v : α}
    (member : u ∈ nodes) (other : v ∈ nodes) (apart : u ≠ v) :
    ∃ w ∈ nodes, graph.Adj u w := by
  have several : Nontrivial nodes :=
    ⟨⟨u, member⟩, ⟨v, other⟩, fun same => apart (congrArg Subtype.val same)⟩
  obtain ⟨⟨w, inside⟩, edge⟩ := connected.preconnected.exists_adj_of_nontrivial ⟨u, member⟩
  exact ⟨w, inside, edge⟩

theorem ConnectedOn.exists_removable (connected : ConnectedOn graph nodes) (finite : nodes.Finite)
    {a b : α} (first : a ∈ nodes) (second : b ∈ nodes) (apart : a ≠ b) :
    ∃ v ∈ nodes, ConnectedOn graph (nodes \ {v}) := by
  have several : Nontrivial nodes :=
    ⟨⟨a, first⟩, ⟨b, second⟩, fun same => apart (congrArg Subtype.val same)⟩
  have few : Finite nodes := finite
  obtain ⟨⟨v, inside⟩, rest⟩ :=
    SimpleGraph.Connected.exists_connected_induce_compl_singleton_of_finite_nontrivial connected
  refine ⟨v, inside, ?_⟩
  have others : ∀ w : ({⟨v, inside⟩}ᶜ : Set nodes), (w : nodes).val ∈ nodes \ {v} := by
    rintro ⟨⟨w, isNode⟩, different⟩
    exact ⟨isNode, fun same => different (Subtype.ext same)⟩
  let forget : (graph.induce nodes).induce {⟨v, inside⟩}ᶜ →g graph.induce (nodes \ {v}) :=
    ⟨fun w => ⟨(w : nodes).val, others w⟩, fun edge => edge⟩
  refine rest.map forget ?_
  rintro ⟨w, isNode, different⟩
  exact ⟨⟨⟨w, isNode⟩, fun same => different (congrArg Subtype.val same)⟩, rfl⟩

end GraniteDb.Lib.ConnectedSets
