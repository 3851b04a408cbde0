/- Tables that keep a state for each key of a list, and their batches. -/

import GraniteDb.Lib.Batches
import Mathlib.Data.List.Nodup

namespace GraniteDb.Lib.Grouping

open Lib.Batches
open List (mem_cons mem_range map_cons mem_map map_append)

universe u v w

variable {κ : Type u} [DecidableEq κ] {α : Type v} {σ : Type w}

def put (k : κ) (s : σ) : List (κ × σ) → List (κ × σ)
  | [] => [(k, s)]
  | entry :: rest => if entry.1 = k then (k, s) :: rest else entry :: put k s rest

/-- An item changes the state of its key; a new key has the state `fresh`. -/
def absorb (step : σ → α → Option σ) (fresh : σ) (t : List (κ × σ)) (item : κ × α) :
    Option (List (κ × σ)) :=
  (step ((t.lookup item.1).getD fresh) item.2).map fun s => put item.1 s t

/-- The states of all keys after all items; `none` if a step fails. -/
def table (step : σ → α → Option σ) (fresh : σ) (l : List (κ × α)) : Option (List (κ × σ)) :=
  l.foldlM (absorb step fresh) []

def own (k : κ) (l : List (κ × α)) : List α := (l.filter fun item => item.1 == k).map Prod.snd

def summary (step : σ → α → Option σ) (fresh : σ) (k : κ) (l : List (κ × α)) : Option σ :=
  (own k l).foldlM step fresh

section Put

variable {k : κ} {s : σ} {t : List (κ × σ)}

theorem keys_put : (put k s t).map Prod.fst =
    if k ∈ t.map Prod.fst then t.map Prod.fst else t.map Prod.fst ++ [k] := by
  induction t with
  | nil => rfl
  | cons entry rest ih =>
    unfold put
    by_cases here : entry.1 = k
    · rw [if_pos here, map_cons, map_cons, here, if_pos List.mem_cons_self]
    · rw [if_neg here, map_cons, map_cons, ih]
      by_cases later : k ∈ rest.map Prod.fst
      · rw [if_pos later, if_pos (List.mem_cons_of_mem _ later)]
      · have absent : k ∉ entry.1 :: rest.map Prod.fst := by
          intro member
          rcases mem_cons.mp member with same | inRest
          · exact here same.symm
          · exact later inRest
        rw [if_neg later, if_neg absent, List.cons_append]

section

variable (nodup : (t.map Prod.fst).Nodup)

include nodup

theorem nodup_put : ((put k s t).map Prod.fst).Nodup := by
  rw [keys_put]
  split
  · exact nodup
  · rename_i absent
    exact List.nodup_append.mpr ⟨nodup, List.nodup_singleton k, by
      intro a member b single same
      rw [List.mem_singleton.mp single] at same
      exact absent (same ▸ member)⟩

theorem mem_put {entry : κ × σ} :
    entry ∈ put k s t ↔ entry = (k, s) ∨ entry ∈ t ∧ entry.1 ≠ k := by
  induction t with
  | nil => simp [put]
  | cons first rest ih =>
    rw [map_cons, List.nodup_cons] at nodup
    unfold put
    by_cases here : first.1 = k
    · rw [if_pos here, mem_cons]
      constructor
      · intro member
        rcases member with rfl | inRest
        · exact .inl rfl
        · refine .inr ⟨List.mem_cons_of_mem _ inRest, ?_⟩
          intro same
          exact nodup.1 (by rw [here, ← same]; exact List.mem_map_of_mem inRest)
      · intro member
        rcases member with rfl | ⟨inTable, other⟩
        · exact .inl rfl
        · rcases mem_cons.mp inTable with rfl | inRest
          · exact (other here).elim
          · exact .inr inRest
    · rw [if_neg here, mem_cons, ih nodup.2, mem_cons]
      constructor
      · intro member
        rcases member with rfl | rfl | ⟨inRest, other⟩
        · exact .inr ⟨.inl rfl, here⟩
        · exact .inl rfl
        · exact .inr ⟨.inr inRest, other⟩
      · intro member
        rcases member with rfl | ⟨rfl | inRest, other⟩
        · exact .inr (.inl rfl)
        · exact .inl rfl
        · exact .inr (.inr ⟨inRest, other⟩)

theorem lookup_eq_some :
    t.lookup k = some s ↔ (k, s) ∈ t := by
  induction t with
  | nil => simp
  | cons first rest ih =>
    obtain ⟨k', s'⟩ := first
    rw [map_cons, List.nodup_cons] at nodup
    by_cases here : k = k'
    · subst here
      rw [List.lookup_cons_self, Option.some.injEq, mem_cons]
      constructor
      · intro same
        exact .inl (by rw [same])
      · intro member
        rcases member with same | inRest
        · cases same
          rfl
        · exact (nodup.1 (mem_map.mpr ⟨_, inRest, rfl⟩)).elim
    · have distinct : (k == k') = false := beq_eq_false_iff_ne.mpr here
      rw [List.lookup_cons, distinct, ih nodup.2, mem_cons]
      constructor
      · exact .inr
      · intro member
        rcases member with same | inRest
        · cases same
          exact (here rfl).elim
        · exact inRest

end

theorem lookup_eq_none : t.lookup k = none ↔ k ∉ t.map Prod.fst := by
  rw [List.lookup_eq_none_iff]
  constructor
  · intro distinct member
    obtain ⟨entry, inTable, same⟩ := mem_map.mp member
    have apart := distinct entry inTable
    rw [same] at apart
    simp at apart
  · intro absent entry inTable
    exact bne_iff_ne.mpr fun same => absent (same ▸ List.mem_map_of_mem inTable)

end Put

section Summaries

variable {step : σ → α → Option σ} {fresh : σ} {l l' : List (κ × α)} {t t' : List (κ × σ)}

structure IsTable (step : σ → α → Option σ) (fresh : σ) (l : List (κ × α)) (t : List (κ × σ)) :
    Prop where
  nodup : (t.map Prod.fst).Nodup
  keys : ∀ k, k ∈ t.map Prod.fst ↔ k ∈ l.map Prod.fst
  states : ∀ entry ∈ t, summary step fresh entry.1 l = some entry.2

theorem own_of_not_mem {k : κ} (absent : k ∉ l.map Prod.fst) : own k l = [] := by
  rw [own, List.map_eq_nil_iff, List.filter_eq_nil_iff]
  intro item member same
  rw [beq_iff_eq] at same
  exact absent (same ▸ List.mem_map_of_mem member)

theorem own_append (k : κ) (l l' : List (κ × α)) : own k (l ++ l') = own k l ++ own k l' := by
  rw [own, List.filter_append, map_append, own, own]

theorem summary_snoc (k : κ) (l : List (κ × α)) (item : κ × α) :
    summary step fresh k (l ++ [item]) =
      if item.1 = k then (summary step fresh k l).bind fun s => step s item.2
      else summary step fresh k l := by
  rw [summary, own_append, List.foldlM_append]
  by_cases here : item.1 = k
  · have last : own k [item] = [item.2] := by
      simp [own, here]
    rw [last, if_pos here, summary]
    cases List.foldlM step fresh (own k l) with
    | none => rfl
    | some s => simp
  · have last : own k [item] = [] := by
      simp [own, here]
    rw [last, if_neg here, summary]
    cases List.foldlM step fresh (own k l) with
    | none => rfl
    | some s => rfl

theorem IsTable.state (is : IsTable step fresh l t) (k : κ) :
    summary step fresh k l = some ((t.lookup k).getD fresh) := by
  cases found : t.lookup k with
  | some s =>
    rw [Option.getD_some]
    exact is.states (k, s) ((lookup_eq_some is.nodup).mp found)
  | none =>
    have absent : k ∉ l.map Prod.fst := fun member =>
      lookup_eq_none.mp found ((is.keys k).mpr member)
    rw [summary, own_of_not_mem absent]
    rfl

theorem IsTable.absorb {item : κ × α} (is : IsTable step fresh l t)
    (absorbed : absorb step fresh t item = some t') : IsTable step fresh (l ++ [item]) t' := by
  obtain ⟨s, stepped, rfl⟩ := Option.map_eq_some_iff.mp absorbed
  refine ⟨nodup_put is.nodup, ?_, ?_⟩
  · intro k
    rw [keys_put, map_append, List.mem_append, ← is.keys k]
    split
    · rename_i there
      constructor
      · exact .inl
      · intro member
        rcases member with inTable | last
        · exact inTable
        · rw [List.map_singleton, List.mem_singleton] at last
          rw [last]
          exact there
    · rw [List.mem_append]
      rfl
  · intro entry member
    rw [summary_snoc]
    rcases (mem_put is.nodup).mp member with rfl | ⟨inTable, other⟩
    · rw [if_pos rfl, is.state, Option.bind_some, stepped]
    · rw [if_neg (Ne.symm other)]
      exact is.states entry inTable

theorem table_cases (step : σ → α → Option σ) (fresh : σ) (l : List (κ × α)) :
    (∃ t, table step fresh l = some t ∧ IsTable step fresh l t) ∨
      table step fresh l = none ∧ ∃ k ∈ l.map Prod.fst, summary step fresh k l = none := by
  induction l using List.reverseRecOn with
  | nil => exact .inl ⟨[], rfl, List.nodup_nil, by simp, by simp⟩
  | append_singleton l item ih =>
    have snoc : table step fresh (l ++ [item]) =
        (table step fresh l).bind fun t => absorb step fresh t item := by
      rw [table, List.foldlM_append, table]
      cases List.foldlM (absorb step fresh) [] l with
      | none => rfl
      | some t => simp
    rcases ih with ⟨t, some_, is⟩ | ⟨none_, k, member, fails⟩
    · rw [snoc, some_, Option.bind_some]
      cases absorbed : absorb step fresh t item with
      | some t' => exact .inl ⟨t', rfl, is.absorb absorbed⟩
      | none =>
        refine .inr ⟨rfl, item.1, ?_, ?_⟩
        · rw [map_append, List.map_singleton]
          exact List.mem_append_right _ (List.mem_singleton_self _)
        · rw [absorb, Option.map_eq_none_iff] at absorbed
          rw [summary_snoc, if_pos rfl, is.state, Option.bind_some, absorbed]
    · refine .inr ⟨by rw [snoc, none_, Option.bind_none], k, ?_, ?_⟩
      · rw [map_append]
        exact List.mem_append_left _ member
      · rw [summary_snoc, fails]
        split <;> rfl

theorem isTable_of_table (some_ : table step fresh l = some t) : IsTable step fresh l t := by
  rcases table_cases step fresh l with ⟨t', some', is⟩ | ⟨none_, -⟩
  · rw [some_] at some'
    cases some'
    exact is
  · rw [some_] at none_
    cases none_

theorem table_of_summaries (all : ∀ k ∈ l.map Prod.fst, summary step fresh k l ≠ none) :
    ∃ t, table step fresh l = some t ∧ IsTable step fresh l t := by
  rcases table_cases step fresh l with found | ⟨-, k, member, fails⟩
  · exact found
  · exact (all k member fails).elim

theorem IsTable.mem_iff (is : IsTable step fresh l t) {k : κ} {s : σ} :
    (k, s) ∈ t ↔ k ∈ l.map Prod.fst ∧ summary step fresh k l = some s := by
  constructor
  · intro member
    exact ⟨(is.keys k).mp (mem_map.mpr ⟨_, member, rfl⟩), is.states _ member⟩
  · intro both
    obtain ⟨entry, inTable, rfl⟩ := mem_map.mp ((is.keys k).mpr both.1)
    have state := is.states entry inTable
    rw [both.2] at state
    cases state
    exact inTable

theorem IsTable.perm (is : IsTable step fresh l t) (is' : IsTable step fresh l' t')
    (keys : ∀ k, k ∈ l.map Prod.fst ↔ k ∈ l'.map Prod.fst)
    (states : ∀ k ∈ l.map Prod.fst, summary step fresh k l = summary step fresh k l') :
    t.Perm t' := by
  rw [List.perm_ext_iff_of_nodup (.of_map _ is.nodup) (.of_map _ is'.nodup)]
  intro entry
  obtain ⟨k, s⟩ := entry
  rw [is.mem_iff, is'.mem_iff, keys k]
  constructor
  · intro both
    rw [← states k ((keys k).mpr both.1)]
    exact both
  · intro both
    rw [states k ((keys k).mpr both.1)]
    exact both

end Summaries

section TablesOfBatches

variable {step : σ → α → Option σ} {fresh : σ} {l : List (κ × α)} {batch : κ → Nat} {n : Nat}

theorem own_inBatch (k : κ) (l : List (κ × α)) :
    own k (inBatch (fun item => batch item.1) (batch k) l) = own k l := by
  rw [own, inBatch, List.filter_filter]
  congr 1
  apply List.filter_congr
  intro item _
  cases same : item.1 == k with
  | false => rfl
  | true => rw [beq_iff_eq.mp same, beq_self_eq_true, Bool.and_self]

theorem summary_inBatch (k : κ) (l : List (κ × α)) :
    summary step fresh k (inBatch (fun item => batch item.1) (batch k) l) =
      summary step fresh k l := by
  rw [summary, own_inBatch, summary]

omit [DecidableEq κ] in
theorem mem_keys_inBatch {k : κ} {b : Nat} :
    k ∈ (inBatch (fun item => batch item.1) b l).map Prod.fst ↔
      k ∈ l.map Prod.fst ∧ batch k = b := by
  simp only [mem_map, inBatch, List.mem_filter, beq_iff_eq]
  constructor
  · intro found
    obtain ⟨item, ⟨member, here⟩, rfl⟩ := found
    exact ⟨⟨item, member, rfl⟩, here⟩
  · intro found
    obtain ⟨⟨item, member, rfl⟩, here⟩ := found
    exact ⟨item, ⟨member, here⟩, rfl⟩

theorem isTable_batches {tables : Nat → List (κ × σ)} (inRange : ∀ k ∈ l.map Prod.fst, batch k < n)
    (each : ∀ b < n, IsTable step fresh (inBatch (fun item => batch item.1) b l) (tables b)) :
    IsTable step fresh l ((List.range n).flatMap tables) := by
  have keys (b : Nat) (less : b < n) (k : κ) :
      k ∈ (tables b).map Prod.fst ↔ k ∈ l.map Prod.fst ∧ batch k = b := by
    rw [(each b less).keys, mem_keys_inBatch]
  have flat : ((List.range n).flatMap tables).map Prod.fst =
      (List.range n).flatMap fun b => (tables b).map Prod.fst := by
    rw [List.map_flatMap]
  refine ⟨?_, ?_, ?_⟩
  · rw [flat, List.nodup_flatMap]
    constructor
    · intro b member
      exact (each b (mem_range.mp member)).nodup
    · apply (List.pairwise_lt_range).imp_of_mem
      intro a b inRange_ inRange' less k inA inB
      have batchA := ((keys a (mem_range.mp inRange_) k).mp inA).2
      have batchB := ((keys b (mem_range.mp inRange') k).mp inB).2
      omega
  · intro k
    rw [flat, List.mem_flatMap]
    constructor
    · intro found
      obtain ⟨b, member, inTable⟩ := found
      exact ((keys b (mem_range.mp member) k).mp inTable).1
    · intro member
      have less := inRange k member
      exact ⟨batch k, mem_range.mpr less, (keys _ less k).mpr ⟨member, rfl⟩⟩
  · intro entry member
    obtain ⟨b, less, inTable⟩ := List.mem_flatMap.mp member
    have is := each b (mem_range.mp less)
    have here := ((keys b (mem_range.mp less) entry.1).mp (List.mem_map_of_mem inTable)).2
    rw [← @summary_inBatch _ _ _ _ _ _ batch, here]
    exact is.states entry inTable

theorem tables_batches (inRange : ∀ k ∈ l.map Prod.fst, batch k < n) :
    (∃ tables : Nat → List (κ × σ), (∀ b < n,
        table step fresh (inBatch (fun item => batch item.1) b l) = some (tables b)) ∧
      ∃ t, table step fresh l = some t ∧ ((List.range n).flatMap tables).Perm t) ∨
    (∃ b < n, table step fresh (inBatch (fun item => batch item.1) b l) = none) ∧
      table step fresh l = none := by
  by_cases all : ∀ b < n, ∃ t, table step fresh (inBatch (fun item => batch item.1) b l) = some t
  · left
    let tables (b : Nat) : List (κ × σ) :=
      (table step fresh (inBatch (fun item => batch item.1) b l)).getD []
    have each : ∀ b < n,
        table step fresh (inBatch (fun item => batch item.1) b l) = some (tables b) := by
      intro b less
      obtain ⟨t, some_⟩ := all b less
      simp only [tables, some_, Option.getD_some]
    have is := @isTable_batches _ _ _ _ step fresh _ _ _ _ inRange fun b less =>
      isTable_of_table (each b less)
    have summaries : ∀ k ∈ l.map Prod.fst, summary step fresh k l ≠ none := by
      intro k _ fails
      rw [is.state k] at fails
      cases fails
    obtain ⟨t, some_, is'⟩ := table_of_summaries summaries
    exact ⟨tables, each, t, some_, is.perm is' (fun _ => Iff.rfl) fun _ _ => rfl⟩
  · right
    simp only [not_forall, not_exists] at all
    obtain ⟨b, less, noTable⟩ := all
    rcases table_cases step fresh (inBatch (fun item => batch item.1) b l) with
      ⟨t, some_, -⟩ | ⟨none_, k, member, fails⟩
    · exact (noTable t some_).elim
    · refine ⟨⟨b, less, none_⟩, ?_⟩
      obtain ⟨-, here⟩ := mem_keys_inBatch.mp member
      rw [← here, summary_inBatch] at fails
      cases whole : table step fresh l with
      | none => rfl
      | some t =>
        rw [(isTable_of_table whole).state k] at fails
        cases fails

end TablesOfBatches

end GraniteDb.Lib.Grouping
