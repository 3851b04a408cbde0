/- The entries an exact index holds for a heap, and the rows that RIDs fetch. -/

import GraniteDb.Access.ExactPrefixScan
import GraniteDb.Catalog.CatalogManager
import Mathlib.Data.List.Nodup

namespace GraniteDb.Catalog.HeldKeys

open Common.Types Common.Value Access.IndexScan Catalog.CatalogManager
open List (map_cons mem_map)

section Held

/-- The entries of an exact index on a column: one for each live tuple that is not NULL there. -/
def heldEntries (heap : HeapFile) (columnIdx : Nat) : List LeafEntry :=
  heap.filterMap fun stored => (stored.2[columnIdx]?).bind fun v =>
    if v.isNull then none else some ⟨v, stored.1⟩

/-- The entries of an exact index on several columns: one for each live tuple. -/
def heldKeys (heap : HeapFile) (cols : List IndexKeyColumnDefinition) : List GenericLeafEntry :=
  heap.filterMap fun stored =>
    (cols.mapM fun col => stored.2[col.columnIdx]?).map fun key => ⟨key, stored.1⟩

variable {heap : HeapFile}

theorem mem_heldEntries {columnIdx : Nat} {e : LeafEntry} :
    e ∈ heldEntries heap columnIdx ↔
      ∃ row, (e.rid, row) ∈ heap ∧ row[columnIdx]? = some e.key ∧ e.key.isNull = false := by
  rw [heldEntries, List.mem_filterMap]
  constructor
  · rintro ⟨⟨rid, row⟩, stored, isEntry⟩
    obtain ⟨v, read, outcome⟩ := Option.bind_eq_some_iff.mp isEntry
    split at outcome
    · cases outcome
    · rename_i present
      cases outcome
      exact ⟨row, stored, read, by simpa using present⟩
  · rintro ⟨row, stored, read, present⟩
    refine ⟨(e.rid, row), stored, ?_⟩
    rw [read, Option.bind_some, present]
    rfl

variable {cols : List IndexKeyColumnDefinition}

theorem mapM_read_iff {row : Row} {key : List Value} :
    (cols.mapM fun col => row[col.columnIdx]?) = some key ↔ HasKey cols row key := by
  induction cols generalizing key with
  | nil => cases key <;> simp [HasKey]
  | cons col cols ih =>
    rw [List.mapM_cons]
    simp only [Option.bind_eq_bind, Option.bind_eq_some_iff, Option.pure_def, Option.some.injEq]
    constructor
    · rintro ⟨v, read, rest, mapped, rfl⟩
      have later := ih.mp mapped
      rw [HasKey] at later ⊢
      rw [map_cons, map_cons, read, later]
    · intro hasKey
      cases key with
      | nil => cases hasKey
      | cons v rest =>
        rw [HasKey, map_cons, map_cons] at hasKey
        obtain ⟨read, later⟩ := List.cons.inj hasKey
        exact ⟨v, read, rest, ih.mpr later, rfl⟩

theorem mem_heldKeys {e : GenericLeafEntry} :
    e ∈ heldKeys heap cols ↔ ∃ row, (e.rid, row) ∈ heap ∧ HasKey cols row e.key := by
  rw [heldKeys, List.mem_filterMap]
  constructor
  · rintro ⟨⟨rid, row⟩, stored, isEntry⟩
    obtain ⟨key, mapped, rfl⟩ := Option.map_eq_some_iff.mp isEntry
    exact ⟨row, stored, mapM_read_iff.mp mapped⟩
  · rintro ⟨row, stored, hasKey⟩
    refine ⟨(e.rid, row), stored, ?_⟩
    rw [mapM_read_iff.mpr hasKey]
    rfl

theorem nodup_rids {β : Type} {f : RID × Row → Option β} {ridOf : β → RID}
    (distinct : (heap.map Prod.fst).Nodup)
    (ofTuple : ∀ stored ∈ heap, ∀ e ∈ f stored, ridOf e = stored.1) :
    ((heap.filterMap f).map ridOf).Nodup := by
  induction heap with
  | nil => exact List.nodup_nil
  | cons stored rest ih =>
    rw [map_cons, List.nodup_cons] at distinct
    have later := ih distinct.2 fun s member => ofTuple s (List.mem_cons_of_mem _ member)
    cases isEntry : f stored with
    | none =>
      rw [List.filterMap_cons_none isEntry]
      exact later
    | some e =>
      rw [List.filterMap_cons_some isEntry, map_cons, List.nodup_cons]
      refine ⟨fun member => distinct.1 ?_, later⟩
      rw [ofTuple stored List.mem_cons_self e isEntry] at member
      obtain ⟨e', inRest, same⟩ := mem_map.mp member
      obtain ⟨stored', inHeap, isEntry'⟩ := List.mem_filterMap.mp inRest
      rw [ofTuple stored' (List.mem_cons_of_mem _ inHeap) e' isEntry'] at same
      exact mem_map.mpr ⟨stored', inHeap, same⟩

end Held

section Fetched

variable {heap : HeapFile}

theorem getTuple_of_mem (distinct : (heap.map Prod.fst).Nodup) {rid : RID} {row : Row}
    (stored : (rid, row) ∈ heap) : getTuple heap rid = some row := by
  cases found : getTuple heap rid with
  | some row' =>
    have same := List.inj_on_of_nodup_map distinct (mem_of_getTuple found) stored rfl
    exact congrArg some (congrArg Prod.snd same)
  | none =>
    rw [getTuple, List.lookup_eq_none_iff] at found
    exact absurd (beq_self_eq_true rid) (by simpa using found (rid, row) stored)

theorem fetched_perm (holds : Row → Bool) {rids : List RID}
    (distinct : (heap.map Prod.fst).Nodup) (nodup : rids.Nodup)
    (mem : ∀ rid, rid ∈ rids ↔ ∃ row, (rid, row) ∈ heap ∧ holds row = true) :
    (rids.filterMap (getTuple heap)).Perm
      ((heap.filter fun stored => holds stored.2).map Prod.snd) := by
  have nodup' : ((heap.filter fun stored => holds stored.2).map Prod.fst).Nodup :=
    List.Nodup.sublist (List.Sublist.map Prod.fst List.filter_sublist) distinct
  have sameRids : rids.Perm ((heap.filter fun stored => holds stored.2).map Prod.fst) := by
    rw [List.perm_ext_iff_of_nodup nodup nodup']
    intro rid
    rw [mem rid, mem_map]
    constructor
    · rintro ⟨row, stored, satisfied⟩
      exact ⟨(rid, row), List.mem_filter.mpr ⟨stored, satisfied⟩, rfl⟩
    · rintro ⟨⟨rid', row⟩, member, rfl⟩
      obtain ⟨stored, satisfied⟩ := List.mem_filter.mp member
      exact ⟨row, stored, satisfied⟩
  refine (sameRids.filterMap (getTuple heap)).trans (List.Perm.of_eq ?_)
  rw [List.filterMap_map, ← List.filterMap_eq_map]
  refine List.filterMap_congr fun stored member => ?_
  exact getTuple_of_mem distinct (List.mem_filter.mp member).1

end Fetched

end GraniteDb.Catalog.HeldKeys
