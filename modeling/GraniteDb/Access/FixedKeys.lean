/- Trees whose keys are numbers of one encoded size. -/

import GraniteDb.Access.OrderedTrees

namespace GraniteDb.Access.FixedKeys

open Access.BTreePage
open Common.Types (pageSize)
open Access.OrderedTrees (Ranked)
open Storage.SlottedPage (headerSize)

/-- Keys of `size` bytes that compare as numbers. -/
def fixedKeys (size : Nat) (fits : specialDataSize + size ≤ pageSize - headerSize) :
    KeyFormat Nat where
  compare := compare
  size := fun _ => size
  maxKeyBytes := size
  special_fits := fits

section Order

variable {size : Nat} {fits : specialDataSize + size ≤ pageSize - headerSize}

theorem fixed_ranked : Ranked (fixedKeys size fits) fun k => k where
  compare_rank _ _ := rfl
  size_le _ := Nat.le_refl _

theorem leafEntryLess_false {a b : LeafEntry Nat} :
    leafEntryLess (fixedKeys size fits) b a = false ↔
      a.key < b.key ∨ (a.key = b.key ∧ (a.rid.pageNo < b.rid.pageNo ∨
        (a.rid.pageNo = b.rid.pageNo ∧ a.rid.slotNo ≤ b.rid.slotNo))) :=
  OrderedTrees.leafEntryLess_false fixed_ranked

theorem internalEntryLess_false {a b : InternalEntry Nat} :
    internalEntryLess (fixedKeys size fits) b a = false ↔ a.1 ≤ b.1 :=
  OrderedTrees.internalEntryLess_false fixed_ranked

end Order

def insertionSorting {bytes : Nat} (room : specialDataSize + bytes ≤ pageSize - headerSize) :
    Sorting (fixedKeys bytes room) where
  leaf entries :=
    entries.insertionSort fun a b => leafEntryLess (fixedKeys bytes room) b a = false
  internal entries :=
    entries.insertionSort fun a b => internalEntryLess (fixedKeys bytes room) b a = false
  leaf_perm entries := List.perm_insertionSort _ entries
  internal_perm entries := List.perm_insertionSort _ entries
  leaf_sorted entries := by
    have total : Std.Total fun a b : LeafEntry Nat =>
        leafEntryLess (fixedKeys bytes room) b a = false := ⟨fun a b => by
      simp only [leafEntryLess_false]
      omega⟩
    have trans : IsTrans (LeafEntry Nat) fun a b =>
        leafEntryLess (fixedKeys bytes room) b a = false := ⟨fun a b c => by
      simp only [leafEntryLess_false]
      omega⟩
    exact List.pairwise_insertionSort _ entries
  internal_sorted entries := by
    have total : Std.Total fun a b : InternalEntry Nat =>
        internalEntryLess (fixedKeys bytes room) b a = false := ⟨fun a b => by
      simp only [internalEntryLess_false]
      omega⟩
    have trans : IsTrans (InternalEntry Nat) fun a b =>
        internalEntryLess (fixedKeys bytes room) b a = false := ⟨fun a b c => by
      simp only [internalEntryLess_false]
      omega⟩
    exact List.pairwise_insertionSort _ entries

end GraniteDb.Access.FixedKeys
