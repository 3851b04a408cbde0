/- Cells addressed by offsets: reading and writing ranges of them. -/

import Mathlib.Data.List.Basic

set_option linter.dupNamespace false

namespace GraniteDb.Lib.ByteStore

universe u

variable {σ : Type u}

abbrev ByteStore (σ : Type u) := Nat → σ

/-- The `n` cells from `at_` on. -/
def read (mem : ByteStore σ) (at_ n : Nat) : List σ := (List.range n).map fun k => mem (at_ + k)

def write (mem : ByteStore σ) (at_ : Nat) (cells : List σ) : ByteStore σ := fun i =>
  if at_ ≤ i then (cells[i - at_]?).getD (mem i) else mem i

/-- The range of `n` cells from `a` on and that of `m` cells from `b` on do not meet. -/
def Apart (a n b m : Nat) : Prop := a + n ≤ b ∨ b + m ≤ a

@[simp] theorem length_read (mem : ByteStore σ) (at_ n : Nat) : (read mem at_ n).length = n := by
  simp [read]

variable {at_ n k : Nat} {cells : List σ}

theorem getElem_read (mem : ByteStore σ) (inside : k < (read mem at_ n).length) :
    (read mem at_ n)[k] = mem (at_ + k) := by
  simp [read]

theorem read_congr {mem mem' : ByteStore σ} (same : ∀ k, k < n → mem (at_ + k) = mem' (at_ + k)) :
    read mem at_ n = read mem' at_ n := by
  refine List.map_congr_left fun k member => ?_
  exact same k (List.mem_range.mp member)

section

variable (mem : ByteStore σ)

include mem

theorem read_add (at_ n m : Nat) :
    read mem at_ (n + m) = read mem at_ n ++ read mem (at_ + n) m := by
  apply List.ext_getElem
  · simp
  · intro k left right
    rw [getElem_read, List.getElem_append]
    split
    · rw [getElem_read]
    · rename_i beyond
      rw [length_read] at beyond
      rw [getElem_read, length_read]
      congr 1
      omega

theorem write_outside {i : Nat} (outside : i < at_ ∨ at_ + cells.length ≤ i) :
    write mem at_ cells i = mem i := by
  unfold write
  split
  · rw [List.getElem?_eq_none (by omega)]
    rfl
  · rfl

theorem write_inside (inside : k < cells.length) :
    write mem at_ cells (at_ + k) = cells[k] := by
  unfold write
  rw [if_pos (Nat.le_add_right _ _), Nat.add_sub_cancel_left, List.getElem?_eq_getElem inside]
  rfl

theorem read_write_apart {a b : Nat} (apart : Apart a cells.length b n) :
    read (write mem a cells) b n = read mem b n := by
  refine read_congr fun k inside => write_outside mem ?_
  unfold Apart at apart
  omega

theorem read_write_part (at_ : Nat) (inside : k + n ≤ cells.length) :
    read (write mem at_ cells) (at_ + k) n = (cells.drop k).take n := by
  apply List.ext_getElem
  · simp
    omega
  · intro j left right
    rw [length_read] at left
    rw [getElem_read, Nat.add_assoc, write_inside mem (by omega), List.getElem_take,
      List.getElem_drop]

theorem read_write (at_ : Nat) (cells : List σ) :
    read (write mem at_ cells) at_ cells.length = cells := by
  have whole := read_write_part mem at_ (show 0 + cells.length ≤ cells.length by omega)
  simpa using whole

end

end GraniteDb.Lib.ByteStore
