/- A family of multisets, entered into and taken from one entry at a time. -/

import Mathlib.Data.Multiset.AddSub
import Mathlib.Logic.Function.Basic

set_option linter.dupNamespace false

namespace GraniteDb.Lib.Ledger

universe u v

variable {ι : Type u} {α : Type v} [DecidableEq ι] [DecidableEq α]

abbrev Ledger (ι : Type u) (α : Type v) := ι → Multiset α

def put (l : Ledger ι α) (i : ι) (a : α) : Ledger ι α := Function.update l i (a ::ₘ l i)

def take (l : Ledger ι α) (i : ι) (a : α) : Ledger ι α := Function.update l i ((l i).erase a)

@[simp] theorem take_put (l : Ledger ι α) (i : ι) (a : α) : take (put l i a) i a = l := by
  ext j
  by_cases here : j = i
  · subst here
    simp [take, put]
  · simp [take, put, Function.update_of_ne here]

variable {a : α} {i : ι} {l : Ledger ι α} {entries : List (ι × α)}

theorem put_take (present : a ∈ l i) : put (take l i a) i a = l := by
  ext j
  by_cases here : j = i
  · subst here
    simp [take, put, Multiset.cons_erase present]
  · simp [take, put, Function.update_of_ne here]

theorem count_put (l : Ledger ι α) (i j : ι) (a b : α) :
    (put l i a j).count b = (l j).count b + if (j, b) = (i, a) then 1 else 0 := by
  by_cases here : j = i
  · subst here
    simp [put, Multiset.count_cons]
  · simp [put, here]

theorem count_take (present : a ∈ l i) (j : ι) (b : α) :
    (take l i a j).count b + (if (j, b) = (i, a) then 1 else 0) = (l j).count b := by
  rw [← count_put, put_take present]

def putAll (l : Ledger ι α) (entries : List (ι × α)) : Ledger ι α :=
  entries.foldl (fun l e => put l e.1 e.2) l

def takeAll (l : Ledger ι α) (entries : List (ι × α)) : Ledger ι α :=
  entries.foldl (fun l e => take l e.1 e.2) l

def CanTake (l : Ledger ι α) : List (ι × α) → Prop
  | [] => True
  | e :: rest => e.2 ∈ l e.1 ∧ CanTake (take l e.1 e.2) rest

omit [DecidableEq α] in
@[simp] theorem putAll_append (l : Ledger ι α) (first second : List (ι × α)) :
    putAll l (first ++ second) = putAll (putAll l first) second := List.foldl_append

@[simp] theorem takeAll_append (l : Ledger ι α) (first second : List (ι × α)) :
    takeAll l (first ++ second) = takeAll (takeAll l first) second := List.foldl_append

theorem takeAll_reverse_putAll (l : Ledger ι α) (entries : List (ι × α)) :
    takeAll (putAll l entries) entries.reverse = l := by
  induction entries generalizing l with
  | nil => rfl
  | cons e rest ih =>
    have undone : takeAll (putAll (put l e.1 e.2) rest) rest.reverse = put l e.1 e.2 := ih _
    rw [List.reverse_cons, takeAll_append]
    show takeAll (takeAll (putAll (put l e.1 e.2) rest) rest.reverse) [e] = l
    rw [undone]
    exact take_put l e.1 e.2

theorem putAll_reverse_takeAll (present : CanTake l entries) :
    putAll (takeAll l entries) entries.reverse = l := by
  induction entries generalizing l with
  | nil => rfl
  | cons e rest ih =>
    have undone : putAll (takeAll (take l e.1 e.2) rest) rest.reverse = take l e.1 e.2 :=
      ih present.2
    rw [List.reverse_cons, putAll_append]
    show putAll (putAll (takeAll (take l e.1 e.2) rest) rest.reverse) [e] = l
    rw [undone]
    exact put_take present.1

theorem canTake_append {first second : List (ι × α)} :
    CanTake l (first ++ second) ↔ CanTake l first ∧ CanTake (takeAll l first) second := by
  induction first generalizing l with
  | nil => simp [CanTake, takeAll]
  | cons e rest ih =>
    have later := @ih (take l e.1 e.2)
    simp only [List.cons_append, CanTake, later, and_assoc]
    rfl

theorem canTake_of_nodup (distinct : (entries.map Prod.fst).Nodup)
    (present : ∀ e ∈ entries, e.2 ∈ l e.1) :
    CanTake l entries := by
  induction entries generalizing l with
  | nil => trivial
  | cons e rest ih =>
    rw [List.map_cons, List.nodup_cons] at distinct
    refine ⟨present e List.mem_cons_self, ih distinct.2 fun later member => ?_⟩
    have apart : later.1 ≠ e.1 := by
      intro same
      exact distinct.1 (same ▸ List.mem_map_of_mem member)
    rw [take, Function.update_of_ne apart]
    exact present later (List.mem_cons_of_mem _ member)

theorem canTake_reverse_putAll (l : Ledger ι α) (entries : List (ι × α)) :
    CanTake (putAll l entries) entries.reverse := by
  induction entries generalizing l with
  | nil => trivial
  | cons e rest ih =>
    have later : CanTake (putAll (put l e.1 e.2) rest) rest.reverse := ih _
    rw [List.reverse_cons, canTake_append]
    refine ⟨later, ?_, trivial⟩
    show e.2 ∈ takeAll (putAll (put l e.1 e.2) rest) rest.reverse e.1
    rw [takeAll_reverse_putAll]
    simp [put]

theorem count_putAll [BEq (ι × α)] [LawfulBEq (ι × α)] (l : Ledger ι α)
    (entries : List (ι × α)) (j : ι) (b : α) :
    (putAll l entries j).count b = (l j).count b + entries.count (j, b) := by
  induction entries generalizing l with
  | nil => simp [putAll]
  | cons e rest ih =>
    show (putAll (put l e.1 e.2) rest j).count b = _
    rw [ih, count_put, List.count_cons]
    by_cases same : (j, b) = e
    · subst same
      simp
      omega
    · simp [same, Ne.symm same]

theorem mem_putAll_of_mem (present : a ∈ l i) : a ∈ putAll l entries i := by
  rw [← Multiset.count_pos] at present ⊢
  rw [count_putAll]
  omega

theorem count_takeAll [BEq (ι × α)] [LawfulBEq (ι × α)] (present : CanTake l entries) (j : ι)
    (b : α) :
    (takeAll l entries j).count b + entries.count (j, b) = (l j).count b := by
  induction entries generalizing l with
  | nil => simp [takeAll]
  | cons e rest ih =>
    have later : (takeAll (take l e.1 e.2) rest j).count b + rest.count (j, b) =
        (take l e.1 e.2 j).count b := ih present.2
    have first := count_take present.1 j b
    show (takeAll (take l e.1 e.2) rest j).count b + _ = _
    rw [List.count_cons, ← first, ← later]
    by_cases same : (j, b) = e
    · subst same
      simp [Nat.add_assoc]
    · simp [same, Ne.symm same]

end GraniteDb.Lib.Ledger
