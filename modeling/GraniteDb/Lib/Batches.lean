/- Lists split into batches, and the pairs of two lists that match. -/

import Mathlib.Data.List.Perm.Basic
import Mathlib.Data.Multiset.Bind

namespace GraniteDb.Lib.Batches

universe u v w

variable {α : Type u} {β : Type v} {γ : Type w}

def inBatch (batch : α → Nat) (k : Nat) (l : List α) : List α := l.filter fun a => batch a == k

private theorem flatMap_single (n k : Nat) (inRange : k < n) (l : List β) :
    ((List.range n).flatMap fun b => if k = b then l else []) = l := by
  induction n with
  | zero => cases inRange
  | succ n ih =>
    rw [List.range_succ, List.flatMap_append, List.flatMap_singleton]
    by_cases last : k = n
    · have before : ((List.range n).flatMap fun b => if k = b then l else []) = [] := by
        rw [List.flatMap_eq_nil_iff]
        intro b member
        have less := List.mem_range.mp member
        rw [if_neg (by omega)]
      rw [before, if_pos last, List.nil_append]
    · rw [ih (by omega), if_neg last, List.append_nil]

theorem flatMap_batches {batch : α → Nat} {n : Nat} {l : List α} (g : α → List β)
    (inRange : ∀ a ∈ l, batch a < n) :
    ((List.range n).flatMap fun k => (inBatch batch k l).flatMap g).Perm (l.flatMap g) := by
  induction l with
  | nil => simp [inBatch]
  | cons a l ih =>
    have rest := ih fun b member => inRange b (List.mem_cons_of_mem _ member)
    have split (k : Nat) : (inBatch batch k (a :: l)).flatMap g =
        (if batch a = k then g a else []) ++ (inBatch batch k l).flatMap g := by
      by_cases here : batch a = k
      · simp [inBatch, here]
      · simp [inBatch, here]
    have parts := List.flatMap_append_perm (List.range n)
      (fun k => if batch a = k then g a else []) fun k => (inBatch batch k l).flatMap g
    rw [flatMap_single n _ (inRange a List.mem_cons_self)] at parts
    simp only [split, List.flatMap_cons]
    exact parts.symm.trans (rest.append_left _)

section Joins

def joinOn (same : α → β → Bool) (pair : α → β → γ) (l : List α) (r : List β) : List γ :=
  l.flatMap fun a => (r.filter (same a)).map (pair a)

variable {same : α → β → Bool} {r : List β} {l : List α} {pair : α → β → γ}

theorem mem_joinOn {c : γ} :
    c ∈ joinOn same pair l r ↔ ∃ a ∈ l, ∃ b ∈ r, same a b = true ∧ pair a b = c := by
  simp only [joinOn, List.mem_flatMap, List.mem_map, List.mem_filter]
  constructor
  · intro found
    obtain ⟨a, inLeft, b, ⟨inRight, matched⟩, rfl⟩ := found
    exact ⟨a, inLeft, b, inRight, matched, rfl⟩
  · intro found
    obtain ⟨a, inLeft, b, inRight, matched, rfl⟩ := found
    exact ⟨a, inLeft, b, ⟨inRight, matched⟩, rfl⟩

theorem joinOn_congr {same' : α → β → Bool} {pair' : α → β → γ}
    (equal : ∀ a ∈ l, ∀ b ∈ r, same a b = same' a b)
    (pairs : ∀ a ∈ l, ∀ b ∈ r, same a b = true → pair a b = pair' a b) :
    joinOn same pair l r = joinOn same' pair' l r := by
  apply List.flatMap_congr
  intro a inLeft
  have matches_ : r.filter (same a) = r.filter (same' a) :=
    List.filter_congr fun b inRight => equal a inLeft b inRight
  rw [← matches_]
  apply List.map_congr_left
  intro b member
  obtain ⟨inRight, matched⟩ := List.mem_filter.mp member
  exact pairs a inLeft b inRight matched

theorem joinOn_map {α' β' : Type*} (same : α → β → Bool) (pair : α → β → γ) (f : α' → α)
    (g : β' → β) (l : List α') (r : List β') : joinOn same pair (l.map f) (r.map g) =
      joinOn (fun a b => same (f a) (g b)) (fun a b => pair (f a) (g b)) l r := by
  simp only [joinOn, List.flatMap_map, List.filter_map, List.map_map, Function.comp_def]

theorem joinOn_product (same : α → β → Bool) (pair : α → β → γ) (l : List α) (r : List β) :
    joinOn same pair l r =
      ((l.product r).filter fun c => same c.1 c.2).map fun c => pair c.1 c.2 := by
  induction l with
  | nil => rfl
  | cons a l ih =>
    have first : (a :: l).product r = r.map (Prod.mk a) ++ l.product r := rfl
    rw [first, List.filter_append, List.map_append, ← ih, List.filter_map, List.map_map]
    rfl

theorem same_of_length {same' : α → β → Bool} {pair' : α → β → γ}
    (implies : ∀ a ∈ l, ∀ b ∈ r, same a b = true → same' a b = true)
    (lengths : (joinOn same pair l r).length = (joinOn same' pair' l r).length) :
    ∀ a ∈ l, ∀ b ∈ r, same a b = same' a b := by
  rw [joinOn_product, joinOn_product, List.length_map, List.length_map] at lengths
  have fewer : ((l.product r).filter fun c => same c.1 c.2) =
      (((l.product r).filter fun c => same' c.1 c.2).filter fun c => same c.1 c.2) := by
    rw [List.filter_filter]
    apply List.filter_congr
    intro c member
    obtain ⟨inLeft, inRight⟩ := List.mem_product.mp member
    cases holds : same c.1 c.2 with
    | false => rfl
    | true => rw [implies c.1 inLeft c.2 inRight holds, Bool.and_self]
  have whole : ((l.product r).filter fun c => same c.1 c.2) =
      (l.product r).filter fun c => same' c.1 c.2 := by
    rw [fewer] at lengths ⊢
    exact List.filter_sublist.eq_of_length lengths
  intro a inLeft b inRight
  have selected : (a, b) ∈ ((l.product r).filter fun c => same c.1 c.2) ↔
      (a, b) ∈ (l.product r).filter fun c => same' c.1 c.2 := by rw [whole]
  have inProduct : (a, b) ∈ l.product r := List.mem_product.mpr ⟨inLeft, inRight⟩
  simp only [List.mem_filter, inProduct, true_and] at selected
  exact Bool.eq_iff_iff.mpr selected

theorem joinOn_comm (same : α → β → Bool) (pair : α → β → γ) (l : List α) (r : List β) :
    (joinOn same pair l r).Perm (joinOn (fun b a => same a b) (fun b a => pair a b) r l) := by
  induction l with
  | nil => simp [joinOn]
  | cons a l ih =>
    have first : (r.flatMap fun b => if same a b then [pair a b] else []) =
        (r.filter (same a)).map (pair a) := by
      clear ih
      induction r with
      | nil => rfl
      | cons b r ih =>
        cases matched : same a b with
        | true => simp [matched, ih]
        | false => simp [matched, ih]
    have split (b : β) : ((a :: l).filter fun a => same a b).map (fun a => pair a b) =
        (if same a b then [pair a b] else []) ++
          (l.filter fun a => same a b).map fun a => pair a b := by
      cases matched : same a b with
      | true => simp [matched]
      | false => simp [matched]
    have parts := List.flatMap_append_perm r (fun b => if same a b then [pair a b] else [])
      fun b => (l.filter fun a => same a b).map fun a => pair a b
    rw [first] at parts
    have whole : joinOn same pair (a :: l) r =
        (r.filter (same a)).map (pair a) ++ joinOn same pair l r := List.flatMap_cons ..
    rw [whole]
    simp only [joinOn, split] at ih ⊢
    exact (ih.append_left _).trans parts

theorem joinOn_skip_left (pair : α → β → γ) {a : α} (apart : ∀ b ∈ r, same a b = false) :
    joinOn same pair (a :: l) r = joinOn same pair l r := by
  have nothing : r.filter (same a) = [] := by
    rw [List.filter_eq_nil_iff]
    intro b member
    rw [apart b member]
    exact Bool.false_ne_true
  rw [joinOn, List.flatMap_cons, nothing]
  rfl

theorem joinOn_skip_right (pair : α → β → γ) {g : List β}
    (apart : ∀ a ∈ l, ∀ b ∈ g, same a b = false) :
    joinOn same pair l (g ++ r) = joinOn same pair l r := by
  apply List.flatMap_congr
  intro a member
  have nothing : g.filter (same a) = [] := by
    rw [List.filter_eq_nil_iff]
    intro b inGroup
    rw [apart a member b inGroup]
    exact Bool.false_ne_true
  rw [List.filter_append, nothing, List.nil_append]

theorem joinOn_group (pair : α → β → γ) {a : α} {g : List β} (within : ∀ b ∈ g, same a b = true)
    (apart : ∀ b ∈ r, same a b = false) :
    joinOn same pair (a :: l) (g ++ r) = g.map (pair a) ++ joinOn same pair l (g ++ r) := by
  have matches_ : (g ++ r).filter (same a) = g := by
    have rest : r.filter (same a) = [] := by
      rw [List.filter_eq_nil_iff]
      intro b member
      rw [apart b member]
      exact Bool.false_ne_true
    rw [List.filter_append, List.filter_eq_self.mpr within, rest, List.append_nil]
  rw [joinOn, List.flatMap_cons, matches_]
  rfl

theorem joinOn_batches {same : α → β → Bool} (pair : α → β → γ) {l : List α} {r : List β}
    {left : α → Nat} {right : β → Nat} {n : Nat}
    (together : ∀ a ∈ l, ∀ b ∈ r, same a b = true → left a = right b)
    (inRange : ∀ a ∈ l, left a < n) :
    ((List.range n).flatMap fun k => joinOn same pair (inBatch left k l) (inBatch right k r)).Perm
      (joinOn same pair l r) := by
  have batch (k : Nat) : joinOn same pair (inBatch left k l) (inBatch right k r) =
      (inBatch left k l).flatMap fun a => (r.filter (same a)).map (pair a) := by
    apply List.flatMap_congr
    intro a member
    obtain ⟨inLeft, here⟩ := List.mem_filter.mp member
    have all : (inBatch right k r).filter (same a) = r.filter (same a) := by
      rw [inBatch, List.filter_filter]
      apply List.filter_congr
      intro b inRight
      cases matched : same a b with
      | false => rfl
      | true =>
        have shared := together a inLeft b inRight matched
        rw [← shared, here, Bool.and_self]
    rw [all]
  simp only [batch]
  exact flatMap_batches _ inRange

end Joins

end GraniteDb.Lib.Batches
