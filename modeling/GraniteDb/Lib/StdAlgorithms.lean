/- Sorting and heap operations of which only the documented effects are known. -/

import Mathlib.Data.List.Perm.Basic

namespace GraniteDb.Lib.StdAlgorithms

section Orders

variable {α : Type}

/-- Among these items `lt` is a strict weak order: what is not above is a total preorder. -/
structure WeakOrder (lt : α → α → Bool) (l : List α) : Prop where
  total : ∀ a ∈ l, ∀ b ∈ l, lt a b = false ∨ lt b a = false
  trans : ∀ a ∈ l, ∀ b ∈ l, ∀ c ∈ l, lt b a = false → lt c b = false → lt c a = false

def Sorted (lt : α → α → Bool) (l : List α) : Prop := l.Pairwise fun a b => lt b a = false

/-- `std::is_heap`: no item is above the one in its parent's place. -/
def IsHeap (lt : α → α → Bool) (l : List α) : Prop :=
  ∀ i a b, 0 < i → l[(i - 1) / 2]? = some a → l[i]? = some b → lt a b = false

variable {lt : α → α → Bool} {l l' : List α}

theorem WeakOrder.mono (order : WeakOrder lt l) (subset : l' ⊆ l) : WeakOrder lt l' where
  total a inL b inL' := order.total a (subset inL) b (subset inL')
  trans a inA b inB c inC := order.trans a (subset inA) b (subset inB) c (subset inC)

theorem WeakOrder.irrefl (order : WeakOrder lt l) {a : α} (member : a ∈ l) : lt a a = false :=
  (order.total a member a member).elim id id

theorem isHeap_nil : IsHeap lt [] := by
  intro i a b _ parent
  cases parent

theorem IsHeap.front {a : α} (heap : IsHeap lt (a :: l)) (order : WeakOrder lt (a :: l)) :
    ∀ b ∈ a :: l, lt a b = false := by
  have each (i : Nat) : ∀ b, (a :: l)[i]? = some b → lt a b = false := by
    induction i using Nat.strongRecOn with
    | ind i ih =>
      intro b here
      rcases Nat.eq_zero_or_pos i with rfl | positive
      · cases here
        exact order.irrefl List.mem_cons_self
      · have inside : i < (a :: l).length := (List.getElem?_eq_some_iff.mp here).1
        have parent : (i - 1) / 2 < (a :: l).length := by omega
        have above := ih ((i - 1) / 2) (by omega) _ (List.getElem?_eq_getElem parent)
        have notAbove := heap i _ b positive (List.getElem?_eq_getElem parent) here
        exact order.trans b (List.mem_of_getElem? here) _ (List.getElem_mem parent) a
          List.mem_cons_self notAbove above
  intro b member
  obtain ⟨i, inside, here⟩ := List.getElem_of_mem member
  exact each i b (List.getElem?_eq_some_iff.mpr ⟨inside, here⟩)

theorem isHeap_of_sorted (sorted : Sorted (fun a b => lt b a) l) : IsHeap lt l := by
  intro i a b positive parent here
  obtain ⟨inside, rfl⟩ := List.getElem?_eq_some_iff.mp parent
  obtain ⟨inside', rfl⟩ := List.getElem?_eq_some_iff.mp here
  exact List.pairwise_iff_getElem.mp sorted _ _ inside inside' (by omega)

end Orders

section Algorithms

/-- `std::sort`, `std::push_heap` and `std::pop_heap` on vectors of one type. What they do with a
comparison that is no strict weak order, and how they order equal items, is theirs to choose. -/
structure Algorithms (α : Type) where
  sort : (α → α → Bool) → List α → List α
  pushHeap : (α → α → Bool) → List α → List α
  popHeap : (α → α → Bool) → List α → List α
  sort_sorts : ∀ {lt : α → α → Bool} {l : List α}, WeakOrder lt l →
    (sort lt l).Perm l ∧ Sorted lt (sort lt l)
  pushHeap_heap : ∀ {lt : α → α → Bool} {l : List α} {a : α}, WeakOrder lt (l ++ [a]) →
    IsHeap lt l → (pushHeap lt (l ++ [a])).Perm (l ++ [a]) ∧ IsHeap lt (pushHeap lt (l ++ [a]))
  popHeap_heap : ∀ {lt : α → α → Bool} {l : List α} {a : α}, WeakOrder lt (a :: l) →
    IsHeap lt (a :: l) → ∃ rest, popHeap lt (a :: l) = rest ++ [a] ∧ rest.Perm l ∧ IsHeap lt rest

variable {α : Type}

def insertSorted (lt : α → α → Bool) (a : α) : List α → List α
  | [] => [a]
  | b :: l => if lt b a then b :: insertSorted lt a l else a :: b :: l

def insertionSort (lt : α → α → Bool) (l : List α) : List α := l.foldr (insertSorted lt) []

theorem insertSorted_perm (lt : α → α → Bool) (a : α) (l : List α) :
    (insertSorted lt a l).Perm (a :: l) := by
  induction l with
  | nil => exact List.Perm.refl _
  | cons b l ih =>
    rw [insertSorted]
    split
    · exact (ih.cons b).trans (List.Perm.swap a b l)
    · exact List.Perm.refl _

variable {l : List α} {lt : α → α → Bool}

theorem insertSorted_sorted {a : α} (order : WeakOrder lt (a :: l)) (sorted : Sorted lt l) :
    Sorted lt (insertSorted lt a l) := by
  induction l with
  | nil => exact List.pairwise_singleton _ _
  | cons b l ih =>
    obtain ⟨first, rest⟩ := List.pairwise_cons.mp sorted
    have inA : a ∈ a :: b :: l := List.mem_cons_self
    have inB : b ∈ a :: b :: l := List.mem_cons_of_mem _ List.mem_cons_self
    rw [insertSorted]
    split
    · rename_i below
      have order' : WeakOrder lt (a :: l) :=
        order.mono (List.cons_subset_cons a (List.subset_cons_self b l))
      refine List.Pairwise.cons (fun x member => ?_) (ih order' rest)
      rcases List.mem_cons.mp ((insertSorted_perm lt a l).mem_iff.mp member) with rfl | later
      · rcases order.total x inA b inB with notBelow | notBelow
        · exact notBelow
        · rw [below] at notBelow
          cases notBelow
      · exact first x later
    · rename_i notBelow
      have notBelow : lt b a = false := by simpa using notBelow
      refine List.Pairwise.cons (fun x member => ?_) sorted
      rcases List.mem_cons.mp member with rfl | later
      · exact notBelow
      · have inX : x ∈ a :: b :: l := List.mem_cons_of_mem _ member
        exact order.trans a inA b inB x inX notBelow (first x later)

theorem insertionSort_perm (lt : α → α → Bool) (l : List α) : (insertionSort lt l).Perm l := by
  induction l with
  | nil => exact List.Perm.refl _
  | cons a l ih => exact (insertSorted_perm lt a _).trans (ih.cons a)

theorem insertionSort_sorted (order : WeakOrder lt l) : Sorted lt (insertionSort lt l) := by
  induction l with
  | nil => exact List.Pairwise.nil
  | cons a l ih =>
    have sorted := ih (order.mono (List.subset_cons_self a l))
    exact insertSorted_sorted (order.mono ((insertionSort_perm lt l).cons a).subset) sorted

def inserting : Algorithms α where
  sort := insertionSort
  pushHeap lt l := insertionSort (fun a b => lt b a) l
  popHeap lt l :=
    match l with
    | [] => []
    | a :: l => insertionSort (fun a b => lt b a) l ++ [a]
  sort_sorts order := ⟨insertionSort_perm _ _, insertionSort_sorted order⟩
  pushHeap_heap order _ := by
    refine ⟨insertionSort_perm _ _, isHeap_of_sorted (insertionSort_sorted ?_)⟩
    exact ⟨fun a inA b inB => (order.total a inA b inB).symm,
      fun a inA b inB c inC below below' => order.trans c inC b inB a inA below' below⟩
  popHeap_heap order _ := by
    refine ⟨_, rfl, insertionSort_perm _ _, isHeap_of_sorted (insertionSort_sorted ?_)⟩
    have order := order.mono (List.subset_cons_self _ _)
    exact ⟨fun a inA b inB => (order.total a inA b inB).symm,
      fun a inA b inB c inC below below' => order.trans c inC b inB a inA below' below⟩

/-- The order with equal items told apart: those with `p` go first. -/
def refined (lt : α → α → Bool) (p : α → Bool) (a b : α) : Bool :=
  lt a b || (!lt b a && p a && !p b)

theorem refined_false {p : α → Bool} {a b : α} :
    refined lt p b a = false ↔ lt b a = false ∧ (lt a b = true ∨ p b = false ∨ p a = true) := by
  rw [refined]
  cases lt b a <;> cases lt a b <;> cases p b <;> cases p a <;> simp

theorem WeakOrder.refined (order : WeakOrder lt l) (p : α → Bool) : WeakOrder (refined lt p) l where
  total a inA b inB := by
    rw [refined_false, refined_false]
    rcases order.total a inA b inB with notBelow | notBelow
    · cases below : lt b a with
      | true => exact .inl ⟨notBelow, .inl rfl⟩
      | false =>
        cases first : p a with
        | true => exact .inr ⟨rfl, .inr (.inr rfl)⟩
        | false => exact .inl ⟨notBelow, .inr (.inl rfl)⟩
    · cases below : lt a b with
      | true => exact .inr ⟨notBelow, .inl rfl⟩
      | false =>
        cases first : p a with
        | true => exact .inr ⟨notBelow, .inr (.inr rfl)⟩
        | false => exact .inl ⟨rfl, .inr (.inl rfl)⟩
  trans a inA b inB c inC first second := by
    rw [refined_false] at first second ⊢
    refine ⟨order.trans a inA b inB c inC first.1 second.1, ?_⟩
    cases below : lt a c with
    | true => exact .inl rfl
    | false =>
      -- then all three are equal
      have same : lt a b = false := order.trans b inB c inC a inA second.1 below
      have same' : lt b c = false := order.trans c inC a inA b inB below first.1
      have left := first.2.resolve_left (by rw [same]; decide)
      have right := second.2.resolve_left (by rw [same']; decide)
      rcases right with notLast | middle
      · exact .inr (.inl notLast)
      · rcases left with notMiddle | first
        · rw [middle] at notMiddle
          cases notMiddle
        · exact .inr (.inr first)

/-- Of equal items, sort those with `p` to the front. -/
def preferring (p : α → Bool) : Algorithms α :=
  { inserting with
    sort := fun lt l => insertionSort (refined lt p) l
    sort_sorts := fun order => ⟨insertionSort_perm _ _,
      (insertionSort_sorted (order.refined p)).imp fun notAbove => (refined_false.mp notAbove).1⟩ }

end Algorithms

end GraniteDb.Lib.StdAlgorithms
