/- Trees of linked pages with fences: what holds of every page, and rules for replacing parts. -/

import Mathlib.Data.List.Nodup
import Mathlib.Data.List.Perm.Basic
import Mathlib.Algebra.Order.Group.Multiset
import Mathlib.Tactic.Abel
import Mathlib.Order.Lattice

namespace GraniteDb.Lib.BlinkTree

open List (mem_cons_self flatMap_singleton mem_singleton mem_cons mem_append_right nodup_append
  mem_append_left singleton_append map_cons cons_append pairwise_cons mem_cons_of_mem map_nil
  not_mem_nil length_cons append_of_mem map_append mem_append)
open List (append_assoc mem_map flatMap_append mem_map_of_mem nodup_cons)

universe u v w

variable {κ : Type u} {ε : Type v} {α : Type w}

section Pages

/-- The entries of a page: those of a leaf, or children with the keys between them. -/
inductive Content (κ : Type u) (ε : Type v)
  | leaf (entries : List ε)
  | internal (leftmostChild : Nat) (entries : List (κ × Nat))
  deriving DecidableEq

/-- A page of a tree. A retired page sends its readers elsewhere. -/
structure Node (κ : Type u) (ε : Type v) where
  content : Content κ ε
  retired : Bool
  rightLink : Option Nat
  redirect : Option Nat
  highKey : Option κ
  deriving DecidableEq

abbrev Store (κ : Type u) (ε : Type v) := Nat → Option (Node κ ε)

/-- A page with the fences its ancestors give it: the keys from `low` on, below `high`. -/
structure Span (κ : Type u) where
  low : Option κ
  page : Nat
  high : Option κ
  deriving DecidableEq

def spans (low : Option κ) (first : Nat) : List (κ × Nat) → Option κ → List (Span κ)
  | [], high => [⟨low, first, high⟩]
  | (k, child) :: rest, high => ⟨low, first, some k⟩ :: spans (some k) child rest high

def children (pages : Store κ ε) (s : Span κ) : List (Span κ) :=
  match (pages s.page).map Node.content with
  | some (.internal first entries) => spans s.low first entries s.high
  | _ => []

def entriesAt (pages : Store κ ε) (s : Span κ) : List ε :=
  match (pages s.page).map Node.content with
  | some (.leaf entries) => entries
  | _ => []

def rightLinkOf (pages : Store κ ε) (p : Nat) : Option Nat := (pages p).bind Node.rightLink

/-- The leaves under a row of pages that lie `h` levels above them. -/
def leaves (pages : Store κ ε) : Nat → List (Span κ) → List (Span κ)
  | 0, row => row
  | h + 1, row => leaves pages h (row.flatMap (children pages))

def pagesOf (pages : Store κ ε) : Nat → List (Span κ) → List Nat
  | 0, row => row.map Span.page
  | h + 1, row => row.map Span.page ++ pagesOf pages h (row.flatMap (children pages))

def contents (pages : Store κ ε) (h : Nat) (row : List (Span κ)) : List ε :=
  (leaves pages h row).flatMap (entriesAt pages)

/-- Each page links to the next, the last to `last`. -/
def Linked (pages : Store κ ε) (last : Option Nat) : List Nat → Prop
  | [] => True
  | p :: rest => rightLinkOf pages p = rest.head?.or last ∧ Linked pages last rest

theorem spans_first (low : Option κ) (first : Nat) (entries : List (κ × Nat)) (high : Option κ) :
    ∃ c rest, spans low first entries high = c :: rest ∧ c.page = first := by
  cases entries with
  | nil => exact ⟨_, _, rfl, rfl⟩
  | cons e entries => exact ⟨_, _, rfl, rfl⟩

theorem spans_append (low : Option κ) (first : Nat) (left right : List (κ × Nat)) (k : κ)
    (child : Nat) (high : Option κ) : spans low first (left ++ (k, child) :: right) high =
      spans low first left (some k) ++ spans (some k) child right high := by
  induction left generalizing low first with
  | nil => rfl
  | cons e left ih => rw [cons_append, spans, spans, ih, cons_append]

variable {pages pages' : Store κ ε} {s : Span κ} {row : List (Span κ)} {h : Nat}

theorem children_internal {node : Node κ ε} {first : Nat} {entries : List (κ × Nat)}
    (here : pages s.page = some node) (content : node.content = .internal first entries) :
    children pages s = spans s.low first entries s.high := by
  rw [children, here, Option.map_some, content]

theorem entriesAt_leaf {node : Node κ ε} {entries : List ε} (here : pages s.page = some node)
    (content : node.content = .leaf entries) :
    entriesAt pages s = entries := by
  rw [entriesAt, here, Option.map_some, content]

theorem leaves_append (pages : Store κ ε) (h : Nat) (left right : List (Span κ)) :
    leaves pages h (left ++ right) = leaves pages h left ++ leaves pages h right := by
  induction h generalizing left right with
  | zero => rfl
  | succ h ih => rw [leaves, flatMap_append, ih]; rfl

theorem leaves_nil (pages : Store κ ε) (h : Nat) : leaves pages h [] = [] := by
  induction h with
  | zero => rfl
  | succ h ih => exact ih

theorem mem_leaves {t : Span κ} (leaf : t ∈ leaves pages h row) :
    ∃ s ∈ row, t ∈ leaves pages h [s] := by
  induction row with
  | nil =>
    rw [leaves_nil] at leaf
    cases leaf
  | cons s row ih =>
    rw [← singleton_append, leaves_append] at leaf
    obtain here | later := mem_append.mp leaf
    · exact ⟨s, mem_cons_self, here⟩
    · obtain ⟨s', member, under⟩ := ih later
      exact ⟨s', mem_cons_of_mem _ member, under⟩

theorem contents_append (pages : Store κ ε) (h : Nat) (left right : List (Span κ)) :
    contents pages h (left ++ right) = contents pages h left ++ contents pages h right := by
  rw [contents, leaves_append, flatMap_append]
  rfl

theorem contents_succ (pages : Store κ ε) (h : Nat) (row : List (Span κ)) :
    contents pages (h + 1) row = contents pages h (row.flatMap (children pages)) := rfl

theorem pagesOf_append (pages : Store κ ε) (h : Nat) (left right : List (Span κ)) :
    (pagesOf pages h (left ++ right)).Perm (pagesOf pages h left ++ pagesOf pages h right) := by
  induction h generalizing left right with
  | zero => rw [pagesOf, map_append]; rfl
  | succ h ih =>
    rw [pagesOf, map_append, flatMap_append, pagesOf, pagesOf]
    refine ((ih _ _).append_left _).trans ?_
    simp only [append_assoc]
    refine List.Perm.append_left _ ?_
    simp only [← append_assoc]
    exact List.perm_append_comm.append_right _

theorem linked_append (pages : Store κ ε) (last : Option Nat) (left right : List Nat) :
    Linked pages last (left ++ right) ↔
      Linked pages (right.head?.or last) left ∧ Linked pages last right := by
  induction left with
  | nil => simp [Linked]
  | cons p left ih =>
    rw [cons_append, Linked, Linked, ih, List.head?_append, Option.or_assoc, and_assoc]

theorem linked_congr {last : Option Nat} {row : List Nat} (same : ∀ p ∈ row, pages' p = pages p) :
    Linked pages' last row ↔ Linked pages last row := by
  induction row with
  | nil => rfl
  | cons p row ih =>
    have here : rightLinkOf pages' p = rightLinkOf pages p := by
      rw [rightLinkOf, rightLinkOf, same p mem_cons_self]
    rw [Linked, Linked, here, ih fun q member => same q (mem_cons_of_mem _ member)]

theorem children_congr (same : pages' s.page = pages s.page) :
    children pages' s = children pages s := by
  rw [children, children, same]

theorem flatMap_children_congr (same : ∀ p ∈ row.map Span.page, pages' p = pages p) :
    row.flatMap (children pages') = row.flatMap (children pages) :=
  List.flatMap_congr fun s member => children_congr (same s.page (mem_map_of_mem member))

theorem under_congr (same : ∀ p ∈ pagesOf pages h row, pages' p = pages p) :
    leaves pages' h row = leaves pages h row ∧ pagesOf pages' h row = pagesOf pages h row := by
  induction h generalizing row with
  | zero => exact ⟨rfl, rfl⟩
  | succ h ih =>
    have kids := flatMap_children_congr fun p member =>
      same p (mem_append_left _ member)
    obtain ⟨left, right⟩ := ih fun p member =>
      same p (mem_append_right _ member)
    exact ⟨by rw [leaves, kids, left, leaves], by rw [pagesOf, kids, right, pagesOf]⟩

theorem mem_pagesOf_leaves (leaf : s ∈ leaves pages h row) : s.page ∈ pagesOf pages h row := by
  induction h generalizing row with
  | zero => exact mem_map_of_mem leaf
  | succ h ih => exact mem_append_right _ (ih leaf)

theorem contents_congr (same : ∀ p ∈ pagesOf pages h row, pages' p = pages p) :
    contents pages' h row = contents pages h row := by
  rw [contents, contents, (under_congr same).1]
  refine List.flatMap_congr fun s leaf => ?_
  rw [entriesAt, entriesAt, same s.page (mem_pagesOf_leaves leaf)]

end Pages

section Rows

/-- What is asked of a leaf and of an internal page that have the given fences. -/
structure Rule (κ : Type u) (ε : Type v) where
  leaf : Span κ → Node κ ε → List ε → Prop
  internal : Span κ → Node κ ε → List (κ × Nat) → Prop

variable (rule : Rule κ ε)

def LeafAt (pages : Store κ ε) (s : Span κ) : Prop :=
  ∃ node entries, pages s.page = some node ∧ node.content = .leaf entries ∧
    rule.leaf s node entries

def InternalAt (pages : Store κ ε) (s : Span κ) : Prop :=
  ∃ node first entries, pages s.page = some node ∧ node.content = .internal first entries ∧
    rule.internal s node entries

/-- The pages of a row and all pages under it are as the rule asks; the leaves lie `h` levels
below. -/
def Below (pages : Store κ ε) : Nat → List (Span κ) → Prop
  | 0, row => ∀ s ∈ row, LeafAt rule pages s
  | h + 1, row =>
    (∀ s ∈ row, InternalAt rule pages s) ∧ Below pages h (row.flatMap (children pages))

variable {rule} {pages pages' pages'' : Store κ ε} {n n' n'' h : Nat} {lost got : Multiset ε}

variable {s : Span κ} {row old new : List (Span κ)}

theorem LeafAt.congr (same : pages' s.page = pages s.page) :
    LeafAt rule pages' s ↔ LeafAt rule pages s := by
  rw [LeafAt, LeafAt, same]

theorem InternalAt.congr (same : pages' s.page = pages s.page) :
    InternalAt rule pages' s ↔ InternalAt rule pages s := by
  rw [InternalAt, InternalAt, same]

theorem below_append (left right : List (Span κ)) :
    Below rule pages h (left ++ right) ↔ Below rule pages h left ∧ Below rule pages h right := by
  induction h generalizing left right with
  | zero => exact List.forall_mem_append
  | succ h ih =>
    rw [Below, List.forall_mem_append, flatMap_append, ih, Below, Below]
    tauto

theorem below_congr (same : ∀ p ∈ pagesOf pages h row, pages' p = pages p) :
    Below rule pages' h row ↔ Below rule pages h row := by
  induction h generalizing row with
  | zero =>
    refine forall₂_congr fun s member => LeafAt.congr (same s.page ?_)
    exact mem_map_of_mem member
  | succ h ih =>
    have kids := flatMap_children_congr fun p member =>
      same p (mem_append_left _ member)
    rw [Below, Below, kids, ih fun p member => same p (mem_append_right _ member)]
    refine and_congr_left fun _ => forall₂_congr fun s member => InternalAt.congr (same s.page ?_)
    exact mem_append_left _ (mem_map_of_mem member)

theorem below_leaves (below : Below rule pages h row) :
    ∀ s ∈ leaves pages h row, LeafAt rule pages s := by
  induction h generalizing row with
  | zero => exact below
  | succ h ih => exact ih below.2

theorem Below.mono {rule' : Rule κ ε} (below : Below rule pages h row)
    (leaf : ∀ s node entries, rule.leaf s node entries → rule'.leaf s node entries)
    (internal : ∀ s node entries, rule.internal s node entries → rule'.internal s node entries) :
    Below rule' pages h row := by
  induction h generalizing row with
  | zero =>
    intro s member
    obtain ⟨node, entries, here, content, holds⟩ := below s member
    exact ⟨node, entries, here, content, leaf s node entries holds⟩
  | succ h ih =>
    refine ⟨fun s member => ?_, ih below.2⟩
    obtain ⟨node, first, entries, here, content, holds⟩ := below.1 s member
    exact ⟨node, first, entries, here, content, internal s node entries holds⟩

/-- The part of a tree under the row `old` was replaced by one under the row `new`, which has lost
some entries and got others. Pages from `n` to `n'` were not in use before. -/
structure Replaced (rule : Rule κ ε) (lost got : Multiset ε) (pages pages' : Store κ ε)
    (n n' h : Nat) (old new : List (Span κ)) : Prop where
  below : Below rule pages' h new
  nodup : (pagesOf pages' h new).Nodup
  used : ∀ p ∈ pagesOf pages' h new, p ∈ pagesOf pages h old ∨ (n ≤ p ∧ p < n')
  frame : ∀ p, p < n → p ∉ pagesOf pages h old → pages' p = pages p
  exchanged : (contents pages' h new : Multiset ε) + lost = contents pages h old + got
  first : ((leaves pages' h new).map Span.page).head? = ((leaves pages h old).map Span.page).head?
  linked : ∀ last, Linked pages last ((leaves pages h old).map Span.page) →
    Linked pages' last ((leaves pages' h new).map Span.page)
  grown : n ≤ n'

theorem Replaced.context {before after : List (Span κ)}
    (replaced : Replaced rule lost got pages pages' n n' h old new)
    (below : Below rule pages h (before ++ old ++ after))
    (nodup : (pagesOf pages h (before ++ old ++ after)).Nodup)
    (bounded : ∀ p ∈ pagesOf pages h (before ++ old ++ after), p < n) :
    Replaced rule lost got pages pages' n n' h (before ++ old ++ after) (before ++ new ++ after) := by
  have permOld := (pagesOf_append pages h (before ++ old) after).trans
    ((pagesOf_append pages h before old).append_right _)
  have permNew := (pagesOf_append pages' h (before ++ new) after).trans
    ((pagesOf_append pages' h before new).append_right _)
  have apart := permOld.nodup_iff.mp nodup
  rw [nodup_append, nodup_append] at apart
  obtain ⟨⟨nodupBefore, _, apartBefore⟩, nodupAfter, apartAfter⟩ := apart
  have member {p : Nat} : p ∈ pagesOf pages h (before ++ old ++ after) ↔
      (p ∈ pagesOf pages h before ∨ p ∈ pagesOf pages h old) ∨ p ∈ pagesOf pages h after := by
    rw [permOld.mem_iff, mem_append, mem_append]
  have sameBefore : ∀ p ∈ pagesOf pages h before, pages' p = pages p := fun p inside =>
    replaced.frame p (bounded p (member.mpr (.inl (.inl inside))))
      fun shared => apartBefore p inside p shared rfl
  have sameAfter : ∀ p ∈ pagesOf pages h after, pages' p = pages p := fun p inside =>
    replaced.frame p (bounded p (member.mpr (.inr inside)))
      fun shared => apartAfter p (mem_append_right _ shared) p inside rfl
  obtain ⟨leavesBefore, pagesBefore⟩ := under_congr sameBefore
  obtain ⟨leavesAfter, pagesAfter⟩ := under_congr sameAfter
  rw [pagesBefore, pagesAfter] at permNew
  rw [below_append, below_append] at below
  have sameLinks {h : Nat} {row : List (Span κ)}
      (same : ∀ p ∈ pagesOf pages h row, pages' p = pages p) (last : Option Nat) :
      Linked pages' last ((leaves pages h row).map Span.page) ↔
        Linked pages last ((leaves pages h row).map Span.page) := by
    refine linked_congr fun p inside => same p ?_
    obtain ⟨s, leaf, rfl⟩ := mem_map.mp inside
    exact mem_pagesOf_leaves leaf
  refine ⟨?_, ?_, ?_, ?_, ?_, ?_, ?_, replaced.grown⟩
  · rw [below_append, below_append, below_congr sameBefore, below_congr sameAfter]
    exact ⟨⟨below.1.1, replaced.below⟩, below.2⟩
  · refine permNew.nodup_iff.mpr ?_
    have foreign {p q : Nat} (inside : p ∈ pagesOf pages' h new)
        (other : q ∈ pagesOf pages h before ∨ q ∈ pagesOf pages h after) : p ≠ q := by
      rintro rfl
      obtain kept | fresh := replaced.used p inside
      · obtain inBefore | inAfter := other
        · exact apartBefore p inBefore p kept rfl
        · exact apartAfter p (mem_append_right _ kept) p inAfter rfl
      · have small : p < n := by
          obtain inBefore | inAfter := other
          · exact bounded p (member.mpr (.inl (.inl inBefore)))
          · exact bounded p (member.mpr (.inr inAfter))
        omega
    rw [nodup_append, nodup_append]
    refine ⟨⟨nodupBefore, replaced.nodup, fun p inBefore q inside =>
      (foreign inside (.inl inBefore)).symm⟩, nodupAfter, fun p inside q inAfter => ?_⟩
    obtain inBefore | inside := mem_append.mp inside
    · exact apartAfter p (mem_append_left _ inBefore) q inAfter
    · exact foreign inside (.inr inAfter)
  · intro p inside
    rw [member]
    rw [permNew.mem_iff, mem_append, mem_append] at inside
    obtain (inBefore | inside) | inAfter := inside
    · exact .inl (.inl (.inl inBefore))
    · obtain kept | fresh := replaced.used p inside
      · exact .inl (.inl (.inr kept))
      · exact .inr fresh
    · exact .inl (.inr inAfter)
  · intro p small outside
    rw [member] at outside
    exact replaced.frame p small fun inside => outside (.inl (.inr inside))
  · have here := replaced.exchanged
    simp only [contents_append, contents_congr sameBefore, contents_congr sameAfter,
      ← Multiset.coe_add]
    calc (contents pages h before + contents pages' h new + contents pages h after : Multiset ε) +
          lost = contents pages h before + (contents pages' h new + lost) +
            contents pages h after := by abel
      _ = contents pages h before + contents pages h old + contents pages h after + got := by
          rw [here]
          abel
  · simp only [leaves_append, map_append, List.head?_append, leavesBefore, leavesAfter,
      replaced.first]
  · intro last linked
    simp only [leaves_append, map_append, linked_append] at linked ⊢
    rw [leavesBefore, leavesAfter, sameLinks sameBefore, sameLinks sameAfter, replaced.first]
    exact ⟨⟨linked.1.1, replaced.linked _ linked.1.2⟩, linked.2⟩

theorem Replaced.parents {parents parents' : List (Span κ)}
    (replaced : Replaced rule lost got pages pages' n n' h (parents.flatMap (children pages)) row)
    (nodup : (pagesOf pages (h + 1) parents).Nodup)
    (bounded : ∀ p ∈ pagesOf pages (h + 1) parents, p < n)
    (internal : ∀ s ∈ parents', InternalAt rule pages'' s)
    (kids : parents'.flatMap (children pages'') = row) (nodup' : (parents'.map Span.page).Nodup)
    (used : ∀ p ∈ parents'.map Span.page, p ∈ parents.map Span.page ∨ (n' ≤ p ∧ p < n''))
    (outside : ∀ p, p ∉ parents'.map Span.page → p ∉ parents.map Span.page → pages'' p = pages' p)
    (grown : n' ≤ n'') : Replaced rule lost got pages pages'' n n'' (h + 1) parents parents' := by
  rw [pagesOf] at nodup bounded
  obtain ⟨_, _, apart⟩ := nodup_append.mp nodup
  have grown' := replaced.grown
  have foreign {p : Nat} (own : p ∈ parents'.map Span.page ∨ p ∈ parents.map Span.page) :
      p ∉ pagesOf pages' h row := by
    intro inside
    have before : p ∈ parents.map Span.page ∨ (n' ≤ p ∧ p < n'') := by
      obtain new | old := own
      · exact used p new
      · exact .inl old
    obtain kept | fresh := replaced.used p inside
    · obtain old | fresh := before
      · exact apart p old p kept rfl
      · have := bounded p (mem_append_right _ kept)
        omega
    · obtain old | fresh' := before
      · have := bounded p (mem_append_left _ old)
        omega
      · omega
  have same : ∀ p ∈ pagesOf pages' h row, pages'' p = pages' p := fun p inside =>
    outside p (fun new => foreign (.inl new) inside) fun old => foreign (.inr old) inside
  obtain ⟨sameLeaves, samePages⟩ := under_congr same
  refine ⟨⟨internal, ?_⟩, ?_, ?_, ?_, ?_, ?_, ?_, by omega⟩
  · rw [kids, below_congr same]
    exact replaced.below
  · rw [pagesOf, kids, samePages, nodup_append]
    refine ⟨nodup', replaced.nodup, ?_⟩
    rintro p new q inside rfl
    exact foreign (.inl new) inside
  · intro p member
    rw [pagesOf, kids, samePages] at member
    rw [pagesOf, mem_append]
    obtain new | inside := mem_append.mp member
    · obtain old | fresh := used p new
      · exact .inl (.inl old)
      · exact .inr ⟨by omega, fresh.2⟩
    · obtain kept | fresh := replaced.used p inside
      · exact .inl (.inr kept)
      · exact .inr ⟨fresh.1, by omega⟩
  · intro p small absent
    rw [pagesOf, mem_append, not_or] at absent
    rw [outside p ?_ absent.1, replaced.frame p small absent.2]
    intro new
    obtain old | fresh := used p new
    · exact absent.1 old
    · omega
  · have under : contents pages'' (h + 1) parents' = contents pages' h row := by
      rw [← contents_congr same, contents, leaves, kids, contents]
    rw [under]
    exact replaced.exchanged
  · rw [leaves, kids, sameLeaves]
    exact replaced.first
  · intro last linked
    rw [leaves, kids, sameLeaves, linked_congr fun p inside => same p ?_]
    · exact replaced.linked last linked
    · obtain ⟨s, leaf, rfl⟩ := mem_map.mp inside
      exact mem_pagesOf_leaves leaf

theorem Replaced.leaves (leaf : ∀ s ∈ new, LeafAt rule pages' s) (nodup : (new.map Span.page).Nodup)
    (used : ∀ p ∈ new.map Span.page, p ∈ old.map Span.page ∨ (n ≤ p ∧ p < n'))
    (outside : ∀ p, p < n → p ∉ old.map Span.page → pages' p = pages p)
    (exchanged : (new.flatMap (entriesAt pages') : Multiset ε) + lost = old.flatMap (entriesAt
      pages) + got)
    (first : (new.map Span.page).head? = (old.map Span.page).head?)
    (linked : ∀ last, Linked pages last (old.map Span.page) → Linked pages' last (new.map
      Span.page))
    (grown : n ≤ n') :
    Replaced rule lost got pages pages' n n' 0 old new :=
  ⟨leaf, nodup, used, outside, exchanged, first, linked, grown⟩

theorem Replaced.leaf (leaf : LeafAt rule pages' s) (outside : ∀ q, q ≠ s.page → pages' q = pages q)
    (link : rightLinkOf pages' s.page = rightLinkOf pages s.page)
    (exchanged : (entriesAt pages' s : Multiset ε) + lost = entriesAt pages s + got) :
    Replaced rule lost got pages pages' n n 0 [s] [s] := by
  refine Replaced.leaves (fun t member => ?_) (List.nodup_singleton _) (fun p member => .inl member)
    (fun p _ absent => outside p fun same => absent ?_) ?_ rfl (fun last linked => ?_) (Nat.le_refl n)
  · rw [mem_singleton.mp member]
    exact leaf
  · rw [same]
    exact mem_cons_self
  · rw [flatMap_singleton, flatMap_singleton]
    exact exchanged
  · rw [List.map_singleton, Linked] at linked ⊢
    rw [link]
    exact linked

theorem Replaced.leaf_split {k : κ} {new : Nat} (leaf : LeafAt rule pages' ⟨s.low, s.page, some k⟩)
    (leaf' : LeafAt rule pages' ⟨some k, new, s.high⟩) (small : s.page < n)
    (fresh : n ≤ new ∧ new < n') (outside : ∀ q, q ≠ s.page → q ≠ new → pages' q = pages q)
    (link : rightLinkOf pages' s.page = some new)
    (link' : rightLinkOf pages' new = rightLinkOf pages s.page)
    (exchanged : (entriesAt pages' ⟨s.low, s.page, some k⟩ : Multiset ε) + entriesAt pages' ⟨some
      k, new, s.high⟩ + lost = entriesAt pages s + got) :
    Replaced rule lost got pages pages' n n' 0 [s]
      [⟨s.low, s.page, some k⟩, ⟨some k, new, s.high⟩] := by
  refine Replaced.leaves (fun t member => ?_) ?_ (fun p member => ?_) (fun p old absent => ?_) ?_ rfl
    (fun last linked => ?_) (by omega)
  · obtain rfl | behind := mem_cons.mp member
    · exact leaf
    · rw [mem_singleton.mp behind]
      exact leaf'
  · simp only [map_cons, map_nil, nodup_cons, mem_singleton, not_mem_nil,
      not_false_eq_true, List.nodup_nil, and_true]
    omega
  · simp only [map_cons, map_nil, mem_cons, not_mem_nil, or_false] at member ⊢
    obtain rfl | rfl := member
    · exact .inl rfl
    · exact .inr fresh
  · refine outside p (fun same => absent ?_) (by omega)
    rw [same]
    exact mem_cons_self
  · simp only [List.flatMap_cons, List.flatMap_nil, List.append_nil, ← Multiset.coe_add]
    exact exchanged
  · simp only [map_cons, map_nil, Linked, List.head?_nil, List.head?_cons,
      Option.none_or, Option.some_or, and_true] at linked ⊢
    rw [link, link']
    exact ⟨rfl, linked⟩

theorem Replaced.climb {parent : Span κ} {before after parents' : List (Span κ)}
    (replaced : Replaced rule lost got pages pages' n n' h old new)
    (split : children pages parent = before ++ old ++ after)
    (below : Below rule pages (h + 1) [parent]) (nodup : (pagesOf pages (h + 1) [parent]).Nodup)
    (bounded : ∀ p ∈ pagesOf pages (h + 1) [parent], p < n)
    (internal : ∀ s ∈ parents', InternalAt rule pages'' s)
    (kids : parents'.flatMap (children pages'') = before ++ new ++ after)
    (nodup' : (parents'.map Span.page).Nodup)
    (used : ∀ p ∈ parents'.map Span.page, p = parent.page ∨ (n' ≤ p ∧ p < n''))
    (outside : ∀ p, p ∉ parents'.map Span.page → p ≠ parent.page → pages'' p = pages' p)
    (grown : n' ≤ n'') : Replaced rule lost got pages pages'' n n'' (h + 1) [parent] parents' := by
  have row : [parent].flatMap (children pages) = before ++ old ++ after := by
    rw [flatMap_singleton, split]
  have kidsBelow := below.2
  have under : ∀ p ∈ pagesOf pages h (before ++ old ++ after),
      p ∈ pagesOf pages (h + 1) [parent] := by
    intro p inside
    rw [pagesOf, row]
    exact mem_append_right _ inside
  rw [row] at kidsBelow
  have nodupKids : (pagesOf pages h (before ++ old ++ after)).Nodup := by
    rw [pagesOf, row] at nodup
    exact (nodup_append.mp nodup).2.1
  have beside := replaced.context kidsBelow nodupKids fun p inside => bounded p (under p inside)
  rw [← row] at beside
  refine beside.parents nodup bounded internal kids nodup' ?_ ?_ grown
  · intro p member
    obtain same | fresh := used p member
    · exact .inl (by rw [same]; exact mem_cons_self)
    · exact .inr fresh
  · intro p absent distinct
    refine outside p absent fun same => distinct ?_
    rw [same]
    exact mem_cons_self

end Rows

section Trees

variable {rule : Rule κ ε} {pages pages' : Store κ ε} {n n' h height root : Nat}
  {lost got : Multiset ε}

def rootSpan (root : Nat) : Span κ := ⟨none, root, none⟩

/-- A tree whose leaves lie `height` levels below its root, on pages below `n`. -/
structure Tree (rule : Rule κ ε) (pages : Store κ ε) (n height root : Nat) : Prop where
  below : Below rule pages height [rootSpan root]
  nodup : (pagesOf pages height [(rootSpan root : Span κ)]).Nodup
  bounded : ∀ p ∈ pagesOf pages height [(rootSpan root : Span κ)], p < n
  linked : Linked pages none ((leaves pages height [rootSpan root]).map Span.page)

theorem Tree.replace (tree : Tree rule pages n height root)
    (replaced : Replaced rule lost got pages pages' n n' height [rootSpan root] [rootSpan root]) :
    Tree rule pages' n' height root := by
  refine ⟨replaced.below, replaced.nodup, fun p inside => ?_, replaced.linked none tree.linked⟩
  have grown := replaced.grown
  obtain kept | fresh := replaced.used p inside
  · have := tree.bounded p kept
    omega
  · exact fresh.2

variable {pages'' : Store κ ε}

theorem Tree.grow (tree : Tree rule pages n height root) {row : List (Span κ)} {newRoot : Nat}
    {n'' : Nat}
    (replaced : Replaced rule lost got pages pages' n n' height [rootSpan root] row)
    (internal : InternalAt rule pages'' (rootSpan newRoot))
    (kids : children pages'' (rootSpan newRoot) = row) (fresh : n' ≤ newRoot ∧ newRoot < n'')
    (outside : ∀ p, p ≠ newRoot → pages'' p = pages' p) :
    Tree rule pages'' n'' (height + 1) newRoot := by
  have old := replaced.used
  have small : ∀ p ∈ pagesOf pages' height row, p < n' := by
    intro p inside
    have grown := replaced.grown
    obtain kept | new := old p inside
    · have := tree.bounded p kept
      omega
    · exact new.2
  have same : ∀ p ∈ pagesOf pages' height row, pages'' p = pages' p := by
    intro p inside
    refine outside p fun here => ?_
    have := small p inside
    omega
  obtain ⟨sameLeaves, samePages⟩ := under_congr same
  have row_eq : [(rootSpan newRoot : Span κ)].flatMap (children pages'') = row := by
    rw [flatMap_singleton, kids]
  refine ⟨⟨fun s member => ?_, ?_⟩, ?_, ?_, ?_⟩
  · rw [mem_singleton.mp member]
    exact internal
  · rw [row_eq, below_congr same]
    exact replaced.below
  · rw [pagesOf, row_eq, samePages, List.map_singleton, singleton_append, nodup_cons]
    refine ⟨fun inside => ?_, replaced.nodup⟩
    have bound := small _ inside
    simp only [rootSpan] at bound
    omega
  · intro p member
    rw [pagesOf, row_eq, samePages, List.map_singleton, singleton_append,
      mem_cons] at member
    obtain rfl | inside := member
    · exact fresh.2
    · have := small p inside
      omega
  · rw [leaves, row_eq, sameLeaves, linked_congr fun p inside => same p ?_]
    · exact replaced.linked none tree.linked
    · obtain ⟨s, leaf, rfl⟩ := mem_map.mp inside
      exact mem_pagesOf_leaves leaf

inductive Path (pages : Store κ ε) (top : Span κ) : List (Span κ) → Span κ → Prop
  | here : Path pages top [] top
  | down {stack : List (Span κ)} {parent s : Span κ} (path : Path pages top stack parent)
      (child : s ∈ children pages parent) : Path pages top (parent :: stack) s

structure Under (rule : Rule κ ε) (pages : Store κ ε) (n h : Nat) (s : Span κ) : Prop where
  below : Below rule pages h [s]
  nodup : (pagesOf pages h [s]).Nodup
  bounded : ∀ p ∈ pagesOf pages h [s], p < n

theorem Tree.under (tree : Tree rule pages n height root) :
    Under rule pages n height (rootSpan root) := ⟨tree.below, tree.nodup, tree.bounded⟩

variable {s top : Span κ} {stack : List (Span κ)}

theorem Under.child {parent : Span κ} (under : Under rule pages n (h + 1) parent)
    (child : s ∈ children pages parent) :
    Under rule pages n h s ∧ parent.page ∉ pagesOf pages h [s] ∧
      ∀ p ∈ pagesOf pages h [s], p ∈ pagesOf pages (h + 1) [parent] := by
  obtain ⟨before, after, split⟩ := append_of_mem child
  have row : [parent].flatMap (children pages) = before ++ ([s] ++ after) := by
    rw [flatMap_singleton, split, singleton_append]
  obtain ⟨⟨_, below⟩, nodup, bounded⟩ := under
  rw [row, below_append, below_append] at below
  have perm := (pagesOf_append pages h before ([s] ++ after)).trans
    ((pagesOf_append pages h [s] after).append_left _)
  rw [pagesOf, row] at nodup
  obtain ⟨_, nodupKids, apart⟩ := nodup_append.mp nodup
  have inside {p : Nat} (member : p ∈ pagesOf pages h [s]) :
      p ∈ pagesOf pages h (before ++ ([s] ++ after)) :=
    perm.mem_iff.mpr (mem_append_right _ (mem_append_left _ member))
  have up {p : Nat} (member : p ∈ pagesOf pages h [s]) : p ∈ pagesOf pages (h + 1) [parent] := by
    rw [pagesOf, row]
    exact mem_append_right _ (inside member)
  refine ⟨⟨below.2.1, ?_, fun p member => bounded p (up member)⟩, ?_, fun p => up⟩
  · have split := perm.nodup_iff.mp nodupKids
    rw [nodup_append, nodup_append] at split
    exact split.2.1.1
  · intro member
    exact apart parent.page mem_cons_self parent.page (inside member) rfl

theorem Replaced.parent {parent : Span κ} {before after old new : List (Span κ)}
    (replaced : Replaced rule lost got pages pages' n n' h old new)
    (under : Under rule pages n (h + 1) parent)
    (split : children pages parent = before ++ old ++ after)
    (internal : InternalAt rule pages'' parent)
    (kids : children pages'' parent = before ++ new ++ after)
    (outside : ∀ q, q ≠ parent.page → pages'' q = pages' q) :
    Replaced rule lost got pages pages'' n n' (h + 1) [parent] [parent] := by
  refine replaced.climb split under.below under.nodup under.bounded (fun t member => ?_) ?_
    (List.nodup_singleton _) (fun p member => .inl (mem_singleton.mp member))
    (fun p _ other => outside p other) (Nat.le_refl n')
  · rw [mem_singleton.mp member]
    exact internal
  · rw [flatMap_singleton, kids]

theorem Replaced.parent_split {parent : Span κ} {before after old new : List (Span κ)} {k : κ}
    {fresh n'' : Nat}
    (replaced : Replaced rule lost got pages pages' n n' h old new)
    (under : Under rule pages n (h + 1) parent)
    (split : children pages parent = before ++ old ++ after)
    (internal : InternalAt rule pages'' ⟨parent.low, parent.page, some k⟩)
    (internal' : InternalAt rule pages'' ⟨some k, fresh, parent.high⟩)
    (kids : children pages'' ⟨parent.low, parent.page, some k⟩ ++
      children pages'' ⟨some k, fresh, parent.high⟩ = before ++ new ++ after)
    (unused : n' ≤ fresh ∧ fresh < n'')
    (outside : ∀ q, q ≠ parent.page → q ≠ fresh → pages'' q = pages' q) :
    Replaced rule lost got pages pages'' n n'' (h + 1) [parent]
      [⟨parent.low, parent.page, some k⟩, ⟨some k, fresh, parent.high⟩] := by
  have small := under.bounded parent.page (mem_append_left _ mem_cons_self)
  have grown := replaced.grown
  refine replaced.climb split under.below under.nodup under.bounded (fun t member => ?_) ?_ ?_
    (fun p member => ?_) (fun p absent other => outside p other fun same => absent ?_) (by omega)
  · obtain rfl | behind := mem_cons.mp member
    · exact internal
    · rw [mem_singleton.mp behind]
      exact internal'
  · rw [List.flatMap_cons, flatMap_singleton, kids]
  · simp only [map_cons, map_nil, nodup_cons, mem_singleton, not_mem_nil,
      not_false_eq_true, List.nodup_nil, and_true]
    omega
  · simp only [map_cons, map_nil, mem_cons, not_mem_nil, or_false] at member
    obtain rfl | rfl := member
    · exact .inl rfl
    · exact .inr unused
  · rw [same]
    exact mem_cons_of_mem _ mem_cons_self

theorem Under.no_child {parent : Span κ} (under : Under rule pages n 0 parent) :
    s ∉ children pages parent := by
  obtain ⟨node, entries, here, content, _⟩ := under.below parent mem_cons_self
  rw [children, here, Option.map_some, content]
  exact not_mem_nil

theorem Path.under (path : Path pages top stack s) (under : Under rule pages n height top) :
    ∃ h, height = h + stack.length ∧ Under rule pages n h s ∧
      (∀ p ∈ pagesOf pages h [s], p ∈ pagesOf pages height [top]) ∧
      ∀ a ∈ stack, a.page ∉ pagesOf pages h [s] := by
  induction path with
  | here => exact ⟨height, rfl, under, fun _ inside => inside, fun a member => by cases member⟩
  | @down stack parent s path child ih =>
    obtain ⟨h, rfl, underParent, up, apart⟩ := ih
    cases h with
    | zero => exact absurd child underParent.no_child
    | succ h =>
      obtain ⟨underChild, distinct, inside⟩ := underParent.child child
      refine ⟨h, by rw [length_cons]; omega, underChild,
        fun p member => up p (inside p member), ?_⟩
      intro a member below
      obtain rfl | above := mem_cons.mp member
      · exact distinct below
      · exact apart a above (inside _ below)

theorem Path.leaves {t : Span κ} (path : Path pages top stack s) (leaf : t ∈ leaves pages h [s]) :
    t ∈ leaves pages (h + stack.length) [top] := by
  induction path generalizing h with
  | here => exact leaf
  | @down stack parent s path child ih =>
    obtain ⟨before, after, split⟩ := append_of_mem child
    have above : t ∈ BlinkTree.leaves pages (h + 1) [parent] := by
      rw [BlinkTree.leaves, flatMap_singleton, split, ← singleton_append, leaves_append,
        leaves_append]
      exact mem_append_right _ (mem_append_left _ leaf)
    have length : h + (parent :: stack).length = h + 1 + stack.length := by
      rw [length_cons]
      omega
    rw [length]
    exact ih above

theorem Path.lift (path : Path pages top stack s)
    (under : Under rule pages n (h + stack.length) top)
    (replaced : Replaced rule lost got pages pages' n n' h [s] [s]) :
    Replaced rule lost got pages pages' n n' (h + stack.length) [top] [top] := by
  induction path generalizing h with
  | here => exact replaced
  | @down stack parent s path child ih =>
    have height : h + (parent :: stack).length = h + 1 + stack.length := by
      rw [length_cons]
      omega
    rw [height] at under ⊢
    obtain ⟨h', same, underParent, up, _⟩ := path.under under
    obtain rfl : h' = h + 1 := by omega
    obtain ⟨before, after, split⟩ := append_of_mem child
    obtain ⟨_, distinct, _⟩ := underParent.child child
    have small := underParent.bounded parent.page (mem_append_left _ mem_cons_self)
    have kept := replaced.frame parent.page small distinct
    have place : children pages parent = before ++ [s] ++ after := by
      rw [split, append_assoc, singleton_append]
    refine ih under (replaced.climb place underParent.below
      underParent.nodup underParent.bounded ?_ ?_ (List.nodup_singleton parent.page) ?_
      (fun _ _ _ => rfl) (Nat.le_refl _))
    · intro q member
      rw [mem_singleton.mp member, InternalAt.congr kept]
      exact underParent.below.1 parent mem_cons_self
    · rw [flatMap_singleton, children_congr kept, split, append_assoc,
        singleton_append]
    · intro p member
      exact .inl (mem_singleton.mp member)

end Trees

section Fences

structure KeyOrder (κ : Type u) (ε : Type v) (α : Type w) where
  rank : κ → α
  keyOf : ε → κ

variable [LinearOrder α] (o : KeyOrder κ ε α)

def KeyOrder.Holds (s : Span κ) (k : κ) : Prop :=
  (∀ l, s.low = some l → o.rank l ≤ o.rank k) ∧ ∀ r, s.high = some r → o.rank k < o.rank r

def KeyOrder.Separates (s : Span κ) (k : κ) : Prop :=
  (∀ l, s.low = some l → o.rank l < o.rank k) ∧ ∀ r, s.high = some r → o.rank k < o.rank r

/-- Keys lie within the fences, those of an internal page increase, and a page keeps its upper fence
as its high key. -/
def KeyOrder.rule : Rule κ ε where
  leaf s node entries :=
    node.retired = false ∧ node.highKey = s.high ∧ ∀ e ∈ entries, o.Holds s (o.keyOf e)
  internal s node entries :=
    node.retired = false ∧ node.highKey = s.high ∧
      entries.Pairwise (fun e e' => o.rank e.1 < o.rank e'.1) ∧ ∀ e ∈ entries, o.Separates s e.1

variable {o} {pages : Store κ ε}

variable {s : Span κ} {k : κ} {low high : Option κ} {first p h : Nat} {entries : List (κ × Nat)}

theorem separates_split {left right : List (κ × Nat)} {child : Nat}
    (sorted : (left ++ (k, child) :: right).Pairwise fun e e' => o.rank e.1 < o.rank e'.1)
    (separates : ∀ e ∈ left ++ (k, child) :: right, o.Separates s e.1) :
    (left.Pairwise (fun e e' => o.rank e.1 < o.rank e'.1) ∧
      ∀ e ∈ left, o.Separates ⟨s.low, s.page, some k⟩ e.1) ∧
    right.Pairwise (fun e e' => o.rank e.1 < o.rank e'.1) ∧
      ∀ p, ∀ e ∈ right, o.Separates ⟨some k, p, s.high⟩ e.1 := by
  rw [List.pairwise_append, pairwise_cons] at sorted
  obtain ⟨sortedLeft, ⟨above, sortedRight⟩, across⟩ := sorted
  refine ⟨⟨sortedLeft, fun e member => ?_⟩, sortedRight, fun p e member => ?_⟩
  · obtain ⟨low, _⟩ := separates e (mem_append_left _ member)
    refine ⟨low, fun r same => ?_⟩
    cases same
    exact across e member (k, child) mem_cons_self
  · obtain ⟨_, high⟩ := separates e (mem_append_right _ (mem_cons_of_mem _ member))
    refine ⟨fun l same => ?_, high⟩
    cases same
    exact above e member

theorem separates_insert {l h : Option κ} {q n : Nat} {before after : List (Span κ)}
    (split : spans low first entries high = before ++ ⟨l, p, h⟩ :: after)
    (sorted : entries.Pairwise fun e e' => o.rank e.1 < o.rank e'.1)
    (separates : ∀ e ∈ entries, o.Separates ⟨low, q, high⟩ e.1)
    (between : o.Separates ⟨l, p, h⟩ k) :
    ∃ left right, entries = left ++ right ∧
      (left ++ (k, n) :: right).Pairwise (fun e e' => o.rank e.1 < o.rank e'.1) ∧
      (∀ e ∈ left ++ (k, n) :: right, o.Separates ⟨low, q, high⟩ e.1) ∧
      spans low first (left ++ (k, n) :: right) high =
        before ++ [⟨l, p, some k⟩, ⟨some k, n, h⟩] ++ after := by
  induction entries generalizing low first before with
  | nil =>
    cases before with
    | nil =>
      obtain ⟨same, rfl⟩ := List.cons.inj split
      cases same
      refine ⟨[], [], rfl, List.pairwise_singleton _ _, fun e member => ?_, rfl⟩
      rw [mem_singleton.mp member]
      exact between
    | cons b before =>
      have lengths := congrArg List.length split
      simp [spans] at lengths
  | cons e entries ih =>
    obtain ⟨k₀, child⟩ := e
    obtain ⟨above, sorted⟩ := pairwise_cons.mp sorted
    have lowest := separates (k₀, child) mem_cons_self
    have rest : ∀ e ∈ entries, o.Separates ⟨some k₀, q, high⟩ e.1 := by
      intro e member
      refine ⟨fun l same => ?_, (separates e (mem_cons_of_mem _ member)).2⟩
      cases same
      exact above e member
    cases before with
    | nil =>
      obtain ⟨same, rfl⟩ := List.cons.inj split
      cases same
      have below : o.rank k < o.rank k₀ := between.2 k₀ rfl
      refine ⟨[], (k₀, child) :: entries, rfl, ?_, ?_, rfl⟩
      · refine pairwise_cons.mpr ⟨fun e member => ?_,
          pairwise_cons.mpr ⟨above, sorted⟩⟩
        obtain rfl | behind := mem_cons.mp member
        · exact below
        · exact lt_trans below (above e behind)
      · intro e member
        obtain rfl | behind := mem_cons.mp member
        · exact ⟨between.1, fun r same => lt_trans below (lowest.2 r same)⟩
        · exact separates e behind
    | cons b before =>
      rw [spans, cons_append] at split
      obtain ⟨rfl, tail⟩ := List.cons.inj split
      obtain ⟨left, right, rfl, sorted', separates', spans'⟩ := ih tail sorted rest
      refine ⟨(k₀, child) :: left, right, rfl, ?_, ?_, ?_⟩
      · exact pairwise_cons.mpr ⟨fun e member => (separates' e member).1 k₀ rfl, sorted'⟩
      · intro e member
        obtain rfl | behind := mem_cons.mp member
        · exact lowest
        · obtain ⟨low', high'⟩ := separates' e behind
          exact ⟨fun l same => lt_trans (lowest.1 l same) (low' k₀ rfl), high'⟩
      · rw [cons_append, spans, spans', cons_append, cons_append]

theorem holds_parent {c : Span κ} (sorted : entries.Pairwise fun e e' => o.rank e.1 < o.rank e'.1)
    (separates : ∀ e ∈ entries, o.Separates ⟨low, p, high⟩ e.1)
    (child : c ∈ spans low first entries high) (holds : o.Holds c k) :
    o.Holds ⟨low, p, high⟩ k := by
  induction entries generalizing low first with
  | nil =>
    rw [mem_singleton.mp child] at holds
    exact holds
  | cons e entries ih =>
    obtain ⟨k₀, q⟩ := e
    have lowest := separates (k₀, q) mem_cons_self
    obtain ⟨above, sorted⟩ := pairwise_cons.mp sorted
    obtain rfl | behind := mem_cons.mp child
    · exact ⟨holds.1, fun r same => lt_trans (holds.2 k₀ rfl) (lowest.2 r same)⟩
    · have rest : ∀ e ∈ entries, o.Separates ⟨some k₀, p, high⟩ e.1 := by
        intro e member
        refine ⟨fun l same => ?_, (separates e (mem_cons_of_mem _ member)).2⟩
        cases same
        exact above e member
      have inside := ih sorted rest behind
      exact ⟨fun l same => le_trans (le_of_lt (lowest.1 l same)) (inside.1 k₀ rfl), inside.2⟩

theorem row_holds (sorted : entries.Pairwise fun e e' => o.rank e.1 < o.rank e'.1)
    (separates : ∀ e ∈ entries, o.Separates ⟨low, p, high⟩ e.1)
    (each : ∀ c ∈ spans low first entries high, ∀ e ∈ contents pages h [c], o.Holds c (o.keyOf e)) :
    ∀ e ∈ contents pages h (spans low first entries high), o.Holds ⟨low, p, high⟩ (o.keyOf e) := by
  intro e member
  obtain ⟨t, leaf, inLeaf⟩ := List.mem_flatMap.mp member
  obtain ⟨c, child, under⟩ := mem_leaves leaf
  exact holds_parent sorted separates child
    (each c child e (List.mem_flatMap.mpr ⟨t, under, inLeaf⟩))

theorem contents_hold (below : Below o.rule pages h [s]) :
    ∀ e ∈ contents pages h [s], o.Holds s (o.keyOf e) := by
  induction h generalizing s with
  | zero =>
    obtain ⟨node, entries, here, content, _, _, inside⟩ := below s mem_cons_self
    have whole : contents pages 0 [s] = entries := by
      rw [contents, leaves, flatMap_singleton, entriesAt_leaf here content]
    rw [whole]
    exact inside
  | succ h ih =>
    obtain ⟨internal, kids⟩ := below
    obtain ⟨node, first, entries, here, content, _, _, sorted, separates⟩ :=
      internal s mem_cons_self
    rw [contents_succ, flatMap_singleton, children_internal here content]
    rw [flatMap_singleton, children_internal here content] at kids
    refine row_holds sorted separates fun c member => ih ?_
    obtain ⟨before, after, split⟩ := append_of_mem member
    rw [split, ← singleton_append, below_append, below_append] at kids
    exact kids.2.1

def KeyOrder.hits (o : KeyOrder κ ε α) (k : κ) (entries : List ε) : List ε :=
  entries.filter fun e => o.rank (o.keyOf e) = o.rank k

theorem hits_cons (k : κ) (e : ε) (rest : List ε) : o.hits k (e :: rest) =
    if o.rank (o.keyOf e) = o.rank k then e :: o.hits k rest else o.hits k rest := by
  rw [KeyOrder.hits, List.filter_cons]
  simp only [decide_eq_true_eq]
  rfl

theorem hits_append (k : κ) (left right : List ε) :
    o.hits k (left ++ right) = o.hits k left ++ o.hits k right := List.filter_append ..

theorem hits_none {entries : List ε} (none : ∀ e ∈ entries, o.rank (o.keyOf e) ≠ o.rank k) :
    o.hits k entries = [] := by
  refine List.filter_eq_nil_iff.mpr fun e member same => ?_
  exact none e member (of_decide_eq_true same)

theorem hits_child {c : Span κ} (sorted : entries.Pairwise fun e e' => o.rank e.1 < o.rank e'.1)
    (separates : ∀ e ∈ entries, o.Separates ⟨low, p, high⟩ e.1)
    (each : ∀ c ∈ spans low first entries high, ∀ e ∈ contents pages h [c], o.Holds c (o.keyOf e))
    (child : c ∈ spans low first entries high) (holds : o.Holds c k) :
    o.hits k (contents pages h (spans low first entries high)) =
      o.hits k (contents pages h [c]) := by
  induction entries generalizing low first with
  | nil => rw [mem_singleton.mp child, spans]
  | cons e entries ih =>
    obtain ⟨k₀, q⟩ := e
    obtain ⟨above, sorted⟩ := pairwise_cons.mp sorted
    have rest : ∀ e ∈ entries, o.Separates ⟨some k₀, p, high⟩ e.1 := by
      intro e member
      refine ⟨fun l same => ?_, (separates e (mem_cons_of_mem _ member)).2⟩
      cases same
      exact above e member
    rw [spans, List.forall_mem_cons] at each
    obtain ⟨inHere, each⟩ := each
    rw [spans, ← singleton_append, contents_append, hits_append]
    obtain rfl | behind := mem_cons.mp child
    · have later : o.hits k (contents pages h (spans (some k₀) q entries high)) = [] := by
        refine hits_none fun e member => ne_of_gt ?_
        exact lt_of_lt_of_le (holds.2 k₀ rfl) ((row_holds sorted rest each e member).1 k₀ rfl)
      rw [later, List.append_nil]
    · have earlier : o.hits k (contents pages h [⟨low, first, some k₀⟩]) = [] := by
        refine hits_none fun e member => ne_of_lt ?_
        exact lt_of_lt_of_le ((inHere e member).2 k₀ rfl)
          ((holds_parent sorted rest behind holds).1 k₀ rfl)
      rw [earlier, List.nil_append, ih sorted rest each behind]

theorem Below.child {parent : Span κ} (below : Below o.rule pages (h + 1) [parent])
    (child : s ∈ children pages parent) : Below o.rule pages h [s] := by
  have kids := below.2
  obtain ⟨before, after, split⟩ := append_of_mem child
  rw [flatMap_singleton, split, ← singleton_append, below_append, below_append] at kids
  exact kids.2.1

theorem Below.along {top : Span κ} {stack : List (Span κ)}
    (below : Below o.rule pages (h + stack.length) [top]) (path : Path pages top stack s) :
    Below o.rule pages h [s] := by
  induction path generalizing h with
  | here => exact below
  | @down stack parent s path child ih =>
    have length : h + (parent :: stack).length = h + 1 + stack.length := by
      rw [length_cons]
      omega
    rw [length] at below
    exact (ih below).child child

theorem Path.hits {top : Span κ} {stack : List (Span κ)} (path : Path pages top stack s)
    (below : Below o.rule pages (h + stack.length) [top]) (holds : o.Holds s k) :
    o.hits k (contents pages (h + stack.length) [top]) = o.hits k (contents pages h [s]) := by
  induction path generalizing h with
  | here => rfl
  | @down stack parent s path child ih =>
    have length : h + (parent :: stack).length = h + 1 + stack.length := by
      rw [length_cons]
      omega
    rw [length] at below ⊢
    have belowParent := below.along path
    obtain ⟨node, first, entries, here, content, _, _, sorted, separates⟩ :=
      belowParent.1 parent mem_cons_self
    have row := children_internal here content
    rw [row] at child
    rw [ih below (holds_parent sorted separates child holds), contents_succ,
      flatMap_singleton, row]
    refine hits_child sorted separates (fun c member => contents_hold ?_) child holds
    exact belowParent.child (row ▸ member)

end Fences

end GraniteDb.Lib.BlinkTree
