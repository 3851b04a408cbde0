/- Levels and places of the pages of a tree, whatever keys its pages hold. -/

import Mathlib.Algebra.Order.Field.Rat
import Mathlib.Data.Finset.Card
import Mathlib.Tactic.Linarith
import GraniteDb.Access.GenericBTree

namespace GraniteDb.Access.TreeShape

open Lib.BlinkTree Access.BTreePage Access.PageTasks

variable {κ : Type}

section Layouts

/-- How high each page lies above the leaves, and where on its level. -/
structure Layout where
  level : Nat → Nat
  place : Nat → ℚ

def InFile (n p : Nat) : Prop := 1 ≤ p ∧ p < n

def ContentFits (l : Layout) (n p : Nat) : TreeContent κ → Prop
  | .leaf _ => l.level p = 0
  | .internal leftmostChild entries =>
    (leftmostChild :: entries.map Prod.snd).Nodup ∧
      ∀ c ∈ leftmostChild :: entries.map Prod.snd, InFile n c ∧ l.level c + 1 = l.level p

/-- A right link stays on its level and, above the leaves, leads on along it. -/
def LinkFits (l : Layout) (n p : Nat) (link : Option Nat) : Prop :=
  ∀ q, link = some q →
    InFile n q ∧ l.level q = l.level p ∧ (1 ≤ l.level p → l.place p < l.place q)

structure Fits (l : Layout) (file : IndexFile κ) : Prop where
  inside : ∀ p node, file.pages p = some node → InFile file.numPages p
  content : ∀ p node, file.pages p = some node → ContentFits l file.numPages p node.content
  link : ∀ p node, file.pages p = some node → LinkFits l file.numPages p node.rightLink
  root : InFile file.numPages file.rootPageNo
  height : l.level file.rootPageNo + 1 = file.treeHeight

def Written (file : IndexFile κ) : Prop :=
  ∀ p, InFile file.numPages p → file.pages p ≠ none

structure Extends (l : Layout) (n : Nat) (l' : Layout) (n' : Nat) : Prop where
  grown : n ≤ n'
  level : ∀ p, p < n → l'.level p = l.level p
  place : ∀ p, p < n → l'.place p = l.place p

variable {l l' : Layout} {n n' p q : Nat} {file : IndexFile κ}

theorem Extends.refl (l : Layout) (n : Nat) : Extends l n l n :=
  ⟨Nat.le_refl n, fun _ _ => rfl, fun _ _ => rfl⟩

theorem Extends.trans {l'' : Layout} {n'' : Nat} (first : Extends l n l' n')
    (second : Extends l' n' l'' n'') : Extends l n l'' n'' where
  grown := Nat.le_trans first.grown second.grown
  level := by
    intro p small
    have grown := first.grown
    rw [second.level p (by omega), first.level p small]
  place := by
    intro p small
    have grown := first.grown
    rw [second.place p (by omega), first.place p small]

theorem InFile.extend (inside : InFile n p) (ext : Extends l n l' n') : InFile n' p :=
  ⟨inside.1, Nat.lt_of_lt_of_le inside.2 ext.grown⟩

theorem ContentFits.extend {content : TreeContent κ} (fits : ContentFits l n p content)
    (inside : p < n) (ext : Extends l n l' n') : ContentFits l' n' p content := by
  cases content with
  | leaf entries => exact (ext.level p inside).trans fits
  | internal leftmostChild entries =>
    refine ⟨fits.1, fun c member => ?_⟩
    obtain ⟨child, level⟩ := fits.2 c member
    rw [ext.level c child.2, ext.level p inside]
    exact ⟨child.extend ext, level⟩

theorem LinkFits.extend {link : Option Nat} (fits : LinkFits l n p link) (inside : p < n)
    (ext : Extends l n l' n') : LinkFits l' n' p link := by
  intro q same
  obtain ⟨next, level, place⟩ := fits q same
  rw [ext.level q next.2, ext.level p inside, ext.place q next.2, ext.place p inside]
  exact ⟨next.extend ext, level, place⟩

theorem LinkFits.move {link : Option Nat} (fits : LinkFits l n p link) (level : l.level p = 0)
    (level' : l.level q = 0) : LinkFits l n q link := by
  intro r same
  obtain ⟨inside, on_level, _⟩ := fits r same
  exact ⟨inside, by omega, fun high => by omega⟩

theorem linkFits_none : LinkFits l n p none := by
  intro q same
  cases same

variable {entries entries' : List (InternalEntry κ)} {leftmostChild : Nat}

section

variable (fits : ContentFits l n p (.internal leftmostChild entries : TreeContent κ))

include fits

theorem ContentFits.sublist
    (fewer : (entries'.map Prod.snd).Sublist (entries.map Prod.snd)) :
    ContentFits l n p (.internal leftmostChild entries' : TreeContent κ) := by
  have part := fewer.cons_cons leftmostChild
  exact ⟨fits.1.sublist part, fun c member => fits.2 c (part.subset member)⟩

theorem ContentFits.perm
    (same : entries'.Perm entries) :
    ContentFits l n p (.internal leftmostChild entries' : TreeContent κ) := by
  have children := (same.map Prod.snd).cons leftmostChild
  exact ⟨children.nodup_iff.mpr fits.1, fun c member => fits.2 c (children.mem_iff.mp member)⟩

end

theorem ContentFits.append {c : Nat} (k : κ)
    (fits : ContentFits l n p (.internal leftmostChild entries : TreeContent κ))
    (child : InFile n c) (level : l.level c + 1 = l.level p)
    (outside : c ∉ leftmostChild :: entries.map Prod.snd) :
    ContentFits l n p (.internal leftmostChild (entries ++ [(k, c)]) : TreeContent κ) := by
  have more : leftmostChild :: (entries ++ [(k, c)]).map Prod.snd =
      (leftmostChild :: entries.map Prod.snd) ++ [c] := by
    rw [List.map_append, List.cons_append, List.map_singleton]
  refine ⟨?_, fun d member => ?_⟩
  · rw [more, List.nodup_append]
    refine ⟨fits.1, List.nodup_singleton c, fun d member e last same => ?_⟩
    rw [List.mem_singleton.mp last] at same
    exact outside (same ▸ member)
  · rw [more, List.mem_append] at member
    obtain old | new := member
    · exact fits.2 d old
    · rw [List.mem_singleton.mp new]
      exact ⟨child, level⟩

theorem ContentFits.halves {content : TreeContent κ} (k : κ) (fits : ContentFits l n p content)
    (new : l.level q = l.level p) : ContentFits l n p (BTreePage.halves k content).1 ∧
      ContentFits l n q (BTreePage.halves k content).2.1 := by
  cases content with
  | leaf entries => exact ⟨fits, new.trans fits⟩
  | internal leftmostChild entries =>
    have front : ((entries.take (entries.length / 2)).map Prod.snd).Sublist
        (entries.map Prod.snd) := (List.take_sublist _ _).map _
    refine ⟨fits.sublist front, ?_⟩
    rw [BTreePage.halves]
    cases middle : entries[entries.length / 2]? with
    | none =>
      have behind : entries.drop (entries.length / 2 + 1) = [] := by
        rw [List.getElem?_eq_none_iff] at middle
        rw [List.drop_eq_nil_iff]
        omega
      rw [behind]
      refine ⟨List.nodup_singleton _, fun c member => ?_⟩
      rw [List.mem_singleton.mp member, new]
      exact fits.2 leftmostChild List.mem_cons_self
    | some e =>
      have rest : e :: entries.drop (entries.length / 2 + 1) =
          entries.drop (entries.length / 2) := by
        obtain ⟨short, here⟩ := List.getElem?_eq_some_iff.mp middle
        rw [List.drop_eq_getElem_cons short, here]
      have part : (e.2 :: (entries.drop (entries.length / 2 + 1)).map Prod.snd).Sublist
          (entries.map Prod.snd) := by
        rw [← List.map_cons, rest]
        exact (List.drop_sublist _ _).map _
      have inside := part.trans (List.sublist_cons_self leftmostChild _)
      refine ⟨fits.1.sublist inside, fun c member => ?_⟩
      rw [new]
      exact fits.2 c (inside.subset member)

end Layouts

section Pages

variable {fmt : KeyFormat κ} {l : Layout} {n p q : Nat} {file : IndexFile κ}

theorem insertRecords_sublist {ε : Type} {bytes : ε → Nat} {encodes : ε → Bool} {tooLarge : String}
    {room : Nat} {entries : List ε} :
    (insertRecords bytes encodes tooLarge room entries).1.Sublist entries := by
  induction entries generalizing room with
  | nil => exact List.Sublist.refl []
  | cons e rest ih =>
    rw [insertRecords]
    split
    · exact List.nil_sublist _
    · split
      · exact List.nil_sublist _
      · exact ih.cons_cons e

variable {content : TreeContent κ} {link : Option Nat}

theorem ContentFits.rewritten {highKey : Option κ} (fits : ContentFits l n p content) :
    ContentFits l n p (rewritten fmt content link highKey).1.content := by
  cases content with
  | leaf entries =>
    rw [BTreePage.rewritten, rewrittenLeaf]
    split <;> exact fits
  | internal leftmostChild entries =>
    rw [BTreePage.rewritten, rewrittenInternal]
    split
    · exact fits.sublist (insertRecords_sublist.map Prod.snd)
    · exact fits.sublist (List.nil_sublist _)

theorem ContentFits.read (sorts : Sorting fmt) (fits : ContentFits l n p content) :
    ContentFits l n p (readEntries sorts content) := by
  cases content with
  | leaf entries => exact fits
  | internal leftmostChild entries => exact fits.perm (sorts.internal_perm entries)

theorem rewritten_rightLink {highKey : Option κ} :
    (rewritten fmt content link highKey).1.rightLink = link := by
  cases content with
  | leaf entries =>
    rw [BTreePage.rewritten, rewrittenLeaf]
    split <;> rfl
  | internal leftmostChild entries =>
    rw [BTreePage.rewritten, rewrittenInternal]
    split <;> rfl

theorem Fits.write {node : TreeNode κ} (fits : Fits l file) (inside : InFile file.numPages p)
    (content : ContentFits l file.numPages p node.content)
    (link : LinkFits l file.numPages p node.rightLink) : Fits l (file.write p node) where
  inside := by
    intro q other here
    by_cases same : q = p
    · rw [same]
      exact inside
    · rw [write_pages_other _ _ _ same] at here
      exact fits.inside q other here
  content := by
    intro q other here
    by_cases same : q = p
    · subst same
      rw [write_pages_self] at here
      cases here
      exact content
    · rw [write_pages_other _ _ _ same] at here
      exact fits.content q other here
  link := by
    intro q other here
    by_cases same : q = p
    · subst same
      rw [write_pages_self] at here
      cases here
      exact link
    · rw [write_pages_other _ _ _ same] at here
      exact fits.link q other here
  root := fits.root
  height := fits.height

theorem Written.write (written : Written file) (p : Nat) (node : TreeNode κ) :
    Written (file.write p node) := by
  intro q inside
  by_cases same : q = p
  · subst same
    rw [write_pages_self]
    exact Option.some_ne_none node
  · rw [write_pages_other _ _ _ same]
    exact written q inside

theorem Fits.rewrite (fmt : KeyFormat κ) (highKey : Option κ) (fits : Fits l file)
    (inside : InFile file.numPages p) (content_fits : ContentFits l file.numPages p content)
    (link_fits : LinkFits l file.numPages p link) :
    Fits l (file.write p (rewritten fmt content link highKey).1) := by
  refine fits.write inside content_fits.rewritten ?_
  rw [rewritten_rightLink]
  exact link_fits

theorem Fits.reroot (root height : Nat) (fits : Fits l file) (inside : InFile file.numPages root)
    (level : l.level root + 1 = height) :
    Fits l { file with rootPageNo := root, treeHeight := height } :=
  ⟨fits.inside, fits.content, fits.link, inside, level⟩

def Layout.add (l : Layout) (n level : Nat) (place : ℚ) : Layout where
  level := Function.update l.level n level
  place := Function.update l.place n place

theorem Layout.add_extends (l : Layout) (n level : Nat) (place : ℚ) :
    Extends l n (l.add n level place) (n + 1) where
  grown := Nat.le_succ n
  level := fun _ small => Function.update_of_ne (Nat.ne_of_lt small) _ _
  place := fun _ small => Function.update_of_ne (Nat.ne_of_lt small) _ _

@[simp] theorem Layout.add_level (l : Layout) (n level : Nat) (place : ℚ) :
    (l.add n level place).level n = level := Function.update_self _ _ _

@[simp] theorem Layout.add_place (l : Layout) (n level : Nat) (place : ℚ) :
    (l.add n level place).place n = place := Function.update_self _ _ _

theorem Fits.allocate (fits : Fits l file) (level : Nat) (place : ℚ) :
    Fits (l.add file.numPages level place) file.allocate := by
  have ext := l.add_extends file.numPages level place
  have before : ∀ q node, file.allocate.pages q = some node → file.pages q = some node := by
    intro q node here
    by_cases same : q = file.numPages
    · rw [same, allocate_pages_self] at here
      cases here
    · rw [allocate_pages_other _ same] at here
      exact here
  refine ⟨fun q node here => ?_, fun q node here => ?_, fun q node here => ?_, ?_, ?_⟩
  · exact (fits.inside q node (before q node here)).extend ext
  · have old := before q node here
    exact (fits.content q node old).extend (fits.inside q node old).2 ext
  · have old := before q node here
    exact (fits.link q node old).extend (fits.inside q node old).2 ext
  · exact fits.root.extend ext
  · rw [allocate_rootPageNo, ext.level _ fits.root.2]
    exact fits.height

theorem Written.allocate (written : Written file) {q : Nat}
    (inside : InFile file.allocate.numPages q) (other : q ≠ file.numPages) :
    file.allocate.pages q ≠ none := by
  rw [allocate_pages_other _ other]
  rw [allocate_numPages] at inside
  have small := inside.2
  exact written q ⟨inside.1, by omega⟩

def Layout.behind (l : Layout) (n p : Nat) : Nat :=
  ((Finset.range n).filter fun q => l.place p < l.place q).card

theorem Layout.behind_lt (small : q < n) (further : l.place p < l.place q) :
    l.behind n q < l.behind n p := by
  refine Finset.card_lt_card (Finset.ssubset_iff_of_subset ?_ |>.mpr ⟨q, ?_, ?_⟩)
  · intro r member
    rw [Finset.mem_filter] at member ⊢
    exact ⟨member.1, further.trans member.2⟩
  · rw [Finset.mem_filter, Finset.mem_range]
    exact ⟨small, further⟩
  · rw [Finset.mem_filter]
    exact fun member => lt_irrefl _ member.2

theorem Layout.behind_le (l : Layout) (n p : Nat) : l.behind n p ≤ n := by
  have few := Finset.card_filter_le (Finset.range n) fun q => l.place p < l.place q
  rw [Finset.card_range] at few
  exact few

theorem fits_new : Fits ⟨fun _ => 0, fun _ => 0⟩ (IndexFile.new κ) := by
  have only : ∀ p node, (IndexFile.new κ).pages p = some node →
      p = 1 ∧ node = ⟨.leaf [], false, none, none, none⟩ := by
    intro p node here
    by_cases same : p = 1
    · subst same
      cases here
      exact ⟨rfl, rfl⟩
    · have nothing : (IndexFile.new κ).pages p = none := by
        simp [IndexFile.new, same]
      rw [nothing] at here
      cases here
  refine ⟨fun p node here => ?_, fun p node here => ?_, fun p node here => ?_, ?_, rfl⟩
  · rw [(only p node here).1]
    exact ⟨Nat.le_refl 1, Nat.one_lt_two⟩
  · rw [(only p node here).2]
    rfl
  · rw [(only p node here).2]
    exact linkFits_none
  · exact ⟨Nat.le_refl 1, Nat.one_lt_two⟩

theorem written_new : Written (IndexFile.new κ) := by
  intro p inside
  have one : p = 1 := Nat.le_antisymm (Nat.le_of_lt_succ inside.2) inside.1
  subst one
  exact Option.some_ne_none _

end Pages

end GraniteDb.Access.TreeShape
