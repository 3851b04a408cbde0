/- Deletes from a composite tree of one or two levels come to their end. -/

import GraniteDb.Access.TreeLatches

namespace GraniteDb.Access.LowDeletes

open Lib.BlinkTree Lib.Task Access.BTreePage Access.GenericBTree Access.TreeLatches Access.TreeShape
open Common.Types (RID)
open Access.PageTasks hiding answers
open List (not_mem_nil)

variable {κ : Type}

section Deletes

variable {fmt : KeyFormat κ} {sorts : Sorting fmt} {excused : Request κ → Prop}
  {file file' : IndexFile κ}
  {l : Layout} {p : Nat}

structure Kept (l : Layout) (file file' : IndexFile κ) : Prop where
  pages : file'.numPages = file.numPages
  fits : Fits l file'
  written : Written file'

theorem Kept.trans {file'' : IndexFile κ} (first : Kept l file file')
    (second : Kept l file' file'') : Kept l file file'' :=
  ⟨second.pages.trans first.pages, second.fits, second.written⟩

variable {content : TreeContent κ} {rid : RID} {node : TreeNode κ} {key k : κ}
  {fuel childPos child leftmostChild : Nat} {exclusive : List Nat}
  {entries : List (InternalEntry κ)} {own : List (LeafEntry κ)} {sibling : κ × Nat}

theorem Kept.rewrite {link : Option Nat} (fmt : KeyFormat κ) (highKey : Option κ)
    (kept : Kept l file file') (inside : InFile file.numPages p)
    (content_fits : ContentFits l file.numPages p content)
    (link_fits : LinkFits l file.numPages p link) :
    Kept l file (file'.write p (rewritten fmt content link highKey).1) := by
  have same := kept.pages
  refine ⟨same, kept.fits.rewrite fmt highKey ?_ ?_ ?_, kept.written.write p _⟩
  · rw [same]
    exact inside
  · rw [same]
    exact content_fits
  · rw [same]
    exact link_fits

theorem deleteFromLeaf_keeps {isRoot : Bool} {entries : List (LeafEntry κ)} (fits : Fits l file)
    (written : Written file) (inside : InFile file.numPages p) (level : l.level p = 0)
    (link : LinkFits l file.numPages p node.rightLink) :
    Task.Keeps (latching excused) (deleteFromLeaf fmt key rid isRoot p node entries) ⟨file, [p], []⟩
      (returning fun _ s => ∃ file', s = ⟨file', [], []⟩ ∧ Kept l file file') := by
  have start : Kept l file file := ⟨rfl, fits, written⟩
  rw [deleteFromLeaf]
  cases entries.findIdx? fun e => fmt.compare e.key key = .eq && e.rid = rid with
  | none =>
    simp
    exact start
  | some i =>
    have done := start.rewrite fmt node.highKey inside
      (show ContentFits l file.numPages p (.leaf (entries.eraseIdx i)) from level) link
    simp
    intro _
    cases isRoot with
    | true =>
      simp
      exact done
    | false =>
      cases underfull : isLeafUnderfull fmt (entries.eraseIdx i) with
      | error what => simp
      | ok b =>
        simp
        exact done

theorem deleteRecursive_leaf {isRoot : Bool} (fits : Fits l file) (written : Written file)
    (inside : InFile file.numPages p) (level : l.level p = 0)
    (enough : excused .loop ∨ (walk fmt file.pages key (fuel - 1) p).isSome) :
    Task.Keeps (latching excused) (deleteRecursive sorts key rid fuel p isRoot) ⟨file, [], []⟩
      (returning fun _ s => ∃ file', s = ⟨file', [], []⟩ ∧ Kept l file file') := by
  cases fuel with
  | zero =>
    rw [deleteRecursive, keeps_loop]
    exact enough.resolve_right Bool.false_ne_true
  | succ fuel =>
    rw [deleteRecursive]
    simp only [keeps_bind_task, andThen_returning, keeps_fetchPage]
    refine ⟨fun _ => ?_, trivial⟩
    simp
    refine (moveRight_keeps fits inside enough).mono ?_
    rintro p' s ⟨rfl, inside', level', _⟩
    rw [level] at level'
    simp only [keeps_readNode]
    intro node here
    have content := (fits.content p' node here).read sorts
    cases read : readEntries sorts node.content with
    | leaf entries =>
      exact deleteFromLeaf_keeps fits written inside' level' (fits.link p' node here)
    | internal leftmostChild entries =>
      rw [read] at content
      have below := content.2 leftmostChild List.mem_cons_self
      omega

theorem retirePage_keeps {redirect : Nat} {link : Option Nat} {highKey : Option κ}
    (kept : Kept l file file') (inside : InFile file.numPages p)
    (content_fits : ContentFits l file.numPages p (emptied redirect content))
    (link_fits : LinkFits l file.numPages p link) :
    Task.Keeps (latching excused) (retirePage fmt p content redirect link highKey)
      ⟨file', exclusive, []⟩ (returning fun _ s => ∃ file'', s = ⟨file'', exclusive, []⟩ ∧
        Kept l file file'') := by
  have once := kept.rewrite fmt highKey inside content_fits link_fits
  rw [retirePage]
  simp
  intro _
  have same := once.pages
  refine ⟨same, once.fits.write ?_ ?_ ?_, once.written.write p _⟩
  · rw [same]
    exact inside
  · rw [same]
    cases content <;> exact content_fits
  · rw [same]
    cases content <;> exact link_fits

def Attempted (l : Layout) (file : IndexFile κ) (exclusive : List Nat)
    (entries : List (InternalEntry κ)) (fixed : Fixed κ) (s : Holding κ) : Prop :=
  ∃ file', s = ⟨file', exclusive, []⟩ ∧ Kept l file file' ∧ ∀ entries', fixed = some entries' →
    (entries'.map Prod.snd).Sublist (entries.map Prod.snd)

theorem Attempted.nothing (kept : Kept l file file') :
    Attempted l file exclusive entries none ⟨file', exclusive, []⟩ := by
  refine ⟨file', rfl, kept, fun entries' same => ?_⟩
  cases same

structure Neighbours (l : Layout) (file : IndexFile κ) (child : Nat) (node : TreeNode κ)
    (q : Nat) : Prop where
  inside : InFile file.numPages child
  level : l.level child = 0
  link : LinkFits l file.numPages child node.rightLink
  sibling_inside : InFile file.numPages q
  sibling_level : l.level q = 0

theorem readSibling_leaf {sibling : TreeContent κ}
    (read : readSibling sorts (.leaf own) content = .ok sibling) :
    ∃ entries, sibling = .leaf entries := by
  cases content with
  | leaf entries =>
    cases read
    exact ⟨_, rfl⟩
  | internal leftmostChild entries => cases read

theorem map_snd_modify {i : Nat} :
    (entries.modify i fun e => (k, e.2)).map Prod.snd = entries.map Prod.snd := by
  induction entries generalizing i with
  | nil => cases i <;> rfl
  | cons e rest ih =>
    cases i with
    | zero => rfl
    | succ i => exact congrArg (e.2 :: ·) ih

theorem withFirstKey_children {firstKey : Option κ} :
    (withFirstKey entries childPos firstKey).map Prod.snd = entries.map Prod.snd := by
  cases firstKey with
  | none => rfl
  | some first => exact map_snd_modify

theorem borrowFromLeft_leaf {separator : κ} {left child : List (LeafEntry κ)}
    {leftAfter childAfter : TreeContent κ}
    (borrowed : borrowFromLeft k (.leaf left) (.leaf child) = some (leftAfter, childAfter,
      separator)) :
    ∃ entries entries', leftAfter = .leaf entries ∧ childAfter = .leaf entries' := by
  obtain ⟨e, _, same⟩ := Option.map_eq_some_iff.mp borrowed
  cases same
  exact ⟨_, _, rfl, rfl⟩

theorem Kept.sibling_link {q : Nat} (kept : Kept l file file') (here : file'.pages q = some node) :
    LinkFits l file.numPages q node.rightLink := by
  rw [← kept.pages]
  exact kept.fits.link q node here

theorem borrowLeft_keeps (kept : Kept l file file') (pair : Neighbours l file child node sibling.2)
    (apart : sibling.2 ∉ [child, p]) :
    Task.Keeps (latching excused) (borrowLeft sorts child node (.leaf own) childPos entries sibling)
      ⟨file', [child, p], []⟩ (returning (Attempted l file [child, p] entries)) := by
  rw [borrowLeft]
  simp only [keeps_bind_task, andThen_returning, keeps_fetchPage]
  refine ⟨fun _ => ?_, trivial⟩
  simp only [if_true, keeps_bind_task, andThen_returning, keeps_wLatch, keeps_readNode,
    keeps_ofExcept_returning]
  refine ⟨.inr ⟨apart, not_mem_nil⟩, fun _ leftNode here leftOwn read => ?_⟩
  obtain ⟨left, rfl⟩ := readSibling_leaf read
  cases borrowed : borrowFromLeft sibling.1 (.leaf left) (.leaf own) with
  | none =>
    simp
    exact Attempted.nothing kept
  | some after =>
    obtain ⟨leftAfter, childAfter, separator⟩ := after
    obtain ⟨leftEntries, childEntries, rfl, rfl⟩ := borrowFromLeft_leaf borrowed
    have first := kept.rewrite fmt (some separator) pair.sibling_inside
      (show ContentFits l _ _ (.leaf leftEntries) from pair.sibling_level) (kept.sibling_link here)
    have second := first.rewrite fmt node.highKey pair.inside
      (show ContentFits l _ _ (.leaf childEntries) from pair.level) pair.link
    simp only [keeps_bind_task, andThen_returning, keeps_ofExcept_returning]
    intro underfull _
    cases underfull with
    | true =>
      simp
      exact Attempted.nothing kept
    | false =>
      simp
      intro _ _
      refine ⟨_, rfl, second, fun entries' same => ?_⟩
      cases same
      rw [map_snd_modify]

theorem borrowFromRight_leaf {separator : κ} {child right : List (LeafEntry κ)}
    {childAfter rightAfter : TreeContent κ}
    (borrowed : borrowFromRight k (.leaf child) (.leaf right) = some (childAfter, rightAfter,
      separator)) :
    ∃ entries entries', childAfter = .leaf entries ∧ rightAfter = .leaf entries' := by
  match right with
  | [] => cases borrowed
  | [_] => cases borrowed
  | _ :: _ :: _ =>
    cases borrowed
    exact ⟨_, _, rfl, rfl⟩

theorem borrowRight_keeps (kept : Kept l file file') (pair : Neighbours l file child node sibling.2)
    (apart : sibling.2 ∉ [child, p]) :
    Task.Keeps (latching excused) (borrowRight sorts child node (.leaf own) childPos entries sibling)
      ⟨file', [child, p], []⟩ (returning (Attempted l file [child, p] entries)) := by
  rw [borrowRight]
  simp only [keeps_bind_task, andThen_returning, keeps_fetchPage]
  refine ⟨fun _ => ?_, trivial⟩
  simp only [if_true, keeps_bind_task, andThen_returning, keeps_wLatch, keeps_readNode,
    keeps_ofExcept_returning]
  refine ⟨.inr ⟨apart, not_mem_nil⟩, fun _ rightNode here rightOwn read => ?_⟩
  obtain ⟨right, rfl⟩ := readSibling_leaf read
  cases borrowed : borrowFromRight sibling.1 (.leaf own) (.leaf right) with
  | none =>
    simp
    exact Attempted.nothing kept
  | some after =>
    obtain ⟨childAfter, rightAfter, separator⟩ := after
    obtain ⟨childEntries, rightEntries, rfl, rfl⟩ := borrowFromRight_leaf borrowed
    have first := kept.rewrite fmt (some separator) pair.inside
      (show ContentFits l _ _ (.leaf childEntries) from pair.level) pair.link
    have second := first.rewrite fmt rightNode.highKey pair.sibling_inside
      (show ContentFits l _ _ (.leaf rightEntries) from pair.sibling_level)
      (kept.sibling_link here)
    simp only [keeps_bind_task, andThen_returning, keeps_ofExcept_returning]
    intro underfull _
    cases underfull with
    | true =>
      simp
      exact Attempted.nothing kept
    | false =>
      simp
      intro _ _
      refine ⟨_, rfl, second, fun entries' same => ?_⟩
      cases same
      rw [map_snd_modify]

theorem eraseIdx_fewer (entries : List (InternalEntry κ)) (i : Nat) :
    ((entries.eraseIdx i).map Prod.snd).Sublist (entries.map Prod.snd) :=
  (List.eraseIdx_sublist entries i).map Prod.snd

theorem mergeLeft_keeps (kept : Kept l file file') (pair : Neighbours l file child node sibling.2)
    (apart : sibling.2 ∉ [child, p]) :
    Task.Keeps (latching excused) (mergeLeft sorts child node (.leaf own) childPos entries sibling)
      ⟨file', [child, p], []⟩ (returning (Attempted l file [child, p] entries)) := by
  rw [mergeLeft]
  simp only [keeps_bind_task, andThen_returning, keeps_fetchPage]
  refine ⟨fun _ => ?_, trivial⟩
  simp only [if_true, keeps_bind_task, andThen_returning, keeps_wLatch, keeps_readNode,
    keeps_ofExcept_returning]
  refine ⟨.inr ⟨apart, not_mem_nil⟩, fun _ leftNode here leftOwn read fits _ => ?_⟩
  obtain ⟨left, rfl⟩ := readSibling_leaf read
  have first := kept.rewrite fmt node.highKey pair.sibling_inside
    (show ContentFits l _ _ (.leaf (left ++ own)) from pair.sibling_level)
    (pair.link.move pair.level pair.sibling_level)
  cases fits with
  | false => simp
  | true =>
    have empty : ContentFits l file.numPages child (emptied sibling.2 (.leaf own)) := pair.level
    simp
    intro _
    refine (retirePage_keeps first pair.inside empty pair.link).mono ?_
    rintro _ s ⟨file'', rfl, second⟩
    simp
    refine ⟨_, rfl, second, fun entries' same => ?_⟩
    cases same
    exact eraseIdx_fewer entries _

theorem mergeRight_keeps (kept : Kept l file file') (pair : Neighbours l file child node sibling.2)
    (apart : sibling.2 ∉ [child, p]) :
    Task.Keeps (latching excused) (mergeRight sorts p child (.leaf own) childPos entries sibling)
      ⟨file', [child, p], []⟩ (returning (Attempted l file [child, p] entries)) := by
  rw [mergeRight]
  simp only [keeps_bind_task, andThen_returning, keeps_fetchPage]
  refine ⟨fun _ => ?_, trivial⟩
  simp only [if_true, keeps_bind_task, andThen_returning, keeps_wLatch, keeps_readNode,
    keeps_ofExcept_returning]
  refine ⟨.inr ⟨apart, not_mem_nil⟩, fun _ rightNode here rightOwn read fits _ => ?_⟩
  obtain ⟨right, rfl⟩ := readSibling_leaf read
  have link := kept.sibling_link here
  have first := kept.rewrite fmt rightNode.highKey pair.inside
    (show ContentFits l _ _ (.leaf (own ++ right)) from pair.level)
    (link.move pair.sibling_level pair.level)
  cases fits with
  | false => simp
  | true =>
    have empty : ContentFits l file.numPages sibling.2 (emptied p (.leaf right)) :=
      pair.sibling_level
    simp
    intro _
    refine (retirePage_keeps first pair.sibling_inside empty link).mono ?_
    rintro _ s ⟨file'', rfl, second⟩
    simp
    refine ⟨_, rfl, second, fun entries' same => ?_⟩
    cases same
    exact eraseIdx_fewer entries _

theorem orElse_keeps {fixed : Fixed κ} {sibling : Option (κ × Nat)}
    {next : κ × Nat → TreeTask κ (Fixed κ)} {s : Holding κ}
    (before : Attempted l file exclusive entries fixed s)
    (keeps : ∀ sib file', sibling = some sib → Kept l file file' → Task.Keeps (latching excused)
      (next sib) ⟨file', exclusive, []⟩ (returning (Attempted l file exclusive entries))) :
    Task.Keeps (latching excused) (orElse fixed sibling next) s
      (returning (Attempted l file exclusive entries)) := by
  cases fixed with
  | some entries' =>
    rw [orElse]
    exact before
  | none =>
    cases sibling with
    | none =>
      rw [orElse]
      exact before
    | some sib =>
      obtain ⟨file', rfl, kept, _⟩ := before
      exact keeps sib file' rfl kept

theorem leftSibling_mem (left : leftSibling entries leftmostChild childPos = some sibling) :
    ∃ i, childPos = i + 1 ∧ (leftmostChild :: entries.map Prod.snd)[i]? = some sibling.2 := by
  cases childPos with
  | zero => cases left
  | succ i =>
    refine ⟨i, rfl, ?_⟩
    rw [leftSibling] at left
    split at left
    · rename_i e child _ at_
      cases left
      cases i with
      | zero =>
        cases at_
        rfl
      | succ i =>
        rw [childAt] at at_
        split at at_
        · rename_i before here
          cases at_
          rw [List.getElem?_cons_succ, List.getElem?_map, here]
          rfl
        · cases at_
    · cases left

theorem rightSibling_mem (right : rightSibling entries childPos = some sibling) :
    (leftmostChild :: entries.map Prod.snd)[childPos + 1]? = some sibling.2 := by
  rw [rightSibling] at right
  rw [List.getElem?_cons_succ, List.getElem?_map, right]
  rfl

theorem findChildPosition_some (member : child ∈ leftmostChild :: entries.map Prod.snd) :
    findChildPosition entries leftmostChild child ≠ none := by
  rw [findChildPosition]
  split
  · exact Option.some_ne_none 0
  · rename_i other
    obtain same | inside := List.mem_cons.mp member
    · exact absurd same.symm other
    · obtain ⟨e, e_inside, rfl⟩ := List.mem_map.mp inside
      rw [ne_eq, Option.map_eq_none_iff, List.findIdx?_eq_none_iff]
      intro never
      have different := never e e_inside
      simp at different

theorem findChildPosition_mem
    (found : findChildPosition entries leftmostChild child = some childPos) :
    (leftmostChild :: entries.map Prod.snd)[childPos]? = some child := by
  rw [findChildPosition] at found
  split at found
  · rename_i same
    cases found
    rw [same]
    rfl
  · obtain ⟨i, here, rfl⟩ := Option.map_eq_some_iff.mp found
    rw [List.findIdx?_eq_some_iff_getElem] at here
    obtain ⟨short, same, _⟩ := here
    rw [List.getElem?_cons_succ, List.getElem?_map, List.getElem?_eq_getElem short, Option.map_some,
      of_decide_eq_true same]

theorem sibling_apart {i j q : Nat}
    (content : ContentFits l file.numPages p (.internal leftmostChild entries : TreeContent κ))
    (at_child : (leftmostChild :: entries.map Prod.snd)[i]? = some child)
    (at_sibling : (leftmostChild :: entries.map Prod.snd)[j]? = some q) (other : i ≠ j) :
    InFile file.numPages q ∧ l.level q + 1 = l.level p ∧ q ∉ [child, p] := by
  obtain ⟨inside, level⟩ := content.2 q (List.mem_of_getElem? at_sibling)
  refine ⟨inside, level, fun member => ?_⟩
  obtain same | same : q = child ∨ q = p := by simpa using member
  · rw [same, ← at_child] at at_sibling
    have short := (List.getElem?_eq_some_iff.mp at_child).1
    exact other ((List.getElem?_inj short content.1).mp at_sibling.symm)
  · rw [same] at level
    omega

theorem fixUnderflow_keeps (fits : Fits l file) (written : Written file)
    (content : ContentFits l file.numPages p (.internal leftmostChild entries : TreeContent κ))
    (low : l.level p = 1)
    (at_child : (leftmostChild :: entries.map Prod.snd)[childPos]? = some child) :
    Task.Keeps (latching excused) (fixUnderflow sorts p child childPos leftmostChild entries)
      ⟨file, [p], []⟩ (returning fun entries' s => ∃ file', s = ⟨file', [p], []⟩ ∧
        Kept l file file' ∧ (entries'.map Prod.snd).Sublist (entries.map Prod.snd)) := by
  obtain ⟨inside, level⟩ := content.2 child (List.mem_of_getElem? at_child)
  have other : child ∉ [p] := by
    rw [List.mem_singleton]
    intro same
    rw [same] at level
    omega
  have start : Kept l file file := ⟨rfl, fits, written⟩
  rw [fixUnderflow]
  simp only [keeps_bind_task, andThen_returning, keeps_fetchPage]
  refine ⟨fun _ => ?_, by simp⟩
  simp only [if_true, keeps_bind_task, andThen_returning, keeps_wLatch, keeps_readNode]
  refine ⟨.inr ⟨other, not_mem_nil⟩, fun _ node here => ?_⟩
  have link := fits.link child node here
  have own_fits := (fits.content child node here).read sorts
  cases read : readEntries sorts node.content with
  | internal first rest =>
    rw [read] at own_fits
    have below := own_fits.2 first List.mem_cons_self
    omega
  | leaf own =>
    have pair_left : ∀ sib, leftSibling entries leftmostChild childPos = some sib →
        Neighbours l file child node sib.2 ∧ sib.2 ∉ [child, p] := by
      intro sib left
      obtain ⟨i, rfl, at_sibling⟩ := leftSibling_mem left
      obtain ⟨inside', level', apart⟩ := sibling_apart content at_child at_sibling (by omega)
      exact ⟨⟨inside, by omega, link, inside', by omega⟩, apart⟩
    have pair_right : ∀ sib, rightSibling entries childPos = some sib →
        Neighbours l file child node sib.2 ∧ sib.2 ∉ [child, p] := by
      intro sib right
      obtain ⟨inside', level', apart⟩ :=
        sibling_apart content at_child (rightSibling_mem right) (by omega)
      exact ⟨⟨inside, by omega, link, inside', by omega⟩, apart⟩
    refine (orElse_keeps (Attempted.nothing start) fun sib file' is kept =>
      borrowLeft_keeps kept (pair_left sib is).1 (pair_left sib is).2).mono ?_
    intro fixed s attempted
    refine (orElse_keeps attempted fun sib file' is kept =>
      borrowRight_keeps kept (pair_right sib is).1 (pair_right sib is).2).mono ?_
    intro fixed s attempted
    refine (orElse_keeps attempted fun sib file' is kept =>
      mergeLeft_keeps kept (pair_left sib is).1 (pair_left sib is).2).mono ?_
    intro fixed s attempted
    refine (orElse_keeps attempted fun sib file' is kept =>
      mergeRight_keeps kept (pair_right sib is).1 (pair_right sib is).2).mono ?_
    rintro fixed s ⟨file', rfl, kept, fewer⟩
    cases fixed with
    | none => simp
    | some entries' =>
      simp
      exact ⟨kept, fewer entries' rfl⟩

theorem Kept.collapse (kept : Kept l file file') (inside : InFile file.numPages child)
    (level : l.level child + 1 = l.level file'.rootPageNo) :
    Kept l file { file' with rootPageNo := child, treeHeight := file'.treeHeight - 1 } := by
  have height := kept.fits.height
  refine ⟨kept.pages, kept.fits.reroot child _ ?_ (by omega), kept.written⟩
  rw [kept.pages]
  exact inside

theorem finishDelete_root {oldFirstKey : Option κ} {changed : Bool} (kept : Kept l file file')
    (inside : InFile file.numPages p)
    (content : ContentFits l file.numPages p (.internal leftmostChild entries : TreeContent κ))
    (link : LinkFits l file.numPages p node.rightLink) :
    Task.Keeps (latching excused)
      (finishDelete sorts fuel true oldFirstKey changed p node leftmostChild entries)
      ⟨file', [p], []⟩ (returning fun _ s => ∃ file'', s = ⟨file'', [], []⟩ ∧
        Kept l file file'') := by
  have free : 0 ∉ [p] := by
    rw [List.mem_singleton]
    have positive := inside.1
    omega
  rw [finishDelete]
  cases last : entries.isEmpty with
  | true =>
    have empty : ContentFits l file.numPages p
        (emptied leftmostChild (.internal leftmostChild entries : TreeContent κ)) :=
      content.sublist (List.nil_sublist _)
    simp
    refine (retirePage_keeps kept inside empty linkFits_none).mono ?_
    rintro _ s ⟨file'', rfl, done⟩
    refine readMetaPage_keeps free ?_
    split
    · rename_i top
      obtain ⟨child, level⟩ := content.2 leftmostChild List.mem_cons_self
      have root : l.level leftmostChild + 1 = l.level file''.rootPageNo := by
        rw [level, ← top.1]
      simp only [keeps_bind_task, andThen_returning]
      refine writeMetaPage_keeps free ?_
      simp
      exact done.collapse child root
    · simp
      exact done
  | false =>
    have done := kept.rewrite fmt node.highKey inside content link
    simp
    intro _
    cases changed <;> simp <;> exact done

theorem afterChild_root {oldFirstKey : Option κ} {result : DeleteResult κ}
    (kept : Kept l file file') (inside : InFile file.numPages p) (low : l.level p = 1) :
    Task.Keeps (latching excused) (afterChild sorts fuel true oldFirstKey child result p)
      ⟨file', [], []⟩ (returning fun _ s => ∃ file'', s = ⟨file'', [], []⟩ ∧
        Kept l file file'') := by
  have same := kept.pages
  rw [afterChild]
  simp only [keeps_bind_task, andThen_returning, keeps_wLatch, keeps_readNode]
  refine ⟨.inr ⟨not_mem_nil, not_mem_nil⟩, fun _ node here => ?_⟩
  have content := (kept.fits.content p node here).read sorts
  cases read : readEntries sorts node.content with
  | leaf entries => simp
  | internal leftmostChild entries =>
    rw [read] at content
    simp
    split
    · split
      · simp
      · rename_i childPos found
        have position := findChildPosition_mem found
        generalize (if 0 < childPos then result.newSubtreeFirstKey else none) = firstKey
        have children : (withFirstKey entries childPos firstKey).map Prod.snd =
            entries.map Prod.snd := withFirstKey_children
        have fewer : ((withFirstKey entries childPos firstKey).map Prod.snd).Sublist
            (entries.map Prod.snd) := by
          rw [children]
        have content' := content.sublist fewer
        have link := kept.fits.link p node here
        rw [← children] at position
        rw [same] at link
        split
        · simp
          refine (fixUnderflow_keeps kept.fits kept.written content' low position).mono ?_
          rintro entries' s ⟨file'', rfl, kept', fewer'⟩
          have last := content'.sublist fewer'
          rw [same] at last
          exact finishDelete_root (kept.trans kept') inside last link
        · simp
          rw [same] at content'
          exact finishDelete_root kept inside content' link
    · simp
      exact kept

/-- The walks of a delete end: to the right from the root, and from the child that it goes down to. -/
def walksEnd (sorts : Sorting fmt) (file : IndexFile κ) (key : κ) (rounds : Nat) : Bool :=
  match walk fmt file.pages key rounds file.rootPageNo with
  | none => false
  | some p =>
    match (file.pages p).map fun node => readEntries sorts node.content with
    | some (.internal leftmostChild entries) =>
      (walk fmt file.pages key rounds (childForKey fmt key leftmostChild entries)).isSome
    | _ => true

theorem walksEnd_mono {rounds rounds' : Nat} (ends : walksEnd sorts file key rounds = true)
    (more : rounds ≤ rounds') : walksEnd sorts file key rounds' = true := by
  rw [walksEnd] at ends ⊢
  split at ends
  · cases ends
  · rename_i p found
    rw [walk_mono found more]
    dsimp only at ends ⊢
    generalize (file.pages p).map (fun node => readEntries sorts node.content) = read at ends ⊢
    rcases read with _ | (entries | ⟨leftmostChild, entries⟩)
    · rfl
    · rfl
    · obtain ⟨p', found'⟩ := Option.isSome_iff_exists.mp ends
      exact Option.isSome_iff_exists.mpr ⟨p', walk_mono found' more⟩

theorem deleteRecursive_root (fits : Fits l file) (written : Written file)
    (low : l.level file.rootPageNo = 1)
    (enough : excused .loop ∨ walksEnd sorts file key (fuel - 2) = true) :
    Task.Keeps (latching excused) (deleteRecursive sorts key rid fuel file.rootPageNo true)
      ⟨file, [], []⟩ (returning fun _ s => ∃ file', s = ⟨file', [], []⟩ ∧ Kept l file file') := by
  have inside := fits.root
  cases fuel with
  | zero =>
    rw [deleteRecursive, keeps_loop]
    exact enough.resolve_right Bool.false_ne_true
  | succ fuel =>
    rw [deleteRecursive]
    simp only [keeps_bind_task, andThen_returning, keeps_fetchPage]
    refine ⟨fun _ => ?_, trivial⟩
    have rounds : excused .loop ∨ (walk fmt file.pages key fuel file.rootPageNo).isSome := by
      refine enough.imp_right fun ends => ?_
      rw [walksEnd] at ends
      split at ends
      · cases ends
      · rename_i p' found
        exact Option.isSome_iff_exists.mpr ⟨p', walk_mono found (by omega)⟩
    simp
    refine (moveRight_keeps fits inside rounds).mono ?_
    rintro p' s ⟨rfl, inside', level, found⟩
    rw [low] at level
    simp only [keeps_readNode]
    intro node here
    have content := (fits.content p' node here).read sorts
    cases read : readEntries sorts node.content with
    | leaf entries =>
      rw [read] at content
      have bottom : l.level p' = 0 := content
      omega
    | internal leftmostChild entries =>
      rw [read] at content
      obtain ⟨child, level'⟩ := content.2 _ (childForKey_mem fmt key leftmostChild entries)
      simp
      split
      · simp
      · simp
        have down : excused .loop ∨ (walk fmt file.pages key (fuel - 1)
            (childForKey fmt key leftmostChild entries)).isSome := by
          refine enough.imp_right fun ends => ?_
          rw [walksEnd] at ends
          split at ends
          · cases ends
          · rename_i found'
            obtain rfl := Option.some.inj ((walk_mono found' (by omega)).symm.trans found)
            rw [here, Option.map_some, read] at ends
            exact ends
        refine (deleteRecursive_leaf fits written child (by omega) down).mono ?_
        rintro result s ⟨file', rfl, kept⟩
        exact afterChild_root kept inside' level

theorem deleteEntry_keeps (fits : Fits l file) (written : Written file) (low : file.treeHeight ≤ 2)
    (enough : excused .loop ∨ walksEnd sorts file key (fuel - 2) = true) :
    Task.Keeps (latching excused) (deleteEntry sorts key rid fuel) ⟨file, [], []⟩
      (returning fun _ s => ∃ file', s = ⟨file', [], []⟩ ∧ Kept l file file') := by
  have height := fits.height
  rw [deleteEntry, keeps_bind_task, andThen_returning]
  refine readMetaPage_keeps not_mem_nil ?_
  simp only [keeps_bind_task, andThen_returning]
  by_cases leaf : l.level file.rootPageNo = 0
  · have rounds : excused .loop ∨ (walk fmt file.pages key (fuel - 1) file.rootPageNo).isSome := by
      refine enough.imp_right fun ends => ?_
      rw [walksEnd] at ends
      split at ends
      · cases ends
      · rename_i p found
        exact Option.isSome_iff_exists.mpr ⟨p, walk_mono found (by omega)⟩
    exact (deleteRecursive_leaf fits written fits.root leaf rounds).mono fun _ _ holds => holds
  · have above : l.level file.rootPageNo = 1 := by omega
    exact (deleteRecursive_root fits written above enough).mono fun _ _ holds => holds

end Deletes

end GraniteDb.Access.LowDeletes
