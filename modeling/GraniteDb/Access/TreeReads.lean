/- What a search and the iterator return is what the leaves of the tree hold. -/

import GraniteDb.Access.BTreeIndex
import GraniteDb.Access.OrderedTrees

namespace GraniteDb.Access.TreeReads

open Lib.BlinkTree Lib.Task Access.BTreePage Access.PageTasks Access.BTreeIndex Access.OrderedTrees
open Common.Types (RID)
open List (mem_cons_self length_cons map_nil map_cons)

variable {κ : Type} [LinearOrder α] {fmt : KeyFormat κ} {rank : κ → α}
variable {file : IndexFile κ} {height : Nat} {entries : Multiset (LeafEntry κ)}

section Search

variable {key : κ}

variable {fuel : Nat} {s : Span κ}

theorem readRight_ends (ranked : Ranked fmt rank) {node : TreeNode κ} {q : Nat → IndexFile κ → Prop}
    (here : file.pages s.page = some node) (fence : node.highKey = s.high)
    (holds : (keyOrder rank).Holds s key) :
    Task.Ends IndexFile.answer (readRight fmt key (fuel + 1) s.page) file q ↔ q s.page file := by
  simp [readRight, here, rightOf_none ranked fence holds]

theorem findLeafFrom_ends (ranked : Ranked fmt rank) (sorts : Sorting fmt) {top : Span κ} {h : Nat}
    {stack : List (Span κ)} (path : Path file.pages top stack s)
    (under : Under (pageRule fmt rank) file.pages file.numPages h s)
    (holds : (keyOrder rank).Holds s key) (enough : h + 1 < fuel) :
    Task.Ends IndexFile.answer (findLeafFrom sorts key fuel s.page) file
      fun found file' => file' = file ∧ ∃ stack' s', Path file.pages top stack' s' ∧
        stack'.length = stack.length + h ∧ (keyOrder rank).Holds s' key ∧ found = s'.page := by
  induction h generalizing fuel stack s with
  | zero =>
    obtain ⟨fuel, rfl⟩ : ∃ f, fuel = f + 2 := ⟨fuel - 2, by omega⟩
    obtain ⟨node, row, here, content, read, rule, _⟩ :=
      LeafAt.read ranked sorts (under.below s mem_cons_self)
    rw [findLeafFrom, ends_bind, readRight_ends ranked here rule.2.1 holds, ends_bind,
      ends_readNode]
    refine ⟨node, here, ?_⟩
    rw [read]
    simp only [ends_bind, ends_rUnlatch, ends_unpinPage]
    exact ends_pure.mpr ⟨rfl, stack, s, path, rfl, holds, rfl⟩
  | succ h ih =>
    obtain ⟨fuel, rfl⟩ : ∃ f, fuel = f + 2 := ⟨fuel - 2, by omega⟩
    obtain ⟨node, first, row, here, content, read, rule, _⟩ :=
      InternalAt.read ranked sorts (under.below.1 s mem_cons_self)
    obtain ⟨c, page, path', under', holds'⟩ := down ranked path under holds here content
    obtain ⟨small, childNode, here', live, _⟩ := Under.page ranked sorts under'
    have depth : stack.length + (h + 1) = (s :: stack).length + h := by
      rw [length_cons]
      omega
    rw [depth, findLeafFrom, ends_bind, readRight_ends ranked here rule.2.1 holds, ends_bind,
      ends_readNode]
    refine ⟨node, here, ?_⟩
    rw [read]
    simp only [← page, ends_bind, ends_fetchPage, small, decide_true, if_true, ends_rLatch,
      normalizeReadCursor_ends here' live, ends_rUnlatch, ends_unpinPage]
    exact ih path' under' holds' (by omega)

theorem findLeafPageNo_ends (ranked : Ranked fmt rank) (sorts : Sorting fmt)
    (tree : TreeOf fmt rank file height entries) (enough : height + 1 < fuel) :
    Task.Ends IndexFile.answer (findLeafPageNo sorts key fuel) file
      fun found file' => file' = file ∧ ∃ s ∈ leafRow file height, found = s.page ∧
        (keyOrder rank).hits key (contents file.pages height [rootSpan file.rootPageNo]) =
          (keyOrder rank).hits key (entriesAt file.pages s) := by
  obtain ⟨fuel, rfl⟩ : ∃ f, fuel = f + 1 := ⟨fuel - 1, by omega⟩
  obtain ⟨root, node, here, live, _⟩ := Under.page ranked sorts tree.tree.under
  have holds : (keyOrder rank).Holds (rootSpan file.rootPageNo) key := by
    refine ⟨fun l low => ?_, fun r high => ?_⟩
    · cases low
    · cases high
  have root' : file.rootPageNo < file.numPages := root
  have below := tree.below
  rw [findLeafPageNo, ends_bind, readMetaPage_ends (by omega)]
  simp only [ends_fetchPage, root', decide_true, if_true, ends_bind, ends_rLatch]
  have here' : file.pages file.rootPageNo = some node := here
  rw [normalizeReadCursor_ends here' live]
  refine (findLeafFrom_ends ranked sorts .here tree.tree.under holds enough).mono ?_
  rintro found file' ⟨same, stack, s, path, deep, inside, rfl⟩
  have depth : height = 0 + stack.length := by
    rw [List.length_nil] at deep
    omega
  refine ⟨same, s, ?_, rfl, ?_⟩
  · have leaf := path.leaves (t := s) (h := 0) mem_cons_self
    rw [← depth] at leaf
    exact leaf
  · rw [depth] at below ⊢
    rw [path.hits below inside, contents, leaves, List.flatMap_singleton]

theorem hits_key (e : LeafEntry κ) (rest : List (LeafEntry κ)) :
    (keyOrder rank).hits key (e :: rest) = if rank e.key = rank key then
      e :: (keyOrder rank).hits key rest else (keyOrder rank).hits key rest :=
  hits_cons key e rest

theorem matching_hits (ranked : Ranked fmt rank) (key : κ) {row : List (LeafEntry κ)}
    (increasing : row.Pairwise fun a b => rank a.key ≤ rank b.key) :
    (matching fmt key row).1 = ((keyOrder rank).hits key row).map LeafEntry.rid := by
  induction row with
  | nil => rfl
  | cons e rest ih =>
    obtain ⟨above, sorted⟩ := List.pairwise_cons.mp increasing
    rw [matching]
    cases order : fmt.compare e.key key with
    | lt =>
      rw [hits_key, if_neg (ne_of_lt (ranked.lt_iff.mp order))]
      exact ih sorted
    | eq =>
      rw [hits_key, if_pos (ranked.eq_iff.mp order), map_cons, ← ih sorted]
      rfl
    | gt =>
      have bound := ranked.gt_iff.mp order
      have none : (keyOrder rank).hits key (e :: rest) = [] := by
        refine hits_none fun e' member => ne_of_gt ?_
        obtain rfl | later := List.mem_cons.mp member
        · exact bound
        · exact lt_of_lt_of_le bound (above e' later)
      rw [none]
      rfl

theorem searchFrom_none (ranked : Ranked fmt rank) (sorts : Sorting fmt)
    (tree : TreeOf fmt rank file height entries) (member : s ∈ leafRow file height)
    (none : (keyOrder rank).hits key (entriesAt file.pages s) = []) :
    Task.Ends IndexFile.answer (searchFrom sorts key (fuel + 1) s.page) file
      fun found file' => file' = file ∧ found = [] := by
  obtain ⟨_, leaf⟩ := tree.leaf member
  obtain ⟨node, row, here, content, read, rule⟩ := LeafAt.read ranked sorts leaf
  rw [entriesAt_leaf here content] at none
  have found : (matching fmt key row).1 = [] := by
    rw [matching_hits ranked key (InOrder.rank_le ranked rule.2.1), none, map_nil]
  rw [searchFrom, ends_bind, ends_readNode]
  refine ⟨node, here, ?_⟩
  rw [read]
  cases link : node.rightLink with
  | none => simp [found]
  | some right => simp [found]

theorem searchFrom_ends (ranked : Ranked fmt rank) (sorts : Sorting fmt)
    (tree : TreeOf fmt rank file height entries) (member : s ∈ leafRow file height)
    (whole : (keyOrder rank).hits key (contents file.pages height [rootSpan file.rootPageNo]) =
      (keyOrder rank).hits key (entriesAt file.pages s))
    (enough : 1 < fuel) :
    Task.Ends IndexFile.answer (searchFrom sorts key fuel s.page) file
      fun found file' => file' = file ∧
        found = ((keyOrder rank).hits key (entriesAt file.pages s)).map LeafEntry.rid := by
  obtain ⟨fuel, rfl⟩ : ∃ f, fuel = f + 2 := ⟨fuel - 2, by omega⟩
  obtain ⟨before, after, split⟩ := List.append_of_mem member
  obtain ⟨_, leaf⟩ := tree.leaf member
  obtain ⟨node, row, here, content, read, rule⟩ := LeafAt.read ranked sorts leaf
  have found := matching_hits ranked key (InOrder.rank_le ranked rule.2.1)
  have behind := tree.behind split here
  rw [entriesAt_leaf here content, ← found, searchFrom, ends_bind, ends_readNode]
  refine ⟨node, here, ?_⟩
  rw [read]
  cases after with
  | nil =>
    rw [map_nil, List.head?_nil] at behind
    simp [behind]
  | cons t after =>
    rw [map_cons, List.head?_cons] at behind
    simp only [behind]
    split_ifs with more
    · have next : t ∈ leafRow file height := by
        rw [split]
        exact List.mem_append_right _ (List.mem_cons_of_mem _ mem_cons_self)
      obtain ⟨small, leafNext⟩ := tree.leaf next
      obtain ⟨nodeNext, rowNext, hereNext, _, _, ruleNext⟩ := LeafAt.read ranked sorts leafNext
      have beyond := TreeOf.none_behind split whole
      simp only [ends_bind, ends_fetchPage, small, decide_true, if_true, ends_rLatch,
        ends_rUnlatch, ends_unpinPage, normalizeReadCursor_ends hereNext ruleNext.1.1]
      refine (searchFrom_none ranked sorts tree next beyond).mono ?_
      rintro _ _ ⟨rfl, rfl⟩
      simp
    · simp

end Search

section Iterator

variable {fuel : Nat} {c : Cursor κ}

theorem leftmostFrom_ends (ranked : Ranked fmt rank) (sorts : Sorting fmt) {n h : Nat} {s : Span κ}
    (under : Under (pageRule fmt rank) file.pages n h s) (bounded : n ≤ file.numPages)
    (enough : h < fuel) :
    Task.Ends IndexFile.answer (leftmostFrom fuel s.page) file
      fun found file' => file' = file ∧ ∃ t rest, leaves file.pages h [s] = t :: rest ∧
        found = t.page := by
  induction h generalizing fuel s with
  | zero =>
    obtain ⟨fuel, rfl⟩ : ∃ f, fuel = f + 1 := ⟨fuel - 1, by omega⟩
    obtain ⟨node, row, here, content, _⟩ := under.below s mem_cons_self
    rw [leftmostFrom, ends_bind, ends_readNode]
    refine ⟨node, here, ?_⟩
    rw [content]
    simp only [ends_bind, ends_rUnlatch, ends_unpinPage]
    exact ends_pure.mpr ⟨rfl, s, [], rfl, rfl⟩
  | succ h ih =>
    obtain ⟨fuel, rfl⟩ : ∃ f, fuel = f + 2 := ⟨fuel - 2, by omega⟩
    obtain ⟨node, first, row, here, content, _⟩ := under.below.1 s mem_cons_self
    obtain ⟨c, more, kids, page⟩ := spans_first s.low first row s.high
    have child : c ∈ children file.pages s := by
      rw [children_internal here content, kids]
      exact mem_cons_self
    have under' := (under.child child).1
    obtain ⟨small, childNode, here', live, _⟩ := Under.page ranked sorts under'
    have small' : c.page < file.numPages := Nat.lt_of_lt_of_le small bounded
    rw [leftmostFrom, ends_bind, ends_readNode]
    refine ⟨node, here, ?_⟩
    rw [content]
    simp only [← page, ends_bind, ends_fetchPage, small', decide_true, if_true, ends_rLatch,
      normalizeReadCursor_ends here' live, ends_rUnlatch, ends_unpinPage]
    refine (ih under' (by omega)).mono ?_
    rintro found file' ⟨same, t, rest, row', rfl⟩
    refine ⟨same, t, rest ++ leaves file.pages h more, ?_, rfl⟩
    rw [leaves, List.flatMap_singleton, children_internal here content, kids,
      ← List.singleton_append, leaves_append, row', List.cons_append]

theorem getLeftmostLeafPageNo_ends (ranked : Ranked fmt rank) (sorts : Sorting fmt)
    (tree : TreeOf fmt rank file height entries) (enough : height < fuel) :
    Task.Ends IndexFile.answer (getLeftmostLeafPageNo fuel) file
      fun found file' => file' = file ∧ ∃ s after, leafRow file height = s :: after ∧
        found = s.page := by
  obtain ⟨fuel, rfl⟩ : ∃ f, fuel = f + 1 := ⟨fuel - 1, by omega⟩
  obtain ⟨root, node, here, live, _⟩ := Under.page ranked sorts tree.tree.under
  have root' : file.rootPageNo < file.numPages := root
  have here' : file.pages file.rootPageNo = some node := here
  rw [getLeftmostLeafPageNo, ends_bind, readMetaPage_ends (by omega)]
  simp only [ends_fetchPage, root', decide_true, if_true, ends_bind, ends_rLatch]
  rw [normalizeReadCursor_ends here' live]
  exact leftmostFrom_ends ranked sorts tree.tree.under (Nat.le_refl _) enough

inductive Standing (file : IndexFile κ) (height : Nat) : Cursor κ → List (LeafEntry κ) → Prop
  | atEnd {c : Cursor κ} (ended : c.atEnd = true) : Standing file height c []
  | entry {c : Cursor κ} {before after : List (Span κ)} {s : Span κ}
      (row : leafRow file height = before ++ s :: after) (page : c.currentLeafPageNo = some s.page)
      (live : c.atEnd = false) (unbounded : c.lowerBound = none)
      (inside : c.currentEntryIndex < (entriesAt file.pages s).length) :
      Standing file height c ((entriesAt file.pages s).drop c.currentEntryIndex ++
        after.flatMap (entriesAt file.pages))

theorem nextIndex_none (row : List (LeafEntry κ)) (i : Nat) :
    nextIndex fmt none row i = if i < row.length then some i else none := by
  rw [nextIndex]
  split_ifs with inside
  · rw [List.drop_eq_getElem_cons inside]
    rfl
  · rw [List.drop_eq_nil_of_le (by omega)]
    rfl

theorem advance_ends (ranked : Ranked fmt rank) (sorts : Sorting fmt)
    (tree : TreeOf fmt rank file height entries) {before after : List (Span κ)} {s : Span κ}
    (row : leafRow file height = before ++ s :: after) (page : c.currentLeafPageNo = some s.page)
    (live : c.atEnd = false) (unbounded : c.lowerBound = none) (enough : after.length < fuel) :
    Task.Ends IndexFile.answer (advance sorts (some s.page) fuel c) file
      fun c' file' => file' = file ∧ Standing file height c'
        ((entriesAt file.pages s).drop c.currentEntryIndex ++
          after.flatMap (entriesAt file.pages)) := by
  induction after generalizing before s c fuel with
  | nil =>
    obtain ⟨fuel, rfl⟩ : ∃ f, fuel = f + 1 := ⟨fuel - 1, by omega⟩
    obtain ⟨_, leaf⟩ := tree.leaf (s := s) (by rw [row]; simp)
    obtain ⟨node, entries, here, content, read, rule⟩ := LeafAt.read ranked sorts leaf
    have link := tree.behind row here
    rw [map_nil, List.head?_nil] at link
    rw [advance, ends_bind, ends_readNode]
    refine ⟨node, here, ?_⟩
    rw [rule.1.1]
    simp only [read, unbounded, nextIndex_none, link]
    by_cases inside : c.currentEntryIndex < entries.length
    · simp only [if_pos inside, ends_bind, ends_rUnlatch, ends_unpinPage, ends_pure, true_and]
      refine Standing.entry (c := { c with currentEntryIndex := _, lowerBound := none }) row page
        live rfl ?_
      rw [entriesAt_leaf here content]
      exact inside
    · simp only [if_neg inside, ends_bind, ends_rUnlatch, ends_unpinPage, ends_pure, true_and]
      rw [entriesAt_leaf here content, List.drop_eq_nil_of_le (by omega)]
      exact .atEnd rfl
  | cons t after ih =>
    obtain ⟨fuel, rfl⟩ : ∃ f, fuel = f + 1 := ⟨fuel - 1, by omega⟩
    obtain ⟨_, leaf⟩ := tree.leaf (s := s) (by rw [row]; simp)
    obtain ⟨small, _⟩ := tree.leaf (s := t) (by rw [row]; simp)
    obtain ⟨node, entries, here, content, read, rule⟩ := LeafAt.read ranked sorts leaf
    have link := tree.behind row here
    rw [map_cons, List.head?_cons] at link
    rw [advance, ends_bind, ends_readNode]
    refine ⟨node, here, ?_⟩
    rw [rule.1.1]
    simp only [read, unbounded, nextIndex_none, link]
    by_cases inside : c.currentEntryIndex < entries.length
    · simp only [if_pos inside, ends_bind, ends_rUnlatch, ends_unpinPage, ends_pure, true_and]
      refine Standing.entry (c := { c with currentEntryIndex := _, lowerBound := none }) row page
        live rfl ?_
      rw [entriesAt_leaf here content]
      exact inside
    · simp only [if_neg inside, ends_bind, ends_fetchPage, small, decide_true, if_true,
        ends_rLatch, ends_rUnlatch, ends_unpinPage]
      have shorter : after.length < fuel := by
        rw [length_cons] at enough
        omega
      have behind : leafRow file height = (before ++ [s]) ++ t :: after := by
        rw [row, List.append_assoc, List.singleton_append]
      rw [entriesAt_leaf here content, List.drop_eq_nil_of_le (by omega), List.nil_append,
        List.flatMap_cons]
      exact ih (c := ⟨some t.page, 0, c.atEnd, none⟩) behind rfl live rfl shorter

theorem next_ends (ranked : Ranked fmt rank) (sorts : Sorting fmt)
    (tree : TreeOf fmt rank file height entries) {e : LeafEntry κ} {left : List (LeafEntry κ)}
    (standing : Standing file height c (e :: left))
    (enough : (leafRow file height).length + 1 < fuel) :
    Task.Ends IndexFile.answer (next sorts fuel c) file
      fun found file' => file' = file ∧ found.1 = e ∧ Standing file height found.2 left := by
  obtain ⟨fuel, rfl⟩ : ∃ f, fuel = f + 2 := ⟨fuel - 2, by omega⟩
  generalize whole : e :: left = all at standing
  cases standing with
  | atEnd ended => cases whole
  | @entry before after s row page live unbounded inside =>
    obtain ⟨small, leaf⟩ := tree.leaf (s := s) (by rw [row]; simp)
    obtain ⟨node, entries, here, content, read, rule⟩ := LeafAt.read ranked sorts leaf
    rw [entriesAt_leaf here content] at inside whole
    rw [List.drop_eq_getElem_cons inside, List.cons_append] at whole
    obtain ⟨rfl, rfl⟩ := List.cons.inj whole
    have short : after.length < fuel := by
      rw [row, List.length_append, length_cons] at enough
      omega
    have onward := advance_ends ranked sorts tree
      (c := ⟨some s.page, c.currentEntryIndex + 1, false, c.lowerBound⟩) row rfl rfl unbounded short
    rw [entriesAt_leaf here content] at onward
    rw [next]
    simp only [live, page, ends_bind, ends_fetchPage, small, decide_true, if_true, ends_rLatch,
      ends_readNode]
    refine ⟨node, here, ?_⟩
    rw [rule.1.1]
    simp only [read, List.getElem?_eq_getElem inside, ends_bind, ends_rUnlatch, ends_unpinPage]
    rw [advance]
    simp only [ends_bind, ends_fetchPage, small, decide_true, if_true, ends_rLatch]
    refine onward.mono ?_
    rintro c' file' ⟨same, standing⟩
    exact ends_pure.mpr ⟨same, rfl, standing⟩

theorem remaining_ends (ranked : Ranked fmt rank) (sorts : Sorting fmt)
    (tree : TreeOf fmt rank file height entries) {left : List (LeafEntry κ)}
    (standing : Standing file height c left)
    (enough : (leafRow file height).length + 1 + left.length < fuel) :
    Task.Ends IndexFile.answer (remaining sorts fuel c) file
      fun found file' => file' = file ∧ found = left := by
  obtain ⟨fuel, rfl⟩ : ∃ f, fuel = f + 1 := ⟨fuel - 1, by omega⟩
  induction left generalizing c fuel with
  | nil =>
    have ended : c.atEnd = true := by
      generalize whole : ([] : List (LeafEntry κ)) = all at standing
      cases standing with
      | atEnd ended => exact ended
      | entry row page live unbounded inside =>
        rw [List.drop_eq_getElem_cons inside] at whole
        cases whole
    rw [remaining, if_pos ended]
    exact ends_pure.mpr ⟨rfl, rfl⟩
  | cons e left ih =>
    have live : ¬ c.atEnd = true := by
      generalize whole : e :: left = all at standing
      cases standing with
      | atEnd ended => cases whole
      | entry row page live unbounded inside => rw [live]; decide
    rw [length_cons] at enough
    obtain ⟨fuel, rfl⟩ : ∃ f, fuel = f + 1 := ⟨fuel - 1, by omega⟩
    rw [remaining, if_neg live, ends_bind]
    refine (next_ends ranked sorts tree standing (by omega)).mono ?_
    rintro ⟨_, c'⟩ file' ⟨same, rfl, standing'⟩
    rw [same, ends_bind]
    refine (ih standing' fuel (by omega)).mono ?_
    rintro found file' ⟨same, rfl⟩
    exact ends_pure.mpr ⟨same, rfl⟩

end Iterator

section Whole

variable {key : κ}

theorem search_ends (ranked : Ranked fmt rank) (sorts : Sorting fmt)
    (tree : TreeOf fmt rank file height entries) {fuel : Nat} (enough : height + 1 < fuel) :
    Task.Ends IndexFile.answer (search sorts key fuel) file fun found file' => file' = file ∧
      (found : Multiset RID) =
        (entries.filter fun e => rank e.key = rank key).map LeafEntry.rid := by
  obtain ⟨fuel, rfl⟩ : ∃ f, fuel = f + 1 := ⟨fuel - 1, by omega⟩
  rw [search, ends_bind]
  refine (findLeafPageNo_ends ranked sorts tree enough).mono ?_
  rintro found file' ⟨same, s, member, rfl, hits⟩
  obtain ⟨small, leaf⟩ := tree.leaf member
  obtain ⟨node, row, here, _, _, rule, _⟩ := LeafAt.read ranked sorts leaf
  simp only [same, ends_bind, ends_fetchPage, small, decide_true, if_true, ends_rLatch,
    normalizeReadCursor_ends here rule.1]
  refine (searchFrom_ends ranked sorts tree member hits (by omega)).mono ?_
  rintro found file' ⟨same, rfl⟩
  refine ⟨same, ?_⟩
  rw [← hits, ← tree.entries_eq, Multiset.filter_coe, Multiset.map_coe]
  rfl

theorem entriesOf_ends (ranked : Ranked fmt rank) (sorts : Sorting fmt)
    (tree : TreeOf fmt rank file height entries) {fuel : Nat}
    (enough : height + (leafRow file height).length + 2 + Multiset.card entries < fuel) :
    Task.Ends IndexFile.answer (entriesOf sorts fuel) file
      fun found file' => file' = file ∧ (found : Multiset (LeafEntry κ)) = entries := by
  obtain ⟨fuel, rfl⟩ : ∃ f, fuel = f + 1 := ⟨fuel - 1, by omega⟩
  rw [entriesOf, ends_bind, iterator, ends_bind]
  refine (getLeftmostLeafPageNo_ends ranked sorts tree (by omega)).mono ?_
  rintro _ file' ⟨same, s, after, row, rfl⟩
  obtain ⟨small, _⟩ := tree.leaf (s := s) (by rw [row]; simp)
  have short : after.length < fuel := by
    rw [row, length_cons] at enough
    omega
  have whole : (entriesAt file.pages s).drop 0 ++ after.flatMap (entriesAt file.pages) =
      contents file.pages height [rootSpan file.rootPageNo] := by
    have row' : leaves file.pages height [rootSpan file.rootPageNo] = s :: after := row
    rw [contents, row', List.drop_zero, List.flatMap_cons]
  have count : (contents file.pages height [rootSpan file.rootPageNo]).length =
      Multiset.card entries := by
    rw [← tree.entries_eq, Multiset.coe_card]
  rw [same, advance]
  simp only [ends_bind, ends_fetchPage, small, decide_true, if_true, ends_rLatch]
  have row' : leafRow file height = [] ++ s :: after := row
  refine (advance_ends ranked sorts tree (c := ⟨some s.page, 0, false, none⟩) row' rfl rfl rfl
    short).mono ?_
  rintro c file' ⟨same, standing⟩
  rw [whole] at standing
  rw [same]
  refine (remaining_ends ranked sorts tree standing (by omega)).mono ?_
  rintro found file' ⟨same, rfl⟩
  exact ⟨same, tree.entries_eq⟩

end Whole

end GraniteDb.Access.TreeReads
