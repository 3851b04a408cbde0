/- Trees whose keys compare by a rank: pages as they are read, and where a key leads. -/

import GraniteDb.Access.PageTasks

namespace GraniteDb.Access.OrderedTrees

open Lib.BlinkTree Access.BTreePage Access.PageTasks

variable {κ α : Type} [LinearOrder α]

section Keys

/-- Keys compare as their ranks do, and none is longer than the tree allows. -/
structure Ranked (fmt : KeyFormat κ) (rank : κ → α) : Prop where
  compare_rank : ∀ k k', fmt.compare k k' = compare (rank k) (rank k')
  size_le : ∀ k, fmt.size k ≤ fmt.maxKeyBytes

def keyOrder (rank : κ → α) : KeyOrder κ (LeafEntry κ) α := ⟨rank, LeafEntry.key⟩

def InOrder (fmt : KeyFormat κ) (entries : List (LeafEntry κ)) : Prop :=
  entries.Pairwise fun a b => leafEntryLess fmt a b = true ∨ a = b

def Comparable (fmt : KeyFormat κ) (a b : LeafEntry κ) : Prop :=
  leafEntryLess fmt a b = true ∨ a = b ∨ leafEntryLess fmt b a = true

/-- What is asked of the pages of a tree: their entries are in order, and fit. -/
def pageRule (fmt : KeyFormat κ) (rank : κ → α) : Rule κ (LeafEntry κ) where
  leaf s node entries :=
    (keyOrder rank).rule.leaf s node entries ∧ InOrder fmt entries ∧ LeafFits fmt entries
  internal s node entries := (keyOrder rank).rule.internal s node entries ∧ InternalFits fmt entries

variable {fmt : KeyFormat κ} {rank : κ → α}

variable {k' k : κ}

theorem Ranked.lt_iff (ranked : Ranked fmt rank) : fmt.compare k k' = .lt ↔ rank k < rank k' := by
  rw [ranked.compare_rank, compare_lt_iff_lt]

theorem Ranked.eq_iff (ranked : Ranked fmt rank) : fmt.compare k k' = .eq ↔ rank k = rank k' := by
  rw [ranked.compare_rank, compare_eq_iff_eq]

theorem Ranked.gt_iff (ranked : Ranked fmt rank) : fmt.compare k k' = .gt ↔ rank k' < rank k := by
  rw [ranked.compare_rank, compare_gt_iff_gt]

end Keys

section Reading

variable {fmt : KeyFormat κ} {rank : κ → α}

variable {a b : LeafEntry κ} {entries : List (LeafEntry κ)} {pages : Store κ (LeafEntry κ)}

section

variable (ranked : Ranked fmt rank)

include ranked

theorem leafEntryLess_iff :
    leafEntryLess fmt a b = true ↔ rank a.key < rank b.key ∨ (rank a.key = rank b.key ∧
      (a.rid.pageNo < b.rid.pageNo ∨
        (a.rid.pageNo = b.rid.pageNo ∧ a.rid.slotNo < b.rid.slotNo))) := by
  rw [leafEntryLess]
  cases order : fmt.compare a.key b.key with
  | lt =>
    have less := ranked.lt_iff.mp order
    exact iff_of_true rfl (.inl less)
  | gt =>
    have above := ranked.gt_iff.mp order
    refine iff_of_false Bool.false_ne_true ?_
    rintro (less | ⟨same, _⟩)
    · exact lt_asymm less above
    · exact ne_of_gt above same
  | eq =>
    have same := ranked.eq_iff.mp order
    by_cases page : a.rid.pageNo = b.rid.pageNo
    · simp [same, page]
    · simp [same, page]

theorem rank_le_of_less (less : leafEntryLess fmt a b = true) :
    rank a.key ≤ rank b.key := by
  obtain below | ⟨same, _⟩ := (leafEntryLess_iff ranked).mp less
  · exact le_of_lt below
  · exact le_of_eq same

theorem less_asymm (less : leafEntryLess fmt a b = true) :
    leafEntryLess fmt b a = false := by
  rw [← Bool.not_eq_true]
  intro back
  obtain below | ⟨same, rids⟩ := (leafEntryLess_iff ranked).mp less
  · exact absurd (rank_le_of_less ranked back) (not_le_of_gt below)
  · obtain above | ⟨_, rids'⟩ := (leafEntryLess_iff ranked).mp back
    · exact absurd same (ne_of_gt above)
    · omega

theorem less_irrefl (a : LeafEntry κ) : leafEntryLess fmt a a = false := by
  rw [← Bool.not_eq_true]
  intro less
  have asymm := less_asymm ranked less
  rw [less] at asymm
  cases asymm

end

theorem Comparable.symm (comparable : Comparable fmt a b) : Comparable fmt b a := by
  obtain less | same | more := comparable
  · exact .inr (.inr less)
  · exact .inr (.inl same.symm)
  · exact .inl more

theorem comparable_of_ne (ranked : Ranked fmt rank) (distinct : rank a.key ≠ rank b.key) :
    Comparable fmt a b := by
  obtain less | more := lt_or_gt_of_ne distinct
  · exact .inl ((leafEntryLess_iff ranked).mpr (.inl less))
  · exact .inr (.inr ((leafEntryLess_iff ranked).mpr (.inl more)))

theorem comparable_of_injective (ranked : Ranked fmt rank) (injective : Function.Injective rank)
    (a b : LeafEntry κ) : Comparable fmt a b := by
  by_cases same : rank a.key = rank b.key
  · obtain page | page | page := Nat.lt_trichotomy a.rid.pageNo b.rid.pageNo
    · exact .inl ((leafEntryLess_iff ranked).mpr (.inr ⟨same, .inl page⟩))
    · obtain slot | slot | slot := Nat.lt_trichotomy a.rid.slotNo b.rid.slotNo
      · exact .inl ((leafEntryLess_iff ranked).mpr (.inr ⟨same, .inr ⟨page, slot⟩⟩))
      · refine .inr (.inl ?_)
        obtain ⟨key, rid⟩ := a
        obtain ⟨key', rid'⟩ := b
        obtain rfl : key = key' := injective same
        obtain ⟨pageNo, slotNo⟩ := rid
        obtain ⟨pageNo', slotNo'⟩ := rid'
        obtain rfl : pageNo = pageNo' := page
        obtain rfl : slotNo = slotNo' := slot
        rfl
      · exact .inr (.inr ((leafEntryLess_iff ranked).mpr
          (.inr ⟨same.symm, .inr ⟨page.symm, slot⟩⟩)))
    · exact .inr (.inr ((leafEntryLess_iff ranked).mpr (.inr ⟨same.symm, .inl page⟩)))
  · exact comparable_of_ne ranked same

theorem InOrder.comparable (order : InOrder fmt entries) : entries.Pairwise (Comparable fmt) :=
  order.imp fun first => first.elim .inl fun same => .inr (.inl same)

theorem inOrder_of_sorted (sorted : entries.Pairwise fun a b => leafEntryLess fmt b a = false)
    (comparable : entries.Pairwise (Comparable fmt)) : InOrder fmt entries := by
  refine (sorted.and comparable).imp fun {a b} both => ?_
  obtain less | same | more := both.2
  · exact .inl less
  · exact .inr same
  · rw [both.1] at more
    cases more

section

variable (ranked : Ranked fmt rank)

include ranked

theorem leaf_eq (sorts : Sorting fmt) (order : InOrder fmt entries) :
    sorts.leaf entries = entries := by
  have perm := sorts.leaf_perm entries
  refine List.Perm.eq_of_pairwise ?_ (sorts.leaf_sorted entries)
    (order.imp fun {a b} first => ?_) perm
  · intro a b inside member below above
    have both := order.comparable.forall_of_forall_of_flip (fun x _ => .inr (.inl rfl))
      (order.comparable.imp fun {x y} comparable => Comparable.symm comparable)
    obtain less | same | more := both (perm.mem_iff.mp inside) member
    · rw [above] at less
      cases less
    · exact same
    · rw [below] at more
      cases more
  · obtain less | rfl := first
    · exact less_asymm ranked less
    · exact less_irrefl ranked a

theorem InOrder.rank_le (order : InOrder fmt entries) :
    entries.Pairwise fun a b => rank a.key ≤ rank b.key := by
  refine order.imp fun {a b} first => ?_
  obtain less | rfl := first
  · exact rank_le_of_less ranked less
  · exact le_refl _

theorem internal_le (sorts : Sorting fmt)
    (entries : List (InternalEntry κ)) :
    (sorts.internal entries).Pairwise fun a b => rank a.1 ≤ rank b.1 := by
  refine (sorts.internal_sorted entries).imp fun {a b} ordered => le_of_not_gt fun above => ?_
  rw [internalEntryLess, ranked.lt_iff.mpr above] at ordered
  cases ordered

theorem internal_eq (sorts : Sorting fmt)
    {entries entries' : List (InternalEntry κ)} (perm : entries'.Perm entries)
    (increasing : entries.Pairwise fun a b => rank a.1 < rank b.1) :
    sorts.internal entries' = entries := by
  have whole := (sorts.internal_perm entries').trans perm
  have distinct : (entries.map fun e => rank e.1).Nodup :=
    List.pairwise_map.mpr (increasing.imp fun less => ne_of_lt less)
  refine List.Perm.eq_of_pairwise ?_ (internal_le ranked sorts entries')
    (increasing.imp fun less => le_of_lt less) whole
  intro a b inside member below above
  exact List.inj_on_of_nodup_map distinct (whole.mem_iff.mp inside) member
    (le_antisymm below above)

theorem LeafAt.read (sorts : Sorting fmt) {s : Span κ}
    (leaf : LeafAt (pageRule fmt rank) pages s) :
    ∃ node entries, pages s.page = some node ∧ node.content = .leaf entries ∧
      readEntries sorts node.content = .leaf entries ∧
      (pageRule fmt rank).leaf s node entries := by
  obtain ⟨node, entries, here, content, holds⟩ := leaf
  refine ⟨node, entries, here, content, ?_, holds⟩
  rw [content, readEntries, leaf_eq ranked sorts holds.2.1]

theorem InternalAt.read (sorts : Sorting fmt) {s : Span κ}
    (internal : InternalAt (pageRule fmt rank) pages s) :
    ∃ node first entries, pages s.page = some node ∧ node.content = .internal first entries ∧
      readEntries sorts node.content = .internal first entries ∧
      (pageRule fmt rank).internal s node entries := by
  obtain ⟨node, first, entries, here, content, holds⟩ := internal
  refine ⟨node, first, entries, here, content, ?_, holds⟩
  rw [content, readEntries, internal_eq ranked sorts (.refl entries) holds.1.2.2.1]

end

end Reading

section Sorting

variable {fmt : KeyFormat κ} {rank : κ → α}

theorem leafEntryLess_false (ranked : Ranked fmt rank) {a b : LeafEntry κ} :
    leafEntryLess fmt b a = false ↔ rank a.key < rank b.key ∨ (rank a.key = rank b.key ∧
      (a.rid.pageNo < b.rid.pageNo ∨
        (a.rid.pageNo = b.rid.pageNo ∧ a.rid.slotNo ≤ b.rid.slotNo))) := by
  rw [← Bool.not_eq_true, leafEntryLess_iff ranked]
  obtain less | same | more := lt_trichotomy (rank a.key) (rank b.key)
  · simp [less, lt_asymm less, ne_of_gt less]
  · simp only [same, lt_irrefl, false_or, true_and]
    omega
  · simp [more, lt_asymm more, ne_of_gt more]

theorem internalEntryLess_false (ranked : Ranked fmt rank) {a b : InternalEntry κ} :
    internalEntryLess fmt b a = false ↔ rank a.1 ≤ rank b.1 := by
  rw [internalEntryLess, decide_eq_false_iff_not, ranked.lt_iff, not_lt]

def insertionSorting (ranked : Ranked fmt rank) : Sorting fmt where
  leaf entries := entries.insertionSort fun a b => leafEntryLess fmt b a = false
  internal entries := entries.insertionSort fun a b => internalEntryLess fmt b a = false
  leaf_perm entries := List.perm_insertionSort _ entries
  internal_perm entries := List.perm_insertionSort _ entries
  leaf_sorted entries := by
    have total : Std.Total fun a b : LeafEntry κ => leafEntryLess fmt b a = false := ⟨fun a b => by
      obtain less | same | more := lt_trichotomy (rank a.key) (rank b.key)
      · exact .inl ((leafEntryLess_false ranked).mpr (.inl less))
      · rw [leafEntryLess_false ranked, leafEntryLess_false ranked]
        simp only [same, lt_irrefl, false_or, true_and]
        omega
      · exact .inr ((leafEntryLess_false ranked).mpr (.inl more))⟩
    have trans : IsTrans (LeafEntry κ) fun a b => leafEntryLess fmt b a = false :=
      ⟨fun a b c first second => by
        obtain less | ⟨same, rids⟩ := (leafEntryLess_false ranked).mp first
        · obtain less' | ⟨same', _⟩ := (leafEntryLess_false ranked).mp second
          · exact (leafEntryLess_false ranked).mpr (.inl (lt_trans less less'))
          · exact (leafEntryLess_false ranked).mpr (.inl (same' ▸ less))
        · obtain less' | ⟨same', rids'⟩ := (leafEntryLess_false ranked).mp second
          · exact (leafEntryLess_false ranked).mpr (.inl (same ▸ less'))
          · refine (leafEntryLess_false ranked).mpr (.inr ⟨same.trans same', ?_⟩)
            omega⟩
    exact List.pairwise_insertionSort _ entries
  internal_sorted entries := by
    have total : Std.Total fun a b : InternalEntry κ => internalEntryLess fmt b a = false :=
      ⟨fun a b => by
        rw [internalEntryLess_false ranked, internalEntryLess_false ranked]
        exact le_total _ _⟩
    have trans : IsTrans (InternalEntry κ) fun a b => internalEntryLess fmt b a = false :=
      ⟨fun a b c first second => (internalEntryLess_false ranked).mpr
        (le_trans ((internalEntryLess_false ranked).mp first)
          ((internalEntryLess_false ranked).mp second))⟩
    exact List.pairwise_insertionSort _ entries

end Sorting

section Trees

variable {fmt : KeyFormat κ} {rank : κ → α} {pages : Store κ (LeafEntry κ)} {n h : Nat} {s : Span κ}

structure TreeOf (fmt : KeyFormat κ) (rank : κ → α) (file : IndexFile κ) (height : Nat)
    (entries : Multiset (LeafEntry κ)) : Prop where
  height_eq : file.treeHeight = height + 1
  tree : Tree (pageRule fmt rank) file.pages file.numPages height file.rootPageNo
  entries_eq : (contents file.pages height [rootSpan file.rootPageNo] : Multiset _) = entries

theorem Under.page (ranked : Ranked fmt rank) (sorts : Sorting fmt)
    (under : Under (pageRule fmt rank) pages n h s) :
    s.page < n ∧ ∃ node, pages s.page = some node ∧ node.retired = false ∧
      node.highKey = s.high ∧ readEntries sorts node.content = node.content := by
  refine ⟨?_, ?_⟩
  · refine under.bounded s.page ?_
    cases h with
    | zero => exact List.mem_cons_self
    | succ h => exact List.mem_append_left _ List.mem_cons_self
  · cases h with
    | zero =>
      obtain ⟨node, entries, here, content, read, live, fence, _⟩ :=
        LeafAt.read ranked sorts (under.below s List.mem_cons_self)
      exact ⟨node, here, live.1, live.2.1, read.trans content.symm⟩
    | succ h =>
      obtain ⟨node, first, entries, here, content, read, live, _⟩ :=
        InternalAt.read ranked sorts (under.below.1 s List.mem_cons_self)
      exact ⟨node, here, live.1, live.2.1, read.trans content.symm⟩

end Trees

section Leaves

variable {fmt : KeyFormat κ} {rank : κ → α} {file : IndexFile κ} {height : Nat}
  {entries : Multiset (LeafEntry κ)}

def leafRow (file : IndexFile κ) (height : Nat) : List (Span κ) :=
  leaves file.pages height [rootSpan file.rootPageNo]

variable {s : Span κ}

theorem TreeOf.leaf (tree : TreeOf fmt rank file height entries)
    (member : s ∈ leafRow file height) :
    s.page < file.numPages ∧ LeafAt (pageRule fmt rank) file.pages s :=
  ⟨tree.tree.bounded s.page (mem_pagesOf_leaves member), below_leaves tree.tree.below s member⟩

theorem TreeOf.below (tree : TreeOf fmt rank file height entries) :
    Below (keyOrder rank).rule file.pages height [rootSpan file.rootPageNo] :=
  tree.tree.below.mono (fun _ _ _ holds => holds.1) fun _ _ _ holds => holds.1

theorem TreeOf.none_behind {key : κ} {before after : List (Span κ)} {t : Span κ}
    (row : leafRow file height = before ++ s :: t :: after)
    (whole : (keyOrder rank).hits key (contents file.pages height [rootSpan file.rootPageNo]) =
      (keyOrder rank).hits key (entriesAt file.pages s)) :
    (keyOrder rank).hits key (entriesAt file.pages t) = [] := by
  have row' : leaves file.pages height [rootSpan file.rootPageNo] = before ++ s :: t :: after := row
  rw [contents, row', List.flatMap_append, List.flatMap_cons, List.flatMap_cons, hits_append,
    hits_append, hits_append] at whole
  have lengths := congrArg List.length whole
  simp only [List.length_append] at lengths
  exact List.length_eq_zero_iff.mp (by omega)

theorem TreeOf.behind (tree : TreeOf fmt rank file height entries) {before after : List (Span κ)}
    (row : leafRow file height = before ++ s :: after) {node : TreeNode κ}
    (here : file.pages s.page = some node) : node.rightLink = (after.map Span.page).head? := by
  have linked := tree.tree.linked
  have row' : leaves file.pages height [rootSpan file.rootPageNo] = before ++ s :: after := row
  rw [row', List.map_append, List.map_cons, linked_append, Linked] at linked
  have link := linked.2.1
  rw [rightLinkOf, here, Option.bind_some, Option.or_none] at link
  exact link

end Leaves

section Ways

variable {fmt : KeyFormat κ} {rank : κ → α}

theorem rightOf_none (ranked : Ranked fmt rank) {node : TreeNode κ} {s : Span κ} {key : κ}
    (fence : node.highKey = s.high) (holds : (keyOrder rank).Holds s key) :
    rightOf fmt node key = none := by
  rw [rightOf, fence]
  cases high : s.high with
  | none => rfl
  | some h =>
    have below := ranked.lt_iff.mpr (holds.2 h high)
    cases node.rightLink with
    | none => rfl
    | some right => exact if_pos below

theorem childForKey_holds (ranked : Ranked fmt rank) {low high : Option κ} (first : Nat) {p : Nat}
    {entries : List (InternalEntry κ)} {key : κ}
    (holds : (keyOrder rank).Holds ⟨low, p, high⟩ key) :
    ∃ s ∈ spans low first entries high, s.page = childForKey fmt key first entries ∧
      (keyOrder rank).Holds s key := by
  induction entries generalizing low first with
  | nil => exact ⟨⟨low, first, high⟩, List.mem_cons_self, rfl, holds⟩
  | cons e entries ih =>
    obtain ⟨k, child⟩ := e
    rw [spans, childForKey]
    by_cases below : fmt.compare key k = .lt
    · refine ⟨⟨low, first, some k⟩, List.mem_cons_self, (if_pos below).symm, holds.1, ?_⟩
      intro r same
      cases same
      exact ranked.lt_iff.mp below
    · rw [if_neg below]
      have above : (keyOrder rank).Holds ⟨some k, p, high⟩ key := by
        refine ⟨fun l same => ?_, holds.2⟩
        cases same
        exact le_of_not_gt fun less => below (ranked.lt_iff.mpr less)
      obtain ⟨s, member, page, inside⟩ := ih child above
      exact ⟨s, List.mem_cons_of_mem _ member, page, inside⟩

/-- The pages from a page down to the leaf for a key, the leaf first, before those above. -/
def wayTo (fmt : KeyFormat κ) (pages : Store κ (LeafEntry κ)) (key : κ) :
    Nat → List Nat → Nat → List Nat
  | 0, above, p => p :: above
  | h + 1, above, p =>
    match (pages p).map Node.content with
    | some (.internal leftmostChild entries) =>
      wayTo fmt pages key h (p :: above) (childForKey fmt key leftmostChild entries)
    | _ => p :: above

theorem down (ranked : Ranked fmt rank) {pages : Store κ (LeafEntry κ)} {n h : Nat}
    {top s : Span κ} {stack : List (Span κ)} {key : κ} (path : Path pages top stack s)
    (under : Under (pageRule fmt rank) pages n (h + 1) s) (holds : (keyOrder rank).Holds s key)
    {node : TreeNode κ} {first : Nat} {entries : List (InternalEntry κ)}
    (here : pages s.page = some node) (content : node.content = .internal first entries) :
    ∃ c, c.page = childForKey fmt key first entries ∧ Path pages top (s :: stack) c ∧
      Under (pageRule fmt rank) pages n h c ∧ (keyOrder rank).Holds c key := by
  obtain ⟨c, member, page, inside⟩ := childForKey_holds ranked first holds
  have child : c ∈ children pages s := by
    rw [children_internal here content]
    exact member
  exact ⟨c, page, .down path child, (under.child child).1, inside⟩

end Ways

end GraniteDb.Access.OrderedTrees
