/- An insert into a tree adds its entry where the halves of every page it splits fit. -/

import GraniteDb.Access.BTreeIndex
import GraniteDb.Access.OrderedTrees

namespace GraniteDb.Access.TreeInserts

open Lib.BlinkTree Lib.Task Access.BTreePage Access.PageTasks Access.BTreeIndex Access.OrderedTrees
open Common.Types (RID)
open Option (bind_some map_some getD_some)
open List (mem_cons_self map_cons mem_append_left)

variable {κ α : Type} [LinearOrder α] {fmt : KeyFormat κ} {rank : κ → α}

section Descent

variable {file : IndexFile κ} {q : Unit → IndexFile κ → Prop}

@[simp] theorem ends_releaseWriteFrame {p : Nat} {dirty : Bool} :
    Task.Ends IndexFile.answer (releaseWriteFrame p dirty) file q ↔ q () file := by
  simp [releaseWriteFrame]

@[simp] theorem ends_releaseWritePath {path : List Nat} :
    Task.Ends IndexFile.answer (releaseWritePath path) file q ↔ q () file := by
  induction path with
  | nil => simp [releaseWritePath]
  | cons p path ih => simp [releaseWritePath, ih]

theorem ends_moveRight (ranked : Ranked fmt rank) {what : String} {key : κ} {path : List Nat}
    {fuel : Nat} {s : Span κ} {node : TreeNode κ} {q : Nat → IndexFile κ → Prop}
    (here : file.pages s.page = some node) (fence : node.highKey = s.high)
    (holds : (keyOrder rank).Holds s key) :
    Task.Ends IndexFile.answer (moveRight fmt what key path (fuel + 1) s.page) file q ↔
      q s.page file := by
  simp [moveRight, here, rightOf_none ranked fence holds]

/-- Of the pages above a page those from a safe page on stay latched, or all. -/
def Latched (safe : TreeContent κ → Except String Bool) (pages : Store κ (LeafEntry κ))
    (stack : List (Span κ)) (held : List Nat) (p : Nat) : Prop :=
  ∃ released, stack.map Span.page = held ++ released ∧
    (released = [] ∨ ∃ last node, (p :: held).getLast? = some last ∧
      pages last = some node ∧ safe node.content = .ok true)

theorem descend_ends (ranked : Ranked fmt rank) (sorts : Sorting fmt)
    {safe : TreeContent κ → Except String Bool} (decides : ∀ content, ∃ b, safe content = .ok b)
    (what : String) {key : κ} {top s : Span κ} {h fuel : Nat} {stack : List (Span κ)}
    (held : List Nat) (path : Path file.pages top stack s)
    (under : Under (pageRule fmt rank) file.pages file.numPages h s)
    (holds : (keyOrder rank).Holds s key)
    (latched : Latched safe file.pages stack held s.page) (enough : h + 1 < fuel) :
    Task.Ends IndexFile.answer (descend sorts what safe key fuel held s.page) file
      fun found file' => file' = file ∧ ∃ stack' s', Path file.pages top stack' s' ∧
        Under (pageRule fmt rank) file.pages file.numPages 0 s' ∧
        stack'.length = stack.length + h ∧ (keyOrder rank).Holds s' key ∧
        Latched safe file.pages stack' found.1 s'.page ∧
        found.2 = s'.page ∧ s'.page :: stack'.map Span.page =
          wayTo fmt file.pages key h (stack.map Span.page) s.page := by
  induction h generalizing fuel stack s held with
  | zero =>
    obtain ⟨fuel, rfl⟩ : ∃ f, fuel = f + 2 := ⟨fuel - 2, by omega⟩
    obtain ⟨node, entries, here, content, read, rule, _⟩ :=
      LeafAt.read ranked sorts (under.below s mem_cons_self)
    rw [descend, ends_bind, ends_moveRight ranked here rule.2.1 holds, ends_bind, ends_readNode]
    refine ⟨node, here, ?_⟩
    rw [read]
    exact ends_pure.mpr ⟨rfl, stack, s, path, under, rfl, holds, latched, rfl, rfl⟩
  | succ h ih =>
    obtain ⟨fuel, rfl⟩ : ∃ f, fuel = f + 2 := ⟨fuel - 2, by omega⟩
    obtain ⟨node, first, entries, here, content, read, rule, _⟩ :=
      InternalAt.read ranked sorts (under.below.1 s mem_cons_self)
    obtain ⟨c, page, path', under', holds'⟩ := down ranked path under holds here content
    obtain ⟨small, childNode, here', _, fence, read'⟩ := Under.page ranked sorts under'
    obtain ⟨b, safety⟩ := decides childNode.content
    have way : wayTo fmt file.pages key (h + 1) (stack.map Span.page) s.page =
        wayTo fmt file.pages key h ((s :: stack).map Span.page) c.page := by
      rw [wayTo, here, map_some, content, page, map_cons]
    have depth : stack.length + (h + 1) = (s :: stack).length + h := by
      rw [List.length_cons]
      omega
    rw [way, depth, descend, ends_bind, ends_moveRight ranked here rule.2.1 holds, ends_bind,
      ends_readNode]
    refine ⟨node, here, ?_⟩
    rw [read]
    simp only [← page, ends_bind, ends_fetchPage, small, decide_true, if_true, ends_wLatch,
      ends_moveRight ranked here' fence holds', ends_readNode, ends_ofExcept]
    refine ⟨childNode, here', b, by rw [read', safety], ?_⟩
    cases b with
    | true =>
      simp only [if_true, ends_bind, ends_releaseWritePath, ends_releaseWriteFrame]
      exact ih [] path' under' holds'
        ⟨(s :: stack).map Span.page, rfl, .inr ⟨c.page, childNode, rfl, here', safety⟩⟩
        (by omega)
    | false =>
      obtain ⟨released, whole, guarded⟩ := latched
      refine ih (s.page :: held) path' under' holds' ⟨released, ?_, ?_⟩ (by omega)
      · rw [map_cons, whole, List.cons_append]
      · rw [List.getLast?_cons_cons]
        exact guarded

end Descent

section Splits

variable {file : IndexFile κ}

def stored (content : TreeContent κ) (rightLink : Option Nat) (highKey : Option κ) : TreeNode κ :=
  ⟨content, false, rightLink, none, highKey⟩

def Fits (fmt : KeyFormat κ) : TreeContent κ → Prop
  | .leaf entries => LeafFits fmt entries
  | .internal _ entries => InternalFits fmt entries

variable {content : TreeContent κ}

theorem canFit_iff : canFit fmt content = .ok true ↔ Fits fmt content := by
  cases content with
  | leaf entries => exact canFitLeafEntries_iff
  | internal first entries =>
    have same : canFit fmt (.internal first entries) = canFitInternalEntries fmt first entries :=
      rfl
    rw [same]
    exact canFitInternalEntries_iff

section

variable (ranked : Ranked fmt rank)

include ranked

theorem rewritten_canFit (content : TreeContent κ)
    (rightLink : Option Nat) (highKey : Option κ) :
    (rewritten fmt content rightLink highKey).2 = canFit fmt content := by
  have small : (highKey.all fun k => fmt.size k ≤ fmt.maxKeyBytes) = true := by
    cases highKey with
    | none => rfl
    | some k => exact decide_eq_true (ranked.size_le k)
  cases content with
  | leaf entries => rw [canFit, rewritten, rewritten, rewrittenLeaf, if_pos small]; rfl
  | internal first entries => rw [canFit, rewritten, rewritten, rewrittenInternal, if_pos small]; rfl

theorem rewritten_stored (fits : canFit fmt content = .ok true)
    (rightLink : Option Nat) (highKey : Option κ) :
    rewritten fmt content rightLink highKey = (stored content rightLink highKey, .ok true) := by
  have ok := (rewritten_canFit ranked content rightLink highKey).trans fits
  refine Prod.ext ?_ ok
  cases content with
  | leaf entries => exact (rewrittenLeaf_ok ok).1
  | internal first entries => exact (rewrittenInternal_ok ok).1

theorem canFit_decides (content : TreeContent κ) :
    ∃ b, canFit fmt content = .ok b := by
  have all {ε : Type} {bytes : ε → Nat} {encodes : ε → Bool} (fit : ∀ e, encodes e = true)
      (what : String) (room : Nat) (entries : List ε) :
      ∃ b, (insertRecords bytes encodes what room entries).2 = .ok b := by
    induction entries generalizing room with
    | nil => exact ⟨true, rfl⟩
    | cons e rest ih =>
      rw [insertRecords, if_neg (by rw [fit e]; decide)]
      by_cases full : room < bytes e + Storage.SlottedPage.slotSize
      · exact ⟨false, by rw [if_pos full]⟩
      · rw [if_neg full]
        exact ih _
  cases content with
  | leaf entries => exact all (fun e => decide_eq_true (ranked.size_le e.key)) _ _ entries
  | internal first entries => exact all (fun e => decide_eq_true (ranked.size_le e.1)) _ _ entries

theorem ends_rewritePage {during : String} {path : List Nat} {p : Nat}
    {rightLink : Option Nat} {highKey : Option κ} {q : Unit → IndexFile κ → Prop}
    (fits : canFit fmt content = .ok true) :
    Task.Ends IndexFile.answer (rewritePage fmt during path p content rightLink highKey) file q ↔
      q () (file.write p (stored content rightLink highKey)) := by
  simp [rewritePage, rewritten_stored ranked fits]

theorem ends_rewrite_one {path : List Nat} {p : Nat} {node : TreeNode κ}
    {key : κ} {q : Option (κ × Nat) → IndexFile κ → Prop} (fits : canFit fmt content = .ok true) :
    Task.Ends IndexFile.answer (rewriteOrSplit fmt path p node key content) file q ↔
      q none (file.write p (stored content node.rightLink node.highKey)) := by
  simp [rewriteOrSplit, fits, ends_rewritePage ranked fits]

end

def split (file : IndexFile κ) (p : Nat) (left right : TreeNode κ) : IndexFile κ :=
  (file.allocate.write p left).write file.numPages right

section

variable {p : Nat} {left right : TreeNode κ}

theorem split_left (small : p < file.numPages) : (split file p left right).pages p = some left := by
  rw [split, write_pages_other _ _ _ (by omega), write_pages_self]

theorem split_right : (split file p left right).pages file.numPages = some right :=
  write_pages_self _ _ _

theorem split_other {q : Nat} (other : q ≠ p) (old : q ≠ file.numPages) :
    (split file p left right).pages q = file.pages q := by
  rw [split, write_pages_other _ _ _ old, write_pages_other _ _ _ other, allocate_pages_other _ old]

end

theorem ends_rewrite_two (ranked : Ranked fmt rank) {path : List Nat} {p : Nat} {node : TreeNode κ}
    {key separator : κ} {content left right : TreeContent κ}
    {q : Option (κ × Nat) → IndexFile κ → Prop} (full : canFit fmt content = .ok false)
    (two : halves key content = (left, right, separator))
    (fits : canFit fmt left = .ok true) (fits' : canFit fmt right = .ok true) :
    Task.Ends IndexFile.answer (rewriteOrSplit fmt path p node key content) file q ↔
      q (some (separator, file.numPages)) (split file p
        (stored left (some file.numPages) (some separator))
        (stored right node.rightLink node.highKey)) := by
  simp [rewriteOrSplit, split, full, two, ends_rewritePage ranked fits, ends_rewritePage ranked fits']

end Splits

section Placing

def Apart (fmt : KeyFormat κ) : TreeContent κ → TreeContent κ → Prop
  | .leaf left, .leaf right => ∀ a ∈ left, ∀ b ∈ right, fmt.compare a.key b.key = .lt
  | _, _ => True

/-- The entries are on one page, or both halves of them fit on one, have no key in common, and the
key between them is as asked. -/
def SplitFits (fmt : KeyFormat κ) (content : TreeContent κ) (key : κ) (above : κ → Prop) : Prop :=
  canFit fmt content = .ok true ∨ (canFit fmt (halves key content).1 = .ok true ∧
    canFit fmt (halves key content).2.1 = .ok true ∧
    Apart fmt (halves key content).1 (halves key content).2.1 ∧ above (halves key content).2.2)

/-- The pages above a page that was split, from its parent up: with the key and the new page each is
on one page or has halves that fit. -/
def ParentsFit (sorts : Sorting fmt) (pages : Store κ (LeafEntry κ)) :
    List Nat → κ → Nat → Prop
  | [], _, _ => True
  | p :: above, separator, new =>
    match (pages p).map Node.content with
    | some (.internal leftmostChild entries) =>
      SplitFits fmt (withChild sorts separator new leftmostChild entries) separator
        fun separator => ParentsFit sorts pages above separator (new + 1)
    | _ => False

instance (left right : TreeContent κ) : Decidable (Apart fmt left right) := by
  unfold Apart
  split <;> infer_instance

instance (content : TreeContent κ) (key : κ) (above : κ → Prop) [DecidablePred above] :
    Decidable (SplitFits fmt content key above) :=
  inferInstanceAs (Decidable (_ ∨ _ ∧ _ ∧ _ ∧ _))

def decideParentsFit (sorts : Sorting fmt) (pages : Store κ (LeafEntry κ)) :
    (above : List Nat) → (separator : κ) → (new : Nat) →
      Decidable (ParentsFit sorts pages above separator new)
  | [], _, _ => isTrue trivial
  | p :: above, separator, new => by
    unfold ParentsFit
    have := fun separator => decideParentsFit sorts pages above separator (new + 1)
    split <;> infer_instance

structure Halved (fmt : KeyFormat κ) (rank : κ → α) (file file' : IndexFile κ) (h : Nat)
    (s : Span κ) (separator : κ) (new : Nat) (entry : LeafEntry κ) : Prop where
  replaced : Replaced (pageRule fmt rank) 0 {entry} file.pages file'.pages file.numPages
    file'.numPages h [s] [⟨s.low, s.page, some separator⟩, ⟨some separator, new, s.high⟩]
  between : (keyOrder rank).Separates s separator
  next : file'.numPages = new + 1
  same_root : file'.rootPageNo = file.rootPageNo
  same_height : file'.treeHeight = file.treeHeight

/-- What `rewriteOrSplit` leaves of a page. -/
def Placed (fmt : KeyFormat κ) (rank : κ → α) (file : IndexFile κ) (h : Nat) (s : Span κ)
    (entry : LeafEntry κ) (content : TreeContent κ) (above : κ → Nat → Prop) :
    Option (κ × Nat) → IndexFile κ → Prop
  | none, file' => Replaced (pageRule fmt rank) 0 {entry} file.pages file'.pages file.numPages
      file'.numPages h [s] [s] ∧ file'.rootPageNo = file.rootPageNo ∧
      file'.treeHeight = file.treeHeight
  | some (separator, new), file' => Halved fmt rank file file' h s separator new entry ∧
      above separator new ∧ canFit fmt content = .ok false

variable {file : IndexFile κ} {s : Span κ} {node : TreeNode κ} {key : κ} {rid : RID}

variable {entries : List (LeafEntry κ)} {pages : Store κ (LeafEntry κ)}

theorem withLeafEntry_ordered (sorts : Sorting fmt) (rule : (pageRule fmt rank).leaf s node entries)
    (holds : (keyOrder rank).Holds s key)
    (comparable : ∀ e ∈ entries, Comparable fmt e ⟨key, rid⟩) :
    InOrder fmt (sorts.leaf (entries ++ [⟨key, rid⟩])) ∧
      ∀ e ∈ sorts.leaf (entries ++ [⟨key, rid⟩]), (keyOrder rank).Holds s e.key := by
  have perm := sorts.leaf_perm (entries ++ [⟨key, rid⟩])
  constructor
  · refine inOrder_of_sorted (sorts.leaf_sorted _) ?_
    refine (perm.pairwise_iff fun comparable => Comparable.symm comparable).mpr ?_
    rw [List.pairwise_append]
    refine ⟨rule.2.1.comparable, List.pairwise_singleton _ _, fun e member e' last => ?_⟩
    rw [List.mem_singleton.mp last]
    exact comparable e member
  · intro e member
    obtain old | last := List.mem_append.mp (perm.mem_iff.mp member)
    · exact rule.1.2.2 e old
    · rw [List.mem_singleton.mp last]
      exact holds

theorem leafAt_stored {link : Option Nat}
    (here : pages s.page = some (stored (.leaf entries) link s.high)) (order : InOrder fmt entries)
    (inside : ∀ e ∈ entries, (keyOrder rank).Holds s e.key)
    (fits : canFit fmt (.leaf entries) = .ok true) : LeafAt (pageRule fmt rank) pages s :=
  ⟨_, entries, here, rfl, ⟨rfl, rfl, inside⟩, order, canFit_iff.mp fits⟩

theorem leaf_halves (ranked : Ranked fmt rank) {all : List (LeafEntry κ)}
    (order : InOrder fmt all) (inside : ∀ e ∈ all, (keyOrder rank).Holds s e.key)
    (two : 2 ≤ all.length) (key : κ)
    (apart : Apart fmt (halves key (.leaf all)).1 (halves key (.leaf all)).2.1) :
    ∃ left right separator, halves key (.leaf all) = (.leaf left, .leaf right, separator) ∧
      all = left ++ right ∧ InOrder fmt left ∧
      (∀ e ∈ left, (keyOrder rank).Holds ⟨s.low, s.page, some separator⟩ e.key) ∧
      InOrder fmt right ∧
      (∀ n, ∀ e ∈ right, (keyOrder rank).Holds ⟨some separator, n, s.high⟩ e.key) ∧
      (keyOrder rank).Separates s separator := by
  have middle : all.length / 2 < all.length := by omega
  obtain ⟨left, right, e, before, behind, whole⟩ : ∃ left right e,
      all.take (all.length / 2) = left ∧ all.drop (all.length / 2) = e :: right ∧
        all = left ++ e :: right := by
    refine ⟨_, _, _, rfl, List.drop_eq_getElem_cons middle, ?_⟩
    rw [← List.drop_eq_getElem_cons middle, List.take_append_drop]
  have head : (all[all.length / 2]?).map LeafEntry.key = some e.key := by
    have first := congrArg List.head? behind
    rw [List.head?_drop] at first
    rw [first]
    rfl
  have halved : halves key (.leaf all) = (.leaf left, .leaf (e :: right), e.key) := by
    simp only [halves, before, behind, head, getD_some]
  rw [halved] at apart
  have nonempty : left ≠ [] := by
    intro none
    have length := congrArg List.length before
    rw [none, List.length_take, List.length_nil] at length
    omega
  have below : ∀ a ∈ left, rank a.key < rank e.key := fun a inLeft =>
    ranked.lt_iff.mp (apart a inLeft e mem_cons_self)
  rw [whole] at order inside
  obtain ⟨orderLeft, orderRight, _⟩ := List.pairwise_append.mp order
  have insideRight : ∀ a ∈ e :: right, (keyOrder rank).Holds s a.key := fun a inRight =>
    inside a (List.mem_append_right _ inRight)
  refine ⟨left, e :: right, e.key, halved, whole, orderLeft, fun a inLeft => ?_, orderRight,
    fun n a inRight => ?_, fun l low => ?_, (insideRight e mem_cons_self).2⟩
  · refine ⟨(inside a (mem_append_left _ inLeft)).1, fun r same => ?_⟩
    cases same
    exact below a inLeft
  · refine ⟨fun l same => ?_, (insideRight a inRight).2⟩
    cases same
    obtain rfl | later := List.mem_cons.mp inRight
    · exact le_refl _
    · exact (List.pairwise_cons.mp (InOrder.rank_le ranked orderRight)).1 a later
  · obtain ⟨a, inLeft⟩ := List.exists_mem_of_ne_nil left nonempty
    exact lt_of_le_of_lt ((inside a (mem_append_left _ inLeft)).1 l low) (below a inLeft)

theorem two_entries (ranked : Ranked fmt rank)
    (alone : maxLeafInsertBytes fmt ≤ nodeCapacityBytes fmt)
    (full : canFit fmt (.leaf entries) = .ok false) : 2 ≤ entries.length := by
  by_contra few
  have fits : LeafFits fmt entries := by
    refine ⟨fun e _ => ranked.size_le e.key, ?_⟩
    match entries, few with
    | [], _ => exact Nat.zero_le _
    | [e], _ =>
      have small := ranked.size_le e.key
      simp only [leafUsedBytes, leafEntryBytes, map_cons, List.map_nil, List.sum_cons,
        List.sum_nil, maxLeafInsertBytes] at alone ⊢
      omega
    | _ :: _ :: _, few => exact absurd (by simp) few
  have one : Fits fmt (.leaf entries) := fits
  rw [canFit_iff.mpr one] at full
  cases full

theorem leaf_placed (ranked : Ranked fmt rank) (sorts : Sorting fmt) (path : List Nat)
    {above : κ → Nat → Prop} (here : file.pages s.page = some node)
    (content : node.content = .leaf entries) (rule : (pageRule fmt rank).leaf s node entries)
    (small : s.page < file.numPages) (holds : (keyOrder rank).Holds s key)
    (comparable : ∀ e ∈ entries, Comparable fmt e ⟨key, rid⟩)
    (alone : maxLeafInsertBytes fmt ≤ nodeCapacityBytes fmt)
    (fits : SplitFits fmt (withLeafEntry sorts key rid entries) key fun separator => above
      separator file.numPages) :
    Task.Ends IndexFile.answer
      (rewriteOrSplit fmt path s.page node key (withLeafEntry sorts key rid entries)) file
      (Placed fmt rank file 0 s ⟨key, rid⟩ (withLeafEntry sorts key rid entries) above) := by
  obtain ⟨order, inside⟩ := withLeafEntry_ordered sorts rule holds comparable
  have perm := sorts.leaf_perm (entries ++ [⟨key, rid⟩])
  have before : (entriesAt file.pages s : Multiset (LeafEntry κ)) + {⟨key, rid⟩} =
      sorts.leaf (entries ++ [⟨key, rid⟩]) := by
    rw [entriesAt_leaf here content, Multiset.coe_eq_coe.mpr perm, ← Multiset.coe_add]
    rfl
  have oldLink : rightLinkOf file.pages s.page = node.rightLink := by
    rw [rightLinkOf, here, bind_some]
  obtain ⟨b, fit⟩ := canFit_decides ranked (withLeafEntry sorts key rid entries)
  cases b with
  | true =>
    rw [ends_rewrite_one ranked fit, rule.1.2.1]
    refine ⟨Replaced.leaf (leafAt_stored (write_pages_self _ _ _) order inside fit)
      (fun q other => write_pages_other _ _ _ other) ?_ ?_, rfl, rfl⟩
    · rw [oldLink, rightLinkOf, write_pages_self, bind_some, stored]
    · rw [before, entriesAt_leaf (write_pages_self _ _ _) rfl, add_zero]
  | false =>
    obtain full | ⟨fitLeft, fitRight, apart, next⟩ := fits
    · rw [fit] at full
      cases full
    · obtain ⟨left, right, separator, two, whole, orderLeft, insideLeft, orderRight,
        insideRight, between⟩ :=
          leaf_halves ranked order inside (two_entries ranked alone fit) key apart
      rw [withLeafEntry, two] at fitLeft fitRight next
      rw [ends_rewrite_two ranked fit two fitLeft fitRight, rule.1.2.1]
      refine ⟨⟨?_, between, rfl, rfl, rfl⟩, next, fit⟩
      refine Replaced.leaf_split (leafAt_stored (split_left small) orderLeft insideLeft fitLeft)
        (leafAt_stored split_right orderRight (insideRight _) fitRight) small
        ⟨Nat.le_refl _, Nat.lt_succ_self _⟩ (fun q other new => split_other other new) ?_ ?_ ?_
      · rw [rightLinkOf, split_left small, bind_some, stored]
      · rw [rightLinkOf, split_right, bind_some, oldLink, stored]
      · rw [before, entriesAt_leaf (s := ⟨s.low, s.page, some separator⟩) (split_left small) rfl,
          entriesAt_leaf (s := ⟨some separator, file.numPages, s.high⟩) split_right rfl,
          add_zero, whole, Multiset.coe_add]

theorem internalAt_stored {first : Nat} {entries : List (InternalEntry κ)} {link : Option Nat}
    (here : pages s.page = some (stored (.internal first entries) link s.high))
    (sorted : entries.Pairwise fun a b => rank a.1 < rank b.1)
    (separates : ∀ e ∈ entries, (keyOrder rank).Separates s e.1)
    (fits : canFit fmt (.internal first entries) = .ok true) :
    InternalAt (pageRule fmt rank) pages s :=
  ⟨_, first, entries, here, rfl, ⟨rfl, rfl, sorted, separates⟩, canFit_iff.mp fits⟩

theorem internal_halves {all : List (InternalEntry κ)} (nonempty : all ≠ []) (first : Nat)
    (key : κ) : ∃ left right separator child,
      halves key (.internal first all) = (.internal first left, .internal child right, separator) ∧
      all = left ++ (separator, child) :: right := by
  have length := List.length_pos_iff.mpr nonempty
  have middle : all.length / 2 < all.length := by omega
  refine ⟨all.take (all.length / 2), all.drop (all.length / 2 + 1), (all[all.length / 2]).1,
    (all[all.length / 2]).2, ?_, ?_⟩
  · simp only [halves, List.getElem?_eq_getElem middle, getD_some]
  · exact (List.take_append_drop _ _).symm.trans (congrArg _ (List.drop_eq_getElem_cons middle))

theorem parent_placed (ranked : Ranked fmt rank) (sorts : Sorting fmt) (path : List Nat)
    {file' : IndexFile κ} {h new first : Nat} {parent : Span κ} {separator : κ}
    {entry : LeafEntry κ} {entries : List (InternalEntry κ)} {above : κ → Nat → Prop}
    (halved : Halved fmt rank file file' h s separator new entry)
    (under : Under (pageRule fmt rank) file.pages file.numPages (h + 1) parent)
    (child : s ∈ children file.pages parent) (here : file.pages parent.page = some node)
    (content : node.content = .internal first entries)
    (rule : (pageRule fmt rank).internal parent node entries)
    (fits : SplitFits fmt (withChild sorts separator new first entries) separator fun separator =>
      above separator (new + 1)) :
    Task.Ends IndexFile.answer
      (rewriteOrSplit fmt path parent.page node separator
        (withChild sorts separator new first entries)) file'
      (Placed fmt rank file (h + 1) parent entry (withChild sorts separator new first entries)
        above) := by
  obtain ⟨before, after, kids⟩ := List.append_of_mem child
  have grown := halved.replaced.grown
  have small := under.bounded parent.page (mem_append_left _ mem_cons_self)
  have kids' := kids
  rw [children_internal here content] at kids'
  obtain ⟨left, right, rfl, sorted, separates, spans'⟩ := separates_insert (o := keyOrder rank)
    (n := new) kids' rule.1.2.2.1 rule.1.2.2.2 halved.between
  have read : withChild sorts separator new first (left ++ right) =
      .internal first (left ++ (separator, new) :: right) := by
    rw [withChild, internal_eq ranked sorts ?_ sorted]
    rw [List.append_assoc]
    exact (List.perm_append_singleton _ _).append_left left
  have place : children file.pages parent = before ++ [s] ++ after := by
    rw [kids, List.append_assoc, List.singleton_append]
  rw [read] at fits ⊢
  obtain ⟨b, fit⟩ := canFit_decides ranked (.internal first (left ++ (separator, new) :: right))
  cases b with
  | true =>
    rw [ends_rewrite_one ranked fit, rule.1.2.1]
    have written := write_pages_self file' parent.page
      (stored (.internal first (left ++ (separator, new) :: right)) node.rightLink parent.high)
    refine ⟨halved.replaced.parent under place (internalAt_stored written sorted separates fit)
      ?_ (fun q other => write_pages_other _ _ _ other), halved.same_root, halved.same_height⟩
    rw [children_internal written rfl, spans']
  | false =>
    obtain full | ⟨fitLeft, fitRight, _, next⟩ := fits
    · rw [fit] at full
      cases full
    · obtain ⟨front, rear, middle, promoted, two, whole⟩ :=
        internal_halves (List.append_ne_nil_of_right_ne_nil left (List.cons_ne_nil _ right))
          first separator
      rw [two] at fitLeft fitRight next
      rw [ends_rewrite_two ranked fit two fitLeft fitRight, rule.1.2.1]
      have fresh := halved.next
      rw [whole] at sorted separates
      have between := separates (middle, promoted)
        (List.mem_append_right _ mem_cons_self)
      obtain ⟨⟨sortedFront, separatesFront⟩, sortedRear, separatesRear⟩ :=
        separates_split sorted separates
      have small' : parent.page < file'.numPages := by omega
      rw [← fresh] at next
      refine ⟨⟨?_, between, rfl, halved.same_root, halved.same_height⟩, next, fit⟩
      refine halved.replaced.parent_split under place
        (internalAt_stored (split_left small') sortedFront separatesFront fitLeft)
        (internalAt_stored split_right sortedRear (separatesRear _) fitRight) ?_
        ⟨Nat.le_refl _, Nat.lt_succ_self _⟩ (fun q other new => split_other other new)
      rw [children_internal (s := ⟨parent.low, parent.page, some middle⟩) (split_left small') rfl,
        children_internal (s := ⟨some middle, file'.numPages, parent.high⟩) split_right rfl,
        ← spans', whole, spans_append]

end Placing

section Whole

variable {file : IndexFile κ} {s : Span κ} {key : κ} {rid : RID} {height : Nat}
  {entries : Multiset (LeafEntry κ)}

variable {entry : LeafEntry κ} {file' : IndexFile κ} {separator : κ} {new : Nat}

theorem TreeOf.placed {stack : List (Span κ)} {h : Nat} (tree : TreeOf fmt rank file height entries)
    (path : Path file.pages (rootSpan file.rootPageNo) stack s) (depth : height = h + stack.length)
    (replaced : Replaced (pageRule fmt rank) 0 {entry} file.pages file'.pages file.numPages
      file'.numPages h [s] [s])
    (same_root : file'.rootPageNo = file.rootPageNo)
    (same_height : file'.treeHeight = file.treeHeight) :
    TreeOf fmt rank file' height (entries + {entry}) := by
  subst depth
  have whole := path.lift tree.tree.under replaced
  refine ⟨same_height.trans tree.height_eq, ?_, ?_⟩
  · rw [same_root]
    exact tree.tree.replace whole
  · have exchanged := whole.exchanged
    rw [add_zero, tree.entries_eq] at exchanged
    rw [same_root]
    exact exchanged

theorem safe_fits (ranked : Ranked fmt rank) (sorts : Sorting fmt) {first : Nat}
    {row : List (InternalEntry κ)}
    (safe : childSafeForInsert sorts key rid (.internal first row) = .ok true) :
    canFit fmt (withChild sorts separator new first row) = .ok true := by
  have room : internalUsedBytes fmt row + maxInternalInsertBytes fmt ≤ nodeCapacityBytes fmt :=
    of_decide_eq_true (Except.ok.inj safe)
  have small := ranked.size_le separator
  have used : internalUsedBytes fmt (sorts.internal (row ++ [(separator, new)])) =
      internalUsedBytes fmt row + (4 + fmt.size separator + 4 + Storage.SlottedPage.slotSize) := by
    rw [internalUsedBytes, ((sorts.internal_perm _).map _).sum_nat, List.map_append,
      List.sum_append]
    rfl
  refine canFit_iff.mpr ⟨fun e _ => ranked.size_le e.1, ?_⟩
  rw [used]
  rw [maxInternalInsertBytes] at room
  omega

theorem growRoot_ends (ranked : Ranked fmt rank) (tree : TreeOf fmt rank file height entries)
    (alone : maxLeafInsertBytes fmt ≤ nodeCapacityBytes fmt)
    (halved : Halved fmt rank file file' height (rootSpan file.rootPageNo) separator new entry) :
    Task.Ends IndexFile.answer (growRoot fmt file.rootPageNo (separator, new)) file'
      fun _ file'' => TreeOf fmt rank file'' (height + 1) (entries + {entry}) := by
  have fits : canFit fmt (.internal file.rootPageNo [(separator, new)]) = .ok true := by
    refine canFit_iff.mpr ⟨fun e _ => ranked.size_le e.1, ?_⟩
    have small := ranked.size_le separator
    simp only [internalUsedBytes, internalEntryBytes, map_cons, List.map_nil, List.sum_cons,
      List.sum_nil, maxLeafInsertBytes] at alone ⊢
    omega
  have metaPage : 0 < file'.numPages := by
    have next := halved.next
    omega
  have written := write_pages_self file'.allocate file'.numPages
    (stored (.internal file.rootPageNo [(separator, new)]) none none)
  have outside : ∀ p, p ≠ file'.numPages → (file'.allocate.write file'.numPages
      (stored (.internal file.rootPageNo [(separator, new)]) none none)).pages p =
        file'.pages p := by
    intro p other
    rw [write_pages_other _ _ _ other, allocate_pages_other _ other]
  have internal : InternalAt (pageRule fmt rank) (file'.allocate.write file'.numPages
      (stored (.internal file.rootPageNo [(separator, new)]) none none)).pages
        (rootSpan file'.numPages) := by
    refine internalAt_stored written (List.pairwise_singleton _ _) (fun e member => ?_) fits
    rw [List.mem_singleton.mp member]
    refine ⟨fun l low => ?_, fun r high => ?_⟩
    · cases low
    · cases high
  have kids := children_internal (s := (rootSpan file'.numPages : Span κ)) written rfl
  have grown : TreeOf fmt rank { file'.allocate.write file'.numPages
      (stored (.internal file.rootPageNo [(separator, new)]) none none) with
        rootPageNo := file'.numPages, treeHeight := file'.treeHeight + 1 } (height + 1)
      (entries + {entry}) := by
    refine ⟨?_, tree.tree.grow halved.replaced internal kids
      ⟨Nat.le_refl _, Nat.lt_succ_self _⟩ outside, ?_⟩
    · exact congrArg (· + 1) (halved.same_height.trans tree.height_eq)
    · have exchanged := halved.replaced.exchanged
      rw [add_zero, tree.entries_eq] at exchanged
      rw [← exchanged, contents_succ, List.flatMap_singleton, kids]
      refine congrArg _ (contents_congr fun p inside => outside p fun same => ?_)
      obtain old | fresh := halved.replaced.used p inside
      · have bound := tree.tree.bounded p old
        have more := halved.replaced.grown
        omega
      · omega
  simp only [growRoot, ends_bind, ends_newPage, ends_wLatch, ends_rewrite, rewritten_stored ranked fits]
  refine ⟨true, rfl, ?_⟩
  simp only [if_true, ends_bind, ends_logPageChange, ends_wUnlatch, ends_unpinPage]
  rw [readMetaPage_ends (by simp), writeMetaPage_ends (by simp)]
  exact grown

theorem insertUp_ends (ranked : Ranked fmt rank) (sorts : Sorting fmt) {h : Nat}
    {stack : List (Span κ)} {held released : List Nat} (tree : TreeOf fmt rank file height entries)
    (alone : maxLeafInsertBytes fmt ≤ nodeCapacityBytes fmt)
    (path : Path file.pages (rootSpan file.rootPageNo) stack s) (depth : height = h + stack.length)
    (whole : stack.map Span.page = held ++ released)
    (guarded : released = [] ∨ ∃ last node, held.getLast? = some last ∧ file.pages last = some node
      ∧ childSafeForInsert sorts key rid node.content = .ok true)
    (halved : Halved fmt rank file file' h s separator new entry)
    (fits : ParentsFit sorts file.pages (stack.map Span.page) separator new) :
    Task.Ends IndexFile.answer (insertUp sorts held s.page (separator, new)) file'
      fun _ file'' => ∃ height', TreeOf fmt rank file'' height' (entries + {entry}) := by
  induction held generalizing file' h new separator stack s with
  | nil =>
    obtain rfl | ⟨last, node, none, _⟩ := guarded
    · cases path with
      | here =>
        obtain rfl : height = h := depth
        rw [insertUp]
        exact (growRoot_ends ranked tree alone halved).mono fun _ _ grown => ⟨_, grown⟩
      | down path child => simp at whole
    · cases none
  | cons p held ih =>
    cases path with
    | here => simp at whole
    | @down stack parent _ path child =>
      obtain ⟨rfl, rest⟩ := List.cons.inj whole
      rw [List.length_cons] at depth
      obtain ⟨h', same, under, _, _⟩ := path.under tree.tree.under
      obtain rfl : h' = h + 1 := by omega
      obtain ⟨_, distinct, _⟩ := under.child child
      obtain ⟨node, first, row, here, content, read, rule⟩ :=
        InternalAt.read ranked sorts (under.below.1 parent mem_cons_self)
      have here' : file'.pages parent.page = some node := by
        rw [halved.replaced.frame parent.page ?_ distinct, here]
        exact under.bounded parent.page (mem_append_left _ mem_cons_self)
      rw [map_cons, ParentsFit, here, map_some, content] at fits
      have placed := parent_placed ranked sorts held halved under child here content
        rule fits
      rw [insertUp, ends_bind, ends_readNode]
      refine ⟨node, here', ?_⟩
      rw [read, ends_bind]
      refine placed.mono fun result file'' after => ?_
      cases result with
      | none =>
        obtain ⟨replaced, same_root, same_height⟩ := after
        exact ends_pure.mpr
          ⟨height, TreeOf.placed tree path (by omega) replaced same_root same_height⟩
      | some split =>
        obtain ⟨halved', fits', full⟩ := after
        refine ih path (by omega) rest ?_ halved' fits'
        obtain rfl | ⟨last, lastNode, above, lastHere, safety⟩ := guarded
        · exact .inl rfl
        · cases held with
          | cons q held =>
            rw [List.getLast?_cons_cons] at above
            exact .inr ⟨last, lastNode, above, lastHere, safety⟩
          | nil =>
            -- the page is safe, so it had room for the new key
            obtain rfl : parent.page = last := Option.some.inj above
            obtain rfl : node = lastNode := Option.some.inj (here.symm.trans lastHere)
            rw [content] at safety
            rw [safe_fits ranked sorts safety] at full
            cases full

/-- Wherever an insert has to split a page, both halves of it fit. -/
def HalvesFit (sorts : Sorting fmt) (file : IndexFile κ) (key : κ) (rid : RID) : Prop :=
  match wayTo fmt file.pages key (file.treeHeight - 1) [] file.rootPageNo with
  | [] => False
  | p :: above =>
    match (file.pages p).map Node.content with
    | some (.leaf entries) => SplitFits fmt (withLeafEntry sorts key rid entries) key
        fun separator => ParentsFit sorts file.pages above separator file.numPages
    | _ => False

instance (sorts : Sorting fmt) (file : IndexFile κ) (key : κ) (rid : RID) :
    Decidable (HalvesFit sorts file key rid) := by
  unfold HalvesFit
  have := fun (above : List Nat) (separator : κ) =>
    decideParentsFit sorts file.pages above separator file.numPages
  split
  · infer_instance
  · split <;> infer_instance

theorem childSafeForInsert_decides (ranked : Ranked fmt rank) (sorts : Sorting fmt)
    (content : TreeContent κ) : ∃ b, childSafeForInsert sorts key rid content = .ok b := by
  cases content with
  | leaf row => exact canFit_decides ranked _
  | internal first row => exact ⟨_, rfl⟩

theorem insert_ends (ranked : Ranked fmt rank) (sorts : Sorting fmt) {fuel : Nat}
    (tree : TreeOf fmt rank file height entries)
    (alone : maxLeafInsertBytes fmt ≤ nodeCapacityBytes fmt)
    (comparable : ∀ e ∈ entries, Comparable fmt e ⟨key, rid⟩) (fits : HalvesFit sorts file key rid)
    (enough : height + 1 < fuel) :
    Task.Ends IndexFile.answer (BTreeIndex.insert sorts key rid fuel) file
      fun _ file' => ∃ height', TreeOf fmt rank file' height' (entries + {⟨key, rid⟩}) := by
  have root : file.rootPageNo < file.numPages := (Under.page ranked sorts tree.tree.under).1
  have holds : (keyOrder rank).Holds (rootSpan file.rootPageNo) key := by
    refine ⟨fun l low => ?_, fun r high => ?_⟩
    · cases low
    · cases high
  have decides : ∀ content, ∃ b, childSafeForInsert sorts key rid content = .ok b :=
    childSafeForInsert_decides ranked sorts
  have reached := descend_ends ranked sorts decides "insert" [] .here tree.tree.under holds
    ⟨[], rfl, .inl rfl⟩ enough
  rw [BTreeIndex.insert, ends_bind, descendFromRoot, ends_bind, readMetaPage_ends (by omega)]
  simp only [ends_fetchPage, root, decide_true, if_true, ends_bind, ends_wLatch, ends_pure]
  refine reached.mono ?_
  rintro ⟨held, _⟩ _ ⟨same, stack, s, path, under, deep, inside, latched, rfl, way⟩
  rw [same]
  obtain ⟨node, row, here, content, read, rule⟩ :=
    LeafAt.read ranked sorts (under.below s mem_cons_self)
  have depth : height = 0 + stack.length := by
    rw [List.length_nil] at deep
    omega
  have comparableRow : ∀ e ∈ row, Comparable fmt e ⟨key, rid⟩ := by
    intro e member
    refine comparable e ?_
    have leaf := path.leaves (t := s) (h := 0) mem_cons_self
    rw [← depth] at leaf
    rw [← tree.entries_eq, Multiset.mem_coe]
    refine List.mem_flatMap.mpr ⟨s, leaf, ?_⟩
    rw [entriesAt_leaf here content]
    exact member
  have way : wayTo fmt file.pages key height [] file.rootPageNo =
      s.page :: stack.map Span.page := way.symm
  rw [HalvesFit, tree.height_eq, Nat.add_sub_cancel, way] at fits
  simp only [here, map_some, content] at fits
  simp only [ends_readNode]
  refine ⟨node, here, ?_⟩
  rw [read, ends_bind]
  have small := (Under.page ranked sorts under).1
  refine (leaf_placed ranked sorts held here content rule small inside comparableRow alone
    fits).mono fun result file'' after => ?_
  cases result with
  | none =>
    obtain ⟨replaced, same_root, same_height⟩ := after
    exact ends_pure.mpr ⟨height, TreeOf.placed tree path depth replaced same_root same_height⟩
  | some split =>
    obtain ⟨halved, fits', full⟩ := after
    obtain ⟨released, whole, guarded⟩ := latched
    have guarded' : released = [] ∨ ∃ last node, held.getLast? = some last ∧
        file.pages last = some node ∧
          childSafeForInsert sorts key rid node.content = .ok true := by
      obtain rfl | ⟨last, lastNode, above, lastHere, safety⟩ := guarded
      · exact .inl rfl
      · cases held with
        | cons p held =>
          rw [List.getLast?_cons_cons] at above
          exact .inr ⟨last, lastNode, above, lastHere, safety⟩
        | nil =>
          -- the leaf is safe, so the new entry fits on it
          obtain rfl : s.page = last := Option.some.inj above
          obtain rfl : node = lastNode := Option.some.inj (here.symm.trans lastHere)
          rw [content, childSafeForInsert, full] at safety
          cases safety
    exact insertUp_ends ranked sorts tree alone path depth whole guarded' halved fits'

end Whole

end GraniteDb.Access.TreeInserts
