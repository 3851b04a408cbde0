/- An insert empties no leaf of a composite index, if the leaf it comes to is not emptied. -/

import GraniteDb.Access.GenericBTree

namespace GraniteDb.Access.FilledLeaves

open Lib.Task Access.BTreePage Access.PageTasks Access.GenericBTree
open Common.Types (RID)

variable {κ : Type}

section Files

/-- An operation that runs alone on a file, whatever frames are free. -/
def filing (κ : Type) : System (Request κ) Reply (IndexFile κ) where
  permits _ _ := True
  answers := answers

variable {file : IndexFile κ} {p : Nat}

theorem keeps_filing {r : Request κ} {q : Except String (Reply r) → IndexFile κ → Prop} :
    Task.Keeps (filing κ) (ask r) file q ↔ ∀ b file', answers file r b file' → q (.ok b) file' := by
  rw [keeps_ask]
  exact and_iff_right trivial

@[simp] theorem files_fetchPage {q : Except String Bool → IndexFile κ → Prop} :
    Task.Keeps (filing κ) (fetchPage p) file q ↔
      (p < file.numPages → q (.ok true) file) ∧ q (.ok false) file := by
  rw [fetchPage, keeps_filing]
  simp [answers, and_comm]

@[simp] theorem files_newPage {q : Except String (Option Nat) → IndexFile κ → Prop} :
    Task.Keeps (filing κ) newPage file q ↔
      q (.ok none) file ∧ q (.ok (some file.numPages)) file.allocate := by
  rw [newPage, keeps_filing]
  simp [answers, Option.forall]

variable {q : Except String Unit → IndexFile κ → Prop}

@[simp] theorem files_unpinPage {dirty : Bool} :
    Task.Keeps (filing κ) (unpinPage p dirty) file q ↔ q (.ok ()) file := by
  rw [unpinPage, keeps_filing]
  simp [answers, Reply, Unique.forall_iff]

@[simp] theorem files_rLatch : Task.Keeps (filing κ) (rLatch p) file q ↔ q (.ok ()) file := by
  rw [rLatch, keeps_filing]
  simp [answers, Reply, Unique.forall_iff]

@[simp] theorem files_rUnlatch : Task.Keeps (filing κ) (rUnlatch p) file q ↔ q (.ok ()) file := by
  rw [rUnlatch, keeps_filing]
  simp [answers, Reply, Unique.forall_iff]

@[simp] theorem files_wLatch : Task.Keeps (filing κ) (wLatch p) file q ↔ q (.ok ()) file := by
  rw [wLatch, keeps_filing]
  simp [answers, Reply, Unique.forall_iff]

@[simp] theorem files_wUnlatch : Task.Keeps (filing κ) (wUnlatch p) file q ↔ q (.ok ()) file := by
  rw [wUnlatch, keeps_filing]
  simp [answers, Reply, Unique.forall_iff]

@[simp] theorem files_logPageChange :
    Task.Keeps (filing κ) (logPageChange p) file q ↔ q (.ok ()) file := by
  rw [logPageChange, keeps_filing]
  simp [answers, Reply, Unique.forall_iff]

@[simp] theorem files_writeNode {node : TreeNode κ} :
    Task.Keeps (filing κ) (writeNode p node) file q ↔ q (.ok ()) (file.write p node) := by
  rw [writeNode, keeps_filing]
  simp [answers, Reply, Unique.forall_iff]

@[simp] theorem files_readMeta {q : Except String (Nat × Nat) → IndexFile κ → Prop} :
    Task.Keeps (filing κ) readMeta file q ↔
      q (.ok (file.rootPageNo, file.treeHeight)) file := by
  rw [readMeta, keeps_filing]
  simp [answers]

@[simp] theorem files_writeMeta {rootPageNo treeHeight : Nat} :
    Task.Keeps (filing κ) (writeMeta rootPageNo treeHeight) file q ↔
      q (.ok ()) { file with rootPageNo := rootPageNo, treeHeight := treeHeight } := by
  rw [writeMeta, keeps_filing]
  simp [answers, Reply, Unique.forall_iff]

@[simp] theorem files_loop {α : Type} {q : Except String α → IndexFile κ → Prop} :
    Task.Keeps (filing κ) loop file q := ⟨trivial, fun never => nomatch never⟩

theorem files_readNode {q : Except String (TreeNode κ) → IndexFile κ → Prop}
    (node : ∀ n, file.pages p = some n → q (.ok n) file) (none : ∀ what, q (.error what) file) :
    Task.Keeps (filing κ) (readNode p) file q := by
  rw [readNode, keeps_bind_task, keeps_filing]
  rintro b file' ⟨rfl, rfl⟩
  cases here : file'.pages p with
  | none => exact none _
  | some n => exact node n here

@[simp] theorem files_rewrite {fmt : KeyFormat κ} {content : TreeContent κ} {link : Option Nat}
    {highKey : Option κ} {q : Except String Bool → IndexFile κ → Prop} :
    Task.Keeps (filing κ) (rewrite fmt p content link highKey) file q ↔
      q (rewritten fmt content link highKey).2
        (file.write p (rewritten fmt content link highKey).1) := by
  rw [rewrite, keeps_bind_task, files_writeNode, andThen_ok, keeps_ofExcept]

end Files

section Kinds

def Full (node : TreeNode κ) : Prop := ∃ entries, node.content = .leaf entries ∧ entries ≠ []

def Inner (node : TreeNode κ) : Prop := ∃ first entries, node.content = .internal first entries

def Replaces (file : IndexFile κ) (p : Nat) (node : TreeNode κ) : Prop :=
  ∀ old, file.pages p = some old → (Full old → Full node) ∧ (Inner old → Inner node)

structure Kept (file file' : IndexFile κ) : Prop where
  grown : file.numPages ≤ file'.numPages
  pages : ∀ p old, p < file.numPages → file.pages p = some old →
    ∃ node, file'.pages p = some node ∧ (Full old → Full node) ∧ (Inner old → Inner node)

variable {file file' file'' : IndexFile κ} {p : Nat} {node : TreeNode κ}

theorem Kept.refl (file : IndexFile κ) : Kept file file :=
  ⟨Nat.le_refl _, fun _ old _ here => ⟨old, here, id, id⟩⟩

theorem Kept.trans (first : Kept file file') (second : Kept file' file'') : Kept file file'' where
  grown := Nat.le_trans first.grown second.grown
  pages := by
    intro p old small here
    obtain ⟨mid, there, full, inner⟩ := first.pages p old small here
    obtain ⟨node, after, full', inner'⟩ :=
      second.pages p mid (Nat.lt_of_lt_of_le small first.grown) there
    exact ⟨node, after, full' ∘ full, inner' ∘ inner⟩

section

variable (kept : Kept file file')

include kept

theorem Kept.write (replaces : Replaces file p node) :
    Kept file (file'.write p node) where
  grown := kept.grown
  pages := by
    intro q old small here
    by_cases same : q = p
    · subst same
      exact ⟨node, write_pages_self _ _ _, replaces old here⟩
    · rw [write_pages_other _ _ _ same]
      exact kept.pages q old small here

theorem Kept.write_new (new : file.numPages ≤ p) :
    Kept file (file'.write p node) where
  grown := kept.grown
  pages := by
    intro q old small here
    rw [write_pages_other _ _ _ (by omega)]
    exact kept.pages q old small here

theorem Kept.allocate : Kept file file'.allocate where
  grown := Nat.le_succ_of_le kept.grown
  pages := by
    intro q old small here
    have grown := kept.grown
    rw [allocate_pages_other _ (by omega)]
    exact kept.pages q old small here

theorem Kept.reroot (root height : Nat) :
    Kept file { file' with rootPageNo := root, treeHeight := height } := ⟨kept.grown, kept.pages⟩

end

theorem inner_rewritten (fmt : KeyFormat κ) (first : Nat) (entries : List (InternalEntry κ))
    (link : Option Nat) (highKey : Option κ) :
    Inner (rewritten fmt (.internal first entries) link highKey).1 := by
  rw [rewritten, rewrittenInternal]
  split
  · exact ⟨first, _, rfl⟩
  · exact ⟨first, _, rfl⟩

theorem Replaces.inner {old : TreeNode κ} (here : file.pages p = some old) (before : Inner old)
    (after : Inner node) : Replaces file p node := by
  intro old' there
  rw [here] at there
  cases there
  refine ⟨?_, fun _ => after⟩
  rintro ⟨entries, leaf, _⟩
  obtain ⟨first, others, internal⟩ := before
  rw [leaf] at internal
  cases internal

end Kinds

/-- The page of a leaf after the insert of an entry; `all` are its entries with the new one, and
`new` the page of the right half, if there is a frame for it. -/
def leafAfterInsert (fmt : KeyFormat κ) (all : List (LeafEntry κ)) (key : κ)
    (rightLink : Option Nat) (highKey : Option κ) (new : Option Nat) : TreeNode κ :=
  match (rewritten fmt (.leaf all) rightLink highKey).2, new with
  | .ok false, some _ =>
    (rewritten fmt (halves key (.leaf all)).1 new (some (halves key (.leaf all)).2.2)).1
  | _, _ => (rewritten fmt (.leaf all) rightLink highKey).1

theorem rewriteOrSplit_files {fmt : KeyFormat κ} {what : String} {file : IndexFile κ} {p : Nat}
    {node : TreeNode κ} {key : κ} {content : TreeContent κ}
    (once : Replaces file p (rewritten fmt content node.rightLink node.highKey).1)
    (two : (rewritten fmt content node.rightLink node.highKey).2 = .ok false →
      Replaces file p (rewritten fmt (halves key content).1 (some file.numPages)
        (some (halves key content).2.2)).1) :
    Task.Keeps (filing κ) (rewriteOrSplit fmt what p node key content) file
      fun _ file' => Kept file file' := by
  have keptOnce := (Kept.refl file).write once
  rw [rewriteOrSplit]
  simp only [keeps_bind_task, files_rewrite]
  cases result : (rewritten fmt content node.rightLink node.highKey).2 with
  | error message => exact keptOnce
  | ok all =>
    cases all with
    | true => simpa using keptOnce
    | false =>
      have split := two result
      have keptLeft := keptOnce.allocate.write split
      cases parts : halves key content with
      | mk left rest =>
        obtain ⟨right, separator⟩ := rest
        rw [parts] at keptLeft
        have keptRight (n : TreeNode κ) : Kept file (IndexFile.write _ file.numPages n) :=
          keptLeft.write_new (Nat.le_refl _)
        simp only [andThen_ok, Bool.false_eq_true, if_false, keeps_bind_task, files_newPage,
          files_wUnlatch, files_unpinPage, keeps_throwing, files_wLatch, files_rewrite]
        refine ⟨keptOnce, ?_⟩
        rw [write_numPages]
        cases (rewritten fmt left (some file.numPages) (some separator)).2 with
        | error message => exact keptLeft
        | ok okLeft =>
          simp only [andThen_ok, keeps_bind_task, files_rewrite]
          cases (rewritten fmt right node.rightLink node.highKey).2 with
          | error message => exact keptRight _
          | ok okRight =>
            simp only [andThen_ok, keeps_bind_task, files_logPageChange, files_wUnlatch,
              files_unpinPage]
            split
            · exact keptRight _
            · exact keptRight _

section Insert

variable {fmt : KeyFormat κ} (sorts : Sorting fmt) {file : IndexFile κ}

variable {fuel p : Nat} {key : κ} {rid : RID}

theorem moveRight_files {failure : String} (inside : p < file.numPages) :
    Task.Keeps (filing κ) (moveRight fmt failure key fuel p) file
      fun result file' => file' = file ∧ ∀ p', result = .ok p' → p' < file.numPages := by
  induction fuel generalizing p with
  | zero => exact files_loop
  | succ fuel ih =>
    rw [moveRight, keeps_bind_task]
    refine files_readNode ?_ ?_
    · intro node here
      rw [andThen_ok]
      cases rightOf fmt node key with
      | none =>
        refine ⟨rfl, ?_⟩
        intro p' same
        cases same
        exact inside
      | some right =>
        simp only [keeps_bind_task, files_wUnlatch, files_unpinPage, files_fetchPage, andThen_ok,
          Bool.false_eq_true, if_false, if_true, keeps_throwing, files_wLatch]
        refine ⟨fun small => ih small, trivial, ?_⟩
        intro p' same
        cases same
    · intro what
      refine ⟨rfl, ?_⟩
      intro p' same
      cases same

def LeavesSurvive (key : κ) (rid : RID) (file : IndexFile κ) : Prop :=
  ∀ p node entries, file.pages p = some node → node.content = .leaf entries → entries ≠ [] →
    ∀ new, Full (leafAfterInsert fmt (sorts.leaf (sorts.leaf entries ++ [⟨key, rid⟩])) key
      node.rightLink node.highKey new)

section

variable (survive : LeavesSurvive sorts key rid file)

include survive

theorem insertIntoLeaf_files {node : TreeNode κ} {entries : List (LeafEntry κ)}
    (here : file.pages p = some node)
    (leaf : node.content = .leaf entries) :
    Task.Keeps (filing κ) (rewriteOrSplit fmt "leaf" p node key
        (.leaf (sorts.leaf (sorts.leaf entries ++ [⟨key, rid⟩])))) file
      fun _ file' => Kept file file' := by
  have notInner {n : TreeNode κ} : Inner node → Inner n := by
    rintro ⟨first, others, internal⟩
    rw [leaf] at internal
    cases internal
  have full (new : Option Nat) : Full node → Full (leafAfterInsert fmt
      (sorts.leaf (sorts.leaf entries ++ [⟨key, rid⟩])) key node.rightLink node.highKey new) := by
    rintro ⟨entries', leaf', nonempty⟩
    rw [leaf] at leaf'
    cases leaf'
    exact survive p node entries here leaf nonempty new
  refine rewriteOrSplit_files ?_ ?_
  · intro old there
    rw [here] at there
    cases there
    have after := full none
    rw [leafAfterInsert] at after
    · exact ⟨after, notInner⟩
    · intro _ _ isNew
      cases isNew
  · intro split old there
    rw [here] at there
    cases there
    have after := full (some file.numPages)
    simp only [leafAfterInsert, split] at after
    exact ⟨after, notInner⟩

theorem insertRecursive_files :
    Task.Keeps (filing κ) (insertRecursive sorts key rid fuel p) file
      fun _ file' => Kept file file' := by
  induction fuel generalizing p with
  | zero => exact files_loop
  | succ fuel ih =>
    rw [insertRecursive]
    simp only [keeps_bind_task, files_fetchPage, andThen_ok, Bool.false_eq_true, if_false, if_true,
      keeps_throwing, files_wLatch]
    refine ⟨fun inside => ?_, Kept.refl file⟩
    refine (moveRight_files inside).weaken ?_
    rintro result file' ⟨rfl, inside'⟩
    cases result with
    | error what => exact Kept.refl file'
    | ok p' =>
      rw [andThen_ok, keeps_bind_task]
      refine files_readNode ?_ fun what => Kept.refl file'
      intro node here
      rw [andThen_ok]
      cases kind : node.content with
      | leaf entries => exact insertIntoLeaf_files sorts survive here kind
      | internal first entries =>
        have before : Inner node := ⟨first, entries, kind⟩
        simp only [readEntries, keeps_bind_task, files_wUnlatch, andThen_ok]
        refine ih.weaken ?_
        intro split file'' kept
        cases split with
        | error what => exact kept
        | ok split =>
          simp only [andThen_ok, keeps_bind_task, files_wLatch]
          cases split with
          | none => simpa using kept
          | some e =>
            obtain ⟨separator, right⟩ := e
            obtain ⟨node', there, _, inner⟩ := kept.pages p' node (inside' p' rfl) here
            have replaces {n : TreeNode κ} (after : Inner n) : Replaces file'' p' n :=
              Replaces.inner there (inner before) after
            refine Task.Keeps.weaken (rewriteOrSplit_files ?_ ?_)
              fun _ _ last => kept.trans last
            · exact replaces (inner_rewritten _ _ _ _ _)
            · intro _
              exact replaces (inner_rewritten _ _ _ _ _)

theorem insertEntry_files :
    Task.Keeps (filing κ) (insertEntry sorts key rid fuel) file
      fun _ file' => Kept file file' := by
  rw [insertEntry, readMetaPage]
  simp only [keeps_bind_task, files_fetchPage, andThen_ok, Bool.false_eq_true, if_false, if_true,
    keeps_throwing, files_rLatch, files_readMeta, files_rUnlatch, files_unpinPage, keeps_pure,
    andThen_error]
  refine ⟨fun _ => ?_, Kept.refl file⟩
  refine (insertRecursive_files sorts survive).weaken ?_
  intro split file' kept
  cases split with
  | error what => exact kept
  | ok split =>
    cases split with
    | none => exact kept
    | some e =>
      obtain ⟨separator, right⟩ := e
      simp only [andThen_ok, keeps_bind_task, files_newPage, keeps_throwing, files_wLatch,
        files_rewrite]
      refine ⟨kept, ?_⟩
      have written (n : TreeNode κ) : Kept file (IndexFile.write _ _ n) :=
        kept.allocate.write_new kept.grown
      cases (rewritten fmt (.internal file.rootPageNo [(separator, right)]) none none).2 with
      | error what => exact written _
      | ok ok =>
        simp only [andThen_ok, keeps_bind_task, files_logPageChange, files_wUnlatch,
          files_unpinPage]
        cases ok with
        | false => exact written _
        | true =>
          simp only [if_true, writeMetaPage, keeps_bind_task, files_fetchPage, andThen_ok,
            Bool.false_eq_true, if_false, files_wLatch, files_writeMeta, files_logPageChange,
            files_wUnlatch, files_unpinPage, keeps_throwing]
          exact ⟨fun _ => (written _).reroot _ _, written _⟩

end

end Insert

end GraniteDb.Access.FilledLeaves
