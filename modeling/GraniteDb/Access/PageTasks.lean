/- What the operations of a tree ask of the buffer pool and the page latches. -/

import GraniteDb.Access.BTreePage
import GraniteDb.Lib.Task

namespace GraniteDb.Access.PageTasks

open Lib.Task Access.BTreePage
open Lib.BlinkTree (Store)

variable {κ : Type}

/-- What an operation on the file of an index does: calls of the buffer pool, latches, reads and
writes of the bytes of a page, and log records of a page's change. -/
inductive Request (κ : Type)
  | fetchPage (p : Nat)
  | newPage
  | unpinPage (p : Nat) (isDirty : Bool)
  | rLatch (p : Nat)
  | rUnlatch (p : Nat)
  | wLatch (p : Nat)
  | wUnlatch (p : Nat)
  | readNode (p : Nat)
  | writeNode (p : Nat) (node : TreeNode κ)
  | readMeta
  | writeMeta (rootPageNo treeHeight : Nat)
  | logPageChange (p : Nat)
  | nullPage
  | loop

/-- The replies. A fetch that yields no frame is false, and page 0 is no node. The dereference of a
null page and a loop that goes on for ever have no reply. -/
abbrev Reply : Request κ → Type
  | .fetchPage _ => Bool
  | .newPage => Option Nat
  | .readNode _ => Option (TreeNode κ)
  | .readMeta => Nat × Nat
  | .nullPage => Empty
  | .loop => Empty
  | _ => Unit

abbrev TreeTask (κ : Type) (α : Type) := Task (@Reply κ) α

/-- The file of an index: the fields of its meta page that change, and its other pages. -/
structure IndexFile (κ : Type) where
  pages : Store κ (LeafEntry κ)
  numPages : Nat
  rootPageNo : Nat
  treeHeight : Nat

/-- The file `InitializeIfNeeded` makes: the meta page and a leaf as the root. -/
def IndexFile.new (κ : Type) : IndexFile κ where
  pages := Function.update (fun _ => none) 1 (some ⟨.leaf [], false, none, none, none⟩)
  numPages := 2
  rootPageNo := 1
  treeHeight := 1

def IndexFile.write (file : IndexFile κ) (p : Nat) (node : TreeNode κ) : IndexFile κ :=
  { file with pages := Function.update file.pages p (some node) }

/-- `AllocatePage` of a file of which no page is given back. -/
def IndexFile.allocate (file : IndexFile κ) : IndexFile κ :=
  { file with
    pages := Function.update file.pages file.numPages none
    numPages := file.numPages + 1 }

section Files

variable (file : IndexFile κ) (p : Nat) (node : TreeNode κ)

@[simp] theorem write_pages_self : (file.write p node).pages p = some node :=
  Function.update_self _ _ _

@[simp] theorem write_pages_other {q : Nat} (other : q ≠ p) :
    (file.write p node).pages q = file.pages q := Function.update_of_ne other _ _

@[simp] theorem write_numPages : (file.write p node).numPages = file.numPages := rfl

@[simp] theorem write_rootPageNo : (file.write p node).rootPageNo = file.rootPageNo := rfl

@[simp] theorem write_treeHeight : (file.write p node).treeHeight = file.treeHeight := rfl

@[simp] theorem allocate_pages_self : file.allocate.pages file.numPages = none :=
  Function.update_self _ _ _

@[simp] theorem allocate_pages_other {q : Nat} (other : q ≠ file.numPages) :
    file.allocate.pages q = file.pages q := Function.update_of_ne other _ _

@[simp] theorem allocate_numPages : file.allocate.numPages = file.numPages + 1 := rfl

@[simp] theorem allocate_rootPageNo : file.allocate.rootPageNo = file.rootPageNo := rfl

@[simp] theorem allocate_treeHeight : file.allocate.treeHeight = file.treeHeight := rfl

end Files

def answers : IndexFile κ → (r : Request κ) → Reply r → IndexFile κ → Prop
  | file, .fetchPage p, fetched, file' => (fetched = true → p < file.numPages) ∧ file' = file
  | file, .newPage, none, file' => file' = file
  | file, .newPage, some p, file' => p = file.numPages ∧ file' = file.allocate
  | file, .readNode p, node, file' => node = file.pages p ∧ file' = file
  | file, .writeNode p node, _, file' => file' = file.write p node
  | file, .readMeta, root, file' => root = (file.rootPageNo, file.treeHeight) ∧ file' = file
  | file, .writeMeta rootPageNo treeHeight, _, file' =>
    file' = { file with rootPageNo := rootPageNo, treeHeight := treeHeight }
  | _, .nullPage, _, _ => False
  | _, .loop, _, _ => False
  | file, .unpinPage _ _, _, file' => file' = file
  | file, .rLatch _, _, file' => file' = file
  | file, .rUnlatch _, _, file' => file' = file
  | file, .wLatch _, _, file' => file' = file
  | file, .wUnlatch _, _, file' => file' = file
  | file, .logPageChange _, _, file' => file' = file

def IndexFile.answer (file : IndexFile κ) : (r : Request κ) → Option (Reply r × IndexFile κ)
  | .fetchPage p => some (p < file.numPages, file)
  | .newPage => some (some file.numPages, file.allocate)
  | .readNode p => some (file.pages p, file)
  | .writeNode p node => some ((), file.write p node)
  | .readMeta => some ((file.rootPageNo, file.treeHeight), file)
  | .writeMeta rootPageNo treeHeight =>
    some ((), { file with rootPageNo := rootPageNo, treeHeight := treeHeight })
  | .nullPage => none
  | .loop => none
  | .unpinPage _ _ => some ((), file)
  | .rLatch _ => some ((), file)
  | .rUnlatch _ => some ((), file)
  | .wLatch _ => some ((), file)
  | .wUnlatch _ => some ((), file)
  | .logPageChange _ => some ((), file)

theorem answers_answer {file file' : IndexFile κ} {r : Request κ} {b : Reply r}
    (given : file.answer r = some (b, file')) : answers file r b file' := by
  cases r <;> cases given <;> simp [answers]

def fetchPage (p : Nat) : TreeTask κ Bool := ask (Request.fetchPage p)

def newPage : TreeTask κ (Option Nat) := ask Request.newPage

def unpinPage (p : Nat) (isDirty : Bool) : TreeTask κ Unit :=
  ask (Request.unpinPage p isDirty)

def rLatch (p : Nat) : TreeTask κ Unit := ask (Request.rLatch p)

def rUnlatch (p : Nat) : TreeTask κ Unit := ask (Request.rUnlatch p)

def wLatch (p : Nat) : TreeTask κ Unit := ask (Request.wLatch p)

def wUnlatch (p : Nat) : TreeTask κ Unit := ask (Request.wUnlatch p)

def writeNode (p : Nat) (node : TreeNode κ) : TreeTask κ Unit :=
  ask (Request.writeNode p node)

def readMeta : TreeTask κ (Nat × Nat) := ask Request.readMeta

def writeMeta (rootPageNo treeHeight : Nat) : TreeTask κ Unit :=
  ask (Request.writeMeta rootPageNo treeHeight)

def logPageChange (p : Nat) : TreeTask κ Unit := ask (Request.logPageChange p)

def loop {α : Type} : TreeTask κ α := .request .loop fun never => nomatch never

def readNode (p : Nat) : TreeTask κ (TreeNode κ) := do
  match ← ask (Request.readNode p) with
  | some node => pure node
  | none => throwing "FindChildForKey called on non-internal"

/-- `ReadMetaPage`: the root and the height. -/
def readMetaPage (tree : String) : TreeTask κ (Nat × Nat) := do
  if ← fetchPage 0 then
    rLatch 0
    let root ← readMeta
    rUnlatch 0
    unpinPage 0 false
    pure root
  else throwing ("Failed to fetch " ++ tree ++ " metapage")

def writeMetaPage (tree : String) (rootPageNo treeHeight : Nat) : TreeTask κ Unit := do
  if ← fetchPage 0 then
    wLatch 0
    writeMeta rootPageNo treeHeight
    logPageChange 0
    wUnlatch 0
    unpinPage 0 true
  else throwing ("Failed to fetch " ++ tree ++ " metapage for write")

/-- `RewriteLeaf` or `RewriteInternal`; a page that is too small for its entries has lost some. -/
def rewrite (fmt : KeyFormat κ) (p : Nat) (content : TreeContent κ) (rightLink : Option Nat)
    (highKey : Option κ) : TreeTask κ Bool := do
  writeNode p (rewritten fmt content rightLink highKey).1
  Task.ofExcept (rewritten fmt content rightLink highKey).2

/-- `NormalizeReadCursor`: the page that is latched in the end. -/
def normalizeReadCursor (tree : String) : Nat → Nat → TreeTask κ Nat
  | 0, _ => loop
  | fuel + 1, p => do
    let node ← readNode p
    if node.retired then
      match redirectOf node with
      | none => do
        rUnlatch p
        unpinPage p false
        throwing ("Encountered retired " ++ tree ++
          " page without redirect target during read descent")
      | some next => do
        if ← fetchPage next then
          rLatch next
          rUnlatch p
          unpinPage p false
          normalizeReadCursor tree fuel next
        else
          rUnlatch p
          unpinPage p false
          throwing ("Failed to follow retired " ++ tree ++ " redirect during read descent")
    else pure p

/-- The loop of `GetSubtreeFirstKey`. -/
def firstKeyFrom {fmt : KeyFormat κ} (sorts : Sorting fmt) (tree : String) :
    Nat → Nat → TreeTask κ (Option κ)
  | 0, _ => loop
  | fuel + 1, p => do
    let node ← readNode p
    match node.content with
    | .leaf entries => do
      rUnlatch p
      unpinPage p false
      pure ((sorts.leaf entries).head?.map LeafEntry.key)
    | .internal child _ => do
      if ← fetchPage child then
        rLatch child
        let child ← normalizeReadCursor tree fuel child
        rUnlatch p
        unpinPage p false
        firstKeyFrom sorts tree fuel child
      else
        rUnlatch p
        unpinPage p false
        throwing "Failed to fetch child page while reading subtree first key"

def getSubtreeFirstKey {fmt : KeyFormat κ} (sorts : Sorting fmt) (tree : String) (fuel p : Nat) :
    TreeTask κ (Option κ) := do
  if ← fetchPage p then
    rLatch p
    let p ← normalizeReadCursor tree fuel p
    firstKeyFrom sorts tree fuel p
  else throwing "Failed to fetch page while reading subtree first key"

section Executions

variable {file : IndexFile κ} {p : Nat}

@[simp] theorem ends_fetchPage {q : Bool → IndexFile κ → Prop} :
    Task.Ends IndexFile.answer (fetchPage p) file q ↔ q (p < file.numPages) file := by
  rw [fetchPage, ends_ask]
  simp [IndexFile.answer]

@[simp] theorem ends_newPage {q : Option Nat → IndexFile κ → Prop} :
    Task.Ends IndexFile.answer newPage file q ↔ q (some file.numPages) file.allocate := by
  rw [newPage, ends_ask]
  simp [IndexFile.answer]

variable {q : Unit → IndexFile κ → Prop} {tree : String}

@[simp] theorem ends_unpinPage {dirty : Bool} :
    Task.Ends IndexFile.answer (unpinPage p dirty) file q ↔ q () file := by
  rw [unpinPage, ends_ask]
  simp [IndexFile.answer, Reply, Unique.exists_iff]

@[simp] theorem ends_rLatch : Task.Ends IndexFile.answer (rLatch p) file q ↔ q () file := by
  rw [rLatch, ends_ask]
  simp [IndexFile.answer, Reply, Unique.exists_iff]

@[simp] theorem ends_rUnlatch : Task.Ends IndexFile.answer (rUnlatch p) file q ↔ q () file := by
  rw [rUnlatch, ends_ask]
  simp [IndexFile.answer, Reply, Unique.exists_iff]

@[simp] theorem ends_wLatch : Task.Ends IndexFile.answer (wLatch p) file q ↔ q () file := by
  rw [wLatch, ends_ask]
  simp [IndexFile.answer, Reply, Unique.exists_iff]

@[simp] theorem ends_wUnlatch : Task.Ends IndexFile.answer (wUnlatch p) file q ↔ q () file := by
  rw [wUnlatch, ends_ask]
  simp [IndexFile.answer, Reply, Unique.exists_iff]

@[simp] theorem ends_logPageChange :
    Task.Ends IndexFile.answer (logPageChange p) file q ↔ q () file := by
  rw [logPageChange, ends_ask]
  simp [IndexFile.answer, Reply, Unique.exists_iff]

@[simp] theorem ends_writeNode {node : TreeNode κ} :
    Task.Ends IndexFile.answer (writeNode p node) file q ↔ q () (file.write p node) := by
  rw [writeNode, ends_ask]
  simp [IndexFile.answer, Reply, Unique.exists_iff]

@[simp] theorem ends_readMeta {q : Nat × Nat → IndexFile κ → Prop} :
    Task.Ends IndexFile.answer readMeta file q ↔ q (file.rootPageNo, file.treeHeight) file := by
  rw [readMeta, ends_ask]
  simp [IndexFile.answer]

@[simp] theorem ends_writeMeta {rootPageNo treeHeight : Nat} :
    Task.Ends IndexFile.answer (writeMeta rootPageNo treeHeight) file q ↔
      q () { file with rootPageNo := rootPageNo, treeHeight := treeHeight } := by
  rw [writeMeta, ends_ask]
  simp [IndexFile.answer, Reply, Unique.exists_iff]

@[simp] theorem ends_readNode {q : TreeNode κ → IndexFile κ → Prop} :
    Task.Ends IndexFile.answer (readNode p) file q ↔
      ∃ node, file.pages p = some node ∧ q node file := by
  rw [readNode, ends_bind, ends_ask]
  simp only [IndexFile.answer, Option.some.injEq, Prod.mk.injEq]
  cases file.pages p with
  | none => simp
  | some node => simp

@[simp] theorem ends_rewrite {fmt : KeyFormat κ} {content : TreeContent κ} {link : Option Nat}
    {highKey : Option κ} {q : Bool → IndexFile κ → Prop} :
    Task.Ends IndexFile.answer (rewrite fmt p content link highKey) file q ↔
      ∃ b, (rewritten fmt content link highKey).2 = .ok b ∧
        q b (file.write p (rewritten fmt content link highKey).1) := by
  rw [rewrite, ends_bind, ends_writeNode, ends_ofExcept]

theorem readMetaPage_ends {q : Nat × Nat → IndexFile κ → Prop} (metaPage : 0 < file.numPages) :
    Task.Ends IndexFile.answer (readMetaPage tree) file q ↔
      q (file.rootPageNo, file.treeHeight) file := by
  simp [readMetaPage, metaPage]

theorem writeMetaPage_ends {rootPageNo treeHeight : Nat} (metaPage : 0 < file.numPages) :
    Task.Ends IndexFile.answer (writeMetaPage tree rootPageNo treeHeight) file q ↔
      q () { file with rootPageNo := rootPageNo, treeHeight := treeHeight } := by
  simp [writeMetaPage, metaPage]

theorem normalizeReadCursor_ends {fuel : Nat} {node : TreeNode κ} {q : Nat → IndexFile κ → Prop}
    (here : file.pages p = some node) (live : node.retired = false) :
    Task.Ends IndexFile.answer (normalizeReadCursor tree (fuel + 1) p) file q ↔ q p file := by
  simp [normalizeReadCursor, here, live]

end Executions

end GraniteDb.Access.PageTasks
