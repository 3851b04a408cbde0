/- Insertion into and deletion from the tree of a composite index. -/

import GraniteDb.Access.PageTasks

namespace GraniteDb.Access.GenericBTree

open Lib.Task Access.BTreePage Access.PageTasks
open Common.Types (RID)

variable {κ : Type} {fmt : KeyFormat κ} (sorts : Sorting fmt)

def treeName : String := "generic B+ tree"

/-- The loop that moves right at the start of `InsertRecursive` and of `DeleteRecursive`. -/
def moveRight (fmt : KeyFormat κ) (failure : String) (key : κ) : Nat → Nat → TreeTask κ Nat
  | 0, _ => loop
  | fuel + 1, p => do
    let node ← readNode p
    match rightOf fmt node key with
    | none => pure p
    | some right => do
      wUnlatch p
      unpinPage p false
      if ← fetchPage right then
        wLatch right
        moveRight fmt failure key fuel right
      else throwing failure

/-- A page is rewritten with one entry more, in place or as two pages. The key and the page to the
right of a split are the result. -/
def rewriteOrSplit (fmt : KeyFormat κ) (what : String) (p : Nat) (node : TreeNode κ) (key : κ)
    (content : TreeContent κ) : TreeTask κ (Option (κ × Nat)) := do
  if ← rewrite fmt p content node.rightLink node.highKey then
    logPageChange p
    wUnlatch p
    unpinPage p true
    pure none
  else
    match ← newPage with
    | none => do
      wUnlatch p
      unpinPage p false
      throwing ("Buffer pool full during " ++ what ++ " split")
    | some new => do
      wLatch new
      let (left, right, separator) := halves key content
      let okLeft ← rewrite fmt p left (some new) (some separator)
      let okRight ← rewrite fmt new right node.rightLink node.highKey
      logPageChange p
      logPageChange new
      wUnlatch new
      wUnlatch p
      unpinPage new okRight
      unpinPage p okLeft
      if okLeft && okRight then pure (some (separator, new))
      else throwing ((if what = "leaf" then "Leaf" else "Internal") ++ " split rewrite failed")

def insertRecursive (key : κ) (rid : RID) : Nat → Nat → TreeTask κ (Option (κ × Nat))
  | 0, _ => loop
  | fuel + 1, pageNo => do
    if ← fetchPage pageNo then
      wLatch pageNo
      let p ← moveRight fmt "Failed to move right during insert" key fuel pageNo
      let node ← readNode p
      match readEntries sorts node.content with
      | .leaf entries =>
        rewriteOrSplit fmt "leaf" p node key (.leaf (sorts.leaf (entries ++ [⟨key, rid⟩])))
      | .internal leftmostChild entries => do
        wUnlatch p
        let split ← insertRecursive key rid fuel (childForKey fmt key leftmostChild entries)
        wLatch p
        match split with
        | none => do
          wUnlatch p
          unpinPage p false
          pure none
        | some (separator, right) =>
          rewriteOrSplit fmt "internal" p node separator
            (.internal leftmostChild (sorts.internal (entries ++ [(separator, right)])))
    else throwing ("Failed to fetch " ++ treeName ++ " page during insert")

def insertEntry (key : κ) (rid : RID) (fuel : Nat) : TreeTask κ Unit := do
  let root ← readMetaPage treeName
  match ← insertRecursive sorts key rid fuel root.1 with
  | none => pure ()
  | some (separator, right) =>
    match ← newPage with
    | none => throwing "Buffer pool full during root split"
    | some new => do
      wLatch new
      let ok ← rewrite fmt new (.internal root.1 [(separator, right)]) none none
      logPageChange new
      wUnlatch new
      unpinPage new ok
      if ok then writeMetaPage treeName new (root.2 + 1)
      else throwing "Failed to build new root during root split"

/-- `DeleteResult`; the key is the new first key of the subtree where it has changed. -/
structure DeleteResult (κ : Type) where
  deleted : Bool
  underflow : Bool
  newSubtreeFirstKey : Option κ

def pageName : TreeContent κ → String × String
  | .leaf _ => ("Leaf", "leaf")
  | .internal _ _ => ("Internal", "internal")

/-- `retire_leaf_page` or `retire_internal_page`. -/
def retirePage (fmt : KeyFormat κ) (p : Nat) (content : TreeContent κ) (redirect : Nat)
    (rightLink : Option Nat) (highKey : Option κ) : TreeTask κ Unit := do
  if ← rewrite fmt p (emptied redirect content) rightLink highKey then
    writeNode p (markRetired redirect ⟨emptied redirect content, false, rightLink, none, highKey⟩)
    logPageChange p
  else
    throwing ("Failed to rewrite retired " ++ treeName ++ " " ++ (pageName content).2 ++ " page")

/-- `DeleteRecursive` at a leaf. -/
def deleteFromLeaf (fmt : KeyFormat κ) (key : κ) (rid : RID) (isRoot : Bool) (p : Nat)
    (node : TreeNode κ) (entries : List (LeafEntry κ)) : TreeTask κ (DeleteResult κ) := do
  match entries.findIdx? fun e => fmt.compare e.key key = .eq && e.rid = rid with
  | none => do
    wUnlatch p
    unpinPage p false
    pure ⟨false, false, none⟩
  | some i => do
    let rest := entries.eraseIdx i
    if ← rewrite fmt p (.leaf rest) node.rightLink node.highKey then
      logPageChange p
      let first := rest.head?.bind fun front =>
        if (entries.head?.map fun old => fmt.compare old.key front.key) = some .eq then none
        else some front.key
      let underflow ← if isRoot then pure false else Task.ofExcept (isLeafUnderfull fmt rest)
      wUnlatch p
      unpinPage p true
      pure ⟨true, underflow, first⟩
    else
      wUnlatch p
      unpinPage p false
      throwing "Failed to rewrite leaf during delete"

/-- The entries of the parent after its underfull child was dealt with. -/
abbrev Fixed (κ : Type) := Option (List (InternalEntry κ))

def borrowLeft (child : Nat) (node : TreeNode κ) (own : TreeContent κ) (childPos : Nat)
    (entries : List (InternalEntry κ)) (sibling : κ × Nat) : TreeTask κ (Fixed κ) := do
  let left := sibling.2
  if ← fetchPage left then
    wLatch left
    let leftNode ← readNode left
    let leftOwn ← Task.ofExcept (readSibling sorts own leftNode.content)
    match borrowFromLeft sibling.1 leftOwn own with
    | none => do
      wUnlatch left
      unpinPage left false
      pure none
    | some (leftAfter, childAfter, separator) => do
      if ← Task.ofExcept (isUnderfull fmt leftAfter) then
        wUnlatch left
        unpinPage left false
        pure none
      else
        let okLeft ← rewrite fmt left leftAfter leftNode.rightLink (some separator)
        let okChild ← rewrite fmt child childAfter node.rightLink node.highKey
        if okLeft && okChild then
          logPageChange left
          logPageChange child
          wUnlatch left
          unpinPage left true
          pure (some (entries.modify (childPos - 1) fun e => (separator, e.2)))
        else throwing ((pageName own).1 ++ " borrow-from-left rewrite failed")
  else throwing ("Failed to fetch left " ++ (pageName own).2 ++ " sibling")

def borrowRight (child : Nat) (node : TreeNode κ) (own : TreeContent κ) (childPos : Nat)
    (entries : List (InternalEntry κ)) (sibling : κ × Nat) : TreeTask κ (Fixed κ) := do
  let right := sibling.2
  if ← fetchPage right then
    wLatch right
    let rightNode ← readNode right
    let rightOwn ← Task.ofExcept (readSibling sorts own rightNode.content)
    match borrowFromRight sibling.1 own rightOwn with
    | none => do
      wUnlatch right
      unpinPage right false
      pure none
    | some (childAfter, rightAfter, separator) => do
      if ← Task.ofExcept (isUnderfull fmt rightAfter) then
        wUnlatch right
        unpinPage right false
        pure none
      else
        let okChild ← rewrite fmt child childAfter node.rightLink (some separator)
        let okRight ← rewrite fmt right rightAfter rightNode.rightLink rightNode.highKey
        if okChild && okRight then
          logPageChange child
          logPageChange right
          wUnlatch right
          unpinPage right true
          pure (some (entries.modify childPos fun e => (separator, e.2)))
        else throwing ((pageName own).1 ++ " borrow-from-right rewrite failed")
  else throwing ("Failed to fetch right " ++ (pageName own).2 ++ " sibling")

def doesNotFit : TreeContent κ → String
  | .leaf _ => "Merged leaf does not fit in one page"
  | .internal _ _ => "Merged internal node does not fit in one page"

def mergeLeft (child : Nat) (node : TreeNode κ) (own : TreeContent κ) (childPos : Nat)
    (entries : List (InternalEntry κ)) (sibling : κ × Nat) : TreeTask κ (Fixed κ) := do
  let left := sibling.2
  if ← fetchPage left then
    wLatch left
    let leftNode ← readNode left
    let leftOwn ← Task.ofExcept (readSibling sorts own leftNode.content)
    let whole := merged sibling.1 leftOwn own
    if ← Task.ofExcept (canFit fmt whole) then
      if ← rewrite fmt left whole node.rightLink node.highKey then
        logPageChange left
        retirePage fmt child own left node.rightLink node.highKey
        wUnlatch left
        unpinPage left true
        pure (some (entries.eraseIdx (childPos - 1)))
      else throwing ((pageName own).1 ++ " merge-into-left rewrite failed")
    else throwing (doesNotFit own)
  else throwing ("Failed to fetch left " ++ (pageName own).2 ++ " sibling for merge")

/-- The right sibling is merged into the child and retired. A retired leaf leads to the parent, a
retired internal page to the child. -/
def mergeRight (parent child : Nat) (own : TreeContent κ) (childPos : Nat)
    (entries : List (InternalEntry κ)) (sibling : κ × Nat) : TreeTask κ (Fixed κ) := do
  let right := sibling.2
  if ← fetchPage right then
    wLatch right
    let rightNode ← readNode right
    let rightOwn ← Task.ofExcept (readSibling sorts own rightNode.content)
    let whole := merged sibling.1 own rightOwn
    if ← Task.ofExcept (canFit fmt whole) then
      if ← rewrite fmt child whole rightNode.rightLink rightNode.highKey then
        logPageChange child
        let redirect := match own with
          | .leaf _ => parent
          | .internal _ _ => child
        retirePage fmt right rightOwn redirect rightNode.rightLink rightNode.highKey
        wUnlatch right
        unpinPage right true
        pure (some (entries.eraseIdx childPos))
      else throwing ((pageName own).1 ++ " merge-with-right rewrite failed")
    else throwing (doesNotFit own)
  else throwing ("Failed to fetch right " ++ (pageName own).2 ++ " sibling for merge")

/-- Try what is next, unless the child was dealt with or there is no such sibling. -/
def orElse (fixed : Fixed κ) (sibling : Option (κ × Nat))
    (next : κ × Nat → TreeTask κ (Fixed κ)) : TreeTask κ (Fixed κ) :=
  match fixed, sibling with
  | some entries, _ => pure (some entries)
  | none, none => pure none
  | none, some sibling => next sibling

/-- `DeleteRecursive` where the child has underflown: the entries of the parent after it. -/
def fixUnderflow (parent child childPos leftmostChild : Nat) (entries : List (InternalEntry κ)) :
    TreeTask κ (List (InternalEntry κ)) := do
  if ← fetchPage child then
    wLatch child
    let node ← readNode child
    let own := readEntries sorts node.content
    let left := leftSibling entries leftmostChild childPos
    let right := rightSibling entries childPos
    let fixed ← orElse none left (borrowLeft sorts child node own childPos entries)
    let fixed ← orElse fixed right (borrowRight sorts child node own childPos entries)
    let merging := fixed.isNone
    let fixed ← orElse fixed left (mergeLeft sorts child node own childPos entries)
    let retiredChild := merging && fixed.isSome
    let fixed ← orElse fixed right (mergeRight sorts parent child own childPos entries)
    match fixed with
    | none => throwing ("Failed to rebalance underflowed " ++ (match own with
        | .leaf _ => "leaf"
        | .internal _ _ => "internal node"))
    | some entries => do
      wUnlatch child
      unpinPage child retiredChild
      pure entries
  else
    wUnlatch parent
    unpinPage parent false
    throwing "Failed to fetch underflowed child page"

/-- The end of `DeleteRecursive` at an internal page. -/
def finishDelete (fuel : Nat) (isRoot : Bool) (oldFirstKey : Option κ) (changed : Bool) (p : Nat)
    (node : TreeNode κ) (leftmostChild : Nat) (entries : List (InternalEntry κ)) :
    TreeTask κ (DeleteResult κ) := do
  if isRoot && entries.isEmpty then
    retirePage fmt p (.internal leftmostChild entries) leftmostChild none none
    let root ← readMetaPage treeName
    if root.1 = p ∧ 1 < root.2 then writeMetaPage treeName leftmostChild (root.2 - 1)
    wUnlatch p
    unpinPage p true
    pure ⟨true, false, none⟩
  else if ← rewrite fmt p (.internal leftmostChild entries) node.rightLink node.highKey then
    if changed then logPageChange p
    let underflow ← if isRoot then pure false else Task.ofExcept (isInternalUnderfull fmt entries)
    let newFirstKey ← if isRoot then pure none else getSubtreeFirstKey sorts treeName fuel p
    wUnlatch p
    unpinPage p true
    let same : Bool := match oldFirstKey, newFirstKey with
      | some old, some new => decide (fmt.compare old new = .eq)
      | none, none => true
      | _, _ => false
    pure ⟨true, underflow, if same then none else newFirstKey⟩
  else
    wUnlatch p
    unpinPage p false
    throwing "Failed to rewrite internal page during delete"

/-- The key before a child becomes the first key of its subtree, where this has changed. -/
def withFirstKey (entries : List (InternalEntry κ)) (childPos : Nat) :
    Option κ → List (InternalEntry κ)
  | some first => entries.modify (childPos - 1) fun e => (first, e.2)
  | none => entries

/-- `DeleteRecursive` at an internal page from where it has returned from a child. -/
def afterChild (fuel : Nat) (isRoot : Bool) (oldFirstKey : Option κ) (child : Nat)
    (childResult : DeleteResult κ) (p : Nat) : TreeTask κ (DeleteResult κ) := do
  wLatch p
  let node ← readNode p
  match readEntries sorts node.content with
  | .leaf _ => throwing "ReadInternalEntries called on non-internal"
  | .internal leftmostChild entries =>
    if childResult.deleted then
      match findChildPosition entries leftmostChild child with
      | none => do
        wUnlatch p
        unpinPage p false
        throwing "Child disappeared from parent during delete"
      | some childPos => do
        let firstKey := if 0 < childPos then childResult.newSubtreeFirstKey else none
        let entries := withFirstKey entries childPos firstKey
        let entries ←
          if childResult.underflow then
            fixUnderflow sorts p child childPos leftmostChild entries
          else pure entries
        finishDelete sorts fuel isRoot oldFirstKey
          (firstKey.isSome || childResult.underflow) p node leftmostChild entries
    else
      wUnlatch p
      unpinPage p false
      pure ⟨false, false, none⟩

def deleteRecursive (key : κ) (rid : RID) : Nat → Nat → Bool → TreeTask κ (DeleteResult κ)
  | 0, _, _ => loop
  | fuel + 1, pageNo, isRoot => do
    if ← fetchPage pageNo then
      wLatch pageNo
      let p ← moveRight fmt "Failed to move right during delete" key fuel pageNo
      let node ← readNode p
      match readEntries sorts node.content with
      | .leaf entries => deleteFromLeaf fmt key rid isRoot p node entries
      | .internal leftmostChild entries => do
        let oldFirstKey ← if isRoot then pure none else getSubtreeFirstKey sorts treeName fuel p
        let child := childForKey fmt key leftmostChild entries
        if (findChildPosition entries leftmostChild child).isNone then
          wUnlatch p
          unpinPage p false
          throwing "Parent did not contain target child during delete"
        else
          wUnlatch p
          let childResult ← deleteRecursive key rid fuel child false
          afterChild sorts fuel isRoot oldFirstKey child childResult p
    else throwing ("Failed to fetch " ++ treeName ++ " page during delete")

def deleteEntry (key : κ) (rid : RID) (fuel : Nat) : TreeTask κ Bool := do
  let root ← readMetaPage treeName
  let result ← deleteRecursive sorts key rid fuel root.1 true
  pure result.deleted

end GraniteDb.Access.GenericBTree
