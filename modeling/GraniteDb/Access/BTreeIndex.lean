/- The tree of an index with one key column: inserts, deletes, searches and its iterator. -/

import GraniteDb.Access.PageTasks

namespace GraniteDb.Access.BTreeIndex

open Lib.Task Access.BTreePage Access.PageTasks
open Common.Types (RID)

variable {κ : Type} {fmt : KeyFormat κ} (sorts : Sorting fmt)

def treeName : String := "B+ tree"

def releaseWriteFrame (p : Nat) (isDirty : Bool) : TreeTask κ Unit := do
  wUnlatch p
  unpinPage p isDirty

/-- `ReleaseWritePath`; the page latched last stands first. -/
def releaseWritePath : List Nat → TreeTask κ Unit
  | [] => pure ()
  | p :: path => do
    releaseWriteFrame p false
    releaseWritePath path

def moveRight (fmt : KeyFormat κ) (what : String) (key : κ) (path : List Nat) :
    Nat → Nat → TreeTask κ Nat
  | 0, _ => loop
  | fuel + 1, p => do
    let node ← readNode p
    match rightOf fmt node key with
    | none => pure p
    | some right =>
      if ← fetchPage right then
        wLatch right
        releaseWriteFrame p false
        moveRight fmt what key path fuel right
      else
        releaseWritePath path
        releaseWriteFrame p false
        throwing ("Failed to move right during B+ tree " ++ what ++ " descent")

/-- The loop of `Insert` and of `Delete` down to a leaf: the pages above it that stay latched, and
the leaf. Where a child is safe, the pages above it are released. -/
def descend (what : String) (safe : TreeContent κ → Except String Bool) (key : κ) :
    Nat → List Nat → Nat → TreeTask κ (List Nat × Nat)
  | 0, _, _ => loop
  | fuel + 1, path, p => do
    let p ← moveRight fmt what key path fuel p
    let node ← readNode p
    match readEntries sorts node.content with
    | .leaf _ => pure (path, p)
    | .internal leftmostChild entries => do
      let child := childForKey fmt key leftmostChild entries
      if ← fetchPage child then
        wLatch child
        let child ← moveRight fmt what key path fuel child
        let childNode ← readNode child
        if ← Task.ofExcept (safe (readEntries sorts childNode.content)) then
          releaseWritePath path
          releaseWriteFrame p false
          descend what safe key fuel [] child
        else descend what safe key fuel (p :: path) child
      else
        releaseWritePath path
        releaseWriteFrame p false
        throwing ("Failed to fetch child page during B+ tree " ++ what ++ " descent")

/-- The start of both: the root, and the leaf under it with the pages that stay latched. -/
def descendFromRoot (what : String) (safe : TreeContent κ → Except String Bool) (key : κ)
    (fuel : Nat) : TreeTask κ (Nat × List Nat × Nat) := do
  let root ← readMetaPage treeName
  if ← fetchPage root.1 then
    wLatch root.1
    let found ← descend sorts what safe key fuel [] root.1
    pure (root.1, found)
  else throwing ("Failed to fetch B+ tree root page during " ++ what)

def pageKind : TreeContent κ → String
  | .leaf _ => "leaf"
  | .internal _ _ => "internal"

/-- `rewrite_leaf` or `rewrite_internal`, which release the path and this page where the page is too
small. -/
def rewritePage (fmt : KeyFormat κ) (during : String) (path : List Nat) (p : Nat)
    (content : TreeContent κ) (rightLink : Option Nat) (highKey : Option κ) :
    TreeTask κ Unit := do
  if ← rewrite fmt p content rightLink highKey then logPageChange p
  else
    releaseWritePath path
    releaseWriteFrame p false
    throwing ("Failed to rewrite B+ tree " ++ pageKind content ++ " page" ++ during)

def withLeafEntry (key : κ) (rid : RID) (entries : List (LeafEntry κ)) : TreeContent κ :=
  .leaf (sorts.leaf (entries ++ [⟨key, rid⟩]))

def withChild (separator : κ) (child leftmostChild : Nat) (entries : List (InternalEntry κ)) :
    TreeContent κ :=
  .internal leftmostChild (sorts.internal (entries ++ [(separator, child)]))

def childSafeForInsert (key : κ) (rid : RID) : TreeContent κ → Except String Bool
  | .leaf entries => canFit fmt (withLeafEntry sorts key rid entries)
  | .internal _ entries =>
    .ok (internalUsedBytes fmt entries + maxInternalInsertBytes fmt ≤ nodeCapacityBytes fmt)

/-- `Insert` at one page: with one entry more it is rewritten in place, or as two pages. The key and
the page to the right of a split are the result. -/
def rewriteOrSplit (fmt : KeyFormat κ) (path : List Nat) (p : Nat) (node : TreeNode κ) (key : κ)
    (content : TreeContent κ) : TreeTask κ (Option (κ × Nat)) := do
  if ← Task.ofExcept (canFit fmt content) then
    rewritePage fmt "" path p content node.rightLink node.highKey
    releaseWritePath path
    releaseWriteFrame p true
    pure none
  else
    match ← newPage with
    | none => do
      releaseWritePath path
      releaseWriteFrame p false
      throwing ("Buffer pool full during B+ tree " ++ pageKind content ++ " split")
    | some new => do
      wLatch new
      let (left, right, separator) := halves key content
      rewritePage fmt "" path p left (some new) (some separator)
      rewritePage fmt "" path new right node.rightLink node.highKey
      wUnlatch new
      unpinPage new true
      releaseWriteFrame p true
      pure (some (separator, new))

def growRoot (fmt : KeyFormat κ) (left : Nat) (split : κ × Nat) : TreeTask κ Unit := do
  match ← newPage with
  | none => throwing "Buffer pool full during B+ tree root split"
  | some new => do
    wLatch new
    if ← rewrite fmt new (.internal left [split]) none none then
      logPageChange new
      wUnlatch new
      unpinPage new true
      let root ← readMetaPage treeName
      writeMetaPage treeName new (root.2 + 1)
    else
      wUnlatch new
      unpinPage new false
      throwing "Failed to build new B+ tree root"

/-- The loop of `Insert` up from a page that was split. -/
def insertUp : List Nat → Nat → κ × Nat → TreeTask κ Unit
  | [], left, split => growRoot fmt left split
  | p :: path, _, split => do
    let node ← readNode p
    match readEntries sorts node.content with
    | .leaf _ => throwing "ReadInternalEntries called on non-internal"
    | .internal leftmostChild entries => do
      let content := withChild sorts split.1 split.2 leftmostChild entries
      match ← rewriteOrSplit fmt path p node split.1 content with
      | none => pure ()
      | some split => insertUp path p split

def insert (key : κ) (rid : RID) (fuel : Nat) : TreeTask κ Unit := do
  let (_, path, p) ← descendFromRoot sorts "insert" (childSafeForInsert sorts key rid) key fuel
  let node ← readNode p
  match readEntries sorts node.content with
  | .internal _ _ => throwing "ReadLeafEntries called on non-leaf"
  | .leaf entries => do
    match ← rewriteOrSplit fmt path p node key (withLeafEntry sorts key rid entries) with
    | none => pure ()
    | some split => insertUp sorts path p split

/-- The loop that moves right in `FindLeafPageNoEncoded`. -/
def readRight (fmt : KeyFormat κ) (key : κ) : Nat → Nat → TreeTask κ Nat
  | 0, _ => loop
  | fuel + 1, p => do
    let node ← readNode p
    match rightOf fmt node key with
    | none => pure p
    | some right =>
      if ← fetchPage right then
        rLatch right
        rUnlatch p
        unpinPage p false
        let right ← normalizeReadCursor treeName fuel right
        readRight fmt key fuel right
      else
        rUnlatch p
        unpinPage p false
        throwing "Failed to move right during descent"

/-- The loop of `FindLeafPageNoEncoded`. -/
def findLeafFrom (key : κ) : Nat → Nat → TreeTask κ Nat
  | 0, _ => loop
  | fuel + 1, p => do
    let p ← readRight fmt key fuel p
    let node ← readNode p
    match readEntries sorts node.content with
    | .leaf _ => do
      rUnlatch p
      unpinPage p false
      pure p
    | .internal leftmostChild entries => do
      let child := childForKey fmt key leftmostChild entries
      if ← fetchPage child then
        rLatch child
        let child ← normalizeReadCursor treeName fuel child
        rUnlatch p
        unpinPage p false
        findLeafFrom key fuel child
      else
        rUnlatch p
        unpinPage p false
        throwing "Failed to fetch child during descent"

/-- `FindLeafPageNoEncoded`. -/
def findLeafPageNo (key : κ) (fuel : Nat) : TreeTask κ Nat := do
  let root ← readMetaPage treeName
  if ← fetchPage root.1 then
    rLatch root.1
    let p ← normalizeReadCursor treeName fuel root.1
    findLeafFrom sorts key fuel p
  else throwing "Failed to fetch B+ tree root page during descent"

/-- The entries of one leaf with the key, and whether a larger key ends the search. -/
def matching (fmt : KeyFormat κ) (key : κ) : List (LeafEntry κ) → List RID × Bool
  | [] => ([], false)
  | e :: rest =>
    match fmt.compare e.key key with
    | .lt => matching fmt key rest
    | .eq => (matching fmt key rest).map (e.rid :: ·) id
    | .gt => ([], true)

/-- The loop of `Search` from a leaf. -/
def searchFrom (key : κ) : Nat → Nat → TreeTask κ (List RID)
  | 0, _ => loop
  | fuel + 1, p => do
    let node ← readNode p
    match readEntries sorts node.content with
    | .internal _ _ => do
      rUnlatch p
      unpinPage p false
      let leaf ← findLeafPageNo sorts key fuel
      if ← fetchPage leaf then
        rLatch leaf
        let leaf ← normalizeReadCursor treeName fuel leaf
        searchFrom key fuel leaf
      else throwing "Failed to refetch leaf page during search"
    | .leaf entries =>
      let (found, stop) := matching fmt key entries
      let last := (entries.getLast?.map fun e => fmt.compare e.key key) = some .eq
      match node.rightLink with
      | some right =>
        if stop = false ∧ found ≠ [] ∧ last then
          if ← fetchPage right then
            rLatch right
            rUnlatch p
            unpinPage p false
            let right ← normalizeReadCursor treeName fuel right
            let more ← searchFrom key fuel right
            pure (found ++ more)
          else
            rUnlatch p
            unpinPage p false
            throwing "Failed to fetch right sibling during search"
        else
          rUnlatch p
          unpinPage p false
          pure found
      | none => do
        rUnlatch p
        unpinPage p false
        pure found

def search (key : κ) (fuel : Nat) : TreeTask κ (List RID) := do
  let leaf ← findLeafPageNo sorts key fuel
  if ← fetchPage leaf then
    rLatch leaf
    let leaf ← normalizeReadCursor treeName fuel leaf
    searchFrom sorts key fuel leaf
  else throwing "Failed to fetch leaf page during search"

/-- `BTreeIndexIterator`: where it stands, and a lower bound it has not passed yet. -/
structure Cursor (κ : Type) where
  currentLeafPageNo : Option Nat
  currentEntryIndex : Nat
  atEnd : Bool
  lowerBound : Option κ

/-- The loop of `GetLeftmostLeafPageNo`. -/
def leftmostFrom : Nat → Nat → TreeTask κ Nat
  | 0, _ => loop
  | fuel + 1, p => do
    let node ← readNode p
    match node.content with
    | .leaf _ => do
      rUnlatch p
      unpinPage p false
      pure p
    | .internal child _ => do
      if ← fetchPage child then
        rLatch child
        let child ← normalizeReadCursor treeName fuel child
        rUnlatch p
        unpinPage p false
        leftmostFrom fuel child
      else
        rUnlatch p
        unpinPage p false
        throwing "Failed to fetch child during leftmost descent"

def getLeftmostLeafPageNo (fuel : Nat) : TreeTask κ Nat := do
  let root ← readMetaPage treeName
  if ← fetchPage root.1 then
    rLatch root.1
    let p ← normalizeReadCursor treeName fuel root.1
    leftmostFrom fuel p
  else throwing "Failed to fetch B+ tree page during leftmost descent"

/-- The first entry from an index on that is not below the lower bound. -/
def nextIndex (fmt : KeyFormat κ) (lowerBound : Option κ) (entries : List (LeafEntry κ))
    (index : Nat) : Option Nat :=
  ((entries.drop index).findIdx? fun e =>
    lowerBound.all fun bound => fmt.compare e.key bound ≠ .lt).map (index + ·)

/-- `AdvanceToNextValid`: its outer loop, and its inner one at the page it has latched. -/
def advance (latched : Option Nat) : Nat → Cursor κ → TreeTask κ (Cursor κ)
  | 0, _ => loop
  | fuel + 1, c =>
    match latched with
    | none =>
      match c.currentLeafPageNo with
      | none => pure { c with atEnd := true }
      | some p => do
        if ← fetchPage p then
          rLatch p
          advance (some p) fuel c
        else throwing "Failed to fetch leaf page in iterator advance"
    | some p => do
      let node ← readNode p
      match node.retired, node.rightLink with
      | true, some right => do
        rUnlatch p
        unpinPage p false
        let c ← advance none fuel { c with currentLeafPageNo := some right, currentEntryIndex := 0 }
        if c.atEnd then throwing "BTreeIndexIterator::Next called at end"
        else advance (some p) fuel c
      | _, rightLink =>
        match readEntries sorts node.content with
        | .internal child _ => do
          rUnlatch p
          unpinPage p false
          advance none fuel { c with currentLeafPageNo := some child, currentEntryIndex := 0 }
        | .leaf entries =>
          match nextIndex fmt c.lowerBound entries c.currentEntryIndex with
          | some index => do
            rUnlatch p
            unpinPage p false
            pure { c with currentEntryIndex := index, lowerBound := none }
          | none =>
            match rightLink with
            | none => do
              rUnlatch p
              unpinPage p false
              pure { c with
                currentLeafPageNo := none
                currentEntryIndex := max c.currentEntryIndex entries.length
                atEnd := true }
            | some right => do
              if ← fetchPage right then
                rLatch right
                rUnlatch p
                unpinPage p false
                advance (some right) fuel
                  { c with currentLeafPageNo := some right, currentEntryIndex := 0 }
              else
                rUnlatch p
                unpinPage p false
                throwing "Failed to fetch right sibling in iterator advance"

def iterator (fuel : Nat) : TreeTask κ (Cursor κ) := do
  let leaf ← getLeftmostLeafPageNo fuel
  advance sorts none fuel ⟨some leaf, 0, false, none⟩

def next : Nat → Cursor κ → TreeTask κ (LeafEntry κ × Cursor κ)
  | 0, _ => loop
  | fuel + 1, c =>
    match c.atEnd, c.currentLeafPageNo with
    | false, some p => do
      if ← fetchPage p then
        rLatch p
        let node ← readNode p
        match node.retired, node.rightLink with
        | true, some right => do
          rUnlatch p
          unpinPage p false
          again fuel { c with currentLeafPageNo := some right, currentEntryIndex := 0 }
        | _, _ =>
          match readEntries sorts node.content with
          | .internal _ _ => do
            rUnlatch p
            unpinPage p false
            again fuel { c with currentEntryIndex := 0 }
          | .leaf entries =>
            match entries[c.currentEntryIndex]? with
            | none => do
              rUnlatch p
              unpinPage p false
              again fuel c
            | some e => do
              rUnlatch p
              unpinPage p false
              let c ← advance sorts none fuel
                { c with currentEntryIndex := c.currentEntryIndex + 1 }
              pure (e, c)
      else throwing "Failed to fetch leaf page in iterator"
    | _, _ => throwing "BTreeIndexIterator::Next called at end"
where
  /-- The end of a round of its loop that found no entry. -/
  again (fuel : Nat) (c : Cursor κ) : TreeTask κ (LeafEntry κ × Cursor κ) := do
    let c ← advance sorts none fuel c
    if c.atEnd then throwing "BTreeIndexIterator::Next called at end" else next fuel c

/-- What `Next` returns, as long as `HasNext`. -/
def remaining : Nat → Cursor κ → TreeTask κ (List (LeafEntry κ))
  | 0, _ => loop
  | fuel + 1, c =>
    if c.atEnd then pure []
    else do
      let (e, c) ← next sorts fuel c
      let rest ← remaining fuel c
      pure (e :: rest)

def entriesOf (fuel : Nat) : TreeTask κ (List (LeafEntry κ)) := do
  let c ← iterator sorts fuel
  remaining sorts fuel c

end GraniteDb.Access.BTreeIndex
