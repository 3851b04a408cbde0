/- Tree pages: what fits on one, how its entries are ordered, and where a key leads. -/

import Mathlib.Data.List.Sort
import GraniteDb.Lib.BlinkTree
import GraniteDb.Storage.SlottedPage

namespace GraniteDb.Access.BTreePage

open Common.Types Lib.BlinkTree
open Storage.SlottedPage (headerSize slotSize)

variable {κ : Type}

section Format

/-- `sizeof(BTreeNodeSpecialData)`. -/
def specialDataSize : Nat := 24

/-- How a tree compares its encoded keys and how long they are. `Initialize` throws where the
special area of a page does not fit on it. -/
structure KeyFormat (κ : Type) where
  compare : κ → κ → Ordering
  size : κ → Nat
  maxKeyBytes : Nat
  special_fits : specialDataSize + maxKeyBytes ≤ pageSize - headerSize

structure LeafEntry (κ : Type) where
  key : κ
  rid : RID
  deriving DecidableEq

/-- `InternalEntry`: a key and the child whose keys start there. -/
abbrev InternalEntry (κ : Type) := κ × Nat

/-- A page of a tree. `leftmost_child` of a retired leaf is its `redirect`. -/
abbrev TreeNode (κ : Type) := Node κ (LeafEntry κ)

variable (fmt : KeyFormat κ)

/-- `LeafEntryBytes`: the length of the key, the key, `PageNo` and `SlotNo`. -/
def leafEntryBytes (e : LeafEntry κ) : Nat := 4 + fmt.size e.key + 4 + 2

def internalEntryBytes (e : InternalEntry κ) : Nat := 4 + fmt.size e.1 + 4

/-- `NodeCapacityBytes` of the special size of this tree's pages. -/
def nodeCapacityBytes : Nat := pageSize - headerSize - (specialDataSize + fmt.maxKeyBytes)

def leafUsedBytes (entries : List (LeafEntry κ)) : Nat :=
  (entries.map fun e => leafEntryBytes fmt e + slotSize).sum

def internalUsedBytes (entries : List (InternalEntry κ)) : Nat :=
  (entries.map fun e => internalEntryBytes fmt e + slotSize).sum

def maxLeafInsertBytes : Nat := 4 + fmt.maxKeyBytes + 4 + 2 + slotSize

def maxInternalInsertBytes : Nat := 4 + fmt.maxKeyBytes + 4 + slotSize

end Format

section Order

variable (fmt : KeyFormat κ)

def leafEntryLess (a b : LeafEntry κ) : Bool :=
  match fmt.compare a.key b.key with
  | .lt => true
  | .gt => false
  | .eq =>
    if a.rid.pageNo ≠ b.rid.pageNo then a.rid.pageNo < b.rid.pageNo
    else a.rid.slotNo < b.rid.slotNo

def internalEntryLess (a b : InternalEntry κ) : Bool := fmt.compare a.1 b.1 = .lt

/-- `std::sort` with `LeafEntryLess` and with `InternalEntryLess`. The order it leaves equal entries
in is its own. -/
structure Sorting (fmt : KeyFormat κ) where
  leaf : List (LeafEntry κ) → List (LeafEntry κ)
  internal : List (InternalEntry κ) → List (InternalEntry κ)
  leaf_perm : ∀ entries, (leaf entries).Perm entries
  internal_perm : ∀ entries, (internal entries).Perm entries
  leaf_sorted : ∀ entries, (leaf entries).Pairwise fun a b => leafEntryLess fmt b a = false
  internal_sorted : ∀ entries,
    (internal entries).Pairwise fun a b => internalEntryLess fmt b a = false

abbrev TreeContent (κ : Type) := Content κ (LeafEntry κ)

/-- `ReadLeafEntries` of a leaf, `GetLeftmostChild` and `ReadInternalEntries` of an internal page. -/
def readEntries {fmt : KeyFormat κ} (sorts : Sorting fmt) : TreeContent κ → TreeContent κ
  | .leaf entries => .leaf (sorts.leaf entries)
  | .internal leftmostChild entries => .internal leftmostChild (sorts.internal entries)

def rightOf (node : TreeNode κ) (key : κ) : Option Nat :=
  match node.highKey, node.rightLink with
  | some high, some right => if fmt.compare key high = .lt then none else some right
  | _, _ => none

/-- `FindChildForKey`, on the entries as they are read. -/
def childForKey (key : κ) : Nat → List (InternalEntry κ) → Nat
  | child, [] => child
  | child, e :: rest =>
    if fmt.compare key e.1 = .lt then child else childForKey key e.2 rest

def childAt (entries : List (InternalEntry κ)) (leftmostChild : Nat) :
    Nat → Except String Nat
  | 0 => .ok leftmostChild
  | i + 1 =>
    match entries[i]? with
    | some e => .ok e.2
    | none => .error "Child index out of range"

/-- `FindChildPosition`; `none` is -1. -/
def findChildPosition (entries : List (InternalEntry κ)) (leftmostChild child : Nat) :
    Option Nat :=
  if leftmostChild = child then some 0
  else (entries.findIdx? fun e => e.2 = child).map (· + 1)

end Order

section Rewriting

variable {ε : Type}

/-- Insert records into an empty page of `room` bytes: those on the page in the end, and whether all
are. A key too large for its page throws. -/
def insertRecords (bytes : ε → Nat) (encodes : ε → Bool) (tooLarge : String) :
    Nat → List ε → List ε × Except String Bool
  | _, [] => ([], .ok true)
  | room, e :: rest =>
    if encodes e = false then ([], .error tooLarge)
    else if room < bytes e + slotSize then ([], .ok false)
    else
      (insertRecords bytes encodes tooLarge (room - (bytes e + slotSize)) rest).map (e :: ·) id

variable (fmt : KeyFormat κ)

/-- `RewriteLeaf`: the page it leaves, and what it returns. -/
def rewrittenLeaf (entries : List (LeafEntry κ)) (rightLink : Option Nat) (highKey : Option κ) :
    TreeNode κ × Except String Bool :=
  if highKey.all fun k => fmt.size k ≤ fmt.maxKeyBytes then
    (insertRecords (leafEntryBytes fmt) (fun e => fmt.size e.key ≤ fmt.maxKeyBytes)
      "Leaf key too large" (nodeCapacityBytes fmt) entries).map
        (fun written => ⟨.leaf written, false, rightLink, none, highKey⟩) id
  else
    (⟨.leaf [], false, rightLink, none, none⟩, .error "High key too large for node metadata area")

def rewrittenInternal (leftmostChild : Nat) (entries : List (InternalEntry κ))
    (rightLink : Option Nat) (highKey : Option κ) : TreeNode κ × Except String Bool :=
  if highKey.all fun k => fmt.size k ≤ fmt.maxKeyBytes then
    (insertRecords (internalEntryBytes fmt) (fun e => fmt.size e.1 ≤ fmt.maxKeyBytes)
      "Internal key too large" (nodeCapacityBytes fmt) entries).map
        (fun written => ⟨.internal leftmostChild written, false, rightLink, none, highKey⟩) id
  else
    (⟨.internal leftmostChild [], false, rightLink, none, none⟩,
      .error "High key too large for node metadata area")

def canFitLeafEntries (entries : List (LeafEntry κ)) : Except String Bool :=
  (rewrittenLeaf fmt entries none none).2

def canFitInternalEntries (leftmostChild : Nat) (entries : List (InternalEntry κ)) :
    Except String Bool :=
  (rewrittenInternal fmt leftmostChild entries none none).2

def isLeafUnderfull (entries : List (LeafEntry κ)) : Except String Bool := do
  if ← canFitLeafEntries fmt entries then
    .ok (leafUsedBytes fmt entries < nodeCapacityBytes fmt / 2)
  else .error "Leaf entries do not fit in scratch page"

def isInternalUnderfull (entries : List (InternalEntry κ)) : Except String Bool := do
  if ← canFitInternalEntries fmt 0 entries then
    .ok (internalUsedBytes fmt entries < nodeCapacityBytes fmt / 2)
  else .error "Internal entries do not fit in scratch page"

/-- `RewriteLeaf` or `RewriteInternal`. -/
def rewritten (content : TreeContent κ) (rightLink : Option Nat) (highKey : Option κ) :
    TreeNode κ × Except String Bool :=
  match content with
  | .leaf entries => rewrittenLeaf fmt entries rightLink highKey
  | .internal leftmostChild entries =>
    rewrittenInternal fmt leftmostChild entries rightLink highKey

/-- `CanFitLeafEntries` or `CanFitInternalEntries`. -/
def canFit (content : TreeContent κ) : Except String Bool := (rewritten fmt content none none).2

/-- `IsLeafUnderfull` or `IsInternalUnderfull`. -/
def isUnderfull : TreeContent κ → Except String Bool
  | .leaf entries => isLeafUnderfull fmt entries
  | .internal _ entries => isInternalUnderfull fmt entries

/-- The two halves of a page, and the key between them. A leaf keeps this key in its right half. -/
def halves (separator : κ) : TreeContent κ → TreeContent κ × TreeContent κ × κ
  | .leaf entries =>
    let mid := entries.length / 2
    (.leaf (entries.take mid), .leaf (entries.drop mid),
      ((entries[mid]?).map LeafEntry.key).getD separator)
  | .internal leftmostChild entries =>
    let mid := entries.length / 2
    let promoted := (entries[mid]?).getD (separator, leftmostChild)
    (.internal leftmostChild (entries.take mid), .internal promoted.2 (entries.drop (mid + 1)),
      promoted.1)

end Rewriting

def readSibling {fmt : KeyFormat κ} (sorts : Sorting fmt) (own sibling : TreeContent κ) :
    Except String (TreeContent κ) :=
  match own, sibling with
  | .leaf _, .leaf entries => .ok (.leaf (sorts.leaf entries))
  | .internal _ _, .internal leftmostChild entries =>
    .ok (.internal leftmostChild (sorts.internal entries))
  | .leaf _, .internal _ _ => .error "ReadLeafEntries called on non-leaf"
  | .internal _ _, .leaf _ => .error "ReadInternalEntries called on non-internal"

def leftSibling (entries : List (InternalEntry κ)) (leftmostChild : Nat) :
    Nat → Option (κ × Nat)
  | 0 => none
  | i + 1 =>
    match entries[i]?, childAt entries leftmostChild i with
    | some e, .ok child => some (e.1, child)
    | _, _ => none

def rightSibling (entries : List (InternalEntry κ)) (childPos : Nat) : Option (κ × Nat) :=
  entries[childPos]?

/-- The last entry of the left sibling moves to the child: both pages after it, and the key between
them. An internal entry moves through the parent. -/
def borrowFromLeft (separator : κ) (left child : TreeContent κ) :
    Option (TreeContent κ × TreeContent κ × κ) :=
  match left, child with
  | .leaf leftEntries, .leaf childEntries =>
    leftEntries.getLast?.map fun borrowed =>
      (.leaf leftEntries.dropLast, .leaf (borrowed :: childEntries), borrowed.key)
  | .internal leftmost leftEntries, .internal childLeftmost childEntries =>
    leftEntries.getLast?.map fun borrowed =>
      (.internal leftmost leftEntries.dropLast,
        .internal borrowed.2 ((separator, childLeftmost) :: childEntries), borrowed.1)
  | _, _ => none

/-- The first entry of the right sibling moves to the child, unless it is the only one. -/
def borrowFromRight (separator : κ) (child right : TreeContent κ) :
    Option (TreeContent κ × TreeContent κ × κ) :=
  match child, right with
  | .leaf childEntries, .leaf (borrowed :: front :: rest) =>
    some (.leaf (childEntries ++ [borrowed]), .leaf (front :: rest), front.key)
  | .internal leftmost childEntries, .internal rightLeftmost (front :: e :: rest) =>
    some (.internal leftmost (childEntries ++ [(separator, rightLeftmost)]),
      .internal front.2 (e :: rest), front.1)
  | _, _ => none

def merged (separator : κ) (left right : TreeContent κ) : TreeContent κ :=
  match left, right with
  | .leaf leftEntries, .leaf rightEntries => .leaf (leftEntries ++ rightEntries)
  | .internal leftmost leftEntries, .internal rightLeftmost rightEntries =>
    .internal leftmost (leftEntries ++ (separator, rightLeftmost) :: rightEntries)
  | left, _ => left

def emptied (redirect : Nat) : TreeContent κ → TreeContent κ
  | .leaf _ => .leaf []
  | .internal _ _ => .internal redirect []

/-- `SetLeftmostChild`, which an internal page has done by then, and `SetPageState`. -/
def markRetired (redirect : Nat) (node : TreeNode κ) : TreeNode κ :=
  match node.content with
  | .leaf _ => { node with retired := true, redirect := some redirect }
  | .internal _ _ => { node with retired := true }

/-- Where `NormalizeReadCursor` goes from a retired page. -/
def redirectOf (node : TreeNode κ) : Option Nat :=
  match node.content with
  | .leaf _ => node.redirect.or node.rightLink
  | .internal leftmostChild _ => some leftmostChild

section Facts

variable {ε : Type} {fmt : KeyFormat κ}

theorem insertRecords_all {bytes : ε → Nat} {encodes : ε → Bool} {tooLarge : String} {room : Nat}
    {entries : List ε} : (insertRecords bytes encodes tooLarge room entries).2 = .ok true ↔
      (∀ e ∈ entries, encodes e = true) ∧
        (entries.map fun e => bytes e + slotSize).sum ≤ room := by
  induction entries generalizing room with
  | nil => simp [insertRecords]
  | cons e rest ih =>
    rw [insertRecords, List.forall_mem_cons, List.map_cons, List.sum_cons]
    by_cases small : encodes e = false
    · simp [small]
    · rw [if_neg small]
      rw [Bool.not_eq_false] at small
      by_cases full : room < bytes e + slotSize
      · rw [if_pos full]
        constructor
        · intro same
          cases same
        · rintro ⟨_, total⟩
          omega
      · rw [if_neg full, Prod.map_snd, id, ih]
        constructor
        · rintro ⟨all, total⟩
          exact ⟨⟨small, all⟩, by omega⟩
        · rintro ⟨⟨_, all⟩, total⟩
          exact ⟨all, by omega⟩

theorem inserted_all {bytes : ε → Nat} {encodes : ε → Bool} {tooLarge : String} {room : Nat}
    {entries : List ε} (all : (insertRecords bytes encodes tooLarge room entries).2 = .ok true) :
    (insertRecords bytes encodes tooLarge room entries).1 = entries := by
  induction entries generalizing room with
  | nil => rfl
  | cons e rest ih =>
    rw [insertRecords] at all ⊢
    split at all
    · cases all
    · rename_i small
      rw [if_neg small]
      split at all
      · cases all
      · rename_i fits
        rw [if_neg fits, Prod.map_fst, ih all]

def LeafFits (fmt : KeyFormat κ) (entries : List (LeafEntry κ)) : Prop :=
  (∀ e ∈ entries, fmt.size e.key ≤ fmt.maxKeyBytes) ∧
    leafUsedBytes fmt entries ≤ nodeCapacityBytes fmt

def InternalFits (fmt : KeyFormat κ) (entries : List (InternalEntry κ)) : Prop :=
  (∀ e ∈ entries, fmt.size e.1 ≤ fmt.maxKeyBytes) ∧
    internalUsedBytes fmt entries ≤ nodeCapacityBytes fmt

theorem canFitLeafEntries_iff {entries : List (LeafEntry κ)} :
    canFitLeafEntries fmt entries = .ok true ↔ LeafFits fmt entries := by
  have fresh : canFitLeafEntries fmt entries = (insertRecords (leafEntryBytes fmt)
      (fun e => fmt.size e.key ≤ fmt.maxKeyBytes) "Leaf key too large" (nodeCapacityBytes fmt)
      entries).2 := rfl
  rw [fresh, insertRecords_all, LeafFits]
  simp only [decide_eq_true_eq]
  rfl

variable {entries : List (InternalEntry κ)}

theorem canFitInternalEntries_iff {leftmostChild : Nat} :
    canFitInternalEntries fmt leftmostChild entries = .ok true ↔ InternalFits fmt entries := by
  have fresh : canFitInternalEntries fmt leftmostChild entries =
      (insertRecords (internalEntryBytes fmt) (fun e => fmt.size e.1 ≤ fmt.maxKeyBytes)
        "Internal key too large" (nodeCapacityBytes fmt) entries).2 := rfl
  rw [fresh, insertRecords_all, InternalFits]
  simp only [decide_eq_true_eq]
  rfl

theorem rewrittenLeaf_ok {entries : List (LeafEntry κ)} {rightLink : Option Nat}
    {highKey : Option κ} (ok : (rewrittenLeaf fmt entries rightLink highKey).2 = .ok true) :
    (rewrittenLeaf fmt entries rightLink highKey).1 =
        ⟨.leaf entries, false, rightLink, none, highKey⟩ ∧ LeafFits fmt entries := by
  rw [rewrittenLeaf] at ok ⊢
  split at ok
  · rename_i small
    rw [if_pos small, Prod.map_fst, inserted_all ok]
    have all := insertRecords_all.mp ok
    simp only [decide_eq_true_eq] at all
    exact ⟨rfl, all⟩
  · cases ok

theorem rewrittenInternal_ok {leftmostChild : Nat} {rightLink : Option Nat} {highKey : Option κ}
    (ok : (rewrittenInternal fmt leftmostChild entries rightLink highKey).2 = .ok true) :
    (rewrittenInternal fmt leftmostChild entries rightLink highKey).1 =
        ⟨.internal leftmostChild entries, false, rightLink, none, highKey⟩ ∧
      InternalFits fmt entries := by
  rw [rewrittenInternal] at ok ⊢
  split at ok
  · rename_i small
    rw [if_pos small, Prod.map_fst, inserted_all ok]
    have all := insertRecords_all.mp ok
    simp only [decide_eq_true_eq] at all
    exact ⟨rfl, all⟩
  · cases ok

end Facts

end GraniteDb.Access.BTreePage
