/- Inserts of strings: an entry is added where the halves of every split page fit. -/

import GraniteDb.Access.TreeInserts
import GraniteDb.Access.TreeReads
import GraniteDb.Execution.ValueOrder

namespace GraniteDb.Access.VarcharTrees

open Lib.BlinkTree Lib.Task Access.BTreePage Access.PageTasks Access.BTreeIndex Access.OrderedTrees
open Access.TreeInserts Access.TreeReads
open Common.Types (RID pageSize)
open Execution.Expressions (compareBytes)
open Execution.ValueOrder (bytes_lt_iff)
open Storage.SlottedPage (headerSize)

section Keys

abbrev VarcharKey (maxVarcharLen : Nat) := {s : List UInt8 // s.length ≤ maxVarcharLen}

/-- The keys of a VARCHAR column. An encoded key is the length of the string and the string. -/
def varcharKeys (maxVarcharLen : Nat)
    (fits : specialDataSize + (4 + maxVarcharLen) ≤ pageSize - headerSize) :
    KeyFormat (VarcharKey maxVarcharLen) where
  compare a b := compareBytes a.1 b.1
  size k := 4 + k.1.length
  maxKeyBytes := 4 + maxVarcharLen
  special_fits := fits

def varcharRank {maxVarcharLen : Nat} (k : VarcharKey maxVarcharLen) : List Nat :=
  k.1.map UInt8.toNat

variable {maxVarcharLen : Nat}
  (room : specialDataSize + (4 + maxVarcharLen) ≤ pageSize - headerSize)

theorem varchar_ranked : Ranked (varcharKeys maxVarcharLen room) varcharRank where
  compare_rank a b := by
    have order : (varcharKeys maxVarcharLen room).compare a b = compareBytes a.1 b.1 := rfl
    rw [order, compareBytes]
    by_cases less : a.1 < b.1
    · rw [if_pos less]
      exact (compare_lt_iff_lt.mpr (bytes_lt_iff.mp less)).symm
    · rw [if_neg less]
      by_cases more : b.1 < a.1
      · rw [if_pos more]
        exact (compare_gt_iff_gt.mpr (bytes_lt_iff.mp more)).symm
      · rw [if_neg more]
        refine (compare_eq_iff_eq.mpr (le_antisymm ?_ ?_)).symm
        · exact not_lt.mp fun above => more (bytes_lt_iff.mpr above)
        · exact not_lt.mp fun below => less (bytes_lt_iff.mpr below)
  size_le k := Nat.add_le_add_left k.2 4

theorem varcharRank_injective : Function.Injective (@varcharRank maxVarcharLen) := by
  intro a b same
  refine Subtype.ext (List.map_injective_iff.mpr ?_ same)
  exact fun x y => UInt8.toNat_inj.mp

end Keys

theorem room_1596 : specialDataSize + (4 + 1596) ≤ pageSize - headerSize := by decide

def strings : Sorting (varcharKeys 1596 room_1596) := insertionSorting (varchar_ranked room_1596)

/-- A string that starts with a byte and goes on with so many zeros. -/
def padded (first : UInt8) (zeros : Fin 1596) : VarcharKey 1596 :=
  ⟨first :: List.replicate zeros 0, by
    have bound := zeros.isLt
    rw [List.length_cons, List.length_replicate]
    omega⟩

section Runs

variable {κ : Type} [LinearOrder α] {fmt : KeyFormat κ} {rank : κ → α} (sorts : Sorting fmt)

/-- These are the entries that the iterator and `Search` find in the file. -/
structure Finds (file : IndexFile κ) (entries : Multiset (LeafEntry κ)) : Prop where
  iterator : ∃ enough, ∀ fuel, enough < fuel →
    Task.Ends IndexFile.answer (entriesOf sorts fuel) file
      fun found file' => file' = file ∧ (found : Multiset (LeafEntry κ)) = entries
  search : ∀ key, ∃ enough, ∀ fuel, enough < fuel →
    Task.Ends IndexFile.answer (search sorts key fuel) file
      fun found file' => file' = file ∧ (found : Multiset RID) =
        (entries.filter fun e => fmt.compare e.key key = .eq).map LeafEntry.rid

/-- The files that inserts make of a new one, and the entries they inserted. Wherever a page was
split its halves fitted; what the inserts returned is not asked. -/
inductive Reached : IndexFile κ → Multiset (LeafEntry κ) → Prop
  | new : Reached (IndexFile.new κ) 0
  | insert {file file' : IndexFile κ} {entries : Multiset (LeafEntry κ)} {key : κ} {rid : RID}
      {fuel : Nat} {result : Except String Unit} (reached : Reached file entries)
      (fits : HalvesFit sorts file key rid) (enough : file.treeHeight < fuel)
      (run : execute IndexFile.answer (BTreeIndex.insert sorts key rid fuel) file =
        some (result, file')) : Reached file' (entries + {⟨key, rid⟩})

def inserted (fuel : Nat) (e : LeafEntry κ) (file : IndexFile κ) : IndexFile κ :=
  ((execute IndexFile.answer (BTreeIndex.insert sorts e.key e.rid fuel) file).map
    Prod.snd).getD file

variable {sorts} {file : IndexFile κ} {entries : Multiset (LeafEntry κ)}

theorem Reached.inserted {fuel : Nat} {e : LeafEntry κ} (reached : Reached sorts file entries)
    (fits : HalvesFit sorts file e.key e.rid) (enough : file.treeHeight < fuel)
    (ends : (execute IndexFile.answer (BTreeIndex.insert sorts e.key e.rid fuel) file).isSome) :
    Reached sorts (inserted sorts fuel e file) (entries + {e}) := by
  obtain ⟨⟨result, file'⟩, run⟩ := Option.isSome_iff_exists.mp ends
  have same : VarcharTrees.inserted sorts fuel e file = file' := by
    rw [VarcharTrees.inserted, run, Option.map_some, Option.getD_some]
  rw [same]
  exact .insert reached fits enough run

theorem treeOf_new : TreeOf fmt rank (IndexFile.new κ) 0 0 := by
  have here : (IndexFile.new κ).pages (rootSpan (IndexFile.new κ).rootPageNo : Span κ).page =
      some (stored (.leaf []) none none) := by
    simp [IndexFile.new, rootSpan, stored]
  have leaf : LeafAt (pageRule fmt rank) (IndexFile.new κ).pages
      (rootSpan (IndexFile.new κ).rootPageNo) := by
    refine leafAt_stored here List.Pairwise.nil (fun e member => ?_) rfl
    cases member
  refine ⟨rfl, ⟨fun s member => ?_, List.nodup_singleton _, fun p member => ?_, ?_⟩, ?_⟩
  · rw [List.mem_singleton.mp member]
    exact leaf
  · rw [List.mem_singleton.mp member]
    exact Nat.lt_succ_self _
  · refine ⟨?_, trivial⟩
    rw [rightLinkOf, here]
    rfl
  · rw [contents, leaves, List.flatMap_singleton, entriesAt_leaf here rfl]
    rfl

theorem TreeOf.finds {height : Nat} (ranked : Ranked fmt rank)
    (tree : TreeOf fmt rank file height entries) : Finds sorts file entries := by
  refine ⟨⟨_, fun fuel enough => entriesOf_ends ranked sorts tree enough⟩, fun key =>
    ⟨height + 1, fun fuel enough => ?_⟩⟩
  refine (search_ends ranked sorts tree enough).mono fun found file' after => ⟨after.1, ?_⟩
  rw [after.2]
  refine congrArg _ (Multiset.filter_congr fun e _ => ?_)
  exact ranked.eq_iff.symm

theorem Reached.treeOf (ranked : Ranked fmt rank) (injective : Function.Injective rank)
    (alone : maxLeafInsertBytes fmt ≤ nodeCapacityBytes fmt)
    (reached : Reached sorts file entries) : ∃ height, TreeOf fmt rank file height entries := by
  induction reached with
  | new => exact ⟨0, treeOf_new⟩
  | @insert file file' entries key rid fuel result _ fits enough run ih =>
    obtain ⟨height, tree⟩ := ih
    rw [tree.height_eq] at enough
    obtain ⟨_, _, run', grown⟩ := insert_ends ranked sorts tree alone
      (fun e _ => comparable_of_injective ranked injective e ⟨key, rid⟩) fits enough
    obtain ⟨_, rfl⟩ := Prod.mk.inj (Option.some.inj (run.symm.trans run'))
    exact grown

end Runs

section Strings

variable {maxVarcharLen : Nat}
  {room : specialDataSize + (4 + maxVarcharLen) ≤ pageSize - headerSize}

def FourFit (maxVarcharLen : Nat)
    (room : specialDataSize + (4 + maxVarcharLen) ≤ pageSize - headerSize) : Prop :=
  4 * maxLeafInsertBytes (varcharKeys maxVarcharLen room) ≤
    nodeCapacityBytes (varcharKeys maxVarcharLen room)

theorem four_fit : FourFit 1596 room_1596 := by
  rw [FourFit]
  decide

/-- As long as the halves of every page that inserts split fit, and no key stands in both halves of a
leaf, each insert returns, and the iterator and `Search` find its entry besides those before. -/
theorem insert_adds_entry (sorts : Sorting (varcharKeys maxVarcharLen room))
    (four : FourFit maxVarcharLen room) {file : IndexFile (VarcharKey maxVarcharLen)}
    {entries : Multiset (LeafEntry (VarcharKey maxVarcharLen))}
    (reached : Reached sorts file entries) (key : VarcharKey maxVarcharLen) (rid : RID)
    (fits : HalvesFit sorts file key rid) : Finds sorts file entries ∧
      ∀ fuel, file.treeHeight < fuel →
        Task.Ends IndexFile.answer (BTreeIndex.insert sorts key rid fuel) file
          fun _ file' => Finds sorts file' (entries + {⟨key, rid⟩}) := by
  have ranked := varchar_ranked room
  have alone : maxLeafInsertBytes (varcharKeys maxVarcharLen room) ≤
      nodeCapacityBytes (varcharKeys maxVarcharLen room) := by
    rw [FourFit] at four
    omega
  obtain ⟨height, tree⟩ := reached.treeOf ranked varcharRank_injective alone
  refine ⟨TreeOf.finds ranked tree, fun fuel enough => ?_⟩
  rw [tree.height_eq] at enough
  refine (insert_ends ranked sorts tree alone
    (fun e _ => comparable_of_injective ranked varcharRank_injective e ⟨key, rid⟩) fits
    enough).mono ?_
  rintro _ file' ⟨height', grown⟩
  exact TreeOf.finds ranked grown

/-- The `n`-th of some strings of the largest size, in ascending order. -/
def longEntry (n : Nat) : LeafEntry (VarcharKey 1596) := ⟨padded (n + 1).toUInt8 1595, ⟨1, n + 1⟩⟩

/-- A new file after the first `n` of them. -/
def longFile : Nat → IndexFile (VarcharKey 1596)
  | 0 => IndexFile.new _
  | n + 1 => inserted strings 5 (longEntry n) (longFile n)

theorem longFile_reached : Reached strings (longFile 6)
    (0 + {longEntry 0} + {longEntry 1} + {longEntry 2} + {longEntry 3} + {longEntry 4} +
      {longEntry 5}) := by
  have each : ∀ n ∈ List.range 6, HalvesFit strings (longFile n) (longEntry n).key (longEntry n).rid ∧
      (longFile n).treeHeight < 5 ∧ (execute IndexFile.answer (BTreeIndex.insert strings
        (longEntry n).key (longEntry n).rid 5) (longFile n)).isSome := by
    decide +kernel
  have next : ∀ n < 6, ∀ {entries}, Reached strings (longFile n) entries →
      Reached strings (longFile (n + 1)) (entries + {longEntry n}) := by
    intro n below entries reached
    obtain ⟨fits, enough, ends⟩ := each n (List.mem_range.mpr below)
    exact reached.inserted fits enough ends
  exact next 5 (by decide) (next 4 (by decide) (next 3 (by decide) (next 2 (by decide)
    (next 1 (by decide) (next 0 (by decide) .new)))))

/-- The fifth string splits the root, and the seventh the leaf to the right under the new root. -/
theorem insert_adds_entry_split : ((longFile 4).numPages = 2 ∧ (longFile 5).numPages = 4 ∧
    (longFile 6).numPages = 4 ∧ (longFile 7).numPages = 5) ∧
    Finds strings (longFile 6) (0 + {longEntry 0} + {longEntry 1} + {longEntry 2} +
      {longEntry 3} + {longEntry 4} + {longEntry 5}) ∧
    ∀ fuel, (longFile 6).treeHeight < fuel →
      Task.Ends IndexFile.answer
        (BTreeIndex.insert strings (longEntry 6).key (longEntry 6).rid fuel) (longFile 6)
        fun _ file' => Finds strings file' (0 + {longEntry 0} + {longEntry 1} + {longEntry 2} +
          {longEntry 3} + {longEntry 4} + {longEntry 5} + {longEntry 6}) :=
  ⟨by decide +kernel, insert_adds_entry strings four_fit longFile_reached (longEntry 6).key
    (longEntry 6).rid (by decide +kernel)⟩

end Strings

def insertAll {κ : Type} {fmt : KeyFormat κ} (sorts : Sorting fmt) (fuel : Nat) :
    List (LeafEntry κ) → IndexFile κ → Option (IndexFile κ)
  | [], file => some file
  | e :: rest, file =>
    match execute IndexFile.answer (BTreeIndex.insert sorts e.key e.rid fuel) file with
    | some (.ok _, file') => insertAll sorts fuel rest file'
    | _ => none

/-- Four short strings, one of medium length, and three of the largest. -/
def leafStrings : List (LeafEntry (VarcharKey 1596)) :=
  [⟨padded 1 0, ⟨1, 1⟩⟩, ⟨padded 2 0, ⟨1, 2⟩⟩, ⟨padded 3 0, ⟨1, 3⟩⟩, ⟨padded 4 0, ⟨1, 4⟩⟩,
    ⟨padded 5 970, ⟨1, 5⟩⟩, ⟨padded 6 1595, ⟨1, 6⟩⟩, ⟨padded 7 1595, ⟨1, 7⟩⟩,
    ⟨padded 9 1595, ⟨1, 9⟩⟩]

/-- What the ninth insert returns, and what `Search` finds for the last string before and after. -/
def ninthInsert :
    Option (Except String Unit × Except String (List RID) × Except String (List RID)) := do
  let file ← insertAll strings 5 leafStrings (IndexFile.new _)
  let (before, _) ← execute IndexFile.answer (search strings (padded 9 1595) 5) file
  let (result, file') ←
    execute IndexFile.answer (BTreeIndex.insert strings (padded 8 1595) ⟨1, 8⟩ 5) file
  let (after, _) ← execute IndexFile.answer (search strings (padded 9 1595) 5) file'
  pure (result, before, after)

/-- The right half of the leaf does not fit on the new page, and its last entry is lost. -/
theorem ninthInsert_loses : ninthInsert =
    some (.error "Failed to rewrite B+ tree leaf page", .ok [⟨1, 9⟩], .ok []) := by
  decide +kernel

end GraniteDb.Access.VarcharTrees
