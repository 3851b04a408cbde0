/- A composite delete waits for a latch of its own where the tree has three levels or more. -/

import GraniteDb.Access.FixedKeys
import GraniteDb.Access.LowDeletes

namespace GraniteDb.Access.OwnLatches

open Lib.Task Access.BTreePage Access.FixedKeys Access.GenericBTree Access.LowDeletes
open Access.TreeLatches Access.TreeShape
open Common.Types (RID)
open Access.PageTasks hiding answers

variable {κ : Type}

section HighTrees

variable {fmt : KeyFormat κ} {sorts : Sorting fmt} {excused : Request κ → Prop}
  {file : IndexFile κ} {l : Layout} {p fuel : Nat} {key : κ} {rid : RID}

theorem getSubtreeFirstKey_held {tree : String} {q : Option κ → Holding κ → Prop}
    (inside : p < file.numPages) :
    Task.Keeps (latching excused) (getSubtreeFirstKey sorts tree fuel p) ⟨file, [p], []⟩
      (returning q) ↔ excused (.rLatch p) := by
  rw [getSubtreeFirstKey]
  simp [inside]

section

variable (fits : Fits l file)

include fits

theorem deleteRecursive_stuck (inside : InFile file.numPages p)
    (above : 1 ≤ l.level p) :
    Task.Keeps (latching fun _ => True) (deleteRecursive sorts key rid fuel p false)
      ⟨file, [], []⟩ (returning fun _ _ => False) := by
  cases fuel with
  | zero =>
    rw [deleteRecursive, keeps_loop]
    trivial
  | succ fuel =>
    rw [deleteRecursive]
    simp
    intro _
    refine (moveRight_keeps fits inside (.inl trivial)).mono ?_
    rintro p' s ⟨rfl, inside', level, _⟩
    simp only [keeps_readNode]
    intro node here
    have content := (fits.content p' node here).read sorts
    cases read : readEntries sorts node.content with
    | leaf entries =>
      rw [read] at content
      have bottom : l.level p' = 0 := content
      omega
    | internal leftmostChild entries =>
      simp only [keeps_bind_task, andThen_returning]
      exact (getSubtreeFirstKey_held inside'.2).mpr trivial

theorem deleteEntry_stuck (high : 2 < file.treeHeight) :
    Task.Keeps (latching fun _ => True) (deleteEntry sorts key rid fuel) ⟨file, [], []⟩
      (returning fun _ _ => False) := by
  have height := fits.height
  rw [deleteEntry, keeps_bind_task, andThen_returning]
  refine readMetaPage_keeps List.not_mem_nil ?_
  simp only [keeps_bind_task, andThen_returning]
  cases fuel with
  | zero =>
    rw [deleteRecursive, keeps_loop]
    trivial
  | succ fuel =>
    rw [deleteRecursive]
    simp
    intro _
    refine (moveRight_keeps fits fits.root (.inl trivial)).mono ?_
    rintro p' s ⟨rfl, inside', level, _⟩
    simp only [keeps_readNode]
    intro node here
    have content := (fits.content p' node here).read sorts
    cases read : readEntries sorts node.content with
    | leaf entries =>
      rw [read] at content
      have bottom : l.level p' = 0 := content
      omega
    | internal leftmostChild entries =>
      rw [read] at content
      obtain ⟨child, level'⟩ := content.2 _ (childForKey_mem fmt key leftmostChild entries)
      simp
      split
      · simp
      · simp
        refine (deleteRecursive_stuck fits child (by omega)).mono ?_
        intro result s never
        exact never.elim

theorem moveRight_returns {failure : String} {q : Nat → Holding κ → Prop}
    (written : Written file) (inside : InFile file.numPages p)
    (enough : ¬excused .loop ∨ (walk fmt file.pages key fuel p).isSome)
    (keeps : Task.Keeps (latching excused) (moveRight fmt failure key fuel p) ⟨file, [p], []⟩
      (returning q)) :
    ∃ p', walk fmt file.pages key fuel p = some p' ∧ InFile file.numPages p' ∧
      l.level p' = l.level p ∧ q p' ⟨file, [p'], []⟩ := by
  induction fuel generalizing p with
  | zero =>
    rw [moveRight, keeps_loop] at keeps
    exact (enough.resolve_left (not_not.mpr keeps) |> Bool.false_ne_true).elim
  | succ fuel ih =>
    obtain ⟨node, here⟩ := Option.ne_none_iff_exists'.mp (written p inside)
    rw [moveRight] at keeps
    simp only [keeps_bind_task, andThen_returning, keeps_readNode] at keeps
    have moved := keeps node here
    rw [walk, here, Option.bind_some] at enough ⊢
    cases next : rightOf fmt node key with
    | none =>
      rw [next] at moved
      exact ⟨p, rfl, inside, rfl, moved⟩
    | some right =>
      rw [next] at moved enough
      obtain ⟨further, level, _⟩ := fits.link p node here right (rightOf_link next)
      simp [further.2] at moved
      obtain ⟨p', found, inside', level', holds⟩ := ih further enough moved
      exact ⟨p', found, inside', level'.trans level, holds⟩

theorem deleteRecursive_blocks {q : DeleteResult κ → Holding κ → Prop}
    (written : Written file) (inside : InFile file.numPages p) (above : 1 ≤ l.level p)
    (many : file.numPages + 1 < fuel) :
    ¬ Task.Keeps (latching (· = .loop)) (deleteRecursive sorts key rid fuel p false)
      ⟨file, [], []⟩ (returning q) := by
  intro keeps
  obtain ⟨fuel, rfl⟩ : ∃ rest, fuel = rest + 1 := ⟨fuel - 1, by omega⟩
  have few := l.behind_le file.numPages p
  have ends : (walk fmt file.pages key fuel p).isSome := walk_above fits above (by omega)
  rw [deleteRecursive] at keeps
  simp [inside.2] at keeps
  obtain ⟨p', _, inside', level, holds⟩ :=
    moveRight_returns fits written inside (.inr ends) keeps
  obtain ⟨node, here⟩ := Option.ne_none_iff_exists'.mp (written p' inside')
  rw [keeps_readNode] at holds
  have reads := holds node here
  have content := (fits.content p' node here).read sorts
  cases read : readEntries sorts node.content with
  | leaf entries =>
    rw [read] at content
    have bottom : l.level p' = 0 := content
    omega
  | internal leftmostChild entries =>
    rw [read] at reads
    simp only [keeps_bind_task, andThen_returning] at reads
    have blocked := (getSubtreeFirstKey_held inside'.2).mp reads
    cases blocked

theorem deleteEntry_descends {q : Bool → Holding κ → Prop} (written : Written file)
    (enough : ¬excused .loop ∨ (walk fmt file.pages key fuel file.rootPageNo).isSome)
    (keeps : Task.Keeps (latching excused) (deleteEntry sorts key rid (fuel + 1)) ⟨file, [], []⟩
      (returning q)) :
    ∃ p node, walk fmt file.pages key fuel file.rootPageNo = some p ∧ file.pages p = some node ∧
      l.level p = l.level file.rootPageNo ∧ ∀ leftmostChild entries,
        readEntries sorts node.content = .internal leftmostChild entries →
          InFile file.numPages (childForKey fmt key leftmostChild entries) ∧
          l.level (childForKey fmt key leftmostChild entries) + 1 = l.level p ∧
          ∃ q, Task.Keeps (latching excused) (deleteRecursive sorts key rid fuel
            (childForKey fmt key leftmostChild entries) false) ⟨file, [], []⟩ (returning q) := by
  rw [deleteEntry, readMetaPage] at keeps
  have meta_page : 0 < file.numPages := by
    have inside := fits.root.2
    omega
  simp [meta_page] at keeps
  rw [deleteRecursive] at keeps
  simp [fits.root.2] at keeps
  obtain ⟨p, found, inside, level, holds⟩ :=
    moveRight_returns fits written fits.root enough keeps
  obtain ⟨node, here⟩ := Option.ne_none_iff_exists'.mp (written p inside)
  rw [keeps_readNode] at holds
  have reads := holds node here
  have content := (fits.content p node here).read sorts
  refine ⟨p, node, found, here, level, fun leftmostChild entries read => ?_⟩
  rw [read] at content reads
  obtain ⟨child, level'⟩ := content.2 _ (childForKey_mem fmt key leftmostChild entries)
  have position := findChildPosition_some (childForKey_mem fmt key leftmostChild entries)
  simp [position] at reads
  exact ⟨child, level', _, reads⟩

theorem deleteEntry_blocks (written : Written file)
    (high : 2 < file.treeHeight) (many : file.numPages + 2 < fuel) :
    Violates (latching (· = .loop)) (deleteEntry sorts key rid fuel) ⟨file, [], []⟩ := by
  by_contra never
  have keeps := keeps_returning_true.mpr never
  obtain ⟨fuel, rfl⟩ : ∃ rest, fuel = rest + 1 := ⟨fuel - 1, by omega⟩
  have height := fits.height
  have few := l.behind_le file.numPages file.rootPageNo
  obtain ⟨p, node, _, here, level, down⟩ := deleteEntry_descends fits written
    (.inr (walk_above fits (by omega) (by omega))) keeps
  have content := (fits.content p node here).read sorts
  cases read : readEntries sorts node.content with
  | leaf entries =>
    rw [read] at content
    have bottom : l.level p = 0 := content
    omega
  | internal leftmostChild entries =>
    obtain ⟨child, level', _, reads⟩ := down leftmostChild entries read
    exact deleteRecursive_blocks fits written child (by omega) (by omega) reads

theorem deleteEntry_walks (written : Written file) (ends : ¬ Violates (latching fun _ => False)
      (deleteEntry sorts key rid fuel) ⟨file, [], []⟩) :
    walksEnd sorts file key fuel = true := by
  have keeps := keeps_returning_true.mpr ends
  cases fuel with
  | zero =>
    rw [deleteEntry, readMetaPage] at keeps
    have meta_page : 0 < file.numPages := by
      have inside := fits.root.2
      omega
    simp [meta_page] at keeps
    rw [deleteRecursive, keeps_loop] at keeps
    exact keeps.elim
  | succ fuel =>
    obtain ⟨p, node, found, here, _, down⟩ :=
      deleteEntry_descends fits written (.inl not_false) keeps
    rw [walksEnd, walk_mono found (Nat.le_succ fuel)]
    dsimp only
    rw [here, Option.map_some]
    cases read : readEntries sorts node.content with
    | leaf entries => rfl
    | internal leftmostChild entries =>
      obtain ⟨child, _, q, keeps'⟩ := down leftmostChild entries read
      cases fuel with
      | zero =>
        rw [deleteRecursive, keeps_loop] at keeps'
        exact keeps'.elim
      | succ fuel =>
        rw [deleteRecursive] at keeps'
        simp [child.2] at keeps'
        obtain ⟨p', found', _⟩ := moveRight_returns fits written child (.inl not_false) keeps'
        exact Option.isSome_iff_exists.mpr ⟨p', walk_mono found' (by omega)⟩

end

end HighTrees

section Runs

variable {fmt : KeyFormat κ}

/-- The files that calls of `InsertEntry` and `DeleteEntry` lead to, each alone and to its end. -/
inductive Reached (sorts : Sorting fmt) : IndexFile κ → Prop
  | new : Reached sorts (IndexFile.new κ)
  | insert {file : IndexFile κ} {s : Holding κ} (key : κ) (rid : RID) (fuel : Nat) :
      Reached sorts file → Runs (latching fun _ => True) (insertEntry sorts key rid fuel)
        ⟨file, [], []⟩ (.ok ()) s → Reached sorts s.file
  | delete {file : IndexFile κ} {s : Holding κ} {deleted : Bool} (key : κ) (rid : RID)
      (fuel : Nat) : Reached sorts file → Runs (latching fun _ => True)
        (deleteEntry sorts key rid fuel) ⟨file, [], []⟩ (.ok deleted) s → Reached sorts s.file

variable {sorts : Sorting fmt} {file : IndexFile κ}

theorem Reached.fits (reached : Reached sorts file) : ∃ l, Fits l file ∧ Written file := by
  induction reached with
  | new => exact ⟨_, fits_new, written_new⟩
  | insert key rid fuel _ run ih =>
    obtain ⟨l, fits, written⟩ := ih
    obtain ⟨l', file', rfl, fits', written'⟩ :=
      Keeps.of_run (insertEntry_keeps fits written) run
    exact ⟨l', fits', written'⟩
  | @delete file s deleted key rid fuel _ run ih =>
    obtain ⟨l, fits, written⟩ := ih
    by_cases low : file.treeHeight ≤ 2
    · obtain ⟨file', rfl, kept⟩ := (deleteEntry_keeps fits written low (.inl trivial)).of_run run
      exact ⟨l, kept.fits, kept.written⟩
    · exact ((deleteEntry_stuck fits (by omega)).of_run run).elim

/-- The answer to an operation that runs alone, where a frame is free for every page. -/
def Holding.answer (s : Holding κ) (r : Request κ) : Option (Reply r × Holding κ) :=
  if grants s r then
    (s.file.answer r).map fun given => (given.1, { s.after r with file := given.2 })
  else none

inductive Call (κ : Type)
  | insert (key : κ) (rid : RID)
  | delete (key : κ) (rid : RID)

def runCalls (sorts : Sorting fmt) (fuel : Nat) :
    List (Call κ) → IndexFile κ → Option (IndexFile κ)
  | [], file => some file
  | .insert key rid :: rest, file =>
    match execute Holding.answer (insertEntry sorts key rid fuel) ⟨file, [], []⟩ with
    | some (.ok _, s) => runCalls sorts fuel rest s.file
    | _ => none
  | .delete key rid :: rest, file =>
    match execute Holding.answer (deleteEntry sorts key rid fuel) ⟨file, [], []⟩ with
    | some (.ok _, s) => runCalls sorts fuel rest s.file
    | _ => none

theorem runs_of_execute {α : Type} {task : TreeTask κ α} {s s' : Holding κ} {result : Except String α}
    (run : execute Holding.answer task s = some (result, s')) :
    Runs (latching fun _ => True) task s result s' := by
  refine Runs.of_execute ?_ run
  intro s r b s' given
  rw [Holding.answer] at given
  split at given
  · rename_i granted
    obtain ⟨⟨b', file''⟩, answered, same⟩ := Option.map_eq_some_iff.mp given
    cases same
    exact ⟨granted, file'', answers_answer answered, rfl⟩
  · cases given

theorem Reached.runCalls {fuel : Nat} {calls : List (Call κ)} {file' : IndexFile κ}
    (reached : Reached sorts file) (all : runCalls sorts fuel calls file = some file') :
    Reached sorts file' := by
  induction calls generalizing file with
  | nil =>
    cases all
    exact reached
  | cons call rest ih =>
    cases call with
    | insert key rid =>
      rw [OwnLatches.runCalls] at all
      split at all
      · rename_i run
        exact ih (reached.insert key rid fuel (runs_of_execute run)) all
      · cases all
    | delete key rid =>
      rw [OwnLatches.runCalls] at all
      split at all
      · rename_i run
        exact ih (reached.delete key rid fuel (runs_of_execute run)) all
      · cases all

def wideKeys : Sorting (fixedKeys 2700 (by decide)) := insertionSorting (by decide)

def highTree : Option (IndexFile Nat) :=
  runCalls wideKeys 5 ([1, 2, 3, 4, 5].map fun k => .insert k ⟨k, 0⟩) (IndexFile.new Nat)

theorem highTree_height : highTree.map IndexFile.treeHeight = some 3 := by decide +kernel

theorem violates_more {α : Type} {task : TreeTask κ α} {s : Holding κ}
    (violates : Violates (latching (· = .loop)) task s) :
    Violates (latching fun _ => False) task s := by
  induction violates with
  | here denied => exact .here fun granted => denied (.inr (granted.resolve_left id))
  | later answered _ ih => exact .later answered ih

/-- A delete, alone, asks for no latch on a page it holds exactly in the trees of one or two levels;
it runs to its end exactly in those of them where the right links that it follows, from the root and
from the child under it, come to an end. -/
theorem ownLatch_never_requested_iff (reached : Reached sorts file) (key : κ) (rid : RID) :
    ((∀ fuel, ¬ Violates (latching (· = .loop)) (deleteEntry sorts key rid fuel) ⟨file, [], []⟩) ↔
      file.treeHeight ≤ 2) ∧
    ((∃ enough, ∀ fuel, enough ≤ fuel → ¬ Violates (latching fun _ => False)
        (deleteEntry sorts key rid fuel) ⟨file, [], []⟩) ↔
      file.treeHeight ≤ 2 ∧ ∃ rounds, walksEnd sorts file key rounds = true) := by
  obtain ⟨l, fits, written⟩ := reached.fits
  refine ⟨⟨fun never => ?_, fun low fuel => ?_⟩, ⟨?_, ?_⟩⟩
  · by_contra high
    exact never (file.numPages + 3) (deleteEntry_blocks fits written (by omega) (by omega))
  · exact keeps_returning_true.mp (Task.Keeps.mono
      (deleteEntry_keeps fits written low (.inl rfl)) fun _ _ _ => trivial)
  · rintro ⟨enough, ends⟩
    refine ⟨?_, _, deleteEntry_walks fits written (ends enough le_rfl)⟩
    by_contra high
    exact ends (enough + file.numPages + 3) (by omega)
      (violates_more (deleteEntry_blocks fits written (by omega) (by omega)))
  · rintro ⟨low, rounds, walks⟩
    refine ⟨rounds + 2, fun fuel enough => keeps_returning_true.mp ?_⟩
    exact (deleteEntry_keeps fits written low
      (.inr (walksEnd_mono walks (by omega)))).mono fun _ _ _ => trivial

def lowTree : Option (IndexFile Nat) :=
  runCalls wideKeys 5 [.insert 1 ⟨1, 0⟩, .insert 2 ⟨2, 0⟩, .insert 3 ⟨3, 0⟩, .delete 3 ⟨3, 0⟩,
    .insert 4 ⟨4, 0⟩] (IndexFile.new Nat)

theorem ownLatch_never_requested_iff_merges : ∃ file : IndexFile Nat, Reached wideKeys file ∧
    file.treeHeight = 2 ∧
    (runCalls wideKeys 5 [.delete 4 ⟨4, 0⟩] file).map IndexFile.treeHeight = some 1 ∧
    (∀ fuel, ¬ Violates (latching (· = .loop)) (deleteEntry wideKeys 4 ⟨4, 0⟩ fuel)
      ⟨file, [], []⟩) ∧
    ∃ enough, ∀ fuel, enough ≤ fuel → ¬ Violates (latching fun _ => False)
      (deleteEntry wideKeys 4 ⟨4, 0⟩ fuel) ⟨file, [], []⟩ := by
  have executed : lowTree.map (fun file => decide (file.treeHeight = 2 ∧
      (runCalls wideKeys 5 [.delete 4 ⟨4, 0⟩] file).map IndexFile.treeHeight = some 1 ∧
      walksEnd wideKeys file 4 5 = true)) = some true := by
    decide +kernel
  obtain ⟨file, filled, facts⟩ := Option.map_eq_some_iff.mp executed
  obtain ⟨height, merged, walks⟩ := of_decide_eq_true facts
  have reached : Reached wideKeys file := Reached.new.runCalls filled
  obtain ⟨never, ends⟩ := ownLatch_never_requested_iff reached 4 ⟨4, 0⟩
  exact ⟨file, reached, height, merged, never.mpr height.le, ends.mpr ⟨height.le, 5, walks⟩⟩

/-- Keys of 2700 bytes, so that a page has room for two: after five inserts the tree has three
levels, and a delete asks for the latch of the internal page it is at. -/
theorem highTree_blocks : ∃ file : IndexFile Nat, Reached wideKeys file ∧ file.treeHeight = 3 ∧
    ∃ fuel, Violates (latching (· = .loop)) (deleteEntry wideKeys 1 ⟨1, 0⟩ fuel)
      ⟨file, [], []⟩ := by
  obtain ⟨file, filled, height⟩ := Option.map_eq_some_iff.mp highTree_height
  have reached : Reached wideKeys file := Reached.new.runCalls filled
  obtain ⟨l, fits, written⟩ := reached.fits
  exact ⟨file, reached, height, file.numPages + 3,
    deleteEntry_blocks fits written (by omega) (by omega)⟩

/-- `p` links to itself for the key, and the delete comes to it from the root. -/
def childLoops (sorts : Sorting fmt) (file : IndexFile κ) (key : κ) (p : Nat) : Bool :=
  decide (walk fmt file.pages key 1 file.rootPageNo = some file.rootPageNo ∧
    ((file.pages p).bind fun node => rightOf fmt node key) = some p) &&
  match (file.pages file.rootPageNo).map fun node => readEntries sorts node.content with
  | some (.internal leftmostChild entries) => childForKey fmt key leftmostChild entries = p
  | _ => false

theorem walk_selfLink {key : κ} {p : Nat}
    (link : ((file.pages p).bind fun node => rightOf fmt node key) = some p) (rounds : Nat) :
    walk fmt file.pages key rounds p = none := by
  induction rounds with
  | zero => rfl
  | succ rounds ih =>
    rw [walk, link]
    exact ih

theorem walksEnd_childLoops {key : κ} {p : Nat} (loops : childLoops sorts file key p = true)
    (rounds : Nat) : walksEnd sorts file key rounds = false := by
  rw [childLoops, Bool.and_eq_true, decide_eq_true_iff] at loops
  obtain ⟨⟨root, link⟩, child⟩ := loops
  cases rounds with
  | zero => rfl
  | succ rounds =>
    rw [walksEnd, walk_mono root (Nat.le_add_left 1 rounds)]
    dsimp only at child ⊢
    generalize (file.pages file.rootPageNo).map (fun node => readEntries sorts node.content) = read
      at child ⊢
    rcases read with _ | (entries | ⟨leftmostChild, entries⟩)
    · cases child
    · cases child
    · dsimp only at child ⊢
      rw [of_decide_eq_true child, walk_selfLink link]
      rfl

def linkedKeys : Sorting (fixedKeys 1300 (by decide)) := insertionSorting (by decide)

/-- A key with more entries than a leaf holds: once the entry that parts the two leaves is gone,
the left leaf's right link leads to the leaf itself. -/
def linkedTree : Option (IndexFile Nat) :=
  runCalls linkedKeys 6 ([(5, 1), (5, 2), (5, 3), (5, 4), (5, 5), (5, 6), (1, 7), (1, 8),
    (1, 9)].map (fun entry => .insert entry.1 ⟨entry.2, 0⟩) ++ [.delete 5 ⟨4, 0⟩])
    (IndexFile.new Nat)

theorem linkedTree_loops : ∃ file : IndexFile Nat, Reached linkedKeys file ∧
    file.treeHeight = 2 ∧
    ∀ fuel, Violates (latching fun _ => False) (deleteEntry linkedKeys 5 ⟨5, 0⟩ fuel)
      ⟨file, [], []⟩ := by
  have executed : linkedTree.map (fun file => decide (file.treeHeight = 2 ∧
      childLoops linkedKeys file 5 2 = true)) = some true := by
    decide +kernel
  obtain ⟨file, filled, facts⟩ := Option.map_eq_some_iff.mp executed
  obtain ⟨height, loops⟩ := of_decide_eq_true facts
  have reached : Reached linkedKeys file := Reached.new.runCalls filled
  obtain ⟨l, fits, written⟩ := reached.fits
  refine ⟨file, reached, height, fun fuel => ?_⟩
  by_contra ends
  have walks := deleteEntry_walks fits written ends
  rw [walksEnd_childLoops loops] at walks
  cases walks

end Runs

end GraniteDb.Access.OwnLatches
