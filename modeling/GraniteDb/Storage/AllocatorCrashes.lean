/- What the page allocator leaves on disk when it is stopped inside a call. -/

import GraniteDb.Lib.GuardedRun
import GraniteDb.Storage.DiskManager
import Mathlib.Algebra.Ring.Nat

namespace GraniteDb.Storage.AllocatorCrashes

open Lib.GuardedRun Storage.DiskManager
open Function (update_self)
open List (mem_reverse mem_cons_self mem_cons)

variable {Page : Type}

section Model

def narrow (numPages : Nat) : Nat := numPages % 2 ^ 32

/-- What a call returns, and the disk before its first file step and after each of them. -/
structure Staged (Page α : Type) where
  result : Except String α
  before : DiskManager Page
  stages : List (DiskManager Page)

def Staged.after {α : Type} (s : Staged Page α) : DiskManager Page := s.stages.getLastD s.before

def takePage (h : RelationHandle) : Nat × RelationHandle :=
  match h.freePages with
  | pageNo :: freePages => (pageNo, { h with freePages := freePages })
  | [] => (h.numPages, { h with numPages := narrow (h.numPages + 1) })

variable [Inhabited Page] in
/-- `AllocatePage`: the page is written, then the allocator state is replaced. -/
def allocateStages (id : Nat) (d : DiskManager Page) : Staged Page Nat :=
  match d.relations id with
  | none => ⟨.error "Relation is not open", d, []⟩
  | some h =>
    let taken := takePage h
    let written := (d.setHandle id taken.2).setFile h.file
      (setPage (d.files h.file) taken.1 default)
    ⟨.ok taken.1, d, [written, written.persist taken.2]⟩

def withFree (freePages : List Nat) (pageNo : Nat) : List Nat :=
  if pageNo ∈ freePages then freePages else freePages.orderedInsert (· ≤ ·) pageNo

variable [Inhabited Page] in
/-- `DeallocatePage`: `TrimTrailingFreePages` resizes the file if its last page is free, then
the allocator state is replaced. -/
def deallocateStages (id pageNo : Nat) (d : DiskManager Page) : Staged Page Unit :=
  match d.relations id with
  | none => ⟨.error "Relation is not open", d, []⟩
  | some h =>
    if h.numPages ≤ pageNo then ⟨.error "DeallocatePage: page does not exist", d, []⟩
    else
      match trimTrailingFreePages id { h with freePages := withFree h.freePages pageNo } d with
      | (.error what, trimmed) => ⟨.error what, d, [trimmed]⟩
      | (.ok next, trimmed) => ⟨.ok (), d, [trimmed, trimmed.persist next]⟩

/-- `OpenRelation` on the files that a stopped process has left. -/
def reopen (path : String) (d : DiskManager Page) : Except String RelationHandle :=
  match d.directory path with
  | none => .error ("Failed to open relation file: " ++ path)
  | some file =>
    let numPages := narrow (d.files file).length
    (loadAllocatorState (d.allocatorStates (buildAllocatorStatePath path)) numPages).map
      fun freePages => ⟨path, file, numPages, freePages⟩

inductive Call
  | allocatePage
  | deallocatePage (pageNo : Nat)
  deriving DecidableEq

/-- The disk with the pages that are allocated and not yet freed. -/
structure Allocator (Page : Type) where
  disk : DiskManager Page
  live : List Nat

variable [Inhabited Page] in
def crashPoints (id : Nat) (d : DiskManager Page) : Call → List (DiskManager Page)
  | .allocatePage => d :: (allocateStages id d).stages
  | .deallocatePage pageNo => d :: (deallocateStages id pageNo d).stages

variable [Inhabited Page] in
def step (id : Nat) (s : Allocator Page) : Call → Option (Allocator Page)
  | .allocatePage =>
    let call := allocateStages id s.disk
    match call.result with
    | .ok pageNo => some ⟨call.after, pageNo :: s.live⟩
    | .error _ => some ⟨call.after, s.live⟩
  | .deallocatePage pageNo =>
    if pageNo ∈ s.live then
      some ⟨(deallocateStages id pageNo s.disk).after, s.live.erase pageNo⟩
    else none

def Call.touches : Call → Nat → Prop
  | .allocatePage, _ => False
  | .deallocatePage pageNo, other => other = pageNo

end Model

def Roomy (id : Nat) (s : Allocator Page) (call : Call) : Prop :=
  call = .allocatePage → ∀ h, s.disk.relations id = some h → h.freePages = [] →
    h.numPages + 1 < 2 ^ 32

/-- The relation opens again, and none of the pages is free in it. -/
def OpensAgain (path : String) (d : DiskManager Page) (pages : Nat → Prop) : Prop :=
  ∃ h, reopen path d = .ok h ∧ ∀ pageNo, pages pageNo → pageNo ∉ h.freePages

/-- The call frees the last page of the file, and is stopped after the resize. -/
def BetweenResizeAndState (id : Nat) (d : DiskManager Page) (call : Call) (at_ : Nat) : Prop :=
  at_ = 1 ∧ ∃ h pageNo, d.relations id = some h ∧ call = .deallocatePage pageNo ∧
    pageNo + 1 = h.numPages

/-- The free pages are in the file and not live, and `AllocatePage` returns no live page. -/
structure Consistent [Inhabited Page] (id : Nat) (s : Allocator Page) : Prop where
  free : ∀ h, s.disk.relations id = some h → ∀ pageNo ∈ h.freePages,
    pageNo < (s.disk.files h.file).length ∧ pageNo ∉ s.live
  fresh : ∀ pageNo, (allocateStages id s.disk).result = .ok pageNo → pageNo ∉ s.live

/-- Wherever the call is stopped, the relation opens again, and no live page but one that the
call changes is free in it. -/
def Survives [Inhabited Page] (id : Nat) (path : String) (s : Allocator Page) (call : Call)
    (at_ : Nat) : Prop :=
  ∀ d, (crashPoints id s.disk call)[at_]? = some d →
    OpensAgain path d fun pageNo => pageNo ∈ s.live ∧ ¬ call.touches pageNo

def Created (id : Nat) (path : String) (s : Allocator Page) : Prop :=
  s.live = [] ∧ ∃ d, createRelation id path d = (.ok (), s.disk)

section Refinement

variable [Inhabited Page] {d : DiskManager Page} {id : Nat}

theorem allocateStages_eq (roomy : Roomy id ⟨d, []⟩ .allocatePage) :
    allocatePage id d = ((allocateStages id d).result, (allocateStages id d).after) := by
  unfold allocatePage allocateStages takePage
  cases isOpen : d.relations id with
  | none => rfl
  | some h =>
    cases free : h.freePages with
    | nil =>
      have fits : narrow (h.numPages + 1) = h.numPages + 1 :=
        Nat.mod_eq_of_lt (roomy rfl h isOpen free)
      simp only [free, fits]
      rfl
    | cons pageNo freePages =>
      simp only [free]
      rfl

theorem deallocateStages_eq (pageNo : Nat) :
    deallocatePage ⟨id, pageNo⟩ d =
      ((deallocateStages id pageNo d).result, (deallocateStages id pageNo d).after) := by
  unfold deallocatePage deallocateStages withFree
  cases isOpen : d.relations id with
  | none => rfl
  | some h =>
    simp only
    split
    · rfl
    · generalize trimTrailingFreePages id _ d = outcome
      obtain ⟨result, after⟩ := outcome
      cases result <;> rfl

omit [Inhabited Page] in
theorem openRelation_reopen {path : String} {h : RelationHandle}
    (opened : reopen path d = .ok h)
    (fits : ∀ file, d.directory path = some file → (d.files file).length < 2 ^ 32) :
    openRelation id path d = (.ok (), d.setHandle id h) := by
  unfold reopen at opened
  unfold openRelation
  cases leads : d.directory path with
  | none =>
    rw [leads] at opened
    cases opened
  | some file =>
    have same : narrow (d.files file).length = (d.files file).length :=
      Nat.mod_eq_of_lt (fits file leads)
    simp only [leads, same] at opened ⊢
    cases loaded : loadAllocatorState (d.allocatorStates (buildAllocatorStatePath path))
        (d.files file).length with
    | error what =>
      rw [loaded] at opened
      cases opened
    | ok freePages =>
      rw [loaded] at opened
      cases opened
      rfl

end Refinement

theorem trim_spec {numPages : Nat} {free : List Nat} (sorted : free.Pairwise (· > ·))
    (inFile : ∀ p ∈ free, p < numPages) :
    (trim numPages free).2 <:+ free ∧ (trim numPages free).1 ≤ numPages ∧
      (∀ p ∈ (trim numPages free).2, p < (trim numPages free).1) ∧
      (∀ p ∈ (trim numPages free).2, p + 1 ≠ (trim numPages free).1) ∧
      (∀ p, p < numPages → p ∉ free → p < (trim numPages free).1) ∧
      ((trim numPages free).1 = numPages ↔ ∀ p ∈ free, p + 1 ≠ numPages) := by
  induction free generalizing numPages with
  | nil => simp [trim]
  | cons last rest ih =>
    have below : ∀ p ∈ rest, last > p := (List.pairwise_cons.mp sorted).1
    have lastIn : last < numPages := inFile last mem_cons_self
    unfold trim
    split
    · rename_i atEnd
      obtain ⟨suffix, le, inside, last_, stay, -⟩ := @ih (numPages - 1)
        sorted.of_cons (by
          intro p member
          have less := below p member
          omega)
      refine ⟨suffix.trans (List.suffix_cons _ _), by omega, inside, last_, ?_, ?_⟩
      · intro p less notFree
        rw [mem_cons, not_or] at notFree
        exact stay p (by omega) notFree.2
      · constructor
        · intro unchanged
          omega
        · intro notLast
          exact absurd atEnd (notLast last mem_cons_self)
    · rename_i notEnd
      have notLast : ∀ p ∈ last :: rest, p + 1 ≠ numPages := by
        intro p member
        rcases mem_cons.mp member with rfl | later
        · exact notEnd
        · have less := below p later
          omega
      exact ⟨List.suffix_refl _, le_rfl, inFile, notLast, fun p less _ => less,
        fun _ => notLast, fun _ => rfl⟩

theorem mem_withFree {freePages : List Nat} {pageNo p : Nat} :
    p ∈ withFree freePages pageNo ↔ p = pageNo ∨ p ∈ freePages := by
  unfold withFree
  split
  · rename_i already
    constructor
    · exact .inr
    · intro either
      rcases either with rfl | other
      · exact already
      · exact other
  · exact List.mem_orderedInsert _

theorem sorted_withFree {freePages : List Nat} (sorted : freePages.Pairwise (· < ·))
    (pageNo : Nat) : (withFree freePages pageNo).Pairwise (· < ·) := by
  unfold withFree
  split
  · exact sorted
  · rename_i fresh
    have ordered : (freePages.orderedInsert (· ≤ ·) pageNo).Pairwise (· ≤ ·) :=
      List.Pairwise.orderedInsert pageNo freePages (sorted.imp fun less => le_of_lt less)
    have once : (freePages.orderedInsert (· ≤ ·) pageNo).Nodup := by
      rw [(List.perm_orderedInsert _ _ _).nodup_iff]
      exact List.nodup_cons.mpr ⟨fresh, sorted.imp fun less => ne_of_lt less⟩
    exact (ordered.and once).imp fun both => lt_of_le_of_ne both.1 both.2

section Invariant

variable {id : Nat} {path : String} {s : Allocator Page} {h : RelationHandle}

/-- Between two calls: the file has the pages of the handle, the last of them not free, the free
pages are in order and not live, and the state is that of the handle. -/
structure Kept (id : Nat) (path : String) (s : Allocator Page) (h : RelationHandle) : Prop where
  isOpen : s.disk.relations id = some h
  path_eq : h.path = path
  linked : s.disk.directory path = some h.file
  length : (s.disk.files h.file).length = h.numPages
  fits : h.numPages < 2 ^ 32
  sorted : h.freePages.Pairwise (· < ·)
  inFile : ∀ p ∈ h.freePages, p < h.numPages
  trimmed : ∀ p ∈ h.freePages, p + 1 ≠ h.numPages
  live : ∀ p ∈ s.live, p < h.numPages ∧ p ∉ h.freePages
  once : s.live.Nodup
  saved : s.disk.allocatorStates (buildAllocatorStatePath path) =
    some ⟨h.numPages, h.freePages⟩

theorem kept_created (created : Created id path s) : ∃ h, Kept id path s h := by
  obtain ⟨disk, live⟩ := s
  obtain ⟨none_, d, ran⟩ := created
  rw [createRelation_ok] at ran
  obtain ⟨-, rfl⟩ := Prod.mk.inj ran
  simp only at none_
  refine ⟨⟨path, (d.directory path).getD d.nextFile, 0, []⟩, ?_⟩
  constructor
  all_goals simp [truncateFile, DiskManager.setHandle, none_]

theorem reopen_ok {d : DiskManager Page} {file : Nat} {state : AllocatorState}
    (linked : d.directory path = some file)
    (saved : d.allocatorStates (buildAllocatorStatePath path) = some state)
    (fits : (d.files file).length < 2 ^ 32) (enough : state.numPages ≤ (d.files file).length)
    (inFile : ∀ p ∈ state.freePages, p < (d.files file).length) :
    reopen path d = .ok ⟨path, file, (d.files file).length, state.freePages⟩ := by
  have same : narrow (d.files file).length = (d.files file).length := Nat.mod_eq_of_lt fits
  have none_ : (state.freePages.any fun p => decide ((d.files file).length ≤ p)) = false := by
    rw [List.any_eq_false]
    intro p member
    have less := inFile p member
    simp only [decide_eq_true_eq]
    omega
  simp only [reopen, linked, saved, same, loadAllocatorState, none_, if_neg (Nat.not_lt.mpr enough)]
  rfl

theorem reopen_short {d : DiskManager Page} {file : Nat} {state : AllocatorState}
    (linked : d.directory path = some file)
    (saved : d.allocatorStates (buildAllocatorStatePath path) = some state)
    (short : (d.files file).length < state.numPages) (h : RelationHandle) :
    reopen path d ≠ .ok h := by
  have le : narrow (d.files file).length ≤ (d.files file).length := Nat.mod_le _ _
  simp only [reopen, linked, saved, loadAllocatorState, if_pos (lt_of_le_of_lt le short)]
  intro same
  cases same

theorem Kept.reopen (kept : Kept id path s h) :
    reopen path s.disk = .ok ⟨path, h.file, h.numPages, h.freePages⟩ := by
  have length := kept.length
  have opened := @reopen_ok _ _ _ _ ⟨h.numPages, h.freePages⟩ kept.linked kept.saved
    (by rw [length]; exact kept.fits) (by rw [length]) (by rw [length]; exact kept.inFile)
  rwa [length] at opened

theorem Kept.reopen_longer (kept : Kept id path s h) {d : DiskManager Page}
    (directory : d.directory = s.disk.directory)
    (states : d.allocatorStates = s.disk.allocatorStates)
    (longer : h.numPages ≤ (d.files h.file).length) (fits : (d.files h.file).length < 2 ^ 32) :
    OpensAgain path d (· ∈ s.live) := by
  refine ⟨_, @reopen_ok _ _ _ _ ⟨h.numPages, h.freePages⟩ (directory ▸ kept.linked)
    (states ▸ kept.saved) fits longer ?_, fun p alive => (kept.live p alive).2⟩
  intro p member
  have less := kept.inFile p member
  omega

theorem Kept.takePage (kept : Kept id path s h)
    (roomy : h.freePages = [] → h.numPages + 1 < 2 ^ 32) :
    (takePage h).1 ∉ s.live ∧ (takePage h).2.path = h.path ∧ (takePage h).2.file = h.file ∧
      max h.numPages ((takePage h).1 + 1) = (takePage h).2.numPages ∧
      (takePage h).2.numPages < 2 ^ 32 ∧ (takePage h).2.freePages.Pairwise (· < ·) ∧
      (∀ p ∈ (takePage h).2.freePages, p < h.numPages ∧ p + 1 ≠ (takePage h).2.numPages) ∧
      ∀ p, p = (takePage h).1 ∨ p ∈ s.live →
        p < (takePage h).2.numPages ∧ p ∉ (takePage h).2.freePages := by
  unfold AllocatorCrashes.takePage
  have fits := kept.fits
  cases free : h.freePages with
  | nil =>
    have narrow_ : narrow (h.numPages + 1) = h.numPages + 1 := Nat.mod_eq_of_lt (roomy free)
    have less := roomy free
    rw [narrow_]
    dsimp only
    refine ⟨?_, rfl, rfl, by omega, less, List.Pairwise.nil, by simp, ?_⟩
    · intro alive
      have inside := (kept.live _ alive).1
      omega
    · intro p either
      refine ⟨?_, List.not_mem_nil⟩
      rcases either with rfl | alive
      · omega
      · have inside := (kept.live _ alive).1
        omega
  | cons pageNo freePages =>
    have sorted := kept.sorted
    have inFile := kept.inFile
    have trimmed := kept.trimmed
    rw [free] at sorted inFile trimmed
    have first := inFile pageNo mem_cons_self
    dsimp only
    refine ⟨?_, rfl, rfl, by omega, fits, sorted.of_cons, ?_, ?_⟩
    · intro alive
      have notFree := (kept.live _ alive).2
      rw [free] at notFree
      exact notFree mem_cons_self
    · intro p member
      have later := List.mem_cons_of_mem pageNo member
      exact ⟨inFile p later, trimmed p later⟩
    · intro p either
      rcases either with rfl | alive
      · refine ⟨first, fun again => ?_⟩
        have less := (List.pairwise_cons.mp sorted).1 p again
        omega
      · obtain ⟨inside, notFree⟩ := kept.live p alive
        rw [free] at notFree
        exact ⟨inside, fun member => notFree (List.mem_cons_of_mem _ member)⟩

variable [Inhabited Page]

theorem Kept.allocate (kept : Kept id path s h)
    (roomy : h.freePages = [] → h.numPages + 1 < 2 ^ 32) :
    ∃ written, (allocateStages id s.disk).result = .ok (AllocatorCrashes.takePage h).1 ∧
      (allocateStages id s.disk).stages =
        [written, written.persist (AllocatorCrashes.takePage h).2] ∧
      OpensAgain path written (· ∈ s.live) ∧
      Kept id path ⟨written.persist (AllocatorCrashes.takePage h).2,
        (AllocatorCrashes.takePage h).1 :: s.live⟩ (AllocatorCrashes.takePage h).2 := by
  obtain ⟨fresh, path_, file, count, fits, sorted, free, live⟩ := kept.takePage roomy
  have long := kept.length
  have length := length_setPage (s.disk.files h.file) (AllocatorCrashes.takePage h).1 default
  rw [long, count] at length
  refine ⟨(s.disk.setHandle id (AllocatorCrashes.takePage h).2).setFile h.file
    (setPage (s.disk.files h.file) (AllocatorCrashes.takePage h).1 default), ?_, ?_, ?_, ?_⟩
  · simp only [allocateStages, kept.isOpen]
  · simp only [allocateStages, kept.isOpen]
  · refine kept.reopen_longer ?_ ?_ ?_ ?_
    · rfl
    · rfl
    · rw [DiskManager.setFile_files, update_self, length]
      omega
    · rw [DiskManager.setFile_files, update_self, length]
      exact fits
  · constructor
    · simp
    · rw [path_, kept.path_eq]
    · rw [file]
      exact kept.linked
    · rw [file, DiskManager.persist_files, DiskManager.setFile_files, update_self, length]
    · exact fits
    · exact sorted
    · intro p member
      have less := (free p member).1
      omega
    · exact fun p member => (free p member).2
    · exact fun p member => live p (mem_cons.mp member)
    · exact List.nodup_cons.mpr ⟨fresh, kept.once⟩
    · rw [DiskManager.persist, path_, kept.path_eq]
      exact update_self ..

/-- `DeallocatePage` of a live page between two calls. Stopped before the allocator state is
replaced, it leaves a relation that opens unless the file was made shorter. -/
theorem Kept.deallocate (kept : Kept id path s h) {pageNo : Nat} (alive : pageNo ∈ s.live) :
    ∃ trimmed next, (deallocateStages id pageNo s.disk).stages = [trimmed, trimmed.persist next] ∧
      (pageNo + 1 = h.numPages → ∀ h', AllocatorCrashes.reopen path trimmed ≠ .ok h') ∧
      (pageNo + 1 ≠ h.numPages → OpensAgain path trimmed (· ∈ s.live)) ∧
      Kept id path ⟨trimmed.persist next, s.live.erase pageNo⟩ next := by
  have inFile := (kept.live pageNo alive).1
  have sortedFree := sorted_withFree kept.sorted pageNo
  obtain ⟨trimmed, isTrimmed⟩ :
      ∃ t, t = trim h.numPages (withFree h.freePages pageNo).reverse := ⟨_, rfl⟩
  have allIn : ∀ p ∈ (withFree h.freePages pageNo).reverse, p < h.numPages := by
    intro p member
    rcases mem_withFree.mp (mem_reverse.mp member) with rfl | old
    · exact inFile
    · exact kept.inFile p old
  have spec := trim_spec (List.pairwise_reverse.mpr sortedFree) allIn
  rw [← isTrimmed] at spec
  obtain ⟨suffix, le, inside, notLast, stay, unchanged⟩ := spec
  -- The loop trims exactly when the freed page is the last of the file.
  have unchanged_iff : trimmed.1 = h.numPages ↔ pageNo + 1 ≠ h.numPages := by
    rw [unchanged]
    constructor
    · exact fun all => all pageNo (mem_reverse.mpr (mem_withFree.mpr (.inl rfl)))
    · intro apart p member
      rcases mem_withFree.mp (mem_reverse.mp member) with rfl | old
      · exact apart
      · exact kept.trimmed p old
  let next : RelationHandle :=
    { h with numPages := trimmed.1, freePages := trimmed.2.reverse }
  obtain ⟨pages, ran, length⟩ : ∃ pages : List Page,
      trimTrailingFreePages id { h with freePages := withFree h.freePages pageNo } s.disk =
        (.ok next, (s.disk.setHandle id next).setFile h.file pages) ∧
      pages.length = trimmed.1 := by
    have long := kept.length
    have linked : s.disk.directory h.path = some h.file := by
      rw [kept.path_eq]
      exact kept.linked
    unfold trimTrailingFreePages
    simp only [← isTrimmed]
    split
    · rename_i same
      refine ⟨s.disk.files h.file, ?_, by rw [long, same]⟩
      simp [DiskManager.setFile, DiskManager.setHandle, next, same]
    · simp only [linked]
      refine ⟨_, rfl, ?_⟩
      simp only [List.length_append, List.length_take, List.length_replicate]
      omega
  let stage := (s.disk.setHandle id next).setFile h.file pages
  have stageLength : (stage.files h.file).length = trimmed.1 := by
    rw [DiskManager.setFile_files, update_self, length]
  refine ⟨stage, next, ?_, ?_, ?_, ?_⟩
  · simp only [deallocateStages, kept.isOpen, if_neg (Nat.not_le.mpr inFile), ran, stage]
  · intro last
    have shorter : trimmed.1 ≠ h.numPages := fun same => unchanged_iff.mp same last
    exact reopen_short kept.linked kept.saved (by rw [stageLength]; simp only; omega)
  · intro apart
    have same := unchanged_iff.mpr apart
    refine kept.reopen_longer ?_ ?_ ?_ ?_
    · rfl
    · rfl
    · rw [stageLength, same]
    · rw [stageLength, same]
      exact kept.fits
  · have fits := kept.fits
    constructor
    · simp [stage]
    · exact kept.path_eq
    · exact kept.linked
    · exact stageLength
    · simp only [next]
      omega
    · simp only [next]
      rw [List.pairwise_reverse]
      exact (List.pairwise_reverse.mpr sortedFree).sublist suffix.sublist
    · exact fun p member => inside p (mem_reverse.mp member)
    · exact fun p member => notLast p (mem_reverse.mp member)
    · intro p member
      obtain ⟨other, old⟩ := (kept.once.mem_erase_iff).mp member
      obtain ⟨below, notFree⟩ := kept.live p old
      have kept_ : p ∉ (withFree h.freePages pageNo).reverse := by
        rw [mem_reverse, mem_withFree, not_or]
        exact ⟨other, notFree⟩
      refine ⟨stay p below kept_, fun again => kept_ (suffix.subset ?_)⟩
      exact mem_reverse.mp again
    · exact kept.once.erase _
    · rw [DiskManager.persist]
      simp only [next, kept.path_eq]
      exact update_self ..

theorem Kept.step {call : Call} {s' : Allocator Page} (kept : Kept id path s h)
    (roomy : Roomy id s call) (taken : AllocatorCrashes.step id s call = some s') :
    ∃ h', Kept id path s' h' := by
  cases call with
  | allocatePage =>
    obtain ⟨written, result, stages, -, next⟩ := kept.allocate (roomy rfl h kept.isOpen)
    simp only [AllocatorCrashes.step, result, Staged.after, stages] at taken
    cases taken
    exact ⟨_, next⟩
  | deallocatePage pageNo =>
    simp only [AllocatorCrashes.step, Option.ite_none_right_eq_some] at taken
    obtain ⟨alive, taken⟩ := taken
    obtain ⟨trimmed, handle, stages, -, -, next⟩ := kept.deallocate alive
    simp only [Staged.after, stages] at taken
    cases taken
    exact ⟨_, next⟩

theorem kept_run {start : Allocator Page} {calls : List Call} (created : Created id path start)
    (run : Run (AllocatorCrashes.step id) (Roomy id) start calls s) : ∃ h, Kept id path s h :=
  run.invariant (fun s => ∃ h, Kept id path s h) (kept_created created)
    fun _ _ _ ⟨_, kept⟩ roomy taken => kept.step roomy taken

theorem Kept.consistent (kept : Kept id path s h) : Consistent id s := by
  constructor
  · intro h' isOpen pageNo member
    have same := Option.some.inj (kept.isOpen.symm.trans isOpen)
    subst same
    rw [kept.length]
    exact ⟨kept.inFile pageNo member, fun alive => (kept.live pageNo alive).2 member⟩
  · intro pageNo result alive
    simp only [allocateStages, kept.isOpen, Except.ok.injEq] at result
    subst result
    obtain ⟨below, notFree⟩ := kept.live _ alive
    unfold AllocatorCrashes.takePage at below notFree
    cases free : h.freePages with
    | nil =>
      rw [free] at below
      dsimp only at below
      omega
    | cons first rest =>
      rw [free] at notFree
      exact notFree mem_cons_self

theorem Kept.survives_iff (kept : Kept id path s h) {call : Call} {s' : Allocator Page}
    (roomy : Roomy id s call) (taken : AllocatorCrashes.step id s call = some s') {at_ : Nat}
    (inCall : at_ < (crashPoints id s.disk call).length) :
    Survives id path s call at_ ↔ ¬ BetweenResizeAndState id s.disk call at_ := by
  have before : OpensAgain path s.disk fun p => p ∈ s.live ∧ ¬ call.touches p :=
    ⟨_, kept.reopen, fun p alive => (kept.live p alive.1).2⟩
  have opens {d : DiskManager Page}
      (opened : OpensAgain path d fun p => p ∈ s.live ∧ ¬ call.touches p)
      (point : (crashPoints id s.disk call)[at_]? = some d) : Survives id path s call at_ := by
    intro d' point'
    rw [point] at point'
    cases point'
    exact opened
  cases call with
  | allocatePage =>
    obtain ⟨written, -, stages, opened, next⟩ := kept.allocate (roomy rfl h kept.isOpen)
    have never : ¬ BetweenResizeAndState id s.disk .allocatePage at_ := by
      intro between
      obtain ⟨-, _, _, -, other, -⟩ := between
      cases other
    refine iff_of_true ?_ never
    simp only [crashPoints, stages, List.length_cons, List.length_nil] at inCall
    have cases_ : at_ = 0 ∨ at_ = 1 ∨ at_ = 2 := by omega
    rcases cases_ with rfl | rfl | rfl
    · exact opens before rfl
    · refine opens ?_ (by rw [crashPoints, stages]; rfl)
      obtain ⟨h', reopened, notFree⟩ := opened
      exact ⟨h', reopened, fun p alive => notFree p alive.1⟩
    · refine opens ?_ (by rw [crashPoints, stages]; rfl)
      exact ⟨_, next.reopen, fun p alive => (next.live p (List.mem_cons_of_mem _ alive.1)).2⟩
  | deallocatePage pageNo =>
    simp only [AllocatorCrashes.step, Option.ite_none_right_eq_some] at taken
    obtain ⟨trimmed, handle, stages, shorter, opened, next⟩ := kept.deallocate taken.1
    simp only [crashPoints, stages, List.length_cons, List.length_nil] at inCall
    have cases_ : at_ = 0 ∨ at_ = 1 ∨ at_ = 2 := by omega
    have apart {n : Nat} (other : n ≠ 1) :
        ¬ BetweenResizeAndState id s.disk (.deallocatePage pageNo) n :=
      fun between => other between.1
    rcases cases_ with rfl | rfl | rfl
    · exact iff_of_true (opens before rfl) (apart (by decide))
    · have point : (crashPoints id s.disk (.deallocatePage pageNo))[1]? = some trimmed := by
        rw [crashPoints, stages]
        rfl
      constructor
      · intro survives between
        obtain ⟨-, h', _, isOpen, same, last⟩ := between
        cases same
        have sameHandle := Option.some.inj (kept.isOpen.symm.trans isOpen)
        rw [← sameHandle] at last
        obtain ⟨reopened, isReopened, -⟩ := survives trimmed point
        exact shorter last reopened isReopened
      · intro notBetween
        have notLast : pageNo + 1 ≠ h.numPages := fun last =>
          notBetween ⟨rfl, h, pageNo, kept.isOpen, rfl, last⟩
        obtain ⟨reopened, isReopened, notFree⟩ := opened notLast
        exact opens ⟨reopened, isReopened, fun p alive => notFree p alive.1⟩ point
    · refine iff_of_true (opens ?_ (by rw [crashPoints, stages]; rfl)) (apart (by decide))
      refine ⟨_, next.reopen, fun p alive => (next.live p ?_).2⟩
      exact (kept.once.mem_erase_iff).mpr ⟨fun same => alive.2 same, alive.1⟩

end Invariant

section Crashes

variable [Inhabited Page]

/-- While the file fits its page count, the allocator is consistent after every sequence of calls,
and survives a stop inside the next one unless that falls between the resize of the file and the
replacement of its state. -/
theorem survives_iff_notBetween {id : Nat} {path : String} {start s : Allocator Page}
    {calls : List Call} (created : Created id path start)
    (run : Run (step id) (Roomy id) start calls s) :
    Consistent id s ∧ ∀ call s', Roomy id s call → step id s call = some s' →
      ∀ at_ < (crashPoints id s.disk call).length,
        (Survives id path s call at_ ↔ ¬ BetweenResizeAndState id s.disk call at_) := by
  obtain ⟨h, kept⟩ := kept_run created run
  exact ⟨kept.consistent, fun _ _ roomy taken _ inCall => kept.survives_iff roomy taken inCall⟩

/-- A disk with no files, a relation created on it, and the same relation with one page. -/
def emptyDisk : DiskManager Unit where
  directory _ := none
  files _ := []
  nextFile := 0
  allocatorStates _ := none
  relations _ := none

def noPage : Allocator Unit := ⟨(createRelation 1 "t" emptyDisk).2, []⟩

def onePage : Allocator Unit := ⟨(allocateStages 1 noPage.disk).after, [0]⟩

private theorem created_noPage : Created 1 "t" noPage := by
  refine ⟨rfl, emptyDisk, ?_⟩
  rw [createRelation_ok]
  simp [noPage, createRelation_ok]

private theorem noPage_open : noPage.disk.relations 1 = some ⟨"t", 0, 0, []⟩ := by
  simp [noPage, createRelation_ok, emptyDisk]

private theorem step_onePage : step 1 noPage .allocatePage = some onePage := by
  have none_ : noPage.live = [] := rfl
  simp [step, onePage, allocateStages, noPage_open, takePage, none_]

private theorem roomy_noPage : Roomy 1 noPage .allocatePage := by
  intro _ h isOpen _
  rw [noPage_open] at isOpen
  cases isOpen
  decide

theorem survives_iff_notBetween_onePage :
    Consistent 1 onePage ∧ ∀ call s', Roomy 1 onePage call → step 1 onePage call = some s' →
      ∀ at_ < (crashPoints 1 onePage.disk call).length,
        (Survives 1 "t" onePage call at_ ↔ ¬ BetweenResizeAndState 1 onePage.disk call at_) :=
  survives_iff_notBetween created_noPage (.snoc .nil roomy_noPage step_onePage)

def AllocatorSurvives (Page : Type) [Inhabited Page] : Prop :=
  ∀ (id : Nat) (path : String) (start s : Allocator Page) (calls : List Call),
    Created id path start → Run (step id) (fun _ _ => True) start calls s →
      Consistent id s ∧ ∀ call s', step id s call = some s' →
        ∀ at_ < (crashPoints id s.disk call).length, Survives id path s call at_

private theorem cut_onePage :
    reopen "t" <$> (crashPoints 1 onePage.disk (.deallocatePage 0))[1]? =
      some (.error "Allocator state refers to more pages than exist on disk") := by
  rfl

/-- A process that frees the only page and stops after the resize leaves a state that names one page
and a file without pages: the relation does not open again. -/
theorem cut_between_resize_and_state : ¬ AllocatorSurvives Unit := by
  intro survives
  have run : Run (step 1) (fun _ _ => True) noPage ([] ++ [.allocatePage]) onePage :=
    .snoc .nil trivial step_onePage
  obtain ⟨-, everywhere⟩ := survives 1 "t" noPage onePage _ created_noPage run
  cases freed : step 1 onePage (.deallocatePage 0) with
  | none => cases freed
  | some s' =>
    have stages : 1 < (crashPoints 1 onePage.disk (.deallocatePage 0)).length := by decide
    have survived := everywhere _ s' freed 1 stages
    have refused := cut_onePage
    cases point : (crashPoints 1 onePage.disk (.deallocatePage 0))[1]? with
    | none =>
      rw [point] at refused
      cases refused
    | some d =>
      obtain ⟨h, opened, -⟩ := survived d point
      rw [point, Option.map_eq_map, Option.map_some, opened] at refused
      cases refused

end Crashes

end GraniteDb.Storage.AllocatorCrashes
