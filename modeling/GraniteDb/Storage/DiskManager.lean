/- Relation files behind paths, the handles open on them, and their page operations. -/

import GraniteDb.Common.Types
import Mathlib.Data.List.Sort
import Mathlib.Logic.Function.Basic

set_option linter.dupNamespace false

namespace GraniteDb.Storage.DiskManager

open Common.Types
open Function (update_of_ne update_self)

section Model

/-- What `SerializeFreeList` writes. -/
structure AllocatorState where
  numPages : Nat
  freePages : List Nat
  deriving DecidableEq

/-- `RelationHandle`. The stream stays on the file it was opened on, whatever becomes of the
path. -/
structure RelationHandle where
  path : String
  file : Nat
  numPages : Nat
  freePages : List Nat
  deriving DecidableEq

def buildAllocatorStatePath (path : String) : String := path ++ ".freelist"

/-- The database directory with the open relations. Paths lead to files, and files are lists
of pages. -/
structure DiskManager (Page : Type) where
  directory : String → Option Nat
  files : Nat → List Page
  nextFile : Nat
  allocatorStates : String → Option AllocatorState
  relations : Nat → Option RelationHandle

variable {Page : Type}

abbrev DiskAction (Page α : Type) := DiskManager Page → Except String α × DiskManager Page

variable [Inhabited Page] in
/-- Write one page of a file; what the file did not have before it is zero. -/
def setPage (pages : List Page) (pageNo : Nat) (page : Page) : List Page :=
  (pages ++ List.replicate (pageNo + 1 - pages.length) default).set pageNo page

def DiskManager.getNumPages (d : DiskManager Page) (id : Nat) : Except String Nat :=
  match d.relations id with
  | none => .error "Relation is not open"
  | some h => .ok h.numPages

def DiskManager.persist (d : DiskManager Page) (h : RelationHandle) : DiskManager Page :=
  { d with
    allocatorStates := Function.update d.allocatorStates (buildAllocatorStatePath h.path)
      (some ⟨h.numPages, h.freePages⟩) }

def DiskManager.setHandle (d : DiskManager Page) (id : Nat) (h : RelationHandle) :
    DiskManager Page :=
  { d with relations := Function.update d.relations id (some h) }

def DiskManager.setFile (d : DiskManager Page) (file : Nat) (pages : List Page) :
    DiskManager Page :=
  { d with files := Function.update d.files file pages }

@[simp] theorem DiskManager.setHandle_relations (d : DiskManager Page) (id : Nat)
    (h : RelationHandle) : (d.setHandle id h).relations = Function.update d.relations id (some h) :=
  rfl

@[simp] theorem DiskManager.setHandle_directory (d : DiskManager Page) (id : Nat)
    (h : RelationHandle) : (d.setHandle id h).directory = d.directory := rfl

@[simp] theorem DiskManager.setHandle_nextFile (d : DiskManager Page) (id : Nat)
    (h : RelationHandle) : (d.setHandle id h).nextFile = d.nextFile := rfl

@[simp] theorem DiskManager.setHandle_files (d : DiskManager Page) (id : Nat)
    (h : RelationHandle) : (d.setHandle id h).files = d.files := rfl

@[simp] theorem DiskManager.setFile_relations (d : DiskManager Page) (file : Nat)
    (pages : List Page) : (d.setFile file pages).relations = d.relations := rfl

@[simp] theorem DiskManager.setFile_directory (d : DiskManager Page) (file : Nat)
    (pages : List Page) : (d.setFile file pages).directory = d.directory := rfl

@[simp] theorem DiskManager.setFile_nextFile (d : DiskManager Page) (file : Nat)
    (pages : List Page) : (d.setFile file pages).nextFile = d.nextFile := rfl

@[simp] theorem DiskManager.setFile_files (d : DiskManager Page) (file : Nat)
    (pages : List Page) : (d.setFile file pages).files = Function.update d.files file pages := rfl

@[simp] theorem DiskManager.persist_relations (d : DiskManager Page) (h : RelationHandle) :
    (d.persist h).relations = d.relations := rfl

@[simp] theorem DiskManager.persist_directory (d : DiskManager Page) (h : RelationHandle) :
    (d.persist h).directory = d.directory := rfl

@[simp] theorem DiskManager.persist_nextFile (d : DiskManager Page) (h : RelationHandle) :
    (d.persist h).nextFile = d.nextFile := rfl

@[simp] theorem DiskManager.persist_files (d : DiskManager Page) (h : RelationHandle) :
    (d.persist h).files = d.files := rfl

/-- `LoadAllocatorState`: the free pages of a relation with `numPages` pages. -/
def loadAllocatorState (state : Option AllocatorState) (numPages : Nat) :
    Except String (List Nat) :=
  match state with
  | none => .ok []
  | some state =>
    if numPages < state.numPages then
      .error "Allocator state refers to more pages than exist on disk"
    else if state.freePages.any fun pageNo => numPages ≤ pageNo then
      .error "Allocator state contains out-of-range free page"
    else .ok state.freePages

def openRelation (id : Nat) (path : String) : DiskAction Page Unit := fun d =>
  match d.directory path with
  | none => (.error ("Failed to open relation file: " ++ path), d)
  | some file =>
    match loadAllocatorState (d.allocatorStates (buildAllocatorStatePath path))
        (d.files file).length with
    | .error what => (.error what, d)
    | .ok freePages => (.ok (), d.setHandle id ⟨path, file, (d.files file).length, freePages⟩)

/-- The truncation of `CreateRelation`: a path that leads to a file keeps it, without pages. -/
def truncateFile (path : String) (d : DiskManager Page) : DiskManager Page :=
  let file := (d.directory path).getD d.nextFile
  { d with
    directory := Function.update d.directory path (some file)
    files := Function.update d.files file []
    nextFile := max d.nextFile (file + 1)
    allocatorStates := Function.update d.allocatorStates (buildAllocatorStatePath path)
      (some ⟨0, []⟩) }

def createRelation (id : Nat) (path : String) : DiskAction Page Unit := fun d =>
  openRelation id path (truncateFile path d)

def destroyRelation (id : Nat) (d : DiskManager Page) : DiskManager Page :=
  match d.relations id with
  | none => d
  | some h =>
    { d with
      directory := Function.update d.directory h.path none
      allocatorStates := Function.update d.allocatorStates (buildAllocatorStatePath h.path) none
      relations := Function.update d.relations id none }

variable [Inhabited Page] in
/-- `AllocatePage`: the lowest free page, or one more. -/
def allocatePage (id : Nat) : DiskAction Page Nat := fun d =>
  match d.relations id with
  | none => (.error "Relation is not open", d)
  | some h =>
    match h.freePages with
    | pageNo :: freePages =>
      let h := { h with freePages := freePages }
      (.ok pageNo, ((d.setHandle id h).setFile h.file
        (setPage (d.files h.file) pageNo default)).persist h)
    | [] =>
      let next := { h with numPages := h.numPages + 1 }
      (.ok h.numPages, ((d.setHandle id next).setFile h.file
        (setPage (d.files h.file) h.numPages default)).persist next)

/-- The loop of `TrimTrailingFreePages`, over the free pages from the last one. -/
def trim : Nat → List Nat → Nat × List Nat
  | numPages, [] => (numPages, [])
  | numPages, last :: rest =>
    if last + 1 = numPages then trim (numPages - 1) rest else (numPages, last :: rest)

variable [Inhabited Page] in
/-- `TrimTrailingFreePages`. It resizes the file that the path leads to now. -/
def trimTrailingFreePages (id : Nat) (h : RelationHandle) : DiskAction Page RelationHandle :=
  fun d =>
  let trimmed := trim h.numPages h.freePages.reverse
  let h' := { h with numPages := trimmed.1, freePages := trimmed.2.reverse }
  if trimmed.1 = h.numPages then (.ok h', d.setHandle id h')
  else
    match d.directory h.path with
    | none => (.error "resize_file", d.setHandle id h')
    | some file =>
      let h' := { h' with file := file }
      let pages := d.files file
      (.ok h', (d.setHandle id h').setFile file
        (pages.take trimmed.1 ++ List.replicate (trimmed.1 - pages.length) default))

variable [Inhabited Page] in
def deallocatePage (pageId : PageId) : DiskAction Page Unit := fun d =>
  match d.relations pageId.relationId with
  | none => (.error "Relation is not open", d)
  | some h =>
    if h.numPages ≤ pageId.pageNo then (.error "DeallocatePage: page does not exist", d)
    else
      let freePages :=
        if pageId.pageNo ∈ h.freePages then h.freePages
        else h.freePages.orderedInsert (· ≤ ·) pageId.pageNo
      match trimTrailingFreePages pageId.relationId { h with freePages := freePages } d with
      | (.error what, d) => (.error what, d)
      | (.ok h, d) => (.ok (), d.persist h)

def DiskManager.readPage (d : DiskManager Page) (pageId : PageId) : Except String Page :=
  match d.relations pageId.relationId with
  | none => .error "Relation is not open"
  | some h =>
    if h.numPages ≤ pageId.pageNo then .error "ReadPage: page does not exist"
    else
      match (d.files h.file)[pageId.pageNo]? with
      | none => .error "ReadPage: failed to read full page"
      | some page => .ok page

variable [Inhabited Page] in
/-- `WritePage` and the `Sync` that follows it. -/
def writePage (pageId : PageId) (page : Page) : DiskAction Page Unit := fun d =>
  match d.relations pageId.relationId with
  | none => (.error "Relation is not open", d)
  | some h =>
    if h.numPages ≤ pageId.pageNo then (.error "WritePage: page does not exist", d)
    else (.ok (), (d.setFile h.file (setPage (d.files h.file) pageId.pageNo page)).persist h)

end Model

section Layout

variable {Page : Type} {d d' : DiskManager Page}

/-- Every open relation is open on the file of its path, and on no other relation's path. -/
structure Layout (d : DiskManager Page) : Prop where
  linked : ∀ id h, d.relations id = some h → d.directory h.path = some h.file
  apart : ∀ id id' h h', d.relations id = some h → d.relations id' = some h' →
    h.path = h'.path → id = id'
  single : ∀ path path' file, d.directory path = some file → d.directory path' = some file →
    path = path'
  known : ∀ path file, d.directory path = some file → file < d.nextFile

structure Spares (id : Nat) (d d' : DiskManager Page) : Prop where
  relations : d'.relations id = d.relations id
  directory : ∀ h, d.relations id = some h → d'.directory h.path = d.directory h.path
  files : ∀ h, d.relations id = some h → d'.files h.file = d.files h.file

theorem Spares.refl (id : Nat) (d : DiskManager Page) : Spares id d d :=
  ⟨rfl, fun _ _ => rfl, fun _ _ => rfl⟩

variable {id : Nat}

theorem Layout.file_ne (layout : Layout d) {id' : Nat} {h h' : RelationHandle}
    (isOpen : d.relations id = some h) (isOpen' : d.relations id' = some h') (other : id' ≠ id) :
    h'.file ≠ h.file := by
  intro same
  have path := layout.single _ _ _ (layout.linked id h isOpen)
    (same ▸ layout.linked id' h' isOpen')
  exact other (layout.apart id' id h' h isOpen' isOpen path.symm)

variable [Inhabited Page] in
theorem length_setPage (pages : List Page) (pageNo : Nat) (page : Page) :
    (setPage pages pageNo page).length = max pages.length (pageNo + 1) := by
  simp only [setPage, List.length_set, List.length_append, List.length_replicate]
  omega

variable [Inhabited Page] in
theorem getElem?_setPage {pages : List Page} {pageNo : Nat} (inFile : pageNo < pages.length)
    (page : Page) (i : Nat) :
    (setPage pages pageNo page)[i]? = if pageNo = i then some page else pages[i]? := by
  have none_ : pageNo + 1 - pages.length = 0 := by omega
  rw [setPage, none_, List.replicate_zero, List.append_nil, List.getElem?_set]
  simp [inFile]

structure Touches (id : Nat) (d d' : DiskManager Page) : Prop where
  directory : d'.directory = d.directory
  nextFile : d'.nextFile = d.nextFile
  relations : ∀ other, other ≠ id → d'.relations other = d.relations other
  files : ∀ file, (∀ h, d.relations id = some h → file ≠ h.file) → d'.files file = d.files file
  handle : ∀ h', d'.relations id = some h' → ∃ h, d.relations id = some h ∧ h'.path = h.path ∧
    h'.file = h.file

theorem Touches.refl (id : Nat) (d : DiskManager Page) : Touches id d d :=
  ⟨rfl, rfl, fun _ _ => rfl, fun _ _ => rfl, fun h' isOpen => ⟨h', isOpen, rfl, rfl⟩⟩

theorem Touches.layout (touches : Touches id d d') (layout : Layout d) : Layout d' := by
  have old (other : Nat) (h' : RelationHandle) (isOpen : d'.relations other = some h') :
      ∃ h, d.relations other = some h ∧ h'.path = h.path ∧ h'.file = h.file := by
    by_cases here : other = id
    · subst here
      exact touches.handle h' isOpen
    · rw [touches.relations other here] at isOpen
      exact ⟨h', isOpen, rfl, rfl⟩
  constructor
  · intro other h' isOpen
    obtain ⟨h, before, path, file⟩ := old other h' isOpen
    rw [touches.directory, path, file]
    exact layout.linked other h before
  · intro first second h₁ h₂ open₁ open₂ samePath
    obtain ⟨h, before, path, _⟩ := old first h₁ open₁
    obtain ⟨h', before', path', _⟩ := old second h₂ open₂
    exact layout.apart first second h h' before before' (path ▸ path' ▸ samePath)
  · rw [touches.directory]
    exact layout.single
  · rw [touches.directory, touches.nextFile]
    exact layout.known

theorem Touches.spares {other : Nat} (touches : Touches id d d') (layout : Layout d)
    (apart : other ≠ id) : Spares other d d' where
  relations := touches.relations other apart
  directory h isOpen := by rw [touches.directory]
  files h isOpen := touches.files h.file fun h' isOpen' =>
    layout.file_ne isOpen' isOpen apart

variable [Inhabited Page] in
theorem allocatePage_touches {r : Except String Nat} (ran : allocatePage id d = (r, d')) :
    Touches id d d' := by
  unfold allocatePage at ran
  split at ran
  · cases ran
    exact .refl id d
  · rename_i h isOpen
    split at ran
    all_goals
      cases ran
      refine ⟨rfl, rfl, fun other apart => update_of_ne apart _ _, fun file apart =>
        update_of_ne (apart h isOpen) _ _, fun h' isOpen' => ?_⟩
      simp only [DiskManager.persist_relations, DiskManager.setFile_relations,
        DiskManager.setHandle_relations, update_self, Option.some.injEq] at isOpen'
      subst isOpen'
      exact ⟨h, isOpen, rfl, rfl⟩

variable [Inhabited Page] in
theorem writePage_touches {pageId : PageId} {page : Page} {r : Except String Unit}
    (ran : writePage pageId page d = (r, d')) : Touches pageId.relationId d d' := by
  unfold writePage at ran
  split at ran
  · cases ran
    exact .refl _ d
  · rename_i h isOpen
    split at ran
    · cases ran
      exact .refl _ d
    · cases ran
      exact ⟨rfl, rfl, fun _ _ => rfl, fun file apart =>
        update_of_ne (apart h isOpen) _ _, fun h' isOpen' => ⟨h', isOpen', rfl, rfl⟩⟩

variable [Inhabited Page] in
theorem trimTrailingFreePages_touches {old h : RelationHandle} {r : Except String RelationHandle}
    (isOpen : d.relations id = some old) (path : h.path = old.path) (file : h.file = old.file)
    (linked : d.directory old.path = some old.file) (ran : trimTrailingFreePages id h d = (r, d')) :
    Touches id d d' := by
  unfold trimTrailingFreePages at ran
  rw [path, linked] at ran
  simp only at ran
  split at ran
  · cases ran
    refine ⟨rfl, rfl, fun other apart => update_of_ne apart _ _, fun _ _ => rfl,
      fun h' isOpen' => ?_⟩
    simp only [DiskManager.setHandle_relations, update_self,
      Option.some.injEq] at isOpen'
    subst isOpen'
    exact ⟨old, isOpen, rfl, file⟩
  · cases ran
    refine ⟨rfl, rfl, fun other apart => update_of_ne apart _ _, fun file apart =>
      update_of_ne (apart old isOpen) _ _, fun h' isOpen' => ?_⟩
    simp only [DiskManager.setFile_relations, DiskManager.setHandle_relations,
      update_self, Option.some.injEq] at isOpen'
    subst isOpen'
    exact ⟨old, isOpen, rfl, rfl⟩

variable [Inhabited Page] in
theorem deallocatePage_touches {pageId : PageId} {r : Except String Unit} (layout : Layout d)
    (ran : deallocatePage pageId d = (r, d')) : Touches pageId.relationId d d' := by
  unfold deallocatePage at ran
  split at ran
  · cases ran
    exact .refl _ d
  · rename_i h isOpen
    split at ran
    · cases ran
      exact .refl _ d
    · generalize (if pageId.pageNo ∈ h.freePages then h.freePages
        else h.freePages.orderedInsert (· ≤ ·) pageId.pageNo) = freePages at ran
      rcases trimmed : trimTrailingFreePages pageId.relationId { h with freePages := freePages } d
        with ⟨_ | h', m⟩
      all_goals
        have touches : Touches pageId.relationId d m :=
          trimTrailingFreePages_touches isOpen (by rfl) (by rfl) (layout.linked _ _ isOpen) trimmed
        simp only [trimmed] at ran
        cases ran
        exact ⟨touches.directory, touches.nextFile, touches.relations, touches.files,
          touches.handle⟩

end Layout

section Relations

variable {Page : Type} {d d' : DiskManager Page}

theorem createRelation_ok (id : Nat) (path : String) (d : DiskManager Page) :
    createRelation id path d = (.ok (), (truncateFile path d).setHandle id
      ⟨path, (d.directory path).getD d.nextFile, 0, []⟩) := by
  simp [createRelation, openRelation, truncateFile, loadAllocatorState]

variable {id : Nat}

theorem createRelation_layout (layout : Layout d) {path : String}
    (free : ∀ id h, d.relations id = some h → h.path ≠ path) :
    Layout ((truncateFile path d).setHandle id
      ⟨path, (d.directory path).getD d.nextFile, 0, []⟩) := by
  have fresh (path' : String) (file : Nat) (leads : d.directory path' = some file)
      (same : file = (d.directory path).getD d.nextFile) : path' = path := by
    cases leads' : d.directory path with
    | none =>
      rw [leads'] at same
      have known := layout.known path' file leads
      simp only [Option.getD_none] at same
      omega
    | some file' =>
      rw [leads'] at same
      exact layout.single path' path file leads (leads'.trans (congrArg some same.symm))
  constructor
  · intro other h isOpen
    simp only [DiskManager.setHandle_relations, DiskManager.setHandle_directory,
      truncateFile] at isOpen ⊢
    by_cases here : other = id
    · subst here
      rw [update_self] at isOpen
      cases isOpen
      rw [update_self]
    · rw [update_of_ne here] at isOpen
      rw [update_of_ne (free other h isOpen)]
      exact layout.linked other h isOpen
  · intro first second h h' isOpen isOpen' samePath
    simp only [DiskManager.setHandle_relations, truncateFile] at isOpen isOpen'
    by_cases here : first = id
    · by_cases here' : second = id
      · rw [here, here']
      · rw [update_of_ne here'] at isOpen'
        subst here
        rw [update_self] at isOpen
        cases isOpen
        exact absurd samePath.symm (free second h' isOpen')
    · rw [update_of_ne here] at isOpen
      by_cases here' : second = id
      · subst here'
        rw [update_self] at isOpen'
        cases isOpen'
        exact absurd samePath (free first h isOpen)
      · rw [update_of_ne here'] at isOpen'
        exact layout.apart first second h h' isOpen isOpen' samePath
  · intro first second file leads leads'
    simp only [DiskManager.setHandle_directory, truncateFile] at leads leads'
    by_cases here : first = path
    · by_cases here' : second = path
      · rw [here, here']
      · rw [update_of_ne here'] at leads'
        subst here
        rw [update_self] at leads
        exact (fresh second file leads' (Option.some.inj leads).symm).symm
    · rw [update_of_ne here] at leads
      by_cases here' : second = path
      · subst here'
        rw [update_self] at leads'
        exact fresh first file leads (Option.some.inj leads').symm
      · rw [update_of_ne here'] at leads'
        exact layout.single first second file leads leads'
  · intro path' file leads
    simp only [DiskManager.setHandle_directory, DiskManager.setHandle_nextFile,
      truncateFile] at leads ⊢
    by_cases here : path' = path
    · subst here
      rw [update_self] at leads
      cases leads
      omega
    · rw [update_of_ne here] at leads
      have known := layout.known path' file leads
      omega

theorem createRelation_spares (layout : Layout d) {other : Nat} {path : String}
    (free : ∀ id h, d.relations id = some h → h.path ≠ path) (apart : other ≠ id) :
    Spares other d ((truncateFile path d).setHandle id
      ⟨path, (d.directory path).getD d.nextFile, 0, []⟩) where
  relations := update_of_ne apart _ _
  directory h isOpen := update_of_ne (free other h isOpen) _ _
  files h isOpen := by
    refine update_of_ne ?_ _ _
    intro same
    cases leads : d.directory path with
    | none =>
      have known := layout.known _ _ (layout.linked other h isOpen)
      rw [leads, Option.getD_none] at same
      omega
    | some file =>
      rw [leads, Option.getD_some] at same
      exact free other h isOpen (layout.single _ _ file
        ((layout.linked other h isOpen).trans (congrArg some same)) leads)

theorem destroyRelation_spares (layout : Layout d) {other : Nat} (apart : other ≠ id) :
    Spares other d (destroyRelation id d) := by
  unfold destroyRelation
  split
  · exact .refl other d
  · rename_i h isOpen
    refine ⟨update_of_ne apart _ _, fun h' isOpen' => ?_, fun _ _ => rfl⟩
    refine update_of_ne ?_ _ _
    intro same
    exact apart (layout.apart other id h' h isOpen' isOpen same)

theorem destroyRelation_layout (layout : Layout d) (id : Nat) : Layout (destroyRelation id d) := by
  unfold destroyRelation
  split
  · exact layout
  · rename_i h isOpen
    have before {path : String} {file : Nat}
        (leads : Function.update d.directory h.path none path = some file) :
        d.directory path = some file := by
      by_cases here : path = h.path
      · subst here
        rw [update_self] at leads
        cases leads
      · rw [update_of_ne here] at leads
        exact leads
    have wasOpen {other : Nat} {g : RelationHandle}
        (isOpen' : Function.update d.relations id none other = some g) :
        other ≠ id ∧ d.relations other = some g := by
      by_cases here : other = id
      · subst here
        rw [update_self] at isOpen'
        cases isOpen'
      · rw [update_of_ne here] at isOpen'
        exact ⟨here, isOpen'⟩
    constructor
    · intro other g isOpen'
      obtain ⟨apart, isOpen'⟩ := wasOpen isOpen'
      refine (update_of_ne ?_ _ _).trans (layout.linked other g isOpen')
      intro same
      exact apart (layout.apart other id g h isOpen' isOpen same)
    · intro first second g g' isOpen₁ isOpen₂
      exact layout.apart first second g g' (wasOpen isOpen₁).2 (wasOpen isOpen₂).2
    · intro first second file leads leads'
      exact layout.single first second file (before leads) (before leads')
    · intro path file leads
      exact layout.known path file (before leads)

def SamePaths (d d' : DiskManager Page) : Prop :=
  ∀ id, (d'.relations id).map RelationHandle.path = (d.relations id).map RelationHandle.path

theorem samePaths_of_handle {h h' : RelationHandle} (isOpen : d.relations id = some h)
    (relations : d'.relations = Function.update d.relations id (some h'))
    (path : h'.path = h.path) :
    SamePaths d d' := by
  intro other
  rw [relations]
  by_cases here : other = id
  · subst here
    rw [update_self, isOpen, Option.map_some, Option.map_some, path]
  · rw [update_of_ne here]

variable [Inhabited Page] in
theorem allocatePage_samePaths {r : Except String Nat} (ran : allocatePage id d = (r, d')) :
    SamePaths d d' := by
  unfold allocatePage at ran
  split at ran
  · cases ran
    exact fun _ => rfl
  · rename_i h isOpen
    split at ran
    all_goals
      cases ran
      exact samePaths_of_handle isOpen rfl rfl

variable [Inhabited Page] in
theorem writePage_relations {pageId : PageId} {page : Page} {r : Except String Unit}
    (ran : writePage pageId page d = (r, d')) : d'.relations = d.relations := by
  unfold writePage at ran
  split at ran
  · cases ran
    rfl
  · split at ran
    all_goals
      cases ran
      rfl

variable [Inhabited Page] in
theorem deallocatePage_samePaths {pageId : PageId} {r : Except String Unit}
    (ran : deallocatePage pageId d = (r, d')) : SamePaths d d' := by
  unfold deallocatePage at ran
  split at ran
  · cases ran
    exact fun _ => rfl
  · rename_i h isOpen
    split at ran
    · cases ran
      exact fun _ => rfl
    · generalize (if pageId.pageNo ∈ h.freePages then h.freePages
        else h.freePages.orderedInsert (· ≤ ·) pageId.pageNo) = freePages at ran
      have kept {r : Except String RelationHandle} {m : DiskManager Page}
          (trimmed : trimTrailingFreePages pageId.relationId { h with freePages := freePages } d =
            (r, m)) : SamePaths d m := by
        unfold trimTrailingFreePages at trimmed
        simp only at trimmed
        split at trimmed
        · cases trimmed
          exact samePaths_of_handle isOpen rfl rfl
        · split at trimmed
          all_goals
            cases trimmed
            exact samePaths_of_handle isOpen rfl rfl
      rcases trimmed : trimTrailingFreePages pageId.relationId { h with freePages := freePages } d
        with ⟨_ | h', m⟩
      all_goals
        have same := kept trimmed
        simp only [trimmed] at ran
        cases ran
        exact same

end Relations

end GraniteDb.Storage.DiskManager
