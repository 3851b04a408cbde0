/- Pages in frames over the disk manager, and what their traffic leaves alone. -/

import GraniteDb.Storage.DiskManager

namespace GraniteDb.Buffer.PageFrames

open Common.Types Storage.DiskManager
open Function (update_self update_of_ne)

section Model

structure Frame (Page : Type) where
  page : Page
  isDirty : Bool
  pinCount : Nat
  deriving DecidableEq

/-- The frames by the page they hold, over the disk. The clock counts the frames asked for. -/
structure BufferPool (Page : Type) where
  disk : DiskManager Page
  frames : PageId → Option (Frame Page)
  clock : Nat

variable {Page : Type}

abbrev PoolAction (Page α : Type) := BufferPool Page → Except String α × BufferPool Page

def BufferPool.setFrame (s : BufferPool Page) (pageId : PageId) (frame : Option (Frame Page)) :
    BufferPool Page :=
  { s with frames := Function.update s.frames pageId frame }

@[simp] theorem BufferPool.setFrame_disk (s : BufferPool Page) (pageId : PageId)
    (frame : Option (Frame Page)) : (s.setFrame pageId frame).disk = s.disk := rfl

@[simp] theorem BufferPool.setFrame_frames (s : BufferPool Page) (pageId : PageId)
    (frame : Option (Frame Page)) :
    (s.setFrame pageId frame).frames = Function.update s.frames pageId frame := rfl

variable [Inhabited Page] (victim : Nat → Option PageId)

/-- `FlushFrame`, of the frame of a page. -/
def flushFrame (pageId : PageId) (frame : Frame Page) : PoolAction Page Unit := fun s =>
  if frame.isDirty then
    match writePage pageId frame.page s.disk with
    | (.error what, disk) => (.error what, { s with disk := disk })
    | (.ok _, disk) =>
      (.ok (), { s with disk := disk }.setFrame pageId (some { frame with isDirty := false }))
  else (.ok (), s)

/-- `PrepareFrame`: a free frame, or that of a victim, which is flushed and dropped. -/
def prepareFrame : PoolAction Page Unit := fun s =>
  let s' := { s with clock := s.clock + 1 }
  match victim s.clock with
  | none => (.ok (), s')
  | some pageId =>
    match s.frames pageId with
    | none => (.ok (), s')
    | some frame =>
      if 0 < frame.pinCount then (.ok (), s')
      else
        match flushFrame pageId frame s' with
        | (.error what, s') => (.error what, s')
        | (.ok _, s') => (.ok (), s'.setFrame pageId none)

/-- `FetchPage`, with the exception its callers throw when it returns no page. -/
def fetchPage (pageId : PageId) : PoolAction Page Unit := fun s =>
  match s.frames pageId with
  | some frame =>
    (.ok (), s.setFrame pageId (some { frame with pinCount := frame.pinCount + 1 }))
  | none =>
    match s.disk.getNumPages pageId.relationId with
    | .error what => (.error what, s)
    | .ok numPages =>
      if numPages ≤ pageId.pageNo then (.error "Failed to fetch page", s)
      else
        match prepareFrame victim s with
        | (.error what, s) => (.error what, s)
        | (.ok _, s) =>
          match s.disk.readPage pageId with
          | .error what => (.error what, s)
          | .ok page => (.ok (), s.setFrame pageId (some ⟨page, false, 1⟩))

def newPage (id : Nat) : PoolAction Page Nat := fun s =>
  match prepareFrame victim s with
  | (.error what, s) => (.error what, s)
  | (.ok _, s) =>
    match allocatePage id s.disk with
    | (.error what, disk) => (.error what, { s with disk := disk })
    | (.ok pageNo, disk) =>
      (.ok pageNo, { s with disk := disk }.setFrame ⟨id, pageNo⟩ (some ⟨default, false, 1⟩))

omit [Inhabited Page] in
def writeFrame (pageId : PageId) (page : Page) (s : BufferPool Page) : BufferPool Page :=
  match s.frames pageId with
  | none => s
  | some frame =>
    if 0 < frame.pinCount then s.setFrame pageId (some { frame with page := page }) else s

omit [Inhabited Page] in
def unpinPage (pageId : PageId) (isDirty : Bool) (s : BufferPool Page) : BufferPool Page :=
  match s.frames pageId with
  | none => s
  | some frame =>
    if frame.pinCount = 0 then s
    else s.setFrame pageId (some
      { frame with pinCount := frame.pinCount - 1, isDirty := frame.isDirty || isDirty })

def deletePage (pageId : PageId) : PoolAction Page Bool := fun s =>
  match s.frames pageId with
  | some frame =>
    if 0 < frame.pinCount then (.ok false, s)
    else
      match deallocatePage pageId s.disk with
      | (.error what, disk) => (.error what, { s with disk := disk }.setFrame pageId none)
      | (.ok _, disk) => (.ok true, { s with disk := disk }.setFrame pageId none)
  | none =>
    match deallocatePage pageId s.disk with
    | (.error what, disk) => (.error what, { s with disk := disk })
    | (.ok _, disk) => (.ok true, { s with disk := disk })

/-- What the code of an index asks of the pool, on the pages of the index. -/
inductive PageCall (Page : Type)
  | fetch (pageNo : Nat)
  | new
  | write (pageNo : Nat) (page : Page)
  | unpin (pageNo : Nat) (isDirty : Bool)

def PageCall.run (id : Nat) : PageCall Page → PoolAction Page Unit
  | .fetch pageNo, s => fetchPage victim ⟨id, pageNo⟩ s
  | .new, s => (newPage victim id s).map (.map fun _ => ()) fun s => s
  | .write pageNo page, s => (.ok (), writeFrame ⟨id, pageNo⟩ page s)
  | .unpin pageNo isDirty, s => (.ok (), unpinPage ⟨id, pageNo⟩ isDirty s)

def runCalls (id : Nat) : List (PageCall Page) → PoolAction Page Unit
  | [], s => (.ok (), s)
  | call :: rest, s =>
    match call.run victim id s with
    | (.error what, s) => (.error what, s)
    | (.ok _, s) => runCalls id rest s

end Model

section View

variable {Page : Type} {s s' : BufferPool Page}

def view (s : BufferPool Page) (id pageNo : Nat) : Option Page :=
  match s.frames ⟨id, pageNo⟩ with
  | some frame => some frame.page
  | none => ((s.disk.relations id).bind fun h =>
    if pageNo < h.numPages then (s.disk.files h.file)[pageNo]? else none)

/-- The pages of a relation are in its file, and its clean frames hold what the file holds. -/
structure Stored (id : Nat) (s : BufferPool Page) : Prop where
  inFile : ∀ h, s.disk.relations id = some h → h.numPages ≤ (s.disk.files h.file).length
  inRange : ∀ pageNo frame, s.frames ⟨id, pageNo⟩ = some frame →
    ∃ h, s.disk.relations id = some h ∧ pageNo < h.numPages
  clean : ∀ pageNo frame, s.frames ⟨id, pageNo⟩ = some frame → frame.isDirty = false →
    ∀ h, s.disk.relations id = some h → (s.disk.files h.file)[pageNo]? = some frame.page

structure Keeps (id : Nat) (s s' : BufferPool Page) : Prop where
  relations : s'.disk.relations id = s.disk.relations id
  directory : ∀ h, s.disk.relations id = some h →
    s'.disk.directory h.path = s.disk.directory h.path
  view : ∀ pageNo, view s' id pageNo = view s id pageNo

structure Isolated (id : Nat) (s s' : BufferPool Page) : Prop where
  layout : Layout s'.disk
  stored : Stored id s'
  keeps : Keeps id s s'

theorem Isolated.trans {id : Nat} {m : BufferPool Page} (first : Isolated id s m)
    (second : Isolated id m s') : Isolated id s s' where
  layout := second.layout
  stored := second.stored
  keeps :=
    { relations := second.keeps.relations.trans first.keeps.relations
      directory := fun h isOpen =>
        (second.keeps.directory h (first.keeps.relations.trans isOpen)).trans
          (first.keeps.directory h isOpen)
      view := fun pageNo => (second.keeps.view pageNo).trans (first.keeps.view pageNo) }

theorem isolated_of_spares {id : Nat} (layout : Layout s'.disk) (stored : Stored id s)
    (spares : Spares id s.disk s'.disk)
    (frames : ∀ pageNo, s'.frames ⟨id, pageNo⟩ = s.frames ⟨id, pageNo⟩) : Isolated id s s' where
  layout := layout
  stored :=
    { inFile := fun h isOpen => by
        have before := spares.relations ▸ isOpen
        rw [spares.files h before]
        exact stored.inFile h before
      inRange := fun pageNo frame held => by
        rw [spares.relations]
        exact stored.inRange pageNo frame (frames pageNo ▸ held)
      clean := fun pageNo frame held isClean h isOpen => by
        have before := spares.relations ▸ isOpen
        rw [spares.files h before]
        exact stored.clean pageNo frame (frames pageNo ▸ held) isClean h before }
  keeps :=
    { relations := spares.relations
      directory := spares.directory
      view := fun pageNo => by
        unfold view
        rw [frames, spares.relations]
        cases isOpen : s.disk.relations id with
        | none => rfl
        | some h => simp only [Option.bind_some, spares.files h isOpen] }

end View

section Isolation

variable {Page : Type} [Inhabited Page] {victim : Nat → Option PageId} {s s' : BufferPool Page}
  {id : Nat}

omit [Inhabited Page] in
theorem Isolated.refl (layout : Layout s.disk) (stored : Stored id s) : Isolated id s s :=
  isolated_of_spares layout stored (.refl id s.disk) fun _ => rfl

omit [Inhabited Page] in
theorem Isolated.tick (layout : Layout s.disk) (stored : Stored id s) :
    Isolated id s { s with clock := s.clock + 1 } :=
  isolated_of_spares layout stored (.refl id s.disk) fun _ => rfl

variable {pageId : PageId} {r : Except String Unit}

omit [Inhabited Page] in
theorem isolated_setFrame (layout : Layout s.disk) (stored : Stored id s)
    (other : pageId.relationId ≠ id) (frame : Option (Frame Page)) :
    Isolated id s (s.setFrame pageId frame) := by
  refine isolated_of_spares layout stored (.refl id s.disk) fun pageNo => ?_
  refine update_of_ne ?_ _ _
  rintro rfl
  exact other rfl

theorem flushFrame_isolated (layout : Layout s.disk) (stored : Stored id s) {frame : Frame Page}
    (held : s.frames pageId = some frame) (ran : flushFrame pageId frame s = (r, s')) :
    Isolated id s s' ∧ (r = .ok () → s'.frames pageId = some { frame with isDirty := false }) := by
  unfold flushFrame at ran
  split at ran
  rotate_left
  · rename_i isClean
    cases ran
    refine ⟨.refl layout stored, fun _ => ?_⟩
    rw [held]
    simp only [Bool.not_eq_true] at isClean
    rw [← isClean]
  by_cases own : pageId.relationId = id
  · obtain ⟨relationId, pageNo⟩ := pageId
    simp only at own
    subst own
    obtain ⟨h, isOpen, inRange⟩ := stored.inRange pageNo frame held
    have length := stored.inFile h isOpen
    have written : writePage ⟨relationId, pageNo⟩ frame.page s.disk =
        (.ok (), (s.disk.setFile h.file
          (setPage (s.disk.files h.file) pageNo frame.page)).persist h) := by
      unfold writePage
      simp only [isOpen]
      rw [if_neg (by omega)]
    simp only [written] at ran
    cases ran
    have touches := writePage_touches written
    have inFile (i : Nat) : (setPage (s.disk.files h.file) pageNo frame.page)[i]? =
        if pageNo = i then some frame.page else (s.disk.files h.file)[i]? :=
      getElem?_setPage (by omega) frame.page i
    refine ⟨⟨touches.layout layout, ⟨?_, ?_, ?_⟩, ⟨rfl, fun _ _ => rfl, ?_⟩⟩, fun _ =>
      update_self _ _ _⟩
    · intro h' isOpen'
      have same := Option.some.inj (isOpen.symm.trans isOpen')
      subst same
      simp only [BufferPool.setFrame_disk, DiskManager.persist_files, DiskManager.setFile_files,
        update_self, length_setPage]
      omega
    · intro i held' isHeld
      by_cases here : i = pageNo
      · subst here
        exact ⟨h, isOpen, inRange⟩
      · have before : s.frames ⟨relationId, i⟩ = some held' := by
          rw [← isHeld]
          exact (update_of_ne (fun same => here (PageId.mk.inj same).2) _ _).symm
        exact stored.inRange i held' before
    · intro i held' isHeld isClean h' isOpen'
      have same := Option.some.inj (isOpen.symm.trans isOpen')
      subst same
      simp only [BufferPool.setFrame_disk, DiskManager.persist_files, DiskManager.setFile_files,
        update_self, inFile]
      by_cases here : i = pageNo
      · subst here
        rw [BufferPool.setFrame_frames, update_self] at isHeld
        cases isHeld
        simp
      · rw [if_neg (Ne.symm here)]
        have before : s.frames ⟨relationId, i⟩ = some held' := by
          rw [← isHeld]
          exact (update_of_ne (fun same => here (PageId.mk.inj same).2) _ _).symm
        exact stored.clean i held' before isClean h isOpen
    · intro i
      unfold view
      by_cases here : i = pageNo
      · subst here
        simp [BufferPool.setFrame, held]
      · have frames : (BufferPool.setFrame { s with disk := (s.disk.setFile h.file
            (setPage (s.disk.files h.file) pageNo frame.page)).persist h } ⟨relationId, pageNo⟩
            (some { frame with isDirty := false })).frames ⟨relationId, i⟩ =
            s.frames ⟨relationId, i⟩ :=
          update_of_ne (fun same => here (PageId.mk.inj same).2) _ _
        rw [frames]
        cases s.frames ⟨relationId, i⟩ with
        | some _ => rfl
        | none =>
          simp only [BufferPool.setFrame, DiskManager.persist_relations,
            DiskManager.setFile_relations, isOpen, Option.bind_some,
            DiskManager.persist_files, DiskManager.setFile_files, update_self, inFile]
          rw [if_neg (Ne.symm here)]
  · rcases written : writePage pageId frame.page s.disk with ⟨_ | _, disk⟩
    all_goals
      have touches := writePage_touches written
      simp only [written] at ran
      cases ran
    · exact ⟨isolated_of_spares (touches.layout layout) stored
        (touches.spares layout (Ne.symm own)) fun _ => rfl, by simp⟩
    · refine ⟨isolated_of_spares (touches.layout layout) stored
        (touches.spares layout (Ne.symm own)) fun pageNo => ?_, fun _ => update_self _ _ _⟩
      refine update_of_ne ?_ _ _
      rintro rfl
      exact own rfl

omit [Inhabited Page] in
theorem isolated_drop (layout : Layout s.disk) (stored : Stored id s) {frame : Frame Page}
    (held : s.frames pageId = some frame) (isClean : frame.isDirty = false) :
    Isolated id s (s.setFrame pageId none) := by
  by_cases own : pageId.relationId = id
  · obtain ⟨relationId, pageNo⟩ := pageId
    simp only at own
    subst own
    obtain ⟨h, isOpen, inRange⟩ := stored.inRange pageNo frame held
    have before (i : Nat) (held' : Frame Page)
        (isHeld : (s.setFrame ⟨relationId, pageNo⟩ none).frames ⟨relationId, i⟩ = some held') :
        s.frames ⟨relationId, i⟩ = some held' := by
      by_cases here : i = pageNo
      · subst here
        rw [BufferPool.setFrame_frames, update_self] at isHeld
        cases isHeld
      · rw [← isHeld]
        exact (update_of_ne (fun same => here (PageId.mk.inj same).2) _ _).symm
    refine ⟨layout, ⟨stored.inFile, fun i held' isHeld =>
      stored.inRange i held' (before i held' isHeld),
      fun i held' isHeld => stored.clean i held' (before i held' isHeld)⟩,
      ⟨rfl, fun _ _ => rfl, fun i => ?_⟩⟩
    by_cases here : i = pageNo
    · subst here
      have inFile := stored.clean i frame held isClean h isOpen
      simp [view, BufferPool.setFrame, held, isOpen, inRange, inFile]
    · have frames : (s.setFrame ⟨relationId, pageNo⟩ none).frames ⟨relationId, i⟩ =
          s.frames ⟨relationId, i⟩ :=
        update_of_ne (fun same => here (PageId.mk.inj same).2) _ _
      unfold view
      rw [frames]
      rfl
  · exact isolated_setFrame layout stored own none

theorem prepareFrame_isolated (layout : Layout s.disk) (stored : Stored id s)
    (ran : prepareFrame victim s = (r, s')) : Isolated id s s' := by
  have tick := Isolated.tick layout stored
  unfold prepareFrame at ran
  simp only at ran
  split at ran
  · cases ran
    exact tick
  · rename_i pageId _
    split at ran
    · cases ran
      exact tick
    · rename_i frame held
      split at ran
      · cases ran
        exact tick
      · rcases flushed : flushFrame pageId frame { s with clock := s.clock + 1 } with ⟨_ | _, m⟩
        all_goals
          obtain ⟨isolated, kept⟩ := flushFrame_isolated tick.layout tick.stored held flushed
          simp only [flushed] at ran
          cases ran
        · exact tick.trans isolated
        · exact (tick.trans isolated).trans
            (isolated_drop isolated.layout isolated.stored (kept rfl) rfl)

theorem fetchPage_isolated (layout : Layout s.disk) (stored : Stored id s)
    (other : pageId.relationId ≠ id) (ran : fetchPage victim pageId s = (r, s')) :
    Isolated id s s' := by
  unfold fetchPage at ran
  split at ran
  · cases ran
    exact isolated_setFrame layout stored other _
  · split at ran
    · cases ran
      exact .refl layout stored
    · split at ran
      · cases ran
        exact .refl layout stored
      · rcases prepared : prepareFrame victim s with ⟨_ | _, m⟩
        all_goals
          have isolated := prepareFrame_isolated layout stored prepared
          simp only [prepared] at ran
        · cases ran
          exact isolated
        · split at ran
          · cases ran
            exact isolated
          · cases ran
            exact isolated.trans (isolated_setFrame isolated.layout isolated.stored other _)

theorem newPage_isolated (layout : Layout s.disk) (stored : Stored id s) {new : Nat}
    (other : new ≠ id) {r : Except String Nat} (ran : newPage victim new s = (r, s')) :
    Isolated id s s' := by
  unfold newPage at ran
  rcases prepared : prepareFrame victim s with ⟨_ | _, m⟩
  all_goals
    have isolated := prepareFrame_isolated layout stored prepared
    simp only [prepared] at ran
  · cases ran
    exact isolated
  · rcases allocated : allocatePage new m.disk with ⟨_ | pageNo, disk⟩
    all_goals
      have touches := allocatePage_touches allocated
      have grown : Isolated id m { m with disk := disk } :=
        isolated_of_spares (touches.layout isolated.layout) isolated.stored
          (touches.spares isolated.layout other.symm) fun _ => rfl
      simp only [allocated] at ran
      cases ran
    · exact isolated.trans grown
    · exact (isolated.trans grown).trans (isolated_setFrame grown.layout grown.stored other _)

omit [Inhabited Page] in
theorem writeFrame_isolated (layout : Layout s.disk) (stored : Stored id s)
    (other : pageId.relationId ≠ id) (page : Page) :
    Isolated id s (writeFrame pageId page s) := by
  unfold writeFrame
  split
  · exact .refl layout stored
  · split
    · exact isolated_setFrame layout stored other _
    · exact .refl layout stored

omit [Inhabited Page] in
theorem unpinPage_isolated (layout : Layout s.disk) (stored : Stored id s)
    (other : pageId.relationId ≠ id) (isDirty : Bool) :
    Isolated id s (unpinPage pageId isDirty s) := by
  unfold unpinPage
  split
  · exact .refl layout stored
  · split
    · exact .refl layout stored
    · exact isolated_setFrame layout stored other _

theorem deletePage_isolated (layout : Layout s.disk) (stored : Stored id s)
    (other : pageId.relationId ≠ id) {r : Except String Bool} (ran : deletePage pageId s = (r, s')) :
    Isolated id s s' := by
  have deallocated {r : Except String Unit} {disk : DiskManager Page}
      (freed : deallocatePage pageId s.disk = (r, disk)) :
      Isolated id s { s with disk := disk } := by
    have touches := deallocatePage_touches layout freed
    exact isolated_of_spares (touches.layout layout) stored (touches.spares layout other.symm)
      fun _ => rfl
  unfold deletePage at ran
  split at ran
  · split at ran
    · cases ran
      exact .refl layout stored
    · rcases freed : deallocatePage pageId s.disk with ⟨_ | _, disk⟩
      all_goals
        have isolated := deallocated freed
        simp only [freed] at ran
        cases ran
        exact isolated.trans (isolated_setFrame isolated.layout isolated.stored other none)
  · rcases freed : deallocatePage pageId s.disk with ⟨_ | _, disk⟩
    all_goals
      simp only [freed] at ran
      cases ran
      exact deallocated freed

theorem runCalls_preserves {P : BufferPool Page → Prop} {new : Nat}
    (fetches : ∀ {s m : BufferPool Page} {r : Except String Unit} (pageNo : Nat), P s →
      fetchPage victim ⟨new, pageNo⟩ s = (r, m) → P m)
    (grows : ∀ {s m : BufferPool Page} {r : Except String Nat}, P s →
      newPage victim new s = (r, m) → P m)
    (writes : ∀ {s : BufferPool Page} (pageNo : Nat) (page : Page), P s →
      P (writeFrame ⟨new, pageNo⟩ page s))
    (unpins : ∀ {s : BufferPool Page} (pageNo : Nat) (isDirty : Bool), P s →
      P (unpinPage ⟨new, pageNo⟩ isDirty s))
    (calls : List (PageCall Page)) (holds : P s) (ran : runCalls victim new calls s = (r, s')) :
    P s' := by
  induction calls generalizing s with
  | nil =>
    cases ran
    exact holds
  | cons call rest ih =>
    unfold runCalls at ran
    have one {r : Except String Unit} {m : BufferPool Page}
        (called : call.run victim new s = (r, m)) : P m := by
      cases call with
      | fetch pageNo => exact fetches pageNo holds called
      | new =>
        rcases grown : newPage victim new s with ⟨r', m'⟩
        rw [PageCall.run, grown] at called
        cases called
        exact grows holds grown
      | write pageNo page =>
        cases called
        exact writes pageNo page holds
      | unpin pageNo isDirty =>
        cases called
        exact unpins pageNo isDirty holds
    rcases called : call.run victim new s with ⟨_ | _, m⟩
    all_goals
      have kept := one called
      simp only [called] at ran
    · cases ran
      exact kept
    · exact ih kept ran

theorem runCalls_isolated {new : Nat} (other : new ≠ id) (calls : List (PageCall Page))
    (layout : Layout s.disk) (stored : Stored id s) (ran : runCalls victim new calls s = (r, s')) :
    Isolated id s s' := by
  refine runCalls_preserves (P := Isolated id s) ?_ ?_ ?_ ?_ calls (.refl layout stored) ran
  · exact fun _ kept called =>
      kept.trans (fetchPage_isolated kept.layout kept.stored other called)
  · exact fun kept called => kept.trans (newPage_isolated kept.layout kept.stored other called)
  · exact fun _ page kept => kept.trans (writeFrame_isolated kept.layout kept.stored other page)
  · exact fun _ isDirty kept =>
      kept.trans (unpinPage_isolated kept.layout kept.stored other isDirty)

end Isolation

section Traffic

variable {Page : Type} [Inhabited Page] {victim : Nat → Option PageId} {s s' : BufferPool Page}

variable {r : Except String Unit} {pageId : PageId}

theorem flushFrame_relations {frame : Frame Page} (ran : flushFrame pageId frame s = (r, s')) :
    s'.disk.relations = s.disk.relations := by
  unfold flushFrame at ran
  split at ran
  · rcases written : writePage pageId frame.page s.disk with ⟨_ | _, disk⟩
    all_goals
      simp only [written] at ran
      cases ran
      exact writePage_relations written
  · cases ran
    rfl

theorem prepareFrame_relations (ran : prepareFrame victim s = (r, s')) :
    s'.disk.relations = s.disk.relations := by
  unfold prepareFrame at ran
  simp only at ran
  split at ran
  · cases ran
    rfl
  · rename_i pageId _
    split at ran
    · cases ran
      rfl
    · rename_i frame _
      split at ran
      · cases ran
        rfl
      · rcases flushed : flushFrame pageId frame { s with clock := s.clock + 1 } with ⟨_ | _, m⟩
        all_goals
          have same := flushFrame_relations flushed
          simp only [flushed] at ran
          cases ran
          exact same

theorem fetchPage_relations (ran : fetchPage victim pageId s = (r, s')) :
    s'.disk.relations = s.disk.relations := by
  unfold fetchPage at ran
  split at ran
  · cases ran
    rfl
  · split at ran
    · cases ran
      rfl
    · split at ran
      · cases ran
        rfl
      · rcases prepared : prepareFrame victim s with ⟨_ | _, m⟩
        all_goals
          have same := prepareFrame_relations prepared
          simp only [prepared] at ran
        · cases ran
          exact same
        · split at ran
          all_goals
            cases ran
            exact same

omit [Inhabited Page] in
theorem writeFrame_disk (pageId : PageId) (page : Page) (s : BufferPool Page) :
    (writeFrame pageId page s).disk = s.disk := by
  unfold writeFrame
  split
  · rfl
  · split <;> rfl

omit [Inhabited Page] in
theorem unpinPage_disk (pageId : PageId) (isDirty : Bool) (s : BufferPool Page) :
    (unpinPage pageId isDirty s).disk = s.disk := by
  unfold unpinPage
  split
  · rfl
  · split <;> rfl

theorem newPage_samePaths {id : Nat} {r : Except String Nat} (ran : newPage victim id s = (r, s')) :
    SamePaths s.disk s'.disk := by
  unfold newPage at ran
  rcases prepared : prepareFrame victim s with ⟨_ | _, m⟩
  all_goals
    have same := prepareFrame_relations prepared
    simp only [prepared] at ran
  · cases ran
    intro other
    rw [same]
  · rcases allocated : allocatePage id m.disk with ⟨_ | pageNo, disk⟩
    all_goals
      have grown := allocatePage_samePaths allocated
      simp only [allocated] at ran
      cases ran
      intro other
      exact (grown other).trans (by rw [same])

theorem runCalls_samePaths {id : Nat} (calls : List (PageCall Page))
    (ran : runCalls victim id calls s = (r, s')) : SamePaths s.disk s'.disk := by
  refine runCalls_preserves (P := fun m => SamePaths s.disk m.disk) ?_ ?_ ?_ ?_ calls
    (fun _ => rfl) ran
  · intro m m' r pageNo same called other
    rw [fetchPage_relations called, same]
  · intro m m' r same called other
    rw [newPage_samePaths called, same]
  · intro m pageNo page same other
    rw [writeFrame_disk, same]
  · intro m pageNo isDirty same other
    rw [unpinPage_disk, same]

theorem deletePage_samePaths {r : Except String Bool} (ran : deletePage pageId s = (r, s')) :
    SamePaths s.disk s'.disk := by
  unfold deletePage at ran
  split at ran
  · split at ran
    · cases ran
      exact fun _ => rfl
    · rcases freed : deallocatePage pageId s.disk with ⟨_ | _, disk⟩
      all_goals
        have same := deallocatePage_samePaths freed
        simp only [freed] at ran
        cases ran
        exact same
  · rcases freed : deallocatePage pageId s.disk with ⟨_ | _, disk⟩
    all_goals
      have same := deallocatePage_samePaths freed
      simp only [freed] at ran
      cases ran
      exact same

end Traffic

section Reading

variable {Page : Type} [Inhabited Page] {victim : Nat → Option PageId} {s s' : BufferPool Page}

/-- Every page of an open relation is in its file, and every frame is of such a page. -/
structure Readable (s : BufferPool Page) : Prop where
  inFile : ∀ id h, s.disk.relations id = some h → h.numPages ≤ (s.disk.files h.file).length
  isFree : ∀ id h, s.disk.relations id = some h → ∀ pageNo ∈ h.freePages, pageNo < h.numPages
  inRange : ∀ pageId frame, s.frames pageId = some frame →
    ∃ h, s.disk.relations pageId.relationId = some h ∧ pageId.pageNo < h.numPages

variable {h : RelationHandle} {pageId : PageId} {id : Nat}

omit [Inhabited Page] in
theorem Readable.setFrame (readable : Readable s)
    (isOpen : s.disk.relations pageId.relationId = some h) (inRange : pageId.pageNo < h.numPages)
    (frame : Option (Frame Page)) : Readable (s.setFrame pageId frame) where
  inFile := readable.inFile
  isFree := readable.isFree
  inRange := by
    intro pageId' frame' held
    by_cases here : pageId' = pageId
    · subst here
      exact ⟨h, isOpen, inRange⟩
    · rw [BufferPool.setFrame_frames, update_of_ne here] at held
      exact readable.inRange pageId' frame' held

omit [Inhabited Page] in
theorem Readable.setHeld (readable : Readable s) {frame : Frame Page}
    (held : s.frames pageId = some frame) (frame' : Option (Frame Page)) :
    Readable (s.setFrame pageId frame') := by
  obtain ⟨h, isOpen, inRange⟩ := readable.inRange pageId frame held
  exact readable.setFrame isOpen inRange frame'

theorem Readable.length_setFile (readable : Readable s) {h' : RelationHandle}
    (isOpen : s.disk.relations id = some h') (pageNo : Nat) (page : Page) :
    h'.numPages ≤ (Function.update s.disk.files h.file
      (setPage (s.disk.files h.file) pageNo page) h'.file).length := by
  have before := readable.inFile id h' isOpen
  by_cases same : h'.file = h.file
  · rw [same, update_self, length_setPage]
    rw [same] at before
    omega
  · rw [update_of_ne same]
    exact before

theorem flushFrame_readable (readable : Readable s) {frame : Frame Page}
    (held : s.frames pageId = some frame) :
    ∃ m, flushFrame pageId frame s = (.ok (), m) ∧ Readable m ∧
      m.frames pageId = some { frame with isDirty := false } := by
  unfold flushFrame
  split
  · obtain ⟨h, isOpen, inRange⟩ := readable.inRange pageId frame held
    have written : writePage pageId frame.page s.disk = (.ok (), (s.disk.setFile h.file
        (setPage (s.disk.files h.file) pageId.pageNo frame.page)).persist h) := by
      unfold writePage
      simp only [isOpen]
      rw [if_neg (by omega)]
    rw [written]
    have after : Readable { s with disk := (s.disk.setFile h.file
        (setPage (s.disk.files h.file) pageId.pageNo frame.page)).persist h } :=
      ⟨fun id h' isOpen' => readable.length_setFile isOpen' _ _, readable.isFree, readable.inRange⟩
    exact ⟨_, rfl, after.setFrame isOpen inRange _, update_self _ _ _⟩
  · rename_i isClean
    refine ⟨s, rfl, readable, ?_⟩
    rw [held]
    simp only [Bool.not_eq_true] at isClean
    rw [← isClean]

theorem prepareFrame_readable (victim : Nat → Option PageId) (readable : Readable s) :
    ∃ m, prepareFrame victim s = (.ok (), m) ∧ Readable m := by
  have tick : Readable { s with clock := s.clock + 1 } :=
    ⟨readable.inFile, readable.isFree, readable.inRange⟩
  unfold prepareFrame
  simp only
  split
  · exact ⟨_, rfl, tick⟩
  · rename_i pageId _
    split
    · exact ⟨_, rfl, tick⟩
    · rename_i frame held
      split
      · exact ⟨_, rfl, tick⟩
      · obtain ⟨m, flushed, readable', held'⟩ := flushFrame_readable tick held
        rw [flushed]
        exact ⟨_, rfl, readable'.setHeld held' none⟩

theorem fetchPage_readable (readable : Readable s) {r : Except String Unit}
    (ran : fetchPage victim pageId s = (r, s')) :
    Readable s' ∧ ∀ h, s.disk.relations pageId.relationId = some h → pageId.pageNo < h.numPages →
      r = .ok () := by
  unfold fetchPage at ran
  split at ran
  · rename_i held
    cases ran
    exact ⟨readable.setHeld held _, fun _ _ _ => rfl⟩
  · split at ran
    · rename_i unknown
      cases ran
      refine ⟨readable, fun h isOpen => ?_⟩
      rw [DiskManager.getNumPages, isOpen] at unknown
      cases unknown
    · rename_i numPages known
      split at ran
      · rename_i outside
        cases ran
        refine ⟨readable, fun h isOpen inRange => ?_⟩
        rw [DiskManager.getNumPages, isOpen] at known
        cases known
        omega
      · rename_i inside
        obtain ⟨m, prepared, readable'⟩ := prepareFrame_readable victim readable
        have relations := prepareFrame_relations prepared
        cases isOpen : s.disk.relations pageId.relationId with
        | none =>
          rw [DiskManager.getNumPages, isOpen] at known
          cases known
        | some h =>
          rw [DiskManager.getNumPages, isOpen] at known
          cases known
          have isOpen' : m.disk.relations pageId.relationId = some h := by
            rw [relations, isOpen]
          have inRange : pageId.pageNo < h.numPages := by omega
          have inFile := readable'.inFile pageId.relationId h isOpen'
          have read : m.disk.readPage pageId = .ok (m.disk.files h.file)[pageId.pageNo] := by
            unfold DiskManager.readPage
            simp only [isOpen']
            rw [if_neg (by omega), List.getElem?_eq_getElem (by omega)]
          simp only [prepared, read] at ran
          cases ran
          exact ⟨readable'.setFrame isOpen' inRange _, fun _ _ _ => rfl⟩

theorem allocatePage_readable {r : Except String Nat} {disk : DiskManager Page}
    (readable : Readable s) (ran : allocatePage id s.disk = (r, disk)) :
    Readable { s with disk := disk } ∧ ∀ pageNo, r = .ok pageNo →
      ∃ h, disk.relations id = some h ∧ pageNo < h.numPages := by
  have grown (h h' : RelationHandle) {pageNo : Nat} (isOpen : s.disk.relations id = some h)
      (file : h'.file = h.file) (more : h.numPages ≤ h'.numPages)
      (inFile : h'.numPages ≤ (setPage (s.disk.files h.file) pageNo (default : Page)).length)
      (isFree : ∀ pageNo ∈ h'.freePages, pageNo < h'.numPages) :
      Readable { s with disk := ((s.disk.setHandle id h').setFile h.file
        (setPage (s.disk.files h.file) pageNo default)).persist h' } := by
    refine ⟨fun other g isOpen' => ?_, fun other g isOpen' => ?_, fun pageId frame held => ?_⟩
    · simp only [DiskManager.persist_relations, DiskManager.setFile_relations,
        DiskManager.setHandle_relations, DiskManager.persist_files, DiskManager.setFile_files,
        DiskManager.setHandle_files] at isOpen' ⊢
      by_cases here : other = id
      · subst here
        rw [update_self] at isOpen'
        cases isOpen'
        rw [file, update_self]
        exact inFile
      · rw [update_of_ne here] at isOpen'
        exact readable.length_setFile isOpen' _ _
    · simp only [DiskManager.persist_relations, DiskManager.setFile_relations,
        DiskManager.setHandle_relations] at isOpen'
      by_cases here : other = id
      · subst here
        rw [update_self] at isOpen'
        cases isOpen'
        exact isFree
      · rw [update_of_ne here] at isOpen'
        exact readable.isFree other g isOpen'
    · obtain ⟨g, isOpen', inRange⟩ := readable.inRange pageId frame held
      simp only [DiskManager.persist_relations, DiskManager.setFile_relations,
        DiskManager.setHandle_relations]
      by_cases here : pageId.relationId = id
      · rw [here] at isOpen'
        rw [isOpen] at isOpen'
        cases isOpen'
        rw [here, update_self]
        exact ⟨h', rfl, by omega⟩
      · rw [update_of_ne here]
        exact ⟨g, isOpen', inRange⟩
  unfold allocatePage at ran
  split at ran
  · cases ran
    exact ⟨readable, by simp⟩
  · rename_i h isOpen
    have before := readable.inFile id h isOpen
    have isFree := readable.isFree id h isOpen
    split at ran
    · rename_i pageNo rest free
      cases ran
      rw [free] at isFree
      refine ⟨grown h { h with freePages := rest } isOpen rfl le_rfl ?_ fun p member =>
        isFree p (List.mem_cons_of_mem _ member), ?_⟩
      · rw [length_setPage]
        show h.numPages ≤ _
        omega
      · rintro _ ⟨⟩
        exact ⟨_, update_self _ _ _, isFree pageNo List.mem_cons_self⟩
    · rename_i free
      cases ran
      refine ⟨grown h { h with numPages := h.numPages + 1 } isOpen rfl (Nat.le_succ _) ?_ ?_, ?_⟩
      · rw [length_setPage]
        show h.numPages + 1 ≤ _
        omega
      · intro p member
        have inRange := isFree p member
        show p < h.numPages + 1
        omega
      · rintro _ ⟨⟩
        exact ⟨_, update_self _ _ _, Nat.lt_succ_self _⟩

theorem newPage_readable {r : Except String Nat} (readable : Readable s)
    (ran : newPage victim id s = (r, s')) : Readable s' := by
  obtain ⟨m, prepared, readable'⟩ := prepareFrame_readable victim readable
  unfold newPage at ran
  simp only [prepared] at ran
  rcases allocated : allocatePage id m.disk with ⟨_ | pageNo, disk⟩
  all_goals
    obtain ⟨after, inRange⟩ := allocatePage_readable readable' allocated
    simp only [allocated] at ran
    cases ran
  · exact after
  · obtain ⟨h, isOpen, inRange⟩ := inRange pageNo rfl
    have isOpen' : disk.relations (⟨id, pageNo⟩ : PageId).relationId = some h := isOpen
    exact after.setFrame isOpen' inRange _

theorem runCalls_readable (calls : List (PageCall Page)) {r : Except String Unit}
    (readable : Readable s) (ran : runCalls victim id calls s = (r, s')) : Readable s' := by
  refine runCalls_preserves (P := Readable) ?_ newPage_readable ?_ ?_ calls readable ran
  · exact fun _ readable called => (fetchPage_readable readable called).1
  · intro m pageNo page readable
    unfold writeFrame
    split
    · exact readable
    · rename_i held
      split
      · exact readable.setHeld held _
      · exact readable
  · intro m pageNo isDirty readable
    unfold unpinPage
    split
    · exact readable
    · rename_i held
      split
      · exact readable
      · exact readable.setHeld held _

def scanCalls (pageNos : List Nat) : List (PageCall Page) :=
  pageNos.flatMap fun pageNo => [.fetch pageNo, .unpin pageNo false]

theorem scanCalls_ok (victim : Nat → Option PageId) {pageNos : List Nat} (readable : Readable s)
    (isOpen : s.disk.relations id = some h) (inRange : ∀ pageNo ∈ pageNos, pageNo < h.numPages) :
    ∃ m, runCalls victim id (scanCalls pageNos) s = (.ok (), m) := by
  induction pageNos generalizing s with
  | nil => exact ⟨s, rfl⟩
  | cons pageNo rest ih =>
    rcases fetched : fetchPage victim ⟨id, pageNo⟩ s with ⟨r, m⟩
    obtain ⟨readable', ok⟩ := fetchPage_readable readable fetched
    have relations := fetchPage_relations fetched
    obtain rfl := ok h isOpen (inRange pageNo List.mem_cons_self)
    rcases unpinned : runCalls victim id [.unpin pageNo false] m with ⟨r', m'⟩
    have after := runCalls_readable _ readable' unpinned
    simp only [runCalls, PageCall.run] at unpinned
    cases unpinned
    have still : (unpinPage ⟨id, pageNo⟩ false m).disk.relations id = some h := by
      rw [unpinPage_disk, relations, isOpen]
    obtain ⟨last, ran⟩ := ih after still fun p member => inRange p (List.mem_cons_of_mem _ member)
    refine ⟨last, ?_⟩
    simp only [scanCalls, List.flatMap_cons, List.cons_append, List.nil_append, runCalls,
      PageCall.run, fetched]
    exact ran

end Reading

end GraniteDb.Buffer.PageFrames
