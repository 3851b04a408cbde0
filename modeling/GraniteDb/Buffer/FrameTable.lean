/- The buffer pool as the code keeps it: frames, page table, dirty-page table and clock. -/

import GraniteDb.Storage.LivePages

namespace GraniteDb.Buffer.FrameTable

open Common.Types Storage.DiskManager
open Function (update)

section Model

structure FrameDesc where
  pageId : PageId
  isDirty : Bool
  isValid : Bool
  pinCount : Nat
  usageCount : Nat
  deriving DecidableEq

def FrameDesc.reset : FrameDesc := ⟨⟨0, 0⟩, false, false, 0, 0⟩

def maxUsageCount : Nat := 5

def recordAccess (frame : FrameDesc) : FrameDesc :=
  if frame.usageCount < maxUsageCount then { frame with usageCount := frame.usageCount + 1 }
  else frame

/-- A `BufferPoolManager`. The vectors `pages_` and `frame_table_` have `poolSize` places. The
log, which `FlushFrame` flushes first, holds no page and is left out here. -/
structure BufferPoolManager (Page : Type) where
  poolSize : Nat
  disk : DiskManager Page
  pages : Nat → Page
  frameTable : Nat → FrameDesc
  pageTable : PageId → Option Nat
  dirtyPageTable : PageId → Option Nat
  clockHand : Nat

variable {Page : Type}

/-- The result of a call, or the text of its exception, with the pool after it. -/
abbrev PoolCall (Page α : Type) :=
  BufferPoolManager Page → Except String α × BufferPoolManager Page

def BufferPoolManager.new [Inhabited Page] (poolSize : Nat) (disk : DiskManager Page) :
    BufferPoolManager Page where
  poolSize := poolSize
  disk := disk
  pages _ := default
  frameTable _ := .reset
  pageTable _ := none
  dirtyPageTable _ := none
  clockHand := 0

def BufferPoolManager.setFrame (s : BufferPoolManager Page) (frameId : Nat) (frame : FrameDesc) :
    BufferPoolManager Page :=
  { s with frameTable := update s.frameTable frameId frame }

/-- The loop of `ClockReplacer::Victim`, with the steps it has left: the victim, the hand and
the frames, whose usage counts it lowers. -/
def victimLoop (poolSize : Nat) :
    Nat → Nat → (Nat → FrameDesc) → Option Nat × Nat × (Nat → FrameDesc)
  | 0, hand, frames => (none, hand, frames)
  | steps + 1, hand, frames =>
    let frame := frames hand
    let next := (hand + 1) % poolSize
    if frame.isValid = false then (some hand, next, frames)
    else if 0 < frame.pinCount then victimLoop poolSize steps next frames
    else if frame.usageCount = 0 then (some hand, next, frames)
    else victimLoop poolSize steps next
      (update frames hand { frame with usageCount := frame.usageCount - 1 })

def BufferPoolManager.victim (s : BufferPoolManager Page) :
    Option Nat × BufferPoolManager Page :=
  if s.poolSize = 0 then (none, s)
  else
    let (found, hand, frames) :=
      victimLoop s.poolSize (s.poolSize * (maxUsageCount + 2)) s.clockHand s.frameTable
    (found, { s with clockHand := hand, frameTable := frames })

variable [Inhabited Page]

def flushFrame (frameId : Nat) : PoolCall Page Unit := fun s =>
  let frame := s.frameTable frameId
  if frame.isValid && frame.isDirty then
    match writePage frame.pageId (s.pages frameId) s.disk with
    | (.error what, disk) => (.error what, { s with disk := disk })
    | (.ok _, disk) =>
      (.ok (), { s with
        disk := disk
        frameTable := update s.frameTable frameId { frame with isDirty := false }
        dirtyPageTable := update s.dirtyPageTable frame.pageId none })
  else (.ok (), s)

/-- `PrepareFrame` after the victim is chosen: it is flushed and dropped. -/
def takeFrame (victim : Nat) : PoolCall Page Unit := fun s =>
  let clear (s : BufferPoolManager Page) : BufferPoolManager Page :=
    { s with
      pages := update s.pages victim default
      frameTable := update s.frameTable victim .reset }
  if (s.frameTable victim).isValid then
    match flushFrame victim s with
    | (.error what, s) => (.error what, s)
    | (.ok _, s) =>
      (.ok (), clear { s with
        pageTable := update s.pageTable (s.frameTable victim).pageId none })
  else (.ok (), clear s)

def prepareFrame : PoolCall Page (Option Nat) := fun s =>
  match s.victim with
  | (none, s) => (.ok none, s)
  | (some victim, s) =>
    match takeFrame victim s with
    | (.error what, s) => (.error what, s)
    | (.ok _, s) => (.ok (some victim), s)

omit [Inhabited Page] in
def BufferPoolManager.install (s : BufferPoolManager Page) (frameId : Nat) (pageId : PageId)
    (page : Page) : BufferPoolManager Page :=
  { s with
    pages := update s.pages frameId page
    frameTable := update s.frameTable frameId
      (recordAccess ⟨pageId, false, true, 1, 0⟩)
    pageTable := update s.pageTable pageId (some frameId) }

/-- `FetchPage`: the frame of the page, or none for a null pointer. -/
def fetchPage (pageId : PageId) : PoolCall Page (Option Nat) := fun s =>
  match s.pageTable pageId with
  | some frameId =>
    let frame := s.frameTable frameId
    (.ok (some frameId),
      s.setFrame frameId (recordAccess { frame with pinCount := frame.pinCount + 1 }))
  | none =>
    match s.disk.getNumPages pageId.relationId with
    | .error what => (.error what, s)
    | .ok numPages =>
      if numPages ≤ pageId.pageNo then (.ok none, s)
      else
        match prepareFrame s with
        | (.error what, s) => (.error what, s)
        | (.ok none, s) => (.ok none, s)
        | (.ok (some frameId), s) =>
          match s.disk.readPage pageId with
          | .error what => (.error what, s)
          | .ok page => (.ok (some frameId), s.install frameId pageId page)

/-- `NewPage`: the page and its frame, or none for a null pointer. -/
def newPage (relationId : Nat) : PoolCall Page (Option (PageId × Nat)) := fun s =>
  match prepareFrame s with
  | (.error what, s) => (.error what, s)
  | (.ok none, s) => (.ok none, s)
  | (.ok (some frameId), s) =>
    match allocatePage relationId s.disk with
    | (.error what, disk) => (.error what, { s with disk := disk })
    | (.ok pageNo, disk) =>
      (.ok (some (⟨relationId, pageNo⟩, frameId)),
        { s with disk := disk }.install frameId ⟨relationId, pageNo⟩ default)

def deletePage (pageId : PageId) : PoolCall Page Bool := fun s =>
  let deallocate (s : BufferPoolManager Page) : Except String Bool × BufferPoolManager Page :=
    match deallocatePage pageId s.disk with
    | (.error what, disk) => (.error what, { s with disk := disk })
    | (.ok _, disk) => (.ok true, { s with disk := disk })
  match s.pageTable pageId with
  | some frameId =>
    if 0 < (s.frameTable frameId).pinCount then (.ok false, s)
    else
      deallocate { s with
        dirtyPageTable := update s.dirtyPageTable pageId none
        pageTable := update s.pageTable pageId none
        pages := update s.pages frameId default
        frameTable := update s.frameTable frameId .reset }
  | none => deallocate s

omit [Inhabited Page] in
/-- `UnpinPage`. `pageLsn` reads the LSN of a page. -/
def unpinPage (pageLsn : Page → Nat) (pageId : PageId) (isDirty : Bool) : PoolCall Page Bool :=
  fun s =>
  match s.pageTable pageId with
  | none => (.ok false, s)
  | some frameId =>
    let frame := s.frameTable frameId
    if frame.pinCount = 0 then (.ok false, s)
    else if isDirty then
      let recLsn := pageLsn (s.pages frameId)
      (.ok true, { s with
        frameTable := update s.frameTable frameId
          { frame with pinCount := frame.pinCount - 1, isDirty := true }
        dirtyPageTable := update s.dirtyPageTable pageId
          (some ((s.dirtyPageTable pageId).elim recLsn (min recLsn))) })
    else (.ok true, s.setFrame frameId { frame with pinCount := frame.pinCount - 1 })

def flushPage (pageId : PageId) : PoolCall Page Bool := fun s =>
  match s.pageTable pageId with
  | none => (.ok false, s)
  | some frameId =>
    match flushFrame frameId s with
    | (.error what, s) => (.error what, s)
    | (.ok _, s) => (.ok true, s)

/-- The loop of `FlushAllPages` over the frames that are left. -/
def flushFrames : List Nat → PoolCall Page Unit
  | [], s => (.ok (), s)
  | frameId :: rest, s =>
    match (if (s.frameTable frameId).isValid then flushFrame frameId s else (.ok (), s)) with
    | (.error what, s) => (.error what, s)
    | (.ok _, s) => flushFrames rest s

def flushAllPages : PoolCall Page Unit := fun s => flushFrames (List.range s.poolSize) s

omit [Inhabited Page] in
/-- A write through the pointer that `FetchPage` or `NewPage` has returned. -/
def BufferPoolManager.writeFrame (s : BufferPoolManager Page) (frameId : Nat) (page : Page) :
    BufferPoolManager Page :=
  { s with pages := update s.pages frameId page }

end Model

end GraniteDb.Buffer.FrameTable
