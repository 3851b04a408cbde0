/- The pool of frames, seen by the pages its frames hold, does what the pool of pages does. -/

import GraniteDb.Buffer.FlatStore
import GraniteDb.Buffer.PageFrames

namespace GraniteDb.Buffer.FramesByPage

open Common.Types Storage.DiskManager Buffer.FrameTable Buffer.ClockSweep Buffer.FlatStore
open Function (update_of_ne update_self update)

variable {Page : Type} {s : BufferPoolManager Page} {unsaved : PageId → Bool} {clock : Nat}

def framePage (s : BufferPoolManager Page) (f : Nat) : PageFrames.Frame Page :=
  ⟨s.pages f, (s.frameTable f).isDirty, (s.frameTable f).pinCount⟩

def byPage (clock : Nat) (s : BufferPoolManager Page) : PageFrames.BufferPool Page where
  disk := s.disk
  frames p := (s.pageTable p).map (framePage s)
  clock := clock

/-- The page that makes room in a frame, when there is one. -/
def evicted (s : BufferPoolManager Page) (f : Nat) : Option PageId :=
  if (s.frameTable f).isValid then some (s.frameTable f).pageId else none

/-- What the callers make of a result: a null pointer is an exception to them. -/
def answered {α β : Type} (read : α → β) : Except String (Option α) → Except String β
  | .error what => .error what
  | .ok none => .error "Failed to fetch page"
  | .ok (some found) => .ok (read found)

variable {s' : BufferPoolManager Page}

private theorem setFrame_byPage (clock : Nat) (p : PageId)
    (frame : Option Nat) (table : s'.pageTable = update s.pageTable p frame)
    (others : ∀ q f, q ≠ p → s.pageTable q = some f → framePage s' f = framePage s f) :
    PageFrames.BufferPool.setFrame ⟨s'.disk, (byPage clock s).frames, clock⟩ p
      (frame.map (framePage s')) = byPage clock s' := by
  unfold PageFrames.BufferPool.setFrame byPage
  congr 1
  funext q
  dsimp only
  by_cases here : q = p
  · subst here
    rw [table, update_self, update_self]
  · rw [table, update_of_ne here, update_of_ne here]
    cases held : s.pageTable q with
    | none => rfl
    | some f => exact congrArg some (others q f here held).symm

private theorem other_frame (sound : Sound unsaved s) {p q : PageId} {f g : Nat}
    (held : s.pageTable p = some f) (other : q ≠ p) (isHeld : s.pageTable q = some g) : g ≠ f := by
  rintro rfl
  exact other (sound.injective isHeld held)

private theorem reframe_byPage (clock : Nat) (sound : Sound unsaved s)
    {p : PageId} {f : Nat} (held : s.pageTable p = some f)
    (table : s'.pageTable = s.pageTable) (others : ∀ g ≠ f, framePage s' g = framePage s g) :
    PageFrames.BufferPool.setFrame ⟨s'.disk, (byPage clock s).frames, clock⟩ p
      (some (framePage s' f)) = byPage clock s' :=
  setFrame_byPage clock p (some f) (by rw [table, ← held, Function.update_eq_self])
    fun _ g other isHeld => others g (other_frame sound held other isHeld)

private theorem byPage_held {p : PageId} {f : Nat} (held : s.pageTable p = some f) :
    (byPage clock s).frames p = some (framePage s f) := by
  simp only [byPage, held, Option.map_some]

private theorem byPage_congr (disk : s'.disk = s.disk)
    (table : s'.pageTable = s.pageTable)
    (frames : ∀ q f, s.pageTable q = some f → framePage s' f = framePage s f) :
    byPage clock s' = byPage clock s := by
  unfold byPage
  rw [disk, table]
  congr 1
  funext q
  cases held : s.pageTable q with
  | none => rfl
  | some f => exact congrArg some (frames q f held)

private theorem victim_byPage (sound : Sound unsaved s) :
    byPage clock s.victim.2 = byPage clock s ∧ ∀ f, evicted s.victim.2 f = evicted s f := by
  unfold BufferPoolManager.victim
  split
  · exact ⟨rfl, fun _ => rfl⟩
  · rename_i nonempty
    obtain ⟨counts, same, -⟩ : Recounted s.poolSize s.frameTable _ :=
      victimLoop_recounted (s.poolSize * (maxUsageCount + 2)) (sound.hand nonempty)
    refine ⟨byPage_congr rfl rfl fun q f _ => ?_, fun f => ?_⟩
    · simp only [framePage, same]
    · simp only [evicted, same]

section Steps

variable [Inhabited Page] {victim : Nat → Option PageId} {f : Nat} {p : PageId}

private theorem flushFrame_byPage (sound : Sound unsaved s) (held : s.pageTable p = some f) :
    PageFrames.flushFrame p (framePage s f) (byPage clock s) =
      ((flushFrame f s).1, byPage clock (flushFrame f s).2) := by
  obtain ⟨-, valid, named⟩ := sound.frame held
  cases dirty : (s.frameTable f).isDirty with
  | false =>
    have same : flushFrame f s = (.ok (), s) := by simp [flushFrame, dirty]
    rw [same]
    simp [PageFrames.flushFrame, framePage, dirty]
  | true =>
    unfold flushFrame PageFrames.flushFrame
    simp only [valid, named, dirty, framePage, byPage, Bool.and_true, if_true]
    rcases writePage p (s.pages f) s.disk with ⟨_ | _, disk⟩
    · rfl
    · have kept : _ = byPage clock { s with
          disk := disk
          frameTable := update s.frameTable f { s.frameTable f with isDirty := false }
          dirtyPageTable := update s.dirtyPageTable p none } :=
        reframe_byPage clock sound held rfl fun g other => by
          simp only [framePage, update_of_ne other]
      refine Prod.ext rfl ?_
      simpa only [framePage, update_self, byPage, valid, named] using kept

private theorem takeFrame_byPage (sound : Sound unsaved s) (inside : f < s.poolSize)
    (idle : (s.frameTable f).isValid = true → (s.frameTable f).pinCount = 0)
    (chosen : victim clock = evicted s f) :
    PageFrames.prepareFrame victim (byPage clock s) =
      ((takeFrame f s).1, byPage (clock + 1) (takeFrame f s).2) := by
  unfold PageFrames.prepareFrame takeFrame
  rw [show (byPage clock s).clock = clock from rfl, chosen, evicted]
  cases valid : (s.frameTable f).isValid with
  | true =>
    have held := sound.held inside valid
    have free : ¬0 < (framePage s f).pinCount := by
      rw [framePage, idle valid]
      exact Nat.lt_irrefl 0
    have flushed : PageFrames.flushFrame (s.frameTable f).pageId (framePage s f)
        ⟨s.disk, (byPage clock s).frames, clock + 1⟩ =
          ((flushFrame f s).1, byPage (clock + 1) (flushFrame f s).2) :=
      flushFrame_byPage sound held
    obtain ⟨m, isFlushed, keeps, -, table, -, same⟩ := flushFrame_keeps sound inside
    have stays : m.pageTable (s.frameTable f).pageId = some f := by rw [table, held]
    simp only [if_true, byPage_held held, if_neg free]
    rw [show (byPage clock s).disk = s.disk from rfl, flushed, isFlushed]
    refine Prod.ext rfl ?_
    dsimp only
    rw [(same f).2.1]
    have gone : _ = byPage (clock + 1) { m with
        pages := update m.pages f default
        frameTable := update m.frameTable f .reset
        pageTable := update m.pageTable (s.frameTable f).pageId none } :=
      setFrame_byPage (s := m) (clock + 1) _ none rfl fun q g other isHeld => by
        simp only [framePage, update_of_ne (other_frame keeps.sound stays other isHeld)]
    exact gone
  | false =>
    simp only [Bool.false_eq_true, if_false]
    refine Prod.ext rfl (Eq.symm (byPage_congr rfl rfl fun q g isHeld => ?_))
    have apart : g ≠ f := by
      rintro rfl
      have isValid := (sound.frame isHeld).2.1
      rw [valid] at isValid
      cases isValid
    simp only [framePage, update_of_ne apart]

private theorem prepareFrame_byPage (sound : Sound unsaved s) (found : s.victim.1 = some f)
    (chosen : victim clock = evicted s f) :
    ∃ s', prepareFrame s = (.ok (some f), s') ∧ Sound unsaved s' ∧
      (∀ q g, s'.pageTable q = some g → g ≠ f) ∧
      PageFrames.prepareFrame victim (byPage clock s) = (.ok (), byPage (clock + 1) s') := by
  obtain ⟨keeps, evictable⟩ := victim_keeps sound
  obtain ⟨same, choice⟩ := victim_byPage sound
  obtain ⟨inside, idle⟩ := evictable f found
  have unpinned : (s.victim.2.frameTable f).isValid = true →
      (s.victim.2.frameTable f).pinCount = 0 := by
    intro valid
    have held := keeps.sound.held (by rw [keeps.poolSize]; exact inside) valid
    have before := keeps.pins _ f held
    rw [before.2]
    exact idle (sound.frame before.1).2.1
  have within : f < s.victim.2.poolSize := by rw [keeps.poolSize]; exact inside
  obtain ⟨s', taken, keeps', free⟩ := takeFrame_keeps keeps.sound within unpinned
  have took := takeFrame_byPage keeps.sound within unpinned (chosen.trans (choice f).symm)
  rw [same, taken] at took
  refine ⟨s', ?_, keeps'.sound, ?_, took⟩
  · unfold prepareFrame
    rcases isVictim : s.victim with ⟨found', m⟩
    rw [isVictim] at found taken
    cases found
    simp only [taken]
  · rintro q g held rfl
    have isValid := (keeps'.sound.frame held).2.1
    rw [free] at isValid
    cases isValid

omit [Inhabited Page] in
private theorem install_byPage (empty : ∀ q g, s.pageTable q = some g → g ≠ f) (p : PageId)
    (page : Page) :
    (byPage clock s).setFrame p (some ⟨page, false, 1⟩) = byPage clock (s.install f p page) := by
  have others (q : PageId) (g : Nat) (_ : q ≠ p) (held : s.pageTable q = some g) :
      framePage (s.install f p page) g = framePage s g := by
    simp only [framePage, BufferPoolManager.install, update_of_ne (empty q g held)]
  have put := setFrame_byPage clock p (some f) (by rfl) others
  rw [← put]
  simp only [framePage, BufferPoolManager.install, update_self, Option.map_some]
  rfl

theorem fetchPage_byPage (sound : Sound unsaved s) (found : s.victim.1 = some f)
    (chosen : victim clock = evicted s f) (p : PageId) : ∃ clock',
    PageFrames.fetchPage victim p (byPage clock s) =
      (answered (fun _ => ()) (fetchPage p s).1, byPage clock' (fetchPage p s).2) := by
  unfold FrameTable.fetchPage PageFrames.fetchPage
  cases held : s.pageTable p with
  | some g =>
    have pinned : _ = byPage clock (s.setFrame g
        (recordAccess { s.frameTable g with pinCount := (s.frameTable g).pinCount + 1 })) :=
      reframe_byPage clock sound held rfl fun g' other => by
        simp only [framePage, BufferPoolManager.setFrame, update_of_ne other]
    refine ⟨clock, Prod.ext ?_ (Eq.trans ?_ pinned)⟩
    · rw [byPage_held held]
      rfl
    · rw [byPage_held held]
      simp only [framePage, BufferPoolManager.setFrame, update_self]
      unfold recordAccess
      split <;> rfl
  | none =>
    have absent : (byPage clock s).frames p = none := by
      simp only [byPage, held, Option.map_none]
    rw [absent]
    dsimp only
    rw [show (byPage clock s).disk = s.disk from rfl]
    cases counted : s.disk.getNumPages p.relationId with
    | error what => exact ⟨clock, rfl⟩
    | ok numPages =>
      dsimp only
      by_cases outside : numPages ≤ p.pageNo
      · rw [if_pos outside, if_pos outside]
        exact ⟨clock, rfl⟩
      · rw [if_neg outside, if_neg outside]
        obtain ⟨s', prepared, -, empty, prepared'⟩ := prepareFrame_byPage sound found chosen
        refine ⟨clock + 1, ?_⟩
        rw [prepared, prepared']
        dsimp only
        rw [show (byPage (clock + 1) s').disk = s'.disk from rfl]
        cases s'.disk.readPage p with
        | error what => rfl
        | ok page => exact Prod.ext rfl (install_byPage empty p page)

theorem newPage_byPage (sound : Sound unsaved s) (found : s.victim.1 = some f)
    (chosen : victim clock = evicted s f) (id : Nat) :
    PageFrames.newPage victim id (byPage clock s) =
      (answered (fun new => new.1.pageNo) (newPage id s).1, byPage (clock + 1) (newPage id s).2) := by
  obtain ⟨s', prepared, -, empty, prepared'⟩ := prepareFrame_byPage sound found chosen
  unfold FrameTable.newPage PageFrames.newPage
  rw [prepared, prepared']
  dsimp only
  rw [show (byPage (clock + 1) s').disk = s'.disk from rfl]
  rcases allocatePage id s'.disk with ⟨_ | pageNo, disk⟩
  · rfl
  · exact Prod.ext rfl (install_byPage (s := { s' with disk := disk }) empty ⟨id, pageNo⟩ default)

omit [Inhabited Page] in
theorem unpinPage_byPage (sound : Sound unsaved s) (pageLsn : Page → Nat) (p : PageId)
    (isDirty : Bool) :
    PageFrames.unpinPage p isDirty (byPage clock s) =
      byPage clock (unpinPage pageLsn p isDirty s).2 := by
  unfold FrameTable.unpinPage PageFrames.unpinPage
  cases held : s.pageTable p with
  | none =>
    have absent : (byPage clock s).frames p = none := by
      simp only [byPage, held, Option.map_none]
    rw [absent]
  | some f =>
    rw [byPage_held held]
    dsimp only
    by_cases free : (s.frameTable f).pinCount = 0
    · rw [if_pos (show (framePage s f).pinCount = 0 from free), if_pos free]
    · rw [if_neg (show ¬(framePage s f).pinCount = 0 from free), if_neg free]
      cases isDirty with
      | true =>
        have kept : _ = byPage clock { s with
            frameTable := update s.frameTable f
              { s.frameTable f with pinCount := (s.frameTable f).pinCount - 1, isDirty := true }
            dirtyPageTable := update s.dirtyPageTable p
              (some ((s.dirtyPageTable p).elim (pageLsn (s.pages f))
                (min (pageLsn (s.pages f))))) } :=
          reframe_byPage clock sound held rfl fun g other => by
            simp only [framePage, update_of_ne other]
        simp only [framePage, update_self, Bool.or_true, if_true] at kept ⊢
        exact kept
      | false =>
        have kept : _ = byPage clock (s.setFrame f
            { s.frameTable f with pinCount := (s.frameTable f).pinCount - 1 }) :=
          reframe_byPage clock sound held rfl fun g other => by
            simp only [framePage, BufferPoolManager.setFrame, update_of_ne other]
        simp only [framePage, BufferPoolManager.setFrame, update_self, Bool.or_false,
          Bool.false_eq_true, if_false] at kept ⊢
        exact kept

omit [Inhabited Page] in
theorem writeFrame_byPage (sound : Sound unsaved s) (held : s.pageTable p = some f)
    (pinned : 0 < (s.frameTable f).pinCount) (page : Page) :
    PageFrames.writeFrame p page (byPage clock s) = byPage clock (s.writeFrame f page) := by
  have kept : _ = byPage clock (s.writeFrame f page) :=
    reframe_byPage clock sound held rfl fun g other => by
      simp only [framePage, BufferPoolManager.writeFrame, update_of_ne other]
  unfold PageFrames.writeFrame
  rw [byPage_held held]
  dsimp only
  rw [if_pos (show 0 < (framePage s f).pinCount from pinned)]
  simp only [framePage, BufferPoolManager.writeFrame, update_self] at kept
  exact kept

end Steps

end GraniteDb.Buffer.FramesByPage
