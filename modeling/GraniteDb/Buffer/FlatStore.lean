/- The buffer pool shows its callers one flat store of pages. -/

import GraniteDb.Buffer.ClockSweep
import GraniteDb.Lib.GuardedRun
import Mathlib.Data.Set.Function

namespace GraniteDb.Buffer.FlatStore

open Common.Types Storage.DiskManager Storage.LivePages Buffer.FrameTable Buffer.ClockSweep
open Lib.GuardedRun
open Function (update_of_ne update_self update)

variable {Page : Type} {s s' : BufferPoolManager Page} {unsaved : PageId → Bool}

def shown (s : BufferPoolManager Page) (p : PageId) : Option Page :=
  match s.pageTable p with
  | some frameId => some (s.pages frameId)
  | none => livePage s.disk p

/-- The tables agree with the frames, and a clean frame with the disk. `unsaved` tells the
pages that a caller has modified since they were last unpinned dirty. -/
structure Sound (unsaved : PageId → Bool) (s : BufferPoolManager Page) : Prop where
  disk : DiskSound s.disk
  table : ∀ p f, s.pageTable p = some f ↔
    f < s.poolSize ∧ (s.frameTable f).isValid = true ∧ (s.frameTable f).pageId = p
  live : ∀ p f, s.pageTable p = some f → ∃ page, livePage s.disk p = some page
  clean : ∀ p f, s.pageTable p = some f → (s.frameTable f).isDirty = false →
    unsaved p = false → livePage s.disk p = some (s.pages f)
  dirty : ∀ p, (s.dirtyPageTable p).isSome = true ↔
    ∃ f, s.pageTable p = some f ∧ (s.frameTable f).isDirty = true
  hand : s.poolSize ≠ 0 → s.clockHand < s.poolSize
  pinned : ∀ p, unsaved p = true →
    ∃ f, s.pageTable p = some f ∧ 0 < (s.frameTable f).pinCount

theorem Sound.frame (sound : Sound unsaved s) {p : PageId} {f : Nat}
    (held : s.pageTable p = some f) :
    f < s.poolSize ∧ (s.frameTable f).isValid = true ∧ (s.frameTable f).pageId = p :=
  (sound.table p f).mp held

theorem Sound.held (sound : Sound unsaved s) {f : Nat} (inside : f < s.poolSize)
    (valid : (s.frameTable f).isValid = true) : s.pageTable (s.frameTable f).pageId = some f :=
  (sound.table _ f).mpr ⟨inside, valid, rfl⟩

theorem Sound.injective (sound : Sound unsaved s) {p q : PageId} {f : Nat}
    (first : s.pageTable p = some f) (second : s.pageTable q = some f) : p = q :=
  (sound.frame first).2.2.symm.trans (sound.frame second).2.2

/-- A step that callers do not notice: every page shows the same, pinned pages stay in their
frames with their pins, and no page comes into the pool. -/
structure Keeps (unsaved : PageId → Bool) (s s' : BufferPoolManager Page) : Prop where
  sound : Sound unsaved s'
  poolSize : s'.poolSize = s.poolSize
  shown : shown s' = shown s
  stays : ∀ p f, s.pageTable p = some f → 0 < (s.frameTable f).pinCount →
    s'.pageTable p = some f
  pins : ∀ p f, s'.pageTable p = some f →
    s.pageTable p = some f ∧ (s'.frameTable f).pinCount = (s.frameTable f).pinCount

theorem Keeps.refl (sound : Sound unsaved s) : Keeps unsaved s s :=
  ⟨sound, rfl, rfl, fun _ _ held _ => held, fun _ _ held => ⟨held, rfl⟩⟩

theorem Keeps.trans {m : BufferPoolManager Page} (first : Keeps unsaved s m)
    (second : Keeps unsaved m s') : Keeps unsaved s s' where
  sound := second.sound
  poolSize := second.poolSize.trans first.poolSize
  shown := second.shown.trans first.shown
  stays p f held pinned := by
    have middle := first.stays p f held pinned
    have count := (first.pins p f middle).2
    exact second.stays p f middle (by omega)
  pins p f held := by
    have later := second.pins p f held
    have earlier := first.pins p f later.1
    exact ⟨earlier.1, later.2.trans earlier.2⟩

def SameUses (frames frames' : Nat → FrameDesc) : Prop :=
  ∀ f, (frames' f).pageId = (frames f).pageId ∧ (frames' f).isDirty = (frames f).isDirty ∧
    (frames' f).isValid = (frames f).isValid ∧ (frames' f).pinCount = (frames f).pinCount

private theorem sameUses_of_recounted {poolSize : Nat} {frames frames' : Nat → FrameDesc}
    (recounted : Recounted poolSize frames frames') : SameUses frames frames' := by
  obtain ⟨counts, same, -⟩ := recounted
  intro f
  rw [same f]
  exact ⟨rfl, rfl, rfl, rfl⟩

private theorem keeps_recount (sound : Sound unsaved s) {frames : Nat → FrameDesc} {hand : Nat}
    (same : SameUses s.frameTable frames) (bound : s.poolSize ≠ 0 → hand < s.poolSize) :
    Keeps unsaved s { s with clockHand := hand, frameTable := frames } where
  sound :=
    { disk := sound.disk
      table := fun p f => by
        rw [(same f).2.2.1, (same f).1]
        exact sound.table p f
      live := sound.live
      clean := fun p f held isClean saved => by
        rw [(same f).2.1] at isClean
        exact sound.clean p f held isClean saved
      dirty := fun p => by
        have frames : ∀ f, (frames f).isDirty = (s.frameTable f).isDirty := fun f => (same f).2.1
        simp only [frames]
        exact sound.dirty p
      hand := bound
      pinned := fun p is => by
        obtain ⟨f, held, pinned⟩ := sound.pinned p is
        exact ⟨f, held, by rw [(same f).2.2.2]; exact pinned⟩ }
  poolSize := rfl
  shown := rfl
  stays p f held _ := held
  pins p f held := ⟨held, (same f).2.2.2⟩

theorem victim_keeps (sound : Sound unsaved s) :
    Keeps unsaved s s.victim.2 ∧ ∀ f, s.victim.1 = some f →
      f < s.poolSize ∧ ((s.frameTable f).isValid = true → (s.frameTable f).pinCount = 0) := by
  unfold BufferPoolManager.victim
  split
  · exact ⟨.refl sound, fun f found => by cases found⟩
  · rename_i nonempty
    have inside := sound.hand nonempty
    have recounted : Recounted s.poolSize s.frameTable _ :=
      victimLoop_recounted (s.poolSize * (maxUsageCount + 2)) inside
    have same := sameUses_of_recounted recounted
    refine ⟨keeps_recount sound same fun _ => victimLoop_hand _ inside, fun f found => ?_⟩
    obtain ⟨bound, evictable⟩ := victimLoop_evictable _ inside found
    refine ⟨bound, fun valid => evictable.resolve_left ?_⟩
    rw [valid]
    exact Bool.noConfusion

section Flushing

variable [Inhabited Page]

theorem flushFrame_keeps (sound : Sound unsaved s) {f : Nat} (inside : f < s.poolSize) :
    ∃ s', flushFrame f s = (.ok (), s') ∧ Keeps unsaved s s' ∧ s'.pages = s.pages ∧
      s'.pageTable = s.pageTable ∧
      ((s.frameTable f).isValid = true → (s'.frameTable f).isDirty = false) ∧
      ∀ f', (s'.frameTable f').isValid = (s.frameTable f').isValid ∧
        (s'.frameTable f').pageId = (s.frameTable f').pageId ∧
        (s'.frameTable f').pinCount = (s.frameTable f').pinCount := by
  unfold flushFrame
  dsimp only
  split
  · rename_i both
    obtain ⟨valid, dirty⟩ := Bool.and_eq_true_iff.mp both
    have held := sound.held inside valid
    obtain ⟨p, isPage⟩ : ∃ p, (s.frameTable f).pageId = p := ⟨_, rfl⟩
    rw [isPage] at held
    obtain ⟨old, live⟩ := sound.live p f held
    obtain ⟨d, written, -, sets⟩ := writePage_live sound.disk live (s.pages f)
    rw [← isPage] at written
    rw [written]
    have frames : ∀ f', ((update s.frameTable f
        { s.frameTable f with isDirty := false }) f').isValid = (s.frameTable f').isValid ∧
        ((update s.frameTable f
          { s.frameTable f with isDirty := false }) f').pageId = (s.frameTable f').pageId ∧
        ((update s.frameTable f
          { s.frameTable f with isDirty := false }) f').pinCount =
            (s.frameTable f').pinCount := by
      intro f'
      by_cases here : f' = f
      · subst here
        simp
      · simp [update_of_ne here]
    refine ⟨_, rfl, ⟨⟨sets.sound, ?_, ?_, ?_, ?_, sound.hand, ?_⟩, rfl, ?_,
      fun q f' isHeld _ => isHeld, fun q f' isHeld => ⟨isHeld, (frames f').2.2⟩⟩, rfl, rfl,
      fun _ => by simp, frames⟩
    · intro q f'
      rw [(frames f').1, (frames f').2.1]
      exact sound.table q f'
    · intro q f' isHeld
      by_cases here : q = p
      · subst here
        exact ⟨s.pages f, by rw [sets.live, update_self]⟩
      · obtain ⟨page, before⟩ := sound.live q f' isHeld
        exact ⟨page, by rw [sets.live, update_of_ne here, before]⟩
    · intro q f' isHeld isClean saved
      by_cases here : q = p
      · subst here
        obtain rfl := Option.some.inj (isHeld.symm.trans held)
        rw [sets.live, update_self]
      · have apart : f' ≠ f := fun same => here (by subst same; exact sound.injective isHeld held)
        rw [sets.live, update_of_ne here]
        simp only [update_of_ne apart] at isClean
        exact sound.clean q f' isHeld isClean saved
    · intro q
      dsimp only
      rw [isPage]
      by_cases here : q = p
      · rw [here, update_self]
        simp only [Option.isSome_none, Bool.false_eq_true, false_iff, not_exists, not_and]
        intro f' isHeld
        obtain rfl := Option.some.inj (isHeld.symm.trans held)
        simp
      · rw [update_of_ne here, sound.dirty q]
        constructor
        · rintro ⟨f', isHeld, isDirty⟩
          have apart : f' ≠ f :=
            fun same => here (by subst same; exact sound.injective isHeld held)
          exact ⟨f', isHeld, by simpa [update_of_ne apart] using isDirty⟩
        · rintro ⟨f', isHeld, isDirty⟩
          have apart : f' ≠ f :=
            fun same => here (by subst same; exact sound.injective isHeld held)
          exact ⟨f', isHeld, by simpa [update_of_ne apart] using isDirty⟩
    · intro q is
      obtain ⟨f', isHeld, pinned⟩ := sound.pinned q is
      exact ⟨f', isHeld, by rw [(frames f').2.2]; exact pinned⟩
    · funext q
      unfold shown
      dsimp only
      cases isHeld : s.pageTable q with
      | some f' => rfl
      | none =>
        have here : q ≠ p := fun same => by simp [same, held] at isHeld
        rw [sets.live, update_of_ne here]
  · rename_i neither
    refine ⟨s, rfl, .refl sound, rfl, rfl, fun valid => ?_, fun _ => ⟨rfl, rfl, rfl⟩⟩
    simpa [valid] using neither

def dropped (s : BufferPoolManager Page) (f : Nat) (p : PageId) : BufferPoolManager Page :=
  { s with
    pages := update s.pages f default
    frameTable := update s.frameTable f .reset
    pageTable := update s.pageTable p none
    dirtyPageTable := update s.dirtyPageTable p none }

private theorem dropped_pageTable {p q : PageId} {f f' : Nat} :
    (dropped s f p).pageTable q = some f' ↔ s.pageTable q = some f' ∧ q ≠ p := by
  unfold dropped
  by_cases here : q = p
  · subst here
    simp
  · simp [here]

section

variable (sound : Sound unsaved s)

include sound

private theorem dropped_sound {p : PageId} {f : Nat}
    (held : s.pageTable p = some f) (idle : (s.frameTable f).pinCount = 0) :
    Sound unsaved (dropped s f p) ∧
      shown (dropped s f p) = update (shown s) p (livePage s.disk p) ∧
      ∀ q f', (dropped s f p).pageTable q = some f' →
        (dropped s f p).frameTable f' = s.frameTable f' := by
  have apart : ∀ q f', s.pageTable q = some f' → q ≠ p → f' ≠ f := by
    intro q f' isHeld other same
    subst same
    exact other (sound.injective isHeld held)
  have saved : unsaved p = false := by
    by_contra is
    obtain ⟨f', isHeld, pinned⟩ := sound.pinned p (by simpa using is)
    obtain rfl := Option.some.inj (isHeld.symm.trans held)
    omega
  have frames : ∀ q f', (dropped s f p).pageTable q = some f' →
      (dropped s f p).frameTable f' = s.frameTable f' ∧
        (dropped s f p).pages f' = s.pages f' := by
    intro q f' isHeld
    obtain ⟨before, other⟩ := dropped_pageTable.mp isHeld
    have elsewhere := apart q f' before other
    exact ⟨update_of_ne elsewhere _ _, update_of_ne elsewhere _ _⟩
  refine ⟨⟨sound.disk, ?_, ?_, ?_, ?_, sound.hand, ?_⟩, ?_, fun q f' isHeld =>
    (frames q f' isHeld).1⟩
  · intro q f'
    rw [dropped_pageTable, sound.table q f']
    unfold dropped
    by_cases here : f' = f
    · subst here
      have own := (sound.frame held).2.2
      simp only [update_self, FrameDesc.reset, Bool.false_eq_true, false_and, and_false,
        iff_false, not_and, not_not]
      rintro ⟨-, -, same⟩
      rw [← same, own]
    · simp only [update_of_ne here, and_iff_left_iff_imp]
      rintro ⟨bound, isValid, same⟩ other
      subst other
      have isHeld := (sound.table q f').mpr ⟨bound, isValid, same⟩
      exact here (Option.some.inj (isHeld.symm.trans held))
  · intro q f' isHeld
    exact sound.live q f' (dropped_pageTable.mp isHeld).1
  · intro q f' isHeld isClean isSaved
    have same := frames q f' isHeld
    rw [same.1] at isClean
    rw [same.2]
    exact sound.clean q f' (dropped_pageTable.mp isHeld).1 isClean isSaved
  · intro q
    by_cases here : q = p
    · subst here
      simp [dropped]
    · have same : (dropped s f p).dirtyPageTable q = s.dirtyPageTable q :=
        update_of_ne here _ _
      rw [same, sound.dirty q]
      constructor
      · rintro ⟨f', before, isDirty⟩
        have isHeld := (dropped_pageTable (f := f)).mpr ⟨before, here⟩
        exact ⟨f', isHeld, by rw [(frames q f' isHeld).1]; exact isDirty⟩
      · rintro ⟨f', isHeld, isDirty⟩
        rw [(frames q f' isHeld).1] at isDirty
        exact ⟨f', (dropped_pageTable.mp isHeld).1, isDirty⟩
  · intro q is
    obtain ⟨f', before, pinned⟩ := sound.pinned q is
    have other : q ≠ p := by
      rintro rfl
      rw [saved] at is
      cases is
    have isHeld := (dropped_pageTable (f := f)).mpr ⟨before, other⟩
    exact ⟨f', isHeld, by rw [(frames q f' isHeld).1]; exact pinned⟩
  · funext q
    by_cases here : q = p
    · subst here
      simp [shown, dropped]
    · have table : (dropped s f p).pageTable q = s.pageTable q := update_of_ne here _ _
      rw [update_of_ne here]
      unfold shown
      rw [table]
      cases isHeld : s.pageTable q with
      | none => rfl
      | some f' => exact congrArg some (frames q f' (table.trans isHeld)).2

theorem takeFrame_keeps {f : Nat} (inside : f < s.poolSize)
    (idle : (s.frameTable f).isValid = true → (s.frameTable f).pinCount = 0) :
    ∃ s', takeFrame f s = (.ok (), s') ∧ Keeps unsaved s s' ∧
      (s'.frameTable f).isValid = false := by
  unfold takeFrame
  dsimp only
  split
  · rename_i valid
    obtain ⟨m, flushed, keeps, pages, table, clean, frames⟩ :=
      flushFrame_keeps sound inside
    rw [flushed]
    obtain ⟨p, isPage⟩ : ∃ p, p = (m.frameTable f).pageId := ⟨_, rfl⟩
    have held : m.pageTable p = some f := by
      have before := sound.held inside valid
      rw [isPage, (frames f).2.1, table]
      exact before
    have pins : (m.frameTable f).pinCount = 0 := by
      rw [(frames f).2.2]
      exact idle valid
    have saved : unsaved p = false := by
      by_contra is
      obtain ⟨f', isHeld, pinned⟩ := keeps.sound.pinned p (by simpa using is)
      obtain rfl := Option.some.inj (isHeld.symm.trans held)
      omega
    have notListed : m.dirtyPageTable p = none := by
      have listed := (keeps.sound.dirty p).mp
      cases entry : m.dirtyPageTable p with
      | none => rfl
      | some lsn =>
        obtain ⟨f', isHeld, isDirty⟩ := listed (by simp [entry])
        obtain rfl := Option.some.inj (isHeld.symm.trans held)
        rw [clean valid] at isDirty
        cases isDirty
    have onDisk := keeps.sound.clean p f held (clean valid) saved
    obtain ⟨sound', shown', same⟩ := dropped_sound keeps.sound held pins
    have result : dropped m f p = { m with
        pages := update m.pages f default
        frameTable := update m.frameTable f .reset
        pageTable := update m.pageTable p none } := by
      unfold dropped
      rw [← notListed, Function.update_eq_self]
    dsimp only
    rw [← isPage, ← result]
    refine ⟨_, rfl, keeps.trans ⟨sound', rfl, ?_, ?_, ?_⟩, ?_⟩
    · rw [shown', onDisk]
      apply Function.update_eq_iff.mpr
      exact ⟨by simp [shown, held], fun _ _ => rfl⟩
    · intro q f' isHeld pinned
      refine dropped_pageTable.mpr ⟨isHeld, ?_⟩
      rintro rfl
      obtain rfl := Option.some.inj (isHeld.symm.trans held)
      omega
    · intro q f' isHeld
      exact ⟨(dropped_pageTable.mp isHeld).1, by rw [same q f' isHeld]⟩
    · simp [dropped, FrameDesc.reset]
  · rename_i invalid
    have apart : ∀ q f', s.pageTable q = some f' → f' ≠ f := by
      intro q f' isHeld same
      subst same
      exact invalid (sound.frame isHeld).2.1
    refine ⟨_, rfl, ⟨⟨sound.disk, ?_, sound.live, ?_, ?_, sound.hand, ?_⟩, rfl, ?_,
      fun _ _ isHeld _ => isHeld, ?_⟩, by simp [FrameDesc.reset]⟩
    · intro q f'
      rw [sound.table q f']
      by_cases here : f' = f
      · subst here
        simp [FrameDesc.reset, invalid]
      · simp [here]
    · intro q f' isHeld isClean isSaved
      simp only [update_of_ne (apart q f' isHeld)] at isClean ⊢
      exact sound.clean q f' isHeld isClean isSaved
    · intro q
      rw [sound.dirty q]
      constructor
      · rintro ⟨f', isHeld, isDirty⟩
        exact ⟨f', isHeld, by simpa [update_of_ne (apart q f' isHeld)] using isDirty⟩
      · rintro ⟨f', isHeld, isDirty⟩
        exact ⟨f', isHeld, by simpa [update_of_ne (apart q f' isHeld)] using isDirty⟩
    · intro q is
      obtain ⟨f', isHeld, pinned⟩ := sound.pinned q is
      exact ⟨f', isHeld, by simpa [update_of_ne (apart q f' isHeld)] using pinned⟩
    · funext q
      unfold shown
      dsimp only
      cases isHeld : s.pageTable q with
      | none => rfl
      | some f' => simp only [update_of_ne (apart q f' isHeld)]
    · intro q f' isHeld
      exact ⟨isHeld, by simp [update_of_ne (apart q f' isHeld)]⟩

theorem prepareFrame_keeps :
    ∃ found s', prepareFrame s = (.ok found, s') ∧ Keeps unsaved s s' ∧
      ∀ f, found = some f → f < s'.poolSize ∧ (s'.frameTable f).isValid = false := by
  obtain ⟨keeps, chosen⟩ := victim_keeps sound
  unfold prepareFrame
  rcases isVictim : s.victim with ⟨_ | f, m⟩
  · rw [isVictim] at keeps
    exact ⟨none, m, rfl, keeps, fun f found => by cases found⟩
  · rw [isVictim] at keeps chosen
    obtain ⟨inside, idle⟩ := chosen f rfl
    have idle' : (m.frameTable f).isValid = true → (m.frameTable f).pinCount = 0 := by
      intro valid
      have held := keeps.sound.held (by rw [keeps.poolSize]; exact inside) valid
      have before := keeps.pins _ f held
      rw [before.2]
      exact idle (sound.frame before.1).2.1
    obtain ⟨s', taken, keeps', free⟩ :=
      takeFrame_keeps keeps.sound (by rw [keeps.poolSize]; exact inside) idle'
    refine ⟨some f, s', by simp only [taken], keeps.trans keeps', fun f' found => ?_⟩
    obtain rfl := Option.some.inj found
    exact ⟨by rw [keeps'.poolSize, keeps.poolSize]; exact inside, free⟩

theorem flushFrames_keeps (frames : List Nat)
    (inside : ∀ f ∈ frames, f < s.poolSize) :
    ∃ s', flushFrames frames s = (.ok (), s') ∧ Keeps unsaved s s' := by
  induction frames generalizing s with
  | nil => exact ⟨s, rfl, .refl sound⟩
  | cons f rest ih =>
    unfold flushFrames
    have first : ∃ m, (if (s.frameTable f).isValid then flushFrame f s else (.ok (), s)) =
        ((.ok (), m) : Except String Unit × BufferPoolManager Page) ∧ Keeps unsaved s m := by
      split
      · obtain ⟨m, flushed, keeps, -⟩ := flushFrame_keeps sound (inside f (by simp))
        exact ⟨m, flushed, keeps⟩
      · exact ⟨s, rfl, .refl sound⟩
    obtain ⟨m, ran, keeps⟩ := first
    obtain ⟨s', rest', keeps'⟩ := ih keeps.sound fun f' member => by
      rw [keeps.poolSize]
      exact inside f' (by simp [member])
    exact ⟨s', by rw [ran]; exact rest', keeps.trans keeps'⟩

end

end Flushing

private theorem setDisk_sound (sound : Sound unsaved s) {p : PageId} {content : Option Page}
    {d : DiskManager Page} (outside : s.pageTable p = none) (sets : Sets p content s.disk d) :
    Sound unsaved { s with disk := d } ∧
      shown { s with disk := d } = update (shown s) p content := by
  have others : ∀ q f, s.pageTable q = some f → livePage d q = livePage s.disk q := by
    intro q f held
    have other : q ≠ p := by
      rintro rfl
      rw [outside] at held
      cases held
    rw [sets.live, update_of_ne other]
  constructor
  · exact
      { disk := sets.sound
        table := sound.table
        live := fun q f held => by
          obtain ⟨page, live⟩ := sound.live q f held
          exact ⟨page, (others q f held).trans live⟩
        clean := fun q f held isClean saved =>
          (others q f held).trans (sound.clean q f held isClean saved)
        dirty := sound.dirty
        hand := sound.hand
        pinned := sound.pinned }
  · funext q
    by_cases here : q = p
    · subst here
      simp [shown, outside, sets.live]
    · rw [update_of_ne here]
      unfold shown
      dsimp only
      cases s.pageTable q with
      | some f => rfl
      | none => exact (congrFun sets.live q).trans (update_of_ne here _ _)

private theorem recordAccess_spec (frame : FrameDesc) :
    (recordAccess frame).pageId = frame.pageId ∧ (recordAccess frame).isDirty = frame.isDirty ∧
      (recordAccess frame).isValid = frame.isValid ∧
        (recordAccess frame).pinCount = frame.pinCount := by
  unfold recordAccess
  split <;> exact ⟨rfl, rfl, rfl, rfl⟩

private theorem install_sound (sound : Sound unsaved s) {p : PageId} {f : Nat} {page : Page}
    (inside : f < s.poolSize) (free : (s.frameTable f).isValid = false)
    (outside : s.pageTable p = none) (live : livePage s.disk p = some page) :
    Sound unsaved (s.install f p page) ∧ shown (s.install f p page) = shown s ∧
      ((s.install f p page).frameTable f).pinCount = 1 ∧
      ∀ q f', q ≠ p → ((s.install f p page).pageTable q = some f' ↔ s.pageTable q = some f') ∧
        (s.pageTable q = some f' →
          (s.install f p page).frameTable f' = s.frameTable f') := by
  obtain ⟨newId, newDirty, newValid, newPins⟩ := recordAccess_spec ⟨p, false, true, 1, 0⟩
  have apart : ∀ q f', s.pageTable q = some f' → f' ≠ f := by
    intro q f' held same
    subst same
    rw [(sound.frame held).2.1] at free
    cases free
  have table : ∀ q, q ≠ p → (s.install f p page).pageTable q = s.pageTable q :=
    fun q other => update_of_ne other _ _
  have own : (s.install f p page).pageTable p = some f := update_self _ _ _
  have ownFrame : (s.install f p page).frameTable f = recordAccess ⟨p, false, true, 1, 0⟩ :=
    update_self _ _ _
  have ownPage : (s.install f p page).pages f = page := update_self _ _ _
  have frames : ∀ f', f' ≠ f → (s.install f p page).frameTable f' = s.frameTable f' ∧
      (s.install f p page).pages f' = s.pages f' :=
    fun f' other => ⟨update_of_ne other _ _, update_of_ne other _ _⟩
  refine ⟨⟨sound.disk, ?_, ?_, ?_, ?_, sound.hand, ?_⟩, ?_, by rw [ownFrame, newPins],
    fun q f' other => ⟨by rw [table q other], fun held => (frames f' (apart q f' held)).1⟩⟩
  · intro q f'
    by_cases here : f' = f
    · subst here
      rw [ownFrame, newValid, newId]
      by_cases mine : q = p
      · subst mine
        rw [own]
        exact ⟨fun _ => ⟨inside, rfl, rfl⟩, fun _ => rfl⟩
      · rw [table q mine]
        constructor
        · intro held
          exact absurd rfl (apart q f' held)
        · rintro ⟨-, -, same⟩
          exact absurd same.symm mine
    · rw [(frames f' here).1]
      by_cases mine : q = p
      · subst mine
        rw [own]
        constructor
        · intro same
          exact absurd (Option.some.inj same).symm here
        · intro valid
          rw [(sound.table q f').mpr valid] at outside
          cases outside
      · rw [table q mine]
        exact sound.table q f'
  · intro q f' held
    by_cases mine : q = p
    · subst mine
      exact ⟨page, live⟩
    · rw [table q mine] at held
      exact sound.live q f' held
  · intro q f' held isClean saved
    by_cases mine : q = p
    · subst mine
      obtain rfl := Option.some.inj (own.symm.trans held)
      rw [ownPage]
      exact live
    · rw [table q mine] at held
      have elsewhere := frames f' (apart q f' held)
      rw [elsewhere.1] at isClean
      rw [elsewhere.2]
      exact sound.clean q f' held isClean saved
  · intro q
    have same : (s.install f p page).dirtyPageTable q = s.dirtyPageTable q := rfl
    rw [same, sound.dirty q]
    constructor
    · rintro ⟨f', held, isDirty⟩
      have mine : q ≠ p := by
        rintro rfl
        rw [outside] at held
        cases held
      exact ⟨f', (table q mine).trans held,
        by rw [(frames f' (apart q f' held)).1]; exact isDirty⟩
    · rintro ⟨f', held, isDirty⟩
      by_cases mine : q = p
      · subst mine
        obtain rfl := Option.some.inj (own.symm.trans held)
        rw [ownFrame, newDirty] at isDirty
        cases isDirty
      · rw [table q mine] at held
        rw [(frames f' (apart q f' held)).1] at isDirty
        exact ⟨f', held, isDirty⟩
  · intro q is
    obtain ⟨f', held, pins⟩ := sound.pinned q is
    have mine : q ≠ p := by
      rintro rfl
      rw [outside] at held
      cases held
    exact ⟨f', (table q mine).trans held, by rw [(frames f' (apart q f' held)).1]; exact pins⟩
  · funext q
    by_cases mine : q = p
    · subst mine
      unfold shown
      rw [own, outside]
      dsimp only
      rw [ownPage, live]
    · unfold shown
      rw [table q mine]
      cases held : s.pageTable q with
      | none => rfl
      | some f' => exact congrArg some (frames f' (apart q f' held)).2

private theorem repin_sound (sound : Sound unsaved s) (unsaved' : PageId → Bool) {p : PageId}
    {f : Nat} (held : s.pageTable p = some f) (frame : FrameDesc)
    (dirtyPageTable : PageId → Option Nat)
    (pageId : frame.pageId = p) (isValid : frame.isValid = true)
    (others : ∀ q, q ≠ p → unsaved' q = unsaved q ∧ dirtyPageTable q = s.dirtyPageTable q)
    (clean : frame.isDirty = false → unsaved' p = false →
      (s.frameTable f).isDirty = false ∧ unsaved p = false)
    (dirty : (dirtyPageTable p).isSome = frame.isDirty)
    (pinned : unsaved' p = true → 0 < frame.pinCount) :
    Sound unsaved' { s with
      frameTable := update s.frameTable f frame
      dirtyPageTable := dirtyPageTable } := by
  have inside := (sound.frame held).1
  have apart : ∀ q f', s.pageTable q = some f' → q ≠ p → f' ≠ f := by
    intro q f' isHeld other same
    subst same
    exact other (sound.injective isHeld held)
  refine ⟨sound.disk, ?_, sound.live, ?_, ?_, sound.hand, ?_⟩
  · intro q f'
    by_cases here : f' = f
    · subst here
      simp only [update_self, pageId, isValid]
      constructor
      · intro isHeld
        exact ⟨inside, trivial, sound.injective held isHeld⟩
      · rintro ⟨-, -, rfl⟩
        exact held
    · simp only [update_of_ne here]
      exact sound.table q f'
  · intro q f' isHeld isClean saved
    by_cases mine : q = p
    · subst mine
      obtain rfl := Option.some.inj (held.symm.trans isHeld)
      simp only [update_self] at isClean
      obtain ⟨before, savedBefore⟩ := clean isClean saved
      exact sound.clean q f isHeld before savedBefore
    · simp only [update_of_ne (apart q f' isHeld mine)] at isClean
      rw [(others q mine).1] at saved
      exact sound.clean q f' isHeld isClean saved
  · intro q
    by_cases mine : q = p
    · subst mine
      dsimp only
      rw [dirty]
      constructor
      · intro isDirty
        exact ⟨f, held, by simpa using isDirty⟩
      · rintro ⟨f', isHeld, isDirty⟩
        obtain rfl := Option.some.inj (held.symm.trans isHeld)
        simpa using isDirty
    · dsimp only
      rw [(others q mine).2, sound.dirty q]
      constructor
      · rintro ⟨f', isHeld, isDirty⟩
        exact ⟨f', isHeld, by simpa [update_of_ne (apart q f' isHeld mine)] using isDirty⟩
      · rintro ⟨f', isHeld, isDirty⟩
        exact ⟨f', isHeld, by simpa [update_of_ne (apart q f' isHeld mine)] using isDirty⟩
  · intro q is
    by_cases mine : q = p
    · subst mine
      exact ⟨f, held, by simpa using pinned is⟩
    · rw [(others q mine).1] at is
      obtain ⟨f', isHeld, pins⟩ := sound.pinned q is
      exact ⟨f', isHeld, by simpa [update_of_ne (apart q f' isHeld mine)] using pins⟩

section Callers

variable [Inhabited Page]

/-- The callers of the pool: the pointers they hold, the pages they have modified since these
were last unpinned dirty, and the flat store of pages that they mean. -/
structure Client (Page : Type) where
  pool : BufferPoolManager Page
  pins : List (PageId × Nat)
  unsaved : PageId → Bool
  store : PageId → Option Page

inductive Call (Page : Type)
  | fetch (pageId : PageId)
  | new (relationId : Nat)
  | modify (pageId : PageId) (frameId : Nat) (page : Page)
  | unpin (pageId : PageId) (isDirty : Bool)
  | flush (pageId : PageId)
  | flushAll
  | delete (pageId : PageId)

/-- A call, whatever it returns or throws. On the store, `NewPage` puts zeros, a write its
content, and `DeletePage` takes the page out. -/
def Client.call (pageLsn : Page → Nat) (c : Client Page) : Call Page → Client Page
  | .fetch p =>
    match fetchPage p c.pool with
    | (.ok (some f), pool) => { c with pool := pool, pins := (p, f) :: c.pins }
    | (_, pool) => { c with pool := pool }
  | .new id =>
    match newPage id c.pool with
    | (.ok (some (p, f)), pool) =>
      { c with
        pool := pool, pins := (p, f) :: c.pins
        store := update c.store p (some default) }
    | (_, pool) => { c with pool := pool }
  | .modify p f page =>
    { c with
      pool := c.pool.writeFrame f page
      unsaved := update c.unsaved p true
      store := update c.store p (some page) }
  | .unpin p isDirty =>
    match unpinPage pageLsn p isDirty c.pool with
    | (.ok true, pool) =>
      { c with
        pool := pool, pins := c.pins.eraseP (·.1 = p)
        unsaved := if isDirty then update c.unsaved p false else c.unsaved }
    | (_, pool) => { c with pool := pool }
  | .flush p => { c with pool := (flushPage p c.pool).2 }
  | .flushAll => { c with pool := (flushAllPages c.pool).2 }
  | .delete p =>
    match deletePage p c.pool with
    | (.ok true, pool) => { c with pool := pool, store := update c.store p none }
    | (_, pool) => { c with pool := pool }

/-- Freed pages are not fetched, writes go through a pointer that is held, and the last one to unpin
a modified page unpins it dirty, if nobody has before. -/
def disciplined (c : Client Page) : Call Page → Prop
  | .fetch p => isFree c.pool.disk p = false
  | .modify p f _ => (p, f) ∈ c.pins
  | .unpin p isDirty => isDirty = false → c.unsaved p = true → 2 ≤ c.pins.countP (·.1 = p)
  | _ => True

instance (c : Client Page) (call : Call Page) : Decidable (disciplined c call) := by
  cases call <;> unfold disciplined <;> infer_instance

structure OpenDisk (Page : Type) where
  disk : DiskManager Page
  sound : DiskSound disk

def Client.start (poolSize : Nat) (d : OpenDisk Page) : Client Page where
  pool := .new poolSize d.disk
  pins := []
  unsaved _ := false
  store := livePage d.disk

/-- The pool shows the store, and holds the pointers' pages in the pointers' frames. -/
structure Inv (c : Client Page) : Prop where
  sound : Sound c.unsaved c.pool
  store : shown c.pool = c.store
  pins : ∀ pin ∈ c.pins, c.pool.pageTable pin.1 = some pin.2
  counts : ∀ p f, c.pool.pageTable p = some f →
    (c.pool.frameTable f).pinCount = c.pins.countP (·.1 = p)

private theorem Inv.start (poolSize : Nat) (d : OpenDisk Page) :
    Inv (.start poolSize d) where
  sound :=
    { disk := d.sound
      table := fun p f => by simp [Client.start, BufferPoolManager.new, FrameDesc.reset]
      live := fun p f held => by simp [Client.start, BufferPoolManager.new] at held
      clean := fun p f held => by simp [Client.start, BufferPoolManager.new] at held
      dirty := fun p => by simp [Client.start, BufferPoolManager.new]
      hand := Nat.pos_of_ne_zero
      pinned := fun p is => by simp [Client.start] at is }
  store := rfl
  pins pin member := by simp [Client.start] at member
  counts p f held := by simp [Client.start, BufferPoolManager.new] at held

variable {c : Client Page}

omit [Inhabited Page] in
private theorem Inv.pinned (inv : Inv c) {pin : PageId × Nat}
    (member : pin ∈ c.pins) : 0 < (c.pool.frameTable pin.2).pinCount := by
  rw [inv.counts pin.1 pin.2 (inv.pins pin member)]
  exact List.countP_pos_iff.mpr ⟨pin, member, by simp⟩

omit [Inhabited Page] in
private theorem Inv.keeps (inv : Inv c) {pool : BufferPoolManager Page}
    (keeps : Keeps c.unsaved c.pool pool) : Inv { c with pool := pool } where
  sound := keeps.sound
  store := keeps.shown.trans inv.store
  pins pin member := keeps.stays _ _ (inv.pins pin member) (inv.pinned member)
  counts p f held := by
    have before := keeps.pins p f held
    exact before.2.trans (inv.counts p f before.1)

private theorem countP_other {p q : PageId} (f : Nat) (pins : List (PageId × Nat))
    (other : q ≠ p) : ((p, f) :: pins).countP (·.1 = q) = pins.countP (·.1 = q) := by
  rw [List.countP_cons_of_neg]
  simpa using Ne.symm other

variable {p : PageId}

omit [Inhabited Page] in
private theorem Inv.install (inv : Inv c) {f : Nat} {page : Page}
    (inside : f < c.pool.poolSize) (free : (c.pool.frameTable f).isValid = false)
    (outside : c.pool.pageTable p = none) (live : livePage c.pool.disk p = some page) :
    Inv { c with pool := c.pool.install f p page, pins := (p, f) :: c.pins } := by
  obtain ⟨sound, shown', pins, others⟩ :=
    install_sound inv.sound inside free outside live
  have own : (c.pool.install f p page).pageTable p = some f := update_self _ _ _
  have unpinned : c.pins.countP (·.1 = p) = 0 := by
    apply List.countP_eq_zero.mpr
    intro pin member same
    have held := inv.pins pin member
    rw [of_decide_eq_true same, outside] at held
    cases held
  refine ⟨sound, shown'.trans inv.store, ?_, ?_⟩
  · intro pin member
    rcases List.mem_cons.mp member with rfl | old
    · exact own
    · have held := inv.pins pin old
      have other : pin.1 ≠ p := by
        intro same
        rw [same, outside] at held
        cases held
      exact ((others pin.1 pin.2 other).1).mpr held
  · intro q f' held
    by_cases mine : q = p
    · subst mine
      obtain rfl := Option.some.inj (own.symm.trans held)
      rw [pins, List.countP_cons_of_pos (by simp), unpinned]
    · obtain ⟨table, frame⟩ := others q f' mine
      have before := table.mp held
      rw [frame before, countP_other f c.pins mine]
      exact inv.counts q f' before

omit [Inhabited Page] in
private theorem Inv.repin (inv : Inv c) {f : Nat}
    (held : c.pool.pageTable p = some f) {frame : FrameDesc} {unsaved : PageId → Bool}
    {dirtyPageTable : PageId → Option Nat} {pins : List (PageId × Nat)}
    (sound : Sound unsaved { c.pool with
      frameTable := update c.pool.frameTable f frame
      dirtyPageTable := dirtyPageTable })
    (listed : ∀ pin ∈ pins, pin = (p, f) ∨ pin ∈ c.pins)
    (count : frame.pinCount = pins.countP (·.1 = p))
    (others : ∀ q, q ≠ p → pins.countP (·.1 = q) = c.pins.countP (·.1 = q)) :
    Inv { c with
      pool := { c.pool with
        frameTable := update c.pool.frameTable f frame
        dirtyPageTable := dirtyPageTable }
      unsaved := unsaved
      pins := pins } where
  sound := sound
  store := inv.store
  pins pin member := by
    rcases listed pin member with rfl | old
    · exact held
    · exact inv.pins pin old
  counts q f' isHeld := by
    by_cases mine : q = p
    · subst mine
      obtain rfl := Option.some.inj (held.symm.trans isHeld)
      simpa using count
    · have apart : f' ≠ f := by
        rintro rfl
        exact mine (inv.sound.injective isHeld held)
      simp only [update_of_ne apart]
      rw [others q mine]
      exact inv.counts q f' isHeld

private theorem Inv.fetch (inv : Inv c) (pageLsn : Page → Nat)
    (allocated : isFree c.pool.disk p = false) : Inv (c.call pageLsn (.fetch p)) := by
  unfold Client.call fetchPage
  dsimp only
  cases held : c.pool.pageTable p with
  | some f =>
    obtain ⟨pageId, isDirty, isValid, pinCount⟩ := recordAccess_spec
      { c.pool.frameTable f with pinCount := (c.pool.frameTable f).pinCount + 1 }
    have frame := inv.sound.frame held
    have listed := inv.sound.dirty p
    have sound := repin_sound inv.sound c.unsaved held _ c.pool.dirtyPageTable
      (pageId.trans frame.2.2) (isValid.trans frame.2.1) (fun q _ => ⟨rfl, rfl⟩)
      (fun clean saved => ⟨isDirty ▸ clean, saved⟩)
      (by
        rw [isDirty, Bool.eq_iff_iff, listed]
        constructor
        · rintro ⟨f', same, dirty⟩
          obtain rfl := Option.some.inj (held.symm.trans same)
          exact dirty
        · exact fun dirty => ⟨f, held, dirty⟩)
      (fun _ => by rw [pinCount]; exact Nat.succ_pos _)
    apply inv.repin held sound
    · intro pin member
      exact List.mem_cons.mp member
    · rw [pinCount, List.countP_cons_of_pos (by simp), ← inv.counts p f held]
    · exact fun q other => countP_other f c.pins other
  | none =>
    dsimp only
    cases count : c.pool.disk.getNumPages p.relationId with
    | error what => exact inv
    | ok numPages =>
      by_cases inRange : numPages ≤ p.pageNo
      · simp only [if_pos inRange]
        exact inv
      · obtain ⟨found, m, prepared, keeps, chosen⟩ := prepareFrame_keeps inv.sound
        simp only [if_neg inRange, prepared]
        have later := inv.keeps keeps
        cases found with
        | none => exact later
        | some f =>
          obtain ⟨inside, free⟩ := chosen f rfl
          have outside : m.pageTable p = none := by
            cases isHeld : m.pageTable p with
            | none => rfl
            | some f' =>
              rw [(keeps.pins p f' isHeld).1] at held
              cases held
          have live : ∃ page, livePage c.pool.disk p = some page := by
            unfold DiskManager.getNumPages at count
            cases isOpen : c.pool.disk.relations p.relationId with
            | none => simp [isOpen] at count
            | some h =>
              simp only [isOpen, Except.ok.injEq] at count
              subst count
              apply inv.sound.disk.isSome isOpen (by omega)
              simpa [isFree, isOpen] using allocated
          obtain ⟨page, live⟩ := live
          have onDisk : livePage m.disk p = some page := by
            have same := congrFun keeps.shown p
            simpa [shown, outside, held, live] using same
          simp only [readPage_live onDisk]
          exact later.install inside free outside onDisk

private theorem Inv.new (inv : Inv c) (pageLsn : Page → Nat) (id : Nat) :
    Inv (c.call pageLsn (.new id)) := by
  unfold Client.call newPage
  dsimp only
  obtain ⟨found, m, prepared, keeps, chosen⟩ := prepareFrame_keeps inv.sound
  rw [prepared]
  have later := inv.keeps keeps
  cases found with
  | none => exact later
  | some f =>
    obtain ⟨inside, free⟩ := chosen f rfl
    dsimp only
    cases isOpen : m.disk.relations id with
    | none =>
      have refused : allocatePage id m.disk = (.error "Relation is not open", m.disk) := by
        unfold allocatePage
        simp only [isOpen]
      rw [refused]
      exact later
    | some h =>
      obtain ⟨pageNo, d, allocated, fresh, sets⟩ :=
        allocatePage_live keeps.sound.disk isOpen
      rw [allocated]
      have outside : m.pageTable ⟨id, pageNo⟩ = none := by
        cases isHeld : m.pageTable ⟨id, pageNo⟩ with
        | none => rfl
        | some f' =>
          obtain ⟨page, live⟩ := keeps.sound.live _ f' isHeld
          rw [fresh] at live
          cases live
      obtain ⟨sound, shown'⟩ := setDisk_sound keeps.sound outside sets
      have grown : Inv { c with
          pool := { m with disk := d }
          store := update c.store ⟨id, pageNo⟩ (some default) } :=
        { sound := sound
          store := by rw [shown', keeps.shown, inv.store]
          pins := later.pins
          counts := later.counts }
      exact grown.install inside free outside
        (by rw [sets.live, update_self])

private theorem Inv.new_fresh (inv : Inv c) {id : Nat} {f : Nat}
    {pool : BufferPoolManager Page} (made : newPage id c.pool = (.ok (some (p, f)), pool)) :
    c.store p = none := by
  obtain ⟨found, m, prepared, keeps, -⟩ := prepareFrame_keeps inv.sound
  simp only [newPage, prepared] at made
  cases found with
  | none => cases made
  | some f' =>
    cases isOpen : m.disk.relations id with
    | none => simp [allocatePage, isOpen] at made
    | some h =>
      obtain ⟨pageNo, d, allocated, fresh, -⟩ := allocatePage_live keeps.sound.disk isOpen
      simp only [allocated, Prod.mk.injEq, Except.ok.injEq, Option.some.injEq] at made
      obtain ⟨⟨rfl, -⟩, -⟩ := made
      rw [← inv.store, ← keeps.shown]
      unfold shown
      cases isHeld : m.pageTable ⟨id, pageNo⟩ with
      | none => exact fresh
      | some f' =>
        obtain ⟨page, live⟩ := keeps.sound.live _ f' isHeld
        rw [fresh] at live
        cases live

private theorem Inv.modify (inv : Inv c) (pageLsn : Page → Nat)
    {f : Nat} (page : Page) (member : (p, f) ∈ c.pins) :
    Inv (c.call pageLsn (.modify p f page)) := by
  have held := inv.pins (p, f) member
  have pinned := inv.pinned member
  have apart : ∀ q f', c.pool.pageTable q = some f' → q ≠ p → f' ≠ f := by
    rintro q f' isHeld other rfl
    exact other (inv.sound.injective isHeld held)
  unfold Client.call BufferPoolManager.writeFrame
  refine ⟨⟨inv.sound.disk, inv.sound.table, inv.sound.live, ?_, inv.sound.dirty,
    inv.sound.hand, ?_⟩, ?_, inv.pins, inv.counts⟩
  · intro q f' isHeld isClean saved
    have other : q ≠ p := by
      rintro rfl
      simp at saved
    simp only [update_of_ne other, update_of_ne (apart q f' isHeld other)]
      at saved ⊢
    exact inv.sound.clean q f' isHeld isClean saved
  · intro q is
    by_cases mine : q = p
    · subst mine
      exact ⟨f, held, pinned⟩
    · simp only [update_of_ne mine] at is
      exact inv.sound.pinned q is
  · funext q
    have before := congrFun inv.store q
    by_cases mine : q = p
    · subst mine
      simp [shown, held]
    · simp only [update_of_ne mine]
      rw [← before]
      unfold shown
      dsimp only
      cases isHeld : c.pool.pageTable q with
      | none => rfl
      | some f' => simp only [update_of_ne (apart q f' isHeld mine)]

private theorem countP_eraseP {pins : List (PageId × Nat)} :
    (pins.eraseP (·.1 = p)).countP (·.1 = p) = pins.countP (·.1 = p) - 1 ∧
      ∀ q, q ≠ p → (pins.eraseP (·.1 = p)).countP (·.1 = q) = pins.countP (·.1 = q) := by
  induction pins with
  | nil => simp
  | cons pin rest ih =>
    by_cases here : pin.1 = p
    · rw [List.eraseP_cons_of_pos (by simpa using here)]
      refine ⟨by rw [List.countP_cons_of_pos (by simpa using here)]; omega, fun q other => ?_⟩
      rw [List.countP_cons_of_neg (by simpa [here] using Ne.symm other)]
    · rw [List.eraseP_cons_of_neg (by simpa using here)]
      refine ⟨?_, fun q other => ?_⟩
      · rw [List.countP_cons_of_neg (by simpa using here),
          List.countP_cons_of_neg (by simpa using here)]
        exact ih.1
      · rw [List.countP_cons, List.countP_cons, ih.2 q other]

private theorem Inv.unpin (inv : Inv c) (pageLsn : Page → Nat)
    {isDirty : Bool} (saves : isDirty = false → c.unsaved p = true →
      2 ≤ c.pins.countP (·.1 = p)) : Inv (c.call pageLsn (.unpin p isDirty)) := by
  unfold Client.call unpinPage
  dsimp only
  cases held : c.pool.pageTable p with
  | none => exact inv
  | some f =>
    by_cases idle : (c.pool.frameTable f).pinCount = 0
    · simp only [if_pos idle]
      exact inv
    · have frame := inv.sound.frame held
      have count := inv.counts p f held
      have erased := @countP_eraseP p c.pins
      have listed : ∀ pin ∈ c.pins.eraseP (·.1 = p), pin = (p, f) ∨ pin ∈ c.pins :=
        fun pin member => .inr (List.mem_of_mem_eraseP member)
      simp only [if_neg idle]
      cases isDirty with
      | true =>
        have sound := repin_sound inv.sound (update c.unsaved p false) held
          { c.pool.frameTable f with
            pinCount := (c.pool.frameTable f).pinCount - 1, isDirty := true }
          (update c.pool.dirtyPageTable p
            (some ((c.pool.dirtyPageTable p).elim (pageLsn (c.pool.pages f))
              (min (pageLsn (c.pool.pages f)))))) frame.2.2 frame.2.1
          (fun q other => ⟨update_of_ne other _ _, update_of_ne other _ _⟩)
          (fun clean => by cases clean) (by simp) (fun is => by simp at is)
        exact inv.repin held sound listed (by simp only [count]; exact erased.1.symm) erased.2
      | false =>
        have dirty := inv.sound.dirty p
        have sound := repin_sound inv.sound c.unsaved held
          { c.pool.frameTable f with
            pinCount := (c.pool.frameTable f).pinCount - 1 }
          c.pool.dirtyPageTable frame.2.2 frame.2.1 (fun q _ => ⟨rfl, rfl⟩)
          (fun clean saved => ⟨clean, saved⟩)
          (by
            rw [Bool.eq_iff_iff, dirty]
            constructor
            · rintro ⟨f', same, isDirty⟩
              obtain rfl := Option.some.inj (held.symm.trans same)
              exact isDirty
            · exact fun isDirty => ⟨f, held, isDirty⟩)
          (fun is => by
            have others := saves rfl is
            simp only [count]
            omega)
        exact inv.repin held sound listed (by simp only [count]; exact erased.1.symm) erased.2

private theorem Inv.delete (inv : Inv c) (pageLsn : Page → Nat) (p : PageId) :
    Inv (c.call pageLsn (.delete p)) := by
  cases held : c.pool.pageTable p with
  | none =>
    rcases deallocatePage_live inv.sound.disk p with ⟨d, freed, sets⟩ | ⟨what, refused, -⟩
    · obtain ⟨sound, shown'⟩ := setDisk_sound inv.sound held sets
      simp only [Client.call, deletePage, held, freed]
      exact ⟨sound, by rw [shown', inv.store], inv.pins, inv.counts⟩
    · simp only [Client.call, deletePage, held, refused]
      exact inv
  | some f =>
    by_cases pinned : 0 < (c.pool.frameTable f).pinCount
    · simp only [Client.call, deletePage, held, if_pos pinned]
      exact inv
    · have unpinned : (c.pool.frameTable f).pinCount = 0 := by omega
      obtain ⟨sound, shown', frames⟩ := dropped_sound inv.sound held unpinned
      obtain ⟨page, live⟩ := inv.sound.live p f held
      have noPin : ∀ pin ∈ c.pins, pin.1 ≠ p := by
        intro pin member same
        have isPinned := inv.pinned member
        have isHeld := inv.pins pin member
        rw [same, held] at isHeld
        obtain same := Option.some.inj isHeld
        rw [← same] at isPinned
        omega
      rcases deallocatePage_live inv.sound.disk p with ⟨d, freed, sets⟩ | ⟨what, -, missing⟩
      · have outside : (dropped c.pool f p).pageTable p = none := update_self _ _ _
        obtain ⟨sound', shown''⟩ := setDisk_sound sound outside sets
        simp only [Client.call, deletePage, held, if_neg pinned, freed]
        change Inv { c with
          pool := { dropped c.pool f p with disk := d }
          store := update c.store p none }
        refine ⟨sound', ?_, fun pin member => ?_, fun q f' isHeld => ?_⟩
        · change shown { dropped c.pool f p with disk := d } = _
          rw [shown'', shown', Function.update_idem, inv.store]
        · exact (dropped_pageTable (f := f)).mpr ⟨inv.pins pin member, noPin pin member⟩
        · have before := ((dropped_pageTable (f := f)).mp isHeld).1
          change ((dropped c.pool f p).frameTable f').pinCount = _
          rw [frames q f' isHeld]
          exact inv.counts q f' before
      · rw [missing] at live
        cases live

private theorem Inv.flush (inv : Inv c) (pageLsn : Page → Nat) (p : PageId) :
    Inv (c.call pageLsn (.flush p)) := by
  unfold Client.call flushPage
  dsimp only
  cases held : c.pool.pageTable p with
  | none => exact inv
  | some f =>
    obtain ⟨m, flushed, keeps, -⟩ := flushFrame_keeps inv.sound (inv.sound.frame held).1
    simp only [flushed]
    exact inv.keeps keeps

private theorem Inv.flushAll (inv : Inv c) (pageLsn : Page → Nat) :
    Inv (c.call pageLsn .flushAll) := by
  unfold Client.call flushAllPages
  obtain ⟨m, flushed, keeps⟩ := flushFrames_keeps inv.sound (List.range c.pool.poolSize)
    fun f member => List.mem_range.mp member
  simp only [flushed]
  exact inv.keeps keeps

private theorem Inv.call (inv : Inv c) (pageLsn : Page → Nat)
    {call : Call Page} (allowed : disciplined c call) : Inv (c.call pageLsn call) := by
  cases call with
  | fetch p => exact inv.fetch pageLsn allowed
  | new id => exact inv.new pageLsn id
  | modify p f page => exact inv.modify pageLsn page allowed
  | unpin p isDirty => exact inv.unpin pageLsn allowed
  | flush p => exact inv.flush pageLsn p
  | flushAll => exact inv.flushAll pageLsn
  | delete p => exact inv.delete pageLsn p

/-- What callers rely on between two calls. A fetch, whatever it evicts, shows the store; a new
page was not in the store and shows zeros; the pages that pointers are held to stay in these
frames. -/
structure RefinesStore (c : Client Page) : Prop where
  fetch : ∀ p f pool, isFree c.pool.disk p = false →
    fetchPage p c.pool = (.ok (some f), pool) → c.store p = some (pool.pages f)
  new : ∀ id p f pool, newPage id c.pool = (.ok (some (p, f)), pool) →
    c.store p = none ∧ pool.pages f = default
  pinned : ∀ pin ∈ c.pins, c.pool.pageTable pin.1 = some pin.2 ∧
    0 < (c.pool.frameTable pin.2).pinCount ∧ c.store pin.1 = some (c.pool.pages pin.2)
  bijective : Set.BijOn c.pool.pageTable {p | (c.pool.pageTable p).isSome}
    (some '' {f | f < c.pool.poolSize ∧ (c.pool.frameTable f).isValid = true})
  pageIds : ∀ p f, c.pool.pageTable p = some f → (c.pool.frameTable f).pageId = p
  dirtyKeys : {p | (c.pool.dirtyPageTable p).isSome} =
    {p | ∃ f < c.pool.poolSize, (c.pool.frameTable f).isValid = true ∧
      (c.pool.frameTable f).isDirty = true ∧ (c.pool.frameTable f).pageId = p}

omit [Inhabited Page] in
private theorem Inv.shows (inv : Inv c) {pin : PageId × Nat}
    (member : pin ∈ c.pins) : c.store pin.1 = some (c.pool.pages pin.2) := by
  rw [← inv.store]
  simp [shown, inv.pins pin member]

private theorem Inv.refines (inv : Inv c) (pageLsn : Page → Nat) :
    RefinesStore c where
  fetch p f pool allocated fetched := by
    have later := inv.fetch pageLsn allocated
    simp only [Client.call, fetched] at later
    exact later.shows List.mem_cons_self
  new id p f pool made := by
    have later := inv.new pageLsn id
    simp only [Client.call, made] at later
    have zeros := later.shows List.mem_cons_self
    simp only [update_self, Option.some.injEq] at zeros
    exact ⟨inv.new_fresh made, zeros.symm⟩
  pinned pin member := ⟨inv.pins pin member, inv.pinned member, inv.shows member⟩
  bijective := by
    refine ⟨fun p held => ?_, fun p held q _ same => ?_, fun place is => ?_⟩
    · obtain ⟨f, held⟩ := Option.isSome_iff_exists.mp held
      have frame := inv.sound.frame held
      exact ⟨f, ⟨frame.1, frame.2.1⟩, held.symm⟩
    · obtain ⟨f, held⟩ := Option.isSome_iff_exists.mp held
      exact inv.sound.injective held (same.symm.trans held)
    · obtain ⟨f, ⟨inside, valid⟩, rfl⟩ := is
      have held := inv.sound.held inside valid
      exact ⟨_, by simp [held], held⟩
  pageIds p f held := (inv.sound.frame held).2.2
  dirtyKeys := by
    ext p
    simp only [Set.mem_ofPred_eq, inv.sound.dirty p]
    constructor
    · rintro ⟨f, held, isDirty⟩
      have frame := inv.sound.frame held
      exact ⟨f, frame.1, frame.2.1, isDirty, frame.2.2⟩
    · rintro ⟨f, inside, valid, isDirty, rfl⟩
      exact ⟨f, inv.sound.held inside valid, isDirty⟩

def step (pageLsn : Page → Nat) (c : Client Page) (call : Call Page) : Option (Client Page) :=
  some (c.call pageLsn call)

theorem refinesStore {poolSize : Nat} {d : OpenDisk Page} {pageLsn : Page → Nat}
    {calls : List (Call Page)} {c : Client Page}
    (run : Run (step pageLsn) disciplined (.start poolSize d) calls c) : RefinesStore c := by
  have inv : Inv c := by
    apply run.invariant Inv (Inv.start poolSize d)
    intro m call t inv allowed taken
    cases taken
    exact inv.call pageLsn allowed
  exact inv.refines pageLsn

def emptyDisk : DiskManager Nat where
  directory path := if path = "t" then some 0 else none
  files _ := []
  nextFile := 1
  allocatorStates _ := none
  relations id := if id = 1 then some ⟨"t", 0, 0, []⟩ else none

private theorem emptyDisk_open {id : Nat} {h : RelationHandle}
    (isOpen : emptyDisk.relations id = some h) : id = 1 ∧ h = ⟨"t", 0, 0, []⟩ := by
  obtain ⟨is, same⟩ := Option.ite_none_right_eq_some.mp isOpen
  exact ⟨is, (Option.some.inj same).symm⟩

private theorem emptyDisk_leads {path : String} {file : Nat}
    (leads : emptyDisk.directory path = some file) : path = "t" ∧ file = 0 := by
  obtain ⟨is, same⟩ := Option.ite_none_right_eq_some.mp leads
  exact ⟨is, (Option.some.inj same).symm⟩

private theorem emptyDisk_sound : DiskSound emptyDisk where
  layout :=
    { linked := by
        intro id h isOpen
        obtain ⟨-, rfl⟩ := emptyDisk_open isOpen
        rfl
      apart := fun id id' h h' isOpen isOpen' _ =>
        (emptyDisk_open isOpen).1.trans (emptyDisk_open isOpen').1.symm
      single := fun path path' file leads leads' =>
        (emptyDisk_leads leads).1.trans (emptyDisk_leads leads').1.symm
      known := by
        intro path file leads
        obtain ⟨-, rfl⟩ := emptyDisk_leads leads
        exact Nat.one_pos }
  inFile id h isOpen := by
    obtain ⟨-, rfl⟩ := emptyDisk_open isOpen
    exact Nat.zero_le _
  freeInRange id h isOpen := by
    obtain ⟨-, rfl⟩ := emptyDisk_open isOpen
    simp
  freeOnce id h isOpen := by
    obtain ⟨-, rfl⟩ := emptyDisk_open isOpen
    exact List.nodup_nil

def emptyRelation : OpenDisk Nat := ⟨emptyDisk, emptyDisk_sound⟩

/-- With one frame, the second page evicts the first, and the fetch reads it back. -/
def evictions : List (Call Nat) :=
  [.new 1, .modify ⟨1, 0⟩ 0 7, .unpin ⟨1, 0⟩ true, .new 1, .unpin ⟨1, 1⟩ false, .fetch ⟨1, 0⟩]

theorem refinesStore_evictions :
    ∃ c, Run (step id) disciplined (.start 1 emptyRelation) evictions c ∧ RefinesStore c ∧
      c.pins = [(⟨1, 0⟩, 0)] ∧ c.pool.pages 0 = 7 :=
  have run : Run (step id) disciplined (.start 1 emptyRelation) evictions _ := run_of_exec rfl
  ⟨_, run, refinesStore run, rfl, rfl⟩

end Callers

end GraniteDb.Buffer.FlatStore
