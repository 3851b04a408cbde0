/- The clock finds a frame to give away exactly when there is one. -/

import GraniteDb.Buffer.FrameTable

namespace GraniteDb.Buffer.ClockSweep

open Common.Types Buffer.FrameTable
open Function (update_of_ne update_self)
open Nat (mod_lt)

section Ring

/-- The places from the hand up to `target`, going forward. -/
def ahead (size hand target : Nat) : Nat :=
  if hand ≤ target then target - hand else target + size - hand

variable {hand size : Nat}

section

variable (inside : hand < size)

include inside

theorem ahead_lt {target : Nat} (within : target < size) :
    ahead size hand target < size := by
  unfold ahead
  split <;> omega

theorem next_eq :
    (hand + 1) % size = if hand + 1 = size then 0 else hand + 1 := by
  split
  · rename_i last
    rw [last, Nat.mod_self]
  · apply Nat.mod_eq_of_lt
    omega

theorem ahead_next {target : Nat} (within : target < size)
    (elsewhere : hand ≠ target) :
    ahead size ((hand + 1) % size) target + 1 = ahead size hand target := by
  rw [next_eq inside]
  unfold ahead
  split <;> split <;> split <;> omega

theorem ahead_behind : ahead size ((hand + 1) % size) hand + 1 = size := by
  rw [next_eq inside]
  unfold ahead
  split <;> split <;> omega

end

end Ring

section Sweep

def Evictable (frame : FrameDesc) : Prop := frame.isValid = false ∨ frame.pinCount = 0

instance (frame : FrameDesc) : Decidable (Evictable frame) := by
  unfold Evictable
  infer_instance

theorem not_evictable {frame : FrameDesc} :
    ¬Evictable frame ↔ frame.isValid = true ∧ 0 < frame.pinCount := by
  unfold Evictable
  rw [not_or, Bool.not_eq_false, Nat.pos_iff_ne_zero]

variable {poolSize : Nat} {frames : Nat → FrameDesc}

variable {hand : Nat}

theorem victimLoop_pinned
    (pinned : ∀ f < poolSize, (frames f).isValid = true ∧ 0 < (frames f).pinCount) (steps : Nat)
    (inside : hand < poolSize) :
    (victimLoop poolSize steps hand frames).1 = none := by
  induction steps generalizing hand with
  | zero => rfl
  | succ steps ih =>
    obtain ⟨valid, pins⟩ := pinned hand inside
    have next : (hand + 1) % poolSize < poolSize := mod_lt _ (by omega)
    have onward : victimLoop poolSize (steps + 1) hand frames =
        victimLoop poolSize steps ((hand + 1) % poolSize) frames := by
      simp [victimLoop, valid, pins]
    rw [onward]
    exact ih next

/-- The sweep ends at the latest at `target`, which it passes once for each of its uses. A step
lowers the sum of the places ahead and the rounds that are left. -/
theorem victimLoop_finds {target : Nat} (within : target < poolSize) (steps : Nat)
    (inside : hand < poolSize) (evictable : Evictable (frames target))
    (enough : ahead poolSize hand target + poolSize * (frames target).usageCount < steps) :
    (victimLoop poolSize steps hand frames).1.isSome = true := by
  induction steps generalizing hand frames with
  | zero => omega
  | succ steps ih =>
    have next : (hand + 1) % poolSize < poolSize := mod_lt _ (by omega)
    unfold victimLoop
    dsimp only
    split
    · rfl
    rename_i valid
    by_cases here : hand = target
    · subst here
      have unpinned : (frames hand).pinCount = 0 := evictable.resolve_left valid
      have closer := ahead_behind inside
      rw [if_neg (by omega)]
      split
      · rfl
      · rename_i used
        apply ih next
        · right
          rw [update_self]
          exact unpinned
        · rw [update_self]
          have rounds : poolSize * ((frames hand).usageCount - 1) + poolSize =
              poolSize * (frames hand).usageCount := by
            rw [← Nat.mul_succ, Nat.succ_eq_add_one, Nat.sub_add_cancel (by omega)]
          show ahead poolSize ((hand + 1) % poolSize) hand +
            poolSize * ((frames hand).usageCount - 1) < steps
          omega
    · have closer := ahead_next inside within here
      split
      · apply ih next evictable
        omega
      · split
        · rfl
        · have away : target ≠ hand := fun same => here same.symm
          apply ih next
          · rw [update_of_ne away]
            exact evictable
          · rw [update_of_ne away]
            omega

theorem victimLoop_more (extra : Nat) {steps f : Nat}
    (found : (victimLoop poolSize steps hand frames).1 = some f) :
    (victimLoop poolSize (steps + extra) hand frames).1 = some f := by
  induction steps generalizing hand frames with
  | zero => cases found
  | succ steps ih =>
    rw [Nat.add_right_comm]
    unfold victimLoop at found ⊢
    dsimp only at found ⊢
    split at found
    · rename_i free
      rw [if_pos free]
      exact found
    rename_i valid
    rw [if_neg valid]
    split at found
    · rename_i pinned
      rw [if_pos pinned]
      exact ih found
    rename_i unpinned
    rw [if_neg unpinned]
    split at found
    · rename_i unused
      rw [if_pos unused]
      exact found
    · rename_i used
      rw [if_neg used]
      exact ih found

/-- Only usage counts of frames in the pool that are valid and not pinned differ. -/
def Recounted (poolSize : Nat) (frames frames' : Nat → FrameDesc) : Prop :=
  ∃ counts : Nat → Nat, (∀ f, frames' f = { frames f with usageCount := counts f }) ∧
    ∀ f, counts f ≤ (frames f).usageCount ∧
      (counts f ≠ (frames f).usageCount →
        f < poolSize ∧ (frames f).isValid = true ∧ (frames f).pinCount = 0)

theorem Recounted.refl : Recounted poolSize frames frames :=
  ⟨fun f => (frames f).usageCount, fun _ => rfl, fun _ => ⟨Nat.le_refl _, fun no => absurd rfl no⟩⟩

theorem Recounted.lowered {frames' : Nat → FrameDesc} (inside : hand < poolSize)
    (valid : (frames hand).isValid = true) (unpinned : (frames hand).pinCount = 0)
    (rest : Recounted poolSize (Function.update frames hand { frames hand with usageCount :=
      (frames hand).usageCount - 1 }) frames') :
    Recounted poolSize frames frames' := by
  obtain ⟨counts, same, only⟩ := rest
  refine ⟨counts, fun f => ?_, fun f => ?_⟩
  · have frame := same f
    by_cases here : f = hand
    · subst here
      rw [update_self] at frame
      exact frame
    · rw [update_of_ne here] at frame
      exact frame
  · have count := only f
    by_cases here : f = hand
    · subst here
      rw [update_self] at count
      have bound : counts f ≤ (frames f).usageCount - 1 := count.1
      exact ⟨by omega, fun _ => ⟨inside, valid, unpinned⟩⟩
    · rw [update_of_ne here] at count
      exact count

theorem victimLoop_recounted (steps : Nat) (inside : hand < poolSize) :
    Recounted poolSize frames (victimLoop poolSize steps hand frames).2.2 := by
  induction steps generalizing hand frames with
  | zero => exact Recounted.refl
  | succ steps ih =>
    have next : (hand + 1) % poolSize < poolSize := mod_lt _ (by omega)
    unfold victimLoop
    dsimp only
    split
    · exact Recounted.refl
    rename_i valid
    split
    · exact ih next
    rename_i idle
    split
    · exact Recounted.refl
    · have isValid : (frames hand).isValid = true := by simpa using valid
      have unpinned : (frames hand).pinCount = 0 := by omega
      exact (ih next).lowered inside isValid unpinned

theorem victimLoop_hand (steps : Nat) (inside : hand < poolSize) :
    (victimLoop poolSize steps hand frames).2.1 < poolSize := by
  induction steps generalizing hand frames with
  | zero => exact inside
  | succ steps ih =>
    have next : (hand + 1) % poolSize < poolSize := mod_lt _ (by omega)
    unfold victimLoop
    dsimp only
    split
    · exact next
    split
    · exact ih next
    split
    · exact next
    · exact ih next

theorem victimLoop_evictable (steps : Nat) {f : Nat} (inside : hand < poolSize)
    (found : (victimLoop poolSize steps hand frames).1 = some f) :
    f < poolSize ∧ Evictable (frames f) := by
  induction steps generalizing hand frames with
  | zero => cases found
  | succ steps ih =>
    have next : (hand + 1) % poolSize < poolSize := mod_lt _ (by omega)
    unfold victimLoop at found
    dsimp only at found
    split at found
    · rename_i free
      cases found
      exact ⟨inside, .inl free⟩
    split at found
    · exact ih next found
    rename_i idle
    have unpinned : (frames hand).pinCount = 0 := by omega
    split at found
    · cases found
      exact ⟨inside, .inr unpinned⟩
    · obtain ⟨bound, evictable⟩ := ih next found
      refine ⟨bound, ?_⟩
      by_cases here : f = hand
      · rw [here]
        exact .inr unpinned
      · rw [update_of_ne here] at evictable
        exact evictable

end Sweep

section Replacer

variable {Page : Type} {s : BufferPoolManager Page}

/-- The clock of a pool whose usage counts only `RecordAccess` has raised. -/
structure Wound (s : BufferPoolManager Page) : Prop where
  hand : s.poolSize ≠ 0 → s.clockHand < s.poolSize
  counts : ∀ f < s.poolSize, (s.frameTable f).usageCount ≤ maxUsageCount

variable {f : Nat}

theorem Wound.sweeps (wound : Wound s) (within : f < s.poolSize) :
    ahead s.poolSize s.clockHand f + s.poolSize * (s.frameTable f).usageCount <
      s.poolSize * (maxUsageCount + 2) := by
  have near : ahead s.poolSize s.clockHand f < s.poolSize :=
    ahead_lt (wound.hand (by omega)) within
  have rounds : s.poolSize * (s.frameTable f).usageCount ≤ s.poolSize * maxUsageCount :=
    Nat.mul_le_mul_left _ (wound.counts f within)
  rw [Nat.mul_add]
  omega

theorem victim_eq (nonempty : s.poolSize ≠ 0) : s.victim =
    ((victimLoop s.poolSize (s.poolSize * (maxUsageCount + 2)) s.clockHand s.frameTable).1,
      { s with
        clockHand :=
          (victimLoop s.poolSize (s.poolSize * (maxUsageCount + 2)) s.clockHand s.frameTable).2.1
        frameTable :=
          (victimLoop s.poolSize (s.poolSize * (maxUsageCount + 2)) s.clockHand
            s.frameTable).2.2 }) := by
  unfold BufferPoolManager.victim
  rw [if_neg nonempty]

theorem Wound.victim_recounted (wound : Wound s) :
    ∃ hand frames, s.victim.2 = { s with clockHand := hand, frameTable := frames } ∧
      (s.poolSize ≠ 0 → hand < s.poolSize) ∧ Recounted s.poolSize s.frameTable frames := by
  by_cases empty : s.poolSize = 0
  · refine ⟨s.clockHand, s.frameTable, ?_, wound.hand, .refl⟩
    unfold BufferPoolManager.victim
    rw [if_pos empty]
  · rw [victim_eq empty]
    exact ⟨_, _, rfl, fun _ => victimLoop_hand _ (wound.hand empty),
      victimLoop_recounted _ (wound.hand empty)⟩

theorem Wound.victim_found (wound : Wound s) (within : f < s.poolSize)
    (evictable : Evictable (s.frameTable f)) : s.victim.1.isSome = true := by
  have nonempty : s.poolSize ≠ 0 := by omega
  rw [victim_eq nonempty]
  exact victimLoop_finds within _ (wound.hand nonempty) evictable (wound.sweeps within)

/-- `Victim` fails only for want of a frame, when more steps would not help; the frame it gives is
free or not pinned; and it changes only its hand and the usage counts of frames not pinned. -/
theorem victim_complete (wound : Wound s) :
    (s.victim.1 = none ↔ s.poolSize = 0 ∨ ∀ f < s.poolSize,
      (s.frameTable f).isValid = true ∧ 0 < (s.frameTable f).pinCount) ∧
    (∀ f, s.victim.1 = some f → f < s.poolSize ∧
      ((s.frameTable f).isValid = false ∨ (s.frameTable f).pinCount = 0)) ∧
    (∃ hand frames, s.victim.2 = { s with clockHand := hand, frameTable := frames } ∧
      (s.poolSize ≠ 0 → hand < s.poolSize) ∧ Recounted s.poolSize s.frameTable frames) ∧
    ∀ extra, s.poolSize ≠ 0 → (victimLoop s.poolSize
      (s.poolSize * (maxUsageCount + 2) + extra) s.clockHand s.frameTable).1 = s.victim.1 := by
  have fails : s.victim.1 = none ↔ s.poolSize = 0 ∨ ∀ f < s.poolSize,
      (s.frameTable f).isValid = true ∧ 0 < (s.frameTable f).pinCount := by
    constructor
    · intro none
      right
      intro f within
      apply not_evictable.mp
      intro evictable
      have found := wound.victim_found within evictable
      rw [none] at found
      cases found
    · intro cause
      by_cases empty : s.poolSize = 0
      · unfold BufferPoolManager.victim
        rw [if_pos empty]
      · rw [victim_eq empty]
        exact victimLoop_pinned (cause.resolve_left empty) _ (wound.hand empty)
  refine ⟨fails, fun f found => ?_, wound.victim_recounted, fun extra nonempty => ?_⟩
  · by_cases empty : s.poolSize = 0
    · rw [fails.mpr (.inl empty)] at found
      cases found
    · rw [victim_eq empty] at found
      exact victimLoop_evictable _ (wound.hand empty) found
  · have sameLoop : s.victim.1 = (victimLoop s.poolSize (s.poolSize * (maxUsageCount + 2))
        s.clockHand s.frameTable).1 := by
      rw [victim_eq nonempty]
    cases found : s.victim.1 with
    | some f =>
      rw [found] at sameLoop
      exact victimLoop_more extra sameLoop.symm
    | none =>
      exact victimLoop_pinned ((fails.mp found).resolve_left nonempty) _ (wound.hand nonempty)

/-- Two frames, the first pinned and the second in use five times, with the hand on the first. -/
def usedPool : BufferPoolManager Unit where
  poolSize := 2
  disk := ⟨fun _ => none, fun _ => [], 0, fun _ => none, fun _ => none⟩
  pages _ := ()
  frameTable f := if f = 0 then ⟨⟨1, 0⟩, false, true, 1, 5⟩ else ⟨⟨1, 1⟩, false, true, 0, 5⟩
  pageTable p := if p = ⟨1, 0⟩ then some 0 else if p = ⟨1, 1⟩ then some 1 else none
  dirtyPageTable _ := none
  clockHand := 0

theorem wound_usedPool : Wound usedPool := ⟨by decide, by decide⟩

theorem victim_complete_usedPool :
    (usedPool.victim.1 = none ↔ usedPool.poolSize = 0 ∨ ∀ f < usedPool.poolSize,
      (usedPool.frameTable f).isValid = true ∧ 0 < (usedPool.frameTable f).pinCount) ∧
    usedPool.victim.1 = some 1 :=
  ⟨(victim_complete wound_usedPool).1, by decide⟩

end Replacer

end GraniteDb.Buffer.ClockSweep
