/- The records a slotted page holds, and what its operations do to them. -/

import GraniteDb.Storage.SlottedPage
import Mathlib.Algebra.BigOperators.Group.Finset.Basic
import Mathlib.Algebra.Order.BigOperators.Group.Finset

namespace GraniteDb.Storage.PageRecords

open Lib.ByteStore Storage.SlottedPage
open Common.Types (pageSize)
open Recovery.WalRecords (Bytes length_leBytes)
open List (mem_range mem_cons map_cons mem_cons_of_mem sum_cons)
open Nat (mul_add mul_one)
open Finset (sum_congr mem_erase)

section Contents

def Live (page : PageData) (slotNo : Nat) : Prop :=
  slotNo < (header page).slotCount ∧ (slotAt page slotNo).state = .occupied

instance (page : PageData) (slotNo : Nat) : Decidable (Live page slotNo) :=
  inferInstanceAs (Decidable (_ ∧ _))

def recordOf (page : PageData) (slot : SlotEntry) : Bytes := read page slot.offset slot.length

def content (page : PageData) (slotNo : Nat) : Option Bytes :=
  if Live page slotNo then some (recordOf page (slotAt page slotNo)) else none

def held (slot : SlotEntry) : Nat :=
  if slot.state = .occupied ∨ slot.state = .deleted then slot.length else 0

/-- A heap page with its header, slot table, free space and records in this order, the records
apart from each other. -/
structure Sound (page : PageData) : Prop where
  pageType : (header page).pageType = .heap
  lower : (header page).lower = headerSize + slotSize * (header page).slotCount
  free : (header page).lower ≤ (header page).upper
  upper : (header page).upper ≤ pageSize
  special : (header page).special = pageSize
  inside : ∀ i, Live page i → (header page).upper ≤ (slotAt page i).offset ∧
    (slotAt page i).offset + (slotAt page i).length ≤ pageSize
  apart : ∀ i j, Live page i → Live page j → i ≠ j →
    Apart (slotAt page i).offset (slotAt page i).length (slotAt page j).offset
      (slotAt page j).length
  room : ∑ i ∈ Finset.range (header page).slotCount, held (slotAt page i) ≤
    pageSize - (header page).upper

/-- The same for any special area: it lies behind the records, and takes what is left of the
page. -/
structure Formed (page : PageData) : Prop where
  lower : (header page).lower = headerSize + slotSize * (header page).slotCount
  free : (header page).lower ≤ (header page).upper
  upper : (header page).upper ≤ (header page).special
  special : (header page).special ≤ pageSize
  inside : ∀ i, Live page i → (header page).upper ≤ (slotAt page i).offset ∧
    (slotAt page i).offset + (slotAt page i).length ≤ (header page).special
  apart : ∀ i j, Live page i → Live page j → i ≠ j →
    Apart (slotAt page i).offset (slotAt page i).length (slotAt page j).offset
      (slotAt page j).length
  room : ∑ i ∈ Finset.range (header page).slotCount, held (slotAt page i) ≤
    (header page).special - (header page).upper

structure Framed (page page' : PageData) : Prop where
  pageType : (header page').pageType = (header page).pageType
  special : (header page').special = (header page).special
  area : ∀ a, (header page).special ≤ a → page' a = page a

variable {slotNo : Nat} {page : PageData}

theorem content_some {bytes : Bytes} (there : content page slotNo = some bytes) :
    Live page slotNo ∧ recordOf page (slotAt page slotNo) = bytes := by
  unfold content at there
  split at there
  · rename_i live
    exact ⟨live, Option.some.inj there⟩
  · cases there

theorem content_live (live : Live page slotNo) :
    content page slotNo = some (recordOf page (slotAt page slotNo)) := if_pos live

theorem content_dead (dead : ¬ Live page slotNo) :
    content page slotNo = none := if_neg dead

theorem content_eq_none : content page slotNo = none ↔ ¬ Live page slotNo := by
  unfold content
  split
  · rename_i live
    exact ⟨(fun absent => nomatch absent), fun dead => absurd live dead⟩
  · rename_i dead
    exact ⟨fun _ => dead, fun _ => rfl⟩

theorem content_congr {page page' : PageData} (live : Live page' slotNo ↔ Live page slotNo)
    (bytes : Live page slotNo → recordOf page' (slotAt page' slotNo) = recordOf page (slotAt page
      slotNo)) :
    content page' slotNo = content page slotNo := by
  by_cases here : Live page slotNo
  · rw [content_live here, content_live (live.mpr here), bytes here]
  · rw [content_dead here, content_dead fun there => here (live.mp there)]

variable {page' : PageData}

theorem Sound.formed (sound : Sound page) : Formed page := by
  have special := sound.special
  refine ⟨sound.lower, sound.free, ?_, ?_, ?_, sound.apart, ?_⟩
  · rw [special]
    exact sound.upper
  · rw [special]
  · rw [special]
    exact sound.inside
  · rw [special]
    exact sound.room

theorem Formed.sound (formed : Formed page) (pageType : (header page).pageType = .heap)
    (special : (header page).special = pageSize) : Sound page := by
  refine ⟨pageType, formed.lower, formed.free, ?_, special, ?_, formed.apart, ?_⟩
  · rw [← special]
    exact formed.upper
  · rw [← special]
    exact formed.inside
  · rw [← special]
    exact formed.room

theorem Framed.refl (page : PageData) : Framed page page := ⟨rfl, rfl, fun _ _ => rfl⟩

theorem Framed.trans {page'' : PageData} (first : Framed page page')
    (second : Framed page' page'') : Framed page page'' := by
  refine ⟨?_, ?_, ?_⟩
  · rw [second.pageType, first.pageType]
  · rw [second.special, first.special]
  · intro a behind
    rw [second.area a (by rw [first.special]; exact behind), first.area a behind]

theorem Framed.sound (framed : Framed page page') (sound : Sound page) (formed : Formed page') :
    Sound page' :=
  formed.sound (by rw [framed.pageType, sound.pageType]) (by rw [framed.special, sound.special])

theorem Formed.slotEnd_le (formed : Formed page) {i : Nat} (inTable : i < (header page).slotCount) :
    slotEnd i ≤ (header page).lower := by
  rw [formed.lower, slotEnd]
  exact Nat.add_le_add_left (Nat.mul_le_mul_left slotSize inTable) headerSize

theorem Formed.getRecord_live (formed : Formed page) (live : Live page slotNo) :
    getRecord page slotNo = .ok (some (slotAt page slotNo)) := by
  have inside := (formed.inside slotNo live).2
  have special : ¬ (header page).special <
      (slotAt page slotNo).offset + (slotAt page slotNo).length := by
    omega
  rw [getRecord, if_pos live.1]
  simp only [if_pos live.2, if_neg special]

theorem getRecord_dead (dead : ¬ Live page slotNo) : getRecord page slotNo = .ok none := by
  unfold getRecord
  by_cases inTable : slotNo < (header page).slotCount
  · have unoccupied : ¬ (slotAt page slotNo).state = .occupied := fun there => dead ⟨inTable, there⟩
    rw [if_pos inTable]
    simp only [if_neg unoccupied]
  · rw [if_neg inTable]

theorem Sound.isInitialized_true (sound : Sound page) : isInitialized page = true := by
  have lower := sound.lower
  have free := sound.free
  have upper := sound.upper
  have special := sound.special
  simp only [isInitialized, sound.pageType, special]
  simp
  omega

end Contents

section Edits

variable {page page' : PageData}

structure SameLayout (page page' : PageData) : Prop where
  pageType : (header page').pageType = (header page).pageType
  lower : (header page').lower = (header page).lower
  upper : (header page').upper = (header page).upper
  special : (header page').special = (header page).special
  slotCount : (header page').slotCount = (header page).slotCount
  slot : ∀ i, i < (header page).slotCount → slotAt page' i = slotAt page i

theorem SameLayout.live_iff (same : SameLayout page page') (i : Nat) :
    Live page' i ↔ Live page i := by
  unfold Live
  rw [same.slotCount]
  refine and_congr_right fun inTable => ?_
  rw [same.slot i inTable]

theorem SameLayout.formed (same : SameLayout page page') (formed : Formed page) : Formed page' where
  lower := by rw [same.lower, same.slotCount, formed.lower]
  free := by rw [same.lower, same.upper]; exact formed.free
  upper := by rw [same.upper, same.special]; exact formed.upper
  special := by rw [same.special]; exact formed.special
  inside := by
    intro i live
    have there := (same.live_iff i).mp live
    rw [same.upper, same.special, same.slot i there.1]
    exact formed.inside i there
  apart := by
    intro i j first second distinct
    have left := (same.live_iff i).mp first
    have right := (same.live_iff j).mp second
    rw [same.slot i left.1, same.slot j right.1]
    exact formed.apart i j left right distinct
  room := by
    rw [same.upper, same.special, same.slotCount]
    refine le_of_eq_of_le ?_ formed.room
    refine sum_congr rfl fun i inTable => ?_
    rw [same.slot i (Finset.mem_range.mp inTable)]

theorem SameLayout.sound (same : SameLayout page page') (sound : Sound page) : Sound page' :=
  (same.formed sound.formed).sound (by rw [same.pageType, sound.pageType])
    (by rw [same.special, sound.special])

theorem SameLayout.trans {page'' : PageData} (first : SameLayout page page')
    (second : SameLayout page' page'') : SameLayout page page'' where
  pageType := by rw [second.pageType, first.pageType]
  lower := by rw [second.lower, first.lower]
  upper := by rw [second.upper, first.upper]
  special := by rw [second.special, first.special]
  slotCount := by rw [second.slotCount, first.slotCount]
  slot := by
    intro i inTable
    rw [second.slot i (by rw [first.slotCount]; exact inTable), first.slot i inTable]

theorem sameLayout_setPageLsn (page : PageData) (lsn : Nat) :
    SameLayout page (setPageLsn page lsn) := by
  refine ⟨?_, ?_, ?_, ?_, ?_, fun i _ => slotAt_setPageLsn page lsn i⟩
  all_goals rw [header_setPageLsn]

theorem content_setPageLsn (page : PageData) (sound : Sound page) (lsn slotNo : Nat) :
    content (setPageLsn page lsn) slotNo = content page slotNo := by
  have same := sameLayout_setPageLsn page lsn
  refine content_congr (same.live_iff slotNo) fun live => ?_
  rw [recordOf, recordOf, same.slot slotNo live.1]
  have above := (sound.inside slotNo live).1
  have free := sound.free
  have lower := sound.lower
  unfold headerSize at lower
  exact read_write_apart page (.inl (by rw [length_leBytes]; omega))

variable {cells : Bytes} {slotNo : Nat}

theorem sameLayout_write (formed : Formed page) {a : Nat} (behind : (header page).lower ≤ a) :
    SameLayout page (write page a cells) := by
  have lower := formed.lower
  have whole : header (write page a cells) = header page := header_write page (by omega)
  refine ⟨by rw [whole], by rw [whole], by rw [whole], by rw [whole], by rw [whole], ?_⟩
  intro i inTable
  refine slotAt_write page (.inr ?_)
  have ends := formed.slotEnd_le inTable
  unfold slotEnd at ends
  rw [mul_add, mul_one] at ends
  omega

theorem Formed.write_within (formed : Formed page) (k : Nat) (live : Live page slotNo)
    (within : k + cells.length ≤ (slotAt page slotNo).length) :
    let page' := write page ((slotAt page slotNo).offset + k) cells
    Formed page' ∧ SameLayout page page' ∧ Framed page page' ∧
      ∀ i, i ≠ slotNo → content page' i = content page i := by
  intro page'
  have inside := formed.inside slotNo live
  have free := formed.free
  have same : SameLayout page page' := sameLayout_write formed (by omega)
  refine ⟨same.formed formed, same, ⟨same.pageType, same.special, ?_⟩, ?_⟩
  · intro a behind
    exact write_outside page (.inr (by omega))
  · intro i distinct
    refine content_congr (same.live_iff i) fun there => ?_
    rw [recordOf, recordOf, same.slot i there.1]
    refine read_write_apart page ?_
    have apart := formed.apart slotNo i live there (Ne.symm distinct)
    unfold Apart at apart ⊢
    omega

theorem content_write_within (sound : Sound page) (k : Nat) (live : Live page slotNo)
    (within : k + cells.length ≤ (slotAt page slotNo).length) :
    let page' := write page ((slotAt page slotNo).offset + k) cells
    Sound page' ∧ SameLayout page page' ∧
      ∀ i, i ≠ slotNo → content page' i = content page i := by
  obtain ⟨-, same, -, others⟩ := sound.formed.write_within k live within
  exact ⟨same.sound sound, same, others⟩

theorem Formed.overwriteRecord_live (formed : Formed page) {data : Bytes} (live : Live page slotNo)
    (fits : data.length ≤ (slotAt page slotNo).length) :
    ∃ page', overwriteRecord page slotNo data = some page' ∧ Formed page' ∧
      SameLayout page page' ∧ Framed page page' ∧
      content page' slotNo =
        some (data ++ List.replicate ((slotAt page slotNo).length - data.length) 0) ∧
      ∀ i, i ≠ slotNo → content page' i = content page i := by
  have first := formed.write_within 0 live (show 0 + data.length ≤ _ by omega)
  rw [Nat.add_zero] at first
  obtain ⟨formedFirst, sameFirst, framedFirst, othersFirst⟩ := first
  have liveFirst := (sameFirst.live_iff slotNo).mpr live
  have slotFirst := sameFirst.slot slotNo live.1
  obtain ⟨formedLast, sameLast, framedLast, othersLast⟩ :=
    formedFirst.write_within data.length liveFirst
      (show _ + (List.replicate ((slotAt page slotNo).length - data.length) 0).length ≤ _ by
        rw [slotFirst, List.length_replicate]
        omega)
  rw [slotFirst] at formedLast sameLast framedLast othersLast
  have slotLast := sameLast.slot slotNo liveFirst.1
  rw [slotFirst] at slotLast
  refine ⟨_, if_pos ⟨live.1, live.2, fits⟩, formedLast, sameFirst.trans sameLast,
    framedFirst.trans framedLast, ?_, ?_⟩
  · have own : recordOf (write (write page (slotAt page slotNo).offset data)
        ((slotAt page slotNo).offset + data.length)
        (List.replicate ((slotAt page slotNo).length - data.length) 0)) (slotAt page slotNo) =
        data ++ List.replicate ((slotAt page slotNo).length - data.length) 0 := by
      have split : (slotAt page slotNo).length =
          data.length + ((slotAt page slotNo).length - data.length) := by omega
      have zeros := read_write (write page (slotAt page slotNo).offset data)
        ((slotAt page slotNo).offset + data.length)
        (List.replicate ((slotAt page slotNo).length - data.length) 0)
      rw [List.length_replicate] at zeros
      rw [recordOf, split, read_add, ← split, zeros, read_write_apart _ (.inr le_rfl), read_write]
    rw [zeroFill, content_live ((sameLast.live_iff slotNo).mpr liveFirst), slotLast, own]
  · intro i distinct
    rw [zeroFill, othersLast i distinct, othersFirst i distinct]

theorem overwriteRecord_live (sound : Sound page) {data : Bytes} (live : Live page slotNo)
    (fits : data.length ≤ (slotAt page slotNo).length) :
    ∃ page', overwriteRecord page slotNo data = some page' ∧ Sound page' ∧
      SameLayout page page' ∧
      content page' slotNo =
        some (data ++ List.replicate ((slotAt page slotNo).length - data.length) 0) ∧
      ∀ i, i ≠ slotNo → content page' i = content page i := by
  obtain ⟨page', written, -, same, -, own, others⟩ := sound.formed.overwriteRecord_live live fits
  exact ⟨page', written, same.sound sound, same, own, others⟩

structure EntrySet (page page' : PageData) (slotNo : Nat) (slot : SlotEntry) : Prop where
  header : header page' = header page
  own : slotAt page' slotNo = slot
  others : ∀ i, i ≠ slotNo → slotAt page' i = slotAt page i
  bytes : ∀ at_ n, slotEnd slotNo ≤ at_ → read page' at_ n = read page at_ n

theorem entrySet_setSlot (page : PageData) (slotNo : Nat) (slot : SlotEntry) (fits : slot.Fits) :
    EntrySet page (setSlot page slotNo slot) slotNo slot where
  header := header_setSlot page slotNo slot
  own := slotAt_setSlot page slotNo fits
  others := fun _ distinct => slotAt_setSlot_other page slot distinct
  bytes := fun _ n behind => read_setSlot page slot n behind

theorem Formed.slotEnd_le_offset (formed : Formed page) {i : Nat} (live : Live page i)
    (inTable : slotNo < (header page).slotCount) : slotEnd slotNo ≤ (slotAt page i).offset := by
  have ends := formed.slotEnd_le inTable
  have free := formed.free
  have inside := (formed.inside i live).1
  omega

theorem Formed.framed_setSlot (formed : Formed page) (slot : SlotEntry)
    (inTable : slotNo < (header page).slotCount) : Framed page (setSlot page slotNo slot) := by
  refine ⟨by rw [header_setSlot], by rw [header_setSlot], ?_⟩
  intro a behind
  have ends := formed.slotEnd_le inTable
  rw [slotEnd, mul_add, mul_one] at ends
  have free := formed.free
  have upper := formed.upper
  exact write_outside page (.inr (by rw [length_slotBytes]; omega))

theorem Formed.deleteRecord_live (formed : Formed page) (live : Live page slotNo) :
    ∃ page', deleteRecord page slotNo = some page' ∧ Formed page' ∧ Framed page page' ∧
      header page' = header page ∧
      slotAt page' slotNo = { slotAt page slotNo with state := .deleted } ∧
      (∀ i, i ≠ slotNo → slotAt page' i = slotAt page i) ∧ content page' slotNo = none ∧
      ∀ i, i ≠ slotNo → content page' i = content page i := by
  have fits := slotAt_fits page slotNo
  have set := entrySet_setSlot page slotNo { slotAt page slotNo with state := .deleted }
    ⟨fits.offset, fits.length, by simp [SlotState.code, SlotState.ofCode], fits.reserved⟩
  have framed := formed.framed_setSlot { slotAt page slotNo with state := .deleted } live.1
  refine ⟨_, if_pos live, ?_⟩
  generalize setSlot page slotNo { slotAt page slotNo with state := .deleted } = page' at *
  obtain ⟨whole, own, others, bytes⟩ := set
  have dead : ¬ Live page' slotNo := by
    rintro ⟨_, occupied⟩
    rw [own] at occupied
    cases occupied
  have elsewhere {i : Nat} (there : Live page' i) : i ≠ slotNo ∧ Live page i := by
    have distinct : i ≠ slotNo := by
      rintro rfl
      exact dead there
    refine ⟨distinct, ?_⟩
    rw [Live, whole, others i distinct] at there
    exact there
  have formed' : Formed page' := by
    refine ⟨?_, ?_, ?_, ?_, ?_, ?_, ?_⟩
    all_goals try rw [whole]
    · exact formed.lower
    · exact formed.free
    · exact formed.upper
    · exact formed.special
    · intro i there
      obtain ⟨distinct, before⟩ := elsewhere there
      rw [others i distinct]
      exact formed.inside i before
    · intro i j first second distinct
      obtain ⟨left, liveLeft⟩ := elsewhere first
      obtain ⟨right, liveRight⟩ := elsewhere second
      rw [others i left, others j right]
      exact formed.apart i j liveLeft liveRight distinct
    · refine le_of_eq_of_le (sum_congr rfl fun i _ => ?_) formed.room
      by_cases here : i = slotNo
      · subst here
        rw [own, held, held, if_pos (.inr rfl), if_pos (.inl live.2)]
      · rw [others i here]
  refine ⟨formed', framed, whole, own, others, content_dead dead, fun i distinct => ?_⟩
  have sameLive : Live page' i ↔ Live page i := by
    rw [Live, whole, others i distinct]
    rfl
  refine content_congr sameLive fun there => ?_
  rw [others i distinct]
  exact bytes _ _ (formed.slotEnd_le_offset there live.1)

theorem deleteRecord_live (sound : Sound page) (live : Live page slotNo) :
    ∃ page', deleteRecord page slotNo = some page' ∧ Sound page' ∧ content page' slotNo = none ∧
      ∀ i, i ≠ slotNo → content page' i = content page i := by
  obtain ⟨page', deleted, formed, framed, -, -, -, own, others⟩ :=
    sound.formed.deleteRecord_live live
  exact ⟨page', deleted, framed.sound sound formed, own, others⟩

end Edits

section Compaction

variable {page page' : PageData}

def cleared (slot : SlotEntry) : SlotEntry :=
  if slot.state = .occupied then slot
  else { slot with
    offset := 0
    length := 0
    state := if slot.state = .deleted then .deleted else .empty }

/-- The record that the first loop of `CompactPage` keeps aside for a slot. -/
def liveRecord (page : PageData) (slotNo : Nat) : Option (Nat × Bytes) :=
  if (slotAt page slotNo).state = .occupied then
    some (slotNo, recordOf page (slotAt page slotNo))
  else none

structure Collected (page page' : PageData) (slots : List Nat) : Prop where
  header : header page' = header page
  own : ∀ i ∈ slots, slotAt page' i = cleared (slotAt page i)
  others : ∀ i, i ∉ slots → slotAt page' i = slotAt page i
  bytes : ∀ at_ n, (∀ i ∈ slots, slotEnd i ≤ at_) → read page' at_ n = read page at_ n

private theorem fits_cleared (slotNo : Nat) : (cleared (slotAt page slotNo)).Fits := by
  have fits := slotAt_fits page slotNo
  unfold cleared
  split
  · exact fits
  · refine ⟨by simp, by simp, ?_, fits.reserved⟩
    split <;> simp [SlotState.code, SlotState.ofCode]

private theorem collectSlot_eq {slotNo : Nat}
    (inside : (slotAt page slotNo).state = .occupied →
      (slotAt page slotNo).offset + (slotAt page slotNo).length ≤ (header page).special) :
    ∃ page', collectSlot page slotNo = .ok (page', liveRecord page slotNo) ∧
      EntrySet page page' slotNo (cleared (slotAt page slotNo)) := by
  by_cases occupied : (slotAt page slotNo).state = .occupied
  · have within : ¬ (header page).special <
        (slotAt page slotNo).offset + (slotAt page slotNo).length := by
      have := inside occupied
      omega
    refine ⟨page, ?_, rfl, ?_, fun _ _ => rfl, fun _ _ _ => rfl⟩
    · simp only [collectSlot, liveRecord, if_pos occupied, if_neg within]
      rfl
    · rw [cleared, if_pos occupied]
  · refine ⟨_, ?_, entrySet_setSlot page slotNo _ (fits_cleared slotNo)⟩
    simp only [collectSlot, liveRecord, cleared, if_neg occupied]

private theorem collect_eq {slots : List Nat} (nodup : slots.Nodup)
    (inside : ∀ i ∈ slots, (slotAt page i).state = .occupied →
      (slotAt page i).offset + (slotAt page i).length ≤ (header page).special)
    (behind : ∀ i ∈ slots, (slotAt page i).state = .occupied →
      ∀ j ∈ slots, slotEnd j ≤ (slotAt page i).offset) :
    ∃ page', collect page slots = .ok (page', slots.filterMap (liveRecord page)) ∧
      Collected page page' slots := by
  induction slots generalizing page with
  | nil =>
    refine ⟨page, rfl, rfl, ?_, fun _ _ => rfl, fun _ _ _ => rfl⟩
    intro i member
    cases member
  | cons slotNo slots ih =>
    obtain ⟨fresh, nodup⟩ := List.nodup_cons.mp nodup
    obtain ⟨middle, first, set⟩ := collectSlot_eq (inside slotNo List.mem_cons_self)
    have same {i : Nat} (member : i ∈ slots) : slotAt middle i = slotAt page i :=
      set.others i fun here => fresh (here ▸ member)
    obtain ⟨page', rest, collected⟩ := ih nodup
      (by
        intro i member occupied
        rw [same member] at occupied ⊢
        rw [set.header]
        exact inside i (mem_cons_of_mem _ member) occupied)
      (by
        intro i member occupied j other
        rw [same member] at occupied ⊢
        exact behind i (mem_cons_of_mem _ member) occupied j
          (mem_cons_of_mem _ other))
    have sameRecords : slots.filterMap (liveRecord middle) =
        slots.filterMap (liveRecord page) := by
      refine List.filterMap_congr fun i member => ?_
      unfold liveRecord
      rw [same member]
      split
      · rename_i occupied
        have apart := behind i (mem_cons_of_mem _ member) occupied slotNo
          List.mem_cons_self
        rw [recordOf, recordOf, set.bytes _ _ apart]
      · rfl
    refine ⟨page', ?_, ?_, ?_, ?_, ?_⟩
    · rw [collect, first]
      simp only [rest, sameRecords, Except.map]
      cases record : liveRecord page slotNo with
      | none => rw [List.filterMap_cons_none record]; rfl
      | some r => rw [List.filterMap_cons_some record]; rfl
    · rw [collected.header, set.header]
    · intro i member
      by_cases here : i = slotNo
      · subst here
        rw [collected.others i fresh, set.own]
      · have later := (mem_cons.mp member).resolve_left here
        rw [collected.own i later, same later]
    · intro i unlisted
      obtain ⟨distinct, later⟩ := not_or.mp (mt mem_cons.mpr unlisted)
      rw [collected.others i later, set.others i distinct]
    · intro at_ n above
      rw [collected.bytes at_ n fun i member => above i (mem_cons_of_mem _ member),
        set.bytes at_ n (above slotNo List.mem_cons_self)]

/-- The second loop laid these records down between `upper` and `top`. -/
structure Laid (page page' : PageData) (top upper : Nat) (live : List (Nat × Bytes)) : Prop where
  header : header page' = header page
  sum : upper + (live.map fun e => e.2.length).sum = top
  others : ∀ i, i < (SlottedPage.header page).slotCount → i ∉ live.map Prod.fst →
    slotAt page' i = slotAt page i
  above : ∀ at_ n, top ≤ at_ → read page' at_ n = read page at_ n
  record : ∀ e ∈ live, (slotAt page' e.1).state = .occupied ∧
    (slotAt page' e.1).length = e.2.length ∧ upper ≤ (slotAt page' e.1).offset ∧
    (slotAt page' e.1).offset + e.2.length ≤ top ∧ recordOf page' (slotAt page' e.1) = e.2
  apart : ∀ e ∈ live, ∀ e' ∈ live, e.1 ≠ e'.1 →
    Apart (slotAt page' e.1).offset e.2.length (slotAt page' e'.1).offset e'.2.length

private theorem place_step {slotNo top : Nat} {bytes : Bytes}
    (lower : (header page).lower = headerSize + slotSize * (header page).slotCount)
    (inTable : slotNo < (header page).slotCount)
    (room : (header page).lower + bytes.length ≤ top) (small : top ≤ pageSize)
    (live : List (Nat × Bytes)) :
    ∃ middle, place page top ((slotNo, bytes) :: live) =
        place middle (top - bytes.length) live ∧
      header middle = header page ∧ (slotAt middle slotNo).state = .occupied ∧
      (slotAt middle slotNo).offset = top - bytes.length ∧
      (slotAt middle slotNo).length = bytes.length ∧
      (∀ i, i < (header page).slotCount → i ≠ slotNo → slotAt middle i = slotAt page i) ∧
      (∀ at_ n, top ≤ at_ → read middle at_ n = read page at_ n) ∧
      read middle (top - bytes.length) bytes.length = bytes := by
  have top_lt : top < 2 ^ 16 := by
    unfold pageSize at small
    omega
  have cut : (top + 2 ^ 16 - bytes.length) % 2 ^ 16 = top - bytes.length := by omega
  have behind {i : Nat} (there : i < (header page).slotCount) :
      slotEnd i ≤ top - bytes.length := by
    have ends := Nat.mul_le_mul_left slotSize (Nat.succ_le_of_lt there)
    rw [Nat.succ_eq_add_one] at ends
    unfold slotEnd
    omega
  have written {i : Nat} (there : i < (header page).slotCount) :
      slotAt (write page (top - bytes.length) bytes) i = slotAt page i := by
    have ends := behind there
    rw [slotEnd, mul_add, mul_one] at ends
    exact slotAt_write page (.inr (by omega))
  have fits := slotAt_fits (write page (top - bytes.length) bytes) slotNo
  have set := entrySet_setSlot (write page (top - bytes.length) bytes) slotNo
    { slotAt (write page (top - bytes.length) bytes) slotNo with
      offset := top - bytes.length, length := bytes.length, state := .occupied }
    ⟨by simp only; omega, by simp only; omega, by simp [SlotState.code, SlotState.ofCode],
      fits.reserved⟩
  refine ⟨_, by rw [place, cut], ?_, by rw [set.own], by rw [set.own], by rw [set.own], ?_, ?_, ?_⟩
  · rw [set.header]
    refine header_write page ?_
    omega
  · intro i there distinct
    rw [set.others i distinct, written there]
  · intro at_ n above
    have ends := behind inTable
    rw [set.bytes at_ n (by omega)]
    exact read_write_apart page (.inl (by omega))
  · rw [set.bytes _ _ (behind inTable), read_write]

private theorem place_laid {live : List (Nat × Bytes)} {top : Nat}
    (lower : (header page).lower = headerSize + slotSize * (header page).slotCount)
    (nodup : (live.map Prod.fst).Nodup) (inTable : ∀ e ∈ live, e.1 < (header page).slotCount)
    (room : (header page).lower + (live.map fun e => e.2.length).sum ≤ top)
    (small : top ≤ pageSize) :
    Laid page (place page top live).1 top (place page top live).2 live := by
  induction live generalizing page top with
  | nil => exact ⟨rfl, rfl, fun _ _ _ => rfl, fun _ _ _ => rfl, by simp, by simp⟩
  | cons e live ih =>
    obtain ⟨slotNo, bytes⟩ := e
    simp only [map_cons, sum_cons] at room
    rw [map_cons, List.nodup_cons] at nodup
    have here : slotNo < (header page).slotCount := inTable _ List.mem_cons_self
    have roomHere : (header page).lower + bytes.length ≤ top := by omega
    obtain ⟨middle, step, whole, state, offset, length, others, above, own⟩ :=
      place_step lower here roomHere small live
    have laid := @ih middle (top - bytes.length) (by rw [whole, lower]) nodup.2
      (by rw [whole]; exact fun e member => inTable e (mem_cons_of_mem _ member))
      (by rw [whole]; omega) (by omega)
    rw [step]
    have sum := laid.sum
    have same : slotAt (place middle (top - bytes.length) live).1 slotNo =
        slotAt middle slotNo := laid.others slotNo (by rw [whole]; exact here) nodup.1
    refine ⟨by rw [laid.header, whole], ?_, ?_, ?_, ?_, ?_⟩
    · simp only [map_cons, sum_cons]
      omega
    · intro i there unlisted
      obtain ⟨distinct, later⟩ := not_or.mp (mt mem_cons.mpr unlisted)
      rw [laid.others i (by rw [whole]; exact there) later, others i there distinct]
    · intro at_ n beyond
      rw [laid.above at_ n (by omega), above at_ n beyond]
    · intro e member
      obtain rfl | later := mem_cons.mp member
      · simp only
        refine ⟨by rw [same, state], by rw [same, length], by rw [same]; omega,
          by rw [same]; omega, ?_⟩
        rw [same, recordOf, offset, length, laid.above _ _ le_rfl, own]
      · obtain ⟨occupied, long, above, under, own⟩ := laid.record e later
        exact ⟨occupied, long, above, by omega, own⟩
    · have first {e : Nat × Bytes} (later : e ∈ live) :
          (slotAt (place middle (top - bytes.length) live).1 e.1).offset + e.2.length ≤
            (slotAt (place middle (top - bytes.length) live).1 slotNo).offset := by
        obtain ⟨_, _, _, under, _⟩ := laid.record e later
        rw [same, offset]
        exact under
      intro e member e' member' distinct
      obtain rfl | later := mem_cons.mp member
      · obtain rfl | later' := mem_cons.mp member'
        · exact absurd rfl distinct
        · exact .inr (first later')
      · obtain rfl | later' := mem_cons.mp member'
        · exact .inl (first later)
        · exact laid.apart e later e' later' distinct

def liveLength (slot : SlotEntry) : Nat := if slot.state = .occupied then slot.length else 0

private theorem sum_liveRecord (page : PageData) (slots : List Nat) :
    ((slots.filterMap (liveRecord page)).map fun e => e.2.length).sum =
      (slots.map fun i => liveLength (slotAt page i)).sum := by
  induction slots with
  | nil => rfl
  | cons slotNo slots ih =>
    rw [map_cons, sum_cons, ← ih]
    by_cases occupied : (slotAt page slotNo).state = .occupied
    · have some : liveRecord page slotNo =
          some (slotNo, recordOf page (slotAt page slotNo)) := if_pos occupied
      rw [List.filterMap_cons_some some, map_cons, sum_cons, liveLength,
        if_pos occupied]
      simp [recordOf]
    · have none : liveRecord page slotNo = none := if_neg occupied
      rw [List.filterMap_cons_none none, liveLength, if_neg occupied, Nat.zero_add]

private theorem map_fst_liveRecord (page : PageData) (slots : List Nat) :
    (slots.filterMap (liveRecord page)).map Prod.fst =
      slots.filter fun i => (slotAt page i).state = .occupied := by
  induction slots with
  | nil => rfl
  | cons slotNo slots ih =>
    by_cases occupied : (slotAt page slotNo).state = .occupied
    · have some : liveRecord page slotNo =
          some (slotNo, recordOf page (slotAt page slotNo)) := if_pos occupied
      rw [List.filterMap_cons_some some, map_cons, ih,
        List.filter_cons_of_pos (by simpa using occupied)]
    · have none : liveRecord page slotNo = none := if_neg occupied
      rw [List.filterMap_cons_none none, ih,
        List.filter_cons_of_neg (by simpa using occupied)]

private theorem mem_liveRecord {n : Nat} {e : Nat × Bytes} :
    e ∈ (List.range n).filterMap (liveRecord page) ↔
      e.1 < n ∧ (slotAt page e.1).state = .occupied ∧ e.2 = recordOf page (slotAt page e.1) := by
  rw [List.mem_filterMap]
  constructor
  · rintro ⟨i, member, there⟩
    unfold liveRecord at there
    split at there
    · rename_i occupied
      cases there
      exact ⟨mem_range.mp member, occupied, rfl⟩
    · cases there
  · rintro ⟨inTable, occupied, bytes⟩
    refine ⟨e.1, mem_range.mpr inTable, ?_⟩
    rw [liveRecord, if_pos occupied, ← bytes]

theorem sum_range_eq (n : Nat) (f : Nat → Nat) :
    ((List.range n).map f).sum = ∑ i ∈ Finset.range n, f i := rfl

private theorem liveLength_le_held (slot : SlotEntry) : liveLength slot ≤ held slot := by
  unfold liveLength held
  split
  · rename_i occupied
    rw [if_pos (.inl occupied)]
  · exact Nat.zero_le _

private theorem state_cleared {slot : SlotEntry} (dead : slot.state ≠ .occupied) :
    (cleared slot).state ≠ .occupied ∧ (cleared slot).length = 0 := by
  rw [cleared, if_neg dead]
  refine ⟨?_, rfl⟩
  simp only
  split <;> simp

theorem Formed.sum_liveLength (formed : Formed page) :
    (header page).upper + ∑ i ∈ Finset.range (header page).slotCount,
      liveLength (slotAt page i) ≤ (header page).special := by
  have less : ∑ i ∈ Finset.range (header page).slotCount, liveLength (slotAt page i) ≤
      ∑ i ∈ Finset.range (header page).slotCount, held (slotAt page i) :=
    Finset.sum_le_sum fun i _ => liveLength_le_held _
  have room := formed.room
  have upper := formed.upper
  omega

private theorem cell_of_read {page page' : PageData} {a : Nat}
    (same : read page' a 1 = read page a 1) : page' a = page a := by
  simpa [Lib.ByteStore.read] using same

private theorem laid_again (formed : Formed page) :
    ∃ page', compactPage page = .ok page' ∧
      header page' = { header page with upper := (header page').upper } ∧
      (header page').upper + ∑ i ∈ Finset.range (header page).slotCount,
        liveLength (slotAt page i) = (header page).special ∧
      (∀ a, (header page).special ≤ a → page' a = page a) ∧
      (∀ i, Live page i → (slotAt page' i).state = .occupied ∧
        (slotAt page' i).length = (slotAt page i).length ∧
        (header page').upper ≤ (slotAt page' i).offset ∧
        (slotAt page' i).offset + (slotAt page i).length ≤ (header page).special ∧
        recordOf page' (slotAt page' i) = recordOf page (slotAt page i)) ∧
      (∀ i, i < (header page).slotCount → ¬ Live page i →
        (slotAt page' i).state ≠ .occupied ∧ (slotAt page' i).length = 0) ∧
      ∀ i j, Live page i → Live page j → i ≠ j →
        Apart (slotAt page' i).offset (slotAt page i).length (slotAt page' j).offset
          (slotAt page j).length := by
  obtain ⟨collected, collectedEq, afterCollect⟩ := @collect_eq page
    (List.range (header page).slotCount) List.nodup_range
    (by
      intro i member occupied
      exact (formed.inside i ⟨mem_range.mp member, occupied⟩).2)
    (by
      intro i member occupied j other
      exact formed.slotEnd_le_offset ⟨mem_range.mp member, occupied⟩ (mem_range.mp other))
  have lower := formed.lower
  have free := formed.free
  have upper := formed.upper
  have special := formed.special
  have emptied : header (zeroFill collected (header page).lower
      ((header page).special - (header page).lower)) = header page := by
    rw [zeroFill, header_write collected (by omega), afterCollect.header]
  have emptiedSlot {i : Nat} (inTable : i < (header page).slotCount) :
      slotAt (zeroFill collected (header page).lower
        ((header page).special - (header page).lower)) i = cleared (slotAt page i) := by
    have ends := formed.slotEnd_le inTable
    rw [slotEnd, mul_add, mul_one] at ends
    rw [zeroFill, slotAt_write collected (.inr (by omega)),
      afterCollect.own i (mem_range.mpr inTable)]
  have emptiedArea (a : Nat) (behind : (header page).special ≤ a) :
      zeroFill collected (header page).lower
        ((header page).special - (header page).lower) a = page a := by
    rw [zeroFill, write_outside collected (.inr (by rw [List.length_replicate]; omega))]
    apply cell_of_read
    apply afterCollect.bytes
    intro i member
    have ends := formed.slotEnd_le (mem_range.mp member)
    omega
  have result : compactPage page = .ok (setHeader
      (place (zeroFill collected (header page).lower
        ((header page).special - (header page).lower)) (header page).special
        ((List.range (header page).slotCount).filterMap (liveRecord page))).1
      { header (place (zeroFill collected (header page).lower
        ((header page).special - (header page).lower)) (header page).special
        ((List.range (header page).slotCount).filterMap (liveRecord page))).1 with
        upper := (place (zeroFill collected (header page).lower
          ((header page).special - (header page).lower)) (header page).special
          ((List.range (header page).slotCount).filterMap (liveRecord page))).2 }) := by
    rw [compactPage, collectedEq]
    simp only [Except.map, afterCollect.header]
  generalize zeroFill collected (header page).lower
    ((header page).special - (header page).lower) = empty at emptied emptiedSlot emptiedArea result
  have total := formed.sum_liveLength
  have laid := @place_laid empty
    ((List.range (header page).slotCount).filterMap (liveRecord page)) (header page).special
    (by rw [emptied, lower])
    (by rw [map_fst_liveRecord]; exact List.nodup_range.filter _)
    (by
      intro e member
      rw [emptied]
      exact (mem_liveRecord.mp member).1)
    (by
      rw [emptied, sum_liveRecord, sum_range_eq]
      omega) special
  generalize place empty (header page).special
    ((List.range (header page).slotCount).filterMap (liveRecord page)) = placed at laid result
  have sum := laid.sum
  rw [sum_liveRecord, sum_range_eq] at sum
  have fits := header_fits page
  have whole : header (setHeader placed.1 { header placed.1 with upper := placed.2 }) =
      { header page with upper := placed.2 } := by
    rw [laid.header, emptied]
    refine header_setHeader _ ⟨fits.pageLsn, fits.lower, ?_, fits.special, fits.slotCount,
      fits.pageType, fits.flags, fits.reserved⟩
    unfold pageSize at special
    simp only
    omega
  have slots (i : Nat) := slotAt_setHeader placed.1 { header placed.1 with upper := placed.2 } i
  have listed {i : Nat} (live : Live page i) : (i, recordOf page (slotAt page i)) ∈
      (List.range (header page).slotCount).filterMap (liveRecord page) :=
    mem_liveRecord.mpr ⟨live.1, live.2, rfl⟩
  have length (i : Nat) : (recordOf page (slotAt page i)).length = (slotAt page i).length :=
    length_read ..
  refine ⟨_, result, by rw [whole], by rw [whole, sum], ?_, ?_, ?_, ?_⟩
  · intro a behind
    rw [← emptiedArea a behind, ← cell_of_read (laid.above a 1 behind)]
    exact cell_of_read (read_setHeader placed.1 _ 1 (by omega))
  · intro i live
    have record := laid.record _ (listed live)
    simp only [length] at record
    obtain ⟨occupied, long, above, under, bytes⟩ := record
    rw [slots, whole]
    refine ⟨occupied, long, above, under, ?_⟩
    rw [← bytes]
    exact read_setHeader placed.1 _ _ (by omega)
  · intro i inTable dead
    have unlisted : i ∉ ((List.range (header page).slotCount).filterMap
        (liveRecord page)).map Prod.fst := by
      rw [map_fst_liveRecord, List.mem_filter]
      rintro ⟨_, occupied⟩
      exact dead ⟨inTable, of_decide_eq_true occupied⟩
    rw [slots, laid.others i (by rw [emptied]; exact inTable) unlisted, emptiedSlot inTable]
    exact state_cleared fun occupied => dead ⟨inTable, occupied⟩
  · intro i j left right distinct
    have apart := laid.apart _ (listed left) _ (listed right) distinct
    simp only [length] at apart
    rw [slots, slots]
    exact apart

structure Packed (page page' : PageData) : Prop where
  formed : Formed page'
  framed : Framed page page'
  content : ∀ i, content page' i = content page i
  slotCount : (header page').slotCount = (header page).slotCount
  lower : (header page').lower = (header page).lower
  upper : (header page').upper + ∑ i ∈ Finset.range (header page).slotCount,
    liveLength (slotAt page i) = (header page).special
  lengths : ∀ i, i < (header page).slotCount →
    liveLength (slotAt page' i) = liveLength (slotAt page i) ∧ held (slotAt page' i) =
      liveLength (slotAt page i)

theorem Formed.compactPage_packed (formed : Formed page) :
    ∃ page', compactPage page = .ok page' ∧ Packed page page' := by
  obtain ⟨page', result, whole, sum, area, live, dead, apart⟩ := laid_again formed
  have count : (header page').slotCount = (header page).slotCount := by rw [whole]
  have low : (header page').lower = (header page).lower := by rw [whole]
  have same : (header page').special = (header page).special := by rw [whole]
  have live_iff (i : Nat) : Live page' i ↔ Live page i := by
    refine ⟨fun there => ?_, fun there => ⟨by rw [count]; exact there.1, (live i there).1⟩⟩
    by_contra gone
    exact (dead i (by rw [← count]; exact there.1) gone).1 there.2
  have lengths (i : Nat) (inTable : i < (header page).slotCount) :
      liveLength (slotAt page' i) = liveLength (slotAt page i) ∧ held (slotAt page' i) =
        liveLength (slotAt page i) := by
    by_cases there : Live page i
    · obtain ⟨occupied, long, _⟩ := live i there
      rw [liveLength, if_pos occupied, liveLength, if_pos there.2, held, if_pos (.inl occupied), long]
      exact ⟨rfl, rfl⟩
    · obtain ⟨unoccupied, short⟩ := dead i inTable there
      have before : ¬ (slotAt page i).state = .occupied := fun here => there ⟨inTable, here⟩
      rw [liveLength, if_neg unoccupied, liveLength, if_neg before, held, short, ite_self]
      exact ⟨rfl, rfl⟩
  have total := formed.sum_liveLength
  have lower := formed.lower
  have free := formed.free
  refine ⟨page', result, ⟨by rw [low, count]; exact lower, by rw [low]; omega, by rw [same]; omega,
    by rw [same]; exact formed.special, ?_, ?_, ?_⟩, ⟨by rw [whole], same, area⟩, ?_, count,
    low, sum, lengths⟩
  · intro i there
    obtain ⟨_, long, above, under, _⟩ := live i ((live_iff i).mp there)
    rw [same]
    exact ⟨above, by rw [long]; exact under⟩
  · intro i j first second distinct
    have left := (live_iff i).mp first
    have right := (live_iff j).mp second
    rw [(live i left).2.1, (live j right).2.1]
    exact apart i j left right distinct
  · have sums : ∑ i ∈ Finset.range (header page').slotCount, held (slotAt page' i) =
        ∑ i ∈ Finset.range (header page).slotCount, liveLength (slotAt page i) := by
      rw [count]
      refine sum_congr rfl fun i member => ?_
      exact (lengths i (Finset.mem_range.mp member)).2
    omega
  · intro i
    exact content_congr (live_iff i) fun there => (live i there).2.2.2.2

end Compaction

section Insertion

variable {page page' : PageData}

theorem Formed.getContiguousFreeSpace_eq (formed : Formed page) :
    getContiguousFreeSpace page = .ok ((header page).upper - (header page).lower) := by
  have free := formed.free
  rw [getContiguousFreeSpace, if_neg (by omega)]

theorem Formed.hasSpaceFor_eq (formed : Formed page) (len : Nat) (needsNewSlot : Bool) :
    hasSpaceFor page len needsNewSlot =
      .ok (decide (required len needsNewSlot ≤ (header page).upper - (header page).lower)) := by
  rw [hasSpaceFor, formed.getContiguousFreeSpace_eq]
  rfl

theorem liveLength_add_reclaimable (slot : SlotEntry) :
    liveLength slot + reclaimable slot = held slot := by
  unfold liveLength reclaimable held
  cases slot.state <;> simp

def liveBytes (page : PageData) : Nat :=
  ∑ i ∈ Finset.range (header page).slotCount, liveLength (slotAt page i)

def deletedBytes (page : PageData) : Nat :=
  ∑ i ∈ Finset.range (header page).slotCount, reclaimable (slotAt page i)

theorem liveBytes_add_deletedBytes (page : PageData) : liveBytes page + deletedBytes page =
    ∑ i ∈ Finset.range (header page).slotCount, held (slotAt page i) := by
  rw [liveBytes, deletedBytes, ← Finset.sum_add_distrib]
  exact sum_congr rfl fun i _ => liveLength_add_reclaimable _

theorem Formed.getTotalFreeSpace_eq (formed : Formed page) :
    getTotalFreeSpaceAfterCompaction page =
      .ok ((header page).upper - (header page).lower + deletedBytes page) ∧
    (header page).upper + liveBytes page + deletedBytes page ≤ (header page).special := by
  have both := liveBytes_add_deletedBytes page
  have room := formed.room
  have upper := formed.upper
  have special := formed.special
  refine ⟨?_, by omega⟩
  unfold pageSize at special
  rw [getTotalFreeSpaceAfterCompaction, formed.getContiguousFreeSpace_eq, getReclaimableSpace,
    sum_range_eq, ← deletedBytes, Except.map]
  congr 1
  omega

theorem Formed.getMaxInsertable_eq (formed : Formed page) :
    getMaxInsertableBytesAfterCompaction page = .ok
      ((header page).upper - (header page).lower + deletedBytes page -
        required 0 (findReusableSlot page).isNone) := by
  rw [getMaxInsertableBytesAfterCompaction, formed.getTotalFreeSpace_eq.1, Except.map, required]
  cases findReusableSlot page with
  | none =>
    simp only [Option.isSome_none, Option.isNone_none, Bool.false_eq_true, if_false, if_true]
    congr 1
    split <;> omega
  | some slotNo =>
    simp only [Option.isSome_some, Option.isNone_some, Bool.false_eq_true, if_false, if_true]
    congr 1
    split <;> omega

variable {slotNo count lower : Nat} {data : Bytes}

theorem findReusableSlot_some (found : findReusableSlot page = some slotNo) :
    slotNo < (header page).slotCount ∧ ¬ Live page slotNo := by
  have member := mem_range.mp (List.mem_of_find?_eq_some found)
  refine ⟨member, fun live => ?_⟩
  have free := List.find?_some found
  simp [live.2] at free

def Offered (page : PageData) (reusable : Option Nat) : Prop :=
  ∀ slotNo, reusable = some slotNo → slotNo < (header page).slotCount ∧ ¬ Live page slotNo

private structure Table (page : PageData) (slotNo count lower : Nat) : Prop where
  lower : lower = headerSize + slotSize * count
  inTable : slotNo < count
  before : (header page).slotCount ≤ count
  other : ∀ i, i < count → i ≠ slotNo → i < (header page).slotCount
  dead : ¬ Live page slotNo

private theorem table_offered (formed : Formed page) {reusable : Option Nat}
    (offered : Offered page reusable) :
    Table page (reusable.getD (header page).slotCount)
      (if reusable.isSome then (header page).slotCount else (header page).slotCount + 1)
      (if reusable.isSome then (header page).lower else (header page).lower + slotSize) := by
  have lower := formed.lower
  cases reusable with
  | none =>
    refine ⟨?_, Nat.lt_succ_self _, Nat.le_succ _, ?_, fun live => Nat.lt_irrefl _ live.1⟩
    · simp only [Option.isSome_none, Bool.false_eq_true, if_false]
      rw [lower, mul_add, mul_one]
      omega
    · intro i inTable distinct
      simp at inTable distinct
      omega
  | some slotNo =>
    have there := offered slotNo rfl
    exact ⟨by simpa using lower, there.1, le_rfl, fun i inTable _ => inTable, there.2⟩

private structure Put (page page' : PageData) (slotNo count lower : Nat) (data : Bytes) : Prop where
  whole : header page' = { header page with
    slotCount := count, lower := lower, upper := (header page).upper - data.length }
  own : slotAt page' slotNo = ⟨(header page).upper - data.length, data.length,
    .occupied, 0⟩
  others : ∀ i, i < count → i ≠ slotNo → slotAt page' i = slotAt page i
  above : ∀ at_ n, (header page).upper ≤ at_ → read page' at_ n = read page at_ n
  bytes : read page' ((header page).upper - data.length) data.length = data

private theorem put_putRecord (formed : Formed page) (table : Table page slotNo count lower)
    (room : lower + data.length ≤ (header page).upper) :
    Put page (setSlot (write (setHeader page { header page with
        slotCount := count, lower := lower, upper := (header page).upper - data.length })
        ((header page).upper - data.length) data) slotNo
      ⟨(header page).upper - data.length, data.length, .occupied, 0⟩) slotNo count lower data := by
  have upper := formed.upper
  have special := formed.special
  have small : (header page).upper < 2 ^ 16 := by
    unfold pageSize at special
    omega
  have start := table.lower
  have fits := header_fits page
  have set := entrySet_setSlot (write (setHeader page { header page with
      slotCount := count, lower := lower, upper := (header page).upper - data.length })
      ((header page).upper - data.length) data) slotNo
    ⟨(header page).upper - data.length, data.length, .occupied, 0⟩
    ⟨by simp only; omega, by simp only; omega, by simp [SlotState.code, SlotState.ofCode], by simp⟩
  have behind {i : Nat} (there : i < count) : slotEnd i ≤ (header page).upper - data.length := by
    have ends := Nat.mul_le_mul_left slotSize (Nat.succ_le_of_lt there)
    rw [Nat.succ_eq_add_one] at ends
    unfold slotEnd
    omega
  have countSmall : count < 2 ^ 16 := by
    unfold slotSize at start
    omega
  refine ⟨?_, set.own, ?_, ?_, ?_⟩
  · rw [set.header, header_write _ (by omega)]
    exact header_setHeader page ⟨fits.pageLsn, by simp only; omega, by simp only; omega,
      fits.special, countSmall, fits.pageType, fits.flags, fits.reserved⟩
  · intro i there distinct
    have ends := behind there
    rw [slotEnd, mul_add, mul_one] at ends
    rw [set.others i distinct, slotAt_write _ (.inr (by omega)), slotAt_setHeader]
  · intro at_ n above
    have ends := behind table.inTable
    rw [set.bytes at_ n (by omega), read_write_apart _ (.inl (by omega)),
      read_setHeader page _ n (by omega)]
  · rw [set.bytes _ _ (behind table.inTable), read_write]

private theorem Put.sum (put : Put page page' slotNo count lower data)
    (table : Table page slotNo count lower) (f : SlotEntry → Nat) :
    ∑ i ∈ Finset.range count, f (slotAt page' i) +
        (if slotNo < (header page).slotCount then f (slotAt page slotNo) else 0) =
      ∑ i ∈ Finset.range (header page).slotCount, f (slotAt page i) + f (slotAt page' slotNo) := by
  have inTable := Finset.mem_range.mpr table.inTable
  have same : ∑ i ∈ (Finset.range count).erase slotNo, f (slotAt page' i) =
      ∑ i ∈ (Finset.range count).erase slotNo, f (slotAt page i) := by
    refine sum_congr rfl fun i member => ?_
    obtain ⟨distinct, inTable⟩ := mem_erase.mp member
    rw [put.others i (Finset.mem_range.mp inTable) distinct]
  have rest : (Finset.range count).erase slotNo =
      (Finset.range (header page).slotCount).erase slotNo := by
    ext i
    simp only [mem_erase, Finset.mem_range]
    constructor
    · intro both
      exact ⟨both.1, table.other i both.2 both.1⟩
    · intro both
      exact ⟨both.1, Nat.lt_of_lt_of_le both.2 table.before⟩
  rw [← Finset.add_sum_erase _ _ inTable, same, rest]
  split
  · rename_i old
    rw [← Finset.add_sum_erase (Finset.range (header page).slotCount) _ (Finset.mem_range.mpr old)]
    omega
  · rename_i fresh
    rw [Finset.erase_eq_of_notMem (fun member => fresh (Finset.mem_range.mp member))]
    omega

structure Inserted (page page' : PageData) (slotNo : Nat) (data : Bytes) : Prop where
  sound : Sound page'
  free : content page slotNo = none
  own : content page' slotNo = some data
  others : ∀ i, i ≠ slotNo → content page' i = content page i

structure Added (page page' : PageData) (slotNo : Nat) (data : Bytes) : Prop where
  formed : Formed page'
  framed : Framed page page'
  free : content page slotNo = none
  own : content page' slotNo = some data
  others : ∀ i, i ≠ slotNo → content page' i = content page i

theorem Added.inserted (added : Added page page' slotNo data) (sound : Sound page) :
    Inserted page page' slotNo data :=
  ⟨added.framed.sound sound added.formed, added.free, added.own, added.others⟩

private theorem Put.added (put : Put page page' slotNo count lower data) (formed : Formed page)
    (table : Table page slotNo count lower) (room : lower + data.length ≤ (header page).upper) :
    Added page page' slotNo data := by
  have upper := formed.upper
  have here : Live page' slotNo := by
    refine ⟨?_, by rw [put.own]⟩
    rw [put.whole]
    exact table.inTable
  have live_iff {i : Nat} (distinct : i ≠ slotNo) : Live page' i ↔ Live page i := by
    rw [Live, Live, put.whole]
    constructor
    · rintro ⟨there, occupied⟩
      rw [put.others i there distinct] at occupied
      exact ⟨table.other i there distinct, occupied⟩
    · rintro ⟨there, occupied⟩
      have later := Nat.lt_of_lt_of_le there table.before
      exact ⟨later, by rw [put.others i later distinct]; exact occupied⟩
  have same {i : Nat} (distinct : i ≠ slotNo) (live : Live page i) :
      slotAt page' i = slotAt page i :=
    put.others i (Nat.lt_of_lt_of_le live.1 table.before) distinct
  have above {i : Nat} (distinct : i ≠ slotNo) (live : Live page i) :
      (slotAt page' slotNo).offset + (slotAt page' slotNo).length ≤ (slotAt page' i).offset := by
    rw [put.own, same distinct live]
    have inside := (formed.inside i live).1
    simp only
    omega
  refine ⟨⟨by rw [put.whole]; exact table.lower,
    by rw [put.whole]; simp only; omega, by rw [put.whole]; simp only; omega,
    by rw [put.whole]; exact formed.special, ?_, ?_, ?_⟩,
    ⟨by rw [put.whole], by rw [put.whole], ?_⟩, content_dead table.dead, ?_, ?_⟩
  · intro i live
    rw [put.whole]
    by_cases own : i = slotNo
    · subst own
      rw [put.own]
      simp only
      omega
    · have before := (live_iff own).mp live
      have inside := formed.inside i before
      rw [same own before]
      simp only
      omega
  · intro i j first second distinct
    by_cases left : i = slotNo
    · subst left
      have right := Ne.symm distinct
      exact .inl (above right ((live_iff right).mp second))
    · have liveLeft := (live_iff left).mp first
      by_cases right : j = slotNo
      · subst right
        exact .inr (above left liveLeft)
      · have liveRight := (live_iff right).mp second
        rw [same left liveLeft, same right liveRight]
        exact formed.apart i j liveLeft liveRight distinct
  · have kept := formed.room
    have grown := put.sum table held
    have own : held (slotAt page' slotNo) = data.length := by
      rw [put.own, held, if_pos (.inl rfl)]
    rw [put.whole]
    simp only
    omega
  · intro a behind
    exact cell_of_read (put.above a 1 (by omega))
  · rw [content_live here, put.own, recordOf]
    exact congrArg some put.bytes
  · intro i distinct
    refine content_congr (live_iff distinct) fun live => ?_
    rw [same distinct live]
    exact put.above _ _ (formed.inside i live).1

def lostBytes (page : PageData) : Nat := (header page).special - (header page).upper -
  ∑ i ∈ Finset.range (header page).slotCount, held (slotAt page i)

def keptLength (page : PageData) (reusable : Option Nat) : Nat :=
  (reusable.map fun slotNo => reclaimable (slotAt page slotNo)).getD 0

theorem putRecord_added (formed : Formed page) {reusable : Option Nat}
    (offered : Offered page reusable)
    (room : required data.length reusable.isNone ≤ (header page).upper - (header page).lower) :
    Added page (putRecord page reusable data).1 (putRecord page reusable data).2 data ∧
      lostBytes (putRecord page reusable data).1 = lostBytes page + keptLength page reusable := by
  have free := formed.free
  have upper := formed.upper
  have special := formed.special
  have table := table_offered formed offered
  have cut : ((header page).upper + 2 ^ 16 - data.length) % 2 ^ 16 =
      (header page).upper - data.length := by
    unfold required at room
    unfold pageSize at special
    omega
  have low : (if reusable.isSome then (header page).lower else (header page).lower + slotSize) +
      data.length ≤ (header page).upper := by
    unfold required at room
    cases reusable with
    | none => simp at room ⊢; omega
    | some slotNo => simp at room ⊢; omega
  have kept : (if reusable.getD (header page).slotCount < (header page).slotCount then
      held (slotAt page (reusable.getD (header page).slotCount)) else 0) =
      keptLength page reusable := by
    cases reusable with
    | none => exact if_neg (Nat.lt_irrefl _)
    | some slotNo =>
      obtain ⟨inTable, dead⟩ := offered slotNo rfl
      have unoccupied : ¬ (slotAt page slotNo).state = .occupied := fun here => dead ⟨inTable, here⟩
      have both := liveLength_add_reclaimable (slotAt page slotNo)
      rw [liveLength, if_neg unoccupied, Nat.zero_add] at both
      simp only [Option.getD_some, if_pos inTable, keptLength, Option.map_some, both]
  have put := put_putRecord formed table low
  rw [← cut] at put
  have placed : Put page (putRecord page reusable data).1 (reusable.getD (header page).slotCount)
    (if reusable.isSome then (header page).slotCount else (header page).slotCount + 1)
    (if reusable.isSome then (header page).lower else (header page).lower + slotSize) data := put
  refine ⟨placed.added formed table low, ?_⟩
  have sum := placed.sum table held
  have own : held (slotAt (putRecord page reusable data).1 (reusable.getD (header page).slotCount)) =
      data.length := by
    rw [placed.own, held, if_pos (.inl rfl)]
  have before := formed.room
  rw [own, kept] at sum
  rw [lostBytes, lostBytes, placed.whole]
  simp only
  omega

/-- The record fits into the free space between the slot table and the records. -/
def FitsGap (page : PageData) (data : Bytes) : Prop :=
  required data.length (findReusableSlot page).isNone ≤ (header page).upper - (header page).lower

/-- The record fits into it together with what the deleted records have left. -/
def Fits (page : PageData) (data : Bytes) : Prop :=
  required data.length (findReusableSlot page).isNone ≤
    (header page).upper - (header page).lower + deletedBytes page

instance (page : PageData) (data : Bytes) : Decidable (FitsGap page data) :=
  inferInstanceAs (Decidable (_ ≤ _))

/-- The bytes that no slot accounts for after an insertion: a compaction finds them all. -/
def lostAfter (page : PageData) (data : Bytes) : Nat :=
  if FitsGap page data then lostBytes page + keptLength page (findReusableSlot page) else 0

theorem Packed.lostBytes_eq (packed : Packed page page') : lostBytes page' = 0 := by
  have sums : ∑ i ∈ Finset.range (header page').slotCount, held (slotAt page' i) =
      ∑ i ∈ Finset.range (header page).slotCount, liveLength (slotAt page i) := by
    rw [packed.slotCount]
    refine sum_congr rfl fun i member => ?_
    exact (packed.lengths i (Finset.mem_range.mp member)).2
  have upper := packed.upper
  rw [lostBytes, sums, packed.framed.special]
  omega

theorem Formed.insertRecord_cases (formed : Formed page) (nonempty : data ≠ []) :
    (¬ Fits page data ∧ insertRecord page data = .ok (page, none)) ∨
      Fits page data ∧ ∃ page' slotNo, insertRecord page data = .ok (page', some slotNo) ∧
        Added page page' slotNo data ∧ lostBytes page' = lostAfter page data := by
  have offered : Offered page (findReusableSlot page) := fun _ found => findReusableSlot_some found
  obtain ⟨freeEq, accounted⟩ := formed.getTotalFreeSpace_eq
  have lower := formed.lower
  have free := formed.free
  have long : 0 < data.length := List.length_pos_iff.mpr nonempty
  rw [insertRecord, if_neg (by omega)]
  simp only [formed.hasSpaceFor_eq, freeEq, bind, Except.bind]
  by_cases gap : required data.length (findReusableSlot page).isNone ≤
      (header page).upper - (header page).lower
  · obtain ⟨added, lost⟩ := putRecord_added formed offered gap
    refine .inr ⟨Nat.le_add_right_of_le gap, _, _, by rw [decide_eq_true gap]; rfl, added, ?_⟩
    rw [lost, lostAfter]
    exact (if_pos gap).symm
  · rw [decide_eq_false gap]
    simp only [Bool.false_eq_true, if_false]
    by_cases short : (header page).upper - (header page).lower + deletedBytes page <
        required data.length (findReusableSlot page).isNone
    · exact .inl ⟨by unfold Fits; omega, by rw [if_pos short]⟩
    · obtain ⟨page', compacted, packed⟩ := formed.compactPage_packed
      have upper := packed.upper
      have count := packed.slotCount
      have low := packed.lower
      have enough : required data.length (findReusableSlot page).isNone ≤
          (header page').upper - (header page').lower := by
        unfold liveBytes at accounted
        omega
      have stillOffered : Offered page' (findReusableSlot page) := by
        intro slotNo found
        obtain ⟨inTable, dead⟩ := offered slotNo found
        refine ⟨by rw [count]; exact inTable, ?_⟩
        rw [← content_eq_none, packed.content, content_eq_none]
        exact dead
      have forgotten : keptLength page' (findReusableSlot page) = 0 := by
        cases found : findReusableSlot page with
        | none => rfl
        | some slotNo =>
          obtain ⟨inTable, dead⟩ := offered slotNo found
          have unoccupied : ¬ (slotAt page slotNo).state = .occupied :=
            fun here => dead ⟨inTable, here⟩
          have none_ := (packed.lengths slotNo inTable).2
          rw [liveLength, if_neg unoccupied] at none_
          have both := liveLength_add_reclaimable (slotAt page' slotNo)
          simp only [keptLength, Option.map_some, Option.getD_some]
          omega
      obtain ⟨added, lost⟩ := putRecord_added packed.formed stillOffered enough
      refine .inr ⟨by unfold Fits; omega, _, _, ?_,
        ⟨added.formed, packed.framed.trans added.framed, ?_, added.own, ?_⟩, ?_⟩
      · rw [if_neg short, compacted]
        simp only [packed.formed.hasSpaceFor_eq, decide_eq_true enough]
        rfl
      · rw [← packed.content]
        exact added.free
      · intro i distinct
        rw [added.others i distinct, packed.content]
      · rw [lost, packed.lostBytes_eq, forgotten, lostAfter]
        exact (if_neg gap).symm

theorem insertRecord_sound (sound : Sound page) (nonempty : 0 < data.length) :
    insertRecord page data = .ok (page, none) ∨
      ∃ page' slotNo, insertRecord page data = .ok (page', some slotNo) ∧
        Inserted page page' slotNo data := by
  rcases sound.formed.insertRecord_cases (List.ne_nil_of_length_pos nonempty) with
    ⟨-, full⟩ | ⟨-, page', slotNo, put, added, -⟩
  · exact .inl full
  · exact .inr ⟨page', slotNo, put, added.inserted sound⟩

theorem header_initializePage (page : PageData) : header (initializePage page .heap) =
    { pageLsn := 0, lower := headerSize, upper := pageSize, special := pageSize, slotCount := 0,
      pageType := .heap, flags := 0, reserved := 0 } :=
  header_setHeader _ ⟨by simp, by simp [headerSize], by simp [pageSize], by simp [pageSize],
    by simp, by simp [PageType.code, PageType.ofCode], by simp, by simp⟩

theorem sound_initializePage (page : PageData) : Sound (initializePage page .heap) := by
  have whole := header_initializePage page
  have dead (i : Nat) : ¬ Live (initializePage page .heap) i := by
    rintro ⟨inTable, _⟩
    rw [whole] at inTable
    cases inTable
  refine ⟨by rw [whole], by rw [whole]; rfl, by rw [whole]; decide, by rw [whole], by rw [whole],
    fun i live => absurd live (dead i), fun i _ live => absurd live (dead i), ?_⟩
  rw [whole]
  simp

theorem content_initializePage (page : PageData) (slotNo : Nat) :
    content (initializePage page .heap) slotNo = none := by
  refine content_dead fun live => ?_
  have inTable := live.1
  rw [header_initializePage] at inTable
  cases inTable

theorem insertRecord_initialized (page : PageData) (nonempty : 0 < data.length)
    (fits : data.length ≤ pageSize - headerSize - slotSize) :
    ∃ page' slotNo, insertRecord (initializePage page .heap) data = .ok (page', some slotNo) ∧
      Inserted (initializePage page .heap) page' slotNo data := by
  have sound := sound_initializePage page
  have whole := header_initializePage page
  have noSlot : findReusableSlot (initializePage page .heap) = none := by
    rw [findReusableSlot, whole]
    rfl
  have enough : required data.length (findReusableSlot (initializePage page .heap)).isNone ≤
      (header (initializePage page .heap)).upper - (header (initializePage page .heap)).lower := by
    rw [noSlot, whole, required]
    simp only [Option.isNone_none, if_true]
    unfold pageSize headerSize slotSize at *
    omega
  rcases sound.formed.insertRecord_cases (List.ne_nil_of_length_pos nonempty) with
    ⟨full, -⟩ | ⟨-, page', slotNo, put, added, -⟩
  · exact (full (Nat.le_add_right_of_le enough)).elim
  · exact ⟨page', slotNo, put, added.inserted sound⟩

end Insertion

end GraniteDb.Storage.PageRecords
