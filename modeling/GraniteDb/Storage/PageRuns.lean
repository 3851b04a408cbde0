/- Slotted pages over every sequence of calls: their records stay, and space that is lost. -/

import GraniteDb.Storage.PageRecords
import Mathlib.Logic.Function.Basic

namespace GraniteDb.Storage.PageRuns

open Lib.ByteStore Storage.SlottedPage Storage.PageRecords
open Common.Types (pageSize)
open Recovery.WalRecords (Bytes leBytes length_leBytes)
open Recovery.WalFormat (leNat_leBytes leBytes_leNat)

def initializeWith (page : PageData) (pageType : PageType) (specialSize : Nat) :
    Except String PageData :=
  if pageSize - headerSize < specialSize then .error "special_size too large for page"
  else .ok (setHeader (zeroFill page 0 pageSize)
    { pageLsn := 0, lower := headerSize, upper := pageSize - specialSize,
      special := pageSize - specialSize, slotCount := 0, pageType := pageType, flags := 0,
      reserved := 0 })

inductive PageCall
  | insertRecord (data : Bytes)
  | deleteRecord (slotNo : Nat)
  | overwriteRecord (slotNo : Nat) (data : Bytes)
  | compactPage
  deriving DecidableEq

/-- A page with its history: the bytes last stored in each slot, and the lengths of deleted
records that were forgotten since the last compaction. -/
structure History where
  page : PageData
  stored : Nat → Option Bytes
  forgotten : Nat

def padded (data : Bytes) (length : Nat) : Bytes :=
  data ++ List.replicate (length - data.length) 0

def History.call (h : History) : PageCall → Except String History
  | .insertRecord data =>
    match insertRecord h.page data with
    | .error message => .error message
    | .ok (page, none) => .ok { h with page := page }
    | .ok (page, some slotNo) =>
      .ok ⟨page, Function.update h.stored slotNo (some data),
        if FitsGap h.page data then
          h.forgotten + keptLength h.page (findReusableSlot h.page)
        else 0⟩
  | .deleteRecord slotNo =>
    match deleteRecord h.page slotNo with
    | none => .ok h
    | some page => .ok { h with page := page, stored := Function.update h.stored slotNo none }
  | .overwriteRecord slotNo data =>
    match overwriteRecord h.page slotNo data with
    | none => .ok h
    | some page =>
      .ok { h with
        page := page
        stored := Function.update h.stored slotNo
          ((h.stored slotNo).map fun old => padded data old.length) }
  | .compactPage =>
    match compactPage h.page with
    | .error message => .error message
    | .ok page => .ok { h with page := page, forgotten := 0 }

def History.calls (h : History) : List PageCall → Except String History
  | [] => .ok h
  | call :: rest =>
    match h.call call with
    | .error message => .error message
    | .ok h => h.calls rest

def History.new (page : PageData) : History := ⟨page, fun _ => none, 0⟩

def shown (page : PageData) (slotNo : Nat) : Except String (Option Bytes) :=
  (getRecord page slotNo).map fun found => found.map (recordOf page)

/-- The space between the slot table and the special area that no record occupies. -/
def freeBytes (page : PageData) : Nat := (header page).special - (header page).lower - liveBytes page

def Inserts (page : PageData) (data : Bytes) : Prop :=
  ∃ page' slotNo, insertRecord page data = .ok (page', some slotNo)

section Invariant

structure Holds (h : History) : Prop where
  formed : Formed h.page
  stored : ∀ i, content h.page i = h.stored i
  forgotten : lostBytes h.page = h.forgotten

variable {page : PageData}

theorem shown_eq (formed : Formed page) (slotNo : Nat) :
    shown page slotNo = .ok (content page slotNo) := by
  by_cases live : Live page slotNo
  · rw [shown, formed.getRecord_live live, content_live live]
    rfl
  · rw [shown, getRecord_dead live, content_dead live]
    rfl

theorem leBytes_mod (w n : Nat) : leBytes w (n % 256 ^ w) = leBytes w n := by
  have back := leBytes_leNat (leBytes w n)
  rw [length_leBytes, leNat_leBytes] at back
  exact back

theorem header_initializeWith {start : PageData} {pageType : PageType} {specialSize : Nat}
    (started : initializeWith page pageType specialSize = .ok start) :
    specialSize ≤ pageSize - headerSize ∧ header start =
      { pageLsn := 0, lower := headerSize, upper := pageSize - specialSize,
        special := pageSize - specialSize, slotCount := 0,
        pageType := .ofCode (pageType.code % 256 ^ 2), flags := 0, reserved := 0 } := by
  unfold initializeWith at started
  split at started
  · cases started
  · rename_i large
    refine ⟨Nat.le_of_not_lt large, ?_⟩
    obtain rfl := Except.ok.inj started
    have small := Nat.mod_lt pageType.code (show 0 < 256 ^ 2 by decide)
    have cut : setHeader (zeroFill page 0 pageSize)
        { pageLsn := 0, lower := headerSize, upper := pageSize - specialSize,
          special := pageSize - specialSize, slotCount := 0, pageType := pageType, flags := 0,
          reserved := 0 } =
        setHeader (zeroFill page 0 pageSize)
        { pageLsn := 0, lower := headerSize, upper := pageSize - specialSize,
          special := pageSize - specialSize, slotCount := 0,
          pageType := .ofCode (pageType.code % 256 ^ 2), flags := 0, reserved := 0 } := by
      rw [setHeader, setHeader, Header.bytes, Header.bytes]
      simp only [pageType_code, leBytes_mod]
    rw [cut]
    have bound : pageSize - specialSize < 2 ^ 16 := by
      unfold pageSize
      omega
    exact header_setHeader _ ⟨by simp, by simp [headerSize], bound, bound, by simp,
      by rw [pageType_code]; exact ⟨small, rfl⟩, by simp, by simp⟩

theorem holds_new {start : PageData} {pageType : PageType} {specialSize : Nat}
    (started : initializeWith page pageType specialSize = .ok start) : Holds (.new start) := by
  obtain ⟨fits, whole⟩ := header_initializeWith started
  have dead (i : Nat) : ¬ Live start i := by
    rintro ⟨inTable, _⟩
    rw [whole] at inTable
    cases inTable
  refine ⟨⟨?_, ?_, ?_, ?_, ?_, ?_, ?_⟩, ?_, ?_⟩
  · rw [History.new, whole]
    rfl
  · rw [History.new, whole]
    unfold pageSize headerSize at *
    simp only
    omega
  · rw [History.new, whole]
  · rw [History.new, whole]
    exact Nat.sub_le _ _
  · exact fun i live => absurd live (dead i)
  · exact fun i _ live => absurd live (dead i)
  · rw [History.new, whole]
    simp
  · exact fun i => content_dead (dead i)
  · rw [History.new, lostBytes, whole]
    simp

theorem stored_update {page' : PageData} {stored : Nat → Option Bytes} {slotNo : Nat}
    {bytes : Option Bytes} (same : ∀ i, content page i = stored i)
    (own : content page' slotNo = bytes)
    (others : ∀ i, i ≠ slotNo → content page' i = content page i) :
    ∀ i, content page' i = Function.update stored slotNo bytes i := by
  intro i
  by_cases here : i = slotNo
  · rw [here, Function.update_self, own]
  · rw [Function.update_of_ne here, others i here, same]

theorem Holds.call {h : History} (holds : Holds h) (call : PageCall) :
    ∃ h', h.call call = .ok h' ∧ Holds h' ∧ Framed h.page h'.page := by
  obtain ⟨page, stored, forgotten⟩ := h
  obtain ⟨formed, same, lost⟩ := holds
  simp only at formed same lost
  cases call with
  | insertRecord data =>
    by_cases empty : data = []
    · subst empty
      exact ⟨_, rfl, ⟨formed, same, lost⟩, .refl _⟩
    · rcases formed.insertRecord_cases empty with ⟨-, full⟩ | ⟨-, page', slotNo, put, added, after⟩
      · exact ⟨⟨page, stored, forgotten⟩, by simp only [History.call, full],
          ⟨formed, same, lost⟩, .refl _⟩
      · refine ⟨_, by simp only [History.call, put]; rfl, ⟨added.formed, ?_, ?_⟩, added.framed⟩
        · exact stored_update same added.own added.others
        · rw [after, lostAfter, lost]
  | deleteRecord slotNo =>
    by_cases live : Live page slotNo
    · obtain ⟨page', deleted, formed', framed, whole, own, others, gone, kept⟩ :=
        formed.deleteRecord_live live
      refine ⟨_, by simp only [History.call, deleted]; rfl, ⟨formed', ?_, ?_⟩, framed⟩
      · exact stored_update same gone kept
      · rw [← lost, lostBytes, lostBytes, whole]
        congr 1
        refine Finset.sum_congr rfl fun i _ => ?_
        by_cases here : i = slotNo
        · subst here
          rw [own, held, held, if_pos (.inr rfl), if_pos (.inl live.2)]
        · rw [others i here]
    · have refused : deleteRecord page slotNo = none := if_neg live
      exact ⟨⟨page, stored, forgotten⟩, by simp only [History.call, refused],
        ⟨formed, same, lost⟩, .refl _⟩
  | overwriteRecord slotNo data =>
    by_cases fits : Live page slotNo ∧ data.length ≤ (slotAt page slotNo).length
    · obtain ⟨page', written, formed', layout, framed, own, others⟩ :=
        formed.overwriteRecord_live fits.1 fits.2
      refine ⟨_, by simp only [History.call, written]; rfl, ⟨formed', ?_, ?_⟩, framed⟩
      · have bytes : (stored slotNo).map (fun old => padded data old.length) =
            some (padded data (slotAt page slotNo).length) := by
          rw [← same, content_live fits.1, Option.map_some, recordOf, length_read]
        exact stored_update same (own.trans bytes.symm) others
      · rw [← lost, lostBytes, lostBytes, layout.special, layout.upper, layout.slotCount]
        congr 1
        refine Finset.sum_congr rfl fun i member => ?_
        rw [layout.slot i (Finset.mem_range.mp member)]
    · have refused : overwriteRecord page slotNo data = none := by
        apply if_neg
        intro all
        exact fits ⟨⟨all.1, all.2.1⟩, all.2.2⟩
      exact ⟨⟨page, stored, forgotten⟩, by simp only [History.call, refused],
        ⟨formed, same, lost⟩, .refl _⟩
  | compactPage =>
    obtain ⟨page', compacted, packed⟩ := formed.compactPage_packed
    refine ⟨_, by simp only [History.call, compacted]; rfl, ⟨packed.formed, ?_, ?_⟩, packed.framed⟩
    · intro i
      rw [packed.content, same]
    · exact packed.lostBytes_eq

theorem Holds.calls {h : History} (holds : Holds h) (calls : List PageCall) :
    ∃ h', h.calls calls = .ok h' ∧ Holds h' ∧ Framed h.page h'.page := by
  induction calls generalizing h with
  | nil => exact ⟨h, rfl, holds, .refl _⟩
  | cons call rest ih =>
    obtain ⟨middle, first, holdsMiddle, framed⟩ := holds.call call
    obtain ⟨h', later, holds', framed'⟩ := ih holdsMiddle
    refine ⟨h', ?_, holds', framed.trans framed'⟩
    rw [History.calls, first]
    exact later

end Invariant

section Records

/-- Header, slot table, free space, records and special area lie in this order, the records apart
from each other; each slot shows what was last stored in it, and the special area is as it was at
the start. -/
structure KeepsRecords (start : PageData) (specialSize : Nat) (h : History) : Prop where
  above : headerSize ≤ (header h.page).lower
  table : (header h.page).lower = headerSize + slotSize * (header h.page).slotCount
  free : (header h.page).lower ≤ (header h.page).upper
  upper : (header h.page).upper ≤ (header h.page).special
  special : (header h.page).special = pageSize - specialSize
  inside : ∀ i, Live h.page i → (header h.page).upper ≤ (slotAt h.page i).offset ∧
    (slotAt h.page i).offset + (slotAt h.page i).length ≤ (header h.page).special
  apart : ∀ i j, Live h.page i → Live h.page j → i ≠ j →
    Apart (slotAt h.page i).offset (slotAt h.page i).length (slotAt h.page j).offset
      (slotAt h.page j).length
  records : ∀ i, shown h.page i = .ok (h.stored i)
  area : ∀ a, pageSize - specialSize ≤ a → h.page a = start a

variable {before start : PageData} {pageType : PageType} {specialSize : Nat}

theorem keepsRecords (started : initializeWith before pageType specialSize = .ok start)
    (calls : List PageCall) :
    ∃ h, (History.new start).calls calls = .ok h ∧ KeepsRecords start specialSize h := by
  obtain ⟨-, whole⟩ := header_initializeWith started
  obtain ⟨h, ran, holds, framed⟩ := (holds_new started).calls calls
  have formed := holds.formed
  have special : (header start).special = pageSize - specialSize := by rw [whole]
  refine ⟨h, ran, ?_, formed.lower, formed.free, formed.upper, framed.special.trans special,
    formed.inside, formed.apart, ?_, ?_⟩
  · rw [formed.lower]
    exact Nat.le_add_right _ _
  · intro i
    rw [shown_eq formed, holds.stored]
  · intro a behind
    exact framed.area a (by rw [History.new, special]; exact behind)

/-- A record that is overwritten by a shorter one, moved by a compaction and joined by others. -/
theorem keepsRecords_overwritten : ∃ h, (History.new (setHeader (zeroFill zeroPage 0 pageSize)
      { pageLsn := 0, lower := headerSize, upper := pageSize - 16, special := pageSize - 16,
        slotCount := 0, pageType := .btreeLeaf, flags := 0, reserved := 0 })).calls
      [.insertRecord [1, 2, 3], .insertRecord [4], .deleteRecord 1, .overwriteRecord 0 [5],
        .compactPage, .insertRecord [6, 7]] = .ok h ∧
      KeepsRecords (setHeader (zeroFill zeroPage 0 pageSize)
        { pageLsn := 0, lower := headerSize, upper := pageSize - 16, special := pageSize - 16,
          slotCount := 0, pageType := .btreeLeaf, flags := 0, reserved := 0 }) 16 h :=
  @keepsRecords zeroPage _ .btreeLeaf 16 rfl _

end Records

section Space

variable {before start page : PageData} {pageType : PageType} {specialSize : Nat}

theorem freeBytes_eq (formed : Formed page) : freeBytes page =
    (header page).upper - (header page).lower + deletedBytes page + lostBytes page := by
  have both := liveBytes_add_deletedBytes page
  have room := formed.room
  have free := formed.free
  have upper := formed.upper
  rw [freeBytes, lostBytes]
  omega

theorem inserts_iff (formed : Formed page) {data : Bytes} (nonempty : data ≠ []) :
    Inserts page data ↔ Fits page data := by
  rcases formed.insertRecord_cases nonempty with ⟨full, unchanged⟩ | ⟨fits, page', slotNo, put, -⟩
  · refine iff_of_false ?_ full
    intro inserts
    obtain ⟨page', slotNo, put⟩ := inserts
    rw [unchanged] at put
    cases put
  · exact iff_of_true ⟨page', slotNo, put⟩ fits

/-- `InsertRecord` finds room whenever there is some exactly when no length of a deleted record was
forgotten since the last compaction, or no room is left for any record. -/
theorem insertsWhenever_iff (started : initializeWith before pageType specialSize = .ok start)
    {calls : List PageCall} {h : History} (ran : (History.new start).calls calls = .ok h) :
    (∀ data : Bytes, data ≠ [] → (Inserts h.page data ↔
        required data.length (findReusableSlot h.page).isNone ≤ freeBytes h.page)) ↔
      h.forgotten = 0 ∨ freeBytes h.page ≤ required 0 (findReusableSlot h.page).isNone := by
  obtain ⟨h', ran', holds, -⟩ := (holds_new started).calls calls
  rw [ran] at ran'
  obtain rfl := Except.ok.inj ran'
  have formed := holds.formed
  have space := freeBytes_eq formed
  have lost := holds.forgotten
  have needs (data : Bytes) : required data.length (findReusableSlot h.page).isNone =
      data.length + required 0 (findReusableSlot h.page).isNone := by
    rw [required, required, Nat.zero_add]
  constructor
  · intro whenever
    by_contra wasted
    obtain ⟨some_, room⟩ := not_or.mp wasted
    have length : (List.replicate (freeBytes h.page -
        required 0 (findReusableSlot h.page).isNone) (0 : UInt8)).length =
        freeBytes h.page - required 0 (findReusableSlot h.page).isNone := List.length_replicate
    generalize List.replicate (freeBytes h.page -
      required 0 (findReusableSlot h.page).isNone) (0 : UInt8) = data at length
    have nonempty : data ≠ [] := List.ne_nil_of_length_pos (by omega)
    have inserts := (whenever data nonempty).mpr (by rw [needs]; omega)
    have fits := (inserts_iff formed nonempty).mp inserts
    unfold Fits at fits
    rw [needs] at fits
    omega
  · intro exact_ data nonempty
    have long := List.length_pos_iff.mpr nonempty
    rw [inserts_iff formed nonempty, Fits, needs]
    omega

/-- A record of 5000 bytes was deleted, and one of 1000 bytes took its slot. -/
private def reused : List PageCall :=
  [.insertRecord (List.replicate 5000 1), .deleteRecord 0, .insertRecord (List.replicate 1000 1)]

private def roomNotFound (page : PageData) (data : Bytes) : Bool :=
  decide (required data.length (findReusableSlot page).isNone ≤ freeBytes page) &&
    (insertRecord page data).toOption.any fun result => result.2.isNone

private theorem roomNotFound_reused : (match (History.new (initializePage zeroPage .heap)).calls
    reused with
    | .ok h => roomNotFound h.page (List.replicate 3000 1)
    | .error _ => false) = true := by
  decide +kernel

theorem insertsWhenever_iff_reused : ∃ h,
    (History.new (initializePage zeroPage .heap)).calls reused = .ok h ∧
    ((∀ data : Bytes, data ≠ [] → (Inserts h.page data ↔
        required data.length (findReusableSlot h.page).isNone ≤ freeBytes h.page)) ↔
      h.forgotten = 0 ∨ freeBytes h.page ≤ required 0 (findReusableSlot h.page).isNone) := by
  have started : initializeWith zeroPage .heap 0 = .ok (initializePage zeroPage .heap) := rfl
  obtain ⟨h, ran, -⟩ := (holds_new started).calls reused
  exact ⟨h, ran, insertsWhenever_iff started ran⟩

/-- A page of 8192 bytes with one record of 1000 bytes does not take one of 3000 bytes. -/
theorem reuse_loses_room : ¬ ∀ (before start : PageData) (pageType : PageType) (specialSize : Nat)
    (calls : List PageCall) (h : History), initializeWith before pageType specialSize = .ok start →
    (History.new start).calls calls = .ok h → ∀ data : Bytes, data ≠ [] →
      (Inserts h.page data ↔
        required data.length (findReusableSlot h.page).isNone ≤ freeBytes h.page) := by
  intro all
  have started : initializeWith zeroPage .heap 0 = .ok (initializePage zeroPage .heap) := rfl
  obtain ⟨h, ran, -⟩ := (holds_new started).calls reused
  have found := roomNotFound_reused
  rw [ran] at found
  simp only [roomNotFound, Bool.and_eq_true, decide_eq_true_eq] at found
  have nonempty : List.replicate 3000 (1 : UInt8) ≠ [] :=
    List.ne_nil_of_length_pos (by rw [List.length_replicate]; decide)
  obtain ⟨page', slotNo, put⟩ :=
    (all _ _ _ _ _ h started ran _ nonempty).mpr found.1
  rw [put] at found
  cases found.2

end Space

end GraniteDb.Storage.PageRuns
