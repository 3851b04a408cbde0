/- Slotted pages over the bytes of a page, and the records their slots hold. -/

import GraniteDb.Lib.ByteStore
import GraniteDb.Recovery.WalFormat

namespace GraniteDb.Storage.SlottedPage

open Lib.ByteStore
open Common.Types (pageSize)
open Recovery.WalRecords (Bytes leBytes leNat length_leBytes)
open Recovery.WalFormat (leNat_leBytes)

abbrev PageData := ByteStore UInt8

/-- `PageType`. A page may hold a code without an enumerator. -/
inductive PageType
  | invalid
  | heap
  | btreeLeaf
  | btreeInternal
  | unnamed (code : Nat)
  deriving DecidableEq

def PageType.code : PageType → Nat
  | .invalid => 0
  | .heap => 1
  | .btreeLeaf => 2
  | .btreeInternal => 3
  | .unnamed code => code

def PageType.ofCode : Nat → PageType
  | 0 => .invalid
  | 1 => .heap
  | 2 => .btreeLeaf
  | 3 => .btreeInternal
  | code => .unnamed code

inductive SlotState
  | empty
  | occupied
  | deleted
  | unnamed (code : Nat)
  deriving DecidableEq

def SlotState.code : SlotState → Nat
  | .empty => 0
  | .occupied => 1
  | .deleted => 2
  | .unnamed code => code

def SlotState.ofCode : Nat → SlotState
  | 0 => .empty
  | 1 => .occupied
  | 2 => .deleted
  | code => .unnamed code

structure Header where
  pageLsn : Nat
  lower : Nat
  upper : Nat
  special : Nat
  slotCount : Nat
  pageType : PageType
  flags : Nat
  reserved : Nat
  deriving DecidableEq

structure SlotEntry where
  offset : Nat
  length : Nat
  state : SlotState
  reserved : Nat
  deriving DecidableEq

/-- `sizeof(SlottedPageHeader)`, two bytes of padding at its end included. -/
def headerSize : Nat := 24

def slotSize : Nat := 8

/-- The integer of `w` bytes at an offset. -/
def fieldAt (page : PageData) (at_ w : Nat) : Nat := leNat (read page at_ w)

def header (page : PageData) : Header where
  pageLsn := fieldAt page 0 8
  lower := fieldAt page 8 2
  upper := fieldAt page 10 2
  special := fieldAt page 12 2
  slotCount := fieldAt page 14 2
  pageType := .ofCode (fieldAt page 16 2)
  flags := fieldAt page 18 2
  reserved := fieldAt page 20 2

def Header.bytes (h : Header) : Bytes :=
  leBytes 8 h.pageLsn ++ leBytes 2 h.lower ++ leBytes 2 h.upper ++ leBytes 2 h.special ++
    leBytes 2 h.slotCount ++ leBytes 2 h.pageType.code ++ leBytes 2 h.flags ++
    leBytes 2 h.reserved

/-- Assignments to fields of `Header()`; a value is cut to the width of its field. -/
def setHeader (page : PageData) (h : Header) : PageData := write page 0 h.bytes

def slotAt (page : PageData) (slotNo : Nat) : SlotEntry where
  offset := fieldAt page (headerSize + slotSize * slotNo) 2
  length := fieldAt page (headerSize + slotSize * slotNo + 2) 2
  state := .ofCode (fieldAt page (headerSize + slotSize * slotNo + 4) 2)
  reserved := fieldAt page (headerSize + slotSize * slotNo + 6) 2

def SlotEntry.bytes (slot : SlotEntry) : Bytes :=
  leBytes 2 slot.offset ++ leBytes 2 slot.length ++ leBytes 2 slot.state.code ++
    leBytes 2 slot.reserved

/-- Assignments to fields of `SlotAt(slot_no)`. -/
def setSlot (page : PageData) (slotNo : Nat) (slot : SlotEntry) : PageData :=
  write page (headerSize + slotSize * slotNo) slot.bytes

def zeroFill (page : PageData) (at_ n : Nat) : PageData := write page at_ (List.replicate n 0)

def setPageLsn (page : PageData) (lsn : Nat) : PageData := write page 0 (leBytes 8 lsn)

def zeroPage : PageData := fun _ => 0

/-- `Initialize`, with the special area of a heap page, which is empty. -/
def initializePage (page : PageData) (pageType : PageType) : PageData :=
  setHeader (zeroFill page 0 pageSize)
    { pageLsn := 0, lower := headerSize, upper := pageSize, special := pageSize, slotCount := 0,
      pageType := pageType, flags := 0, reserved := 0 }

def isInitialized (page : PageData) : Bool :=
  let hdr := header page
  hdr.pageType ≠ .invalid && !(hdr.lower < headerSize) &&
    !(hdr.upper < hdr.lower || hdr.special < hdr.upper || pageSize < hdr.special)

def getContiguousFreeSpace (page : PageData) : Except String Nat :=
  if (header page).upper < (header page).lower then .error "Corrupt slotted page"
  else .ok ((header page).upper - (header page).lower)

def reclaimable (slot : SlotEntry) : Nat := if slot.state = .deleted then slot.length else 0

/-- `GetReclaimableSpace`: a 32-bit sum, returned as 16 bits. -/
def getReclaimableSpace (page : PageData) : Nat :=
  ((List.range (header page).slotCount).map fun i => reclaimable (slotAt page i)).sum % 2 ^ 16

def getTotalFreeSpaceAfterCompaction (page : PageData) : Except String Nat :=
  (getContiguousFreeSpace page).map fun free => (free + getReclaimableSpace page) % 2 ^ 16

def findReusableSlot (page : PageData) : Option Nat :=
  (List.range (header page).slotCount).find? fun i =>
    (slotAt page i).state = .empty || (slotAt page i).state = .deleted

def getMaxInsertableBytesAfterCompaction (page : PageData) : Except String Nat :=
  (getTotalFreeSpaceAfterCompaction page).map fun total =>
    let slotOverhead := if (findReusableSlot page).isSome then 0 else slotSize
    if total ≤ slotOverhead then 0 else total - slotOverhead

def required (len : Nat) (needsNewSlot : Bool) : Nat := len + if needsNewSlot then slotSize else 0

def hasSpaceFor (page : PageData) (len : Nat) (needsNewSlot : Bool) : Except String Bool :=
  (getContiguousFreeSpace page).map fun free => decide (required len needsNewSlot ≤ free)

/-- One round of the first loop of `CompactPage`: a record is kept aside, a dead slot loses its
bytes. -/
def collectSlot (page : PageData) (slotNo : Nat) : Except String (PageData × Option (Nat × Bytes)) :=
  let slot := slotAt page slotNo
  if slot.state = .occupied then
    if (header page).special < slot.offset + slot.length then
      .error "Corrupt slot during compaction"
    else .ok (page, some (slotNo, read page slot.offset slot.length))
  else
    .ok (setSlot page slotNo { slot with
      offset := 0
      length := 0
      state := if slot.state = .deleted then .deleted else .empty }, none)

def collect (page : PageData) : List Nat → Except String (PageData × List (Nat × Bytes))
  | [] => .ok (page, [])
  | slotNo :: rest =>
    match collectSlot page slotNo with
    | .error message => .error message
    | .ok (page, live) => (collect page rest).map fun r => (r.1, live.toList ++ r.2)

/-- The second loop: the records kept aside are laid down again from the end of the page. -/
def place (page : PageData) (newUpper : Nat) : List (Nat × Bytes) → PageData × Nat
  | [] => (page, newUpper)
  | (slotNo, bytes) :: rest =>
    let newUpper := (newUpper + 2 ^ 16 - bytes.length) % 2 ^ 16
    let page := write page newUpper bytes
    place (setSlot page slotNo { slotAt page slotNo with
      offset := newUpper, length := bytes.length, state := .occupied }) newUpper rest

def compactPage (page : PageData) : Except String PageData :=
  (collect page (List.range (header page).slotCount)).map fun collected =>
    let hdr := header collected.1
    let cleared := zeroFill collected.1 hdr.lower (hdr.special - hdr.lower)
    let placed := place cleared hdr.special collected.2
    setHeader placed.1 { header placed.1 with upper := placed.2 }

/-- The end of `InsertRecord`, once there is room. -/
def putRecord (page : PageData) (reusable : Option Nat) (data : Bytes) : PageData × Nat :=
  let hdr := header page
  let slotNo := reusable.getD hdr.slotCount
  let upper := (hdr.upper + 2 ^ 16 - data.length) % 2 ^ 16
  let page := setHeader page { hdr with
    slotCount := if reusable.isSome then hdr.slotCount else hdr.slotCount + 1
    lower := if reusable.isSome then hdr.lower else hdr.lower + slotSize
    upper := upper }
  let page := write page upper data
  (setSlot page slotNo ⟨upper, data.length, .occupied, 0⟩, slotNo)

/-- `InsertRecord`: the page, and the slot of the record unless there was no room. -/
def insertRecord (page : PageData) (data : Bytes) : Except String (PageData × Option Nat) :=
  if data.length = 0 then .ok (page, none)
  else do
    let reusable := findReusableSlot page
    if ← hasSpaceFor page data.length reusable.isNone then
      let (page, slotNo) := putRecord page reusable data
      .ok (page, some slotNo)
    else if (← getTotalFreeSpaceAfterCompaction page) < required data.length reusable.isNone then
      .ok (page, none)
    else
      let page ← compactPage page
      if ← hasSpaceFor page data.length reusable.isNone then
        let (page, slotNo) := putRecord page reusable data
        .ok (page, some slotNo)
      else .ok (page, none)

/-- `GetRecord` and `GetMutableRecord`: where the bytes of a record lie. -/
def getRecord (page : PageData) (slotNo : Nat) : Except String (Option SlotEntry) :=
  if slotNo < (header page).slotCount then
    let slot := slotAt page slotNo
    if slot.state = .occupied then
      if (header page).special < slot.offset + slot.length then .error "Corrupt slot entry"
      else .ok (some slot)
    else .ok none
  else .ok none

/-- `OverwriteRecord`; `none` where it returns false. -/
def overwriteRecord (page : PageData) (slotNo : Nat) (data : Bytes) : Option PageData :=
  let slot := slotAt page slotNo
  if slotNo < (header page).slotCount ∧ slot.state = .occupied ∧ data.length ≤ slot.length then
    some (zeroFill (write page slot.offset data) (slot.offset + data.length)
      (slot.length - data.length))
  else none

def deleteRecord (page : PageData) (slotNo : Nat) : Option PageData :=
  let slot := slotAt page slotNo
  if slotNo < (header page).slotCount ∧ slot.state = .occupied then
    some (setSlot page slotNo { slot with state := .deleted })
  else none

section Fields

@[simp] theorem length_headerBytes (h : Header) : h.bytes.length = 22 := by
  simp [Header.bytes]

@[simp] theorem length_slotBytes (slot : SlotEntry) : slot.bytes.length = slotSize := by
  simp [SlotEntry.bytes, slotSize]

variable {a slotNo : Nat} {cells : Bytes}

theorem fieldAt_write_apart (page : PageData) {b w : Nat} (apart : Apart a cells.length b w) :
    fieldAt (write page a cells) b w = fieldAt page b w := by
  rw [fieldAt, fieldAt, read_write_apart page apart]

theorem fieldAt_write (page : PageData) {k w n : Nat} (before after : Bytes)
    (split : cells = before ++ (leBytes w n ++ after)) (length : before.length = k)
    (small : n < 256 ^ w) : fieldAt (write page a cells) (a + k) w = n := by
  have inside : k + w ≤ cells.length := by
    rw [split, List.length_append, List.length_append, length_leBytes]
    omega
  rw [fieldAt, read_write_part page a inside, split, List.drop_left' length,
    List.take_left' (length_leBytes w n), leNat_leBytes, Nat.mod_eq_of_lt small]

structure SlotEntry.Fits (slot : SlotEntry) : Prop where
  offset : slot.offset < 2 ^ 16
  length : slot.length < 2 ^ 16
  state : slot.state.code < 2 ^ 16 ∧ SlotState.ofCode slot.state.code = slot.state
  reserved : slot.reserved < 2 ^ 16

structure Header.Fits (h : Header) : Prop where
  pageLsn : h.pageLsn < 2 ^ 64
  lower : h.lower < 2 ^ 16
  upper : h.upper < 2 ^ 16
  special : h.special < 2 ^ 16
  slotCount : h.slotCount < 2 ^ 16
  pageType : h.pageType.code < 2 ^ 16 ∧ PageType.ofCode h.pageType.code = h.pageType
  flags : h.flags < 2 ^ 16
  reserved : h.reserved < 2 ^ 16

theorem fieldAt_lt (page : PageData) (at_ w : Nat) : fieldAt page at_ w < 256 ^ w := by
  have bytes := Recovery.WalFormat.leBytes_leNat (read page at_ w)
  have same := leNat_leBytes w (leNat (read page at_ w))
  rw [length_read] at bytes
  rw [bytes] at same
  rw [fieldAt, same]
  exact Nat.mod_lt _ (Nat.pow_pos (by decide))

theorem slotState_code (code : Nat) : (SlotState.ofCode code).code = code := by
  unfold SlotState.ofCode
  split <;> rfl

theorem pageType_code (code : Nat) : (PageType.ofCode code).code = code := by
  unfold PageType.ofCode
  split <;> rfl

section

variable (page : PageData)

include page

theorem slotAt_fits (slotNo : Nat) : (slotAt page slotNo).Fits where
  offset := fieldAt_lt page _ 2
  length := fieldAt_lt page _ 2
  state := by
    have small := fieldAt_lt page (headerSize + slotSize * slotNo + 4) 2
    rw [slotAt, slotState_code]
    exact ⟨small, rfl⟩
  reserved := fieldAt_lt page _ 2

theorem header_fits : (header page).Fits where
  pageLsn := fieldAt_lt page _ 8
  lower := fieldAt_lt page _ 2
  upper := fieldAt_lt page _ 2
  special := fieldAt_lt page _ 2
  slotCount := fieldAt_lt page _ 2
  pageType := by
    have small := fieldAt_lt page 16 2
    rw [header, pageType_code]
    exact ⟨small, rfl⟩
  flags := fieldAt_lt page _ 2
  reserved := fieldAt_lt page _ 2

theorem slotAt_setSlot (slotNo : Nat) {slot : SlotEntry} (fits : slot.Fits) :
    slotAt (setSlot page slotNo slot) slotNo = slot := by
  obtain ⟨offset, length, ⟨code, state⟩, reserved⟩ := fits
  have field (k : Nat) (before after : Bytes) {n : Nat}
      (split : slot.bytes = before ++ (leBytes 2 n ++ after)) (at_ : before.length = k)
      (small : n < 2 ^ 16) :
      fieldAt (setSlot page slotNo slot) (headerSize + slotSize * slotNo + k) 2 = n :=
    fieldAt_write page before after split at_ small
  have first := field 0 [] (leBytes 2 slot.length ++ leBytes 2 slot.state.code ++
    leBytes 2 slot.reserved) (by simp [SlotEntry.bytes]) rfl offset
  have second := field 2 (leBytes 2 slot.offset) (leBytes 2 slot.state.code ++
    leBytes 2 slot.reserved) (by simp [SlotEntry.bytes]) (length_leBytes 2 _) length
  have third := field 4 (leBytes 2 slot.offset ++ leBytes 2 slot.length)
    (leBytes 2 slot.reserved) (by simp [SlotEntry.bytes]) (by simp) code
  have fourth := field 6 (leBytes 2 slot.offset ++ leBytes 2 slot.length ++
    leBytes 2 slot.state.code) [] (by simp [SlotEntry.bytes]) (by simp) reserved
  rw [Nat.add_zero] at first
  unfold slotAt
  rw [first, second, third, fourth, state]

theorem header_setHeader {h : Header} (fits : h.Fits) :
    header (setHeader page h) = h := by
  obtain ⟨pageLsn, lower, upper, special, slotCount, ⟨code, pageType⟩, flags, reserved⟩ := fits
  have field (k w : Nat) (before after : Bytes) {n : Nat}
      (split : h.bytes = before ++ (leBytes w n ++ after)) (at_ : before.length = k)
      (small : n < 256 ^ w) : fieldAt (setHeader page h) k w = n := by
    have there := fieldAt_write page (a := 0) before after split at_ small
    rw [Nat.zero_add] at there
    exact there
  have first := field 0 8 [] (leBytes 2 h.lower ++ leBytes 2 h.upper ++ leBytes 2 h.special ++
    leBytes 2 h.slotCount ++ leBytes 2 h.pageType.code ++ leBytes 2 h.flags ++
    leBytes 2 h.reserved) (by simp [Header.bytes]) rfl pageLsn
  have second := field 8 2 (leBytes 8 h.pageLsn) (leBytes 2 h.upper ++ leBytes 2 h.special ++
    leBytes 2 h.slotCount ++ leBytes 2 h.pageType.code ++ leBytes 2 h.flags ++
    leBytes 2 h.reserved) (by simp [Header.bytes]) (length_leBytes 8 _) lower
  have third := field 10 2 (leBytes 8 h.pageLsn ++ leBytes 2 h.lower) (leBytes 2 h.special ++
    leBytes 2 h.slotCount ++ leBytes 2 h.pageType.code ++ leBytes 2 h.flags ++
    leBytes 2 h.reserved) (by simp [Header.bytes]) (by simp) upper
  have fourth := field 12 2 (leBytes 8 h.pageLsn ++ leBytes 2 h.lower ++ leBytes 2 h.upper)
    (leBytes 2 h.slotCount ++ leBytes 2 h.pageType.code ++ leBytes 2 h.flags ++
    leBytes 2 h.reserved) (by simp [Header.bytes]) (by simp) special
  have fifth := field 14 2 (leBytes 8 h.pageLsn ++ leBytes 2 h.lower ++ leBytes 2 h.upper ++
    leBytes 2 h.special) (leBytes 2 h.pageType.code ++ leBytes 2 h.flags ++
    leBytes 2 h.reserved) (by simp [Header.bytes]) (by simp) slotCount
  have sixth := field 16 2 (leBytes 8 h.pageLsn ++ leBytes 2 h.lower ++ leBytes 2 h.upper ++
    leBytes 2 h.special ++ leBytes 2 h.slotCount) (leBytes 2 h.flags ++ leBytes 2 h.reserved)
    (by simp [Header.bytes]) (by simp) code
  have seventh := field 18 2 (leBytes 8 h.pageLsn ++ leBytes 2 h.lower ++ leBytes 2 h.upper ++
    leBytes 2 h.special ++ leBytes 2 h.slotCount ++ leBytes 2 h.pageType.code)
    (leBytes 2 h.reserved) (by simp [Header.bytes]) (by simp) flags
  have eighth := field 20 2 (leBytes 8 h.pageLsn ++ leBytes 2 h.lower ++ leBytes 2 h.upper ++
    leBytes 2 h.special ++ leBytes 2 h.slotCount ++ leBytes 2 h.pageType.code ++
    leBytes 2 h.flags) [] (by simp [Header.bytes]) (by simp) reserved
  unfold header
  rw [first, second, third, fourth, fifth, sixth, seventh, eighth, pageType]

theorem slotAt_setHeader (h : Header) (slotNo : Nat) :
    slotAt (setHeader page h) slotNo = slotAt page slotNo := by
  have field (k : Nat) : fieldAt (setHeader page h) (headerSize + slotSize * slotNo + k) 2 =
      fieldAt page (headerSize + slotSize * slotNo + k) 2 := by
    refine fieldAt_write_apart page (.inl ?_)
    rw [length_headerBytes, headerSize]
    omega
  have first := field 0
  rw [Nat.add_zero] at first
  unfold slotAt
  rw [first, field 2, field 4, field 6]

theorem header_setPageLsn (lsn : Nat) :
    header (setPageLsn page lsn) = { header page with pageLsn := lsn % 2 ^ 64 } := by
  have own : fieldAt (setPageLsn page lsn) 0 8 = lsn % 2 ^ 64 := by
    have there := read_write page 0 (leBytes 8 lsn)
    rw [length_leBytes] at there
    have width : 256 ^ 8 = 2 ^ 64 := rfl
    rw [fieldAt, setPageLsn, there, leNat_leBytes, width]
  have field {k : Nat} (behind : 8 ≤ k) :
      fieldAt (setPageLsn page lsn) k 2 = fieldAt page k 2 :=
    fieldAt_write_apart page (.inl (by rw [length_leBytes]; omega))
  unfold header
  rw [own, field (by omega), field (by omega), field (by omega), field (by omega),
    field (by omega), field (by omega), field (by omega)]

theorem slotAt_setPageLsn (lsn slotNo : Nat) :
    slotAt (setPageLsn page lsn) slotNo = slotAt page slotNo := by
  have field (k : Nat) : fieldAt (setPageLsn page lsn) (headerSize + slotSize * slotNo + k) 2 =
      fieldAt page (headerSize + slotSize * slotNo + k) 2 := by
    refine fieldAt_write_apart page (.inl ?_)
    rw [length_leBytes, headerSize]
    omega
  have first := field 0
  rw [Nat.add_zero] at first
  unfold slotAt
  rw [first, field 2, field 4, field 6]

theorem header_write (behind : headerSize ≤ a) :
    header (write page a cells) = header page := by
  have field {k w : Nat} (inside : k + w ≤ headerSize) :
      fieldAt (write page a cells) k w = fieldAt page k w :=
    fieldAt_write_apart page (.inr (by omega))
  unfold header
  rw [field (by decide), field (by decide), field (by decide), field (by decide),
    field (by decide), field (by decide), field (by decide), field (by decide)]

end

@[simp] theorem header_setSlot (page : PageData) (slotNo : Nat) (slot : SlotEntry) :
    header (setSlot page slotNo slot) = header page :=
  header_write page (Nat.le_add_right _ _)

def slotEnd (slotNo : Nat) : Nat := headerSize + slotSize * (slotNo + 1)

section

variable (page : PageData)

include page

theorem slotAt_write
    (apart : Apart a cells.length (headerSize + slotSize * slotNo) slotSize) :
    slotAt (write page a cells) slotNo = slotAt page slotNo := by
  have field {k : Nat} (inside : k + 2 ≤ slotSize) :
      fieldAt (write page a cells) (headerSize + slotSize * slotNo + k) 2 =
        fieldAt page (headerSize + slotSize * slotNo + k) 2 := by
    refine fieldAt_write_apart page ?_
    unfold Apart at apart ⊢
    omega
  have first := field (k := 0) (by decide)
  rw [Nat.add_zero] at first
  unfold slotAt
  rw [first, field (by decide), field (by decide), field (by decide)]

theorem slotAt_setSlot_other {other : Nat} (slot : SlotEntry)
    (apart : other ≠ slotNo) : slotAt (setSlot page slotNo slot) other = slotAt page other := by
  refine slotAt_write page ?_
  rw [length_slotBytes]
  unfold Apart slotSize
  omega

theorem read_setSlot (slot : SlotEntry) {at_ : Nat} (n : Nat)
    (behind : slotEnd slotNo ≤ at_) : read (setSlot page slotNo slot) at_ n = read page at_ n := by
  refine read_write_apart page (.inl ?_)
  rw [length_slotBytes]
  unfold slotEnd slotSize at behind
  unfold slotSize
  omega

theorem read_setHeader (h : Header) {at_ : Nat} (n : Nat)
    (behind : headerSize ≤ at_) : read (setHeader page h) at_ n = read page at_ n := by
  refine read_write_apart page (.inl ?_)
  rw [length_headerBytes]
  unfold headerSize at behind
  omega

end

end Fields

end GraniteDb.Storage.SlottedPage
