/- The bitmap executors pass RIDs as tuples and keep them as packed integers. -/

import GraniteDb.Execution.BitmapScan
import Mathlib.Data.List.Dedup

namespace GraniteDb.Execution.RidTuples

open Common.Types Common.Value Access.IndexScan Catalog.CatalogManager Execution.Operators
open Execution.BitmapScan Lib.Pull
open Option (bind_some map_some)
open List (map_cons mem_cons_self mem_cons_of_mem mem_dedup nodup_dedup mem_map mem_singleton
  mapM_cons contains_iff_mem)

section Packing

def encodeRid (rid : RID) : BitVec 64 :=
  BitVec.ofNat 64 rid.pageNo <<< 32 ||| BitVec.ofNat 64 rid.slotNo

/-- The RID that `BitmapAndExecutor` unpacks. -/
def unpackRid (encoded : BitVec 64) : RID :=
  ⟨((encoded >>> 32).setWidth 32).toNat, ((encoded &&& 0xFFFF#64).setWidth 16).toNat⟩

def makeRidTuple (rid : RID) : Row :=
  [.int32 (BitVec.ofNat 32 rid.pageNo), .int32 (BitVec.ofNat 32 rid.slotNo)]

/-- `DecodeRidTuple`; `none` is an exception. -/
def decodeRidTuple : Row → Option RID
  | .int32 page :: .int32 slot :: _ => some ⟨page.toNat, (slot.setWidth 16).toNat⟩
  | _ => none

/-- The numbers of the RID have the widths of `PageNo` and `SlotNo`. -/
def InRange (rid : RID) : Prop := rid.pageNo < 2 ^ 32 ∧ rid.slotNo < 2 ^ 16

instance (rid : RID) : Decidable (InRange rid) := inferInstanceAs (Decidable (_ ∧ _))

variable {rid rid' : RID}

section

variable (inRange : InRange rid)

include inRange

theorem decode_makeRidTuple :
    decodeRidTuple (makeRidTuple rid) = some rid := by
  obtain ⟨page, slot⟩ := inRange
  have samePage : (BitVec.ofNat 32 rid.pageNo).toNat = rid.pageNo := by
    rw [BitVec.toNat_ofNat]
    omega
  have sameSlot : ((BitVec.ofNat 32 rid.slotNo).setWidth 16).toNat = rid.slotNo := by
    rw [BitVec.toNat_setWidth, BitVec.toNat_ofNat]
    omega
  rw [makeRidTuple, decodeRidTuple, samePage, sameSlot]

theorem toNat_encodeRid :
    (encodeRid rid).toNat = rid.pageNo * 2 ^ 32 + rid.slotNo := by
  obtain ⟨page, slot⟩ := inRange
  have shifted : rid.pageNo <<< 32 % 2 ^ 64 = rid.pageNo <<< 32 := by
    rw [Nat.shiftLeft_eq]
    omega
  rw [encodeRid, BitVec.toNat_or, BitVec.toNat_shiftLeft, BitVec.toNat_ofNat, BitVec.toNat_ofNat,
    Nat.mod_eq_of_lt (by omega : rid.pageNo < 2 ^ 64),
    Nat.mod_eq_of_lt (by omega : rid.slotNo < 2 ^ 64), shifted,
    ← Nat.shiftLeft_add_eq_or_of_lt (by omega : rid.slotNo < 2 ^ 32), Nat.shiftLeft_eq]

theorem unpack_encodeRid : unpackRid (encodeRid rid) = rid := by
  have packed := toNat_encodeRid inRange
  obtain ⟨page, slot⟩ := inRange
  have samePage : ((encodeRid rid >>> 32).setWidth 32).toNat = rid.pageNo := by
    rw [BitVec.toNat_setWidth, BitVec.toNat_ushiftRight, packed, Nat.shiftRight_eq_div_pow]
    omega
  have sameSlot : ((encodeRid rid &&& 0xFFFF#64).setWidth 16).toNat = rid.slotNo := by
    have mask : (0xFFFF#64).toNat = 2 ^ 16 - 1 := by decide
    rw [BitVec.toNat_setWidth, BitVec.toNat_and, packed, mask, Nat.and_two_pow_sub_one_eq_mod]
    omega
  rw [unpackRid, samePage, sameSlot]

theorem encodeRid_inj (inRange' : InRange rid') :
    encodeRid rid = encodeRid rid' ↔ rid = rid' := by
  constructor
  · intro same
    rw [← unpack_encodeRid inRange, ← unpack_encodeRid inRange', same]
  · rintro rfl
    rfl

end

end Packing

/-- What an executor of RIDs yields, or that its `Init` throws. -/
abbrev RidStream := Option (List Row)

def bitmapIndexScanTuples (index : BTreeIndex) (bounds : KeyBounds) : RidStream :=
  (bitmapIndexScan index bounds).map (·.map makeRidTuple)

def encodeTuples (tuples : List Row) : Option (List (BitVec 64)) :=
  tuples.mapM fun tuple => (decodeRidTuple tuple).map encodeRid

/-- The loop of `BitmapAndExecutor::Init` over the further children. A set is a list without
repetitions; its order is lost when the hits are sorted. -/
def intersectEncoded : List (BitVec 64) → List RidStream → Option (List (BitVec 64))
  | current, [] => some current
  | [], _ => some []
  | current, child :: rest => do
    let encoded ← child.bind encodeTuples
    intersectEncoded (encoded.filter current.contains).dedup rest

def bitmapAndTuples : List RidStream → RidStream
  | [] => some []
  | first :: rest => do
    let encoded ← first.bind encodeTuples
    let current ← intersectEncoded encoded.dedup rest
    some (((current.map unpackRid).mergeSort compareRids).map makeRidTuple)

def addUnseen (found : List (BitVec 64) × List RID) (rid : RID) : List (BitVec 64) × List RID :=
  if encodeRid rid ∈ found.1 then found else (encodeRid rid :: found.1, found.2 ++ [rid])

/-- The loop of `BitmapOrExecutor::Init`, on what has been seen and the hits. -/
def uniteEncoded : List (BitVec 64) × List RID → List RidStream → Option (List RID)
  | found, [] => some found.2
  | found, child :: rest => do
    let rids ← child.bind (List.mapM decodeRidTuple)
    uniteEncoded (rids.foldl addUnseen found) rest

def bitmapOrTuples (children : List RidStream) : RidStream :=
  (uniteEncoded ([], []) children).map fun hits => (hits.mergeSort compareRids).map makeRidTuple

/-- `BitmapHeapScanExecutor::Next` over the tuples of its child. -/
def fetchTuples (heap : HeapFile) : List Row → Pull Row
  | [] => .done
  | tuple :: rest =>
    match decodeRidTuple tuple with
    | none => .thrown
    | some rid => fetch heap rid (fetchTuples heap rest)

def bitmapHeapScan (heap : HeapFile) : RidStream → Pull Row
  | none => .thrown
  | some tuples => fetchTuples heap tuples

section Refinement

def streamOf (rids : Option (List RID)) : RidStream := rids.map (·.map makeRidTuple)

def AllInRange (rids : Option (List RID)) : Prop := ∀ l ∈ rids, ∀ rid ∈ l, InRange rid

variable {rids : List RID}

theorem decodeTuples (inRange : ∀ rid ∈ rids, InRange rid) :
    (rids.map makeRidTuple).mapM decodeRidTuple = some rids := by
  induction rids with
  | nil => rfl
  | cons rid rest ih =>
    have later := ih fun rid' member => inRange rid' (mem_cons_of_mem _ member)
    rw [map_cons, mapM_cons, decode_makeRidTuple (inRange rid mem_cons_self), later]
    rfl

theorem encodeTuples_eq (inRange : ∀ rid ∈ rids, InRange rid) :
    encodeTuples (rids.map makeRidTuple) = some (rids.map encodeRid) := by
  induction rids with
  | nil => rfl
  | cons rid rest ih =>
    have later := ih fun rid' member => inRange rid' (mem_cons_of_mem _ member)
    rw [encodeTuples] at later ⊢
    rw [map_cons, mapM_cons, decode_makeRidTuple (inRange rid mem_cons_self), later]
    rfl

theorem compareRids_iff {a b : RID} :
    compareRids a b = true ↔ a.pageNo < b.pageNo ∨ (a.pageNo = b.pageNo ∧ a.slotNo ≤ b.slotNo) := by
  simp [compareRids]

theorem sorted_mergeSort (l : List RID) :
    (l.mergeSort compareRids).Pairwise fun a b => compareRids a b = true := by
  apply List.pairwise_mergeSort
  · intro a b c first second
    rw [compareRids_iff] at *
    omega
  · intro a b
    rw [Bool.or_eq_true, compareRids_iff, compareRids_iff]
    omega

theorem mergeSort_eq_of_perm {l l' : List RID} (perm : l.Perm l') :
    l.mergeSort compareRids = l'.mergeSort compareRids := by
  have perms : (l.mergeSort compareRids).Perm (l'.mergeSort compareRids) :=
    (List.mergeSort_perm l _).trans (perm.trans (List.mergeSort_perm l' _).symm)
  refine perms.eq_of_pairwise (fun a b _ _ first second => ?_) (sorted_mergeSort l)
    (sorted_mergeSort l')
  rw [compareRids_iff] at first second
  obtain ⟨page, slot⟩ := a
  obtain ⟨page', slot'⟩ := b
  have same : page = page' ∧ slot = slot' := by
    simp only at first second
    omega
  rw [same.1, same.2]

structure Packs (encoded : List (BitVec 64)) (rids : List RID) : Prop where
  nodup : encoded.Nodup
  inRange : ∀ rid ∈ rids, InRange rid
  mem : ∀ e, e ∈ encoded ↔ ∃ rid ∈ rids, encodeRid rid = e

theorem Packs.of_list (inRange : ∀ rid ∈ rids, InRange rid) :
    Packs (rids.map encodeRid).dedup rids where
  nodup := nodup_dedup _
  inRange := inRange
  mem e := by rw [mem_dedup, mem_map]

variable {encoded : List (BitVec 64)} {children : List (Option (List RID))}
  {found : List (BitVec 64) × List RID}

theorem Packs.mem_encode (packs : Packs encoded rids) {rid : RID} (inRange : InRange rid) :
    encodeRid rid ∈ encoded ↔ rid ∈ rids := by
  rw [packs.mem]
  constructor
  · rintro ⟨rid', member, same⟩
    rw [← (encodeRid_inj (packs.inRange rid' member) inRange).mp same]
    exact member
  · exact fun member => ⟨rid, member, rfl⟩

theorem Packs.nil_iff (packs : Packs encoded rids) : encoded = [] ↔ rids = [] := by
  rw [List.eq_nil_iff_forall_not_mem, List.eq_nil_iff_forall_not_mem]
  constructor
  · exact fun none_ rid member => none_ _ ((packs.mem_encode (packs.inRange rid member)).mpr member)
  · intro none_ e member
    obtain ⟨rid, inRids, -⟩ := (packs.mem e).mp member
    exact none_ rid inRids

theorem Packs.intersect {current : List RID} (packs : Packs encoded current)
    (inRange : ∀ rid ∈ rids, InRange rid) :
    Packs ((rids.map encodeRid).filter encoded.contains).dedup (rids.filter current.contains) where
  nodup := nodup_dedup _
  inRange rid member := inRange rid (List.mem_filter.mp member).1
  mem e := by
    rw [mem_dedup, List.mem_filter, mem_map]
    constructor
    · rintro ⟨⟨rid, member, rfl⟩, contained⟩
      have inCurrent := (packs.mem_encode (inRange rid member)).mp (contains_iff_mem.mp contained)
      exact ⟨rid, List.mem_filter.mpr ⟨member, contains_iff_mem.mpr inCurrent⟩, rfl⟩
    · rintro ⟨rid, member, rfl⟩
      obtain ⟨inRids, contained⟩ := List.mem_filter.mp member
      refine ⟨⟨rid, inRids, rfl⟩, ?_⟩
      exact contains_iff_mem.mpr
        ((packs.mem_encode (inRange rid inRids)).mpr (contains_iff_mem.mp contained))

theorem Packs.unpacked (packs : Packs encoded rids) : (encoded.map unpackRid).Perm rids.dedup := by
  have back {e : BitVec 64} (member : e ∈ encoded) : ∃ rid ∈ rids, encodeRid rid = e ∧
      unpackRid e = rid := by
    obtain ⟨rid, inRids, rfl⟩ := (packs.mem e).mp member
    exact ⟨rid, inRids, rfl, unpack_encodeRid (packs.inRange rid inRids)⟩
  have nodup : (encoded.map unpackRid).Nodup := by
    refine List.Nodup.map_on (fun e member e' member' same => ?_) packs.nodup
    obtain ⟨rid, -, rfl, unpacked⟩ := back member
    obtain ⟨rid', -, rfl, unpacked'⟩ := back member'
    rw [← unpacked, ← unpacked', same]
  rw [List.perm_ext_iff_of_nodup nodup (nodup_dedup _)]
  intro rid
  rw [mem_map, mem_dedup]
  constructor
  · rintro ⟨e, member, rfl⟩
    obtain ⟨rid', inRids, -, same⟩ := back member
    rw [same]
    exact inRids
  · intro member
    have inRange := packs.inRange rid member
    exact ⟨encodeRid rid, (packs.mem_encode inRange).mpr member, unpack_encodeRid inRange⟩

theorem bind_streamOf {β : Type} (child : Option (List RID)) (f : List Row → Option β) :
    (streamOf child).bind f = child.bind fun rids => f (rids.map makeRidTuple) := by
  cases child <;> rfl

theorem intersectEncoded_eq {current : List RID} (packs : Packs encoded current)
    (inRange : ∀ child ∈ children, AllInRange child) :
    match intersectRids current children with
    | none => intersectEncoded encoded (children.map streamOf) = none
    | some both => ∃ left, intersectEncoded encoded (children.map streamOf) = some left ∧
        Packs left both := by
  induction children generalizing encoded current with
  | nil => exact ⟨encoded, by cases encoded <;> rfl, by cases current <;> exact packs⟩
  | cons child rest ih =>
    cases current with
    | nil =>
      have empty := packs.nil_iff.mpr rfl
      subst empty
      exact ⟨[], rfl, packs⟩
    | cons rid more =>
      obtain ⟨e, es, rfl⟩ : ∃ e es, encoded = e :: es := by
        cases encoded with
        | nil => exact absurd (packs.nil_iff.mp rfl) (List.cons_ne_nil rid more)
        | cons e es => exact ⟨e, es, rfl⟩
      cases child with
      | none => rfl
      | some rids =>
        have ranged := inRange (some rids) mem_cons_self rids rfl
        have later := ih (packs.intersect ranged) fun child member =>
          inRange child (mem_cons_of_mem _ member)
        rw [map_cons, intersectEncoded, bind_streamOf, bind_some,
          encodeTuples_eq ranged]
        · exact later
        · exact List.cons_ne_nil e es

theorem bitmapAndTuples_eq (inRange : ∀ child ∈ children, AllInRange child) :
    bitmapAndTuples (children.map streamOf) = streamOf (bitmapAnd children) := by
  cases children with
  | nil => rfl
  | cons first rest =>
    cases first with
    | none => rfl
    | some rids =>
      have ranged := inRange (some rids) mem_cons_self rids rfl
      have loop := intersectEncoded_eq (Packs.of_list ranged) fun child member =>
        inRange child (mem_cons_of_mem _ member)
      rw [map_cons, bitmapAndTuples, bind_streamOf, bind_some,
        encodeTuples_eq ranged]
      simp only [Option.bind_eq_bind, bind_some, bitmapAnd]
      split at loop
      · rename_i failed
        rw [loop, failed]
        rfl
      · rename_i both found
        obtain ⟨left, ran, packs⟩ := loop
        rw [ran, found]
        simp only [bind_some, streamOf, map_some, Option.some.injEq]
        rw [mergeSort_eq_of_perm packs.unpacked, sortedRids]

/-- The hits of `BitmapOrExecutor` are the RIDs seen. -/
structure Seen (found : List (BitVec 64) × List RID) (rids : List RID) : Prop where
  packs : ∀ rid ∈ found.2, InRange rid
  nodup : found.2.Nodup
  encoded : ∀ rid, InRange rid → (encodeRid rid ∈ found.1 ↔ rid ∈ found.2)
  mem : ∀ rid, rid ∈ found.2 ↔ rid ∈ rids

theorem Seen.add {rid : RID} (seen : Seen found rids) (inRange : InRange rid) :
    Seen (addUnseen found rid) (rids ++ [rid]) := by
  rw [addUnseen]
  split
  · rename_i already
    have member := (seen.encoded rid inRange).mp already
    refine ⟨seen.packs, seen.nodup, seen.encoded, fun rid' => ?_⟩
    rw [List.mem_append, mem_singleton, ← seen.mem]
    constructor
    · exact .inl
    · rintro (before | rfl)
      · exact before
      · exact member
  · rename_i unseen
    have fresh : rid ∉ found.2 := fun member => unseen ((seen.encoded rid inRange).mpr member)
    refine ⟨?_, ?_, ?_, ?_⟩
    · intro rid' member
      rcases List.mem_append.mp member with before | last
      · exact seen.packs rid' before
      · rw [mem_singleton.mp last]
        exact inRange
    · rw [List.nodup_append]
      refine ⟨seen.nodup, List.nodup_singleton rid, ?_⟩
      rintro a inFound b isRid rfl
      rw [mem_singleton.mp isRid] at inFound
      exact fresh inFound
    · intro rid' inRange'
      rw [List.mem_cons, List.mem_append, mem_singleton, seen.encoded rid' inRange',
        encodeRid_inj inRange' inRange]
      exact or_comm
    · intro rid'
      rw [List.mem_append, List.mem_append, seen.mem]

theorem Seen.addAll {before : List RID} (seen : Seen found before)
    (inRange : ∀ rid ∈ rids, InRange rid) :
    Seen (rids.foldl addUnseen found) (before ++ rids) := by
  induction rids generalizing found before with
  | nil => rwa [List.append_nil]
  | cons rid rest ih =>
    have next := ih (seen.add (inRange rid mem_cons_self)) fun rid' member =>
      inRange rid' (mem_cons_of_mem _ member)
    rwa [List.append_assoc] at next

theorem uniteEncoded_eq {before : List RID} (seen : Seen found before)
    (inRange : ∀ child ∈ children, AllInRange child) :
    match children.mapM id with
    | none => uniteEncoded found (children.map streamOf) = none
    | some lists => ∃ hits, uniteEncoded found (children.map streamOf) = some hits ∧
        hits.Perm (before ++ lists.flatten).dedup := by
  induction children generalizing found before with
  | nil =>
    refine ⟨found.2, rfl, ?_⟩
    show found.2.Perm (before ++ []).dedup
    rw [List.append_nil, List.perm_ext_iff_of_nodup seen.nodup (nodup_dedup _)]
    intro rid
    rw [mem_dedup, seen.mem]
  | cons child rest ih =>
    cases child with
    | none => rfl
    | some rids =>
      have ranged := inRange (some rids) mem_cons_self rids rfl
      have later := ih (seen.addAll ranged) fun child member =>
        inRange child (mem_cons_of_mem _ member)
      rw [map_cons, uniteEncoded, bind_streamOf, bind_some, decodeTuples ranged,
        mapM_cons]
      simp only [id_eq, Option.bind_eq_bind, bind_some, Option.pure_def]
      cases ran : rest.mapM id with
      | none =>
        rw [ran] at later
        exact later
      | some lists =>
        rw [ran] at later
        obtain ⟨hits, united, perm⟩ := later
        refine ⟨hits, united, ?_⟩
        rw [List.flatten_cons, ← List.append_assoc]
        exact perm

theorem bitmapOrTuples_eq (inRange : ∀ child ∈ children, AllInRange child) :
    bitmapOrTuples (children.map streamOf) = streamOf (bitmapOr children) := by
  have start : Seen ([], []) [] :=
    ⟨fun _ member => (List.not_mem_nil member).elim, List.nodup_nil,
      fun _ _ => by simp, fun _ => Iff.rfl⟩
  have loop := uniteEncoded_eq start inRange
  rw [bitmapOrTuples, bitmapOr]
  split at loop
  · rename_i failed
    rw [loop, failed]
    rfl
  · rename_i lists found
    obtain ⟨hits, ran, perm⟩ := loop
    rw [ran, found]
    simp only [map_some, streamOf, Option.some.injEq]
    rw [mergeSort_eq_of_perm perm, List.nil_append, sortedRids]

theorem fetchTuples_eq {heap : HeapFile} (inRange : ∀ rid ∈ rids, InRange rid) :
    fetchTuples heap (rids.map makeRidTuple) = .ofList (rids.filterMap (getTuple heap)) := by
  induction rids with
  | nil => rfl
  | cons rid rest ih =>
    have later := ih fun rid' member => inRange rid' (mem_cons_of_mem _ member)
    rw [map_cons, fetchTuples, decode_makeRidTuple (inRange rid mem_cons_self)]
    simp only [fetch, later]
    cases found : getTuple heap rid with
    | none => rw [List.filterMap_cons_none found]
    | some row =>
      rw [List.filterMap_cons_some found]
      rfl

theorem bitmapHeapScan_eq {heap : HeapFile} {found : Option (List RID)}
    (inRange : AllInRange found) : bitmapHeapScan heap (streamOf found) = heapRows heap found := by
  cases found with
  | none => rfl
  | some rids => exact fetchTuples_eq (inRange rids rfl)

end Refinement

end GraniteDb.Execution.RidTuples
