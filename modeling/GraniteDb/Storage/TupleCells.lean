/- Heap and indexes as one list of cells, and what a write does to it. -/

import GraniteDb.Storage.QuietWrites

namespace GraniteDb.Storage.TupleCells

open Common.Types Common.Value Access.HeapFile Lib.Ledger Storage.Table Storage.AllOrNothing
open Storage.WriteOutcomes Storage.HeapIndexAgreement Storage.QuietWrites
open Function (update_of_ne update_self update_comm comp_def update)
open List (mem_map map_append map_cons mem_cons nodup_cons)

section Listing

structure Lists (record : RID → Option HeapRecord) (l : List (RID × HeapRecord)) : Prop where
  nodup : (l.map Prod.fst).Nodup
  mem_iff : ∀ rid r, record rid = some r ↔ (rid, r) ∈ l

theorem lists_records (heap : HeapFile) : Lists heap.record heap.records :=
  ⟨heap.records_nodup, fun _ _ => HeapFile.mem_records.symm⟩

variable {record : RID → Option HeapRecord} {l after before : List (RID × HeapRecord)}

theorem Lists.perm {l' : List (RID × HeapRecord)} (left : Lists record l) (right : Lists record l') :
    l.Perm l' := by
  refine (List.perm_ext_iff_of_nodup left.nodup.of_map right.nodup.of_map).mpr ?_
  rintro ⟨rid, r⟩
  rw [← left.mem_iff, ← right.mem_iff]

theorem Lists.none_iff (lists : Lists record l) (rid : RID) :
    record rid = none ↔ rid ∉ l.map Prod.fst := by
  rw [Option.eq_none_iff_forall_not_mem]
  constructor
  · rintro dead member
    obtain ⟨⟨_, r⟩, listed, rfl⟩ := mem_map.mp member
    exact dead r ((lists.mem_iff _ r).mpr listed)
  · rintro unlisted r live
    exact unlisted (mem_map.mpr ⟨_, (lists.mem_iff rid r).mp live, rfl⟩)

theorem Lists.replace {rid newRid : RID} {old new : HeapRecord}
    (lists : Lists record (before ++ (rid, old) :: after))
    (free : newRid = rid ∨ record newRid = none) :
    Lists (update (update record rid none) newRid (some new))
      (before ++ (newRid, new) :: after) := by
  have nodup := lists.nodup
  simp only [map_append, map_cons] at nodup
  have rest := (List.nodup_middle.mp nodup)
  have elsewhere (r : HeapRecord) (rid' : RID) :
      (rid', r) ∈ before ++ after → rid' ≠ rid ∧ rid' ≠ newRid := by
    intro member
    have inRest : rid' ∈ (before ++ after).map Prod.fst :=
      mem_map.mpr ⟨_, member, rfl⟩
    have notOld : rid' ≠ rid := by
      rintro rfl
      rw [map_append] at inRest
      exact (nodup_cons.mp rest).1 inRest
    refine ⟨notOld, ?_⟩
    rintro rfl
    rcases free with same | free
    · exact notOld same
    · have live := (lists.mem_iff rid' r).mpr (by
        simp only [List.mem_append, mem_cons] at member ⊢
        tauto)
      rw [free] at live
      cases live
  constructor
  · simp only [map_append, map_cons]
    refine List.nodup_middle.mpr (nodup_cons.mpr ⟨?_, (nodup_cons.mp rest).2⟩)
    intro member
    rw [← map_append] at member
    obtain ⟨⟨_, r⟩, inRest, rfl⟩ := mem_map.mp member
    exact (elsewhere r _ inRest).2 rfl
  · intro rid' r
    have members : (rid', r) ∈ before ++ (newRid, new) :: after ↔
        (rid' = newRid ∧ r = new) ∨ (rid', r) ∈ before ++ after := by
      simp only [List.mem_append, mem_cons, Prod.mk.injEq]
      tauto
    have members' : (rid', r) ∈ before ++ (rid, old) :: after ↔
        (rid' = rid ∧ r = old) ∨ (rid', r) ∈ before ++ after := by
      simp only [List.mem_append, mem_cons, Prod.mk.injEq]
      tauto
    rw [members]
    by_cases atNew : rid' = newRid
    · subst atNew
      rw [update_self]
      constructor
      · intro same
        exact .inl ⟨rfl, (Option.some.inj same).symm⟩
      · rintro (⟨_, rfl⟩ | inRest)
        · rfl
        · exact absurd rfl (elsewhere r _ inRest).2
    · rw [update_of_ne atNew]
      by_cases atOld : rid' = rid
      · subst atOld
        rw [update_self]
        constructor
        · intro dead
          cases dead
        · rintro (⟨same, _⟩ | inRest)
          · exact absurd same atNew
          · exact absurd rfl (elsewhere r _ inRest).1
      · rw [update_of_ne atOld, lists.mem_iff, members']
        simp [atNew, atOld]

theorem Lists.remove {rid : RID} {old : HeapRecord}
    (lists : Lists record (before ++ (rid, old) :: after)) :
    Lists (update record rid none) (before ++ after) := by
  have nodup := lists.nodup
  simp only [map_append, map_cons] at nodup
  have rest := nodup_cons.mp (List.nodup_middle.mp nodup)
  rw [← map_append] at rest
  refine ⟨rest.2, fun rid' r => ?_⟩
  by_cases here : rid' = rid
  · subst here
    rw [update_self]
    constructor
    · intro dead
      cases dead
    · intro member
      exact absurd (mem_map.mpr ⟨_, member, rfl⟩) rest.1
  · rw [update_of_ne here, lists.mem_iff]
    simp [here]

end Listing

section Cells

variable (table : Table)

/-- The update of a stored tuple takes the fast path and stays in its slot. -/
def KeepsSlot (old : HeapRecord) (new : Row) : Prop :=
  table.anyIndexedKeyChanged old.row new = some false ∧ encodedSize new ≤ old.rawLen

instance (old : HeapRecord) (new : Row) : Decidable (KeepsSlot table old new) := by
  unfold KeepsSlot
  infer_instance

/-- What `UpdateTuple` asks of a new version; `others` are the tuples with entries besides it. -/
structure Admits (others : List Row) (old : HeapRecord) (new : Row) : Prop where
  valid : table.validateIndexKeyCompatibility new = none
  compared : (table.anyIndexedKeyChanged old.row new).isSome = true
  encoded : ∃ size, encode new table.schema = .ok size
  placed : KeepsSlot table old new ∨
    (encodedSize new ≤ maxRecordOnEmptyPage ∧ Accept new table.indexes ∧
      ∀ index ∈ table.indexes, index.isUnique = true → ∀ key, extractKey new index = some key →
        ∀ other ∈ others, extractKey other index ≠ some key)

def stored (old : HeapRecord) (new : Row) : HeapRecord :=
  ⟨decoded table.schema new, if KeepsSlot table old new then old.rawLen else encodedSize new⟩

/-- The record whose keys the indexes have after the update: the fast path leaves the old ones. -/
def indexed (old : HeapRecord) (new : Row) : HeapRecord :=
  if KeepsSlot table old new then old else stored table old new

structure Cell where
  rid : RID
  record : HeapRecord
  indexed : HeapRecord
  deriving DecidableEq

structure Describes (cells : List Cell) (s : Store) : Prop where
  heap : Lists s.heap.record (cells.map fun c => (c.rid, c.record))
  entries : ∃ keyed : HeapFile, Lists keyed.record (cells.map fun c => (c.rid, c.indexed)) ∧
    EntriesAgree table keyed s.entries
  fits : ∀ c ∈ cells, c.indexed.row.length = table.schema.length
  accept : ∀ c ∈ cells, Accept c.indexed.row table.indexes

variable {table} {env : Environment} {s s' : Store} {cells : List Cell}

section

variable (describes : Describes table cells s)

include describes

theorem Describes.unchanged (same : Unchanged s s') :
    Describes table cells s' where
  heap := by
    rw [same.heap]
    exact describes.heap
  entries := by
    rw [same.entries]
    exact describes.entries
  fits := describes.fits
  accept := describes.accept

theorem Describes.mem_entries {index : IndexCatalogEntry}
    (member : index ∈ table.indexes) (key : List Value) (rid : RID) :
    (key, rid) ∈ s.entries index.indexRelationId ↔
      ∃ c ∈ cells, c.rid = rid ∧ extractKey c.indexed.row index = some key := by
  obtain ⟨keyed, lists, agree⟩ := describes.entries
  rw [agree.mem_iff member]
  constructor
  · intro live
    obtain ⟨r, atRid, extracted⟩ := Option.bind_eq_some_iff.mp live
    obtain ⟨c, inCells, same⟩ := mem_map.mp ((lists.mem_iff rid r).mp atRid)
    cases same
    exact ⟨c, inCells, rfl, extracted⟩
  · rintro ⟨c, inCells, rfl, extracted⟩
    have atRid := (lists.mem_iff c.rid c.indexed).mpr (mem_map.mpr ⟨c, inCells, rfl⟩)
    simp [liveKey, atRid, extracted]

theorem Describes.present {c : Cell} (member : c ∈ cells) :
    Present table s c.indexed.row c.rid where
  length := describes.fits c member
  entries := fun _ registered key extracted =>
    (describes.mem_entries registered key c.rid).mpr ⟨c, member, rfl, extracted⟩
  accept := describes.accept c member

end

theorem Describes.unused {before after : List Cell} {c : Cell}
    (describes : Describes table (before ++ c :: after) s) {index : IndexCatalogEntry}
    (member : index ∈ table.indexes) (key : List Value) :
    (∀ rid, (key, rid) ∈ s.entries index.indexRelationId → some c.rid = some rid) ↔
      ∀ other ∈ (before ++ after).map fun c => c.indexed.row, extractKey other index ≠ some key := by
  constructor
  · rintro only _ inOthers extracted
    obtain ⟨d, inRest, rfl⟩ := mem_map.mp inOthers
    have inCells : d ∈ before ++ c :: after := by
      simp only [List.mem_append, mem_cons] at inRest ⊢
      tauto
    have same := Option.some.inj
      (only d.rid ((describes.mem_entries member key d.rid).mpr ⟨d, inCells, rfl, extracted⟩))
    have nodup := describes.heap.nodup
    simp only [map_append, map_cons, List.map_map] at nodup
    refine (nodup_cons.mp (List.nodup_middle.mp nodup)).1 ?_
    rw [← map_append]
    exact mem_map.mpr ⟨d, inRest, same.symm⟩
  · intro others rid present
    obtain ⟨d, inCells, rfl, extracted⟩ := (describes.mem_entries member key rid).mp present
    rcases List.mem_append.mp inCells with inBefore | inRest
    · exact absurd extracted (others _ (mem_map.mpr ⟨d, List.mem_append_left _ inBefore, rfl⟩))
    · rcases mem_cons.mp inRest with rfl | inAfter
      · rfl
      · exact absurd extracted
          (others _ (mem_map.mpr ⟨d, List.mem_append_right _ inAfter, rfl⟩))

end Cells

section Update

variable {env : Environment} {table : Table} {s s' : Store}

structure Rewrites (table : Table) (s : Store) (rid : RID) (old : HeapRecord) (new : Row)
    (newRid : RID) (s' : Store) : Prop where
  free : newRid = rid ∨ s.heap.record newRid = none
  record : s'.heap.record =
    update (update s.heap.record rid none) newRid (some (stored table old new))
  keeps : KeepsSlot table old new → newRid = rid ∧ s'.entries = s.entries
  moves : ¬KeepsSlot table old new → s.heap.record newRid = none ∧
    ∃ made gone : List IndexCatalogEntry, made.Perm table.indexes ∧ gone.Perm table.indexes ∧
      CanTake (putAll s.entries (entriesOf new newRid made)) (entriesOf old.row rid gone) ∧
      s'.entries = takeAll (putAll s.entries (entriesOf new newRid made))
        (entriesOf old.row rid gone)

variable {rid : RID} {new : Row} {old : HeapRecord}

private theorem update_twice {record : RID → Option HeapRecord} {r : HeapRecord} :
    update record rid (some r) =
      update (update record rid none) rid (some r) := by
  rw [Function.update_idem]

theorem updateTuple_rewrites {result : Option RID} (live : s.heap.record rid = some old)
    (others : List Row)
    (clear : ∀ index ∈ table.indexes, ∀ key, (∀ rid', (key, rid') ∈ s.entries index.indexRelationId
      → some rid = some rid') → ∀ other ∈ others, extractKey other index ≠ some key)
    (ran : table.updateTuple env rid new s = (.ok result, s')) (working : Working env) :
    Admits table others old new ∧
      ∃ newRid, result = some newRid ∧ Rewrites table s rid old new newRid s' := by
  rcases updateTuple_ok ran with ⟨_, missing, _⟩ |
    ⟨old', size, changed, live', fits, valid, encoded, comparing, path⟩
  · rw [live] at missing
    cases missing
  rw [live] at live'
  cases live'
  have compared : (table.anyIndexedKeyChanged old.row new).isSome = true := by
    rw [comparing]
    rfl
  obtain ⟨_, rfl⟩ := encode_valid encoded
  have noIndex : table.hasAnyRuntimeIndex = false → table.indexes = [] := by
    intro none_
    refine List.eq_nil_iff_forall_not_mem.mpr fun index member => ?_
    have some_ : table.hasAnyRuntimeIndex = true :=
      List.any_eq_true.mpr ⟨index, member, (validated valid index member).1⟩
    rw [some_] at none_
    cases none_
  rcases path with ⟨fast, ran⟩ | ⟨slow, ran⟩
  · have unchanged : table.anyIndexedKeyChanged old.row new = some false := by
      rcases fast with none_ | ⟨rfl, _⟩
      · simp [Table.anyIndexedKeyChanged, noIndex none_, anyKeyChanged]
      · exact comparing
    rcases heapUpdate_cases ran with ⟨failed, _⟩ |
      ⟨old', size', live', encoded', keeps, done, rfl⟩ |
      ⟨old', size', newRid, live', encoded', moves, large, free, done, rfl⟩
    · rcases failed with ⟨_, thrown⟩ | refused
      · cases thrown
      · rw [refused] at ran
        exact absurd ran (heapUpdate_working working live)
    · cases done
      rw [live] at live'
      cases live'
      rw [encoded] at encoded'
      cases encoded'
      have slot : KeepsSlot table old new := ⟨unchanged, keeps⟩
      refine ⟨⟨valid, compared, ⟨_, encoded⟩, .inl slot⟩, rid, rfl, .inl rfl, ?_, fun _ => ⟨rfl, rfl⟩,
        fun moved => absurd slot moved⟩
      rw [stored, if_pos slot, ← update_twice]
      rfl
    · cases done
      rw [live] at live'
      cases live'
      rw [encoded] at encoded'
      cases encoded'
      have slot : ¬KeepsSlot table old new := by
        rintro ⟨_, inSlot⟩
        omega
      have none_ : table.indexes = [] := by
        rcases fast with none_ | ⟨_, inSlot⟩
        · exact noIndex none_
        · omega
      have apart : newRid ≠ rid := by
        rintro rfl
        rw [live] at free
        cases free
      refine ⟨⟨valid, compared, ⟨_, encoded⟩, .inr ⟨large, ?_, ?_⟩⟩, newRid, rfl, .inr free, ?_,
        fun keeps => absurd keeps slot, fun _ => ⟨free, [], [], ?_⟩⟩
      · simp [Accept, none_]
      · simp [none_]
      · rw [stored, if_neg slot]
        exact (update_comm apart.symm _ _ _).symm
      · simp [none_, entriesOf, putAll, takeAll, CanTake, Store.tick]
  · obtain ⟨newRid, heap, entries, rfl, added, gone⟩ := replaceTuple_entered fits valid ran
    have slot : ¬KeepsSlot table old new := by
      rintro ⟨unchanged, inSlot⟩
      rw [comparing] at unchanged
      cases unchanged
      rcases slow.2 with moved | moved
      · cases moved
      · omega
    obtain ⟨size, encoded', small, rfl⟩ := added.stored
    rw [encoded] at encoded'
    cases encoded'
    have apart : newRid ≠ rid := by
      rintro rfl
      rw [added.free] at live
      cases live
    refine ⟨⟨valid, compared, ⟨_, encoded⟩, .inr ⟨small, added.accepted, ?_⟩⟩, newRid, rfl,
      .inr added.free, ?_, fun keeps => absurd keeps slot, fun _ => ⟨added.free, ?_⟩⟩
    · intro index member isUnique key extracted
      obtain ⟨key', extracted', only⟩ := added.unused index member isUnique
      rw [extracted] at extracted'
      cases extracted'
      exact clear index member key only
    · rw [gone.heap, stored, if_neg slot]
      exact (update_comm apart.symm _ _ _).symm
    · obtain ⟨made, perm, rfl⟩ := added.entered
      obtain ⟨order, perm', canTake, taken⟩ := gone.taken
      exact ⟨made, order, perm, perm', canTake, taken⟩

theorem updateTuple_working (working : Working env) {others : List Row}
    (live : s.heap.record rid = some old) (present : Present table s old.row rid)
    (admits : Admits table others old new)
    (clear : ∀ index ∈ table.indexes, ∀ key, (∀ other ∈ others, extractKey other index ≠ some key)
      → ∀ rid', (key, rid') ∈ s.entries index.indexRelationId → some rid = some rid') :
    ∃ newRid s', table.updateTuple env rid new s = (.ok newRid, s') := by
  have reading : s.heap.getTuple table.schema rid = .ok (some old.row) := by
    simp [HeapFile.getTuple, live, present.length]
  obtain ⟨changed, comparing⟩ := Option.isSome_iff_exists.mp admits.compared
  obtain ⟨size, encoded⟩ := admits.encoded
  obtain ⟨_, rfl⟩ := encode_valid encoded
  unfold Table.updateTuple canUpdateTupleInPlace
  simp only [reading, admits.valid, comparing, live, encoded]
  split
  · rename_i fast
    unfold heapUpdate
    rw [working.quiet, encoded, live]
    simp only
    split
    · exact ⟨_, _, rfl⟩
    · rename_i moves
      rcases admits.placed with ⟨_, inSlot⟩ | ⟨small, _⟩
      · exact absurd inSlot moves
      · rw [if_neg (by omega)]
        obtain ⟨newRid, picked⟩ := Option.isSome_iff_exists.mp
          (working.roomy s.clock s.heap (encodedSize new))
        rw [picked]
        exact ⟨_, _, rfl⟩
  · rename_i slow
    rcases admits.placed with ⟨unchanged, inSlot⟩ | ⟨small, accept, unused⟩
    · rw [comparing] at unchanged
      cases unchanged
      simp [inSlot] at slow
    · obtain ⟨newRid, s', ran⟩ := replaceTuple_working working live present admits.valid encoded
        small accept fun index member isUnique key extracted =>
          clear index member key (unused index member isUnique key extracted)
      exact ⟨_, s', ran⟩

theorem Describes.rewrite {before after : List Cell} {newRid : RID} {others : List Row}
    (describes : Describes table (before ++ ⟨rid, old, old⟩ :: after) s)
    (admits : Admits table others old new) (rewrites : Rewrites table s rid old new newRid s') :
    Describes table (before ++ ⟨newRid, stored table old new, indexed table old new⟩ :: after)
      s' := by
  have self : (⟨rid, old, old⟩ : Cell) ∈ before ++ ⟨rid, old, old⟩ :: after := by simp
  obtain ⟨size, encoded⟩ := admits.encoded
  have storable := storable_of_checks admits.valid encoded
  obtain ⟨accepted, rfl⟩ := encode_valid encoded
  have newFits : (decoded table.schema new).length = table.schema.length := by
    simpa using congrArg List.length storable.fits
  have newAccept (slot : ¬KeepsSlot table old new) :
      Accept (decoded table.schema new) table.indexes := by
    rcases admits.placed with keeps | ⟨_, accept, _⟩
    · exact absurd keeps slot
    · intro index member key extracted
      rw [storable.sameKey member] at extracted
      exact accept index member key extracted
  have others (c : Cell) (member : c ∈ before ++ after) :
      c ∈ before ++ ⟨rid, old, old⟩ :: after := by
    simp only [List.mem_append, mem_cons] at member ⊢
    tauto
  have split (c : Cell) (member : c ∈ before ++
      ⟨newRid, stored table old new, indexed table old new⟩ :: after) :
      c = ⟨newRid, stored table old new, indexed table old new⟩ ∨ c ∈ before ++ after := by
    simp only [List.mem_append, mem_cons] at member ⊢
    tauto
  refine ⟨?_, ?_, ?_, ?_⟩
  · have lists := describes.heap
    simp only [map_append, map_cons] at lists ⊢
    rw [rewrites.record]
    exact lists.replace rewrites.free
  · obtain ⟨keyed, lists, agree⟩ := describes.entries
    by_cases slot : KeepsSlot table old new
    · obtain ⟨rfl, same⟩ := rewrites.keeps slot
      refine ⟨keyed, ?_, same ▸ agree⟩
      simp only [map_append, map_cons, indexed, if_pos slot] at lists ⊢
      exact lists
    · obtain ⟨free, made, gone, perm, perm', canTake, taken⟩ := rewrites.moves slot
      have freeKeyed : keyed.record newRid = none := by
        rw [lists.none_iff, List.map_map]
        rw [describes.heap.none_iff, List.map_map] at free
        exact free
      have liveKeyed : keyed.record rid = some old :=
        (lists.mem_iff rid old).mpr (mem_map.mpr ⟨_, self, rfl⟩)
      have apart : rid ≠ newRid := by
        rintro rfl
        rw [liveKeyed] at freeKeyed
        cases freeKeyed
      have entered : EntriesAgree table
          (keyed.put newRid ⟨decoded table.schema new, encodedSize new⟩)
          (putAll s.entries (entriesOf new newRid made)) :=
        agree.insert storable freeKeyed perm
      have still : (keyed.put newRid ⟨decoded table.schema new, encodedSize new⟩).record rid =
          some old := by
        rw [HeapFile.put_record, update_of_ne apart]
        exact liveKeyed
      have cleared := entered.delete still (hasKeys_of_length (describes.fits _ self))
        perm' canTake
      refine ⟨_, ?_, taken ▸ cleared⟩
      simp only [map_append, map_cons, indexed, if_neg slot, stored] at lists ⊢
      rw [HeapFile.erase_record, HeapFile.put_record, ← update_comm apart]
      exact lists.replace (.inr freeKeyed)
  · intro c member
    rcases split c member with rfl | member
    · show (indexed table old new).row.length = table.schema.length
      unfold indexed
      split
      · exact describes.fits _ self
      · exact newFits
    · exact describes.fits c (others c member)
  · intro c member
    rcases split c member with rfl | member
    · show Accept (indexed table old new).row table.indexes
      unfold indexed
      split
      · exact describes.accept _ self
      · rename_i slot
        exact newAccept slot
    · exact describes.accept c (others c member)

theorem Describes.remove {before after : List Cell}
    (describes : Describes table (before ++ ⟨rid, old, old⟩ :: after) s)
    (cleared : Cleared table s.heap s.entries old.row rid s') :
    Describes table (before ++ after) s' := by
  have self : (⟨rid, old, old⟩ : Cell) ∈ before ++ ⟨rid, old, old⟩ :: after := by simp
  have others (c : Cell) (member : c ∈ before ++ after) :
      c ∈ before ++ ⟨rid, old, old⟩ :: after := by
    simp only [List.mem_append, mem_cons] at member ⊢
    tauto
  refine ⟨?_, ?_, fun c member => describes.fits c (others c member),
    fun c member => describes.accept c (others c member)⟩
  · have lists := describes.heap
    simp only [map_append, map_cons] at lists ⊢
    rw [cleared.heap, HeapFile.erase_record]
    exact lists.remove
  · obtain ⟨keyed, lists, agree⟩ := describes.entries
    obtain ⟨gone, perm, canTake, taken⟩ := cleared.taken
    have liveKeyed : keyed.record rid = some old :=
      (lists.mem_iff rid old).mpr (mem_map.mpr ⟨_, self, rfl⟩)
    have deleted := agree.delete liveKeyed (hasKeys_of_length (describes.fits _ self)) perm canTake
    refine ⟨_, ?_, taken ▸ deleted⟩
    simp only [map_append, map_cons] at lists ⊢
    rw [HeapFile.erase_record]
    exact lists.remove

def pending (e : RID × HeapRecord) : Cell := ⟨e.1, e.2, e.2⟩

theorem Describes.live {done : List Cell} {e : RID × HeapRecord} {after : List (RID × HeapRecord)}
    (describes : Describes table (done ++ (e :: after).map pending) s) :
    s.heap.record e.1 = some e.2 := by
  refine (describes.heap.mem_iff e.1 e.2).mpr (mem_map.mpr ⟨pending e, ?_, rfl⟩)
  simp

def KeysAccepted (table : Table) (s : Store) : Prop :=
  ∀ index ∈ table.indexes, ∀ e ∈ s.entries index.indexRelationId, index.encodeFailure e.1 = none

theorem Agrees.describes (agrees : Agrees table s) (accepted : KeysAccepted table s) :
    Describes table (s.heap.records.map pending) s := by
  have lists : Lists s.heap.record ((s.heap.records.map pending).map fun c => (c.rid, c.record)) :=
    by simpa [pending, comp_def] using lists_records s.heap
  have live (c : Cell) (member : c ∈ s.heap.records.map pending) :
      s.heap.record c.rid = some c.indexed := by
    obtain ⟨e, inRecords, rfl⟩ := mem_map.mp member
    exact HeapFile.mem_records.mp inRecords
  refine ⟨lists, ⟨s.heap, ?_, agrees.entries⟩, ?_, ?_⟩
  · simpa [pending, comp_def] using lists_records s.heap
  · intro c member
    simpa using congrArg List.length (agrees.fits c.rid c.indexed (live c member))
  · intro c member index registered key extracted
    refine accepted index registered (key, c.rid) ?_
    rw [agrees.entries.mem_iff registered]
    simp [liveKey, live c member, extracted]

end Update

end GraniteDb.Storage.TupleCells
