/- UPDATE undoes nothing when a later tuple is refused; DELETE is atomic. -/

import GraniteDb.Sql.RowWrites
import GraniteDb.Storage.TupleCells

namespace GraniteDb.Sql.StatementAtomicity

open Common.Types Common.Value Execution.Expressions Access.HeapFile Storage.Table
open Storage.AllOrNothing Storage.HeapIndexAgreement Storage.QuietWrites Storage.TupleCells
open Sql.RowWrites
open Option (pure_def bind_eq_bind bind_eq_some_iff)
open List (map_cons mem_map mem_append_left map_nil mem_singleton map_append)

section Loop

variable (table : Table) (stmt : BoundUpdateStatement)

def IsMatch (predicate : Option Expression) (row : Row) : Prop :=
  matchesPredicate predicate row = some true

instance (predicate : Option Expression) (row : Row) : Decidable (IsMatch predicate row) := by
  unfold IsMatch
  infer_instance

/-- The row whose keys the indexes have once the loop has passed a tuple. -/
def settled (r : HeapRecord) : Row :=
  if IsMatch stmt.predicate r.row then (indexed table r (applyAssignments stmt.assignments r.row)).row
  else r.row

/-- The new version of a tuple is refused, once the loop has passed the tuples before it. -/
def Refused (before : List HeapRecord) (r : HeapRecord) (after : List HeapRecord) : Prop :=
  IsMatch stmt.predicate r.row ∧
    ¬Admits table (before.map (settled table stmt) ++ after.map HeapRecord.row) r
    (applyAssignments stmt.assignments r.row)

def Changes (r : HeapRecord) : Prop :=
  IsMatch stmt.predicate r.row ∧ ¬(KeepsSlot table r (applyAssignments stmt.assignments r.row) ∧
    decoded table.schema (applyAssignments stmt.assignments r.row) = r.row)

/-- The first tuple whose new version is refused comes after one that changes. -/
def RefusesLate (records : List HeapRecord) : Prop :=
  ∃ before r after, records = before ++ r :: after ∧ Refused table stmt before r after ∧
    (∀ b r' a, before = b ++ r' :: a → ¬Refused table stmt b r' (a ++ r :: after)) ∧
    ∃ earlier ∈ before, Changes table stmt earlier

def Written (e : RID × HeapRecord) (c : Cell) : Prop :=
  if IsMatch stmt.predicate e.2.row then
    c.record = stored table e.2 (applyAssignments stmt.assignments e.2.row) ∧
      c.indexed = indexed table e.2 (applyAssignments stmt.assignments e.2.row)
  else c = pending e

variable {table stmt} {env : Environment} {s m m' : Store} {before after : List (RID × HeapRecord)}

variable {e : RID × HeapRecord}

theorem Written.settled {c : Cell} (written : Written table stmt e c) :
    c.indexed.row = settled table stmt e.2 := by
  unfold Written at written
  unfold StatementAtomicity.settled
  split at written
  · rename_i isMatch
    rw [if_pos isMatch, written.2]
  · rename_i noMatch
    rw [if_neg noMatch, written]
    rfl

theorem settled_of_written {done : List Cell}
    (written : List.Forall₂ (Written table stmt) before done) :
    (done.map fun c => c.indexed.row) = (before.map Prod.snd).map (settled table stmt) := by
  induction written with
  | nil => rfl
  | cons head _ ih =>
    simp only [map_cons, List.cons.injEq]
    exact ⟨head.settled, ih⟩

variable (table stmt) in
/-- Where the loop stands: it has passed the tuples before, starting from the state `s`. -/
structure Progress (s m : Store) (before after : List (RID × HeapRecord)) : Prop where
  cells : ∃ done, List.Forall₂ (Written table stmt) before done ∧
    Describes table (done ++ after.map pending) m ∧
    ((∃ e ∈ before, Changes table stmt e.2) → ∃ c ∈ done, s.heap.record c.rid ≠ some c.record)
  unchanged : (∀ e ∈ before, ¬Changes table stmt e.2) → Unchanged s m

theorem Progress.stays (progress : Progress table stmt s m before after) (same : Unchanged m m') :
    Progress table stmt s m' before after where
  cells := by
    obtain ⟨done, written, describes, changed⟩ := progress.cells
    exact ⟨done, written, describes.unchanged same, changed⟩
  unchanged := fun idle =>
    have base := progress.unchanged idle
    ⟨same.heap.trans base.heap, same.entries.trans base.entries⟩

theorem Progress.pass (progress : Progress table stmt s m before (e :: after))
    (noMatch : ¬IsMatch stmt.predicate e.2.row) :
    Progress table stmt s m (before ++ [e]) after where
  cells := by
    obtain ⟨done, written, describes, changed⟩ := progress.cells
    refine ⟨done ++ [pending e], List.rel_append written (.cons ?_ .nil), ?_, ?_⟩
    · unfold Written
      rw [if_neg noMatch]
    · simpa using describes
    · rintro ⟨e', member, changes⟩
      rcases List.mem_append.mp member with earlier | here
      · obtain ⟨c, inDone, differs⟩ := changed ⟨e', earlier, changes⟩
        exact ⟨c, mem_append_left _ inDone, differs⟩
      · rw [mem_singleton.mp here] at changes
        exact absurd changes.1 noMatch
  unchanged := fun idle => progress.unchanged fun e' member =>
    idle e' (mem_append_left _ member)

theorem Progress.rewrite {newRid : RID} {others : List Row}
    (progress : Progress table stmt s m before (e :: after))
    (isMatch : IsMatch stmt.predicate e.2.row)
    (admits : Admits table others e.2 (applyAssignments stmt.assignments e.2.row))
    (rewrites : Rewrites table m e.1 e.2 (applyAssignments stmt.assignments e.2.row) newRid m') :
    Progress table stmt s m' (before ++ [e]) after := by
  obtain ⟨done, written, describes, changed⟩ := progress.cells
  have live := describes.live
  refine ⟨⟨done ++ [⟨newRid, stored table e.2 (applyAssignments stmt.assignments e.2.row),
    indexed table e.2 (applyAssignments stmt.assignments e.2.row)⟩],
    List.rel_append written (.cons ?_ .nil), ?_, ?_⟩, ?_⟩
  · unfold Written
    rw [if_pos isMatch]
    exact ⟨rfl, rfl⟩
  · have rewritten := Describes.rewrite (describes : Describes table
      (done ++ ⟨e.1, e.2, e.2⟩ :: after.map pending) m) admits rewrites
    simpa using rewritten
  · rintro ⟨e', member, changes⟩
    by_cases earlier : ∃ e' ∈ before, Changes table stmt e'.2
    · obtain ⟨c, inDone, differs⟩ := changed earlier
      exact ⟨c, mem_append_left _ inDone, differs⟩
    · -- the first change is this one
      have idle : ∀ e' ∈ before, ¬Changes table stmt e'.2 := fun e' member changes =>
        earlier ⟨e', member, changes⟩
      have here : e' = e := by
        rcases List.mem_append.mp member with inBefore | isLast
        · exact absurd changes (idle e' inBefore)
        · exact mem_singleton.mp isLast
      subst here
      refine ⟨_, List.mem_append_right _ (mem_singleton.mpr rfl), ?_⟩
      show s.heap.record newRid ≠ some _
      rw [← (progress.unchanged idle).heap]
      by_cases slot : KeepsSlot table e'.2 (applyAssignments stmt.assignments e'.2.row)
      · rw [(rewrites.keeps slot).1, live]
        intro same
        have sameRow := congrArg HeapRecord.row (Option.some.inj same)
        exact changes.2 ⟨slot, sameRow.symm⟩
      · rw [(rewrites.moves slot).1]
        simp
  · intro idle
    have base := progress.unchanged fun e' member => idle e' (mem_append_left _ member)
    have keeps : KeepsSlot table e.2 (applyAssignments stmt.assignments e.2.row) ∧
        decoded table.schema (applyAssignments stmt.assignments e.2.row) = e.2.row := by
      by_contra changes
      exact idle e (List.mem_append_right _ (mem_singleton.mpr rfl)) ⟨isMatch, changes⟩
    obtain ⟨sameRid, sameEntries⟩ := rewrites.keeps keeps.1
    have sameRecord : stored table e.2 (applyAssignments stmt.assignments e.2.row) = e.2 := by
      rw [stored, if_pos keeps.1, keeps.2]
    constructor
    · rw [rewrites.record, sameRid, sameRecord, Function.update_idem, ← live,
        Function.update_eq_self]
      exact base.heap
    · rw [sameEntries]
      exact base.entries

theorem Progress.turn (working : Working env)
    (progress : Progress table stmt s m before (e :: after))
    (isMatch : IsMatch stmt.predicate e.2.row) :
    (¬Refused table stmt (before.map Prod.snd) e.2 (after.map Prod.snd) ∧ ∃ newRid m',
      table.updateTuple env e.1 (applyAssignments stmt.assignments e.2.row) m =
        (.ok newRid, m') ∧ Progress table stmt s m' (before ++ [e]) after) ∨
    (Refused table stmt (before.map Prod.snd) e.2 (after.map Prod.snd) ∧ ∃ what m',
      table.updateTuple env e.1 (applyAssignments stmt.assignments e.2.row) m =
        (.error what, m') ∧ Progress table stmt s m' before (e :: after)) := by
  obtain ⟨done, written, describes, changed⟩ := progress.cells
  have live := describes.live
  have isCell : pending e ∈ done ++ (e :: after).map pending := by simp
  have present : Present table m e.2.row e.1 := describes.present isCell
  have clear {index : IndexCatalogEntry} (member : index ∈ table.indexes) (key : List Value) :
      (∀ rid', (key, rid') ∈ m.entries index.indexRelationId → some e.1 = some rid') ↔
        ∀ other ∈ (before.map Prod.snd).map (settled table stmt) ++
          (after.map Prod.snd).map HeapRecord.row, extractKey other index ≠ some key := by
    have unused := Describes.unused (describes : Describes table
      (done ++ pending e :: after.map pending) m) member key
    have rows : ((done ++ after.map pending).map fun c => c.indexed.row) =
        (before.map Prod.snd).map (settled table stmt) ++
          (after.map Prod.snd).map HeapRecord.row := by
      rw [map_append, settled_of_written written]
      simp [pending, Function.comp_def]
    rw [rows] at unused
    exact unused
  rcases updating : table.updateTuple env e.1 (applyAssignments stmt.assignments e.2.row) m with
    ⟨what | newRid, m'⟩
  · refine .inr ⟨⟨isMatch, fun admits => ?_⟩, what, m', rfl,
      progress.stays (updateTuple_error_unchanged working live present updating)⟩
    obtain ⟨_, _, ran⟩ := updateTuple_working working live present admits fun index member key =>
      (clear member key).mpr
    rw [updating] at ran
    cases ran
  · obtain ⟨admits, newRid, rfl, rewrites⟩ := updateTuple_rewrites live _
      (fun index member key => (clear member key).mp) updating working
    exact .inl ⟨fun refused => refused.2 admits, some newRid, m', rfl,
      progress.rewrite isMatch admits rewrites⟩

variable (table stmt) in
def Ends (s : Store) (before after : List (RID × HeapRecord)) (r : Except String Nat × Store) :
    Prop :=
  (∃ n, r.1 = .ok n ∧ Progress table stmt s r.2 (before ++ after) [] ∧
    ∀ b e a, after = b ++ e :: a →
      ¬Refused table stmt ((before ++ b).map Prod.snd) e.2 (a.map Prod.snd)) ∨
  (∃ what b e a, r.1 = .error what ∧ after = b ++ e :: a ∧
    Progress table stmt s r.2 (before ++ b) (e :: a) ∧
    Refused table stmt ((before ++ b).map Prod.snd) e.2 (a.map Prod.snd) ∧
    ∀ b' e' a', b = b' ++ e' :: a' →
      ¬Refused table stmt ((before ++ b').map Prod.snd) e'.2 ((a' ++ e :: a).map Prod.snd))

theorem Ends.cons {e : RID × HeapRecord} {r : Except String Nat × Store}
    (notRefused : ¬Refused table stmt (before.map Prod.snd) e.2 (after.map Prod.snd))
    (ends : Ends table stmt s (before ++ [e]) after r) :
    Ends table stmt s before (e :: after) r := by
  rcases ends with ⟨n, ok, progress, none⟩ | ⟨what, b, e', a, error, rfl, progress, refused, none⟩
  · refine .inl ⟨n, ok, by simpa using progress, ?_⟩
    intro b e' a split
    cases b with
    | nil =>
      cases split
      simpa using notRefused
    | cons _ b =>
      cases split
      simpa using none b e' a rfl
  · refine .inr ⟨what, e :: b, e', a, error, rfl, by simpa using progress, by simpa using refused,
      ?_⟩
    intro b' e'' a' split
    cases b' with
    | nil =>
      cases split
      simpa using notRefused
    | cons _ b' =>
      cases split
      simpa using none b' e'' a' rfl

theorem updateRows_ends (working : Working env) {matching : List (RID × Row)} (updated : Nat)
    (progress : Progress table stmt s m before after)
    (collected : collectMatches stmt.predicate (after.map fun e => (e.1, e.2.row)) =
      some matching) :
    Ends table stmt s before after (updateRows env table
      (matching.map fun e => (e.1, applyAssignments stmt.assignments e.2)) updated m) := by
  induction after generalizing before m matching updated with
  | nil =>
    simp only [map_nil, collectMatches, Option.some.injEq] at collected
    subst collected
    refine .inl ⟨updated, rfl, by simpa [updateRows] using progress, ?_⟩
    intro b e a split
    simp at split
  | cons e after ih =>
    simp only [map_cons, collectMatches, bind_eq_bind, bind_eq_some_iff,
      pure_def, Option.some.injEq] at collected
    obtain ⟨isMatch?, tested, later, collected, rfl⟩ := collected
    cases isMatch? with
    | false =>
      have noMatch : ¬IsMatch stmt.predicate e.2.row := by
        unfold IsMatch
        rw [tested]
        simp
      exact (ih updated (progress.pass noMatch) collected).cons fun refused =>
        noMatch refused.1
    | true =>
      simp only [if_true, map_cons, updateRows]
      rcases progress.turn working tested with
        ⟨notRefused, newRid, m', updating, next⟩ | ⟨refused, what, m', updating, stays⟩
      · simp only [updating]
        exact (ih _ next collected).cons notRefused
      · simp only [updating]
        refine .inr ⟨what, [], e, after, rfl, rfl, by simpa using stays,
          by simpa using refused, ?_⟩
        intro b' e' a' split
        simp at split

end Loop

section Deletion

variable {env : Environment} {table : Table} {s s' : Store}

theorem deleteRows_working (working : Working env) {predicate : Option Expression}
    {matching : List (RID × Row)} (attached : matching ≠ [] → ∀ index ∈ table.indexes,
      index.runtimeIndex.isSome = true) (deleted : Nat) {kept after : List (RID × HeapRecord)}
    (describes : Describes table ((kept ++ after).map pending) s)
    (collected : collectMatches predicate (after.map fun e => (e.1, e.2.row)) = some matching) :
    ∃ n s', deleteRows env table (matching.map Prod.fst) deleted s = (.ok n, s') ∧
      Describes table ((kept ++ after.filter fun e => ¬IsMatch predicate e.2.row).map pending)
        s' := by
  induction after generalizing kept s matching deleted with
  | nil =>
    simp only [map_nil, collectMatches, Option.some.injEq] at collected
    subst collected
    exact ⟨deleted, s, rfl, describes⟩
  | cons e after ih =>
    simp only [map_cons, collectMatches, bind_eq_bind, bind_eq_some_iff,
      pure_def, Option.some.injEq] at collected
    obtain ⟨isMatch?, tested, later, collected, rfl⟩ := collected
    cases isMatch? with
    | false =>
      have noMatch : ¬IsMatch predicate e.2.row := by
        unfold IsMatch
        rw [tested]
        simp
      have next : Describes table ((kept ++ [e] ++ after).map pending) s := by
        simpa using describes
      obtain ⟨n, s', ran, described⟩ := ih attached deleted next collected
      refine ⟨n, s', ran, ?_⟩
      rw [List.filter_cons_of_pos (by simpa using noMatch)]
      simpa using described
    | true =>
      have isMatch : IsMatch predicate e.2.row := tested
      rw [map_append, map_cons] at describes
      have live : s.heap.record e.1 = some e.2 := by
        refine (describes.heap.mem_iff e.1 e.2).mpr (mem_map.mpr ⟨pending e, ?_, rfl⟩)
        simp
      have isCell : pending e ∈ kept.map pending ++ pending e :: after.map pending := by simp
      obtain ⟨s₁, deleting, cleared⟩ := deleteTuple_working working live
        (describes.present isCell) (attached (by simp))
      have next : Describes table ((kept ++ after).map pending) s₁ := by
        rw [map_append]
        exact describes.remove cleared
      simp only [if_true, map_cons, deleteRows, deleting]
      obtain ⟨n, s', ran, described⟩ := ih (fun _ => attached (by simp)) (deleted + 1) next
        collected
      refine ⟨n, s', ran, ?_⟩
      rw [List.filter_cons_of_neg (by simpa using isMatch)]
      exact described

end Deletion

section Result

variable {env : Environment} {table : Table} {s : Store}

/-- The new tuples are the new versions of the matching ones and the others themselves. -/
def Replaced (table : Table) (stmt : BoundUpdateStatement) (s s' : Store) : Prop :=
  ∃ final, List.Forall₂ (fun old new : RID × Row =>
      if IsMatch stmt.predicate old.2 then
        new.2 = decoded table.schema (applyAssignments stmt.assignments old.2)
      else new = old) s.heap.scan final ∧
    final.Perm s'.heap.scan

/-- An UPDATE replaces what it matches, or throws and changes nothing. -/
def UpdatesAtomically (env : Environment) (table : Table) (stmt : BoundUpdateStatement)
    (s : Store) : Prop :=
  match executeUpdate env table stmt s with
  | (.ok _, s') => Replaced table stmt s s'
  | (.error _, s') => Unchanged s s'

/-- A DELETE removes what it matches, or throws and changes nothing. -/
def DeletesAtomically (env : Environment) (table : Table) (stmt : BoundDeleteStatement)
    (s : Store) : Prop :=
  match executeDelete env table stmt s with
  | (.ok _, s') => s'.heap.record = fun rid =>
    (s.heap.record rid).filter fun r => ¬IsMatch stmt.predicate r.row
  | (.error _, s') => Unchanged s s'

/-- The statement evaluates its predicate on every tuple, and then refuses a tuple after it has
changed another one. -/
def FailsLate (table : Table) (stmt : BoundUpdateStatement) (s : Store) : Prop :=
  (collectMatches stmt.predicate s.heap.scan).isSome = true ∧
    RefusesLate table stmt (s.heap.records.map Prod.snd)

theorem scan_eq (heap : HeapFile) :
    heap.scan = heap.records.map fun e => (e.1, e.2.row) := rfl

theorem mem_of_collectMatches {predicate : Option Expression} {rows matching : List (RID × Row)}
    (collected : collectMatches predicate rows = some matching) :
    ∀ e ∈ matching, e ∈ rows := by
  induction rows generalizing matching with
  | nil =>
    simp only [collectMatches, Option.some.injEq] at collected
    subst collected
    exact fun e member => member
  | cons row rows ih =>
    simp only [collectMatches, bind_eq_bind, bind_eq_some_iff, pure_def,
      Option.some.injEq] at collected
    obtain ⟨isMatch, _, later, collected, rfl⟩ := collected
    intro e member
    cases isMatch with
    | false => exact List.mem_cons_of_mem _ (ih collected e member)
    | true =>
      rcases List.mem_cons.mp member with rfl | inLater
      · exact List.mem_cons_self
      · exact List.mem_cons_of_mem _ (ih collected e inLater)

theorem executeDelete_atomic (working : Working env) (agrees : Agrees table s)
    (accepted : KeysAccepted table s) (stmt : BoundDeleteStatement) :
    DeletesAtomically env table stmt s := by
  have describes := Agrees.describes agrees accepted
  have removed {s' : Store} (described : Describes table
      ((s.heap.records.filter fun e => ¬IsMatch stmt.predicate e.2.row).map pending) s') :
      s'.heap.record = fun rid =>
        (s.heap.record rid).filter fun r => ¬IsMatch stmt.predicate r.row := by
    have lists := described.heap
    simp only [List.map_map, pending, Function.comp_def, Prod.mk.eta, List.map_id'] at lists
    ext rid r
    rw [lists.mem_iff, List.mem_filter, HeapFile.mem_records, Option.filter_eq_some_iff]
  unfold DeletesAtomically executeDelete
  cases collected : collectMatches stmt.predicate s.heap.scan with
  | none => exact ⟨rfl, rfl⟩
  | some matching =>
  simp only
  by_cases attached : matching ≠ [] → ∀ index ∈ table.indexes, index.runtimeIndex.isSome = true
  · have start : Describes table (([] ++ s.heap.records).map pending) s := describes
    obtain ⟨n, s', ran, described⟩ := deleteRows_working working attached 0 start collected
    simp only [ran]
    exact removed described
  · -- the maintenance order throws, so the first deletion is refused
    obtain ⟨some_, detached⟩ := Classical.not_imp.mp attached
    have refused : ∃ what, table.getMaintenanceOrder = .error what := by
      unfold Table.getMaintenanceOrder
      split
      · exact ⟨_, rfl⟩
      · rename_i none_
        refine absurd (fun index member => ?_) detached
        have found := List.find?_eq_none.mp none_ index member
        rw [Option.isSome_iff_ne_none]
        simpa using found
    obtain ⟨what, refused⟩ := refused
    obtain ⟨e, rest, rfl⟩ := List.exists_cons_of_ne_nil some_
    have inScan := mem_of_collectMatches collected e List.mem_cons_self
    obtain ⟨⟨rid, r⟩, inRecords, rfl⟩ := mem_map.mp inScan
    have live := HeapFile.mem_records.mp inRecords
    have fits : r.row.length = table.schema.length := by
      simpa using congrArg List.length (agrees.fits rid r live)
    have reading : s.heap.getTuple table.schema rid = .ok (some r.row) := by
      simp [HeapFile.getTuple, live, fits]
    obtain ⟨text, s', ran, unchanged⟩ := deleteTuple_unattached working reading refused
    simp only [map_cons, deleteRows, ran]
    exact unchanged

private theorem split_unique {α : Type} {P : List α → α → List α → Prop} {b a b' a' : List α}
    {e e' : α} (same : b ++ e :: a = b' ++ e' :: a') (here : P b e a)
    (first : ∀ x y z, b = x ++ y :: z → ¬P x y (z ++ e :: a)) (here' : P b' e' a')
    (first' : ∀ x y z, b' = x ++ y :: z → ¬P x y (z ++ e' :: a')) : b = b' := by
  rcases List.append_eq_append_iff.mp same with ⟨mid, longer, rest⟩ | ⟨mid, longer, rest⟩
  · cases mid with
    | nil => simpa using longer.symm
    | cons y z =>
      cases rest
      exact absurd here (first' b e z longer)
  · cases mid with
    | nil => simpa using longer
    | cons y z =>
      cases rest
      exact absurd here' (first b' e' z longer)

variable {stmt : BoundUpdateStatement}

theorem Progress.replaced {s' : Store} (progress : Progress table stmt s s' s.heap.records []) :
    Replaced table stmt s s' := by
  obtain ⟨done, written, describes, _⟩ := progress.cells
  rw [map_nil, List.append_nil] at describes
  refine ⟨done.map fun c => (c.rid, c.record.row), ?_, ?_⟩
  · rw [scan_eq, List.forall₂_map_left_iff, List.forall₂_map_right_iff]
    refine written.imp fun e c => ?_
    unfold Written
    intro cell
    split
    · rename_i isMatch
      rw [if_pos isMatch] at cell
      rw [cell.1]
      rfl
    · rename_i noMatch
      rw [if_neg noMatch] at cell
      rw [cell]
      rfl
  · have perm := (describes.heap.perm (lists_records s'.heap)).map
      fun e : RID × HeapRecord => (e.1, e.2.row)
    rw [List.map_map] at perm
    exact perm

theorem executeUpdate_atomic_iff (working : Working env) (agrees : Agrees table s)
    (accepted : KeysAccepted table s) (stmt : BoundUpdateStatement) :
    UpdatesAtomically env table stmt s ↔ ¬FailsLate table stmt s := by
  have start : Progress table stmt s s [] s.heap.records := by
    refine ⟨⟨[], .nil, Agrees.describes agrees accepted, ?_⟩, fun _ => ⟨rfl, rfl⟩⟩
    rintro ⟨e, absurd_, _⟩
    cases absurd_
  unfold UpdatesAtomically executeUpdate FailsLate
  cases collected : collectMatches stmt.predicate s.heap.scan with
  | none =>
    simp only [Option.isSome_none, Bool.false_eq_true, false_and, not_false_eq_true, iff_true]
    exact ⟨rfl, rfl⟩
  | some matching =>
  simp only [Option.isSome_some, true_and]
  have ends := updateRows_ends working 0 start collected
  generalize updateRows env table
    (matching.map fun e => (e.1, applyAssignments stmt.assignments e.2)) 0 s = r at ends ⊢
  rcases r with ⟨result, s'⟩
  rcases ends with ⟨n, rfl, progress, none_⟩ | ⟨what, b, e, a, rfl, split, progress, refused, none_⟩
  · refine iff_of_true progress.replaced ?_
    rintro ⟨before, r, after, splits, refused, _⟩
    obtain ⟨b, rest, whole, rfl, restSplit⟩ := List.map_eq_append_iff.mp splits
    obtain ⟨e, a, rfl, rfl, rfl⟩ := List.map_eq_cons_iff.mp restSplit
    exact none_ b e a whole refused
  · have firstHere (x : List HeapRecord) (y : HeapRecord) (z : List HeapRecord)
        (splits : b.map Prod.snd = x ++ y :: z) :
        ¬Refused table stmt x y (z ++ e.2 :: a.map Prod.snd) := by
      obtain ⟨b', rest, rfl, rfl, restSplit⟩ := List.map_eq_append_iff.mp splits
      obtain ⟨e', a', rfl, rfl, rfl⟩ := List.map_eq_cons_iff.mp restSplit
      simpa using none_ b' e' a' rfl
    simp only
    constructor
    · rintro unchanged ⟨before, r, after, splits, refused', first, earlier, inBefore, changes⟩
      have whole : b.map Prod.snd ++ e.2 :: a.map Prod.snd = before ++ r :: after := by
        rw [← splits, split]
        simp
      have same := split_unique whole refused firstHere refused' first
      rw [← same] at inBefore
      obtain ⟨e', inB, rfl⟩ := mem_map.mp inBefore
      obtain ⟨done, _, describes, changed⟩ := progress.cells
      obtain ⟨c, inDone, differs⟩ := changed ⟨e', inB, changes⟩
      refine differs ?_
      rw [← unchanged.heap, describes.heap.mem_iff]
      exact mem_map.mpr ⟨c, mem_append_left _ inDone, rfl⟩
    · intro notLate
      refine progress.unchanged fun e' inB changes => notLate ?_
      refine ⟨b.map Prod.snd, e.2, a.map Prod.snd, ?_, refused, firstHere, e'.2, ?_, changes⟩
      · rw [split]
        simp
      · exact mem_map.mpr ⟨e', inB, rfl⟩

theorem statements_atomic (working : Working env) (agrees : Agrees table s)
    (accepted : KeysAccepted table s) :
    (∀ stmt, UpdatesAtomically env table stmt s ↔ ¬FailsLate table stmt s) ∧
      ∀ stmt, DeletesAtomically env table stmt s :=
  ⟨executeUpdate_atomic_iff working agrees accepted, executeDelete_atomic working agrees accepted⟩

theorem working_onFirstPage : Working (.onFirstPage fun _ => none) where
  quiet _ := rfl
  roomy := by
    intro clock heap size
    have free : (heap.record ⟨0, (heap.slots[0]?).getD 0⟩).isNone = true := by
      cases live : heap.record ⟨0, (heap.slots[0]?).getD 0⟩ with
      | none => rfl
      | some r =>
        obtain ⟨n, bound, inPage⟩ := heap.bounded _ r live
        simp only [bound, Option.getD_some, Nat.lt_irrefl] at inPage
    refine List.find?_isSome.mpr ⟨_, mem_map.mpr ⟨_, ?_, rfl⟩, free⟩
    simp

def twoRows : Store :=
  let env := Environment.onFirstPage fun _ => none
  (pairTable.insertTuple env [.int64 2, .int64 2]
    (pairTable.insertTuple env [.int64 1, .int64 1] .empty).2).2

theorem twoRows_agrees : Agrees pairTable twoRows := by
  have first : (pairTable.insertTuple (.onFirstPage fun _ => none) [.int64 1, .int64 1] .empty).1 =
      .ok ⟨0, 0⟩ := by
    decide +kernel
  have second : (pairTable.insertTuple (.onFirstPage fun _ => none) [.int64 2, .int64 2]
      (pairTable.insertTuple (.onFirstPage fun _ => none) [.int64 1, .int64 1] .empty).2).1 =
      .ok ⟨0, 1⟩ := by
    decide +kernel
  exact insertTuple_agrees (insertTuple_agrees (.empty pairTable) (Prod.ext first rfl))
    (Prod.ext second rfl)

theorem statements_atomic_twoRows :
    (∀ stmt, UpdatesAtomically (.onFirstPage fun _ => none) pairTable stmt twoRows ↔
        ¬FailsLate pairTable stmt twoRows) ∧
      ∀ stmt, DeletesAtomically (.onFirstPage fun _ => none) pairTable stmt twoRows :=
  statements_atomic working_onFirstPage twoRows_agrees (by unfold KeysAccepted; decide +kernel)

theorem not_updatesAtomically {what : String} {rid : RID}
    (fails : (executeUpdate env table stmt s).1 = .error what)
    (gone : (executeUpdate env table stmt s).2.heap.record rid = none)
    (live : (s.heap.record rid).isSome = true) : ¬UpdatesAtomically env table stmt s := by
  intro atomic
  unfold UpdatesAtomically at atomic
  split at atomic
  · rename_i ran
    rw [ran] at fails
    cases fails
  · rename_i ran
    rw [ran, atomic.heap] at gone
    rw [gone] at live
    cases live

def assignFive : BoundUpdateStatement := ⟨[(0, .int64 5)], none⟩

/-- The unique index on `a` refuses the second tuple, and the first one stays changed. -/
theorem update_not_atomic : ¬∀ stmt,
    UpdatesAtomically (.onFirstPage fun _ => none) pairTable stmt twoRows := by
  have fails : (executeUpdate (.onFirstPage fun _ => none) pairTable assignFive twoRows).1 =
      .error "Unique index violation on index: by_a" := by
    decide +kernel
  have gone : (executeUpdate (.onFirstPage fun _ => none) pairTable assignFive
      twoRows).2.heap.record ⟨0, 0⟩ = none := by
    decide +kernel
  have live : (twoRows.heap.record ⟨0, 0⟩).isSome = true := by
    decide +kernel
  exact Classical.not_forall.mpr ⟨assignFive, not_updatesAtomically fails gone live⟩

end Result

end GraniteDb.Sql.StatementAtomicity
