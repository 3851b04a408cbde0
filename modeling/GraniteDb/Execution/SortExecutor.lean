/- The external sort returns its input in order when the temporary files keep its rows. -/

import GraniteDb.Execution.SortOrder

namespace GraniteDb.Execution.SortExecutor

open Common.Value Lib.Pull Lib.StdAlgorithms Lib.RunMerging Execution.Operators Execution.TupleFile
open Execution.SortOrder
open Recovery.WalRecords (Bytes)
open Access.HeapFile (Column)
open Option (bind_some map_some)
open List (length_cons forall_mem_append flatten_append flatten_singleton flatten_cons mem_map
  append_assoc map_cons nil_append mem_cons_self singleton_append)

section Model

variable (alg : Algorithms Row) (heaps : Algorithms (Entry Row)) (schema : List Column)
  (keys : List SortKeySpec)

/-- `WriteRunFile`: the bytes of the new run file; `none` is an exception. -/
def writeRunFile (run : List Row) : Option Bytes :=
  (sortItems alg (compareTuples keys) run).bind (writeTuples schema)

def mergeRunGroup (group : List Bytes) : Option Bytes :=
  (mergeRuns heaps (compareTuples keys) (group.map (readTuples schema))).bind (writeTuples schema)

/-- The loop of `Init` over the child's rows, with the run begun and the run files written. -/
def readRuns (runCapacity : Nat) (run : List Row) (files : List Bytes) :
    Pull Row → Option (List Row × List Bytes)
  | .done => some (run, files)
  | .thrown => none
  | .item tuple rest =>
    if runCapacity ≤ (run ++ [tuple]).length then
      (writeRunFile alg schema keys (run ++ [tuple])).bind fun file =>
        readRuns runCapacity [] (files ++ [file]) rest
    else readRuns runCapacity (run ++ [tuple]) files rest

/-- One file takes the place of each group; a group of one is passed through. -/
def mergePass (mergeFanIn : Nat) : Nat → List Bytes → Option (List Bytes)
  | _, [] => some []
  | 0, _ :: _ => none
  | fuel + 1, file :: files =>
    let group := (file :: files).take mergeFanIn
    (if group.length = 1 then some file else mergeRunGroup heaps schema keys group).bind fun next =>
      (mergePass mergeFanIn fuel ((file :: files).drop mergeFanIn)).map (next :: ·)

/-- The passes of `Init`, until one file is left; `none` also if the fuel is used up. -/
def mergePasses (mergeFanIn : Nat) : Nat → List Bytes → Option Bytes
  | _, [] => none
  | _, [file] => some file
  | 0, _ :: _ :: _ => none
  | fuel + 1, first :: second :: files =>
    (mergePass heaps schema keys mergeFanIn (first :: second :: files).length
      (first :: second :: files)).bind (mergePasses mergeFanIn fuel)

/-- `SortExecutor::Init`, with what the calls of `Next` then yield; `none` is an exception. The
reservation for a run throws above `max_size()` of a vector of tuples. -/
def init (maxSize runCapacity mergeFanIn : Nat) (child : Option (Pull Row)) :
    Option (Pull Row) :=
  child.bind fun rows =>
    if maxSize < runCapacity then none
    else
      (readRuns alg schema keys runCapacity [] [] rows).bind fun read =>
        if read.2.isEmpty then (sortItems alg (compareTuples keys) read.1).map Pull.ofList
        else
          (if read.1.isEmpty then some read.2
            else (writeRunFile alg schema keys read.1).map fun file => read.2 ++ [file]).bind
            fun files =>
              (mergePasses heaps schema keys mergeFanIn files.length files).map (readTuples schema)

end Model

section Files

variable {schema : List Column} {keys : List SortKeySpec}

def Holds (schema : List Column) (file : Bytes) (rows : List Row) : Prop :=
  writeTuples schema rows = some file ∧ ∀ row ∈ rows, Valid schema row

variable {rows : List Row}

theorem holds_of_valid (valid : ∀ row ∈ rows, Valid schema row) :
    ∃ file, writeTuples schema rows = some file ∧ Holds schema file rows := by
  obtain ⟨file, written⟩ := writeTuples_valid valid
  exact ⟨file, written, written, valid⟩

theorem valid_back {row : Row} (valid : Valid schema row) (fits : Fits schema row) :
    Valid schema (back schema row) :=
  (kept_stable valid (by rw [kept_eq, if_pos fits])).1

theorem fits_back {row : Row} (valid : Valid schema row) (fits : Fits schema row) :
    Fits schema (back schema row) := by
  have stable := (kept_stable valid (by rw [kept_eq, if_pos fits])).2
  rw [kept_eq] at stable
  by_contra unfit
  rw [if_neg unfit] at stable
  cases stable

theorem collect_readTuples {file : Bytes} (holds : Holds schema file rows) :
    (readTuples schema file).collect =
      if ∀ row ∈ rows, Fits schema row then some (rows.map (back schema)) else none := by
  rw [readTuples_written holds.1, Pull.collect_mapM_ofList, mapM_kept]

theorem valid_of_mapM (valid : ∀ row ∈ rows, Valid schema row) :
    ∀ x ∈ ((Pull.ofList rows).mapM (kept schema)).items, Valid schema x := by
  induction rows with
  | nil =>
    intro x member
    cases member
  | cons row rows ih =>
    intro x member
    rw [Pull.ofList, Pull.mapM] at member
    cases result : kept schema row with
    | none =>
      rw [result] at member
      cases member
    | some back =>
      rw [result] at member
      rcases List.mem_cons.mp member with rfl | later
      · exact (kept_stable (valid row mem_cons_self) result).1
      · exact ih (fun other inRows => valid other (List.mem_cons_of_mem _ inRows)) x later

theorem valid_items {file : Bytes} (holds : Holds schema file rows) :
    ∀ x ∈ (readTuples schema file).items, Valid schema x := by
  rw [readTuples_written holds.1]
  exact valid_of_mapM holds.2

end Files

section Passes

variable (heaps : Algorithms (Entry Row)) {schema : List Column} {keys : List SortKeySpec}
  (compared : Compared (compareTuples keys) (Valid schema)) (onColumns : OnColumns schema keys)

def AllFit (schema : List Column) (rows : List Row) : Prop := ∀ row ∈ rows, Fits schema row

variable {rows : List Row} {contents : List (List Row)} {files : List Bytes}

theorem allFit_append {rows' : List Row} :
    AllFit schema (rows ++ rows') ↔ AllFit schema rows ∧ AllFit schema rows' :=
  forall_mem_append

theorem allFit_of_kept (unchanged : ∀ row ∈ rows, kept schema row = some row) :
    AllFit schema rows ∧ rows.map (back schema) = rows := by
  have each : ∀ row ∈ rows, Fits schema row ∧ back schema row = row := by
    intro row member
    have kept := unchanged row member
    rw [kept_eq] at kept
    split at kept
    · rename_i fits
      exact ⟨fits, Option.some.inj kept⟩
    · cases kept
  refine ⟨fun row member => (each row member).1, ?_⟩
  exact (List.map_congr_left fun row member => (each row member).2).trans (List.map_id _)

def KeepsKeys (schema : List Column) (keys : List SortKeySpec) (row : Row) : Prop :=
  sortKeyValues keys (back schema row) = sortKeyValues keys row

/-- Files with the same rows as before, up to what writing and reading changes, and in order if
they were and the files keep the key values. -/
structure Settles (schema : List Column) (keys : List SortKeySpec)
    (contents contents' : List (List Row)) : Prop where
  items : (contents'.flatten.map (back schema)).Perm (contents.flatten.map (back schema))
  fits : AllFit schema contents'.flatten ↔ AllFit schema contents.flatten
  sorted : (∀ rows ∈ contents, Ordered (compareTuples keys) rows) →
    (∀ row ∈ contents.flatten, KeepsKeys schema keys row) →
      (∀ rows ∈ contents', Ordered (compareTuples keys) rows) ∧
        ∀ row ∈ contents'.flatten, KeepsKeys schema keys row

theorem Settles.refl (contents : List (List Row)) : Settles schema keys contents contents :=
  ⟨List.Perm.refl _, Iff.rfl, fun sorted keeps => ⟨sorted, keeps⟩⟩

theorem Settles.trans {contents' contents'' : List (List Row)}
    (first : Settles schema keys contents contents')
    (second : Settles schema keys contents' contents'') :
    Settles schema keys contents contents'' where
  items := second.items.trans first.items
  fits := second.fits.trans first.fits
  sorted ordered keeps := by
    obtain ⟨ordered', keeps'⟩ := first.sorted ordered keeps
    exact second.sorted ordered' keeps'

theorem Settles.append {contents' others others' : List (List Row)}
    (first : Settles schema keys contents contents') (second : Settles schema keys others others') :
    Settles schema keys (contents ++ others) (contents' ++ others') where
  items := by
    simp only [flatten_append, List.map_append]
    exact first.items.append second.items
  fits := by
    rw [flatten_append, flatten_append, allFit_append, allFit_append]
    exact and_congr first.fits second.fits
  sorted ordered keeps := by
    rw [flatten_append, forall_mem_append] at keeps
    rw [forall_mem_append] at ordered
    obtain ⟨ordered₁, keeps₁⟩ := first.sorted ordered.1 keeps.1
    obtain ⟨ordered₂, keeps₂⟩ := second.sorted ordered.2 keeps.2
    rw [flatten_append, forall_mem_append, forall_mem_append]
    exact ⟨⟨ordered₁, ordered₂⟩, keeps₁, keeps₂⟩

def Stored (schema : List Column) (files : List Bytes) (contents : List (List Row)) : Prop :=
  List.Forall₂ (Holds schema) files contents

theorem Stored.valid (stored : Stored schema files contents) :
    ∀ row ∈ contents.flatten, Valid schema row := by
  induction stored with
  | nil =>
    intro row member
    cases member
  | cons holds _ ih =>
    rw [flatten_cons, forall_mem_append]
    exact ⟨holds.2, ih⟩

theorem Stored.read (stored : Stored schema files contents) :
    (∀ run ∈ files.map (readTuples schema), ∀ x ∈ run.items, Valid schema x) ∧
      ((∃ run ∈ files.map (readTuples schema), run.collect = none) ↔
        ¬ AllFit schema contents.flatten) ∧
      (AllFit schema contents.flatten → (files.map (readTuples schema)).flatMap Pull.items =
        contents.flatten.map (back schema)) := by
  induction stored with
  | nil => simp [AllFit]
  | @cons file rows files contents holds _ ih =>
    obtain ⟨valid, broken, items⟩ := ih
    have collected := collect_readTuples holds
    refine ⟨?_, ?_, ?_⟩
    · rw [map_cons, List.forall_mem_cons]
      exact ⟨valid_items holds, valid⟩
    · rw [map_cons, List.exists_mem_cons_iff, broken, flatten_cons, allFit_append,
        collected, not_and_or]
      refine or_congr ?_ Iff.rfl
      by_cases fits : ∀ row ∈ rows, Fits schema row
      · rw [if_pos fits]
        exact iff_of_false (fun failed => by cases failed) (not_not_intro fits)
      · rw [if_neg fits]
        exact iff_of_true rfl fits
    · intro fits
      rw [flatten_cons, allFit_append] at fits
      have here : ∀ row ∈ rows, Fits schema row := fits.1
      rw [if_pos here] at collected
      rw [map_cons, List.flatMap_cons, items fits.2, flatten_cons, List.map_append,
        Pull.collect_some collected]

include onColumns in
theorem ordered_back (valid : ∀ row ∈ rows, Valid schema row) (fits : AllFit schema rows)
    (keeps : ∀ row ∈ rows, KeepsKeys schema keys row)
    (ordered : Ordered (compareTuples keys) rows) :
    Ordered (compareTuples keys) (rows.map (back schema)) := by
  refine List.pairwise_map.mpr (List.Pairwise.imp_of_mem (fun {a b} inA inB notAbove => ?_) ordered)
  have same := compareTuples_congr onColumns (valid_back (valid a inA) (fits a inA))
    (valid_back (valid b inB) (fits b inB)) (valid a inA) (valid b inB) (keeps a inA) (keeps b inB)
  rw [same]
  exact notAbove

include compared onColumns in
theorem mergeRunGroup_settles {group : List Bytes} (stored : Stored schema group contents) :
    (mergeRunGroup heaps schema keys group = none ∧ ¬ AllFit schema contents.flatten) ∨
      ∃ file rows, mergeRunGroup heaps schema keys group = some file ∧ Holds schema file rows ∧
        Settles schema keys contents [rows] := by
  obtain ⟨valid, broken, items⟩ := stored.read
  rcases mergeRuns_spec heaps compared valid with ⟨failed, unread⟩ | ⟨out, merged, whole, perm, sorts⟩
  · exact .inl ⟨by rw [mergeRunGroup, failed]; rfl, broken.mp unread⟩
  · have fits : AllFit schema contents.flatten := by
      by_contra unfit
      obtain ⟨run, member, failed⟩ := broken.mpr unfit
      exact whole run member failed
    rw [items fits] at perm
    have validRows := stored.valid
    have validOut : ∀ row ∈ out, Valid schema row := by
      intro row member
      obtain ⟨before, inContents, rfl⟩ := mem_map.mp (perm.mem_iff.mp member)
      exact valid_back (validRows before inContents) (fits before inContents)
    obtain ⟨file, written, holds⟩ := holds_of_valid validOut
    refine .inr ⟨file, out, by rw [mergeRunGroup, merged]; exact written, holds, ?_, ?_, ?_⟩
    · rw [flatten_singleton]
      refine (perm.map (back schema)).trans ?_
      rw [List.map_map]
      refine List.Perm.of_eq (List.map_congr_left fun row member => ?_)
      exact back_back (validRows row member) (fits row member)
    · rw [flatten_singleton]
      refine iff_of_true ?_ fits
      intro row member
      obtain ⟨before, inContents, rfl⟩ := mem_map.mp (perm.mem_iff.mp member)
      exact fits_back (validRows before inContents) (fits before inContents)
    · intro ordered keeps
      rw [flatten_singleton, List.forall_mem_singleton]
      constructor
      · apply sorts
        clear merged whole perm sorts items broken valid validRows
        induction stored with
        | nil => simp
        | @cons file rows files contents holds _ ih =>
          rw [List.forall_mem_cons] at ordered
          rw [flatten_cons, forall_mem_append] at keeps
          rw [flatten_cons, allFit_append] at fits
          rw [map_cons, List.forall_mem_cons]
          refine ⟨?_, ih fits.2 ordered.2 keeps.2⟩
          have here : ∀ row ∈ rows, Fits schema row := fits.1
          have collected := collect_readTuples holds
          rw [if_pos here] at collected
          rw [Pull.collect_some collected]
          exact ordered_back onColumns holds.2 fits.1 keeps.1 ordered.1
      · intro row member
        obtain ⟨before, inContents, rfl⟩ := mem_map.mp (perm.mem_iff.mp member)
        rw [KeepsKeys, back_back (validRows before inContents) (fits before inContents)]

include compared onColumns in
theorem mergePass_settles {mergeFanIn : Nat} (several : 2 ≤ mergeFanIn) (fuel : Nat)
    (stored : Stored schema files contents) (enough : files.length ≤ fuel) :
    (mergePass heaps schema keys mergeFanIn fuel files = none ∧ ¬ AllFit schema contents.flatten) ∨
      ∃ files' contents', mergePass heaps schema keys mergeFanIn fuel files = some files' ∧
        Stored schema files' contents' ∧ Settles schema keys contents contents' ∧
        2 * files'.length ≤ files.length + 1 ∧ (files ≠ [] → files' ≠ []) := by
  induction fuel generalizing files contents with
  | zero =>
    have empty : files = [] := List.length_eq_zero_iff.mp (by omega)
    subst empty
    cases stored
    exact .inr ⟨[], [], rfl, .nil, .refl _, by simp, fun none => absurd rfl none⟩
  | succ fuel ih =>
    cases files with
    | nil =>
      cases stored
      exact .inr ⟨[], [], rfl, .nil, .refl _, by simp, fun none => absurd rfl none⟩
    | cons file files =>
      have group : Stored schema ((file :: files).take mergeFanIn) (contents.take mergeFanIn) :=
        List.forall₂_take mergeFanIn stored
      have later : Stored schema ((file :: files).drop mergeFanIn) (contents.drop mergeFanIn) :=
        List.forall₂_drop mergeFanIn stored
      have split : contents = contents.take mergeFanIn ++ contents.drop mergeFanIn :=
        (List.take_append_drop _ _).symm
      have parts : AllFit schema contents.flatten ↔
          AllFit schema (contents.take mergeFanIn).flatten ∧
            AllFit schema (contents.drop mergeFanIn).flatten := by
        rw [← allFit_append, ← flatten_append, ← split]
      rw [length_cons] at enough
      have fewer : ((file :: files).drop mergeFanIn).length ≤ fuel := by
        rw [List.length_drop, length_cons]
        omega
      have first : (((if ((file :: files).take mergeFanIn).length = 1 then some file
            else mergeRunGroup heaps schema keys ((file :: files).take mergeFanIn)) = none) ∧
          ¬ AllFit schema (contents.take mergeFanIn).flatten) ∨
          ∃ next rows, (if ((file :: files).take mergeFanIn).length = 1 then some file
            else mergeRunGroup heaps schema keys ((file :: files).take mergeFanIn)) = some next ∧
            Holds schema next rows ∧
            Settles schema keys (contents.take mergeFanIn) [rows] := by
        by_cases single : ((file :: files).take mergeFanIn).length = 1
        · obtain ⟨fan, rfl⟩ : ∃ fan, mergeFanIn = fan + 1 := ⟨mergeFanIn - 1, by omega⟩
          rw [List.take_succ_cons, length_cons, Nat.add_eq_right,
            List.length_eq_zero_iff] at single
          rw [List.take_succ_cons, single] at group ⊢
          obtain ⟨rows, rest, holds, none, same⟩ := List.forall₂_cons_left_iff.mp group
          cases none
          rw [same]
          exact .inr ⟨file, rows, rfl, holds, .refl _⟩
        · rw [if_neg single]
          exact mergeRunGroup_settles heaps compared onColumns group
      rcases first with ⟨failed, unfit⟩ | ⟨next, rows, merged, holds, settles⟩
      · refine .inl ⟨?_, fun all => unfit (parts.mp all).1⟩
        rw [mergePass]
        simp only [failed, Option.bind_none]
      · rcases ih later fewer with ⟨failed, unfit⟩ | ⟨files', contents', passed, stored', rest,
          half, -⟩
        · refine .inl ⟨?_, fun all => unfit (parts.mp all).2⟩
          rw [mergePass]
          simp only [merged, bind_some, failed, Option.map_none]
        · refine .inr ⟨next :: files', rows :: contents', ?_, .cons holds stored', ?_, ?_, ?_⟩
          · rw [mergePass]
            simp only [merged, bind_some, passed, map_some]
          · have both := settles.append rest
            rw [← split] at both
            exact both
          · rw [List.length_drop, length_cons] at half
            rw [length_cons, length_cons]
            omega
          · intro _ none
            cases none

include compared onColumns in
theorem mergePasses_settles {mergeFanIn : Nat} (several : 2 ≤ mergeFanIn) (fuel : Nat)
    (stored : Stored schema files contents) (some_ : files ≠ []) (enough : files.length ≤ fuel) :
    (mergePasses heaps schema keys mergeFanIn fuel files = none ∧
        ¬ AllFit schema contents.flatten) ∨
      ∃ file rows, mergePasses heaps schema keys mergeFanIn fuel files = some file ∧
        Holds schema file rows ∧ Settles schema keys contents [rows] := by
  induction fuel generalizing files contents with
  | zero => exact absurd (List.length_eq_zero_iff.mp (by omega)) some_
  | succ fuel ih =>
    cases files with
    | nil => exact absurd rfl some_
    | cons first files =>
      cases files with
      | nil =>
        obtain ⟨rows, rest, holds, none, rfl⟩ := List.forall₂_cons_left_iff.mp stored
        cases none
        exact .inr ⟨first, rows, rfl, holds, .refl _⟩
      | cons second files =>
        rcases mergePass_settles heaps compared onColumns several _ stored (Nat.le_refl _) with
          ⟨failed, unfit⟩ | ⟨files', contents', passed, stored', settles, half, nonempty⟩
        · refine .inl ⟨?_, unfit⟩
          rw [mergePasses, failed]
          rfl
        · rw [length_cons, length_cons] at half enough
          have goesOn : mergePasses heaps schema keys mergeFanIn (fuel + 1)
              (first :: second :: files) =
              mergePasses heaps schema keys mergeFanIn fuel files' := by
            rw [mergePasses, passed]
            rfl
          rw [goesOn]
          rcases ih stored' (nonempty fun none => by cases none) (by omega) with
            ⟨failed, unfit⟩ | ⟨file, rows, merged, holds, settles'⟩
          · exact .inl ⟨failed, fun all => unfit (settles.fits.mpr all)⟩
          · exact .inr ⟨file, rows, merged, holds, settles.trans settles'⟩

end Passes

section Runs

variable (alg : Algorithms Row) {schema : List Column} {keys : List SortKeySpec}
  (compared : Compared (compareTuples keys) (Valid schema))

include compared in
theorem writeRunFile_holds {run : List Row} (valid : ∀ row ∈ run, Valid schema row) :
    ∃ file rows, writeRunFile alg schema keys run = some file ∧ Holds schema file rows ∧
      rows.Perm run ∧ Ordered (compareTuples keys) rows := by
  obtain ⟨rows, sorted, perm, ordered⟩ := sortItems_ordered alg compared valid
  obtain ⟨file, written, holds⟩ := holds_of_valid fun row member =>
    valid row (perm.mem_iff.mp member)
  exact ⟨file, rows, by rw [writeRunFile, sorted]; exact written, holds, perm, ordered⟩

theorem readRuns_short (schema : List Column) (keys : List SortKeySpec) {runCapacity : Nat}
    (rows run : List Row) (files : List Bytes) (short : run.length + rows.length < runCapacity) :
    readRuns alg schema keys runCapacity run files (Pull.ofList rows) =
      some (run ++ rows, files) := by
  induction rows generalizing run with
  | nil => simp [Pull.ofList, readRuns]
  | cons row rows ih =>
    rw [length_cons] at short
    have begun : ¬ runCapacity ≤ (run ++ [row]).length := by
      rw [List.length_append, List.length_singleton]
      omega
    rw [Pull.ofList, readRuns, if_neg begun, ih _ (by
      rw [List.length_append, List.length_singleton]
      omega), append_assoc, singleton_append]

include compared in
theorem readRuns_runs {runCapacity : Nat} (rows run : List Row) {files : List Bytes}
    {contents : List (List Row)} (stored : Stored schema files contents)
    (sorted : ∀ c ∈ contents, Ordered (compareTuples keys) c)
    (valid : ∀ row ∈ run ++ rows, Valid schema row) :
    ∃ run' files' contents', readRuns alg schema keys runCapacity run files (Pull.ofList rows) =
        some (run', files') ∧ Stored schema files' contents' ∧
      (∀ c ∈ contents', Ordered (compareTuples keys) c) ∧
      (contents'.flatten ++ run').Perm (contents.flatten ++ (run ++ rows)) ∧
      (files ≠ [] ∨ runCapacity ≤ run.length + rows.length ∧ run.length < runCapacity →
        files' ≠ []) := by
  induction rows generalizing run files contents with
  | nil =>
    refine ⟨run, files, contents, rfl, stored, sorted, by simp, ?_⟩
    rintro (some_ | ⟨reached, short⟩)
    · exact some_
    · rw [List.length_nil] at reached
      omega
  | cons row rows ih =>
    have validRun : ∀ r ∈ run ++ [row], Valid schema r := by
      intro r member
      apply valid r
      rcases List.mem_append.mp member with old | new
      · exact List.mem_append_left _ old
      · rw [List.mem_singleton.mp new]
        exact List.mem_append_right _ mem_cons_self
    by_cases full : runCapacity ≤ (run ++ [row]).length
    · obtain ⟨file, written, wrote, holds, perm, ordered⟩ :=
        writeRunFile_holds alg compared validRun
      have stored' : Stored schema (files ++ [file]) (contents ++ [written]) :=
        List.rel_append stored (.cons holds .nil)
      have sorted' : ∀ c ∈ contents ++ [written], Ordered (compareTuples keys) c := by
        rw [forall_mem_append, List.forall_mem_singleton]
        exact ⟨sorted, ordered⟩
      obtain ⟨run', files', contents', read, storedAll, sortedAll, all, nonempty⟩ :=
        ih [] stored' sorted' fun r member => valid r
          (List.mem_append_right _ (List.mem_cons_of_mem _ member))
      refine ⟨run', files', contents', ?_, storedAll, sortedAll, ?_, fun _ =>
        nonempty (.inl (by simp))⟩
      · rw [Pull.ofList, readRuns, if_pos full, wrote]
        exact read
      · refine all.trans ?_
        rw [flatten_append, flatten_singleton, nil_append, append_assoc]
        refine List.Perm.append_left _ ?_
        have moved := perm.append_right rows
        rwa [append_assoc, singleton_append] at moved
    · obtain ⟨run', files', contents', read, storedAll, sortedAll, all, nonempty⟩ :=
        ih (run ++ [row]) stored sorted (by
          rw [append_assoc, singleton_append]
          exact valid)
      refine ⟨run', files', contents', ?_, storedAll, sortedAll, ?_, ?_⟩
      · rw [Pull.ofList, readRuns, if_neg full]
        exact read
      · rwa [append_assoc, singleton_append] at all
      · rintro (some_ | ⟨reached, -⟩)
        · exact nonempty (.inl some_)
        · apply nonempty
          rw [length_cons] at reached
          rw [List.length_append, List.length_singleton] at full ⊢
          omega

end Runs

section Results

variable (alg : Algorithms Row) (heaps : Algorithms (Entry Row)) {schema : List Column}
  {keys : List SortKeySpec} (compared : Compared (compareTuples keys) (Valid schema))
  (onColumns : OnColumns schema keys)

variable {rows : List Row} {maxSize mergeFanIn runCapacity : Nat}

include compared in
theorem init_short (reserved : runCapacity ≤ maxSize) (valid : ∀ row ∈ rows, Valid schema row)
    (short : rows.length < runCapacity) :
    ∃ result, init alg heaps schema keys maxSize runCapacity mergeFanIn (some (Pull.ofList rows)) =
        some (Pull.ofList result) ∧ result.Perm rows ∧ Ordered (compareTuples keys) result := by
  obtain ⟨result, sorted, perm, ordered⟩ := sortItems_ordered alg compared valid
  refine ⟨result, ?_, perm, ordered⟩
  have read := readRuns_short alg schema keys rows [] []
    (show [].length + rows.length < runCapacity by simpa using short)
  rw [init, bind_some, if_neg (by omega), read, bind_some]
  simp only [List.isEmpty_nil, if_true, nil_append, sorted, map_some]

include compared onColumns in
theorem init_files (positive : 0 < runCapacity) (reserved : runCapacity ≤ maxSize)
    (several : 2 ≤ mergeFanIn) (valid : ∀ row ∈ rows, Valid schema row)
    (long : runCapacity ≤ rows.length) :
    (¬ AllFit schema rows ∧ ∀ result, init alg heaps schema keys maxSize runCapacity mergeFanIn
        (some (Pull.ofList rows)) ≠ some (Pull.ofList result)) ∨
      (AllFit schema rows ∧ ∃ result, init alg heaps schema keys maxSize runCapacity mergeFanIn
          (some (Pull.ofList rows)) = some (Pull.ofList result) ∧
        result.Perm (rows.map (back schema)) ∧
        ((∀ row ∈ rows, KeepsKeys schema keys row) → Ordered (compareTuples keys) result)) := by
  obtain ⟨run, files, contents, read, stored, sorted, all, nonempty⟩ :=
    readRuns_runs alg compared rows [] .nil (by simp) valid
  have nonempty : files ≠ [] := nonempty (.inr ⟨by simpa using long, positive⟩)
  rw [List.flatten_nil, nil_append, nil_append] at all
  -- the last run, if one has begun, is written too
  obtain ⟨files', contents', flushed, stored', sorted', all', nonempty'⟩ :
      ∃ files' contents', (if run.isEmpty then some files
          else (writeRunFile alg schema keys run).map fun file => files ++ [file]) = some files' ∧
        Stored schema files' contents' ∧ (∀ c ∈ contents', Ordered (compareTuples keys) c) ∧
        contents'.flatten.Perm rows ∧ files' ≠ [] := by
    by_cases none : run = []
    · subst none
      exact ⟨files, contents, rfl, stored, sorted, by simpa using all, nonempty⟩
    · have validRun : ∀ row ∈ run, Valid schema row := fun row member =>
        valid row (all.mem_iff.mp (List.mem_append_right _ member))
      obtain ⟨file, written, wrote, holds, perm, ordered⟩ :=
        writeRunFile_holds alg compared validRun
      refine ⟨files ++ [file], contents ++ [written], ?_, List.rel_append stored (.cons holds .nil),
        ?_, ?_, by simp⟩
      · rw [if_neg (by simpa using none), wrote]
        rfl
      · rw [forall_mem_append, List.forall_mem_singleton]
        exact ⟨sorted, ordered⟩
      · rw [flatten_append, flatten_singleton]
        exact (perm.append_left _).trans all
  have fitsAll : AllFit schema contents'.flatten ↔ AllFit schema rows :=
    forall_congr' fun row => by rw [all'.mem_iff]
  have result : init alg heaps schema keys maxSize runCapacity mergeFanIn (some (Pull.ofList rows)) =
      (mergePasses heaps schema keys mergeFanIn files'.length files').map (readTuples schema) := by
    have some_ : files.isEmpty = false := by simpa using nonempty
    rw [init, bind_some, if_neg (by omega), read, bind_some]
    simp only [some_, Bool.false_eq_true, if_false, flushed, bind_some]
  rw [result]
  rcases mergePasses_settles heaps compared onColumns several _ stored' nonempty' (Nat.le_refl _) with
    ⟨failed, unfit⟩ | ⟨file, written, merged, holds, settles⟩
  · refine .inl ⟨fun fits => unfit (fitsAll.mpr fits), fun result => ?_⟩
    rw [failed]
    exact fun none => by cases none
  · have fits := settles.fits.trans fitsAll
    rw [flatten_singleton] at fits
    have items := settles.items
    rw [flatten_singleton] at items
    rw [merged, map_some]
    have collected := collect_readTuples holds
    by_cases allFit : AllFit schema rows
    · have here : ∀ row ∈ written, Fits schema row := fits.mpr allFit
      have read' : readTuples schema file = Pull.ofList (written.map (back schema)) := by
        have each := Pull.mapM_ofList (f := kept schema) (g := back schema) fun row member => by
          rw [kept_eq, if_pos (here row member)]
        rw [readTuples_written holds.1, each]
      refine .inr ⟨allFit, _, congrArg some read', items.trans (all'.map _), fun keeps => ?_⟩
      have keeps' : ∀ row ∈ contents'.flatten, KeepsKeys schema keys row := fun row member =>
        keeps row (all'.mem_iff.mp member)
      obtain ⟨ordered, keepsWritten⟩ := settles.sorted sorted' keeps'
      rw [flatten_singleton] at keepsWritten
      exact ordered_back onColumns holds.2 here keepsWritten (ordered written mem_cons_self)
    · refine .inl ⟨allFit, fun result isResult => ?_⟩
      have unfit : ¬ ∀ row ∈ written, Fits schema row := fun all => allFit (fits.mp all)
      rw [if_neg unfit, Option.some.inj isResult, Pull.collect_ofList] at collected
      cases collected

include compared onColumns in
theorem kept_of_perm (positive : 0 < runCapacity) (reserved : runCapacity ≤ maxSize)
    (several : 2 ≤ mergeFanIn) {result : List Row} (valid : ∀ row ∈ rows, Valid schema row)
    (long : runCapacity ≤ rows.length)
    (isResult : init alg heaps schema keys maxSize runCapacity mergeFanIn (some (Pull.ofList rows))
      = some (Pull.ofList result))
    (perm : result.Perm rows) :
    ∀ row ∈ rows, kept schema row = some row := by
  rcases init_files alg heaps compared onColumns positive reserved several valid long with
    ⟨-, never⟩ | ⟨fits, result', isResult', perm', -⟩
  · exact absurd isResult (never result)
  · have same : result' = result := by
      have items := congrArg Pull.items (Option.some.inj (isResult'.symm.trans isResult))
      rwa [Pull.items_ofList, Pull.items_ofList] at items
    intro row member
    have image : row ∈ rows.map (back schema) := by
      rw [← perm'.mem_iff, same, perm.mem_iff]
      exact member
    obtain ⟨before, inRows, rfl⟩ := mem_map.mp image
    rw [kept_eq, if_pos (fits _ member)]
    exact congrArg some (back_back (valid before inRows) (fits before inRows))

/-- The rows come out as a permutation that is sorted by the keys. -/
def SortsRows (keys : List SortKeySpec) (rows : List Row) (out : Option (Pull Row)) : Prop :=
  ∃ result, out = some (Pull.ofList result) ∧ result.Perm rows ∧
    result.Pairwise fun a b => ∃ o, compareTupleBySortKeys a b keys = some o ∧ o ≠ .gt

/-- The external sort sorts its input exactly when room for a run can be reserved and no run is
written or the files change no row. -/
theorem sorts_iff {maxSize runCapacity mergeFanIn : Nat} {rows : List Row}
    (noDouble : ∀ col ∈ schema, col.type ≠ .double) (onColumns : OnColumns schema keys)
    (valid : ∀ row ∈ rows, Valid schema row) (positive : 1 ≤ runCapacity)
    (several : 2 ≤ mergeFanIn) :
    SortsRows keys rows
        (init alg heaps schema keys maxSize runCapacity mergeFanIn (some (Pull.ofList rows))) ↔
      runCapacity ≤ maxSize ∧
        (rows.length < runCapacity ∨ ∀ row ∈ rows, kept schema row = some row) := by
  have compared := compareTuples_compared onColumns noDouble
  have sortedBy {result : List Row} (perm : result.Perm rows)
      (ordered : Ordered (compareTuples keys) result) : result.Pairwise fun a b =>
        ∃ o, compareTupleBySortKeys a b keys = some o ∧ o ≠ .gt := by
    refine List.Pairwise.imp_of_mem (fun inA inB notAbove => ?_) ordered
    have validA := valid _ (perm.mem_iff.mp inA)
    have validB := valid _ (perm.mem_iff.mp inB)
    obtain ⟨o, defined⟩ := Option.isSome_iff_exists.mp (compared.defined validA validB)
    exact ⟨o, defined, fun above => notAbove (by rw [defined, above])⟩
  constructor
  · rintro ⟨result, isResult, perm, -⟩
    have reserved : runCapacity ≤ maxSize := by
      by_contra above
      rw [init, bind_some, if_pos (by omega)] at isResult
      cases isResult
    refine ⟨reserved, ?_⟩
    by_cases short : rows.length < runCapacity
    · exact .inl short
    · exact .inr (kept_of_perm alg heaps compared onColumns positive reserved several valid
        (by omega) isResult perm)
  · rintro ⟨reserved, holds⟩
    by_cases short : rows.length < runCapacity
    · obtain ⟨result, isResult, perm, ordered⟩ := init_short alg heaps compared reserved valid short
      exact ⟨result, isResult, perm, sortedBy perm ordered⟩
    · have unchanged := holds.resolve_left short
      obtain ⟨fits, same⟩ := allFit_of_kept unchanged
      rcases init_files alg heaps compared onColumns positive reserved several valid (by omega) with
        ⟨unfit, -⟩ | ⟨-, result, isResult, perm, ordered⟩
      · exact absurd fits unfit
      · rw [same] at perm
        refine ⟨result, isResult, perm, sortedBy perm (ordered fun row member => ?_)⟩
        have image := unchanged row member
        rw [kept_eq, if_pos (fits row member)] at image
        rw [KeepsKeys, Option.some.inj image]

/-- `max_size()` of a vector of tuples of 24 bytes. -/
def maxTuples : Nat := (2 ^ 63 - 1) / 24

def names : List Column := [⟨⟨"name", .varchar⟩, true, 0⟩]

def byName : List SortKeySpec := [⟨.column .single 0, true⟩]

theorem onColumns_byName : OnColumns names byName := by
  intro spec member
  rw [List.mem_singleton.mp member]
  exact ⟨0, rfl, by decide⟩

theorem sorts_iff_names :
    SortsRows byName [[.varchar [98]], [.null .varchar], [.varchar [97]]]
        (init inserting inserting names byName maxTuples 2 2
          (some (Pull.ofList [[.varchar [98]], [.null .varchar], [.varchar [97]]]))) ↔
      2 ≤ maxTuples ∧ ([[Value.varchar [98]], [.null .varchar], [.varchar [97]]].length < 2 ∨
        ∀ row ∈ [[Value.varchar [98]], [.null .varchar], [.varchar [97]]],
          kept names row = some row) :=
  sorts_iff inserting inserting (by decide) onColumns_byName (by decide) (by decide) (by decide)

theorem changes_long {s : List UInt8} (long : s.length = 2 ^ 32) {result : List Row}
    (isResult : init inserting inserting names byName maxTuples 1 2
      (some (Pull.ofList [[.varchar s]])) = some (Pull.ofList result)) :
      ¬ result.Perm [[.varchar s]] := by
  intro perm
  have noDouble : ∀ col ∈ names, col.type ≠ .double := by decide
  have compared := compareTuples_compared onColumns_byName noDouble
  have valid : ∀ row ∈ [[Value.varchar s]], Valid names row := by
    intro row member
    rw [List.mem_singleton.mp member]
    rfl
  have unchanged := kept_of_perm inserting inserting compared onColumns_byName (by decide)
    (by decide) (by decide) valid (Nat.le_refl 1) isResult perm _ mem_cons_self
  rw [kept_eq] at unchanged
  split at unchanged
  · have same : back names [Value.varchar s] = [.varchar []] := by
      simp [back, names, keptValue, Value.isNull, cut, long]
    rw [same] at unchanged
    cases unchanged
    cases long
  · cases unchanged

/-- Neither are such strings sorted, nor can a run of the largest capacity be reserved. -/
theorem not_sortsRows_long :
    ¬ SortsRows byName [[.varchar (List.replicate (2 ^ 32) 0)]]
        (init inserting inserting names byName maxTuples 1 2
          (some (Pull.ofList [[.varchar (List.replicate (2 ^ 32) 0)]]))) ∧
      ¬ SortsRows byName []
        (init inserting inserting names byName maxTuples (2 ^ 64 - 1) 8 (some (Pull.ofList []))) := by
  constructor
  · rintro ⟨result, isResult, perm, -⟩
    exact changes_long List.length_replicate isResult perm
  · rintro ⟨result, isResult, -, -⟩
    rw [init, bind_some, if_pos (by decide)] at isResult
    cases isResult

end Results

end GraniteDb.Execution.SortExecutor
