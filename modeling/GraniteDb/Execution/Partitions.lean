/- Temporary files split by the hash of a key text, and what each part reads back. -/

import GraniteDb.Execution.TupleFile
import GraniteDb.Lib.Batches

namespace GraniteDb.Execution.Partitions

open Common.Value Lib.Pull Lib.Batches Execution.TupleFile
open Recovery.WalRecords (Bytes)
open Access.HeapFile (Column)

def estimateValueSize : Value → Nat
  | .varchar s => 8 + s.length
  | _ => 8

def estimateTupleSize (row : Row) : Nat := 16 + (row.map estimateValueSize).sum

/-- The bytes counted for tuples; no file fills a counter of 64 bits. -/
def byteCount (rows : List Row) : Nat := (rows.map estimateTupleSize).sum

/-- Rows with the texts of their keys; `none` is an exception. -/
def entriesOf (keyOf : Row → Option Bytes) (rows : List Row) : Option (List (Bytes × Row)) :=
  rows.mapM fun row => (keyOf row).map fun text => (text, row)

/-- The hash of an entry's key, in the bits of a number of batches. -/
def batchNo (hash : Bytes → Nat) (nbatches : Nat) (entry : Bytes × Row) : Nat :=
  hash entry.1 &&& (nbatches - 1)

/-- The tuples of a file are written to the files of their batches. With each file, the bytes
counted for it. -/
def partitionFile (hash : Bytes → Nat) (nbatches : Nat) (schema : List Column)
    (keyOf : Row → Option Bytes) (allFile : Bytes) : Option (List (Bytes × Nat)) := do
  let rows ← (readTuples schema allFile).collect
  let entries ← entriesOf keyOf rows
  (List.range nbatches).mapM fun batch =>
    let own := (inBatch (batchNo hash nbatches) batch entries).map Prod.snd
    (writeTuples schema own).map fun file => (file, byteCount own)

section Entries

variable {schema : List Column} {keyOf : Row → Option Bytes} {rows : List Row}
  {entries : List (Bytes × Row)}

theorem entriesOf_iff : entriesOf keyOf rows = some entries ↔
    entries.map Prod.snd = rows ∧ ∀ entry ∈ entries, keyOf entry.2 = some entry.1 := by
  induction rows generalizing entries with
  | nil =>
    rw [entriesOf, List.mapM_nil, List.map_eq_nil_iff]
    constructor
    · intro none_
      cases none_
      exact ⟨rfl, by simp⟩
    · intro none_
      rw [none_.1]
      rfl
  | cons row rows ih =>
    simp only [entriesOf, List.mapM_cons, Option.bind_eq_bind, Option.bind_eq_some_iff] at ih ⊢
    constructor
    · intro parts
      obtain ⟨first, evaluated, tail, rest, same⟩ := parts
      cases same
      obtain ⟨text, value, rfl⟩ := Option.map_eq_some_iff.mp evaluated
      obtain ⟨rows_, texts⟩ := ih.mp rest
      refine ⟨by rw [List.map_cons, rows_], ?_⟩
      intro entry member
      rcases List.mem_cons.mp member with rfl | later
      · exact value
      · exact texts entry later
    · intro both
      cases entries with
      | nil => cases both.1
      | cons entry tail =>
        obtain ⟨rows_, texts⟩ := both
        rw [List.map_cons, List.cons.injEq] at rows_
        obtain ⟨rfl, tails⟩ := rows_
        have text := texts entry List.mem_cons_self
        refine ⟨entry, ?_, tail, ih.mpr ⟨tails, fun other member =>
          texts other (List.mem_cons_of_mem _ member)⟩, rfl⟩
        rw [text, Option.map_some]

theorem entriesOf_sublist {own : List (Bytes × Row)} (all : entriesOf keyOf rows = some entries)
    (sub : own.Sublist entries) : entriesOf keyOf (own.map Prod.snd) = some own :=
  entriesOf_iff.mpr ⟨rfl, fun entry member => (entriesOf_iff.mp all).2 entry (sub.subset member)⟩

def keptEntries (schema : List Column) (keyOf : Row → Option Bytes) (rows : List Row) :
    Option (List (Bytes × Row)) :=
  (rows.mapM (kept schema)).bind (entriesOf keyOf)

structure HoldsSide (schema : List Column) (keyOf : Row → Option Bytes) (file : Bytes)
    (entries : List (Bytes × Row)) : Prop where
  read : readTuples schema file = Pull.ofList (entries.map Prod.snd)
  keys : entriesOf keyOf (entries.map Prod.snd) = some entries

end Entries

section Files

variable {hash : Bytes → Nat} {schema : List Column} {keyOf : Row → Option Bytes}
  {allFile : Bytes} {rows : List Row} {entries : List (Bytes × Row)}

theorem partitionFile_ok {nbatches : Nat} (read : readTuples schema allFile = Pull.ofList rows)
    (intact : ∀ row ∈ rows, Intact schema row) (keys : entriesOf keyOf rows = some entries) :
    ∃ files, partitionFile hash nbatches schema keyOf allFile = some files ∧
      List.Forall₂ (fun file k => HoldsSide schema keyOf file.1
        (inBatch (batchNo hash nbatches) k entries)) files (List.range nbatches) := by
  have each (k : Nat) : ∃ file, writeTuples schema
        ((inBatch (batchNo hash nbatches) k entries).map Prod.snd) = some file ∧
      HoldsSide schema keyOf file (inBatch (batchNo hash nbatches) k entries) := by
    have sub : (inBatch (batchNo hash nbatches) k entries).Sublist entries := List.filter_sublist
    have own : ∀ row ∈ (inBatch (batchNo hash nbatches) k entries).map Prod.snd,
        Intact schema row := by
      intro row member
      apply intact
      rw [← (entriesOf_iff.mp keys).1]
      exact (sub.map Prod.snd).subset member
    obtain ⟨file, written⟩ := writeTuples_valid fun row member => (own row member).1
    exact ⟨file, written, readTuples_intact own written, entriesOf_sublist keys sub⟩
  have batches : ∀ ks : List Nat, ∃ files, (ks.mapM fun batch =>
      (writeTuples schema ((inBatch (batchNo hash nbatches) batch entries).map Prod.snd)).map
        fun file => (file, byteCount ((inBatch (batchNo hash nbatches) batch entries).map Prod.snd)))
        = some files ∧ List.Forall₂ (fun file k => HoldsSide schema keyOf file.1
          (inBatch (batchNo hash nbatches) k entries)) files ks := by
    intro ks
    induction ks with
    | nil => exact ⟨[], rfl, .nil⟩
    | cons k ks ih =>
      obtain ⟨files, all, hold⟩ := ih
      obtain ⟨file, written, holds⟩ := each k
      refine ⟨(file, byteCount ((inBatch (batchNo hash nbatches) k entries).map Prod.snd)) :: files,
        ?_, .cons holds hold⟩
      simp [written, all]
  obtain ⟨files, all, hold⟩ := batches (List.range nbatches)
  refine ⟨files, ?_, hold⟩
  simp only [partitionFile, read, Pull.collect_ofList, Option.bind_eq_bind, Option.bind_some, keys]
  exact all

theorem partitionFile_none {nbatches : Nat} {back : Option (List Row)}
    (read : (readTuples schema allFile).collect = back)
    (keys : back.bind (entriesOf keyOf) = none) :
    partitionFile hash nbatches schema keyOf allFile = none := by
  rw [partitionFile, read]
  cases back with
  | none => rfl
  | some rows =>
    rw [Option.bind_some] at keys
    simp only [Option.bind_eq_bind, Option.bind_some, keys, Option.bind_none]

theorem batchNo_lt (hash : Bytes → Nat) (i : Nat) (entry : Bytes × Row) :
    batchNo hash (2 ^ i) entry < 2 ^ i := by
  have pos := Nat.two_pow_pos i
  have le : batchNo hash (2 ^ i) entry ≤ 2 ^ i - 1 := Nat.and_le_right
  omega

end Files

end GraniteDb.Execution.Partitions
