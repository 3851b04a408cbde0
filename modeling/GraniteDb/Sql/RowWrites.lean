/- The UPDATE and DELETE statements: collect the matching tuples, then write them. -/

import GraniteDb.Storage.Table

namespace GraniteDb.Sql.RowWrites

open Common.Types Common.Value Execution.Expressions Storage.Table

/-- `BoundUpdateStatement`; the assigned values are already coerced. -/
structure BoundUpdateStatement where
  assignments : List (Nat × Value)
  predicate : Option Expression
  deriving DecidableEq

structure BoundDeleteStatement where
  predicate : Option Expression
  deriving DecidableEq

/-- The test of a tuple; `none` is an exception of the predicate. -/
def matchesPredicate (predicate : Option Expression) (row : Row) : Option Bool :=
  match predicate with
  | none => some true
  | some e => (e.evaluateRow row).map valueAsBool

def collectMatches (predicate : Option Expression) :
    List (RID × Row) → Option (List (RID × Row))
  | [] => some []
  | stored :: rest => do
    let isMatch ← matchesPredicate predicate stored.2
    let later ← collectMatches predicate rest
    return if isMatch then stored :: later else later

def applyAssignments (assignments : List (Nat × Value)) (row : Row) : Row :=
  assignments.foldl (fun row a => row.set a.1 a.2) row

def rowsMessage (verb : String) (n : Nat) : String :=
  verb ++ " " ++ toString n ++ " row" ++ (if n = 1 then "" else "s") ++ "."

/-- The exception of a predicate; its text is that of the expression. -/
def predicateFailure : String := "predicate evaluation failed"

variable (env : Environment) (table : Table)

/-- The loop of `ExecuteUpdate` over the collected updates. -/
def updateRows : List (RID × Row) → Nat → Action Nat
  | [], updated, s => (.ok updated, s)
  | (rid, new) :: rest, updated, s =>
    match table.updateTuple env rid new s with
    | (.error what, s) => (.error what, s)
    | (.ok newRid, s) => updateRows rest (if newRid.isSome then updated + 1 else updated) s

def executeUpdate (stmt : BoundUpdateStatement) : Action String := fun s =>
  match collectMatches stmt.predicate s.heap.scan with
  | none => (.error predicateFailure, s)
  | some matching =>
    match updateRows env table
        (matching.map fun e => (e.1, applyAssignments stmt.assignments e.2)) 0 s with
    | (.error what, s) => (.error what, s)
    | (.ok updated, s) => (.ok (rowsMessage "Updated" updated), s)

/-- The loop of `ExecuteDelete` over the collected RIDs. -/
def deleteRows : List RID → Nat → Action Nat
  | [], deleted, s => (.ok deleted, s)
  | rid :: rest, deleted, s =>
    match table.deleteTuple env rid s with
    | (.error what, s) => (.error what, s)
    | (.ok found, s) => deleteRows rest (if found then deleted + 1 else deleted) s

def executeDelete (stmt : BoundDeleteStatement) : Action String := fun s =>
  match collectMatches stmt.predicate s.heap.scan with
  | none => (.error predicateFailure, s)
  | some matching =>
    match deleteRows env table (matching.map Prod.fst) 0 s with
    | (.error what, s) => (.error what, s)
    | (.ok deleted, s) => (.ok (rowsMessage "Deleted" deleted), s)

end GraniteDb.Sql.RowWrites
