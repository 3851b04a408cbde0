/- The hash join over its batch files, and that budget and build side do not matter. -/

import GraniteDb.Execution.Operators
import GraniteDb.Execution.Partitions
import GraniteDb.Lib.Machine

namespace GraniteDb.Execution.HashJoin

open Common.Value Lib.Pull Lib.Machine Lib.Batches Execution.Expressions Execution.Operators
open Execution.TupleFile Execution.Partitions
open Recovery.WalRecords (Bytes)
open Access.HeapFile (Column)
open Option (bind_eq_bind bind_some bind_none)

structure HashJoinExecutor where
  leftSchema : List Column
  rightSchema : List Column
  leftKey : Expression
  rightKey : Expression
  buildLeftSide : Bool
  memoryBudgetBytes : Nat

namespace HashJoinExecutor

def buildSchema (e : HashJoinExecutor) : List Column :=
  if e.buildLeftSide then e.leftSchema else e.rightSchema

def probeSchema (e : HashJoinExecutor) : List Column :=
  if e.buildLeftSide then e.rightSchema else e.leftSchema

def buildKey (e : HashJoinExecutor) : Expression :=
  if e.buildLeftSide then e.leftKey else e.rightKey

def probeKey (e : HashJoinExecutor) : Expression :=
  if e.buildLeftSide then e.rightKey else e.leftKey

end HashJoinExecutor

/-- `EvaluateBuildKey` and `EvaluateProbeKey`; `none` is an exception. -/
def keyText (key : Expression) (row : Row) : Option Bytes :=
  (key.evaluateRow row).map serializeValueForHash

/-- `BatchFileInfo`, with the contents of the two files. -/
structure BatchFileInfo where
  buildFile : Bytes
  probeFile : Bytes
  buildBytes : Nat
  probeBytes : Nat
  deriving DecidableEq

/-- A pass of `PartitionInputsIntoBatches`. -/
def partitionPass (e : HashJoinExecutor) (hash : Bytes → Nat) (buildAll probeAll : Bytes)
    (nbatches : Nat) : Option (List BatchFileInfo) := do
  let build ← partitionFile hash nbatches e.buildSchema (keyText e.buildKey) buildAll
  let probe ← partitionFile hash nbatches e.probeSchema (keyText e.probeKey) probeAll
  some (List.zipWith (fun b p => ⟨b.1, p.1, b.2, p.2⟩) build probe)

def maxBuildBytes (files : List BatchFileInfo) : Nat :=
  files.foldl (fun most file => max most file.buildBytes) 0

/-- `PartitionInputsIntoBatches`, with the doublings that are left: ten lead from one batch to
the 1024 at which it stops. -/
def partitionInputsIntoBatches (e : HashJoinExecutor) (hash : Bytes → Nat)
    (buildAll probeAll : Bytes) : Nat → Nat → Option (List BatchFileInfo)
  | 0, nbatches => partitionPass e hash buildAll probeAll nbatches
  | doublings + 1, nbatches => do
    let files ← partitionPass e hash buildAll probeAll nbatches
    if maxBuildBytes files ≤ e.memoryBudgetBytes ∨ 1024 ≤ nbatches then some files
    else partitionInputsIntoBatches e hash buildAll probeAll doublings (nbatches * 2)

structure JoinState where
  /-- The batches from `current_batch_idx_` on. -/
  batchFiles : List BatchFileInfo
  hashTable : List (Bytes × Row)
  currentMatches : List Row
  currentMatchPos : Nat
  currentProbeInput : Option (Pull Row)
  currentProbeTuple : Row
  deriving DecidableEq

/-- `LoadNextBatch`; `none` is an exception. -/
def loadNextBatch (e : HashJoinExecutor) (s : JoinState) : Option (Bool × JoinState) :=
  let s := { s with
    hashTable := [], currentMatches := [], currentMatchPos := 0, currentProbeInput := none }
  match s.batchFiles with
  | [] => some (false, s)
  | batch :: later => do
    let rows ← (readTuples e.buildSchema batch.buildFile).collect
    let entries ← entriesOf (keyText e.buildKey) rows
    some (true, { s with
      batchFiles := later
      hashTable := entries
      currentProbeInput := some (readTuples e.probeSchema batch.probeFile) })

/-- `hash_table_.find`: the tuples of a key, as they were pushed. -/
def find (table : List (Bytes × Row)) (key : Bytes) : List Row :=
  (table.filter fun entry => entry.1 == key).map Prod.snd

def buildJoinedTuple (e : HashJoinExecutor) (build probe : Row) : Row :=
  if e.buildLeftSide then build ++ probe else probe ++ build

/-- A turn of the loops of `Next`: a match is returned, a probe tuple is read or the next batch
is loaded. -/
def next (e : HashJoinExecutor) (s : JoinState) : Turn JoinState Row :=
  match s.currentMatches[s.currentMatchPos]? with
  | some build =>
    .emit (buildJoinedTuple e build s.currentProbeTuple)
      { s with currentMatchPos := s.currentMatchPos + 1 }
  | none =>
    match s.currentProbeInput with
    | some .thrown => .fail
    | some (.item probe rest) =>
      match keyText e.probeKey probe with
      | none => .fail
      | some key =>
        let found := find s.hashTable key
        .go { s with
          currentProbeInput := some rest
          currentProbeTuple := probe
          currentMatches := found
          currentMatchPos := if found = [] then s.currentMatchPos else 0 }
    | _ =>
      match loadNextBatch e s with
      | none => .fail
      | some (false, _) => .stop
      | some (true, s) => .go s

/-- `Init`; `none` is an exception. -/
def init (e : HashJoinExecutor) (hash : Bytes → Nat) (left right : Pull Row) :
    Option JoinState := do
  let buildRows ← (if e.buildLeftSide then left else right).collect
  let buildAll ← writeTuples e.buildSchema buildRows
  let probeRows ← (if e.buildLeftSide then right else left).collect
  let probeAll ← writeTuples e.probeSchema probeRows
  let batchFiles ← partitionInputsIntoBatches e hash buildAll probeAll 10 1
  (loadNextBatch e ⟨batchFiles, [], [], 0, none, []⟩).map Prod.snd

def Outputs (e : HashJoinExecutor) (hash : Bytes → Nat) (left right : Pull Row) (p : Pull Row) :
    Prop :=
  match init e hash left right with
  | none => p = .thrown
  | some s => Yields (next e) s p

section Partitioning

def Holds (e : HashJoinExecutor) (batch : BatchFileInfo)
    (sides : List (Bytes × Row) × List (Bytes × Row)) : Prop :=
  HoldsSide e.buildSchema (keyText e.buildKey) batch.buildFile sides.1 ∧
    HoldsSide e.probeSchema (keyText e.probeKey) batch.probeFile sides.2

variable {hash : Bytes → Nat}

theorem partitionInputs_pass (e : HashJoinExecutor) (hash : Bytes → Nat)
    (buildAll probeAll : Bytes) (doublings i : Nat) :
    partitionInputsIntoBatches e hash buildAll probeAll doublings (2 ^ i) = none ∧
        (∃ j, partitionPass e hash buildAll probeAll (2 ^ j) = none) ∨
      ∃ j files, partitionInputsIntoBatches e hash buildAll probeAll doublings (2 ^ i) = some files ∧
        partitionPass e hash buildAll probeAll (2 ^ j) = some files := by
  induction doublings generalizing i with
  | zero =>
    cases pass : partitionPass e hash buildAll probeAll (2 ^ i) with
    | none => exact .inl ⟨pass, i, pass⟩
    | some files => exact .inr ⟨i, files, pass, pass⟩
  | succ doublings ih =>
    unfold partitionInputsIntoBatches
    cases pass : partitionPass e hash buildAll probeAll (2 ^ i) with
    | none => exact .inl ⟨rfl, i, pass⟩
    | some files =>
      simp only [bind_eq_bind, bind_some]
      split
      · exact .inr ⟨i, files, rfl, pass⟩
      · rw [← Nat.pow_succ]
        exact ih (i + 1)

end Partitioning

section Run

variable {e : HashJoinExecutor}

def batchOutput (e : HashJoinExecutor) (sides : List (Bytes × Row) × List (Bytes × Row)) :
    List Row :=
  joinOn (fun probe build => build.1 == probe.1)
    (fun probe build => buildJoinedTuple e build.2 probe.2) sides.2 sides.1

theorem yields_matches {s : JoinState} {p : Pull Row}
    (later : Yields (next e) { s with currentMatchPos := s.currentMatches.length } p) :
    ∀ (k : Nat), k ≤ s.currentMatches.length →
      Yields (next e) { s with currentMatchPos := k }
        ((Pull.ofList ((s.currentMatches.drop k).map fun build =>
          buildJoinedTuple e build s.currentProbeTuple)).append p) := by
  intro k inMatches
  obtain ⟨left, isLeft⟩ : ∃ left, left = s.currentMatches.length - k := ⟨_, rfl⟩
  induction left generalizing k with
  | zero =>
    have atEnd : k = s.currentMatches.length := by omega
    subst atEnd
    rw [List.drop_length]
    exact later
  | succ left ih =>
    have inside : k < s.currentMatches.length := by omega
    have rest := ih (k + 1) (by omega) (by omega)
    rw [List.drop_eq_getElem_cons inside, List.map_cons]
    refine .emit ?_ rest
    simp only [next, List.getElem?_eq_getElem inside]

theorem yields_batch {table probe : List (Bytes × Row)} {batches : List BatchFileInfo}
    {p : Pull Row} (keys : entriesOf (keyText e.probeKey) (probe.map Prod.snd) = some probe)
    (later : ∀ s : JoinState, s.batchFiles = batches → s.currentMatches[s.currentMatchPos]? = none →
      s.currentProbeInput = some .done → Yields (next e) s p) :
    ∀ s : JoinState, s.batchFiles = batches → s.hashTable = table →
      s.currentMatches[s.currentMatchPos]? = none →
      s.currentProbeInput = some (Pull.ofList (probe.map Prod.snd)) →
      Yields (next e) s ((Pull.ofList (batchOutput e (table, probe))).append p) := by
  induction probe with
  | nil =>
    intro s files _ empty input
    exact later s files empty input
  | cons first probe ih =>
    intro s files hasTable empty input
    obtain ⟨rows_, texts⟩ := entriesOf_iff.mp keys
    have text := texts first List.mem_cons_self
    have rest := ih (entriesOf_iff.mpr ⟨rfl, fun entry member =>
      texts entry (List.mem_cons_of_mem _ member)⟩)
    have output : batchOutput e (table, first :: probe) =
        ((find table first.1).map fun build => buildJoinedTuple e build first.2) ++
          batchOutput e (table, probe) := by
      simp only [batchOutput, joinOn, List.flatMap_cons, find, List.map_map, Function.comp_def]
    let s' : JoinState := { s with
      currentProbeInput := some (Pull.ofList (probe.map Prod.snd))
      currentProbeTuple := first.2
      currentMatches := find table first.1
      currentMatchPos := if find table first.1 = [] then s.currentMatchPos else 0 }
    have turn : next e s = .go s' := by
      rw [List.map_cons, Pull.ofList] at input
      simp only [next, empty, input, text, hasTable, s']
    refine .go turn ?_
    rw [output, Pull.append_ofList]
    have goesOn (k : Nat) (past : (find table first.1)[k]? = none) :
        Yields (next e) { s' with currentMatchPos := k }
          ((Pull.ofList (batchOutput e (table, probe))).append p) :=
      rest { s' with currentMatchPos := k } files hasTable past rfl
    by_cases nothing : find table first.1 = []
    · have here := goesOn s'.currentMatchPos (by rw [nothing]; rfl)
      rw [nothing]
      exact here
    · have start : s' = { s' with currentMatchPos := 0 } := by
        simp only [s', if_neg nothing]
      rw [start]
      exact yields_matches (s := s') (goesOn _ (List.getElem?_eq_none le_rfl)) 0 (Nat.zero_le _)

theorem loadNextBatch_holds {s : JoinState} {batch : BatchFileInfo} {later : List BatchFileInfo}
    {sides : List (Bytes × Row) × List (Bytes × Row)} (files : s.batchFiles = batch :: later)
    (holds : Holds e batch sides) :
    ∃ s', loadNextBatch e s = some (true, s') ∧ s'.batchFiles = later ∧
      s'.hashTable = sides.1 ∧ s'.currentMatches[s'.currentMatchPos]? = none ∧
      s'.currentProbeInput = some (Pull.ofList (sides.2.map Prod.snd)) := by
  refine ⟨{ s with
    batchFiles := later
    hashTable := sides.1
    currentMatches := []
    currentMatchPos := 0
    currentProbeInput := some (Pull.ofList (sides.2.map Prod.snd)) }, ?_, rfl, rfl, rfl, rfl⟩
  simp only [loadNextBatch, files, holds.1.read, holds.2.read, Pull.collect_ofList, holds.1.keys,
    bind_eq_bind, bind_some]

theorem yields_batches {batches : List BatchFileInfo}
    {all : List (List (Bytes × Row) × List (Bytes × Row))}
    (hold : List.Forall₂ (Holds e) batches all) :
    ∀ s : JoinState, s.batchFiles = batches → s.currentMatches[s.currentMatchPos]? = none →
      s.currentProbeInput = some .done ∨ s.currentProbeInput = none →
      Yields (next e) s (Pull.ofList (all.flatMap (batchOutput e))) := by
  induction hold with
  | nil =>
    intro s files empty input
    refine .stop ?_
    rcases input with input | input
    · simp only [next, empty, input, loadNextBatch, files]
    · simp only [next, empty, input, loadNextBatch, files]
  | cons holds hold ih =>
    intro s files empty input
    obtain ⟨s', loaded, later, table, empty', probe⟩ := loadNextBatch_holds files holds
    have turn : next e s = .go s' := by
      rcases input with input | input
      · simp only [next, empty, input, loaded]
      · simp only [next, empty, input, loaded]
    refine .go turn ?_
    have rest := yields_batch holds.2.keys (fun s files empty input =>
      ih s files empty (.inl input)) s' later table empty' probe
    rw [List.flatMap_cons, Pull.ofList_append]
    exact rest

end Run

section Output

variable {e : HashJoinExecutor} {hash : Bytes → Nat}

theorem partitionPass_ok {nbatches : Nat} {buildAll probeAll : Bytes}
    {buildRows probeRows : List Row} {build probe : List (Bytes × Row)}
    (readBuild : readTuples e.buildSchema buildAll = Pull.ofList buildRows)
    (readProbe : readTuples e.probeSchema probeAll = Pull.ofList probeRows)
    (intactBuild : ∀ row ∈ buildRows, Intact e.buildSchema row)
    (intactProbe : ∀ row ∈ probeRows, Intact e.probeSchema row)
    (buildKeys : entriesOf (keyText e.buildKey) buildRows = some build)
    (probeKeys : entriesOf (keyText e.probeKey) probeRows = some probe) :
    ∃ files, partitionPass e hash buildAll probeAll nbatches = some files ∧
      List.Forall₂ (Holds e) files ((List.range nbatches).map fun k =>
        (inBatch (batchNo hash nbatches) k build, inBatch (batchNo hash nbatches) k probe)) := by
  obtain ⟨buildFiles, builtAll, buildHold⟩ :=
    @partitionFile_ok hash _ _ _ _ _ nbatches readBuild intactBuild buildKeys
  obtain ⟨probeFiles, probedAll, probeHold⟩ :=
    @partitionFile_ok hash _ _ _ _ _ nbatches readProbe intactProbe probeKeys
  refine ⟨List.zipWith (fun b p => ⟨b.1, p.1, b.2, p.2⟩) buildFiles probeFiles, ?_, ?_⟩
  · simp only [partitionPass, builtAll, probedAll, bind_eq_bind, bind_some]
  · clear builtAll probedAll
    generalize List.range nbatches = ks at buildHold probeHold ⊢
    induction buildHold generalizing probeFiles with
    | nil => exact .nil
    | cons holdsBuild _ ih =>
      cases probeHold with
      | cons holdsProbe probeHold =>
        exact .cons ⟨holdsBuild, holdsProbe⟩ (ih _ probeHold)

theorem outputs_eq {left right : List Row} (validLeft : ∀ row ∈ left, Valid e.leftSchema row)
    (validRight : ∀ row ∈ right, Valid e.rightSchema row) :
    ∃ i, Outputs e hash (Pull.ofList left) (Pull.ofList right)
      (match keptEntries e.buildSchema (keyText e.buildKey) (if e.buildLeftSide then left else right),
          keptEntries e.probeSchema (keyText e.probeKey) (if e.buildLeftSide then right else left) with
        | some build, some probe => Pull.ofList ((List.range (2 ^ i)).flatMap fun k =>
          batchOutput e (inBatch (batchNo hash (2 ^ i)) k build,
            inBatch (batchNo hash (2 ^ i)) k probe))
        | _, _ => .thrown) := by
  obtain ⟨buildRows, isBuild⟩ : ∃ rows, rows = if e.buildLeftSide then left else right := ⟨_, rfl⟩
  obtain ⟨probeRows, isProbe⟩ : ∃ rows, rows = if e.buildLeftSide then right else left := ⟨_, rfl⟩
  rw [← isBuild, ← isProbe]
  have validBuild : ∀ row ∈ buildRows, Valid e.buildSchema row := by
    rw [isBuild, HashJoinExecutor.buildSchema]
    split
    · exact validLeft
    · exact validRight
  have validProbe : ∀ row ∈ probeRows, Valid e.probeSchema row := by
    rw [isProbe, HashJoinExecutor.probeSchema]
    split
    · exact validRight
    · exact validLeft
  obtain ⟨buildAll, writtenBuild⟩ := writeTuples_valid validBuild
  obtain ⟨probeAll, writtenProbe⟩ := writeTuples_valid validProbe
  have readBuild := readTuples_written writtenBuild
  have readProbe := readTuples_written writtenProbe
  have begin_ : init e hash (Pull.ofList left) (Pull.ofList right) =
      (partitionInputsIntoBatches e hash buildAll probeAll 10 (2 ^ 0)).bind fun files =>
        (loadNextBatch e ⟨files, [], [], 0, none, []⟩).map Prod.snd := by
    have collectBuild : (if e.buildLeftSide then Pull.ofList left else Pull.ofList right).collect =
        some buildRows := by
      rw [isBuild]
      split
      · exact Pull.collect_ofList _
      · exact Pull.collect_ofList _
    have collectProbe : (if e.buildLeftSide then Pull.ofList right else Pull.ofList left).collect =
        some probeRows := by
      rw [isProbe]
      split
      · exact Pull.collect_ofList _
      · exact Pull.collect_ofList _
    simp only [init, collectBuild, collectProbe, bind_eq_bind, bind_some,
      writtenBuild, writtenProbe, Nat.pow_zero]
  have fails (refused : ∀ n, partitionPass e hash buildAll probeAll n = none) :
      Outputs e hash (Pull.ofList left) (Pull.ofList right) .thrown := by
    rcases partitionInputs_pass e hash buildAll probeAll 10 0 with ⟨none_, -⟩ | ⟨j, files, -, pass⟩
    · rw [Outputs, begin_, none_]
      rfl
    · rw [refused] at pass
      cases pass
  have collected (schema : List Column) (rows : List Row) :
      ((Pull.ofList rows).mapM (kept schema)).collect = rows.mapM (kept schema) :=
    Pull.collect_mapM_ofList _ _
  cases build_ : keptEntries e.buildSchema (keyText e.buildKey) buildRows with
  | none =>
    refine ⟨0, fails fun n => ?_⟩
    have side := @partitionFile_none hash _ _ _ n _
      (by rw [readBuild, collected]) build_
    simp only [partitionPass, side, bind_eq_bind, bind_none]
  | some build =>
    cases probe_ : keptEntries e.probeSchema (keyText e.probeKey) probeRows with
    | none =>
      refine ⟨0, fails fun n => ?_⟩
      have side := @partitionFile_none hash _ _ _ n _
        (by rw [readProbe, collected]) probe_
      simp only [partitionPass, side, bind_eq_bind, bind_none]
      cases partitionFile hash n e.buildSchema (keyText e.buildKey) buildAll <;> rfl
    | some probe =>
      obtain ⟨buildBack, backBuild, buildKeys⟩ := Option.bind_eq_some_iff.mp build_
      obtain ⟨probeBack, backProbe, probeKeys⟩ := Option.bind_eq_some_iff.mp probe_
      rw [Pull.mapM_ofList_some backBuild] at readBuild
      rw [Pull.mapM_ofList_some backProbe] at readProbe
      have passes (n : Nat) := @partitionPass_ok _ hash n _ _ _ _ _ _ readBuild readProbe
        (intact_of_kept validBuild backBuild) (intact_of_kept validProbe backProbe) buildKeys
        probeKeys
      rcases partitionInputs_pass e hash buildAll probeAll 10 0 with
        ⟨-, j, pass⟩ | ⟨i, files, whole, pass⟩
      · obtain ⟨files, passed, -⟩ := passes (2 ^ j)
        rw [pass] at passed
        cases passed
      · obtain ⟨files', passed, hold⟩ := passes (2 ^ i)
        rw [pass] at passed
        cases passed
        refine ⟨i, ?_⟩
        have run := yields_batches hold ⟨files, [], [], 0, none, []⟩ rfl rfl (.inr rfl)
        rw [List.flatMap_map] at run
        rw [Outputs, begin_, whole, bind_some]
        -- `Init` has loaded the first batch already.
        have some_ : ∃ k ks, List.range (2 ^ i) = k :: ks := by
          have pos := Nat.two_pow_pos i
          cases range : List.range (2 ^ i) with
          | nil =>
            rw [List.range_eq_nil] at range
            omega
          | cons k ks => exact ⟨k, ks, rfl⟩
        obtain ⟨k, ks, range⟩ := some_
        rw [range, List.map_cons] at hold
        cases hold with
        | cons holds hold =>
          obtain ⟨s', loaded, -⟩ := loadNextBatch_holds
            (s := ⟨_ :: _, [], [], 0, none, []⟩) rfl holds
          rw [loaded, Option.map_some]
          exact run.of_go (by simp only [next, List.getElem?_nil, loaded])

theorem Outputs.unique {left right p q : Pull Row} (first : Outputs e hash left right p)
    (second : Outputs e hash left right q) : p = q := by
  unfold Outputs at first second
  split at first
  · rename_i fails
    simp only [fails] at second
    rw [first, second]
  · rename_i s starts
    simp only [starts] at second
    exact first.unique second

def textPairs (l r : List (Bytes × Row)) : List Row :=
  joinOn (fun a b => a.1 == b.1) (fun a b => a.2 ++ b.2) l r

theorem batches_perm {batch : Bytes × Row → Nat} {n : Nat}
    (together : ∀ a b, a.1 = b.1 → batch a = batch b) (inRange : ∀ a, batch a < n)
    (l r : List (Bytes × Row)) :
    ((List.range n).flatMap fun k =>
      batchOutput e (inBatch batch k (if e.buildLeftSide then l else r),
        inBatch batch k (if e.buildLeftSide then r else l))).Perm (textPairs l r) := by
  have whole := @joinOn_batches _ _ _ (fun probe build : Bytes × Row => build.1 == probe.1)
    (fun probe build : Bytes × Row => buildJoinedTuple e build.2 probe.2)
    (if e.buildLeftSide then r else l) (if e.buildLeftSide then l else r) _ _ _
    (fun a _ b _ same => together a b (beq_iff_eq.mp same).symm) fun a _ => inRange a
  refine whole.trans ?_
  cases side : e.buildLeftSide with
  | true =>
    simp only [if_true, buildJoinedTuple, side]
    exact joinOn_comm _ _ r l
  | false =>
    have flipped : ∀ a ∈ l, ∀ b ∈ r, (b.1 == a.1) = (a.1 == b.1) := fun a _ b _ =>
      Bool.beq_comm
    simp only [Bool.false_eq_true, if_false, buildJoinedTuple, side]
    rw [textPairs, joinOn_congr flipped fun _ _ _ _ _ => rfl]

theorem batchNo_eq (hash : Bytes → Nat) (i : Nat) (entry : Bytes × Row) :
    batchNo hash (2 ^ i) entry = hash entry.1 % 2 ^ i :=
  Nat.and_two_pow_sub_one_eq_mod _ _

theorem probeBatches_perm {partitioning : Partitioning} (some_ : 0 < partitioning.batches)
    (buildLeftSide : Bool) (l r : List (Bytes × Row)) :
    (probeBatches partitioning buildLeftSide (if buildLeftSide then l else r)
      (if buildLeftSide then r else l)).Perm (textPairs l r) :=
  @batches_perm ⟨[], [], .column .single 0, .column .single 0, buildLeftSide, 0⟩
    (fun entry => partitioning.hash entry.1 % partitioning.batches) _
    (fun _ _ same => by rw [same]) (fun _ => Nat.mod_lt _ some_) l r

theorem outputs_hashJoin {left right keptLeft keptRight : List Row}
    (validLeft : ∀ row ∈ left, Valid e.leftSchema row)
    (validRight : ∀ row ∈ right, Valid e.rightSchema row)
    (leftBack : left.mapM (kept e.leftSchema) = some keptLeft)
    (rightBack : right.mapM (kept e.rightSchema) = some keptRight) :
    ∃ i, Outputs e hash (Pull.ofList left) (Pull.ofList right)
      (hashJoin ⟨hash, 2 ^ i⟩ (Pull.ofList keptLeft) (Pull.ofList keptRight) e.leftKey e.rightKey
        e.buildLeftSide) := by
  obtain ⟨i, outputs⟩ := @outputs_eq _ hash _ _ validLeft validRight
  have leftEntries : keptEntries e.leftSchema (keyText e.leftKey) left =
      keyed e.leftKey keptLeft := by
    simp [keptEntries, leftBack, entriesOf, keyed, keyText, Function.comp_def]
  have rightEntries : keptEntries e.rightSchema (keyText e.rightKey) right =
      keyed e.rightKey keptRight := by
    simp [keptEntries, rightBack, entriesOf, keyed, keyText, Function.comp_def]
  refine ⟨i, ?_⟩
  have sameBatch : batchNo hash (2 ^ i) = fun entry => hash entry.1 % 2 ^ i :=
    funext (batchNo_eq hash i)
  simp only [hashJoin, Pull.drain, Pull.collect_ofList]
  cases side : e.buildLeftSide with
  | true =>
    simp only [HashJoinExecutor.buildSchema, HashJoinExecutor.probeSchema,
      HashJoinExecutor.buildKey, HashJoinExecutor.probeKey, side, if_true, leftEntries,
      rightEntries, sameBatch] at outputs
    cases keyedLeft : keyed e.leftKey keptLeft with
    | none => simpa only [keyedLeft] using outputs
    | some l =>
      cases keyedRight : keyed e.rightKey keptRight with
      | none => simpa only [keyedLeft, keyedRight] using outputs
      | some r =>
        simp only [keyedLeft, keyedRight, batchOutput, buildJoinedTuple, side] at outputs
        exact outputs
  | false =>
    simp only [HashJoinExecutor.buildSchema, HashJoinExecutor.probeSchema,
      HashJoinExecutor.buildKey, HashJoinExecutor.probeKey, side, Bool.false_eq_true, if_false,
      leftEntries, rightEntries, sameBatch] at outputs
    cases keyedLeft : keyed e.leftKey keptLeft with
    | none =>
      cases keyedRight : keyed e.rightKey keptRight with
      | none => simpa only [keyedLeft, keyedRight] using outputs
      | some r => simpa only [keyedLeft, keyedRight] using outputs
    | some l =>
      cases keyedRight : keyed e.rightKey keptRight with
      | none => simpa only [keyedLeft, keyedRight] using outputs
      | some r =>
        simp only [keyedLeft, keyedRight, batchOutput, buildJoinedTuple, side] at outputs
        exact outputs

theorem outputs_textPairs (hash : Bytes → Nat) {left right : List Row}
    (validLeft : ∀ row ∈ left, Valid e.leftSchema row)
    (validRight : ∀ row ∈ right, Valid e.rightSchema row) :
    ∃ p, Outputs e hash (Pull.ofList left) (Pull.ofList right) p ∧
      p.multiset = match keptEntries e.leftSchema (keyText e.leftKey) left,
          keptEntries e.rightSchema (keyText e.rightKey) right with
        | some l, some r => some (textPairs l r : Multiset Row)
        | _, _ => none := by
  obtain ⟨i, outputs⟩ := @outputs_eq _ hash _ _ validLeft validRight
  refine ⟨_, outputs, ?_⟩
  have inRange (entry : Bytes × Row) : batchNo hash (2 ^ i) entry < 2 ^ i := by
    rw [batchNo_eq]
    exact Nat.mod_lt _ (Nat.two_pow_pos i)
  have batches := @batches_perm e _ _ (fun a b same => by rw [batchNo, batchNo, same]) inRange
  unfold HashJoinExecutor.buildSchema HashJoinExecutor.probeSchema HashJoinExecutor.buildKey
    HashJoinExecutor.probeKey
  cases side : e.buildLeftSide with
  | true =>
    simp only [side, if_true] at batches ⊢
    cases keptEntries e.leftSchema (keyText e.leftKey) left with
    | none => rfl
    | some l =>
      cases keptEntries e.rightSchema (keyText e.rightKey) right with
      | none => rfl
      | some r =>
        rw [Pull.multiset_ofList]
        exact congrArg some (Multiset.coe_eq_coe.mpr (batches l r))
  | false =>
    simp only [side, Bool.false_eq_true, if_false] at batches ⊢
    cases keptEntries e.leftSchema (keyText e.leftKey) left with
    | none =>
      cases keptEntries e.rightSchema (keyText e.rightKey) right with
      | none => rfl
      | some r => rfl
    | some l =>
      cases keptEntries e.rightSchema (keyText e.rightKey) right with
      | none => rfl
      | some r =>
        rw [Pull.multiset_ofList]
        exact congrArg some (Multiset.coe_eq_coe.mpr (batches l r))

/-- The same join with another memory budget and build side, under another hash function,
yields the same rows. -/
theorem budget_and_side_free {left right : List Row}
    (validLeft : ∀ row ∈ left, Valid e.leftSchema row)
    (validRight : ∀ row ∈ right, Valid e.rightSchema row) (hash hash' : Bytes → Nat)
    (budget budget' : Nat) (side side' : Bool) :
    ∃ p p', Outputs { e with buildLeftSide := side, memoryBudgetBytes := budget } hash
        (Pull.ofList left) (Pull.ofList right) p ∧
      Outputs { e with buildLeftSide := side', memoryBudgetBytes := budget' } hash'
        (Pull.ofList left) (Pull.ofList right) p' ∧
      p.multiset = p'.multiset := by
  obtain ⟨p, outputs, rows⟩ := outputs_textPairs
    (e := { e with buildLeftSide := side, memoryBudgetBytes := budget }) hash validLeft validRight
  obtain ⟨p', outputs', rows'⟩ := outputs_textPairs
    (e := { e with buildLeftSide := side', memoryBudgetBytes := budget' }) hash' validLeft
    validRight
  exact ⟨p, p', outputs, outputs', rows.trans rows'.symm⟩

/-- Three rows on the left and two on the right, one of which has two partners: the left side is
built without any memory, the right one in 4096 bytes. -/
theorem budget_and_side_free_twoPairs : ∃ p p',
    Outputs ⟨[⟨⟨"a", .int32⟩, true, 0⟩], [⟨⟨"b", .int32⟩, false, 0⟩], .column .single 0,
      .column .single 0, true, 0⟩ (List.foldl (fun n byte => 31 * n + byte.toNat) 7)
      (.ofList [[.int32 7], [.int32 8], [.int32 7]]) (.ofList [[.int32 9], [.int32 7]]) p ∧
    Outputs ⟨[⟨⟨"a", .int32⟩, true, 0⟩], [⟨⟨"b", .int32⟩, false, 0⟩], .column .single 0,
      .column .single 0, false, 4096⟩ (fun _ => 0)
      (.ofList [[.int32 7], [.int32 8], [.int32 7]]) (.ofList [[.int32 9], [.int32 7]]) p' ∧
    p.multiset = p'.multiset :=
  @budget_and_side_free ⟨[⟨⟨"a", .int32⟩, true, 0⟩], [⟨⟨"b", .int32⟩, false, 0⟩],
    .column .single 0, .column .single 0, true, 0⟩ _ _ (by decide) (by decide)
    (List.foldl (fun n byte => 31 * n + byte.toNat) 7) (fun _ => 0) 0 4096 true false

end Output

end GraniteDb.Execution.HashJoin
