/- The merge join over inner inputs that are marked and restored. -/

import GraniteDb.Execution.Operators
import GraniteDb.Execution.TupleFile
import GraniteDb.Execution.ValueOrder
import GraniteDb.Lib.Batches
import GraniteDb.Lib.Machine

namespace GraniteDb.Execution.MergeJoin

open Common.Value Lib.Pull Lib.Machine Lib.Batches Execution.Expressions Execution.Operators
open Execution.TupleFile Execution.ValueOrder
open Recovery.WalRecords (Bytes leNat)
open Access.HeapFile (Column)
open Option (bind_some map_some)
open List (mem_cons_self mem_cons mem_cons_of_mem pairwise_cons length_drop tail_cons)

/-- `ReadTupleFromStream` at a position, with the position after the tuple; `none` is an
exception. -/
def readTupleAt (schema : List Column) (file : Bytes) (pos : Nat) : Option (Option (Row × Nat)) :=
  let stream := file.drop pos
  if stream.length < 4 then some none
  else
    let len := leNat (stream.take 4)
    let rest := stream.drop 4
    if rest.length < len then none
    else (deserialize schema (rest.take len)).map fun row => some (row, pos + (4 + len))

/-- The executors that can be marked and restored, after their `Init`. -/
inductive InnerInput
  | sortInMemory (inMemoryOutput : List Row) (pos markPos : Nat)
  /-- A `SortExecutor` with its final run: the stream stands at a position or has failed. -/
  | sortSpilled (schema : List Column) (finalRun : Bytes) (stream : Option Nat)
      (currentStreamPos markStreamPos : Nat)
  | materialize (tuples : List Row) (pos markPos : Nat)
  deriving DecidableEq

namespace InnerInput

/-- `Next`: a tuple or the end; `none` is an exception. -/
def next : InnerInput → Option (Option Row × InnerInput)
  | sortInMemory output pos mark =>
    match output[pos]? with
    | none => some (none, sortInMemory output pos mark)
    | some row => some (some row, sortInMemory output (pos + 1) mark)
  | sortSpilled schema run none current mark =>
    some (none, sortSpilled schema run none current mark)
  | sortSpilled schema run (some pos) current mark =>
    (readTupleAt schema run pos).map fun read =>
      match read with
      | none => (none, sortSpilled schema run none current mark)
      | some (row, pos) => (some row, sortSpilled schema run (some pos) pos mark)
  | materialize tuples pos mark =>
    match tuples[pos]? with
    | none => some (none, materialize tuples pos mark)
    | some row => some (some row, materialize tuples (pos + 1) mark)

def markPosition : InnerInput → InnerInput
  | sortInMemory output pos _ => sortInMemory output pos pos
  | sortSpilled schema run stream current _ => sortSpilled schema run stream current current
  | materialize tuples pos _ => materialize tuples pos pos

/-- `RestorePosition`: a stream that has failed is cleared. -/
def restorePosition : InnerInput → InnerInput
  | sortInMemory output _ mark => sortInMemory output mark mark
  | sortSpilled schema run _ _ mark => sortSpilled schema run (some mark) mark mark
  | materialize tuples _ mark => materialize tuples mark mark

inductive Opened : InnerInput → List Row → Prop
  | sortInMemory (rows : List Row) : Opened (.sortInMemory rows 0 0) rows
  | sortSpilled {schema : List Column} {run : Bytes} {rows : List Row}
      (reads : readTuples schema run = .ofList rows) :
      Opened (.sortSpilled schema run (some 0) 0 0) rows
  | materialize (rows : List Row) : Opened (.materialize rows 0 0) rows

end InnerInput

inductive State
  | needCompare
  | emitMatches
  | advanceOuterDuplicates
  | exhausted
  deriving DecidableEq

/-- `MergeJoinExecutor` between two calls. A current tuple is there when its flag is set. -/
structure MergeJoinState where
  leftChild : Pull Row
  rightChild : InnerInput
  currentLeftTuple : Option Row
  currentRightTuple : Option Row
  currentMatchKey : Value
  markedRightTuple : Row
  state : State
  deriving DecidableEq

/-- `Next` of the outer input; `none` is an exception. -/
def nextLeft (s : MergeJoinState) : Option MergeJoinState :=
  match s.leftChild with
  | .done => some { s with currentLeftTuple := none }
  | .thrown => none
  | .item l rest => some { s with currentLeftTuple := some l, leftChild := rest }

/-- `Next` of the inner input; `none` is an exception. -/
def nextRight (s : MergeJoinState) : Option MergeJoinState :=
  s.rightChild.next.map fun read => { s with currentRightTuple := read.1, rightChild := read.2 }

def needCompare (leftKey rightKey : Expression) (s : MergeJoinState) : Turn MergeJoinState Row :=
  match s.currentLeftTuple, s.currentRightTuple with
  | some l, some r =>
    match leftKey.evaluateRow l, rightKey.evaluateRow r with
    | some key, some v =>
      match compareValues key v with
      | none => .fail
      | some .lt => (nextLeft s).elim .fail .go
      | some .gt => (nextRight s).elim .fail .go
      | some .eq =>
        .go { s with
          currentMatchKey := key
          markedRightTuple := r
          rightChild := s.rightChild.markPosition
          state := .emitMatches }
    | _, _ => .fail
  | _, _ => .go { s with state := .exhausted }

/-- The state after a match was emitted and the next inner tuple was read. -/
def afterMatch (rightKey : Expression) (s : MergeJoinState) : Option MergeJoinState :=
  match s.currentRightTuple with
  | none => some { s with state := .advanceOuterDuplicates }
  | some r =>
    ((rightKey.evaluateRow r).bind fun v => compareValues v s.currentMatchKey).map fun o =>
      if o = .eq then s else { s with state := .advanceOuterDuplicates }

def emitMatches (rightKey : Expression) (s : MergeJoinState) : Turn MergeJoinState Row :=
  match s.currentLeftTuple, s.currentRightTuple with
  | some l, some r =>
    ((nextRight s).bind (afterMatch rightKey)).elim .fail (.emit (l ++ r))
  | _, _ => .go { s with state := .exhausted }

def advanceOuterDuplicates (leftKey : Expression) (s : MergeJoinState) : Turn MergeJoinState Row :=
  match nextLeft s with
  | none => .fail
  | some s =>
    match s.currentLeftTuple with
    | none => .go { s with state := .needCompare }
    | some l =>
      match (leftKey.evaluateRow l).bind fun v => compareValues v s.currentMatchKey with
      | none => .fail
      | some .eq =>
        .go { s with
          currentRightTuple := some s.markedRightTuple
          rightChild := s.rightChild.restorePosition
          state := .emitMatches }
      | some _ => .go { s with state := .needCompare }

/-- A turn of the loop of `Next`. -/
def next (leftKey rightKey : Expression) (s : MergeJoinState) : Turn MergeJoinState Row :=
  match s.state with
  | .exhausted => .stop
  | .needCompare => needCompare leftKey rightKey s
  | .emitMatches => emitMatches rightKey s
  | .advanceOuterDuplicates => advanceOuterDuplicates leftKey s

/-- `Init`, over an inner input that was opened. -/
def init (left : Pull Row) (right : InnerInput) : Option MergeJoinState :=
  (nextLeft ⟨left, right, none, none, .null .invalid, [], .needCompare⟩).bind nextRight

def Outputs (leftKey rightKey : Expression) (left : Pull Row) (right : InnerInput) (p : Pull Row) :
    Prop :=
  match init left right with
  | none => p = .thrown
  | some s => Yields (next leftKey rightKey) s p

section Inputs

theorem readLoop_fuel {schema : List Column} {fuel fuel' : Nat} {stream : Bytes}
    (enough : stream.length ≤ fuel) (enough' : stream.length ≤ fuel') :
    readLoop schema fuel stream = readLoop schema fuel' stream := by
  have short (fuel : Nat) (less : stream.length < 4) : readLoop schema fuel stream = .done := by
    cases fuel with
    | zero => rfl
    | succ fuel => rw [readLoop, if_pos less]
  induction fuel generalizing fuel' stream with
  | zero => rw [short 0 (by omega), short fuel' (by omega)]
  | succ fuel ih =>
    by_cases less : stream.length < 4
    · rw [short _ less, short _ less]
    · cases fuel' with
      | zero => omega
      | succ fuel' =>
        rw [readLoop, readLoop, if_neg less, if_neg less]
        simp only
        split
        · rfl
        · cases deserialize schema ((stream.drop 4).take (leNat (stream.take 4))) with
          | none => rfl
          | some row =>
            have left : ((stream.drop 4).drop (leNat (stream.take 4))).length ≤ fuel := by
              rw [length_drop, length_drop]
              omega
            have left' : ((stream.drop 4).drop (leNat (stream.take 4))).length ≤ fuel' := by
              rw [length_drop, length_drop]
              omega
            simp only
            rw [ih left left' fun fuel less => by
              cases fuel with
              | zero => rfl
              | succ fuel => rw [readLoop, if_pos less]]

theorem readTuples_drop (schema : List Column) (file : Bytes) (pos : Nat) :
    readTuples schema (file.drop pos) =
      match readTupleAt schema file pos with
      | none => .thrown
      | some none => .done
      | some (some (row, after)) => .item row (readTuples schema (file.drop after)) := by
  have dropped (len : Nat) : file.drop (pos + (4 + len)) = ((file.drop pos).drop 4).drop len := by
    rw [List.drop_drop, List.drop_drop]
  unfold readTupleAt
  generalize file.drop pos = stream at dropped
  by_cases less : stream.length < 4
  · simp only [if_pos less]
    rw [readTuples]
    cases stream.length with
    | zero => rfl
    | succ n => rw [readLoop, if_pos less]
  · obtain ⟨n, size⟩ : ∃ n, stream.length = n + 1 := ⟨stream.length - 1, by omega⟩
    rw [readTuples, size, readLoop]
    simp only [if_neg less]
    by_cases missing : (stream.drop 4).length < leNat (stream.take 4)
    · rw [if_pos missing, if_pos missing]
    · rw [if_neg missing, if_neg missing]
      cases deserialize schema ((stream.drop 4).take (leNat (stream.take 4))) with
      | none => rfl
      | some row =>
        simp only [map_some, dropped]
        rw [readTuples]
        congr 1
        apply readLoop_fuel _ le_rfl
        rw [length_drop, length_drop]
        omega

inductive Shows : InnerInput → List Row → List Row → Prop
  | sortInMemory (output : List Row) (pos mark : Nat) :
      Shows (.sortInMemory output pos mark) (output.drop pos) (output.drop mark)
  | sortSpilled {schema : List Column} {run : Bytes} {stream : Option Nat} {current mark : Nat}
      {rest marked : List Row} (reads : readTuples schema (run.drop current) = .ofList rest)
      (atMark : readTuples schema (run.drop mark) = .ofList marked)
      (stands : stream = some current ∨ stream = none ∧ rest = []) :
      Shows (.sortSpilled schema run stream current mark) rest marked
  | materialize (tuples : List Row) (pos mark : Nat) :
      Shows (.materialize tuples pos mark) (tuples.drop pos) (tuples.drop mark)

variable {inner : InnerInput} {rest marked : List Row}

theorem Shows.of_opened (opened : inner.Opened rest) : Shows inner rest rest := by
  cases opened with
  | sortInMemory => exact .sortInMemory rest 0 0
  | sortSpilled reads => exact .sortSpilled reads reads (.inl rfl)
  | materialize => exact .materialize rest 0 0

private theorem drop_next {l rest : List Row} {row : Row} {pos : Nat}
    (shape : l.drop pos = row :: rest) : l[pos]? = some row ∧ l.drop (pos + 1) = rest := by
  constructor
  · rw [← List.head?_drop, shape, List.head?_cons]
  · rw [← List.tail_drop, shape, tail_cons]

theorem Shows.next_cons {row : Row} (shows_ : Shows inner (row :: rest) marked) :
    ∃ inner', inner.next = some (some row, inner') ∧ Shows inner' rest marked := by
  generalize shape : row :: rest = rows at shows_
  cases shows_ with
  | sortInMemory output pos mark =>
    obtain ⟨here, later⟩ := drop_next shape.symm
    refine ⟨.sortInMemory output (pos + 1) mark, by simp only [InnerInput.next, here], ?_⟩
    rw [← later]
    exact .sortInMemory output (pos + 1) mark
  | sortSpilled reads atMark stands =>
    subst shape
    rcases stands with rfl | ⟨-, none_⟩
    · rename_i current _
      rw [readTuples_drop] at reads
      split at reads
      · cases reads
      · cases reads
      · rename_i first after read
        rw [Pull.ofList, Pull.item.injEq] at reads
        obtain ⟨rfl, later⟩ := reads
        exact ⟨_, by simp only [InnerInput.next, read, map_some],
          .sortSpilled later atMark (.inl rfl)⟩
    · cases none_
  | materialize tuples pos mark =>
    obtain ⟨here, later⟩ := drop_next shape.symm
    refine ⟨.materialize tuples (pos + 1) mark, by simp only [InnerInput.next, here], ?_⟩
    rw [← later]
    exact .materialize tuples (pos + 1) mark

theorem Shows.next_nil (shows_ : Shows inner [] marked) :
    ∃ inner', inner.next = some (none, inner') ∧ Shows inner' [] marked := by
  generalize shape : ([] : List Row) = rows at shows_
  cases shows_ with
  | sortInMemory output pos mark =>
    have past : output[pos]? = none := List.getElem?_eq_none (List.drop_eq_nil_iff.mp shape.symm)
    exact ⟨.sortInMemory output pos mark, by simp only [InnerInput.next, past],
      .sortInMemory output pos mark⟩
  | sortSpilled reads atMark stands =>
    subst shape
    rcases stands with rfl | ⟨rfl, -⟩
    · have ends := reads
      rw [readTuples_drop] at ends
      split at ends
      · cases ends
      · rename_i read
        exact ⟨_, by simp only [InnerInput.next, read, map_some],
          .sortSpilled reads atMark (.inr ⟨rfl, rfl⟩)⟩
      · cases ends
    · exact ⟨_, rfl, .sortSpilled reads atMark (.inr ⟨rfl, rfl⟩)⟩
  | materialize tuples pos mark =>
    have past : tuples[pos]? = none := List.getElem?_eq_none (List.drop_eq_nil_iff.mp shape.symm)
    exact ⟨.materialize tuples pos mark, by simp only [InnerInput.next, past],
      .materialize tuples pos mark⟩

theorem Shows.markPosition (shows_ : Shows inner rest marked) :
    Shows inner.markPosition rest rest := by
  cases shows_ with
  | sortInMemory output pos mark => exact .sortInMemory output pos pos
  | sortSpilled reads _ stands => exact .sortSpilled reads reads stands
  | materialize tuples pos mark => exact .materialize tuples pos pos

theorem Shows.restorePosition (shows_ : Shows inner rest marked) :
    Shows inner.restorePosition marked marked := by
  cases shows_ with
  | sortInMemory output pos mark => exact .sortInMemory output mark mark
  | sortSpilled _ atMark _ => exact .sortSpilled atMark atMark (.inl rfl)
  | materialize tuples pos mark => exact .materialize tuples mark mark

end Inputs

section Merging

variable {i j : Nat} {left right : List Row}

def columnRank (i : Nat) (row : Row) : Rank := seenRank (columnValue i row)

structure RankedKeys (i j : Nat) (left right : List Row) : Prop where
  leftValue : ∀ l ∈ left, l[i]? = some (columnValue i l)
  rightValue : ∀ r ∈ right, r[j]? = some (columnValue j r)
  leftLeft : ∀ l ∈ left, ∀ l' ∈ left, compareValues (columnValue i l) (columnValue i l') =
    some (compare (columnRank i l) (columnRank i l'))
  leftRight : ∀ l ∈ left, ∀ r ∈ right, compareValues (columnValue i l) (columnValue j r) =
    some (compare (columnRank i l) (columnRank j r))
  rightLeft : ∀ r ∈ right, ∀ l ∈ left, compareValues (columnValue j r) (columnValue i l) =
    some (compare (columnRank j r) (columnRank i l))

def sameRank (i j : Nat) (l r : Row) : Bool := columnRank i l = columnRank j r

/-- The rows of the inner input from the current tuple on, and those from after the mark. -/
def RightIs (s : MergeJoinState) (rows marked : List Row) : Prop :=
  match s.currentRightTuple with
  | none => rows = [] ∧ Shows s.rightChild [] marked
  | some r => ∃ rest, rows = r :: rest ∧ Shows s.rightChild rest marked

variable {rest marked : List Row} {s : MergeJoinState} {l : Row}

theorem nextRight_eq (shows_ : Shows s.rightChild rest marked) : ∃ inner,
      nextRight s = some { s with currentRightTuple := rest.head?, rightChild := inner } ∧
      Shows inner rest.tail marked := by
  cases rest with
  | nil =>
    obtain ⟨inner, read, later⟩ := shows_.next_nil
    exact ⟨inner, by rw [nextRight, read]; rfl, later⟩
  | cons row rest =>
    obtain ⟨inner, read, later⟩ := shows_.next_cons
    exact ⟨inner, by rw [nextRight, read]; rfl, later⟩

theorem rightIs_tail {inner : InnerInput} (shows_ : Shows inner rest.tail marked) :
    RightIs { s with currentRightTuple := rest.head?, rightChild := inner } rest marked := by
  cases rest with
  | nil => exact ⟨rfl, shows_⟩
  | cons row rest => exact ⟨rest, rfl, shows_⟩

theorem RightIs.nil {s : MergeJoinState} {marked : List Row} (rightIs : RightIs s [] marked) :
    s.currentRightTuple = none := by
  unfold RightIs at rightIs
  split at rightIs
  · assumption
  · obtain ⟨_, shape, _⟩ := rightIs
    cases shape

theorem RightIs.cons {s : MergeJoinState} {r : Row} {rest marked : List Row}
    (rightIs : RightIs s (r :: rest) marked) :
    s.currentRightTuple = some r ∧ Shows s.rightChild rest marked := by
  unfold RightIs at rightIs
  split at rightIs
  · cases rightIs.1
  · obtain ⟨_, shape, shows_⟩ := rightIs
    cases shape
    exact ⟨by assumption, shows_⟩

theorem RightIs.restored (rightIs : RightIs s rest marked) :
    Shows s.rightChild.restorePosition marked marked := by
  unfold RightIs at rightIs
  split at rightIs
  · exact rightIs.2.restorePosition
  · obtain ⟨_, _, shows_⟩ := rightIs
    exact shows_.restorePosition

theorem nextLeft_eq (child : s.leftChild = .ofList rest) :
    nextLeft s = some { s with currentLeftTuple := rest.head?, leftChild := .ofList rest.tail } := by
  cases rest with
  | nil =>
    rw [nextLeft, child, Pull.ofList]
    simp only [List.head?_nil, List.tail_nil, ← child]
    rw [child, Pull.ofList]
  | cons l rest =>
    rw [nextLeft, child]
    rfl

theorem yields_group (keys : RankedKeys i j left right) {key : Row} {group after : List Row}
    {p : Pull Row} (inLeft : key ∈ left) (sub : group ++ after ⊆ right)
    (same : ∀ g ∈ group, columnRank j g = columnRank i key)
    (above : ∀ a ∈ after, columnRank i key < columnRank j a) :
    ∀ s : MergeJoinState, s.state = .emitMatches → s.currentLeftTuple = some l →
      s.currentMatchKey = columnValue i key → group ≠ [] → RightIs s (group ++ after) marked →
      (∀ s' : MergeJoinState, s'.state = .advanceOuterDuplicates → s'.leftChild = s.leftChild →
        s'.currentMatchKey = s.currentMatchKey → s'.markedRightTuple = s.markedRightTuple →
        RightIs s' after marked → Yields (next (.column .single i) (.column .single j)) s' p) →
      Yields (next (.column .single i) (.column .single j)) s
        ((Pull.ofList (group.map (l ++ ·))).append p) := by
  induction group with
  | nil =>
    intro s _ _ _ some_
    exact (some_ rfl).elim
  | cons g group ih =>
    intro s state current matchKey _ rightIs later
    rw [List.cons_append] at rightIs sub
    obtain ⟨isRight, shows_⟩ := rightIs.cons
    obtain ⟨inner, read, tail⟩ := nextRight_eq shows_
    let s' : MergeJoinState := { s with
      currentRightTuple := (group ++ after).head?, rightChild := inner }
    have standing : RightIs s' (group ++ after) marked := rightIs_tail tail
    have emits : next (.column .single i) (.column .single j) s =
        (afterMatch (.column .single j) s').elim .fail (.emit (l ++ g)) := by
      simp only [next, state, emitMatches, current, isRight, read, bind_some, s']
    rw [List.map_cons, Pull.ofList, Pull.append]
    -- The next inner tuple decides whether the group goes on.
    have compared (r : Row) (member : r ∈ group ++ after) :
        (Expression.column .single j).evaluateRow r = some (columnValue j r) ∧
          compareValues (columnValue j r) s'.currentMatchKey =
            some (compare (columnRank j r) (columnRank i key)) := by
      have inRight : r ∈ right := sub (mem_cons_of_mem _ member)
      refine ⟨keys.rightValue r inRight, ?_⟩
      rw [show s'.currentMatchKey = columnValue i key from matchKey]
      exact keys.rightLeft r inRight key inLeft
    cases group with
    | cons g' group =>
      obtain ⟨value, compares⟩ := compared g' mem_cons_self
      have equal := compare_eq_iff_eq.mpr (same g' (mem_cons_of_mem _ mem_cons_self))
      have goesOn : afterMatch (.column .single j) s' = some s' := by
        have head : s'.currentRightTuple = some g' := rfl
        simp only [afterMatch, head, value, bind_some, compares, equal, map_some,
          if_true]
      rw [goesOn] at emits
      refine .emit emits ?_
      exact ih (fun _ member => sub (mem_cons_of_mem _ member))
        (fun _ member => same _ (mem_cons_of_mem _ member)) s' state current matchKey
        (List.cons_ne_nil _ _) standing later
    | nil =>
      have ends : afterMatch (.column .single j) s' =
          some { s' with state := .advanceOuterDuplicates } := by
        cases after with
        | nil => rfl
        | cons a after =>
          obtain ⟨value, compares⟩ := compared a mem_cons_self
          have greater := compare_gt_iff_gt.mpr (above a mem_cons_self)
          have head : s'.currentRightTuple = some a := rfl
          simp only [afterMatch, head, value, bind_some, compares, greater,
            map_some, reduceCtorEq, if_false]
      rw [ends] at emits
      exact .emit emits (later _ rfl rfl rfl rfl standing)

def Rising (i : Nat) (rows : List Row) : Prop :=
  rows.Pairwise fun a b => columnRank i a ≤ columnRank i b

private def Compares (i j : Nat) (right outer : List Row) : Prop :=
  ∀ (inner marked : List Row) (s : MergeJoinState), inner ⊆ right → Rising j inner →
    s.state = .needCompare → s.currentLeftTuple = outer.head? →
    s.leftChild = .ofList outer.tail → RightIs s inner marked →
    Yields (next (.column .single i) (.column .single j)) s
      (.ofList (joinOn (sameRank i j) (· ++ ·) outer inner))

/-- From the end of a group on, the join yields the pairs that match, of those from the group on. -/
private def Advances (i j : Nat) (left right outer : List Row) : Prop :=
  ∀ (key g : Row) (group after marked : List Row) (s : MergeJoinState), key ∈ left →
    g :: group ++ after ⊆ right → marked = group ++ after →
    (∀ r ∈ g :: group, columnRank j r = columnRank i key) →
    (∀ r ∈ after, columnRank i key < columnRank j r) → Rising j after →
    (∀ l ∈ outer, columnRank i key ≤ columnRank i l) → s.state = .advanceOuterDuplicates →
    s.leftChild = .ofList outer → s.currentMatchKey = columnValue i key →
    s.markedRightTuple = g → RightIs s after marked →
    Yields (next (.column .single i) (.column .single j)) s
      (.ofList (joinOn (sameRank i j) (· ++ ·) outer (g :: group ++ after)))

theorem group_split {r : Row} (rising : Rising j (r :: rest)) :
    ∃ group after, rest = group ++ after ∧
      (∀ b ∈ r :: group, columnRank j b = columnRank j r) ∧
      (∀ b ∈ after, columnRank j r < columnRank j b) ∧ Rising j after := by
  obtain ⟨above, rising⟩ := pairwise_cons.mp rising
  clear * - above rising
  induction rest with
  | nil => exact ⟨[], [], rfl, by simp, nofun, .nil⟩
  | cons b rest ih =>
    obtain ⟨aboveB, later⟩ := pairwise_cons.mp rising
    have least := above b mem_cons_self
    by_cases same : columnRank j b = columnRank j r
    · obtain ⟨group, after, rfl, equal, greater, risingAfter⟩ :=
        ih (fun c member => above c (mem_cons_of_mem _ member)) later
      refine ⟨b :: group, after, rfl, ?_, greater, risingAfter⟩
      intro c member
      rcases mem_cons.mp member with rfl | member
      · rfl
      · rcases mem_cons.mp member with rfl | member
        · exact same
        · exact equal c (mem_cons_of_mem _ member)
    · refine ⟨[], b :: rest, rfl, by simp, ?_, rising⟩
      intro c member
      have first : columnRank j r < columnRank j b := lt_of_le_of_ne least (Ne.symm same)
      rcases mem_cons.mp member with rfl | member
      · exact first
      · exact lt_of_lt_of_le first (aboveB c member)

section

variable (keys : RankedKeys i j left right)

include keys

private theorem compares_of {outer : List Row}
    (rising : Rising i (l :: outer)) (among : l :: outer ⊆ left)
    (compares : Compares i j right outer) (advances : Advances i j left right outer) :
    Compares i j right (l :: outer) := by
  obtain ⟨above, -⟩ := pairwise_cons.mp rising
  have inLeft : l ∈ left := among mem_cons_self
  intro inner
  induction inner with
  | nil =>
    intro marked s _ _ state _ _ rightIs
    have nothing : joinOn (sameRank i j) (· ++ ·) (l :: outer) ([] : List Row) = [] := by
      simp [joinOn]
    rw [nothing]
    have ends : next (.column .single i) (.column .single j) s =
        .go { s with state := .exhausted } := by
      simp only [next, state, needCompare, rightIs.nil]
      split
      · rename_i none_
        cases none_
      · rfl
    exact .go ends (.stop rfl)
  | cons r rest ih =>
    intro marked s sub risingInner state current child rightIs
    obtain ⟨aboveR, risingRest⟩ := pairwise_cons.mp risingInner
    have inRight : r ∈ right := sub mem_cons_self
    obtain ⟨isRight, shows_⟩ := rightIs.cons
    have leftKey : (Expression.column .single i).evaluateRow l = some (columnValue i l) :=
      keys.leftValue l inLeft
    have rightKey : (Expression.column .single j).evaluateRow r = some (columnValue j r) :=
      keys.rightValue r inRight
    have turn : needCompare (.column .single i) (.column .single j) s =
        next (.column .single i) (.column .single j) s := by rw [next, state]
    have compared := keys.leftRight l inLeft r inRight
    rcases lt_trichotomy (columnRank i l) (columnRank j r) with less | same | greater
    · -- No inner row is left for the outer row.
      rw [compare_lt_iff_lt.mpr less] at compared
      have apart (b : Row) (member : b ∈ r :: rest) : sameRank i j l b = false := by
        have later : columnRank j r ≤ columnRank j b := by
          rcases mem_cons.mp member with rfl | member
          · exact le_rfl
          · exact aboveR b member
        exact decide_eq_false (ne_of_lt (lt_of_lt_of_le less later))
      rw [joinOn_skip_left _ apart]
      have steps : next (.column .single i) (.column .single j) s =
          .go { s with currentLeftTuple := outer.head?, leftChild := .ofList outer.tail } := by
        rw [← turn]
        simp only [needCompare, current, List.head?_cons, isRight, leftKey, rightKey, compared,
          nextLeft_eq child, tail_cons, Option.elim_some]
      exact .go steps (compares (r :: rest) marked _ sub risingInner state rfl rfl rightIs)
    · -- The group of the outer row starts here, and the inner input is marked behind its first.
      rw [compare_eq_iff_eq.mpr same] at compared
      obtain ⟨group, after, rfl, equal, greater, risingAfter⟩ := group_split risingInner
      rw [← same] at equal greater
      have apart (b : Row) (member : b ∈ after) : sameRank i j l b = false :=
        decide_eq_false (ne_of_lt (greater b member))
      have within (b : Row) (member : b ∈ r :: group) : sameRank i j l b = true :=
        decide_eq_true (equal b member).symm
      rw [← List.cons_append, joinOn_group _ within apart, Pull.ofList_append]
      have marks : next (.column .single i) (.column .single j) s =
          .go { s with
            currentMatchKey := columnValue i l
            markedRightTuple := r
            rightChild := s.rightChild.markPosition
            state := .emitMatches } := by
        rw [← turn]
        simp only [needCompare, current, List.head?_cons, isRight, leftKey, rightKey, compared]
      have standing : RightIs { s with
          currentMatchKey := columnValue i l
          markedRightTuple := r
          rightChild := s.rightChild.markPosition
          state := .emitMatches } (r :: group ++ after) (group ++ after) := by
        simp only [RightIs, isRight]
        exact ⟨_, rfl, shows_.markPosition⟩
      refine .go marks (yields_group keys inLeft sub equal greater _ rfl current rfl
        (List.cons_ne_nil _ _) standing ?_)
      intro s' state' child' key' marked' rightIs'
      exact advances l r group after _ s' inLeft sub rfl equal greater risingAfter above state'
        (child'.trans child) key' marked' rightIs'
    · -- The inner row is below all outer rows that are left.
      rw [compare_gt_iff_gt.mpr greater] at compared
      have apart (a : Row) (member : a ∈ l :: outer) (b : Row) (first : b ∈ [r]) :
          sameRank i j a b = false := by
        obtain rfl := List.mem_singleton.mp first
        have later : columnRank i l ≤ columnRank i a := by
          rcases mem_cons.mp member with rfl | member
          · exact le_rfl
          · exact above a member
        exact decide_eq_false (ne_of_gt (lt_of_lt_of_le greater later))
      rw [show r :: rest = [r] ++ rest from rfl, joinOn_skip_right _ apart]
      obtain ⟨input, read, tail⟩ := nextRight_eq shows_
      have steps : next (.column .single i) (.column .single j) s =
          .go { s with currentRightTuple := rest.head?, rightChild := input } := by
        rw [← turn]
        simp only [needCompare, current, List.head?_cons, isRight, leftKey, rightKey, compared,
          read, Option.elim_some]
      exact .go steps (ih marked _ (fun _ member => sub (mem_cons_of_mem _ member))
        risingRest state current child (rightIs_tail tail))

private theorem advances_of {outer : List Row}
    (rising : Rising i (l :: outer)) (among : l :: outer ⊆ left)
    (compares : Compares i j right (l :: outer)) (advances : Advances i j left right outer) :
    Advances i j left right (l :: outer) := by
  obtain ⟨above, -⟩ := pairwise_cons.mp rising
  have inLeft : l ∈ left := among mem_cons_self
  intro key g group after marked s inKey sub atMark equal greater risingAfter least state child
    matchKey markedTuple rightIs
  have step := nextLeft_eq child
  have leftKey : (Expression.column .single i).evaluateRow l = some (columnValue i l) :=
    keys.leftValue l inLeft
  have compared := keys.leftLeft l inLeft key inKey
  rcases lt_or_eq_of_le (least l mem_cons_self) with beyond | same
  · -- The outer row is above the group, so the inner input is not restored.
    rw [compare_gt_iff_gt.mpr beyond] at compared
    have apart (a : Row) (member : a ∈ l :: outer) (b : Row) (inGroup : b ∈ g :: group) :
        sameRank i j a b = false := by
      have later : columnRank i l ≤ columnRank i a := by
        rcases mem_cons.mp member with rfl | member
        · exact le_rfl
        · exact above a member
      apply decide_eq_false
      rw [equal b inGroup]
      exact ne_of_gt (lt_of_lt_of_le beyond later)
    rw [joinOn_skip_right _ apart]
    have steps : next (.column .single i) (.column .single j) s =
        .go { s with
          currentLeftTuple := some l
          leftChild := .ofList outer
          state := .needCompare } := by
      simp only [next, state, advanceOuterDuplicates, step, List.head?_cons, tail_cons,
        leftKey, bind_some, matchKey, compared]
    refine .go steps (compares after marked _ ?_ risingAfter rfl rfl rfl rightIs)
    exact fun _ member => sub (List.mem_append_right _ member)
  · -- The outer row has the key of the group, which is gone through again.
    rw [compare_eq_iff_eq.mpr same.symm] at compared
    have apart (b : Row) (member : b ∈ after) : sameRank i j l b = false :=
      decide_eq_false (ne_of_lt (same ▸ greater b member))
    have within (b : Row) (member : b ∈ g :: group) : sameRank i j l b = true :=
      decide_eq_true (same ▸ (equal b member).symm)
    rw [joinOn_group _ within apart, Pull.ofList_append]
    have restores : next (.column .single i) (.column .single j) s =
        .go { s with
          currentLeftTuple := some l
          leftChild := .ofList outer
          currentRightTuple := some g
          rightChild := s.rightChild.restorePosition
          state := .emitMatches } := by
      simp only [next, state, advanceOuterDuplicates, step, List.head?_cons, tail_cons,
        leftKey, bind_some, matchKey, compared, markedTuple]
    have standing : RightIs { s with
        currentLeftTuple := some l
        leftChild := .ofList outer
        currentRightTuple := some g
        rightChild := s.rightChild.restorePosition
        state := .emitMatches } (g :: group ++ after) marked := ⟨marked, by rw [atMark]; rfl,
          rightIs.restored⟩
    refine .go restores (yields_group keys inKey sub equal greater _ rfl rfl matchKey
      (List.cons_ne_nil _ _) standing ?_)
    intro s' state' child' key' marked' rightIs'
    exact advances key g group after marked s' inKey sub atMark equal greater risingAfter
      (fun a member => least a (mem_cons_of_mem _ member)) state' child' (key'.trans matchKey)
      (marked'.trans markedTuple) rightIs'

private theorem yields_pairs :
    ∀ outer : List Row, outer ⊆ left → Rising i outer →
      Compares i j right outer ∧ Advances i j left right outer := by
  intro outer
  induction outer with
  | nil =>
    intro _ _
    have compares : Compares i j right [] := by
      intro inner marked s _ _ state current _ _
      have ends : next (.column .single i) (.column .single j) s =
          .go { s with state := .exhausted } := by
        simp only [next, state, needCompare, current, List.head?_nil]
      exact .go ends (.stop rfl)
    refine ⟨compares, ?_⟩
    intro key g group after marked s _ sub _ _ _ risingAfter _ state child _ _ rightIs
    have ends : next (.column .single i) (.column .single j) s =
        .go { s with
          currentLeftTuple := none
          leftChild := .ofList []
          state := .needCompare } := by
      simp only [next, state, advanceOuterDuplicates, nextLeft_eq child, List.head?_nil,
        List.tail_nil]
    exact .go ends (compares after marked _
      (fun _ member => sub (List.mem_append_right _ member)) risingAfter rfl rfl rfl rightIs)
  | cons l outer ih =>
    intro among rising
    obtain ⟨compares, advances⟩ := ih (fun _ member => among (mem_cons_of_mem _ member))
      (pairwise_cons.mp rising).2
    have here := compares_of keys rising among compares advances
    exact ⟨here, advances_of keys rising among here advances⟩

theorem outputs_pairs {input : InnerInput}
    (risingLeft : Rising i left) (risingRight : Rising j right) (opened : input.Opened right) :
    Outputs (.column .single i) (.column .single j) (.ofList left) input
      (.ofList (joinOn (sameRank i j) (· ++ ·) left right)) := by
  obtain ⟨compares, -⟩ := yields_pairs keys left (List.Subset.refl _) risingLeft
  let fetched : MergeJoinState :=
    ⟨.ofList left.tail, input, left.head?, none, .null .invalid, [], .needCompare⟩
  obtain ⟨inner, read, tail⟩ := nextRight_eq (s := fetched) (Shows.of_opened opened)
  have started : init (.ofList left) input =
      some { fetched with currentRightTuple := right.head?, rightChild := inner } := by
    rw [init, nextLeft_eq rfl, bind_some]
    exact read
  rw [Outputs, started]
  exact compares right right _ (List.Subset.refl _) risingRight rfl rfl rfl
    (rightIs_tail (s := fetched) tail)

end

end Merging

section Agreement

variable {i j : Nat} {left right : List Row}

def Present (i : Nat) (row : Row) : Prop := ∃ v, row[i]? = some v ∧ v.isNull = false

def HasKey (i : Nat) (row : Row) : Prop := Present i row ∧ isNaN (columnValue i row) = false

def SortedBy (i : Nat) (rows : List Row) : Prop := rows.Pairwise fun a b =>
  ∃ o, compareTupleBySortKeys a b [⟨.column .single i, true⟩] = some o ∧ o ≠ .gt

theorem HasKey.eq {row : Row} (has : HasKey i row) : row[i]? = some (columnValue i row) ∧
    (columnValue i row).isNull = false ∧ isNaN (columnValue i row) = false := by
  obtain ⟨⟨v, value, present⟩, number⟩ := has
  have same : columnValue i row = v := by rw [columnValue, value, Option.getD_some]
  rw [same] at number ⊢
  exact ⟨value, present, number⟩

theorem sorted_pair {a b : Row} {o : Ordering} (hasA : HasKey i a) (hasB : HasKey i b)
    (compared : compareTupleBySortKeys a b [⟨.column .single i, true⟩] = some o) (le : o ≠ .gt) :
    kind (columnValue i a) = kind (columnValue i b) ∧ columnRank i a ≤ columnRank i b := by
  obtain ⟨valueA, presentA, numberA⟩ := hasA.eq
  obtain ⟨valueB, presentB, numberB⟩ := hasB.eq
  have evaluatedA : (Expression.column .single i).evaluateRow a = some (columnValue i a) := valueA
  have evaluatedB : (Expression.column .single i).evaluateRow b = some (columnValue i b) := valueB
  have nulls : compareValuesWithNulls (columnValue i a) (columnValue i b) =
      compareValues (columnValue i a) (columnValue i b) := by
    simp [compareValuesWithNulls, presentA, presentB]
  simp only [compareTupleBySortKeys, evaluatedA, evaluatedB, nulls, Option.bind_eq_bind,
    bind_some] at compared
  cases result : compareValues (columnValue i a) (columnValue i b) with
  | none =>
    rw [result] at compared
    cases compared
  | some o' =>
    obtain ⟨-, kinds, isCompare⟩ := (compareValues_iff numberA numberB).mp result
    refine ⟨kinds, ?_⟩
    have notGreater : o' ≠ .gt := by
      rintro rfl
      rw [result, bind_some] at compared
      cases compared
      exact le rfl
    rw [isCompare] at notGreater
    exact not_lt.mp fun greater => notGreater (compare_gt_iff_gt.mpr greater)

theorem sorted_rows {rows : List Row} (has : ∀ row ∈ rows, HasKey i row)
    (sorted : SortedBy i rows) : Rising i rows ∧
      ∀ a ∈ rows, ∀ b ∈ rows, kind (columnValue i a) = kind (columnValue i b) := by
  induction rows with
  | nil => exact ⟨.nil, nofun⟩
  | cons row rows ih =>
    obtain ⟨first, later⟩ := pairwise_cons.mp sorted
    have here := has row mem_cons_self
    have there (b : Row) (member : b ∈ rows) := has b (mem_cons_of_mem _ member)
    obtain ⟨rising, kinds⟩ := ih there later
    have pair (b : Row) (member : b ∈ rows) :
        kind (columnValue i row) = kind (columnValue i b) ∧
          columnRank i row ≤ columnRank i b := by
      obtain ⟨o, compared, le⟩ := first b member
      exact sorted_pair here (there b member) compared le
    refine ⟨pairwise_cons.mpr ⟨fun b member => (pair b member).2, rising⟩, ?_⟩
    intro a inA b inB
    rcases mem_cons.mp inA with rfl | laterA
    · rcases mem_cons.mp inB with rfl | laterB
      · rfl
      · exact (pair b laterB).1
    · rcases mem_cons.mp inB with rfl | laterB
      · exact (pair a laterA).1.symm
      · exact kinds a laterA b laterB

theorem tested {l r : Row} (hasL : HasKey i l) (hasR : HasKey j r) :
    (Expression.comparison .eq (.column .left i) (.column .right j)).evaluate (some l) (some r) =
      (compareValues (columnValue i l) (columnValue j r)).map
        fun o => .boolean (ComparisonType.eq.holds o) := by
  obtain ⟨valueL, presentL, -⟩ := hasL.eq
  obtain ⟨valueR, presentR, -⟩ := hasR.eq
  simp [Expression.evaluate, valueL, valueR, evaluateComparison, presentL, presentR]

theorem nestedLoopJoin_pairs (hasLeft : ∀ l ∈ left, HasKey i l) (hasRight : ∀ r ∈ right, HasKey j r)
    (kinds : ∀ l ∈ left, ∀ r ∈ right, kind (columnValue i l) = kind (columnValue j r)) :
    nestedLoopJoin (.ofList left) (.ofList right)
        (.comparison .eq (.column .left i) (.column .right j)) =
      .ofList (joinOn (sameRank i j) (· ++ ·) left right) := by
  apply Pull.bind_ofList
  intro l inLeft
  rw [Pull.filter_ofList, Pull.map_ofList]
  intro r inRight
  obtain ⟨-, presentL, numberL⟩ := (hasLeft l inLeft).eq
  obtain ⟨-, -, numberR⟩ := (hasRight r inRight).eq
  rw [tested (hasLeft l inLeft) (hasRight r inRight),
    compareValues_ranks presentL numberL numberR (kinds l inLeft r inRight), sameRank]
  show some (ComparisonType.eq.holds (compare (columnRank i l) (columnRank j r))) = _
  congr 1
  rcases lt_trichotomy (columnRank i l) (columnRank j r) with less | same | greater
  · rw [compare_lt_iff_lt.mpr less, decide_eq_false (ne_of_lt less)]
    rfl
  · rw [compare_eq_iff_eq.mpr same, decide_eq_true same]
    rfl
  · rw [compare_gt_iff_gt.mpr greater, decide_eq_false (ne_of_gt greater)]
    rfl

theorem throws_both {input : InnerInput} {l r : Row} (hasL : HasKey i l) (hasR : HasKey j r)
    (kinds : kind (columnValue i l) ≠ kind (columnValue j r))
    (opened : input.Opened (r :: right)) :
    Outputs (.column .single i) (.column .single j) (.ofList (l :: left)) input .thrown ∧
      nestedLoopJoin (.ofList (l :: left)) (.ofList (r :: right))
        (.comparison .eq (.column .left i) (.column .right j)) = .thrown := by
  obtain ⟨valueL, -, numberL⟩ := hasL.eq
  obtain ⟨valueR, -, numberR⟩ := hasR.eq
  have evaluatedL : (Expression.column .single i).evaluateRow l = some (columnValue i l) := valueL
  have evaluatedR : (Expression.column .single j).evaluateRow r = some (columnValue j r) := valueR
  have fails : compareValues (columnValue i l) (columnValue j r) = none := by
    rw [Option.eq_none_iff_forall_ne_some]
    intro o compared
    exact kinds ((compareValues_iff numberL numberR).mp compared).2.1
  constructor
  · obtain ⟨inner, read, -⟩ := nextRight_eq
      (s := ⟨.ofList left, input, some l, none, .null .invalid, [], .needCompare⟩)
      (Shows.of_opened opened)
    rw [Outputs, init, nextLeft_eq rfl, bind_some]
    simp only [List.head?_cons, tail_cons] at read ⊢
    rw [read]
    apply Yields.fail
    simp only [next, needCompare, evaluatedL, evaluatedR, fails]
  · have verdict := tested hasL hasR
    rw [fails, Option.map_none] at verdict
    rw [nestedLoopJoin, Pull.ofList, Pull.ofList, Pull.bind, Pull.filter, verdict]
    rfl

/-- Over sorted rows the merge join gives the rows of the nested-loop join, whichever input that
can be marked the inner rows come from. -/
theorem agrees_nestedLoopJoin {input : InnerInput} (hasLeft : ∀ l ∈ left, HasKey i l)
    (hasRight : ∀ r ∈ right, HasKey j r) (sortedLeft : SortedBy i left)
    (sortedRight : SortedBy j right) (opened : input.Opened right) :
    ∃ p, Outputs (.column .single i) (.column .single j) (.ofList left) input p ∧
      p.multiset = (nestedLoopJoin (.ofList left) (.ofList right)
        (.comparison .eq (.column .left i) (.column .right j))).multiset := by
  obtain ⟨risingLeft, kindLeft⟩ := sorted_rows hasLeft sortedLeft
  obtain ⟨risingRight, kindRight⟩ := sorted_rows hasRight sortedRight
  by_cases kinds : ∀ l ∈ left, ∀ r ∈ right, kind (columnValue i l) = kind (columnValue j r)
  · have keys : RankedKeys i j left right := by
      constructor
      · exact fun l inLeft => (hasLeft l inLeft).eq.1
      · exact fun r inRight => (hasRight r inRight).eq.1
      · intro l inLeft l' inLeft'
        obtain ⟨-, present, number⟩ := (hasLeft l inLeft).eq
        exact compareValues_ranks present number (hasLeft l' inLeft').eq.2.2
          (kindLeft l inLeft l' inLeft')
      · intro l inLeft r inRight
        obtain ⟨-, present, number⟩ := (hasLeft l inLeft).eq
        exact compareValues_ranks present number (hasRight r inRight).eq.2.2
          (kinds l inLeft r inRight)
      · intro r inRight l inLeft
        obtain ⟨-, present, number⟩ := (hasRight r inRight).eq
        exact compareValues_ranks present number (hasLeft l inLeft).eq.2.2
          (kinds l inLeft r inRight).symm
    refine ⟨_, outputs_pairs keys risingLeft risingRight opened, ?_⟩
    rw [nestedLoopJoin_pairs hasLeft hasRight kinds]
  · -- All keys of one side are of one kind, so the first two cannot be compared either.
    cases left with
    | nil => exact (kinds nofun).elim
    | cons l left =>
      cases right with
      | nil => exact (kinds fun _ _ => nofun).elim
      | cons r right =>
        have first : kind (columnValue i l) ≠ kind (columnValue j r) := by
          intro same
          apply kinds
          intro l' inLeft r' inRight
          exact (kindLeft l' inLeft l mem_cons_self).trans
            (same.trans (kindRight r mem_cons_self r' inRight))
        obtain ⟨merged, nested⟩ := @throws_both _ _ left _ _ _ _ (hasLeft l mem_cons_self)
          (hasRight r mem_cons_self) first opened
        exact ⟨.thrown, merged, by rw [nested]⟩

/-- Two rows on both sides with one key. -/
theorem agrees_nestedLoopJoin_duplicates :
    ∃ p, Outputs (.column .single 0) (.column .single 0) (.ofList [[.int32 1], [.int32 1]])
        (.materialize [[.int64 1], [.int64 1]] 0 0) p ∧
      p.multiset = (nestedLoopJoin (.ofList [[.int32 1], [.int32 1]])
        (.ofList [[.int64 1], [.int64 1]])
        (.comparison .eq (.column .left 0) (.column .right 0))).multiset := by
  have sorted {a b : Row} (compared : compareTupleBySortKeys a b [⟨.column .single 0, true⟩] =
      some .eq) : SortedBy 0 [a, b] := by
    refine .cons ?_ (.cons (by simp) .nil)
    intro b' member
    rw [List.mem_singleton.mp member]
    exact ⟨.eq, compared, by decide⟩
  have has {v : Value} (present : v.isNull = false) (number : isNaN v = false) :
      ∀ row ∈ [[v], [v]], HasKey 0 row := by
    intro row member
    have isRow : row = [v] := by simpa using member
    rw [isRow]
    exact ⟨⟨v, rfl, present⟩, number⟩
  exact agrees_nestedLoopJoin (has rfl rfl) (has rfl rfl) (sorted (by decide +kernel))
    (sorted (by decide +kernel)) (.materialize _)

/-- The numbers 1 and 2 both meet a NaN; the merge join leaves it after the first. -/
theorem nan_meets_once : ¬ ∀ (i j : Nat) (left right : List Row) (input : InnerInput),
    (∀ l ∈ left, Present i l) → (∀ r ∈ right, Present j r) → SortedBy i left →
    SortedBy j right → input.Opened right →
    ∃ p, Outputs (.column .single i) (.column .single j) (.ofList left) input p ∧
      p.multiset = (nestedLoopJoin (.ofList left) (.ofList right)
        (.comparison .eq (.column .left i) (.column .right j))).multiset := by
  intro all
  have has (d : Common.Double.Double) : Present 0 [.double d] := ⟨.double d, rfl, rfl⟩
  obtain ⟨p, outputs, same⟩ := all 0 0
    [[.double ⟨0x3FF0000000000000⟩], [.double ⟨0x4000000000000000⟩]]
    [[.double ⟨0x7FF8000000000000⟩]] (.materialize [[.double ⟨0x7FF8000000000000⟩]] 0 0)
    (by simp [has]) (by simp [has])
    (.cons (by
      intro b member
      rw [List.mem_singleton.mp member]
      exact ⟨.lt, by decide +kernel, by decide⟩) (.cons (by simp) .nil))
    (.cons (by simp) .nil) (.materialize _)
  have once : Outputs (.column .single 0) (.column .single 0)
      (.ofList [[.double ⟨0x3FF0000000000000⟩], [.double ⟨0x4000000000000000⟩]])
      (.materialize [[.double ⟨0x7FF8000000000000⟩]] 0 0)
      (.ofList [[.double ⟨0x3FF0000000000000⟩, .double ⟨0x7FF8000000000000⟩]]) :=
    Yields.of_run 5 (by decide +kernel)
  have isOnce : p = .ofList [[.double ⟨0x3FF0000000000000⟩, .double ⟨0x7FF8000000000000⟩]] :=
    Yields.unique outputs once
  rw [isOnce] at same
  revert same
  decide +kernel

end Agreement

end GraniteDb.Execution.MergeJoin
