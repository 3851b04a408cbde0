/- The bounded heap gives the keys of a limited sort when equal keys are the same values. -/

import GraniteDb.Execution.SortExecutor
import Mathlib.Data.BitVec

namespace GraniteDb.Execution.TopN

open Common.Value Lib.Pull Lib.StdAlgorithms Lib.RunMerging Execution.Operators Execution.TupleFile
open Execution.SortOrder Execution.SortExecutor
open Access.HeapFile (Column)
open Option (map_some bind_some)
open List (length_map mem_append_left mem_map)

/-- `TopNExecutor::Init`, with what the calls of `Next` then yield; `none` is an exception. -/
def topN (alg : Algorithms Row) (keys : List SortKeySpec) (limitCount : Nat)
    (child : Option (Pull Row)) : Option (Pull Row) :=
  child.bind fun rows =>
    if limitCount = 0 then some .done
    else
      (keepBest alg (compareTuples keys) limitCount [] rows).bind fun heap =>
        (sortItems alg (compareTuples keys) heap).map Pull.ofList

/-- `LimitExecutor`, over what the child's `Init` leaves to be pulled. -/
def limit (limitCount : Nat) (child : Option (Pull Row)) : Option (Pull Row) :=
  child.map (Pull.take limitCount)

/-- The output has the number of rows that the limit allows, is part of the input and sorted, and
has the key values of the limited sort. -/
def MatchesLimit (keys : List SortKeySpec) (rows : List Row) (limitCount : Nat)
    (top limited : Option (Pull Row)) : Prop :=
  ∃ out sorted, top = some (Pull.ofList out) ∧ out.length = min limitCount rows.length ∧
    (∃ dropped, (out ++ dropped).Perm rows) ∧
    (out.Pairwise fun a b => ∃ o, compareTupleBySortKeys a b keys = some o ∧ o ≠ .gt) ∧
    limited = some (Pull.ofList sorted) ∧
    out.map (sortKeyValues keys) = sorted.map (sortKeyValues keys)

section Output

variable (alg : Algorithms Row) {schema : List Column} {keys : List SortKeySpec}
  (compared : Compared (compareTuples keys) (Valid schema))

include compared in
theorem topN_heap {limitCount : Nat} (positive : 0 < limitCount) {rows : List Row}
    (valid : ∀ row ∈ rows, Valid schema row) :
    ∃ heap dropped, topN alg keys limitCount (some (Pull.ofList rows)) =
        some (Pull.ofList (alg.sort (less (compareTuples keys)) heap)) ∧
      Kept (compareTuples keys) limitCount heap dropped ∧ (heap ++ dropped).Perm rows ∧
      heap.length = min limitCount rows.length := by
  have empty : Kept (compareTuples keys) limitCount [] [] :=
    ⟨isHeap_nil, Nat.zero_le _, fun none => absurd rfl none, by simp⟩
  obtain ⟨heap, dropped, ran, kept, perm⟩ := keepBest_kept alg compared positive rows empty valid
  have perm : (heap ++ dropped).Perm rows := perm
  have defined := compared.compares fun row member =>
    valid row (perm.mem_iff.mp (mem_append_left _ member))
  refine ⟨heap, dropped, ?_, kept, perm, ?_⟩
  · rw [topN, bind_some, if_neg (by omega), ran, bind_some, sortItems,
      if_pos defined]
    rfl
  · have lengths := perm.length_eq
    rw [List.length_append] at lengths
    have most := kept.length
    by_cases none : dropped = []
    · rw [none, List.length_nil] at lengths
      omega
    · have full := kept.full none
      omega

include compared in
theorem topN_spec (limitCount : Nat) {rows : List Row} (valid : ∀ row ∈ rows, Valid schema row) :
    ∃ out dropped, topN alg keys limitCount (some (Pull.ofList rows)) = some (Pull.ofList out) ∧
      out.length = min limitCount rows.length ∧ (out ++ dropped).Perm rows ∧
      Ordered (compareTuples keys) out ∧
      ∀ a ∈ out, ∀ b ∈ dropped, compareTuples keys a b ≠ some .gt := by
  rcases Nat.eq_zero_or_pos limitCount with rfl | positive
  · exact ⟨[], rows, rfl, by simp, List.Perm.refl _, List.Pairwise.nil, by simp⟩
  · obtain ⟨heap, dropped, ran, kept, perm, length⟩ := topN_heap alg compared positive valid
    have validHeap : ∀ row ∈ heap, Valid schema row := fun row member =>
      valid row (perm.mem_iff.mp (mem_append_left _ member))
    obtain ⟨same, sorted⟩ := alg.sort_sorts (compared.weakOrder validHeap)
    refine ⟨_, dropped, ran, same.length_eq.trans length, (same.append_right _).trans perm, ?_, ?_⟩
    · exact ordered_of_sorted compared (fun row member => validHeap row (same.mem_iff.mp member))
        sorted
    · intro a inOut b inDropped
      exact kept.below a (same.mem_iff.mp inOut) b inDropped

end Output

section Limits

variable {schema : List Column} {keys : List SortKeySpec} {rows : List Row}

theorem take_ofList (n : Nat) (l : List Row) :
    (Pull.ofList l).take n = Pull.ofList (l.take n) := by
  induction l generalizing n with
  | nil => cases n <;> rfl
  | cons a l ih =>
    cases n with
    | zero => rfl
    | succ n => rw [Pull.ofList, Pull.take, ih, List.take_succ_cons, Pull.ofList]

theorem eq_of_take {n : Nat} {p : Pull Row} {l : List Row} (cut : p.take n = Pull.ofList l)
    (short : l.length < n) : p = Pull.ofList l := by
  induction l generalizing p n with
  | nil =>
    cases n with
    | zero => cases short
    | succ n =>
      cases p with
      | done => rfl
      | thrown => cases cut
      | item a rest => cases cut
  | cons a l ih =>
    cases n with
    | zero => cases short
    | succ n =>
      cases p with
      | done => cases cut
      | thrown => cases cut
      | item b rest =>
        rw [Pull.take, Pull.ofList, Pull.item.injEq] at cut
        rw [List.length_cons] at short
        rw [Pull.ofList, cut.1, ih cut.2 (by omega)]

def TiesAgree (keys : List SortKeySpec) (rows : List Row) : Prop :=
  ∀ a ∈ rows, ∀ b ∈ rows, compareTupleBySortKeys a b keys = some .eq →
    sortKeyValues keys a = sortKeyValues keys b

theorem eq_of_both {a b : Row} (compared : Compared (compareTuples keys) (Valid schema))
    (validA : Valid schema a) (validB : Valid schema b)
    (notAbove : compareTuples keys a b ≠ some .gt)
    (notBelow : compareTuples keys b a ≠ some .gt) : compareTuples keys a b = some .eq := by
  obtain ⟨o, defined⟩ := Option.isSome_iff_exists.mp (compared.defined validA validB)
  rw [compared.swap validA validB, defined] at notBelow
  rw [defined] at notAbove ⊢
  cases o with
  | lt => exact absurd rfl notBelow
  | eq => rfl
  | gt => exact absurd rfl notAbove

theorem matchesLimit_of (alg : Algorithms Row)
    (compared : Compared (compareTuples keys) (Valid schema)) (onColumns : OnColumns schema keys)
    (valid : ∀ row ∈ rows, Valid schema row) (ties : TiesAgree keys rows) {result : List Row}
    (validResult : ∀ row ∈ result, Valid schema row) (ordered : Ordered (compareTuples keys) result)
    (perm : (result.map (sortKeyValues keys)).Perm (rows.map (sortKeyValues keys)))
    (limitCount : Nat) {sorted : Option (Pull Row)} (isResult : sorted = some (Pull.ofList result)) :
    MatchesLimit keys rows limitCount (topN alg keys limitCount (some (Pull.ofList rows)))
      (limit limitCount sorted) := by
  obtain ⟨out, dropped, ran, length, all, orderedOut, below⟩ :=
    topN_spec alg compared limitCount valid
  have validAll : ∀ row ∈ out ++ dropped, Valid schema row := fun row member =>
    valid row (all.mem_iff.mp member)
  obtain ⟨rest, -, permRest, orderedRest⟩ := sortItems_ordered alg compared fun row member =>
    validAll row (List.mem_append_right _ member)
  have whole : (out ++ rest).Perm rows := (permRest.append_left _).trans all
  have validWhole : ∀ row ∈ out ++ rest, Valid schema row := fun row member =>
    valid row (whole.mem_iff.mp member)
  have orderedWhole : Ordered (compareTuples keys) (out ++ rest) :=
    List.pairwise_append.mpr ⟨orderedOut, orderedRest, fun a inOut b inRest =>
      below a inOut b (permRest.mem_iff.mp inRest)⟩
  have same : (out ++ rest).map (sortKeyValues keys) = result.map (sortKeyValues keys) := by
    refine map_key_eq validWhole validResult (compareTuples_congr onColumns) ?_ orderedWhole ordered
      ((whole.map _).trans perm.symm)
    intro a inWhole b inResult notAbove notBelow
    have image := perm.mem_iff.mp (List.mem_map_of_mem inResult)
    obtain ⟨b', inRows, sameB⟩ := mem_map.mp image
    have validA := validWhole a inWhole
    have tie := eq_of_both compared validA (validResult b inResult) notAbove notBelow
    rw [compareTuples_congr onColumns validA (validResult b inResult) validA (valid b' inRows) rfl
      sameB.symm] at tie
    rw [ties a (whole.mem_iff.mp inWhole) b' inRows tie, sameB]
  refine ⟨out, result.take limitCount, ran, length, ⟨dropped, all⟩, ?_, ?_, ?_⟩
  · refine List.Pairwise.imp_of_mem (fun inA inB notAbove => ?_) orderedOut
    have validA := validAll _ (mem_append_left _ inA)
    have validB := validAll _ (mem_append_left _ inB)
    obtain ⟨o, defined⟩ := Option.isSome_iff_exists.mp (compared.defined validA validB)
    exact ⟨o, defined, fun above => notAbove (by rw [defined, above])⟩
  · rw [limit, isResult, map_some, take_ofList]
  · rw [List.map_take, ← same, List.map_append]
    have lengths := whole.length_eq
    rw [List.length_append] at lengths
    by_cases cut : limitCount ≤ rows.length
    · rw [List.take_append_of_le_length (by rw [length_map]; omega),
        List.take_of_length_le (by rw [length_map]; omega)]
    · have none : rest = [] := List.length_eq_zero_iff.mp (by omega)
      rw [none, List.map_nil, List.append_nil, List.take_of_length_le (by
        rw [length_map]
        omega)]

end Limits

section Exactness

variable {schema : List Column} {keys : List SortKeySpec} {rows : List Row}

/-- Both executors agree for every limit, whatever their sorting and heap functions do with rows
that compare as equal. -/
def AlwaysMatches (schema : List Column) (keys : List SortKeySpec)
    (maxSize runCapacity mergeFanIn : Nat) (rows : List Row) : Prop :=
  ∀ (top alg : Algorithms Row) (heaps : Algorithms (Entry Row)) (limitCount : Nat),
    MatchesLimit keys rows limitCount (topN top keys limitCount (some (Pull.ofList rows)))
      (limit limitCount (init alg heaps schema keys maxSize runCapacity mergeFanIn
        (some (Pull.ofList rows))))

theorem AlwaysMatches.sorted {maxSize runCapacity mergeFanIn : Nat}
    (agree : AlwaysMatches schema keys maxSize runCapacity mergeFanIn rows)
    (top : Algorithms Row) :
    ∃ out sorted, topN top keys (rows.length + 1) (some (Pull.ofList rows)) =
        some (Pull.ofList out) ∧ out.Perm rows ∧
      init inserting inserting schema keys maxSize runCapacity mergeFanIn (some (Pull.ofList rows)) =
        some (Pull.ofList sorted) ∧
      out.map (sortKeyValues keys) = sorted.map (sortKeyValues keys) := by
  obtain ⟨out, sorted, ran, length, ⟨dropped, perm⟩, -, limited, same⟩ :=
    agree top inserting inserting (rows.length + 1)
  have lengths := perm.length_eq
  rw [List.length_append] at lengths
  have none : dropped = [] := List.length_eq_zero_iff.mp (by omega)
  rw [none, List.append_nil] at perm
  refine ⟨out, sorted, ran, perm, ?_, same⟩
  rw [limit, Option.map_eq_some_iff] at limited
  obtain ⟨p, started, cut⟩ := limited
  have sameLength := congrArg List.length same
  rw [length_map, length_map] at sameLength
  rw [started, eq_of_take cut (by omega)]

theorem keyValue_back (onColumns : OnColumns schema keys) {row : Row} (valid : Valid schema row)
    {spec : SortKeySpec} (member : spec ∈ keys) : ∃ col,
      keyValue (back schema row) spec = keptValue col (keyValue row spec) ∧
        ∀ other, Valid schema other →
          keyValue (back schema other) spec = keptValue col (keyValue other spec) := by
  obtain ⟨i, isColumn, inside⟩ := onColumns spec member
  obtain ⟨expr, ascending⟩ := spec
  have isColumn : expr = .column .single i := isColumn
  subst isColumn
  have column : schema[i]? = some schema[i] := List.getElem?_eq_getElem inside
  have each {other : Row} (validOther : Valid schema other) :
      keyValue (back schema other) ⟨.column .single i, ascending⟩ =
        keptValue schema[i] (keyValue other ⟨.column .single i, ascending⟩) := by
    show columnValue i (back schema other) = _
    rw [columnValue, columnValue_back column validOther, Option.getD_some, keyValue_column]
  exact ⟨schema[i], each valid, fun other validOther => each validOther⟩

theorem keepsKeys_of_perm (onColumns : OnColumns schema keys)
    (valid : ∀ row ∈ rows, Valid schema row)
    (perm : ((rows.map (back schema)).map (sortKeyValues keys)).Perm
      (rows.map (sortKeyValues keys))) : ∀ row ∈ rows, KeepsKeys schema keys row := by
  intro row member
  have image := perm.mem_iff.mpr (List.mem_map_of_mem member)
  rw [List.map_map] at image
  obtain ⟨before, inRows, same⟩ := mem_map.mp image
  apply List.map_congr_left
  intro spec isKey
  obtain ⟨col, changed, others⟩ := keyValue_back onColumns (valid row member) isKey
  have here : keyValue (back schema before) spec = keyValue row spec :=
    List.map_inj_left.mp same spec isKey
  rw [changed, ← here, others before (valid before inRows), keptValue_keptValue]

theorem tiesAgree_of_matches (noDouble : ∀ col ∈ schema, col.type ≠ .double)
    (onColumns : OnColumns schema keys) (valid : ∀ row ∈ rows, Valid schema row)
    {maxSize runCapacity mergeFanIn : Nat}
    (agree : AlwaysMatches schema keys maxSize runCapacity mergeFanIn rows) :
    TiesAgree keys rows := by
  have compared := compareTuples_compared onColumns noDouble
  intro a inA b inB tie
  have tie : compareTuples keys a b = some .eq := tie
  by_contra apart
  -- the rows with the key values of `a` first, and then last
  let first (row : Row) : Bool := sortKeyValues keys row == sortKeyValues keys a
  have output (p : Row → Bool) : ∃ out sorted, out.Perm rows ∧
      Sorted (refined (less (compareTuples keys)) p) out ∧
      init inserting inserting schema keys maxSize runCapacity mergeFanIn (some (Pull.ofList rows)) =
        some (Pull.ofList sorted) ∧
      out.map (sortKeyValues keys) = sorted.map (sortKeyValues keys) := by
    obtain ⟨out, sorted, ran, perm, started, same⟩ := agree.sorted (preferring p)
    obtain ⟨heap, dropped, isHeap, -, all, -⟩ :=
      topN_heap (preferring p) compared (Nat.succ_pos rows.length) valid
    have isOut := congrArg Pull.items (Option.some.inj (ran.symm.trans isHeap))
    rw [Pull.items_ofList, Pull.items_ofList] at isOut
    refine ⟨out, sorted, perm, ?_, started, same⟩
    rw [isOut]
    exact insertionSort_sorted ((compared.weakOrder fun row member =>
      valid row (all.mem_iff.mp (mem_append_left _ member))).refined p)
  obtain ⟨out, sorted, perm, ascending, started, same⟩ := output first
  obtain ⟨out', sorted', perm', ascending', started', same'⟩ := output fun row => !first row
  have sameSorted := congrArg Pull.items (Option.some.inj (started.symm.trans started'))
  rw [Pull.items_ofList, Pull.items_ofList] at sameSorted
  have sameKeys : out.map (sortKeyValues keys) = out'.map (sortKeyValues keys) := by
    rw [same, sameSorted, ← same']
  obtain ⟨i, insideI, atI⟩ := List.getElem_of_mem (perm.mem_iff.mpr inA)
  obtain ⟨j, insideJ, atJ⟩ := List.getElem_of_mem (perm.mem_iff.mpr inB)
  have isFirst : first a = true := by simp [first]
  have notFirst : first b = false := by simpa [first] using fun same => apart same.symm
  have tie' : compareTuples keys b a = some .eq := by
    rw [compared.swap (valid a inA) (valid b inB), tie]
    rfl
  have before : i < j := by
    by_contra notBefore
    rcases Nat.lt_or_eq_of_le (Nat.not_lt.mp notBefore) with after | rfl
    · have notAbove := List.pairwise_iff_getElem.mp ascending j i insideJ insideI after
      rw [atI, atJ, refined, less, less, tie, tie', isFirst, notFirst] at notAbove
      cases notAbove
    · exact apart (congrArg (sortKeyValues keys) (atI.symm.trans atJ))
  -- in the other output the same key values stand at the same places
  have lengths : out.length = out'.length := perm.length_eq.trans perm'.length_eq.symm
  have insideI' : i < out'.length := lengths ▸ insideI
  have insideJ' : j < out'.length := lengths ▸ insideJ
  have keysAt (k : Nat) (inside : k < out.length) (inside' : k < out'.length) :
      sortKeyValues keys out'[k] = sortKeyValues keys out[k] := by
    have there := congrArg (fun l => l[k]?) sameKeys
    simpa [List.getElem?_eq_getElem inside, List.getElem?_eq_getElem inside'] using there.symm
  have keysI := keysAt i insideI insideI'
  have keysJ := keysAt j insideJ insideJ'
  rw [atI] at keysI
  rw [atJ] at keysJ
  have validI := valid _ (perm'.mem_iff.mp (List.getElem_mem insideI'))
  have validJ := valid _ (perm'.mem_iff.mp (List.getElem_mem insideJ'))
  have notAbove := List.pairwise_iff_getElem.mp ascending' i j insideI' insideJ' before
  have tieJI := compareTuples_congr onColumns validJ validI (valid b inB) (valid a inA) keysJ keysI
  have tieIJ := compareTuples_congr onColumns validI validJ (valid a inA) (valid b inB) keysI keysJ
  have firstI : first out'[i] = true := by simp [first, keysI]
  have firstJ : first out'[j] = false := by
    simpa [first, keysJ] using fun same => apart same.symm
  rw [refined, less, less, tieJI, tieIJ, tie, tie', firstI, firstJ] at notAbove
  cases notAbove

/-- The bounded heap and the limited sort agree exactly when the sort reserves its runs, the files
change no key value, and rows that compare as equal have equal key values. -/
theorem alwaysMatches_iff {maxSize runCapacity mergeFanIn : Nat}
    (noDouble : ∀ col ∈ schema, col.type ≠ .double) (onColumns : OnColumns schema keys)
    (valid : ∀ row ∈ rows, Valid schema row) (positive : 1 ≤ runCapacity)
    (several : 2 ≤ mergeFanIn) :
    AlwaysMatches schema keys maxSize runCapacity mergeFanIn rows ↔
      runCapacity ≤ maxSize ∧ TiesAgree keys rows ∧ (rows.length < runCapacity ∨
        ∀ row ∈ rows, Fits schema row ∧ KeepsKeys schema keys row) := by
  have compared := compareTuples_compared onColumns noDouble
  constructor
  · intro agree
    obtain ⟨out, sorted, -, perm, started, same⟩ := agree.sorted inserting
    have reserved : runCapacity ≤ maxSize := by
      by_contra above
      rw [init, bind_some, if_pos (by omega)] at started
      cases started
    refine ⟨reserved, tiesAgree_of_matches noDouble onColumns valid agree, ?_⟩
    by_cases short : rows.length < runCapacity
    · exact .inl short
    · right
      rcases init_files inserting inserting compared onColumns positive reserved several valid
        (by omega) with ⟨-, never⟩ | ⟨fits, result, isResult, permBack, -⟩
      · exact absurd started (never sorted)
      · have isSorted := congrArg Pull.items (Option.some.inj (isResult.symm.trans started))
        rw [Pull.items_ofList, Pull.items_ofList] at isSorted
        have keysPerm : ((rows.map (back schema)).map (sortKeyValues keys)).Perm
            (rows.map (sortKeyValues keys)) := by
          refine (permBack.map _).symm.trans ?_
          rw [isSorted, ← same]
          exact perm.map _
        exact fun row member => ⟨fits row member, keepsKeys_of_perm onColumns valid keysPerm row member⟩
  · rintro ⟨reserved, ties, holds⟩ top alg heaps limitCount
    by_cases short : rows.length < runCapacity
    · obtain ⟨result, isResult, perm, ordered⟩ := init_short alg heaps compared reserved valid short
      exact matchesLimit_of top compared onColumns valid ties
        (fun row member => valid row (perm.mem_iff.mp member)) ordered (perm.map _) limitCount
        isResult
    · have kept := holds.resolve_left short
      rcases init_files alg heaps compared onColumns positive reserved several valid (by omega) with
        ⟨unfit, -⟩ | ⟨fits, result, isResult, perm, ordered⟩
      · exact absurd (fun row member => (kept row member).1) unfit
      · have validResult : ∀ row ∈ result, Valid schema row := by
          intro row member
          obtain ⟨before, inRows, rfl⟩ := mem_map.mp (perm.mem_iff.mp member)
          exact valid_back (valid before inRows) (fits before inRows)
        refine matchesLimit_of top compared onColumns valid ties validResult
          (ordered fun row member => (kept row member).2) ?_ limitCount isResult
        refine (perm.map _).trans (List.Perm.of_eq ?_)
        rw [List.map_map]
        exact List.map_congr_left fun row member => (kept row member).2

theorem alwaysMatches_iff_names :
    AlwaysMatches names byName maxTuples 2 2
        [[.varchar [98]], [.null .varchar], [.varchar [97]]] ↔
      2 ≤ maxTuples ∧ TiesAgree byName [[.varchar [98]], [.null .varchar], [.varchar [97]]] ∧
        ([[Value.varchar [98]], [.null .varchar], [.varchar [97]]].length < 2 ∨
          ∀ row ∈ [[Value.varchar [98]], [.null .varchar], [.varchar [97]]],
            Fits names row ∧ KeepsKeys names byName row) :=
  alwaysMatches_iff (by decide) onColumns_byName (by decide) (by decide) (by decide)

def numbers : List Column := [⟨⟨"number", .int64⟩, false, 0⟩]

def byNumber : List SortKeySpec := [⟨.column .single 0, true⟩]

/-- The numbers 2^53 + 1 and 2^53 compare as equal; the heap keeps the second, the sort the
first. -/
theorem not_matchesLimit_numbers :
    ¬ MatchesLimit byNumber [[.int64 (2 ^ 53 + 1)], [.int64 (2 ^ 53)], [.int64 0]] 2
        (topN inserting byNumber 2
          (some (Pull.ofList [[.int64 (2 ^ 53 + 1)], [.int64 (2 ^ 53)], [.int64 0]])))
        (limit 2 (init inserting inserting numbers byNumber maxTuples 256 8
          (some (Pull.ofList [[.int64 (2 ^ 53 + 1)], [.int64 (2 ^ 53)], [.int64 0]])))) := by
  rintro ⟨out, sorted, isOut, -, -, -, isSorted, same⟩
  have top : (topN inserting byNumber 2 (some (Pull.ofList
      [[.int64 (2 ^ 53 + 1)], [.int64 (2 ^ 53)], [.int64 0]]))).map Pull.items =
        some [[.int64 0], [.int64 (2 ^ 53)]] := by decide +kernel
  have limited : (limit 2 (init inserting inserting numbers byNumber maxTuples 256 8 (some
      (Pull.ofList [[.int64 (2 ^ 53 + 1)], [.int64 (2 ^ 53)], [.int64 0]])))).map Pull.items =
        some [[.int64 0], [.int64 (2 ^ 53 + 1)]] := by decide +kernel
  rw [isOut, map_some, Pull.items_ofList] at top
  rw [isSorted, map_some, Pull.items_ofList] at limited
  rw [Option.some.inj top, Option.some.inj limited] at same
  exact absurd same (by decide)

end Exactness

end GraniteDb.Execution.TopN
