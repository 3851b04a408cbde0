/- Merging of runs with a heap, and the best items kept in a bounded heap. -/

import GraniteDb.Lib.Pull
import GraniteDb.Lib.StdAlgorithms
import Mathlib.Algebra.Ring.Nat

namespace GraniteDb.Lib.RunMerging

open Lib.Pull Lib.StdAlgorithms
open List (mem_cons_of_mem mem_cons_self mem_cons append_assoc mem_singleton length_cons
  perm_append_comm mem_map mem_append)
open List (perm_middle flatMap_cons length_append mem_flatMap)

variable {α : Type}

/-- A comparison as `std::sort` sees it. -/
def less (cmp : α → α → Option Ordering) (a b : α) : Bool := cmp a b == some .lt

/-- No comparison among these items throws; which of them are made is not documented. -/
def compares (cmp : α → α → Option Ordering) (l : List α) : Bool :=
  l.all fun a => l.all fun b => (cmp a b).isSome

/-- `std::sort` with a comparison that may throw. -/
def sortItems (alg : Algorithms α) (cmp : α → α → Option Ordering) (l : List α) :
    Option (List α) :=
  if compares cmp l then some (alg.sort (less cmp) l) else none

abbrev Entry (α : Type) := α × Nat

def above (cmp : α → α → Option Ordering) (a b : Entry α) : Bool := cmp a.1 b.1 == some .gt

def pushEntry (alg : Algorithms (Entry α)) (cmp : α → α → Option Ordering) (pq : List (Entry α))
    (e : Entry α) : Option (List (Entry α)) :=
  if compares cmp (e.1 :: pq.map Prod.fst) then some (alg.pushHeap (above cmp) (pq ++ [e]))
  else none

/-- Push the first item of each run, from number `i` on. With what is left of the runs. -/
def openRuns (alg : Algorithms (Entry α)) (cmp : α → α → Option Ordering) :
    Nat → List (Pull α) → List (Entry α) → Option (List (Pull α) × List (Entry α))
  | _, [], pq => some ([], pq)
  | i, .item first rest :: runs, pq =>
    (pushEntry alg cmp pq (first, i)).bind fun pq' =>
      (openRuns alg cmp (i + 1) runs pq').map fun opened => (rest :: opened.1, opened.2)
  | i, .done :: runs, pq =>
    (openRuns alg cmp (i + 1) runs pq).map fun opened => (.done :: opened.1, opened.2)
  | _, .thrown :: _, _ => none

/-- Pop the top, emit it and push the next item of its run, until the heap is empty. -/
def mergeLoop (alg : Algorithms (Entry α)) (cmp : α → α → Option Ordering) :
    Nat → List (Pull α) → List (Entry α) → Option (List α)
  | _, _, [] => some []
  | 0, _, _ :: _ => none
  | fuel + 1, runs, top :: pq =>
    let rest := (alg.popHeap (above cmp) (top :: pq)).dropLast
    match runs[top.2]? with
    | some (.item next later) =>
      (pushEntry alg cmp rest (next, top.2)).bind fun pq' =>
        (mergeLoop alg cmp fuel (runs.set top.2 later) pq').map (top.1 :: ·)
    | some .done => (mergeLoop alg cmp fuel runs rest).map (top.1 :: ·)
    | _ => none

def total (runs : List (Pull α)) : Nat := (runs.map fun run => run.items.length).sum

def mergeRuns (alg : Algorithms (Entry α)) (cmp : α → α → Option Ordering) (runs : List (Pull α)) :
    Option (List α) :=
  (openRuns alg cmp 0 runs []).bind fun opened =>
    mergeLoop alg cmp (total runs) opened.1 opened.2

/-- Keep the `limit` best items in a heap with the worst one on top. -/
def keepBest (alg : Algorithms α) (cmp : α → α → Option Ordering) (limit : Nat) :
    List α → Pull α → Option (List α)
  | heap, .done => some heap
  | _, .thrown => none
  | heap, .item a rest =>
    if !compares cmp (a :: heap) then none
    else if heap.length < limit then
      keepBest alg cmp limit (alg.pushHeap (less cmp) (heap ++ [a])) rest
    else
      match heap with
      | [] => none
      | front :: others =>
        if less cmp a front then
          keepBest alg cmp limit (alg.pushHeap (less cmp)
            ((alg.popHeap (less cmp) (front :: others)).dropLast ++ [a])) rest
        else keepBest alg cmp limit (front :: others) rest

section Comparisons

/-- Among the items with `ok` the comparison does not throw and is a total preorder. -/
structure Compared (cmp : α → α → Option Ordering) (ok : α → Prop) : Prop where
  defined : ∀ {a b}, ok a → ok b → (cmp a b).isSome = true
  swap : ∀ {a b}, ok a → ok b → cmp b a = (cmp a b).map Ordering.swap
  trans : ∀ {a b c}, ok a → ok b → ok c → cmp a b ≠ some .gt → cmp b c ≠ some .gt →
    cmp a c ≠ some .gt

def Ordered (cmp : α → α → Option Ordering) (l : List α) : Prop :=
  l.Pairwise fun a b => cmp a b ≠ some .gt

variable {cmp : α → α → Option Ordering} {ok : α → Prop}

theorem Compared.less_false (compared : Compared cmp ok) {a b : α} (okA : ok a) (okB : ok b) :
    less cmp b a = false ↔ cmp a b ≠ some .gt := by
  rw [less, compared.swap okA okB]
  obtain ⟨o, defined⟩ := Option.isSome_iff_exists.mp (compared.defined okA okB)
  rw [defined]
  cases o <;> decide

theorem Compared.total (compared : Compared cmp ok) {a b : α} (okA : ok a) (okB : ok b) :
    cmp a b ≠ some .gt ∨ cmp b a ≠ some .gt := by
  rw [compared.swap okA okB]
  obtain ⟨o, defined⟩ := Option.isSome_iff_exists.mp (compared.defined okA okB)
  rw [defined]
  cases o <;> decide

variable {l : List α} {pq : List (Entry α)}

theorem Compared.compares (compared : Compared cmp ok) (okAll : ∀ a ∈ l, ok a) :
    compares cmp l = true := by
  rw [RunMerging.compares, List.all_eq_true]
  intro a member
  rw [List.all_eq_true]
  exact fun b member' => compared.defined (okAll a member) (okAll b member')

theorem Compared.weakOrder (compared : Compared cmp ok) (okAll : ∀ a ∈ l, ok a) :
    WeakOrder (less cmp) l where
  total a inA b inB := by
    rw [compared.less_false (okAll b inB) (okAll a inA),
      compared.less_false (okAll a inA) (okAll b inB)]
    exact compared.total (okAll b inB) (okAll a inA)
  trans a inA b inB c inC below below' := by
    rw [compared.less_false (okAll _ ‹_›) (okAll _ ‹_›)] at below below' ⊢
    exact compared.trans (okAll a inA) (okAll b inB) (okAll c inC) below below'

theorem above_false {a b : Entry α} : above cmp a b = false ↔ cmp a.1 b.1 ≠ some .gt := by
  rw [above, beq_eq_false_iff_ne]

theorem Compared.weakOrder_above (compared : Compared cmp ok) (okAll : ∀ e ∈ pq, ok e.1) :
    WeakOrder (above cmp) pq where
  total a inA b inB := by
    rw [above_false, above_false]
    exact compared.total (okAll a inA) (okAll b inB)
  trans a inA b inB c inC below below' := by
    rw [above_false] at below below' ⊢
    exact compared.trans (okAll c inC) (okAll b inB) (okAll a inA) below' below

theorem ordered_of_sorted (compared : Compared cmp ok) (okAll : ∀ a ∈ l, ok a)
    (sorted : Sorted (less cmp) l) : Ordered cmp l :=
  List.Pairwise.imp_of_mem (fun inA inB notBelow =>
    (compared.less_false (okAll _ inA) (okAll _ inB)).mp notBelow) sorted

theorem sortItems_ordered (alg : Algorithms α) (compared : Compared cmp ok)
    (okAll : ∀ a ∈ l, ok a) :
    ∃ l', sortItems alg cmp l = some l' ∧ l'.Perm l ∧ Ordered cmp l' := by
  obtain ⟨perm, sorted⟩ := alg.sort_sorts (compared.weakOrder okAll)
  refine ⟨_, by rw [sortItems, if_pos (compared.compares okAll)], perm, ?_⟩
  exact ordered_of_sorted compared (fun a member => okAll a (perm.mem_iff.mp member)) sorted

variable (alg : Algorithms (Entry α))

theorem pushEntry_heap (compared : Compared cmp ok) {e : Entry α} (okAll : ∀ d ∈ pq, ok d.1)
    (okE : ok e.1) (heap : IsHeap (above cmp) pq) :
    ∃ pq', pushEntry alg cmp pq e = some pq' ∧ pq'.Perm (pq ++ [e]) ∧ IsHeap (above cmp) pq' := by
  have okBoth : ∀ d ∈ pq ++ [e], ok d.1 := by
    intro d member
    rcases mem_append.mp member with old | new
    · exact okAll d old
    · rwa [mem_singleton.mp new]
  obtain ⟨perm, heap'⟩ := alg.pushHeap_heap (compared.weakOrder_above okBoth) heap
  have defined : compares cmp (e.1 :: pq.map Prod.fst) = true := by
    apply compared.compares
    intro a member
    rcases mem_cons.mp member with rfl | old
    · exact okE
    · obtain ⟨d, inHeap, rfl⟩ := mem_map.mp old
      exact okAll d inHeap
  exact ⟨_, by rw [pushEntry, if_pos defined], perm, heap'⟩

theorem popHeap_dropLast (compared : Compared cmp ok) {top : Entry α}
    (okAll : ∀ d ∈ top :: pq, ok d.1) (heap : IsHeap (above cmp) (top :: pq)) :
    ((alg.popHeap (above cmp) (top :: pq)).dropLast).Perm pq ∧
      IsHeap (above cmp) (alg.popHeap (above cmp) (top :: pq)).dropLast := by
  obtain ⟨rest, popped, perm, heap'⟩ := alg.popHeap_heap (compared.weakOrder_above okAll) heap
  rw [popped, List.dropLast_concat]
  exact ⟨perm, heap'⟩

end Comparisons

section Merging

variable {cmp : α → α → Option Ordering} {ok : α → Prop} (alg : Algorithms (Entry α))

theorem total_eq (runs : List (Pull α)) : total runs = (runs.flatMap Pull.items).length := by
  rw [total, List.length_flatMap]

variable {later : Pull α} {next : α} {i : Nat} {runs : List (Pull α)} {pq' pq : List (Entry α)}
  {top : Entry α} {opened : List (Pull α) × List (Entry α)}

theorem flatMap_set (here : runs[i]? = some (.item next later)) :
    (runs.flatMap Pull.items).Perm (next :: (runs.set i later).flatMap Pull.items) := by
  induction runs generalizing i with
  | nil => simp at here
  | cons run runs ih =>
    cases i with
    | zero =>
      have same : run = .item next later := by simpa using here
      rw [same]
      simp [Pull.items]
    | succ i =>
      have rest := ih (i := i) (by simpa using here)
      rw [List.set_cons_succ, flatMap_cons, flatMap_cons]
      exact (rest.append_left _).trans perm_middle

def Covers (runs : List (Pull α)) (pq : List (Entry α)) : Prop :=
  ∀ i run, runs[i]? = some run → run ≠ .done → ∃ e ∈ pq, e.2 = i

structure Ascending (cmp : α → α → Option Ordering) (runs : List (Pull α))
    (pq : List (Entry α)) : Prop where
  sorted : ∀ run ∈ runs, Ordered cmp run.items
  entries : ∀ e ∈ pq, ∀ run : Pull α, runs[e.2]? = some run →
    ∀ x ∈ run.items, cmp e.1 x ≠ some .gt

theorem Covers.mono (covers : Covers runs pq) (more : pq ⊆ pq') : Covers runs pq' := by
  intro i run here going
  obtain ⟨e, member, same⟩ := covers i run here going
  exact ⟨e, more member, same⟩

theorem Covers.of_done (covers : Covers runs (top :: pq)) (ended : runs[top.2]? = some .done) :
    Covers runs pq := by
  intro i run here going
  obtain ⟨e, member, same⟩ := covers i run here going
  rcases mem_cons.mp member with rfl | inRest
  · rw [same, here] at ended
    exact absurd (Option.some.inj ended) going
  · exact ⟨e, inRest, same⟩

theorem Covers.of_item (next : α) (later : Pull α) (covers : Covers runs (top :: pq)) :
    Covers (runs.set top.2 later) ((next, top.2) :: pq) := by
  intro i run here going
  by_cases same : top.2 = i
  · exact ⟨(next, top.2), mem_cons_self, same⟩
  · rw [List.getElem?_set_ne same] at here
    obtain ⟨e, member, atE⟩ := covers i run here going
    rcases mem_cons.mp member with rfl | inRest
    · exact absurd atE same
    · exact ⟨e, mem_cons_of_mem _ inRest, atE⟩

theorem Covers.ended (covers : Covers runs []) : ∀ run ∈ runs, run = .done := by
  intro run member
  by_contra going
  obtain ⟨i, inside, here⟩ := List.getElem_of_mem member
  obtain ⟨e, none, -⟩ := covers i run (List.getElem?_eq_some_iff.mpr ⟨inside, here⟩) going
  cases none

theorem Ascending.mono (ascending : Ascending cmp runs pq) (fewer : pq' ⊆ pq) :
    Ascending cmp runs pq' :=
  ⟨ascending.sorted, fun e member => ascending.entries e (fewer member)⟩

theorem mem_set_cases {run : Pull α} (member : run ∈ runs.set i later) :
    run = later ∨ run ∈ runs := by
  rcases List.mem_or_eq_of_mem_set member with old | new
  · exact .inr old
  · exact .inl new

theorem Ascending.of_item (here : runs[top.2]? = some (.item next later))
    (ascending : Ascending cmp runs (top :: pq)) :
    Ascending cmp (runs.set top.2 later) ((next, top.2) :: pq) := by
  have inside : top.2 < runs.length := (List.getElem?_eq_some_iff.mp here).1
  have sortedRun := ascending.sorted _ (List.mem_of_getElem? here)
  rw [Pull.items, Ordered, List.pairwise_cons] at sortedRun
  constructor
  · intro run member
    rcases mem_set_cases member with rfl | old
    · exact sortedRun.2
    · exact ascending.sorted run old
  · intro e member run at_ x inRun
    rcases mem_cons.mp member with rfl | old
    · rw [List.getElem?_set_self inside] at at_
      cases at_
      exact sortedRun.1 x inRun
    · by_cases same : top.2 = e.2
      · rw [← same, List.getElem?_set_self inside] at at_
        cases at_
        have atE : runs[e.2]? = some (.item next later) := by rw [← same]; exact here
        exact ascending.entries e (mem_cons_of_mem _ old) _ atE x
          (mem_cons_of_mem next inRun)
      · rw [List.getElem?_set_ne same] at at_
        exact ascending.entries e (mem_cons_of_mem _ old) run at_ x inRun

theorem top_below (compared : Compared cmp ok) (okRuns : ∀ run ∈ runs, ∀ x ∈ run.items, ok x)
    (okHeap : ∀ e ∈ top :: pq, ok e.1) (heap : IsHeap (above cmp) (top :: pq))
    (covers : Covers runs (top :: pq)) (ascending : Ascending cmp runs (top :: pq)) :
    ∀ x ∈ pq.map Prod.fst ++ runs.flatMap Pull.items, cmp top.1 x ≠ some .gt := by
  have front := heap.front (compared.weakOrder_above okHeap)
  intro x member
  rcases mem_append.mp member with inHeap | inRuns
  · obtain ⟨e, inPq, rfl⟩ := mem_map.mp inHeap
    exact above_false.mp (front e (mem_cons_of_mem _ inPq))
  · obtain ⟨run, inRuns, inRun⟩ := mem_flatMap.mp inRuns
    obtain ⟨i, inside, here⟩ := List.getElem_of_mem inRuns
    have here : runs[i]? = some run := List.getElem?_eq_some_iff.mpr ⟨inside, here⟩
    obtain ⟨e, member, same⟩ := covers i run here (by
      rintro rfl
      cases inRun)
    have toEntry := above_false.mp (front e member)
    have fromEntry := ascending.entries e member run (by rw [same]; exact here) x inRun
    exact compared.trans (okHeap top mem_cons_self) (okHeap e member)
      (okRuns run inRuns x inRun) toEntry fromEntry

def Merged (cmp : α → α → Option Ordering) (runs : List (Pull α)) (pq : List (Entry α))
    (result : Option (List α)) : Prop :=
  (result = none ∧ ∃ run ∈ runs, run.collect = none) ∨
    ∃ out, result = some out ∧ (∀ run ∈ runs, run.collect ≠ none) ∧
      out.Perm (pq.map Prod.fst ++ runs.flatMap Pull.items) ∧
      (Ascending cmp runs pq → Ordered cmp out)

theorem merged_nil (covers : Covers runs []) : Merged cmp runs [] (some []) := by
  have ended := covers.ended
  have nothing : runs.flatMap Pull.items = [] :=
    List.flatMap_eq_nil_iff.mpr fun run member => by rw [ended run member]; rfl
  refine .inr ⟨[], rfl, ?_, by simp [nothing], fun _ => List.Pairwise.nil⟩
  intro run member
  rw [ended run member]
  simp [Pull.collect]

section

variable (compared : Compared cmp ok)

include compared

theorem Merged.of_done {rest : List (Entry α)}
    {result : Option (List α)} (okRuns : ∀ run ∈ runs, ∀ x ∈ run.items, ok x)
    (okHeap : ∀ e ∈ top :: pq, ok e.1) (heap : IsHeap (above cmp) (top :: pq))
    (covers : Covers runs (top :: pq)) (perm : rest.Perm pq)
    (merged : Merged cmp runs rest result) :
    Merged cmp runs (top :: pq) (result.map (top.1 :: ·)) := by
  rcases merged with ⟨rfl, broken⟩ | ⟨out, rfl, whole, items, ordered⟩
  · exact .inl ⟨rfl, broken⟩
  · have all := items.trans ((perm.map Prod.fst).append_right _)
    refine .inr ⟨top.1 :: out, rfl, whole, all.cons top.1, fun ascending => ?_⟩
    have below := top_below compared okRuns okHeap heap covers ascending
    refine List.Pairwise.cons (fun x member => below x (all.mem_iff.mp member)) ?_
    exact ordered (ascending.mono fun e member =>
      mem_cons_of_mem _ (perm.mem_iff.mp member))

theorem Merged.of_item {rest : List (Entry α)}
    {result : Option (List α)} (okRuns : ∀ run ∈ runs, ∀ x ∈ run.items, ok x)
    (okHeap : ∀ e ∈ top :: pq, ok e.1) (heap : IsHeap (above cmp) (top :: pq))
    (covers : Covers runs (top :: pq)) (here : runs[top.2]? = some (.item next later))
    (perm : rest.Perm ((next, top.2) :: pq))
    (merged : Merged cmp (runs.set top.2 later) rest result) :
    Merged cmp runs (top :: pq) (result.map (top.1 :: ·)) := by
  have inRuns := List.mem_of_getElem? here
  have inside : top.2 < runs.length := (List.getElem?_eq_some_iff.mp here).1
  rcases merged with ⟨rfl, run, member, broken⟩ | ⟨out, rfl, whole, items, ordered⟩
  · refine .inl ⟨rfl, ?_⟩
    rcases mem_set_cases member with rfl | old
    · exact ⟨_, inRuns, by simp [Pull.collect, broken]⟩
    · exact ⟨run, old, broken⟩
  · have all : out.Perm (pq.map Prod.fst ++ runs.flatMap Pull.items) := by
      have entries := items.trans ((perm.map Prod.fst).append_right _)
      have moved := (flatMap_set here).symm.append_left (pq.map Prod.fst)
      exact (entries.trans perm_middle.symm).trans moved
    refine .inr ⟨top.1 :: out, rfl, ?_, all.cons top.1, fun ascending => ?_⟩
    · intro run member
      by_cases same : run = .item next later
      · have rest := whole later (List.mem_of_getElem? (List.getElem?_set_self inside))
        rw [same, Pull.collect]
        simpa using rest
      · obtain ⟨i, inside_, at_⟩ := List.getElem_of_mem member
        have at_ : runs[i]? = some run := List.getElem?_eq_some_iff.mpr ⟨inside_, at_⟩
        have apart : top.2 ≠ i := by
          rintro rfl
          rw [here] at at_
          exact same (Option.some.inj at_).symm
        apply whole run
        apply List.mem_of_getElem? (i := i)
        rw [List.getElem?_set_ne apart, at_]
    · have below := top_below compared okRuns okHeap heap covers ascending
      refine List.Pairwise.cons (fun x member => below x (all.mem_iff.mp member)) ?_
      exact ordered ((ascending.of_item here).mono perm.subset)

theorem mergeLoop_merged (fuel : Nat)
    (okRuns : ∀ run ∈ runs, ∀ x ∈ run.items, ok x) (okHeap : ∀ e ∈ pq, ok e.1)
    (heap : IsHeap (above cmp) pq) (inside : ∀ e ∈ pq, e.2 < runs.length) (covers : Covers runs pq)
    (enough : pq.length + total runs ≤ fuel) :
    Merged cmp runs pq (mergeLoop alg cmp fuel runs pq) := by
  induction fuel generalizing runs pq with
  | zero =>
    have empty : pq = [] := List.length_eq_zero_iff.mp (by omega)
    subst empty
    exact merged_nil covers
  | succ fuel ih =>
    cases pq with
    | nil => exact merged_nil covers
    | cons top pq =>
      obtain ⟨perm, heap'⟩ := popHeap_dropLast alg compared okHeap heap
      have okRest : ∀ e ∈ (alg.popHeap (above cmp) (top :: pq)).dropLast, ok e.1 :=
        fun e member => okHeap e (mem_cons_of_mem _ (perm.mem_iff.mp member))
      have insideRest : ∀ e ∈ pq, e.2 < runs.length :=
        fun e member => inside e (mem_cons_of_mem _ member)
      rw [length_cons] at enough
      obtain ⟨run, here⟩ : ∃ run, runs[top.2]? = some run :=
        ⟨_, List.getElem?_eq_getElem (inside top mem_cons_self)⟩
      have inRuns : run ∈ runs := List.mem_of_getElem? here
      cases run with
      | thrown => exact .inl ⟨by simp [mergeLoop, here], _, inRuns, rfl⟩
      | done =>
        have merged := ih okRuns okRest heap'
          (fun e member => insideRest e (perm.mem_iff.mp member))
          ((covers.of_done here).mono perm.symm.subset) (by rw [perm.length_eq]; omega)
        have goesOn := merged.of_done compared okRuns okHeap heap covers perm
        simpa [mergeLoop, here] using goesOn
      | item next later =>
        have okNext : ok next := okRuns _ inRuns next (by simp [Pull.items])
        obtain ⟨pq', pushed, perm', heap''⟩ := pushEntry_heap alg compared okRest
          (show ok (next, top.2).1 from okNext) heap'
        have placed : pq'.Perm ((next, top.2) :: pq) :=
          (perm'.trans perm_append_comm).trans (perm.cons _)
        have okRuns' : ∀ run ∈ runs.set top.2 later, ∀ x ∈ run.items, ok x := by
          intro run member x inRun
          rcases mem_set_cases member with rfl | old
          · exact okRuns _ inRuns x (mem_cons_of_mem _ inRun)
          · exact okRuns run old x inRun
        have okHeap' : ∀ e ∈ pq', ok e.1 := by
          intro e member
          rcases mem_cons.mp (placed.mem_iff.mp member) with rfl | old
          · exact okNext
          · exact okHeap e (mem_cons_of_mem _ old)
        have inside' : ∀ e ∈ pq', e.2 < (runs.set top.2 later).length := by
          intro e member
          rw [List.length_set]
          rcases mem_cons.mp (placed.mem_iff.mp member) with rfl | old
          · exact inside top mem_cons_self
          · exact insideRest e old
        have fewer : pq'.length + total (runs.set top.2 later) ≤ fuel := by
          have lengths := (flatMap_set here).length_eq
          rw [length_cons, ← total_eq, ← total_eq] at lengths
          rw [placed.length_eq, length_cons]
          omega
        have merged := ih okRuns' okHeap' heap'' inside'
          ((covers.of_item next later).mono placed.symm.subset) fewer
        have goesOn := merged.of_item compared okRuns okHeap heap covers here placed
        simpa [mergeLoop, here, pushed] using goesOn

end

/-- What opening the runs from number `i` on makes of them and of the heap. -/
structure Opened (cmp : α → α → Option Ordering) (i : Nat) (runs : List (Pull α))
    (pq : List (Entry α)) (opened : List (Pull α) × List (Entry α)) : Prop where
  heap : IsHeap (above cmp) opened.2
  items : (opened.2.map Prod.fst ++ opened.1.flatMap Pull.items).Perm
    (pq.map Prod.fst ++ runs.flatMap Pull.items)
  broken : (∃ run ∈ opened.1, run.collect = none) ↔ ∃ run ∈ runs, run.collect = none
  kept : pq ⊆ opened.2
  covers : ∀ j run, opened.1[j]? = some run → run ≠ .done → ∃ e ∈ opened.2, e.2 = i + j
  places : ∀ e ∈ opened.2, e ∈ pq ∨ ∃ j, e.2 = i + j ∧ j < opened.1.length
  sorted : (∀ run ∈ runs, Ordered cmp run.items) →
    (∀ run ∈ opened.1, Ordered cmp run.items) ∧ ∀ e ∈ opened.2, e ∈ pq ∨ ∃ j, e.2 = i + j ∧
      ∀ run : Pull α, opened.1[j]? = some run → ∀ x ∈ run.items, cmp e.1 x ≠ some .gt

theorem Opened.of_done (rest : Opened cmp (i + 1) runs pq opened) :
    Opened cmp i (.done :: runs) pq (.done :: opened.1, opened.2) where
  heap := rest.heap
  items := by simpa [Pull.items] using rest.items
  broken := by simpa [Pull.collect] using rest.broken
  kept := rest.kept
  covers j run here going := by
    cases j with
    | zero => exact absurd (Option.some.inj here).symm going
    | succ j =>
      obtain ⟨e, member, same⟩ := rest.covers j run (by simpa using here) going
      exact ⟨e, member, by omega⟩
  places e member := by
    refine (rest.places e member).imp_right ?_
    rintro ⟨j, same, inside⟩
    exact ⟨j + 1, by omega, by simpa using inside⟩
  sorted each := by
    obtain ⟨runs', entries⟩ := rest.sorted fun run member => each run (mem_cons_of_mem _ member)
    constructor
    · intro run member
      rcases mem_cons.mp member with rfl | later
      · exact List.Pairwise.nil
      · exact runs' run later
    · intro e member
      refine (entries e member).imp_right ?_
      rintro ⟨j, same, below⟩
      exact ⟨j + 1, by omega, fun run here => below run (by simpa using here)⟩

theorem Opened.of_item {first : α} (perm : pq'.Perm (pq ++ [(first, i)]))
    (rest : Opened cmp (i + 1) runs pq' opened) :
    Opened cmp i (.item first later :: runs) pq (later :: opened.1, opened.2) where
  heap := rest.heap
  items := by
    have pushed := perm.map Prod.fst
    rw [List.map_append, List.map_singleton] at pushed
    have others := rest.items.trans (pushed.append_right _)
    have swapped : (opened.2.map Prod.fst ++ (later.items ++ opened.1.flatMap Pull.items)).Perm
        (later.items ++ (opened.2.map Prod.fst ++ opened.1.flatMap Pull.items)) := by
      rw [← append_assoc, ← append_assoc]
      exact perm_append_comm.append_right _
    rw [flatMap_cons, flatMap_cons, Pull.items]
    refine swapped.trans ((others.append_left _).trans ?_)
    rw [append_assoc, ← append_assoc later.items, List.singleton_append]
    refine (perm_append_comm.append_right _).trans ?_
    rw [append_assoc]
    exact perm_middle.append_left _
  broken := by
    have tail := rest.broken
    simp [Pull.collect] at tail ⊢
    rw [tail]
  kept e member := rest.kept (perm.mem_iff.mpr (List.mem_append_left _ member))
  covers j run here going := by
    cases j with
    | zero =>
      refine ⟨(first, i), rest.kept (perm.mem_iff.mpr ?_), rfl⟩
      exact List.mem_append_right _ mem_cons_self
    | succ j =>
      obtain ⟨e, member, same⟩ := rest.covers j run (by simpa using here) going
      exact ⟨e, member, by omega⟩
  places e member := by
    rcases rest.places e member with old | ⟨j, same, inside⟩
    · rcases mem_append.mp (perm.mem_iff.mp old) with older | new
      · exact .inl older
      · have same : e = (first, i) := mem_singleton.mp new
        exact .inr ⟨0, by rw [same, Nat.add_zero], Nat.zero_lt_succ _⟩
    · exact .inr ⟨j + 1, by omega, by simpa using inside⟩
  sorted each := by
    obtain ⟨runs', entries⟩ := rest.sorted fun run member => each run (mem_cons_of_mem _ member)
    have sortedRun := each _ mem_cons_self
    rw [Pull.items, Ordered, List.pairwise_cons] at sortedRun
    constructor
    · intro run member
      rcases mem_cons.mp member with rfl | later
      · exact sortedRun.2
      · exact runs' run later
    · intro e member
      rcases entries e member with old | ⟨j, same, below⟩
      · rcases mem_append.mp (perm.mem_iff.mp old) with older | new
        · exact .inl older
        · have same : e = (first, i) := mem_singleton.mp new
          refine .inr ⟨0, by rw [same, Nat.add_zero], fun run here x inRun => ?_⟩
          cases here
          rw [same]
          exact sortedRun.1 x inRun
      · exact .inr ⟨j + 1, by omega, fun run here => below run (by simpa using here)⟩

theorem openRuns_opened (compared : Compared cmp ok) (i : Nat)
    (okRuns : ∀ run ∈ runs, ∀ x ∈ run.items, ok x) (okHeap : ∀ e ∈ pq, ok e.1)
    (heap : IsHeap (above cmp) pq) :
    (openRuns alg cmp i runs pq = none ∧ ∃ run ∈ runs, run.collect = none) ∨
      ∃ opened, openRuns alg cmp i runs pq = some opened ∧ Opened cmp i runs pq opened := by
  induction runs generalizing i pq with
  | nil =>
    refine .inr ⟨([], pq), rfl, heap, List.Perm.refl _, Iff.rfl, List.Subset.refl _, ?_, ?_, ?_⟩
    · intro j run here
      cases here
    · exact fun e member => .inl member
    · intro _
      constructor
      · intro run none
        cases none
      · exact fun e member => .inl member
  | cons run runs ih =>
    have okLater : ∀ run ∈ runs, ∀ x ∈ run.items, ok x :=
      fun run member => okRuns run (mem_cons_of_mem _ member)
    cases run with
    | thrown => exact .inl ⟨rfl, .thrown, mem_cons_self, rfl⟩
    | done =>
      rcases ih (i + 1) okLater okHeap heap with
        ⟨failed, run, member, broken⟩ | ⟨opened, went, rest⟩
      · exact .inl ⟨by simp [openRuns, failed], run, mem_cons_of_mem _ member, broken⟩
      · exact .inr ⟨_, by simp [openRuns, went], rest.of_done⟩
    | item first later =>
      have okFirst : ok first := okRuns _ mem_cons_self first (by simp [Pull.items])
      obtain ⟨pq', pushed, perm, heap'⟩ := pushEntry_heap alg compared okHeap
        (show ok (first, i).1 from okFirst) heap
      have okHeap' : ∀ e ∈ pq', ok e.1 := by
        intro e member
        rcases mem_append.mp (perm.mem_iff.mp member) with old | new
        · exact okHeap e old
        · rwa [mem_singleton.mp new]
      rcases ih (i + 1) okLater okHeap' heap' with
        ⟨failed, run, member, broken⟩ | ⟨opened, went, rest⟩
      · refine .inl ⟨by simp [openRuns, pushed, failed], run, ?_, broken⟩
        exact mem_cons_of_mem _ member
      · exact .inr ⟨_, by simp [openRuns, pushed, went], Opened.of_item perm rest⟩

theorem mergeRuns_spec (compared : Compared cmp ok) (okRuns : ∀ run ∈ runs, ∀ x ∈ run.items, ok x) :
    (mergeRuns alg cmp runs = none ∧ ∃ run ∈ runs, run.collect = none) ∨
      ∃ out, mergeRuns alg cmp runs = some out ∧ (∀ run ∈ runs, run.collect ≠ none) ∧
        out.Perm (runs.flatMap Pull.items) ∧
        ((∀ run ∈ runs, Ordered cmp run.items) → Ordered cmp out) := by
  have none : ∀ e ∈ ([] : List (Entry α)), ok e.1 := fun e absent => by cases absent
  rcases openRuns_opened alg compared 0 okRuns none isHeap_nil with
    ⟨failed, broken⟩ | ⟨opened, went, opens⟩
  · exact .inl ⟨by rw [mergeRuns, failed]; rfl, broken⟩
  · have items := opens.items
    rw [List.map_nil, List.nil_append] at items
    have okAll : ∀ x ∈ opened.2.map Prod.fst ++ opened.1.flatMap Pull.items, ok x := by
      intro x member
      obtain ⟨run, inRuns, inRun⟩ := mem_flatMap.mp (items.mem_iff.mp member)
      exact okRuns run inRuns x inRun
    have okRuns' : ∀ run ∈ opened.1, ∀ x ∈ run.items, ok x := fun run member x inRun =>
      okAll x (List.mem_append_right _ (mem_flatMap.mpr ⟨run, member, inRun⟩))
    have okHeap' : ∀ e ∈ opened.2, ok e.1 := fun e member =>
      okAll e.1 (List.mem_append_left _ (List.mem_map_of_mem member))
    have inside : ∀ e ∈ opened.2, e.2 < opened.1.length := by
      intro e member
      rcases opens.places e member with none | ⟨j, same, inside⟩
      · cases none
      · omega
    have covers : Covers opened.1 opened.2 := by
      intro j run here going
      obtain ⟨e, member, same⟩ := opens.covers j run here going
      exact ⟨e, member, by omega⟩
    have enough : opened.2.length + total opened.1 ≤ total runs := by
      have lengths := items.length_eq
      rw [length_append, List.length_map, ← total_eq, ← total_eq] at lengths
      omega
    have result : mergeRuns alg cmp runs =
        mergeLoop alg cmp (total runs) opened.1 opened.2 := by
      rw [mergeRuns, went]
      rfl
    rw [result]
    rcases mergeLoop_merged alg compared (total runs) okRuns' okHeap' opens.heap inside covers
      enough with ⟨failed, broken⟩ | ⟨out, merged, whole, perm, ordered⟩
    · exact .inl ⟨failed, opens.broken.mp broken⟩
    · refine .inr ⟨out, merged, ?_, perm.trans items, fun each => ?_⟩
      · intro run member broken
        obtain ⟨run', member', broken'⟩ := opens.broken.mpr ⟨run, member, broken⟩
        exact whole run' member' broken'
      · obtain ⟨sorted, entries⟩ := opens.sorted each
        refine ordered ⟨sorted, fun e member run here => ?_⟩
        rcases entries e member with none | ⟨j, same, below⟩
        · cases none
        · rw [same, Nat.zero_add] at here
          exact below run here

end Merging

section Best

variable {cmp : α → α → Option Ordering} {ok : α → Prop} (alg : Algorithms α)

/-- The items kept go before those dropped, and some are dropped only when the heap is full. -/
structure Kept (cmp : α → α → Option Ordering) (limit : Nat) (heap dropped : List α) : Prop where
  isHeap : IsHeap (less cmp) heap
  length : heap.length ≤ limit
  full : dropped ≠ [] → heap.length = limit
  below : ∀ a ∈ heap, ∀ b ∈ dropped, cmp a b ≠ some .gt

theorem Kept.push (compared : Compared cmp ok) {limit : Nat} {heap dropped : List α} {a : α}
    (kept : Kept cmp limit heap dropped) (okAll : ∀ b ∈ heap ++ [a], ok b)
    (room : heap.length < limit) :
    (alg.pushHeap (less cmp) (heap ++ [a])).Perm (heap ++ [a]) ∧
      Kept cmp limit (alg.pushHeap (less cmp) (heap ++ [a])) dropped := by
  obtain ⟨perm, isHeap⟩ := alg.pushHeap_heap (compared.weakOrder okAll) kept.isHeap
  have nothing : dropped = [] := by
    by_contra some_
    have full := kept.full some_
    omega
  subst nothing
  refine ⟨perm, isHeap, ?_, fun none => absurd rfl none, fun _ _ _ none => by cases none⟩
  rw [perm.length_eq, length_append, List.length_singleton]
  omega

variable {limit : Nat} {dropped : List α}

section

variable (compared : Compared cmp ok)

include compared

theorem Kept.replace {front a : α} {others : List α}
    (kept : Kept cmp limit (front :: others) dropped) (okKept : ∀ b ∈ front :: others, ok b)
    (okDropped : ∀ b ∈ dropped, ok b) (okA : ok a) (full : (front :: others).length = limit)
    (better : cmp a front = some .lt) :
    let heap := alg.pushHeap (less cmp)
      ((alg.popHeap (less cmp) (front :: others)).dropLast ++ [a])
    heap.Perm (others ++ [a]) ∧ Kept cmp limit heap (front :: dropped) := by
  have order := compared.weakOrder okKept
  obtain ⟨rest, popped, perm, isHeap⟩ := alg.popHeap_heap order kept.isHeap
  have okRest : ∀ b ∈ rest ++ [a], ok b := by
    intro b member
    rcases mem_append.mp member with old | new
    · exact okKept b (mem_cons_of_mem _ (perm.mem_iff.mp old))
    · rwa [mem_singleton.mp new]
  obtain ⟨perm', isHeap'⟩ := alg.pushHeap_heap (compared.weakOrder okRest) isHeap
  have placed := perm'.trans (perm.append_right [a])
  intro heap
  have same : heap = alg.pushHeap (less cmp) (rest ++ [a]) := by
    show alg.pushHeap _ _ = _
    rw [popped, List.dropLast_concat]
  rw [same]
  have belowFront : ∀ b ∈ others ++ [a], cmp b front ≠ some .gt := by
    intro b member
    rcases mem_append.mp member with old | new
    · have notBelow := kept.isHeap.front order b (mem_cons_of_mem _ old)
      exact (compared.less_false (okKept b (mem_cons_of_mem _ old))
        (okKept front mem_cons_self)).mp notBelow
    · rw [mem_singleton.mp new, better]
      decide
  refine ⟨placed, isHeap', ?_, ?_, ?_⟩
  · rw [placed.length_eq, length_append, List.length_singleton]
    rw [length_cons] at full
    omega
  · intro _
    rw [placed.length_eq, length_append, List.length_singleton]
    rw [length_cons] at full
    omega
  · intro b member x inDropped
    have member := placed.mem_iff.mp member
    have toFront := belowFront b member
    rcases mem_cons.mp inDropped with rfl | earlier
    · exact toFront
    · have okB : ok b := by
        rcases mem_append.mp member with old | new
        · exact okKept b (mem_cons_of_mem _ old)
        · rwa [mem_singleton.mp new]
      exact compared.trans okB (okKept front mem_cons_self) (okDropped x earlier) toFront
        (kept.below front mem_cons_self x earlier)

theorem Kept.skip {front a : α} {others : List α}
    (kept : Kept cmp limit (front :: others) dropped) (okKept : ∀ b ∈ front :: others, ok b)
    (okA : ok a) (full : (front :: others).length = limit) (notBetter : less cmp a front = false) :
    Kept cmp limit (front :: others) (a :: dropped) := by
  have order := compared.weakOrder okKept
  refine ⟨kept.isHeap, kept.length, fun _ => full, ?_⟩
  intro b member x inDropped
  rcases mem_cons.mp inDropped with rfl | earlier
  · have toFront := (compared.less_false (okKept b member) (okKept front mem_cons_self)).mp
      (kept.isHeap.front order b member)
    exact compared.trans (okKept b member) (okKept front mem_cons_self) okA toFront
      ((compared.less_false (okKept front mem_cons_self) okA).mp notBetter)
  · exact kept.below b member x earlier

theorem keepBest_kept (positive : 0 < limit) (items : List α)
    {heap : List α} (kept : Kept cmp limit heap dropped)
    (okAll : ∀ a ∈ heap ++ dropped ++ items, ok a) :
    ∃ heap' dropped', keepBest alg cmp limit heap (Pull.ofList items) = some heap' ∧
      Kept cmp limit heap' dropped' ∧ (heap' ++ dropped').Perm (heap ++ dropped ++ items) := by
  induction items generalizing heap dropped with
  | nil => exact ⟨heap, dropped, rfl, kept, by simp⟩
  | cons a items ih =>
    have okHeap : ∀ b ∈ heap, ok b := fun b member => okAll b (by simp [member])
    have okDropped : ∀ b ∈ dropped, ok b := fun b member => okAll b (by simp [member])
    have okA : ok a := okAll a (by simp)
    have defined : compares cmp (a :: heap) = true := by
      apply compared.compares
      intro b member
      rcases mem_cons.mp member with rfl | inHeap
      · exact okA
      · exact okHeap b inHeap
    have goes {heap' dropped' : List α} (moved : (heap' ++ dropped').Perm (heap ++ dropped ++ [a]))
        (kept' : Kept cmp limit heap' dropped')
        (step : keepBest alg cmp limit heap (Pull.ofList (a :: items)) =
          keepBest alg cmp limit heap' (Pull.ofList items)) :
        ∃ heap'' dropped'', keepBest alg cmp limit heap (Pull.ofList (a :: items)) = some heap'' ∧
          Kept cmp limit heap'' dropped'' ∧
          (heap'' ++ dropped'').Perm (heap ++ dropped ++ a :: items) := by
      have total : (heap' ++ dropped' ++ items).Perm (heap ++ dropped ++ a :: items) := by
        have further := moved.append_right items
        rwa [append_assoc (heap ++ dropped), List.singleton_append] at further
      obtain ⟨heap'', dropped'', ran, kept'', perm⟩ := ih kept' fun b member =>
        okAll b (total.mem_iff.mp member)
      exact ⟨heap'', dropped'', by rw [step, ran], kept'', perm.trans total⟩
    by_cases room : heap.length < limit
    · have okBoth : ∀ b ∈ heap ++ [a], ok b := by
        intro b member
        rcases mem_append.mp member with old | new
        · exact okHeap b old
        · rwa [mem_singleton.mp new]
      obtain ⟨perm, kept'⟩ := kept.push alg compared okBoth room
      refine goes ?_ kept' (by simp [Pull.ofList, keepBest, defined, room])
      refine (perm.append_right _).trans ?_
      rw [append_assoc, append_assoc]
      exact perm_append_comm.append_left _
    · have full : heap.length = limit := Nat.le_antisymm kept.length (Nat.not_lt.mp room)
      cases heap with
      | nil =>
        rw [List.length_nil] at full
        omega
      | cons front others =>
        cases better : less cmp a front with
        | true =>
          have smaller : cmp a front = some .lt := by simpa [less] using better
          obtain ⟨perm, kept'⟩ :=
            kept.replace alg compared okHeap okDropped okA full smaller
          refine goes ?_ kept' (by
            simp only [Pull.ofList, keepBest, defined, Bool.not_true, Bool.false_eq_true,
              if_false, room, better, if_true])
          refine (perm.append_right _).trans ?_
          have tail : (others ++ [a] ++ dropped).Perm (others ++ dropped ++ [a]) := by
            rw [append_assoc, append_assoc]
            exact perm_append_comm.append_left _
          exact perm_middle.trans (tail.cons front)
        | false =>
          refine goes ?_ (kept.skip compared okHeap okA full better) (by
            simp only [Pull.ofList, keepBest, defined, Bool.not_true, Bool.false_eq_true,
              if_false, room, better])
          rw [append_assoc]
          have swapped : ([a] ++ dropped).Perm (dropped ++ [a]) := perm_append_comm
          exact swapped.append_left _

end

theorem map_key_eq {κ : Type} {key : α → κ} {l l' : List α} (okL : ∀ a ∈ l, ok a)
    (okL' : ∀ a ∈ l', ok a) (depends : ∀ {a b a' b'}, ok a → ok b → ok a' → ok b' →
      key a = key a' → key b = key b' → cmp a b = cmp a' b')
    (ties : ∀ a ∈ l, ∀ b ∈ l', cmp a b ≠ some .gt → cmp b a ≠ some .gt → key a = key b)
    (ordered : Ordered cmp l) (ordered' : Ordered cmp l') (perm : (l.map key).Perm (l'.map key)) :
    l.map key = l'.map key := by
  let below (k k' : κ) : Prop :=
    ∃ a b, ok a ∧ ok b ∧ key a = k ∧ key b = k' ∧ cmp a b ≠ some .gt
  have sorted {m : List α} (okAll : ∀ a ∈ m, ok a) (each : Ordered cmp m) :
      (m.map key).Pairwise below :=
    List.pairwise_map.mpr (List.Pairwise.imp_of_mem (fun inA inB notAbove =>
      ⟨_, _, okAll _ inA, okAll _ inB, rfl, rfl, notAbove⟩) each)
  refine List.Perm.eq_of_pairwise ?_ (sorted okL ordered) (sorted okL' ordered') perm
  rintro _ _ first second ⟨a, b, okA, okB, sameA, sameB, notAbove⟩
    ⟨b', a', okB', okA', sameB', sameA', notAbove'⟩
  obtain ⟨x, inL, rfl⟩ := mem_map.mp first
  obtain ⟨y, inL', rfl⟩ := mem_map.mp second
  apply ties x inL y inL'
  · rwa [depends (okL x inL) (okL' y inL') okA okB sameA.symm sameB.symm]
  · rwa [depends (okL' y inL') (okL x inL) okB' okA' sameB'.symm sameA'.symm]

end Best

end GraniteDb.Lib.RunMerging
