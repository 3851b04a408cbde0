/- Reading a range of a sorted list, and equal items along a chain of sorted lists. -/

import Mathlib.Data.List.Basic
import Mathlib.Order.Compare
import Mathlib.Order.Lattice

namespace GraniteDb.Lib.SortedScan

universe u v

variable {α : Type u}

section Zones

def Zoned (zone : α → Ordering) (l : List α) : Prop :=
  l.Pairwise fun a b => (zone b = .lt → zone a = .lt) ∧ (zone a = .gt → zone b = .gt)

def scan (zone : α → Ordering) : List α → List α
  | [] => []
  | a :: rest =>
    match zone a with
    | .lt => scan zone rest
    | .eq => a :: scan zone rest
    | .gt => []

def skip (zone : α → Ordering) : List α → List α
  | [] => []
  | a :: rest =>
    match zone a with
    | .lt => skip zone rest
    | _ => a :: rest

variable {zone : α → Ordering} {l : List α}

theorem Zoned.tail {a : α} (zoned : Zoned zone (a :: l)) : Zoned zone l :=
  (List.pairwise_cons.mp zoned).2

theorem Zoned.sublist {l' : List α} (zoned : Zoned zone l) (sub : l'.Sublist l) : Zoned zone l' :=
  List.Pairwise.sublist sub zoned

theorem filter_eq_nil_of_gt {a : α} (zoned : Zoned zone (a :: l)) (behind : zone a = .gt) :
    l.filter (fun b => zone b == .eq) = [] := by
  rw [List.filter_eq_nil_iff]
  intro b member same
  rw [((List.pairwise_cons.mp zoned).1 b member).2 behind] at same
  cases same

theorem scan_eq_filter (zoned : Zoned zone l) : scan zone l = l.filter fun a => zone a == .eq := by
  induction l with
  | nil => rfl
  | cons a rest ih =>
    cases at_ : zone a with
    | lt => simp [scan, at_, ih zoned.tail]
    | eq => simp [scan, at_, ih zoned.tail]
    | gt => simp [scan, at_, filter_eq_nil_of_gt zoned at_]

theorem skip_eq_filter (zoned : Zoned zone l) : skip zone l = l.filter fun a => zone a != .lt := by
  induction l with
  | nil => rfl
  | cons a rest ih =>
    have whole (notBefore : zone a ≠ .lt) : rest.filter (fun b => zone b != .lt) = rest := by
      rw [List.filter_eq_self]
      intro b member
      rw [bne_iff_ne]
      exact fun before => notBefore (((List.pairwise_cons.mp zoned).1 b member).1 before)
    cases at_ : zone a with
    | lt => simp [skip, at_, ih zoned.tail]
    | eq => simp [skip, at_, whole (by simp [at_])]
    | gt => simp [skip, at_, whole (by simp [at_])]

theorem Zoned.of_sorted {ρ : Type v} [Preorder ρ] {rank : α → ρ}
    (sorted : l.Pairwise fun a b => rank a ≤ rank b)
    (monotone : ∀ a ∈ l, ∀ b ∈ l, rank a ≤ rank b →
      (zone b = .lt → zone a = .lt) ∧ (zone a = .gt → zone b = .gt)) : Zoned zone l :=
  List.Pairwise.imp_of_mem (fun inA inB below => monotone _ inA _ inB below) sorted

theorem zone_of_compare {ρ : Type v} [LinearOrder ρ] {a b k : ρ} (below : a ≤ b) :
    (compare b k = .lt → compare a k = .lt) ∧ (compare a k = .gt → compare b k = .gt) := by
  rw [compare_lt_iff_lt, compare_lt_iff_lt, compare_gt_iff_gt, compare_gt_iff_gt]
  exact ⟨below.trans_lt, fun above => lt_of_lt_of_le above below⟩

end Zones

section Chains

/-- Read the zone along a chain of lists; the walk goes on only behind a list that has items of
the zone and none behind it. -/
def scanChain (zone : α → Ordering) : List (List α) → List α
  | [] => []
  | l :: rest =>
    if scan zone l ≠ [] ∧ ∀ a ∈ l, zone a ≠ .gt then scan zone l ++ scanChain zone rest
    else scan zone l

def Reached (zone : α → Ordering) (chain : List (List α)) : Prop :=
  chain.IsChain fun l next => (∃ a ∈ next, zone a = .eq) → ∃ a ∈ l, zone a = .eq

variable {zone : α → Ordering}

theorem Reached.none {l : List α} {rest : List (List α)} (reached : Reached zone (l :: rest))
    (without : ∀ a ∈ l, zone a ≠ .eq) : ∀ a ∈ rest.flatten, zone a ≠ .eq := by
  induction rest generalizing l with
  | nil =>
    intro a member
    cases member
  | cons next rest ih =>
    obtain ⟨link, later⟩ := List.isChain_cons_cons.mp reached
    have withoutNext : ∀ a ∈ next, zone a ≠ .eq := by
      intro a member same
      obtain ⟨b, inL, sameB⟩ := link ⟨a, member, same⟩
      exact without b inL sameB
    intro a member
    rw [List.flatten_cons, List.mem_append] at member
    rcases member with here | there
    · exact withoutNext a here
    · exact ih later withoutNext a there

theorem scanChain_eq_filter {chain : List (List α)} (zoned : Zoned zone chain.flatten)
    (reached : Reached zone chain) :
    scanChain zone chain = chain.flatten.filter fun a => zone a == .eq := by
  induction chain with
  | nil => rfl
  | cons l rest ih =>
    rw [List.flatten_cons] at zoned
    have zonedHere : Zoned zone l := zoned.sublist (List.sublist_append_left l rest.flatten)
    have zonedRest : Zoned zone rest.flatten :=
      zoned.sublist (List.sublist_append_right l rest.flatten)
    rw [scanChain, List.flatten_cons, List.filter_append, scan_eq_filter zonedHere]
    split
    · rw [ih zonedRest (reached.of_cons)]
    · rename_i ends
      have noneLater : rest.flatten.filter (fun a => zone a == .eq) = [] := by
        rw [List.filter_eq_nil_iff]
        by_cases found : l.filter (fun a => zone a == .eq) = []
        · have without : ∀ a ∈ l, zone a ≠ .eq := by
            intro a member same
            exact absurd (by simp [same]) (List.filter_eq_nil_iff.mp found a member)
          intro a member same
          exact reached.none without a member (by simpa using same)
        · have behind : ∃ a ∈ l, zone a = .gt := by
            by_contra noneBehind
            exact ends ⟨found, fun a member gt => noneBehind ⟨a, member, gt⟩⟩
          obtain ⟨a, member, gt⟩ := behind
          intro b inRest same
          have further := ((List.pairwise_append.mp zoned).2.2 a member b inRest).2 gt
          rw [further] at same
          cases same
      rw [noneLater, List.append_nil]

end Chains

end GraniteDb.Lib.SortedScan
