/- Depth-first search with three colours reports something exactly when there is a cycle. -/

import Mathlib.Data.Finset.Card
import Mathlib.Data.List.Chain
import Mathlib.Data.List.Nodup
import Mathlib.Logic.Function.Basic
import Mathlib.Logic.Relation

namespace GraniteDb.Lib.DepthFirst

open Function (update_of_ne update_self update)
open List (mem_cons isChain_cons_cons nodup_cons)

universe u v

variable {α : Type u} {β : Type v}

inductive Colour
  | white
  | grey
  | black
  deriving DecidableEq

structure Search (α : Type u) (β : Type v) where
  colour : α → Colour
  stack : List α
  found : Option β

section Definitions

variable [DecidableEq α]

def Search.start : Search α β := ⟨fun _ => .white, [], none⟩

def Search.enter (s : Search α β) (u : α) : Search α β :=
  { s with colour := update s.colour u .grey, stack := s.stack ++ [u] }

def Search.leave (s : Search α β) (u : α) : Search α β :=
  { s with colour := update s.colour u .black, stack := s.stack.dropLast }

/-- Go through the neighbours of the node on top: explore the white ones, report a grey one. -/
def scan (report : List α → α → β) (explore : Search α β → α → Option (Search α β))
    (s : Search α β) : List α → Option (Search α β)
  | [] => some s
  | v :: rest =>
    match s.colour v with
    | .white =>
      (explore s v).bind fun s' =>
        if s'.found.isSome then some s' else scan report explore s' rest
    | .grey => some { s with found := some (report s.stack v) }
    | .black => scan report explore s rest

/-- Explore a white node; `none` when the fuel is used up. -/
def explore (next : α → List α) (report : List α → α → β) :
    Nat → Search α β → α → Option (Search α β)
  | 0, _, _ => none
  | fuel + 1, s, u =>
    (scan report (explore next report fuel) (s.enter u) (next u)).map fun s' =>
      if s'.found.isSome then s' else s'.leave u

def searchFrom (next : α → List α) (report : List α → α → β) (fuel : Nat) :
    Search α β → List α → Option (Option β)
  | s, [] => some s.found
  | s, u :: rest =>
    if s.colour u = .white then
      (explore next report fuel s u).bind fun s' =>
        if s'.found.isSome then some s'.found else searchFrom next report fuel s' rest
    else searchFrom next report fuel s rest

end Definitions

/-- A walk along the edges that its last node closes into a cycle. -/
def IsCycle (next : α → List α) (cycle : List α) : Prop :=
  cycle.IsChain (fun a b => b ∈ next a) ∧
    ∃ first last, cycle.head? = some first ∧ cycle.getLast? = some last ∧ first ∈ next last

/-- What a report is about: the stack, whose last node has the grey neighbour `v`. -/
def Reported [DecidableEq α] (next : α → List α) (report : List α → α → β) (b : β) : Prop :=
  ∃ stack v rest, b = report stack v ∧ stack.dropWhile (· ≠ v) = v :: rest ∧
    IsCycle next (v :: rest)

section Cycles

variable {next : α → List α}

theorem IsCycle.cyclic {cycle : List α} (closed : IsCycle next cycle) :
    ∃ u, Relation.TransGen (fun a b => b ∈ next a) u u := by
  obtain ⟨chain, first, last, head, tail, edge⟩ := closed
  obtain ⟨rest, rfl⟩ : ∃ rest, cycle = first :: rest := by
    cases cycle with
    | nil => simp at head
    | cons x rest =>
      have same : x = first := by simpa using head
      exact ⟨rest, by rw [same]⟩
  refine ⟨last, ?_⟩
  have reach := List.relationReflTransGen_of_exists_isChain_cons rest chain
    (by simpa [List.getLast?_eq_some_getLast] using tail)
  exact Relation.TransGen.head' edge reach

theorem IsCycle.exists_edge {cycle : List α} (closed : IsCycle next cycle) {u : α}
    (member : u ∈ cycle) : ∃ v ∈ cycle, v ∈ next u := by
  obtain ⟨chain, first, last, head, tail, edge⟩ := closed
  obtain ⟨before, after, split⟩ := List.append_of_mem member
  cases after with
  | nil =>
    have isLast : u = last := by simpa [split] using tail
    exact ⟨first, List.mem_of_head? head, isLast ▸ edge⟩
  | cons v after =>
    rw [split] at chain
    obtain ⟨step, -⟩ := isChain_cons_cons.mp chain.right_of_append
    exact ⟨v, by simp [split], step⟩

end Cycles

section Soundness

variable {next : α → List α}

/-- What holds while nothing is reported: the grey nodes are a path, and the black ones are
closed under the edges and on no cycle. -/
structure Sound (next : α → List α) (s : Search α β) : Prop where
  running : s.found = none
  grey : ∀ v, s.colour v = .grey ↔ v ∈ s.stack
  nodup : s.stack.Nodup
  chain : s.stack.IsChain fun a b => b ∈ next a
  closed : ∀ v, s.colour v = .black → ∀ w ∈ next v, s.colour w = .black
  acyclic : ∀ v, s.colour v = .black → ¬ Relation.TransGen (fun a b => b ∈ next a) v v

structure Extends (s s' : Search α β) : Prop where
  stack : s'.stack = s.stack
  colour : ∀ v, s.colour v ≠ .white → s'.colour v = s.colour v

variable {s : Search α β} {u : α}

theorem Extends.trans {s' s'' : Search α β} (first : Extends s s') (second : Extends s' s'') :
    Extends s s'' where
  stack := second.stack.trans first.stack
  colour v seen := by
    have same := first.colour v seen
    rw [second.colour v (by rw [same]; exact seen), same]

def whites (nodes : Finset α) (s : Search α β) : Nat :=
  (nodes.filter fun v => s.colour v = .white).card

theorem sound_start : Sound next (Search.start : Search α β) where
  running := rfl
  grey v := by simp [Search.start]
  nodup := List.nodup_nil
  chain := List.isChain_nil
  closed v black := by simp [Search.start] at black
  acyclic v black := by simp [Search.start] at black

theorem whites_extends (nodes : Finset α) {s' : Search α β} (further : Extends s s') :
    whites nodes s' ≤ whites nodes s := by
  apply Finset.card_le_card
  intro v counted
  simp only [Finset.mem_filter] at counted ⊢
  refine ⟨counted.1, ?_⟩
  by_contra seen
  have same := further.colour v seen
  rw [same] at counted
  exact seen counted.2

theorem Sound.black_of_reach {v w : α} (sound : Sound next s) (black : s.colour v = .black)
    (reach : Relation.ReflTransGen (fun a b => b ∈ next a) v w) :
    s.colour w = .black := by
  induction reach with
  | refl => exact black
  | tail _ edge ih => exact sound.closed _ ih _ edge

variable [DecidableEq α]

theorem whites_enter {nodes : Finset α} (member : u ∈ nodes) (white : s.colour u = .white) :
    whites nodes (s.enter u) < whites nodes s := by
  apply Finset.card_lt_card
  constructor
  · intro v counted
    simp only [Finset.mem_filter] at counted ⊢
    refine ⟨counted.1, ?_⟩
    by_cases same : v = u
    · rw [same]
      exact white
    · simpa [Search.enter, same] using counted.2
  · intro subset
    have counted := subset (Finset.mem_filter.mpr ⟨member, white⟩)
    have grey := (Finset.mem_filter.mp counted).2
    simp [Search.enter] at grey

theorem Sound.enter (sound : Sound next s) (white : s.colour u = .white)
    (chain : (s.stack ++ [u]).IsChain fun a b => b ∈ next a) : Sound next (s.enter u) := by
  have fresh : u ∉ s.stack := by
    intro member
    have grey := (sound.grey u).mpr member
    rw [white] at grey
    cases grey
  have black {v : α} (isBlack : (s.enter u).colour v = .black) : s.colour v = .black := by
    by_cases same : v = u
    · simp [Search.enter, same] at isBlack
    · simpa [Search.enter, same] using isBlack
  constructor
  · exact sound.running
  · intro v
    by_cases same : v = u
    · simp [Search.enter, same]
    · simpa [Search.enter, same] using sound.grey v
  · simpa [Search.enter, List.nodup_append] using ⟨sound.nodup, fun a member => by
      rintro rfl
      exact fresh member⟩
  · exact chain
  · intro v isBlack w edge
    have blackNeighbour := sound.closed v (black isBlack) w edge
    have apart : w ≠ u := by
      rintro rfl
      rw [white] at blackNeighbour
      cases blackNeighbour
    simpa [Search.enter, apart] using blackNeighbour
  · intro v isBlack
    exact sound.acyclic v (black isBlack)

theorem Sound.leave {path : List α} (sound : Sound next s) (top : s.stack = path ++ [u])
    (neighbours : ∀ w ∈ next u, s.colour w = .black) :
    Sound next (s.leave u) := by
  have grey : s.colour u = .grey := (sound.grey u).mpr (by simp [top])
  have nodup := sound.nodup
  rw [top, List.nodup_append] at nodup
  have fresh : u ∉ path := fun member => nodup.2.2 u member u (by simp) rfl
  have stack : (s.leave u).stack = path := by simp [Search.leave, top]
  have black {v : α} (isBlack : s.colour v = .black) : (s.leave u).colour v = .black := by
    by_cases same : v = u
    · simp [Search.leave, same]
    · simpa [Search.leave, same] using isBlack
  constructor
  · exact sound.running
  · intro v
    rw [stack]
    by_cases same : v = u
    · simp [Search.leave, same, fresh]
    · simpa [Search.leave, same, top] using sound.grey v
  · rw [stack]
    exact nodup.1
  · rw [stack]
    have chain := sound.chain
    rw [top] at chain
    exact chain.left_of_append
  · intro v isBlack w edge
    by_cases same : v = u
    · exact black (neighbours w (same ▸ edge))
    · exact black (sound.closed v (by simpa [Search.leave, same] using isBlack) w edge)
  · intro v isBlack
    by_cases same : v = u
    · subst same
      intro cyclic
      obtain ⟨w, edge, reach⟩ := Relation.TransGen.head'_iff.mp cyclic
      have returned := sound.black_of_reach (neighbours w edge) reach
      rw [grey] at returned
      cases returned
    · exact sound.acyclic v (by simpa [Search.leave, same] using isBlack)

end Soundness

section Search

variable [DecidableEq α] {next : α → List α} {report : List α → α → β}

/-- The search has reported a cycle, or it has come back with the nodes `vs` black. -/
def Outcome (next : α → List α) (report : List α → α → β) (s s' : Search α β) (vs : List α) :
    Prop :=
  (∃ b, s'.found = some b ∧ Reported next report b) ∨
    (Sound next s' ∧ Extends s s' ∧ ∀ v ∈ vs, s'.colour v = .black)

variable {s : Search α β} {fuel : Nat} {nodes : Finset α}

theorem reported_of_grey {u v : α} (sound : Sound next s) (top : s.stack.getLast? = some u)
    (edge : v ∈ next u) (grey : s.colour v = .grey) :
    Reported next report (report s.stack v) := by
  have member : v ∈ s.stack := (sound.grey v).mp grey
  obtain ⟨path, rest, split, fresh⟩ := List.eq_append_cons_of_mem member
  have cycle : s.stack.dropWhile (· ≠ v) = v :: rest := by
    rw [split, List.dropWhile_append_of_pos]
    · simp
    · intro w before
      have apart : w ≠ v := fun same => fresh (same ▸ before)
      simpa using apart
  refine ⟨s.stack, v, rest, rfl, cycle, ?_⟩
  constructor
  · have chain := sound.chain
    rw [split] at chain
    exact chain.right_of_append
  · refine ⟨v, u, rfl, ?_, edge⟩
    rw [split, List.getLast?_append_of_ne_nil _ (by simp)] at top
    exact top

/-- What exploring one white node does, for nodes with at most `fuel` white ones left. -/
def Explores (next : α → List α) (report : List α → α → β) (nodes : Finset α) (fuel : Nat)
    (run : Search α β → α → Option (Search α β)) : Prop :=
  ∀ s u, Sound next s → s.colour u = .white → u ∈ nodes →
    ((s.stack ++ [u]).IsChain fun a b => b ∈ next a) → whites nodes s ≤ fuel →
    ∃ s', run s u = some s' ∧ Outcome next report s s' [u]

theorem scan_outcome {run : Search α β → α → Option (Search α β)}
    (explores : Explores next report nodes fuel run) {u : α} (vs : List α) (sound : Sound next s)
    (top : s.stack.getLast? = some u) (edges : ∀ v ∈ vs, v ∈ next u ∧ v ∈ nodes)
    (left : whites nodes s ≤ fuel) :
    ∃ s', scan report run s vs = some s' ∧ Outcome next report s s' vs := by
  induction vs generalizing s with
  | nil => exact ⟨s, rfl, .inr ⟨sound, ⟨rfl, fun _ _ => rfl⟩, by simp⟩⟩
  | cons v rest ih =>
    have edgesRest : ∀ w ∈ rest, w ∈ next u ∧ w ∈ nodes :=
      fun w member => edges w (List.mem_cons_of_mem _ member)
    obtain ⟨edge, member⟩ := edges v List.mem_cons_self
    cases colour : s.colour v with
    | white =>
      have chain : (s.stack ++ [v]).IsChain fun a b => b ∈ next a := by
        refine List.IsChain.append sound.chain (List.isChain_singleton v) ?_
        intro last isLast first isFirst
        rw [top] at isLast
        cases isLast
        cases isFirst
        exact edge
      obtain ⟨s', ran, outcome⟩ := explores s v sound colour member chain left
      rcases outcome with ⟨b, found, reported⟩ | ⟨sound', further, black⟩
      · refine ⟨s', ?_, .inl ⟨b, found, reported⟩⟩
        simp [scan, colour, ran, found]
      · have left' := (whites_extends nodes further).trans left
        obtain ⟨s'', scanned, outcome⟩ :=
          ih sound' (by rw [further.stack]; exact top) edgesRest left'
        refine ⟨s'', by simp [scan, colour, ran, sound'.running, scanned], ?_⟩
        rcases outcome with reported | ⟨sound'', further', blackRest⟩
        · exact .inl reported
        · have blackV : s'.colour v = .black := black v (by simp)
          refine .inr ⟨sound'', further.trans further', ?_⟩
          intro w scannedNode
          rcases mem_cons.mp scannedNode with rfl | later
          · rw [further'.colour w (by simp [blackV]), blackV]
          · exact blackRest w later
    | grey =>
      refine ⟨{ s with found := some (report s.stack v) }, by simp [scan, colour], ?_⟩
      exact .inl ⟨_, rfl, reported_of_grey sound top edge colour⟩
    | black =>
      obtain ⟨s', scanned, outcome⟩ := ih sound top edgesRest left
      refine ⟨s', by simp [scan, colour, scanned], ?_⟩
      rcases outcome with reported | ⟨sound', further, blackRest⟩
      · exact .inl reported
      · refine .inr ⟨sound', further, ?_⟩
        intro w scannedNode
        rcases mem_cons.mp scannedNode with rfl | later
        · rw [further.colour w (by simp [colour]), colour]
        · exact blackRest w later

theorem explore_explores (report : List α → α → β) (closed : ∀ u ∈ nodes, ∀ v ∈ next u, v ∈ nodes)
    (fuel : Nat) : Explores next report nodes fuel (explore next report fuel) := by
  induction fuel with
  | zero =>
    intro s u _ white member _ left
    have fewer := whites_enter member white
    omega
  | succ fuel ih =>
    intro s u sound white member chain left
    have fewer := whites_enter member white
    have entered := sound.enter white chain
    obtain ⟨s', scanned, outcome⟩ := scan_outcome ih (u := u) (next u) entered
      (by simp [Search.enter]) (fun v edge => ⟨edge, closed u member v edge⟩) (by omega)
    rcases outcome with ⟨b, found, reported⟩ | ⟨sound', further, black⟩
    · refine ⟨s', by simp [explore, scanned, found], .inl ⟨b, found, reported⟩⟩
    · refine ⟨s'.leave u, by simp [explore, scanned, sound'.running], .inr ⟨?_, ?_, ?_⟩⟩
      · exact sound'.leave further.stack black
      · constructor
        · simp [Search.leave, further.stack, Search.enter]
        · intro v seen
          have apart : v ≠ u := by
            rintro rfl
            exact seen white
          have same : (s.enter u).colour v = s.colour v := by simp [Search.enter, apart]
          have kept := further.colour v (by rw [same]; exact seen)
          simp [Search.leave, apart, kept, same]
      · simp [Search.leave]

theorem searchFrom_outcome (report : List α → α → β) (closed : ∀ u ∈ nodes, ∀ v ∈ next u, v ∈ nodes)
    (roots : List α) (sound : Sound next s) (empty : s.stack = []) (inside : ∀ u ∈ roots, u ∈ nodes)
    (left : whites nodes s ≤ fuel) :
    (∃ b, searchFrom next report fuel s roots = some (some b) ∧ Reported next report b) ∨
      (searchFrom next report fuel s roots = some none ∧
        ∃ s', Sound next s' ∧ Extends s s' ∧ ∀ u ∈ roots, s'.colour u = .black) := by
  induction roots generalizing s with
  | nil =>
    exact .inr ⟨by simp [searchFrom, sound.running], s, sound, ⟨rfl, fun _ _ => rfl⟩, by simp⟩
  | cons u rest ih =>
    have insideRest : ∀ v ∈ rest, v ∈ nodes :=
      fun v member => inside v (List.mem_cons_of_mem _ member)
    have member := inside u List.mem_cons_self
    by_cases white : s.colour u = .white
    · obtain ⟨s', ran, outcome⟩ := explore_explores report closed fuel s u sound white
        member (by rw [empty]; exact List.isChain_singleton u) left
      rcases outcome with ⟨b, found, reported⟩ | ⟨sound', further, black⟩
      · exact .inl ⟨b, by simp [searchFrom, white, ran, found], reported⟩
      · have left' := (whites_extends nodes further).trans left
        have goesOn : searchFrom next report fuel s (u :: rest) =
            searchFrom next report fuel s' rest := by
          simp [searchFrom, white, ran, sound'.running]
        rw [goesOn]
        rcases ih sound' (by rw [further.stack, empty]) insideRest left' with
          reported | ⟨ended, s'', sound'', further', blackRest⟩
        · exact .inl reported
        · have blackU : s'.colour u = .black := black u (by simp)
          refine .inr ⟨ended, s'', sound'', further.trans further', ?_⟩
          intro v isRoot
          rcases mem_cons.mp isRoot with rfl | later
          · rw [further'.colour v (by simp [blackU]), blackU]
          · exact blackRest v later
    · have goesOn : searchFrom next report fuel s (u :: rest) =
          searchFrom next report fuel s rest := by simp [searchFrom, white]
      rw [goesOn]
      rcases ih sound empty insideRest left with reported | ⟨ended, s', sound', further, blackRest⟩
      · exact .inl reported
      · refine .inr ⟨ended, s', sound', further, ?_⟩
        intro v isRoot
        rcases mem_cons.mp isRoot with rfl | later
        · -- with an empty stack nothing is grey
          have notGrey : s.colour v ≠ .grey := fun grey => by
            have onStack := (sound.grey v).mp grey
            simp [empty] at onStack
          have black : s.colour v = .black := by
            cases colour : s.colour v with
            | white => exact absurd colour white
            | grey => exact absurd colour notGrey
            | black => rfl
          rw [further.colour v white, black]
        · exact blackRest v later

theorem searchFrom_start (report : List α → α → β) {roots : List α}
    (closed : ∀ u ∈ nodes, ∀ v ∈ next u, v ∈ nodes) (inside : ∀ u ∈ roots, u ∈ nodes)
    (covers : ∀ u, next u ≠ [] → u ∈ roots) (enough : nodes.card ≤ fuel) :
    (∃ b, searchFrom next report fuel Search.start roots = some (some b) ∧
        Reported next report b) ∨
      (searchFrom next report fuel Search.start roots = some none ∧
        ∀ u, ¬ Relation.TransGen (fun a b => b ∈ next a) u u) := by
  have left : whites nodes (Search.start : Search α β) ≤ fuel :=
    (Finset.card_filter_le _ _).trans enough
  rcases searchFrom_outcome report closed roots sound_start rfl inside left with
    reported | ⟨ended, s, sound, -, black⟩
  · exact .inl reported
  · refine .inr ⟨ended, fun u cyclic => ?_⟩
    obtain ⟨v, edge, -⟩ := Relation.TransGen.head'_iff.mp cyclic
    exact sound.acyclic u (black u (covers u (List.ne_nil_of_mem edge))) cyclic

end Search

section SimpleCycles

variable {next : α → List α}

theorem exists_nodup_walk {r : α → α → Prop} {a b : α} (reach : Relation.ReflTransGen r a b) :
    ∃ rest, (a :: rest).IsChain r ∧ (a :: rest).Nodup ∧ (a :: rest).getLast? = some b := by
  induction reach using Relation.ReflTransGen.head_induction_on with
  | refl => exact ⟨[], List.isChain_singleton _, List.nodup_singleton _, rfl⟩
  | @head a c edge _ ih =>
    obtain ⟨rest, chain, nodup, last⟩ := ih
    by_cases member : a ∈ c :: rest
    · obtain ⟨before, after, split⟩ := List.append_of_mem member
      rw [split] at chain nodup last
      rw [List.getLast?_append_of_ne_nil _ (List.cons_ne_nil _ _)] at last
      exact ⟨after, chain.right_of_append, (List.nodup_append.mp nodup).2.1, last⟩
    · refine ⟨c :: rest, chain.cons_cons edge, nodup_cons.mpr ⟨member, nodup⟩, ?_⟩
      rw [List.getLast?_cons_cons]
      exact last

theorem targets {a : α} {rest : List α} {S : α → Prop}
    (chain : (a :: rest).IsChain fun _ b => S b) : ∀ b ∈ rest, S b := by
  induction rest generalizing a with
  | nil => simp
  | cons b rest ih =>
    obtain ⟨here, further⟩ := isChain_cons_cons.mp chain
    intro c member
    rcases mem_cons.mp member with rfl | later
    · exact here
    · exact ih further c later

theorem IsCycle.exists_nodup {cycle : List α} (closed : IsCycle next cycle) {u : α}
    (member : u ∈ cycle) : ∃ simple, IsCycle next simple ∧ simple.Nodup ∧ u ∈ simple ∧
      ∀ v ∈ simple, v ∈ cycle := by
  obtain ⟨chain, first, last, head, tail, edge⟩ := closed
  have within : cycle.IsChain fun a b => b ∈ next a ∧ b ∈ cycle :=
    chain.imp_of_mem_imp fun _ _ _ inCycle step => ⟨step, inCycle⟩
  obtain ⟨before, after, split⟩ := List.append_of_mem member
  have reachesLast : Relation.ReflTransGen (fun a b => b ∈ next a ∧ b ∈ cycle) u last := by
    rw [split] at within tail
    rw [List.getLast?_append_of_ne_nil _ (List.cons_ne_nil _ _)] at tail
    refine List.relationReflTransGen_of_exists_isChain_cons after
      (by rw [split]; exact within.right_of_append) ?_
    exact Option.some.inj (by rw [← List.getLast?_eq_some_getLast]; exact tail)
  have firstReaches : Relation.ReflTransGen (fun a b => b ∈ next a ∧ b ∈ cycle) first u := by
    cases before with
    | nil =>
      rw [split] at head
      cases head
      exact .refl
    | cons a rest =>
      rw [split] at head
      cases head
      have upTo : (first :: (rest ++ [u])).IsChain fun a b => b ∈ next a ∧ b ∈ cycle := by
        have whole : ((first :: (rest ++ [u])) ++ after).IsChain
            fun a b => b ∈ next a ∧ b ∈ cycle := by
          rw [split] at within ⊢
          simpa using within
        exact whole.left_of_append
      refine List.relationReflTransGen_of_exists_isChain_cons (rest ++ [u]) upTo ?_
      simp
  have isFirst : first ∈ cycle := List.mem_of_head? head
  obtain ⟨v, ⟨step, inCycle⟩, reach⟩ := Relation.TransGen.head'_iff.mp
    (Relation.TransGen.head' ⟨edge, isFirst⟩ firstReaches |>.trans_right reachesLast)
  obtain ⟨rest, walk, nodup, isLast⟩ := exists_nodup_walk reach
  refine ⟨v :: rest, ⟨walk.imp fun _ _ => And.left, v, u, rfl, isLast, step⟩, nodup,
    List.mem_of_getLast? isLast, ?_⟩
  intro w inWalk
  rcases mem_cons.mp inWalk with rfl | later
  · exact inCycle
  · exact targets (S := (· ∈ cycle)) (walk.imp fun _ _ => And.right) w later

theorem exists_successor {r : α → α → Prop} {target : α} (rest : List α) {first : α}
    (chain : (first :: rest).IsChain r) (nodup : (first :: rest).Nodup) :
    ∃ succ : α → α, (first :: rest).IsChain (fun a b => succ a = b ∧ r a b) ∧
      ∀ last, (first :: rest).getLast? = some last → succ last = target := by
  induction rest generalizing first with
  | nil => exact ⟨fun _ => target, List.isChain_singleton _, fun _ _ => rfl⟩
  | cons b rest ih =>
    classical
    obtain ⟨edge, further⟩ := isChain_cons_cons.mp chain
    obtain ⟨fresh, nodupRest⟩ := nodup_cons.mp nodup
    obtain ⟨succ, follows, closes⟩ := ih further nodupRest
    have apart : ∀ a ∈ b :: rest, a ≠ first := fun a member same => fresh (same ▸ member)
    refine ⟨update succ first b, isChain_cons_cons.mpr
      ⟨⟨update_self _ _ _, edge⟩, ?_⟩, ?_⟩
    · refine follows.imp_of_mem_imp fun a c isSource _ step => ⟨?_, step.2⟩
      rw [update_of_ne (apart a isSource)]
      exact step.1
    · intro last isLast
      rw [List.getLast?_cons_cons] at isLast
      rw [update_of_ne (apart last (List.mem_of_getLast? isLast))]
      exact closes last isLast

end SimpleCycles

section Following

variable [DecidableEq α] {next : α → List α} {report : List α → α → β}

theorem explore_follows {first : α} (rest : List α) {u : α} {s : Search α β} {fuel : Nat}
    (leads : (u :: rest).IsChain fun a b => (next a).head? = some b)
    (closes : ∀ last, (u :: rest).getLast? = some last → (next last).head? = some first)
    (nodup : (u :: rest).Nodup) (white : ∀ v ∈ u :: rest, s.colour v = .white)
    (grey : first = u ∨ s.colour first = .grey) (enough : rest.length < fuel) :
    ∃ s', explore next report fuel s u = some s' ∧
      s'.found = some (report (s.stack ++ u :: rest) first) := by
  induction rest generalizing u s fuel with
  | nil =>
    obtain ⟨levels, rfl⟩ : ∃ levels, fuel = levels + 1 := ⟨fuel - 1, by omega⟩
    obtain ⟨others, neighbours⟩ := List.head?_eq_some_iff.mp (closes u rfl)
    have isGrey : (s.enter u).colour first = .grey := by
      rcases grey with same | before
      · rw [same]
        exact update_self _ _ _
      · by_cases same : first = u
        · rw [same]
          exact update_self _ _ _
        · show update s.colour u .grey first = _
          rw [update_of_ne same]
          exact before
    refine ⟨{ s.enter u with found := some (report (s.enter u).stack first) }, ?_, rfl⟩
    simp [explore, neighbours, scan, isGrey]
  | cons v rest ih =>
    obtain ⟨levels, rfl⟩ : ∃ levels, fuel = levels + 1 := ⟨fuel - 1, by omega⟩
    obtain ⟨edge, further⟩ := isChain_cons_cons.mp leads
    obtain ⟨others, neighbours⟩ := List.head?_eq_some_iff.mp edge
    obtain ⟨fresh, nodupRest⟩ := nodup_cons.mp nodup
    have others' : ∀ w ∈ v :: rest, (s.enter u).colour w = .white := by
      intro w member
      have apart : w ≠ u := fun same => fresh (same ▸ member)
      show update s.colour u .grey w = _
      rw [update_of_ne apart]
      exact white w (List.mem_cons_of_mem _ member)
    have greyThen : first = v ∨ (s.enter u).colour first = .grey := by
      right
      show update s.colour u .grey first = _
      by_cases same : first = u
      · rw [same, update_self]
      · rw [update_of_ne same]
        exact grey.resolve_left same
    obtain ⟨s', ran, found⟩ := ih further (fun last isLast => closes last (by
      rw [List.getLast?_cons_cons]
      exact isLast)) nodupRest others' greyThen (by
        rw [List.length_cons] at enough
        omega : rest.length < levels)
    refine ⟨s', ?_, ?_⟩
    · have here : (s.enter u).colour v = .white := others' v List.mem_cons_self
      simp [explore, neighbours, scan, here, ran, found]
    · rw [found]
      show some (report (s.stack ++ [u] ++ v :: rest) first) = _
      rw [List.append_assoc, List.singleton_append]

theorem searchFrom_follows {first : α} {rest roots : List α} {fuel : Nat}
    (leads : (first :: rest).IsChain fun a b => (next a).head? = some b)
    (closes : ∀ last, (first :: rest).getLast? = some last → (next last).head? = some first)
    (nodup : (first :: rest).Nodup) (enough : rest.length < fuel) :
    searchFrom next report fuel Search.start (first :: roots) =
      some (some (report (first :: rest) first)) := by
  obtain ⟨s', ran, whole⟩ : ∃ s', explore next report fuel Search.start first = some s' ∧
      s'.found = some (report (first :: rest) first) :=
    explore_follows rest leads closes nodup (fun _ _ => rfl) (.inl rfl) enough
  have white : (Search.start : Search α β).colour first = .white := rfl
  rw [searchFrom, if_pos white, ran, Option.bind_some, whole]
  rfl

end Following

end GraniteDb.Lib.DepthFirst
