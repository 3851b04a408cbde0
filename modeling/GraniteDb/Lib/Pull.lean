/- Streams that are pulled item by item and may fail, and their operators. -/

import Mathlib.Data.List.Basic
import Mathlib.Data.Multiset.Defs

set_option linter.dupNamespace false

namespace GraniteDb.Lib.Pull

open List (mem_cons_of_mem mem_cons_self mem_cons)

universe u v

/-- What pulling a stream yields: its items in order, then the end or a failure. -/
inductive Pull (α : Type u)
  | done
  | thrown
  | item (head : α) (rest : Pull α)
  deriving DecidableEq

namespace Pull

variable {α : Type u} {β : Type v}

def items : Pull α → List α
  | done => []
  | thrown => []
  | item a rest => a :: rest.items

def ofList : List α → Pull α
  | [] => done
  | a :: l => item a (ofList l)

def collect : Pull α → Option (List α)
  | done => some []
  | thrown => none
  | item a rest => rest.collect.map (a :: ·)

def multiset (p : Pull α) : Option (Multiset α) := p.collect.map Multiset.ofList

/-- A consumer that drains a stream before it yields anything itself. -/
def drain (f : List α → Pull β) (p : Pull α) : Pull β :=
  match p.collect with
  | some l => f l
  | none => thrown

def append : Pull α → Pull α → Pull α
  | done, q => q
  | thrown, _ => thrown
  | item a rest, q => item a (rest.append q)

def map (f : α → β) : Pull α → Pull β
  | done => done
  | thrown => thrown
  | item a rest => item (f a) (rest.map f)

/-- Keep the items a test accepts; `none` is a failure of the test. -/
def filter (test : α → Option Bool) : Pull α → Pull α
  | done => done
  | thrown => thrown
  | item a rest =>
    match test a with
    | none => thrown
    | some true => item a (rest.filter test)
    | some false => rest.filter test

def take : Nat → Pull α → Pull α
  | 0, _ => done
  | _ + 1, done => done
  | _ + 1, thrown => thrown
  | n + 1, item a rest => item a (rest.take n)

def mapM (f : α → Option β) : Pull α → Pull β
  | done => done
  | thrown => thrown
  | item a rest =>
    match f a with
    | none => thrown
    | some b => item b (rest.mapM f)

def bind (f : α → Pull β) : Pull α → Pull β
  | done => done
  | thrown => thrown
  | item a rest => (f a).append (rest.bind f)

@[simp] theorem items_ofList (l : List α) : (ofList l).items = l := by
  induction l with
  | nil => rfl
  | cons a l ih => simp [ofList, items, ih]

variable {a : α} {p : Pull α} {l : List α} {f : α → Option (List β)}

theorem mem_items_append {q : Pull α} (member : a ∈ (p.append q).items) :
    a ∈ p.items ∨ a ∈ q.items := by
  induction p with
  | done => exact .inr member
  | thrown => cases member
  | item b rest ih =>
    rcases mem_cons.mp member with rfl | later
    · exact .inl mem_cons_self
    · exact (ih later).imp_left (mem_cons_of_mem _)

@[simp] theorem items_map (f : α → β) (p : Pull α) : (p.map f).items = p.items.map f := by
  induction p with
  | done => rfl
  | thrown => rfl
  | item a rest ih => simp [map, items, ih]

variable {test : α → Option Bool}

theorem mem_items_filter (member : a ∈ (p.filter test).items) :
    a ∈ p.items ∧ test a = some true := by
  induction p with
  | done => cases member
  | thrown => cases member
  | item b rest ih =>
    unfold filter at member
    cases verdict : test b with
    | none =>
      rw [verdict] at member
      cases member
    | some keep =>
      rw [verdict] at member
      cases keep with
      | true =>
        rcases mem_cons.mp member with rfl | later
        · exact ⟨mem_cons_self, verdict⟩
        · exact (ih later).imp_left (mem_cons_of_mem _)
      | false => exact (ih member).imp_left (mem_cons_of_mem _)

theorem mem_items_bind {f : α → Pull β} {b : β} (member : b ∈ (p.bind f).items) :
    ∃ a ∈ p.items, b ∈ (f a).items := by
  induction p with
  | done => cases member
  | thrown => cases member
  | item a rest ih =>
    rcases mem_items_append member with here | later
    · exact ⟨a, mem_cons_self, here⟩
    · obtain ⟨a', inRest, yields⟩ := ih later
      exact ⟨a', mem_cons_of_mem _ inRest, yields⟩

theorem collect_some (drained : p.collect = some l) : p.items = l := by
  induction p generalizing l with
  | done =>
    cases drained
    rfl
  | thrown => cases drained
  | item a rest ih =>
    obtain ⟨tail, inner, rfl⟩ := Option.map_eq_some_iff.mp drained
    simp [items, ih inner]

@[simp] theorem collect_ofList (l : List α) : (ofList l).collect = some l := by
  induction l with
  | nil => rfl
  | cons a l ih => simp [ofList, collect, ih]

theorem collect_mapM_ofList (f : α → Option β) (l : List α) :
    ((ofList l).mapM f).collect = l.mapM f := by
  induction l with
  | nil => rfl
  | cons a l ih =>
    cases result : f a with
    | none => simp [ofList, mapM, collect, result]
    | some b =>
      simp only [ofList, mapM, collect, result, ih, List.mapM_cons]
      cases l.mapM f <;> rfl

theorem multiset_ofList (l : List α) : (ofList l).multiset = some (l : Multiset α) := by
  rw [multiset, collect_ofList, Option.map_some]

theorem mapM_ofList {f : α → Option β} {g : α → β} (each : ∀ a ∈ l, f a = some (g a)) :
    (ofList l).mapM f = ofList (l.map g) := by
  induction l with
  | nil => rfl
  | cons a l ih =>
    have rest := ih fun b member => each b (mem_cons_of_mem _ member)
    simp [ofList, mapM, each a mem_cons_self, rest]

theorem mapM_ofList_some {f : α → Option β} {m : List β} (all : l.mapM f = some m) :
    (ofList l).mapM f = ofList m := by
  induction l generalizing m with
  | nil =>
    cases all
    rfl
  | cons a l ih =>
    simp only [List.mapM_cons, Option.bind_eq_bind, Option.bind_eq_some_iff] at all
    obtain ⟨b, here, rest, tail, same⟩ := all
    cases same
    simp [ofList, mapM, here, ih tail]

theorem map_ofList (f : α → β) (l : List α) : (ofList l).map f = ofList (l.map f) := by
  induction l with
  | nil => rfl
  | cons a l ih => simp [ofList, map, ih]

theorem filter_ofList {keep : α → Bool} {l : List α}
    (each : ∀ a ∈ l, test a = some (keep a)) :
    (ofList l).filter test = ofList (l.filter keep) := by
  induction l with
  | nil => rfl
  | cons a l ih =>
    have rest := ih fun b member => each b (mem_cons_of_mem _ member)
    have here := each a mem_cons_self
    cases verdict : keep a with
    | true => simp [ofList, filter, here, verdict, rest]
    | false => simp [ofList, filter, here, verdict, rest]

theorem append_ofList (l m : List α) (p : Pull α) :
    (ofList (l ++ m)).append p = (ofList l).append ((ofList m).append p) := by
  induction l with
  | nil => rfl
  | cons a l ih => simp [ofList, append, ih]

theorem ofList_append (l m : List α) : ofList (l ++ m) = (ofList l).append (ofList m) := by
  induction l with
  | nil => rfl
  | cons a l ih => simp [ofList, append, ih]

theorem bind_ofList {f : α → Pull β} {g : α → List β} (each : ∀ a ∈ l, f a = ofList (g a)) :
    (ofList l).bind f = ofList (l.flatMap g) := by
  induction l with
  | nil => rfl
  | cons a l ih =>
    have rest := ih fun b member => each b (mem_cons_of_mem _ member)
    rw [ofList, bind, each a mem_cons_self, rest, List.flatMap_cons, ofList_append]

/-- The lists that a function gives for some items, up to the first that it fails on. -/
def concat (f : α → Option (List β)) (l : List α) : Pull β :=
  (ofList l).bind fun a =>
    match f a with
    | none => thrown
    | some m => ofList m

theorem collect_append (p q : Pull α) :
    (p.append q).collect = p.collect.bind fun l => q.collect.map (l ++ ·) := by
  induction p with
  | done => simp [append, collect]
  | thrown => rfl
  | item a rest ih =>
    rw [append, collect, ih, collect]
    cases rest.collect <;> simp [Function.comp_def]

theorem collect_append_ofList (l : List α) (p : Pull α) :
    ((ofList l).append p).collect = p.collect.map (l ++ ·) := by
  rw [collect_append, collect_ofList, Option.bind_some]

theorem collect_map (f : α → β) (p : Pull α) : (p.map f).collect = p.collect.map (List.map f) := by
  induction p with
  | done => rfl
  | thrown => rfl
  | item a rest ih => simp [map, collect, ih, Function.comp_def]

theorem collect_filter (drained : (p.filter test).collect = some l) :
    p.collect = some p.items ∧ l = p.items.filter fun a => test a == some true := by
  induction p generalizing l with
  | done =>
    cases drained
    exact ⟨rfl, rfl⟩
  | thrown => cases drained
  | item a rest ih =>
    unfold filter at drained
    cases verdict : test a with
    | none =>
      rw [verdict] at drained
      cases drained
    | some keep =>
      rw [verdict] at drained
      cases keep with
      | true =>
        obtain ⟨tail, inner, rfl⟩ := Option.map_eq_some_iff.mp drained
        obtain ⟨whole, kept⟩ := ih inner
        exact ⟨by simp [collect, whole, items], by simp [items, verdict, kept]⟩
      | false =>
        obtain ⟨whole, kept⟩ := ih drained
        exact ⟨by simp [collect, whole, items], by simp [items, verdict, kept]⟩

theorem concat_some {g : α → List β} (each : ∀ a ∈ l, f a = some (g a)) :
    concat f l = ofList (l.flatMap g) := by
  apply bind_ofList
  intro a member
  rw [each a member]

theorem concat_none (member : a ∈ l) (fails : f a = none) : (concat f l).collect = none := by
  induction l with
  | nil => cases member
  | cons b l ih =>
    unfold concat at ih ⊢
    cases result : f b with
    | none => simp [ofList, bind, append, collect, result]
    | some m =>
      rcases mem_cons.mp member with rfl | later
      · rw [fails] at result
        cases result
      · simp [ofList, bind, result, collect_append_ofList, ih later]

theorem concat_congr {α' : Type u} {g : α' → Option (List β)} {m : List α'}
    (each : List.Forall₂ (fun a b => f a = g b) l m) : concat f l = concat g m := by
  induction each with
  | nil => rfl
  | cons here _ ih =>
    unfold concat at ih ⊢
    simp only [ofList, bind, here, ih]

theorem mem_items_drain {f : List α → Pull β} {b : β} (member : b ∈ (p.drain f).items) :
    p.collect = some p.items ∧ b ∈ (f p.items).items := by
  unfold drain at member
  cases drained : p.collect with
  | none =>
    rw [drained] at member
    cases member
  | some l =>
    rw [drained] at member
    rw [collect_some drained]
    exact ⟨rfl, member⟩

end Pull

end GraniteDb.Lib.Pull
