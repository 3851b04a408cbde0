/- Recursive descent with one token of lookahead, and the languages such parsers read. -/

import Mathlib.Data.List.Basic

namespace GraniteDb.Lib.Descent

open List (length_append append_assoc length_cons)
open Nat (lt_succ_self le_succ)

variable {τ κ ε α β : Type}

/-- A parser takes the tokens that are left and leaves those it has not consumed. -/
abbrev Parser (τ ε α : Type) := StateT (List τ) (Except ε) α

/-- A language with a value for each of its words, possibly several. -/
def Grammar (τ α : Type) := List τ → α → Prop

namespace Grammar

instance : Monad (Grammar τ) where
  pure a := fun w b => w = [] ∧ b = a
  bind X Y := fun w b => ∃ u a v, w = u ++ v ∧ X u a ∧ Y a v b

@[ext] theorem ext {X Y : Grammar τ α} (same : ∀ w a, X w a ↔ Y w a) : X = Y :=
  funext fun w => funext fun a => propext (same w a)

variable {w : List τ}

@[simp] theorem pure_iff {a b : α} : (pure a : Grammar τ α) w b ↔ w = [] ∧ b = a := Iff.rfl

@[simp] theorem bind_iff {X : Grammar τ α} {Y : α → Grammar τ β} {b : β} :
    (X >>= Y) w b ↔ ∃ u a v, w = u ++ v ∧ X u a ∧ Y a v b := Iff.rfl

def nothing : Grammar τ α := fun _ _ => False

/-- One token, with a value that `accepts` gives it. -/
def token (accepts : τ → α → Prop) : Grammar τ α := fun w a => ∃ t, w = [t] ∧ accepts t a

def either (X Y : Grammar τ α) : Grammar τ α := fun w a => X w a ∨ Y w a

variable (kind : τ → κ)

/-- A token of one of the kinds and then `X`, or else `Y`. -/
def choice (kinds : List κ) (X : τ → Grammar τ α) (Y : Grammar τ α) : Grammar τ α := fun w a =>
  (∃ t v, w = t :: v ∧ kind t ∈ kinds ∧ X t v a) ∨ Y w a

/-- Rounds of `X`, each opened by a token of one of the kinds, that carry a value along. -/
inductive Rounds (kinds : List κ) (X : τ → α → Grammar τ α) : α → List τ → α → Prop
  | done (a : α) : Rounds kinds X a [] a
  | again {t : τ} {a b c : α} {u v : List τ} (opens : kind t ∈ kinds) (round : X t a u b)
      (rest : Rounds kinds X b v c) : Rounds kinds X a (t :: (u ++ v)) c

def rounds (kinds : List κ) (X : τ → α → Grammar τ α) (a : α) : Grammar τ α :=
  Rounds kind kinds X a

theorem rounds_eq (kinds : List κ) (X : τ → α → Grammar τ α) (a : α) :
    rounds kind kinds X a
      = choice kind kinds (fun t => X t a >>= rounds kind kinds X) (pure a) := by
  ext w c
  constructor
  · intro h
    cases h with
    | done => exact .inr ⟨rfl, rfl⟩
    | again opens round rest => exact .inl ⟨_, _, rfl, opens, _, _, _, rfl, round, rest⟩
  · rintro (⟨t, _, rfl, opens, u, b, v, rfl, round, rest⟩ | ⟨rfl, rfl⟩)
    · exact .again opens round rest
    · exact .done _

variable {kind} {kinds : List κ}

theorem Rounds.snoc {X : τ → α → Grammar τ α} {a b c : α} {u : List τ} {t : τ}
    (run : Rounds kind kinds X a w b) (opens : kind t ∈ kinds) (round : X t b u c) :
    Rounds kind kinds X a (w ++ t :: u) c := by
  induction run with
  | done => simpa using Rounds.again opens round (.done _)
  | again opens' round' _ ih =>
    simpa only [List.cons_append, append_assoc] using Rounds.again opens' round' (ih round)

end Grammar

namespace Parser

variable {f : α → Parser τ ε β}

theorem bind_of_ok {p : Parser τ ε α} {ts rest : List τ} {a : α}
    (run : p ts = .ok (a, rest)) : (p >>= f) ts = f a rest := by
  change (p ts >>= fun x => f x.1 x.2) = f a rest
  rw [run]
  rfl

theorem bind_ok {p : Parser τ ε α} {ts rest : List τ} {b : β}
    (run : (p >>= f) ts = .ok (b, rest)) :
    ∃ a middle, p ts = .ok (a, middle) ∧ f a middle = .ok (b, rest) := by
  cases h : p ts with
  | error e =>
    change (p ts >>= fun x => f x.1 x.2) = _ at run
    rw [h] at run
    cases run
  | ok x =>
    rw [bind_of_ok h] at run
    exact ⟨x.1, x.2, rfl, run⟩

end Parser

section Parsers

variable (kind : τ → κ) [DecidableEq κ]

def next (read : τ → Except ε α) (atEnd : ε) : Parser τ ε α
  | [] => .error atEnd
  | t :: rest => (read t).map (·, rest)

/-- Consume a token of one of the kinds and go on with `p`, or else do `q`. -/
def ifMatch (kinds : List κ) (p : τ → Parser τ ε α) (q : Parser τ ε α) : Parser τ ε α
  | [] => q []
  | t :: rest => if kind t ∈ kinds then p t rest else q (t :: rest)

/-- Do `p` when the next token is of one of the kinds, which is not consumed, or else `q`. -/
def ifPeek (kinds : List κ) (p q : Parser τ ε α) : Parser τ ε α
  | [] => q []
  | t :: rest => if kind t ∈ kinds then p (t :: rest) else q (t :: rest)

/-- As many rounds as tokens of the kinds open, at most `fuel`. -/
def whileFuel (kinds : List κ) (body : τ → α → Parser τ ε α) : Nat → α → Parser τ ε α
  | 0, acc => pure acc
  | fuel + 1, acc =>
    ifMatch kind kinds (fun t => body t acc >>= whileFuel kinds body fuel) (pure acc)

/-- `while (Match(kind)) acc = body(acc)`. Every round consumes a token, so there are no more
rounds than tokens. -/
def whileMatch (kinds : List κ) (body : τ → α → Parser τ ε α) (acc : α) : Parser τ ε α :=
  fun ts => whileFuel kind kinds body (ts.length + 1) acc ts

end Parsers

/-- What one token of lookahead has to know: the kinds a word starts with, the kinds that continue a
word that could also end, and whether there is an empty word and one at all. -/
structure Shape (κ : Type) where
  first : List κ
  continues : List κ
  empty : Bool
  live : Bool

namespace Shape

def nothing : Shape κ := ⟨[], [], false, false⟩

def unit : Shape κ := ⟨[], [], true, true⟩

def one (kinds : List κ) : Shape κ := ⟨kinds, [], false, true⟩

def seq (s r : Shape κ) : Shape κ where
  first := if s.empty then s.first ++ r.first else s.first
  continues := if r.empty then s.continues ++ r.continues else r.continues
  empty := s.empty && r.empty
  live := s.live && r.live

theorem seq_unit (s : Shape κ) : s.seq unit = s := by
  cases s
  simp [seq, unit]

def choice (kinds : List κ) (s r : Shape κ) : Shape κ where
  first := kinds ++ r.first
  continues := s.continues ++ r.continues ++ if r.empty then kinds else []
  empty := r.empty
  live := s.live && !kinds.isEmpty || r.live

def either (s r : Shape κ) : Shape κ where
  first := s.first ++ r.first
  continues := s.continues ++ r.continues
  empty := s.empty || r.empty
  live := s.live || r.live

end Shape

/-- The language has the shape, and no word of it has a token of the kind `last`. -/
structure HasShape (kind : τ → κ) (last : κ) (X : Grammar τ α) (s : Shape κ) : Prop where
  first : ∀ t w a, X (t :: w) a → kind t ∈ s.first
  empty : (∃ a, X [] a) ↔ s.empty = true
  live : s.live = true → ∃ w a, X w a
  proper : ∀ w a, X w a → ∀ t ∈ w, kind t ≠ last

namespace HasShape

variable {kind : τ → κ} {last : κ} {X : Grammar τ α} {Y : α → Grammar τ β} {s r : Shape κ}

theorem nothing : HasShape kind last (Grammar.nothing : Grammar τ α) .nothing where
  first _ _ _ h := h.elim
  empty := by simp [Grammar.nothing, Shape.nothing]
  live h := by simp [Shape.nothing] at h
  proper _ _ h := h.elim

theorem unit (a : α) : HasShape kind last (pure a : Grammar τ α) .unit where
  first _ _ _ h := by simp at h
  empty := by simp [Shape.unit]
  live _ := ⟨[], a, by simp⟩
  proper := by
    rintro _ _ ⟨rfl, -⟩
    simp

theorem token {accepts : τ → α → Prop}
    (kinds_of : ∀ t a, accepts t a → kind t ∈ kinds) (some : ∃ t a, accepts t a)
    (apart : last ∉ kinds) : HasShape kind last (Grammar.token accepts) (.one kinds) where
  first := by
    rintro t w a ⟨_, same, accepted⟩
    obtain ⟨rfl, -⟩ := List.cons.inj same
    exact kinds_of _ _ accepted
  empty := by simp [Grammar.token, Shape.one]
  live _ := by
    obtain ⟨t, a, accepted⟩ := some
    exact ⟨[t], a, t, rfl, accepted⟩
  proper := by
    rintro _ _ ⟨t, rfl, accepted⟩ _ member rfl
    rw [List.mem_singleton.mp member] at apart
    exact apart (kinds_of _ _ accepted)

theorem either {X Y : Grammar τ α} (left : HasShape kind last X s)
    (right : HasShape kind last Y r) : HasShape kind last (Grammar.either X Y) (s.either r) where
  first t w a := by
    rintro (word | word)
    · exact List.mem_append_left _ (left.first t w a word)
    · exact List.mem_append_right _ (right.first t w a word)
  empty := by
    simp only [Grammar.either, exists_or, left.empty, right.empty, Shape.either, Bool.or_eq_true]
  live h := by
    simp only [Shape.either, Bool.or_eq_true] at h
    rcases h with hs | hr
    · obtain ⟨w, a, word⟩ := left.live hs
      exact ⟨w, a, .inl word⟩
    · obtain ⟨w, a, word⟩ := right.live hr
      exact ⟨w, a, .inr word⟩
  proper w a := by
    rintro (word | word)
    · exact left.proper w a word
    · exact right.proper w a word

theorem bind (left : HasShape kind last X s) (right : ∀ a, HasShape kind last (Y a) r) :
    HasShape kind last (X >>= Y) (s.seq r) where
  first := by
    rintro t w b ⟨u, a, v, same, word, rest⟩
    cases u with
    | nil =>
      have nullable := left.empty.mp ⟨a, word⟩
      rw [List.nil_append] at same
      have opens := (right a).first t w b (same ▸ rest)
      simp [Shape.seq, nullable, opens]
    | cons t' u =>
      obtain ⟨rfl, -⟩ := List.cons.inj same
      have opens := left.first _ _ _ word
      cases h : s.empty <;> simp [Shape.seq, h, opens]
  empty := by
    simp only [Grammar.bind_iff, Shape.seq, Bool.and_eq_true]
    constructor
    · rintro ⟨b, u, a, v, same, word, rest⟩
      obtain ⟨rfl, rfl⟩ := List.append_eq_nil_iff.mp same.symm
      exact ⟨left.empty.mp ⟨a, word⟩, (right a).empty.mp ⟨b, rest⟩⟩
    · rintro ⟨hs, hr⟩
      obtain ⟨a, word⟩ := left.empty.mpr hs
      obtain ⟨b, rest⟩ := (right a).empty.mpr hr
      exact ⟨b, [], a, [], rfl, word, rest⟩
  live h := by
    simp only [Shape.seq, Bool.and_eq_true] at h
    obtain ⟨u, a, word⟩ := left.live h.1
    obtain ⟨v, b, rest⟩ := (right a).live h.2
    exact ⟨u ++ v, b, u, a, v, rfl, word, rest⟩
  proper := by
    rintro _ b ⟨u, a, v, rfl, word, rest⟩ t member
    rcases List.mem_append.mp member with inLeft | inRight
    · exact left.proper u a word t inLeft
    · exact (right a).proper v b rest t inRight

theorem choice {X : τ → Grammar τ α} {Y : Grammar τ α}
    (onto : Function.Surjective kind) (apart : last ∉ kinds)
    (left : ∀ t, kind t ∈ kinds → HasShape kind last (X t) s) (right : HasShape kind last Y r) :
    HasShape kind last (Grammar.choice kind kinds X Y) (.choice kinds s r) where
  first := by
    rintro t w a (⟨t', v, same, opens, -⟩ | word)
    · obtain ⟨rfl, -⟩ := List.cons.inj same
      simp [Shape.choice, opens]
    · simp [Shape.choice, right.first t w a word]
  empty := by simpa [Grammar.choice, Shape.choice] using right.empty
  live h := by
    simp only [Shape.choice, Bool.or_eq_true, Bool.and_eq_true] at h
    rcases h with ⟨hs, hk⟩ | hr
    · cases kinds with
      | nil => simp at hk
      | cons k kinds =>
        obtain ⟨t, rfl⟩ := onto k
        obtain ⟨v, a, word⟩ := (left t (by simp)).live hs
        exact ⟨t :: v, a, .inl ⟨t, v, rfl, by simp, word⟩⟩
    · obtain ⟨w, a, word⟩ := right.live hr
      exact ⟨w, a, .inr word⟩
  proper := by
    rintro w a (⟨t, v, rfl, opens, word⟩ | word) t' member
    · rcases List.mem_cons.mp member with rfl | inTail
      · rintro rfl
        exact apart opens
      · exact (left t opens).proper v a word t' inTail
    · exact right.proper w a word t' member

end HasShape

variable (bound : Nat)

/-- On a word followed by `t`, the parser returns the word's value and leaves `t` and the rest. -/
def StopsAt (p : Parser τ ε α) (w : List τ) (a : α) (t : τ) : Prop :=
  ∀ r, (w ++ t :: r).length < bound → p (w ++ t :: r) = .ok (a, t :: r)

/-- On a word followed by `t`, the parser does not return before it has consumed `t`. -/
def Takes (p : Parser τ ε α) (w : List τ) (t : τ) : Prop :=
  ∀ r b rest, (w ++ t :: r).length < bound → p (w ++ t :: r) = .ok (b, rest) →
    rest.length ≤ r.length

/-- On inputs shorter than `bound`, the parser consumes a word of the language, and after every
word it stops exactly where the language has no longer word. -/
structure Recognizes (kind : τ → κ) (last : κ) (p : Parser τ ε α) (X : Grammar τ α)
    (s : Shape κ) : Prop extends HasShape kind last X s where
  sound : ∀ ts a r, ts.length < bound → p ts = .ok (a, r) → ∃ w, ts = w ++ r ∧ X w a
  decides : ∀ w a, X w a → ∀ t, StopsAt bound p w a t ∨
    kind t ∈ s.continues ∧ (∃ v b, X (w ++ t :: v) b) ∧ Takes bound p w t

namespace Recognizes

variable {bound} {kind : τ → κ} {last : κ} {p : Parser τ ε α} {X : Grammar τ α} {s r : Shape κ}

variable {a : α} {kinds : List κ} {Y : Grammar τ α} {q : Parser τ ε α}

section

variable (reads : Recognizes bound kind last p X s)

include reads

theorem length_le {ts rest : List τ}
    (short : ts.length < bound) (run : p ts = .ok (a, rest)) : rest.length ≤ ts.length := by
  obtain ⟨w, rfl, -⟩ := reads.sound ts a rest short run
  simp

theorem stops {w : List τ} {t : τ} (word : X w a)
    (apart : kind t ∉ s.continues) : StopsAt bound p w a t :=
  (reads.decides w a word t).resolve_right fun h => apart h.1

theorem stops_last {w : List τ} {t : τ} (word : X w a)
    (ends : kind t = last) : StopsAt bound p w a t := by
  refine (reads.decides w a word t).resolve_right ?_
  rintro ⟨-, ⟨v, b, longer⟩, -⟩
  exact reads.proper _ b longer t (by simp) ends

end

theorem zero (shape : HasShape kind last X s) : Recognizes 0 kind last p X s where
  toHasShape := shape
  sound _ _ _ short := absurd short (Nat.not_lt_zero _)
  decides _ _ _ _ := .inl fun _ short => absurd short (Nat.not_lt_zero _)

theorem nothing (e : ε) :
    Recognizes bound kind last (throw e : Parser τ ε α) Grammar.nothing .nothing where
  toHasShape := .nothing
  sound _ _ _ _ run := by cases run
  decides _ _ h := h.elim

theorem unit (a : α) : Recognizes bound kind last (pure a : Parser τ ε α) (pure a) .unit where
  toHasShape := .unit a
  sound := by
    rintro ts _ _ - ⟨⟩
    exact ⟨[], rfl, rfl, rfl⟩
  decides := by
    rintro _ _ ⟨rfl, rfl⟩ t
    exact .inl fun r _ => rfl

theorem token {read : τ → Except ε α} {accepts : τ → α → Prop} (atEnd : ε)
    (same : ∀ t a, read t = .ok a ↔ accepts t a)
    (shape : HasShape kind last (Grammar.token accepts) (.one kinds)) :
    Recognizes bound kind last (next read atEnd) (Grammar.token accepts) (.one kinds) where
  toHasShape := shape
  sound := by
    rintro (_ | ⟨t, ts⟩) a r - run
    · cases run
    · cases h : read t with
      | error e => simp [next, h, Except.map] at run
      | ok b =>
        simp only [next, h, Except.map, Except.ok.injEq, Prod.mk.injEq] at run
        obtain ⟨rfl, rfl⟩ := run
        exact ⟨[t], rfl, t, rfl, (same t b).mp h⟩
  decides := by
    rintro _ a ⟨t', rfl, accepted⟩ t
    exact .inl fun r _ => by simp [next, (same t' a).mpr accepted, Except.map]

theorem bind {Y : α → Grammar τ β}
    (left : Recognizes bound kind last p X s)
    (right : ∀ a, Recognizes bound kind last (f a) (Y a) r)
    (apart : ∀ k ∈ r.first, k ∉ s.continues) :
    Recognizes bound kind last (p >>= f) (X >>= Y) (s.seq r) where
  toHasShape := left.toHasShape.bind fun a => (right a).toHasShape
  sound := by
    intro ts b rest short run
    obtain ⟨a, middle, first, second⟩ := Parser.bind_ok run
    obtain ⟨u, rfl, word⟩ := left.sound ts a middle short first
    have shorter : middle.length < bound := by
      simp only [length_append] at short
      omega
    obtain ⟨v, rfl, word'⟩ := (right a).sound middle b rest shorter second
    exact ⟨u ++ v, (append_assoc ..).symm, u, a, v, rfl, word, word'⟩
  decides := by
    rintro _ b ⟨u, a, v, rfl, word, word'⟩ t
    -- whatever the second parser decides after `v` decides the whole, once the first stops
    have resume (stop : ∀ rest, (u ++ v ++ t :: rest).length < bound →
        p (u ++ v ++ t :: rest) = .ok (a, v ++ t :: rest)) :
        StopsAt bound (p >>= f) (u ++ v) b t ∨ kind t ∈ (s.seq r).continues ∧
          (∃ v' b', (X >>= Y) (u ++ v ++ t :: v') b') ∧ Takes bound (p >>= f) (u ++ v) t := by
      rcases (right a).decides v b word' t with stops | ⟨goes, ⟨v', b', longer⟩, takes⟩
      · refine .inl fun rest short => ?_
        rw [Parser.bind_of_ok (stop rest short)]
        exact stops rest (by simp only [length_append] at short ⊢; omega)
      · refine .inr ⟨?_, ⟨v', b', u, a, v ++ t :: v', by simp, word, longer⟩, ?_⟩
        · cases h : r.empty <;> simp [Shape.seq, h, goes]
        · intro rest c left short run
          rw [Parser.bind_of_ok (stop rest short)] at run
          exact takes rest c left (by simp only [length_append] at short ⊢; omega) run
    cases v with
    | cons t' v =>
      refine resume fun rest short => ?_
      have stops := left.stops word (apart _ ((right a).first t' v b word'))
      have enough : (u ++ t' :: (v ++ t :: rest)).length < bound := by simpa using short
      simpa using stops (v ++ t :: rest) enough
    | nil =>
      rcases left.decides u a word t with stops | ⟨goes, ⟨u', a', longer⟩, takes⟩
      · exact resume fun rest short => by simpa using stops rest (by simpa using short)
      · have nullable := (right a).empty.mp ⟨b, word'⟩
        obtain ⟨b', ends⟩ := (right a').empty.mpr nullable
        refine .inr ⟨by simp [Shape.seq, nullable, goes],
          ⟨u', b', u ++ t :: u', a', [], by simp, longer, ends⟩, ?_⟩
        intro rest c left' short run
        rw [List.append_nil] at run short
        obtain ⟨a₂, middle, first, second⟩ := Parser.bind_ok run
        have shorter : middle.length ≤ rest.length := takes rest a₂ middle short first
        have bounded : middle.length < bound := by
          simp only [length_append, length_cons] at short
          omega
        exact Nat.le_trans ((right a₂).length_le bounded second) shorter

theorem map (reads : Recognizes bound kind last p X s) (f : α → β) :
    Recognizes bound kind last (do let a ← p; pure (f a)) (do let a ← X; pure (f a)) s := by
  have all := reads.bind (fun a => .unit (f a)) (by simp [Shape.unit])
  rwa [Shape.seq_unit] at all

theorem choice_succ [DecidableEq κ] {p : τ → Parser τ ε α} {X : τ → Grammar τ α}
    (onto : Function.Surjective kind) (proper : last ∉ kinds)
    (left : ∀ t, kind t ∈ kinds → Recognizes bound kind last (p t) (X t) s)
    (right : Recognizes (bound + 1) kind last q Y r) (apart : ∀ k ∈ kinds, k ∉ r.first)
    (live : r.empty = true → s.live = true) :
    Recognizes (bound + 1) kind last (ifMatch kind kinds p q) (Grammar.choice kind kinds X Y)
      (.choice kinds s r) where
  toHasShape := .choice onto proper (fun t opens => (left t opens).toHasShape) right.toHasShape
  sound := by
    rintro (_ | ⟨t, ts⟩) a rest short run
    · obtain ⟨w, same, word⟩ := right.sound [] a rest short run
      exact ⟨w, same, .inr word⟩
    · by_cases opens : kind t ∈ kinds
      · simp only [ifMatch, opens, if_true] at run
        obtain ⟨w, rfl, word⟩ := (left t opens).sound ts a rest (by simpa using short) run
        exact ⟨t :: w, rfl, .inl ⟨t, w, rfl, opens, word⟩⟩
      · simp only [ifMatch, opens, if_false] at run
        obtain ⟨w, same, word⟩ := right.sound (t :: ts) a rest short run
        exact ⟨w, same, .inr word⟩
  decides := by
    rintro w a (⟨t', v, rfl, opens, word⟩ | word) t
    · have step (rest : List τ) : ifMatch kind kinds p q (t' :: v ++ t :: rest)
          = p t' (v ++ t :: rest) := by simp [ifMatch, opens]
      rcases (left t' opens).decides v a word t with stops | ⟨goes, ⟨v', b, longer⟩, takes⟩
      · refine .inl fun rest short => ?_
        rw [step]
        exact stops rest (by simpa using short)
      · refine .inr ⟨by simp [Shape.choice, goes],
          ⟨v', b, .inl ⟨t', v ++ t :: v', rfl, opens, longer⟩⟩, ?_⟩
        intro rest c left' short run
        rw [step] at run
        exact takes rest c left' (by simpa using short) run
    · by_cases taken : w = [] ∧ kind t ∈ kinds
      · obtain ⟨rfl, opens⟩ := taken
        have nullable := right.empty.mp ⟨a, word⟩
        obtain ⟨v, b, longer⟩ := (left t opens).live (live nullable)
        refine .inr ⟨by simp [Shape.choice, nullable, opens],
          ⟨v, b, .inl ⟨t, v, rfl, opens, longer⟩⟩, ?_⟩
        intro rest c left' short run
        simp only [List.nil_append, ifMatch, opens, if_true] at run
        exact (left t opens).length_le (by simpa using short) run
      · have step (rest : List τ) : ifMatch kind kinds p q (w ++ t :: rest)
            = q (w ++ t :: rest) := by
          cases w with
          | nil => simpa [ifMatch] using fun opens => absurd ⟨rfl, opens⟩ taken
          | cons t' w =>
            have opens := right.first t' w a word
            have skipped : kind t' ∉ kinds := fun member => apart _ member opens
            simp [ifMatch, skipped]
        rcases right.decides w a word t with stops | ⟨goes, ⟨v', b, longer⟩, takes⟩
        · exact .inl fun rest short => by rw [step]; exact stops rest short
        · refine .inr ⟨by simp [Shape.choice, goes], ⟨v', b, .inr longer⟩, ?_⟩
          intro rest c left' short run
          rw [step] at run
          exact takes rest c left' short run

theorem ifPeek [DecidableEq κ] {p : Parser τ ε α} {X : Grammar τ α}
    (left : Recognizes bound kind last p X s) (right : Recognizes bound kind last q Y r)
    (within : ∀ k ∈ s.first, k ∈ kinds) (apart : ∀ k ∈ r.first, k ∉ kinds)
    (leftOpens : s.empty = false) (rightOpens : r.empty = false) :
    Recognizes bound kind last (ifPeek kind kinds p q) (Grammar.either X Y) (s.either r) where
  toHasShape := .either left.toHasShape right.toHasShape
  sound := by
    rintro (_ | ⟨t, ts⟩) a rest short run
    · obtain ⟨w, same, word⟩ := right.sound [] a rest short run
      exact ⟨w, same, .inr word⟩
    · by_cases opens : kind t ∈ kinds
      · simp only [Descent.ifPeek, opens, if_true] at run
        obtain ⟨w, same, word⟩ := left.sound (t :: ts) a rest short run
        exact ⟨w, same, .inl word⟩
      · simp only [Descent.ifPeek, opens, if_false] at run
        obtain ⟨w, same, word⟩ := right.sound (t :: ts) a rest short run
        exact ⟨w, same, .inr word⟩
  decides := by
    rintro w a (word | word) t
    · cases w with
      | nil => exact absurd (left.empty.mp ⟨a, word⟩) (by simp [leftOpens])
      | cons t' w =>
        have opens := within _ (left.first t' w a word)
        refine (left.decides (t' :: w) a word t).imp (fun stops rest short => ?_) ?_
        · simpa [Descent.ifPeek, opens] using stops rest short
        · rintro ⟨goes, ⟨v, b, longer⟩, takes⟩
          refine ⟨List.mem_append_left _ goes, ⟨v, b, .inl longer⟩, fun rest c left' short run => ?_⟩
          exact takes rest c left' short (by simpa [Descent.ifPeek, opens] using run)
    · cases w with
      | nil => exact absurd (right.empty.mp ⟨a, word⟩) (by simp [rightOpens])
      | cons t' w =>
        have skips := apart _ (right.first t' w a word)
        refine (right.decides (t' :: w) a word t).imp (fun stops rest short => ?_) ?_
        · simpa [Descent.ifPeek, skips] using stops rest short
        · rintro ⟨goes, ⟨v, b, longer⟩, takes⟩
          refine ⟨List.mem_append_right _ goes, ⟨v, b, .inr longer⟩, fun rest c left' short run => ?_⟩
          exact takes rest c left' short (by simpa [Descent.ifPeek, skips] using run)

section

variable (reads : Recognizes bound kind last p X s)

include reads

theorem weaken {s' : Shape κ}
    (first : ∀ k ∈ s.first, k ∈ s'.first) (continues : ∀ k ∈ s.continues, k ∈ s'.continues)
    (empty : s.empty = s'.empty) (live : s'.live = true → s.live = true) :
    Recognizes bound kind last p X s' where
  first t w a word := first _ (reads.first t w a word)
  empty := empty ▸ reads.empty
  live h := reads.live (live h)
  proper := reads.proper
  sound := reads.sound
  decides w a word t := (reads.decides w a word t).imp_right fun ⟨goes, more⟩ =>
    ⟨continues _ goes, more⟩

theorem congr
    (same : ∀ ts, ts.length < bound → q ts = p ts) : Recognizes bound kind last q X s where
  toHasShape := reads.toHasShape
  sound ts a r short run := reads.sound ts a r short (same ts short ▸ run)
  decides w a word t := by
    rcases reads.decides w a word t with stops | ⟨goes, longer, takes⟩
    · exact .inl fun r short => by rw [same _ short]; exact stops r short
    · exact .inr ⟨goes, longer, fun r b rest short run =>
        takes r b rest short (same _ short ▸ run)⟩

theorem mono {shorter : Nat} (le : shorter ≤ bound) :
    Recognizes shorter kind last p X s where
  toHasShape := reads.toHasShape
  sound ts a r short := reads.sound ts a r (by omega)
  decides w a word t := by
    rcases reads.decides w a word t with stops | ⟨goes, longer, takes⟩
    · exact .inl fun r short => stops r (by omega)
    · exact .inr ⟨goes, longer, fun r b rest short => takes r b rest (by omega)⟩

end

theorem choice [DecidableEq κ] {p : τ → Parser τ ε α} {X : τ → Grammar τ α}
    (onto : Function.Surjective kind) (proper : last ∉ kinds)
    (left : ∀ t, kind t ∈ kinds → Recognizes bound kind last (p t) (X t) s)
    (right : Recognizes bound kind last q Y r) (apart : ∀ k ∈ kinds, k ∉ r.first)
    (live : r.empty = true → s.live = true) :
    Recognizes bound kind last (ifMatch kind kinds p q) (Grammar.choice kind kinds X Y)
      (.choice kinds s r) := by
  cases bound with
  | zero => exact .zero (.choice onto proper (fun t opens => (left t opens).toHasShape)
      right.toHasShape)
  | succ bound =>
    exact choice_succ onto proper (fun t opens => (left t opens).mono (le_succ bound)) right
      apart live

end Recognizes

/-- Two parsers do the same on inputs shorter than `bound`. -/
def AgreeBelow (p q : Parser τ ε α) : Prop := ∀ ts : List τ, ts.length < bound → q ts = p ts

namespace AgreeBelow

variable {bound} {kind : τ → κ} {last : κ} {p q : Parser τ ε α} {X : Grammar τ α} {s : Shape κ}

theorem refl (p : Parser τ ε α) : AgreeBelow bound p p := fun _ _ => rfl

theorem bind {f g : α → Parser τ ε β} (reads : Recognizes bound kind last p X s)
    (first : AgreeBelow bound p q) (second : ∀ a, AgreeBelow bound (f a) (g a)) :
    AgreeBelow bound (p >>= f) (q >>= g) := by
  intro ts short
  change (q ts >>= fun x => g x.1 x.2) = (p ts >>= fun x => f x.1 x.2)
  rw [first ts short]
  cases h : p ts with
  | error e => rfl
  | ok x =>
    have shorter : x.2.length ≤ ts.length := reads.length_le short h
    exact second x.1 x.2 (by omega)

theorem ifMatch_succ [DecidableEq κ] {p p' : τ → Parser τ ε α}
    {q q' : Parser τ ε α} (left : ∀ t, kind t ∈ kinds → AgreeBelow bound (p t) (p' t))
    (right : AgreeBelow (bound + 1) q q') :
    AgreeBelow (bound + 1) (ifMatch kind kinds p q) (ifMatch kind kinds p' q') := by
  rintro (_ | ⟨t, ts⟩) short
  · exact right [] short
  · by_cases opens : kind t ∈ kinds
    · simpa [Descent.ifMatch, opens] using left t opens ts (by simpa using short)
    · simpa [Descent.ifMatch, opens] using right (t :: ts) short

theorem zero (p q : Parser τ ε α) : AgreeBelow 0 p q := fun _ short =>
  absurd short (Nat.not_lt_zero _)

theorem mono {shorter : Nat} (same : AgreeBelow bound p q) (le : shorter ≤ bound) :
    AgreeBelow shorter p q := fun ts short => same ts (by omega)

theorem ifMatch [DecidableEq κ] {p p' : τ → Parser τ ε α}
    {q q' : Parser τ ε α} (left : ∀ t, kind t ∈ kinds → AgreeBelow bound (p t) (p' t))
    (right : AgreeBelow bound q q') :
    AgreeBelow bound (ifMatch kind kinds p q) (ifMatch kind kinds p' q') := by
  cases bound with
  | zero => exact .zero _ _
  | succ bound => exact ifMatch_succ (fun t opens => (left t opens).mono (le_succ bound)) right

end AgreeBelow

namespace Recognizes

variable {bound} {kind : τ → κ} {last : κ} {p : Parser τ ε α} {X : Grammar τ α} {s r : Shape κ}

theorem of_fuel {f : Nat → Parser τ ε α}
    (reads : ∀ b n, b ≤ n → Recognizes b kind last (f n) X s)
    (steady : ∀ b n m, b ≤ n → b ≤ m → AgreeBelow b (f n) (f m)) :
    Recognizes bound kind last (fun ts => f (ts.length + 1) ts) X s :=
  (reads bound bound (Nat.le_refl _)).congr fun ts short =>
    steady (ts.length + 1) bound (ts.length + 1) short (Nat.le_refl _) ts (lt_succ_self _)

section Loop

variable {kinds : List κ} {body : τ → α → Parser τ ε α}
  {Y : τ → α → Grammar τ α}

/-- The shape of a loop whose rounds have the shape `s`. -/
def loopShape (kinds : List κ) (s : Shape κ) : Shape κ :=
  ⟨kinds, s.continues ++ kinds, true, true⟩

theorem rounds_shape (proper : last ∉ kinds) (a : α)
    (shape : ∀ t a, kind t ∈ kinds → HasShape kind last (Y t a) s) :
    HasShape kind last (Grammar.rounds kind kinds Y a) (loopShape kinds s) where
  first t w b word := by
    rw [Grammar.rounds_eq] at word
    rcases word with ⟨t', v, same, opens, -⟩ | ⟨same, -⟩
    · obtain ⟨rfl, -⟩ := List.cons.inj same
      exact opens
    · simp at same
  empty := by simpa [loopShape] using ⟨a, Grammar.Rounds.done a⟩
  live _ := ⟨[], a, .done a⟩
  proper w b word := by
    induction word with
    | done => simp
    | again opens round _ ih =>
      intro t member
      rcases List.mem_cons.mp member with rfl | member
      · rintro rfl
        exact proper opens
      · rcases List.mem_append.mp member with inRound | inRest
        · exact (shape _ _ opens).proper _ _ round t inRound
        · exact ih t inRest

variable [DecidableEq κ]

theorem whileFuel (onto : Function.Surjective kind) (proper : last ∉ kinds)
    (live : s.live = true) (apart : ∀ k ∈ kinds, k ∉ s.continues)
    (reads : ∀ t a, kind t ∈ kinds → Recognizes bound kind last (body t a) (Y t a) s)
    (n : Nat) (enough : bound ≤ n) (a : α) :
    Recognizes bound kind last (whileFuel kind kinds body n a) (Grammar.rounds kind kinds Y a)
      (loopShape kinds s) := by
  have shape (a : α) := rounds_shape proper a fun t a opens => (reads t a opens).toHasShape
  induction bound generalizing n a with
  | zero => exact .zero (shape a)
  | succ bound ih =>
    obtain ⟨m, rfl⟩ : ∃ m, n = m + 1 := ⟨n - 1, by omega⟩
    have reads' (t : τ) (a : α) (opens : kind t ∈ kinds) :=
      (reads t a opens).mono (le_succ bound)
    have rest (a : α) := ih reads' m (by omega) a
    have round (t : τ) (opens : kind t ∈ kinds) :=
      (reads' t a opens).bind rest apart
    have all := choice_succ onto proper round (.unit a) (by simp [Shape.unit])
      (fun _ => by simp [Shape.seq, loopShape, live])
    rw [Grammar.rounds_eq]
    refine all.weaken ?_ ?_ rfl (fun _ => ?_)
    · simp [Shape.choice, Shape.unit, loopShape]
    · simp only [Shape.choice, Shape.seq, loopShape, Shape.unit]
      intro k
      simp only [if_true, append_assoc, List.mem_append]
      tauto
    · simp [Shape.choice, Shape.unit]

variable {body' : τ → α → Parser τ ε α}

theorem steady_whileFuel
    (reads : ∀ t a, kind t ∈ kinds → Recognizes bound kind last (body t a) (Y t a) s)
    (same : ∀ t a, kind t ∈ kinds → AgreeBelow bound (body t a) (body' t a)) (n m : Nat)
    (left : bound ≤ n) (right : bound ≤ m) (a : α) :
    AgreeBelow bound (Descent.whileFuel kind kinds body n a)
      (Descent.whileFuel kind kinds body' m a) := by
  induction bound generalizing n m a with
  | zero => exact .zero _ _
  | succ bound ih =>
    obtain ⟨n, rfl⟩ : ∃ k, n = k + 1 := ⟨n - 1, by omega⟩
    obtain ⟨m, rfl⟩ : ∃ k, m = k + 1 := ⟨m - 1, by omega⟩
    have reads' (t : τ) (a : α) (opens : kind t ∈ kinds) :=
      (reads t a opens).mono (le_succ bound)
    have same' (t : τ) (a : α) (opens : kind t ∈ kinds) :=
      (same t a opens).mono (le_succ bound)
    have rest (a : α) := ih reads' same' n m (by omega) (by omega) a
    exact .ifMatch_succ (fun t opens => .bind (reads' t a opens) (same' t a opens) rest) (.refl _)

theorem whileMatch (onto : Function.Surjective kind) (proper : last ∉ kinds)
    (live : s.live = true) (apart : ∀ k ∈ kinds, k ∉ s.continues)
    (reads : ∀ t a, kind t ∈ kinds → Recognizes bound kind last (body t a) (Y t a) s) (a : α) :
    Recognizes bound kind last (whileMatch kind kinds body a) (Grammar.rounds kind kinds Y a)
      (loopShape kinds s) :=
  (whileFuel onto proper live apart reads bound (Nat.le_refl _) a).congr fun ts short =>
    steady_whileFuel (fun t a opens => (reads t a opens).mono short)
      (fun t a _ => .refl (body t a)) bound (ts.length + 1) short (Nat.le_refl _) a ts
      (lt_succ_self _)

theorem agree_whileMatch
    (reads : ∀ t a, kind t ∈ kinds → Recognizes bound kind last (body t a) (Y t a) s)
    (same : ∀ t a, kind t ∈ kinds → AgreeBelow bound (body t a) (body' t a)) (a : α) :
    AgreeBelow bound (Descent.whileMatch kind kinds body a)
      (Descent.whileMatch kind kinds body' a) := fun ts short =>
  steady_whileFuel (fun t a opens => (reads t a opens).mono short)
    (fun t a opens => (same t a opens).mono short) (ts.length + 1) (ts.length + 1)
    (Nat.le_refl _) (Nat.le_refl _) a ts (lt_succ_self _)

end Loop

section WholeInput

variable (reads : ∀ bound, Recognizes bound kind last p X s)
include reads

variable {a : α} {w : List τ}

theorem accepts_iff {e : τ} (ends : kind e = last) : p (w ++ [e]) = .ok (a, [e]) ↔ X w a := by
  constructor
  · intro run
    obtain ⟨u, same, word⟩ := (reads _).sound _ a [e] (lt_succ_self _) run
    rwa [List.append_cancel_right same]
  · intro word
    exact (reads _).stops_last word ends [] (lt_succ_self _)

section

variable (onto : Function.Surjective kind)

include onto

theorem takes_of_longer {t : τ} (word : X w a)
    (longer : ∃ v b, X (w ++ t :: v) b) (limit : Nat) : Takes limit p w t := by
  obtain ⟨v, b, longer⟩ := longer
  obtain ⟨e, ends⟩ := onto last
  have wide := reads (max limit (w.length + v.length + 3))
  rcases wide.decides w a word t with stops | ⟨-, -, takes⟩
  · have short : (w ++ t :: (v ++ [e])).length < max limit (w.length + v.length + 3) := by
      simp only [length_append, length_cons, List.length_nil]
      omega
    have whole := (accepts_iff reads ends).mpr longer
    rw [append_assoc, List.cons_append, stops (v ++ [e]) short] at whole
    injection whole with same
    have lengths := congrArg (fun x => x.2.length) same
    simp at lengths
  · exact fun r b rest short => takes r b rest (by omega)

theorem stops_iff {t : τ} (word : X w a) :
    (∀ r, p (w ++ t :: r) = .ok (a, t :: r)) ↔ ¬ ∃ v b, X (w ++ t :: v) b := by
  constructor
  · intro stops longer
    have takes := takes_of_longer reads onto word longer ((w ++ [t]).length + 1)
    have shorter := takes [] a [t] (lt_succ_self _) (stops [])
    simp at shorter
  · intro none_longer r
    rcases (reads _).decides w a word t with stops | ⟨-, longer, -⟩
    · exact stops r (lt_succ_self _)
    · exact absurd longer none_longer

theorem whole_iff {body : List τ} {e : τ} (ends : kind e = last) :
    (∀ a r, p (body ++ [e]) = .ok (a, r) → r = [e] ∧ X body a) ↔
      ∀ w t v a, body = w ++ t :: v → X w a → ∃ v' b, X (w ++ t :: v') b := by
  constructor
  · rintro whole w t v a rfl word
    by_contra none_longer
    have stops := (stops_iff reads onto word).mpr none_longer (v ++ [e])
    have ended := (whole a (t :: (v ++ [e])) (by simpa using stops)).1
    simp at ended
  · intro open_ a r run
    obtain ⟨w, same, word⟩ := (reads _).sound _ a r (lt_succ_self _) run
    rcases List.append_eq_append_iff.mp same with ⟨v, rfl, rest⟩ | ⟨v, rfl, rest⟩
    · cases v with
      | nil => exact ⟨by simpa using rest.symm, by simpa using word⟩
      | cons e' v =>
        obtain ⟨rfl, -⟩ := List.cons.inj rest
        exact absurd ends ((reads 0).proper _ a word e (by simp))
    · cases v with
      | nil => exact ⟨by simpa using rest, by simpa using word⟩
      | cons t v =>
        have takes := takes_of_longer reads onto word (open_ w t v a rfl word)
          ((w ++ t :: (v ++ [e])).length + 1)
        have shorter := takes (v ++ [e]) a r (lt_succ_self _) (by simpa using run)
        simp only [rest, length_append, length_cons] at shorter
        omega

end

end WholeInput

end Recognizes

end GraniteDb.Lib.Descent
