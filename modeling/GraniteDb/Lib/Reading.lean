/- Streams that fetch pages between their items and fail at a fetch that is refused. -/

import GraniteDb.Lib.Pull

set_option linter.dupNamespace false

namespace GraniteDb.Lib.Reading

open Lib.Pull

universe u v

/-- What reading a paged structure does: fetches and items in turn, then the end or a failure. -/
inductive Reading (α : Type u)
  | done
  | failed
  | fetch (next : Reading α)
  | item (head : α) (next : Reading α)
  deriving DecidableEq

namespace Reading

variable {α : Type u} {β : Type v}

def items : Reading α → List α
  | done => []
  | failed => []
  | fetch next => next.items
  | item a next => a :: next.items

def fetches : Reading α → Nat
  | done => 0
  | failed => 0
  | fetch next => next.fetches + 1
  | item _ next => next.fetches

def fails : Reading α → Bool
  | done => false
  | failed => true
  | fetch next => next.fails
  | item _ next => next.fails

/-- Read while `frames` tells which fetches are granted, the next one being the `n`-th. -/
def pull (frames : Nat → Bool) : Nat → Reading α → Pull α
  | _, done => .done
  | _, failed => .thrown
  | n, fetch next => if frames n then next.pull frames (n + 1) else .thrown
  | n, item a next => .item a (next.pull frames n)

def fetchPages : Nat → Reading α → Reading α
  | 0, r => r
  | n + 1, r => fetch (fetchPages n r)

def collectThen (f : List α → Reading β) : List α → Reading α → Reading β
  | before, done => f before
  | _, failed => failed
  | before, fetch next => fetch (next.collectThen f before)
  | before, item a next => next.collectThen f (before ++ [a])

def ofList : List α → Reading α
  | [] => done
  | a :: l => item a (ofList l)

def Completes (frames : Nat → Bool) (n : Nat) (r : Reading α) : Prop :=
  r.fails = false ∧ ∀ k < r.fetches, frames (n + k) = true

theorem completes_fetch {frames : Nat → Bool} {n : Nat} {next : Reading α} :
    (fetch next).Completes frames n ↔ frames n = true ∧ next.Completes frames (n + 1) := by
  simp only [Completes, fails, fetches]
  constructor
  · rintro ⟨sound, granted⟩
    refine ⟨by simpa using granted 0 (Nat.zero_lt_succ _), sound, fun k below => ?_⟩
    have same : n + 1 + k = n + (k + 1) := by omega
    rw [same]
    exact granted (k + 1) (by omega)
  · rintro ⟨first, sound, later⟩
    refine ⟨sound, fun k below => ?_⟩
    cases k with
    | zero => exact first
    | succ k =>
      have same : n + (k + 1) = n + 1 + k := by omega
      rw [same]
      exact later k (by omega)

theorem collect_pull (frames : Nat → Bool) (n : Nat) (r : Reading α) :
    (r.Completes frames n → (r.pull frames n).collect = some r.items) ∧
      (¬ r.Completes frames n → (r.pull frames n).collect = none) := by
  induction r generalizing n with
  | done => simp [Completes, pull, Pull.collect, items, fails, fetches]
  | failed => simp [Completes, pull, Pull.collect, fails]
  | fetch next ih =>
    rw [completes_fetch, pull]
    cases granted : frames n with
    | true => simpa [items] using ih (n + 1)
    | false => simp [Pull.collect]
  | item a next ih =>
    have same : (item a next).Completes frames n ↔ next.Completes frames n := Iff.rfl
    rw [same, pull, Pull.collect, items]
    constructor
    · intro completes
      rw [(ih n).1 completes]
      rfl
    · intro breaks
      rw [(ih n).2 breaks]
      rfl

end Reading

end GraniteDb.Lib.Reading
