/- Loops that yield items turn by turn, and the stream a loop yields. -/

import GraniteDb.Lib.Pull

namespace GraniteDb.Lib.Machine

open Lib.Pull

universe u v

variable {σ : Type u} {α : Type v}

/-- One turn of a loop: it yields an item, goes on, ends or fails. -/
inductive Turn (σ : Type u) (α : Type v)
  | emit (item : α) (next : σ)
  | go (next : σ)
  | stop
  | fail
  deriving DecidableEq

/-- The stream that a loop yields from a state on; a loop that never ends yields none. -/
inductive Yields (turn : σ → Turn σ α) : σ → Pull α → Prop
  | emit {s next : σ} {item : α} {rest : Pull α} (here : turn s = .emit item next)
      (later : Yields turn next rest) : Yields turn s (.item item rest)
  | go {s next : σ} {p : Pull α} (here : turn s = .go next) (later : Yields turn next p) :
      Yields turn s p
  | stop {s : σ} (here : turn s = .stop) : Yields turn s .done
  | fail {s : σ} (here : turn s = .fail) : Yields turn s .thrown

variable {turn : σ → Turn σ α} {s : σ} {p q : Pull α}

theorem Yields.unique (first : Yields turn s p) (second : Yields turn s q) : p = q := by
  induction first generalizing q with
  | emit here _ ih =>
    cases second with
    | emit here' later' =>
      rw [here] at here'
      cases here'
      rw [ih later']
    | go here' _ | stop here' | fail here' =>
      rw [here] at here'
      cases here'
  | go here _ ih =>
    cases second with
    | go here' later' =>
      rw [here] at here'
      cases here'
      exact ih later'
    | emit here' _ | stop here' | fail here' =>
      rw [here] at here'
      cases here'
  | stop here =>
    cases second with
    | stop _ => rfl
    | emit here' _ | go here' _ | fail here' =>
      rw [here] at here'
      cases here'
  | fail here =>
    cases second with
    | fail _ => rfl
    | emit here' _ | go here' _ | stop here' =>
      rw [here] at here'
      cases here'

def run (turn : σ → Turn σ α) : Nat → σ → Option (Pull α)
  | 0, _ => none
  | fuel + 1, s =>
    match turn s with
    | .emit item next => (run turn fuel next).map (.item item)
    | .go next => run turn fuel next
    | .stop => some .done
    | .fail => some .thrown

theorem Yields.of_run (fuel : Nat) (ends : run turn fuel s = some p) : Yields turn s p := by
  induction fuel generalizing s p with
  | zero => cases ends
  | succ fuel ih =>
    rw [run] at ends
    split at ends
    · rename_i item next here
      obtain ⟨rest, later, rfl⟩ := Option.map_eq_some_iff.mp ends
      exact .emit here (ih later)
    · rename_i next here
      exact .go here (ih ends)
    · rename_i here
      cases ends
      exact .stop here
    · rename_i here
      cases ends
      exact .fail here

theorem Yields.of_go {next : σ} (yields : Yields turn s p) (here : turn s = .go next) :
    Yields turn next p := by
  cases yields with
  | go here' later =>
    rw [here] at here'
    cases here'
    exact later
  | emit here' _ | stop here' | fail here' =>
    rw [here] at here'
    cases here'

theorem Yields.congr {s' : σ} (yields : Yields turn s p) (same : turn s' = turn s) :
    Yields turn s' p := by
  cases yields with
  | emit here later => exact .emit (same.trans here) later
  | go here later => exact .go (same.trans here) later
  | stop here => exact .stop (same.trans here)
  | fail here => exact .fail (same.trans here)

end GraniteDb.Lib.Machine
