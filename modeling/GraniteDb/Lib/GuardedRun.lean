/- Runs of a partial step function whose every step meets a guard. -/

import Mathlib.Data.List.Basic

namespace GraniteDb.Lib.GuardedRun

universe u v

variable {σ : Type u} {α : Type v}

/-- `Run step ok s l t`: the labels `l` lead from `s` to `t`, and every label was
issued in a state in which the guard `ok` allowed it. -/
inductive Run (step : σ → α → Option σ) (ok : σ → α → Prop) (s : σ) : List α → σ → Prop
  | nil : Run step ok s [] s
  | snoc {l : List α} {m t : σ} {a : α} :
      Run step ok s l m → ok m a → step m a = some t → Run step ok s (l ++ [a]) t

variable {step : σ → α → Option σ} {ok : σ → α → Prop} {s t : σ} {l : List α}

theorem Run.invariant (P : σ → Prop) (start : P s)
    (preserved : ∀ m a t, P m → ok m a → step m a = some t → P t)
    (run : Run step ok s l t) : P t := by
  induction run with
  | nil => exact start
  | snoc _ allowed taken ih => exact preserved _ _ _ ih allowed taken

theorem Run.append {l' : List α} {m : σ} (first : Run step ok s l m)
    (second : Run step ok m l' t) : Run step ok s (l ++ l') t := by
  induction second with
  | nil => simpa using first
  | snoc _ allowed taken ih =>
    rw [← List.append_assoc]
    exact .snoc ih allowed taken

def exec (step : σ → α → Option σ) : σ → List α → Option σ
  | s, [] => some s
  | s, a :: l => (step s a).bind fun m => exec step m l

theorem run_of_exec [∀ s a, Decidable (ok s a)]
    (executed : exec (fun s a => if ok s a then step s a else none) s l = some t) :
    Run step ok s l t := by
  induction l generalizing s with
  | nil =>
    cases executed
    exact .nil
  | cons a l ih =>
    simp only [exec, Option.bind_eq_some_iff, Option.ite_none_right_eq_some] at executed
    obtain ⟨m, ⟨allowed, taken⟩, rest⟩ := executed
    have head : Run step ok s ([] ++ [a]) m := .snoc .nil allowed taken
    simpa using head.append (ih rest)

end GraniteDb.Lib.GuardedRun
