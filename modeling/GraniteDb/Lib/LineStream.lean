/- Readers of a text line by line, and the texts from which they read a value. -/

import Mathlib.Data.List.Basic

namespace GraniteDb.Lib.LineStream

variable {α ε β γ : Type}

/-- A stream: the line that was read last, what is left, and whether the end has not been hit. -/
structure Stream (α : Type) where
  line : List α
  rest : List α
  good : Bool

/-- The stream behind the next line. Where the end has been hit before, the line stays. -/
def Stream.advance [DecidableEq α] (newline : α) (s : Stream α) : Stream α :=
  if s.good then
    match s.rest.dropWhile (· ≠ newline) with
    | [] => ⟨s.rest, [], false⟩
    | _ :: rest => ⟨s.rest.takeWhile (· ≠ newline), rest, true⟩
  else s

abbrev Reader (α ε β : Type) := StateT (Stream α) (Except ε) β

def getline [DecidableEq α] (newline : α) : Reader α ε (List α) := fun s =>
  .ok ((s.advance newline).line, s.advance newline)

def newLine : Reader α ε Unit := fun s => .ok ((), { s with line := [] })

def ofResult (result : Except ε β) : Reader α ε β := fun s => result.map (·, s)

/-- `n` rounds of a loop, each of which appends one value. -/
def times (p : Reader α ε β) : Nat → Reader α ε (List β)
  | 0 => pure []
  | n + 1 => do
    let b ← p
    let rest ← times p n
    pure (b :: rest)

def Reads (p : Reader α ε β) (text : List α) (b : β) : Prop :=
  ∀ line more, ∃ line', p ⟨line, text ++ more, true⟩ = .ok (b, ⟨line', more, true⟩)

namespace Reads

variable {b : β} {text : List α} {p : Reader α ε β}

theorem of_eq {text' : List α} (same : text' = text) (reads : Reads p text b) :
    Reads p text' b := same ▸ reads

theorem pure (b : β) : Reads (Pure.pure b : Reader α ε β) [] b :=
  fun line _ => ⟨line, rfl⟩

theorem bind {f : β → Reader α ε γ} {text' : List α} {c : γ} (first : Reads p text b)
    (second : Reads (f b) text' c) :
    Reads (p >>= f) (text ++ text') c := by
  intro line more
  obtain ⟨middle, read⟩ := first line (text' ++ more)
  obtain ⟨last, read'⟩ := second middle more
  refine ⟨last, ?_⟩
  rw [List.append_assoc]
  show (p _ >>= fun x => f x.1 x.2) = _
  rw [read]
  exact read'

theorem newLine : Reads (LineStream.newLine : Reader α ε Unit) [] () := fun _ _ => ⟨[], rfl⟩

theorem ofResult {result : Except ε β} (same : result = .ok b) :
    Reads (LineStream.ofResult result : Reader α ε β) [] b := by
  intro line more
  rw [same]
  exact ⟨line, rfl⟩

theorem getline [DecidableEq α] {newline : α} (oneLine : newline ∉ text) :
    Reads (LineStream.getline newline : Reader α ε (List α)) (text ++ [newline]) text := by
  intro line more
  refine ⟨text, ?_⟩
  have others : ∀ c ∈ text, decide (c ≠ newline) = true :=
    fun c member => decide_eq_true fun same => oneLine (same ▸ member)
  have whole : text ++ [newline] ++ more = text ++ newline :: more := by simp
  have dropped : (text ++ newline :: more).dropWhile (fun c => decide (c ≠ newline)) =
      newline :: more := by
    rw [List.dropWhile_append_of_pos others, List.dropWhile_cons_of_neg (by simp)]
  have taken : (text ++ newline :: more).takeWhile (fun c => decide (c ≠ newline)) = text := by
    rw [List.takeWhile_append_of_pos others, List.takeWhile_cons_of_neg (by simp),
      List.append_nil]
  simp only [LineStream.getline, Stream.advance, whole, dropped, taken, if_true]

theorem times {δ : Type} {write : δ → List α} {value : δ → β} {items : List δ}
    (reads : ∀ d ∈ items, Reads p (write d) (value d)) :
    Reads (LineStream.times p items.length) (items.flatMap write) (items.map value) := by
  induction items with
  | nil => exact .pure []
  | cons d rest ih =>
    have later := ih fun e member => reads e (List.mem_cons_of_mem _ member)
    have ended := later.bind (f := fun tail => Pure.pure (value d :: tail)) (.pure _)
    rw [List.append_nil] at ended
    exact (reads d List.mem_cons_self).bind ended

end Reads

end GraniteDb.Lib.LineStream
