/- Programs as trees of requests and replies, and contracts on their requests. -/

import Mathlib.Order.Defs.PartialOrder

set_option linter.dupNamespace false

namespace GraniteDb.Lib.Program

universe u v w x

/-- A program that makes requests, goes on with the replies, and ends with a result. -/
inductive Program {ρ : Type u} (reply : ρ → Type v) (α : Type w)
  | ret (result : α)
  | request (r : ρ) (next : reply r → Program reply α)

variable {ρ : Type u} {reply : ρ → Type v} {α β : Type w}

def Program.bind (p : Program reply α) (f : α → Program reply β) : Program reply β :=
  match p with
  | .ret a => f a
  | .request r next => .request r fun a => (next a).bind f

/-- What programs may request while they know what they do: knowledge only grows, and each
reply adds to it. -/
structure Contract (ρ : Type u) (reply : ρ → Type v) (κ : Type x) [Preorder κ] where
  allowed : κ → ρ → Prop
  after : κ → (r : ρ) → reply r → κ → Prop
  grows : ∀ {k r a k'}, after k r a k' → k ≤ k'
  allowed_mono : ∀ {k k' r}, k ≤ k' → allowed k r → allowed k' r
  after_mono : ∀ {k k' r a k''}, k ≤ k' → after k' r a k'' → after k r a k''

variable {κ : Type x} [Preorder κ] (c : Contract ρ reply κ)

/-- Every request of the program is allowed where it is made, and what it returns meets `post`. -/
def Program.Meets : Program reply α → κ → (κ → α → Prop) → Prop
  | .ret a, k, post => post k a
  | .request r next, k, post =>
    c.allowed k r ∧ ∀ a k', c.after k r a k' → (next a).Meets k' post

variable {c}

theorem Meets.bind {p : Program reply α} {f : α → Program reply β} {k : κ}
    {mid : κ → α → Prop} {post : κ → β → Prop} (first : p.Meets c k mid)
    (second : ∀ k', k ≤ k' → ∀ a, mid k' a → (f a).Meets c k' post) :
    (p.bind f).Meets c k post := by
  induction p generalizing k with
  | ret a => exact second k le_rfl a first
  | request r next ih =>
    obtain ⟨allowed, later⟩ := first
    refine ⟨allowed, fun a k' added => ih a (later a k' added) fun k'' more => ?_⟩
    exact second k'' (le_trans (c.grows added) more)

theorem Meets.weaken {p : Program reply α} {k : κ} {post post' : κ → α → Prop}
    (meets : p.Meets c k post) (weaker : ∀ k', k ≤ k' → ∀ a, post k' a → post' k' a) :
    p.Meets c k post' := by
  induction p generalizing k with
  | ret a => exact weaker k le_rfl a meets
  | request r next ih =>
    obtain ⟨allowed, later⟩ := meets
    refine ⟨allowed, fun a k' added => ih a (later a k' added) fun k'' more => ?_⟩
    exact weaker k'' (le_trans (c.grows added) more)

theorem Meets.grow {p : Program reply α} {k k' : κ} {post : κ → α → Prop}
    (grown : k ≤ k') (stable : ∀ k k' a, k ≤ k' → post k a → post k' a)
    (meets : p.Meets c k post) : p.Meets c k' post := by
  cases p with
  | ret a => exact stable k k' a grown meets
  | request r next =>
    obtain ⟨allowed, later⟩ := meets
    exact ⟨c.allowed_mono grown allowed, fun a k'' added => later a k'' (c.after_mono grown added)⟩

end GraniteDb.Lib.Program
