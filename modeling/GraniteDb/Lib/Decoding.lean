/- Decoders of symbol lists: what they have read does not depend on what follows. -/

import Mathlib.Data.List.Basic

namespace GraniteDb.Lib.Decoding

universe u

variable {σ : Type u} {α β : Type u}

abbrev Decoder (σ α : Type u) := StateT (List σ) Option α

def Steady (d : Decoder σ α) : Prop :=
  ∀ s a rest, d s = some (a, rest) →
    ∃ used, s = used ++ rest ∧ ∀ more, d (used ++ more) = some (a, more)

def Decodes (d : Decoder σ α) (code : List σ) (a : α) : Prop :=
  ∀ more, d (code ++ more) = some (a, more)

variable {f : α → Decoder σ β} {b : β} {d : Decoder σ α} {code : List σ} {a : α}

theorem bind_eq_some {s rest : List σ} :
    (d >>= f) s = some (b, rest) ↔ ∃ a m, d s = some (a, m) ∧ f a m = some (b, rest) := by
  change (d s).bind (fun p => f p.1 p.2) = _ ↔ _
  rw [Option.bind_eq_some_iff]
  constructor
  · rintro ⟨⟨a, m⟩, first, second⟩
    exact ⟨a, m, first, second⟩
  · rintro ⟨a, m, first, second⟩
    exact ⟨(a, m), first, second⟩

theorem Steady.pure (a : α) : Steady (pure a : Decoder σ α) := by
  intro s b rest read
  cases read
  exact ⟨[], rfl, fun more => rfl⟩

theorem Steady.bind (first : Steady d) (second : ∀ a, Steady (f a)) : Steady (d >>= f) := by
  intro s b rest read
  obtain ⟨a, m, readA, readB⟩ := bind_eq_some.mp read
  obtain ⟨usedA, rfl, moreA⟩ := first s a m readA
  obtain ⟨usedB, rfl, moreB⟩ := second a m b rest readB
  refine ⟨usedA ++ usedB, by rw [List.append_assoc], fun more => ?_⟩
  rw [List.append_assoc]
  exact bind_eq_some.mpr ⟨a, usedB ++ more, moreA _, moreB more⟩

theorem Steady.ite {c : Prop} [Decidable c] {e : Decoder σ α} (first : Steady d) (second : Steady e) :
    Steady (if c then d else e) := by
  split
  · exact first
  · exact second

theorem Decodes.pure (a : α) : Decodes (pure a : Decoder σ α) [] a := fun _ => rfl

theorem Decodes.bind {code' : List σ} (first : Decodes d code a) (second : Decodes (f a) code' b) :
    Decodes (d >>= f) (code ++ code') b := by
  intro more
  rw [List.append_assoc]
  exact bind_eq_some.mpr ⟨a, code' ++ more, first _, second more⟩

theorem Decodes.last (first : Decodes d code a) (second : Decodes (f a) [] b) :
    Decodes (d >>= f) code b := by
  have both := first.bind second
  rwa [List.append_nil] at both

theorem Steady.refuses (steady : Steady d) {kept : List σ} (decodes : Decodes d code a)
    (cut : kept <+: code) (short : kept.length < code.length) :
    d kept = none := by
  obtain ⟨lost, rfl⟩ := cut
  cases read : d kept with
  | none => rfl
  | some result =>
    obtain ⟨b, rest⟩ := result
    obtain ⟨used, rfl, more⟩ := steady kept b rest read
    have whole := decodes []
    rw [List.append_nil, List.append_assoc, more (rest ++ lost)] at whole
    obtain ⟨-, nothing⟩ := Prod.mk.inj (Option.some.inj whole)
    rw [(List.append_eq_nil_iff.mp nothing).2] at short
    simp at short

end GraniteDb.Lib.Decoding
