/- Fields joined by a separator, with escapes before the separators inside them. -/

import Mathlib.Data.List.Basic

namespace GraniteDb.Lib.EscapedFields

open List (mem_cons length_cons mem_cons_self not_mem_nil cons_append)

variable {α : Type} [DecidableEq α] (esc sep : α)

def escape : List α → List α
  | [] => []
  | c :: rest => if c = esc ∨ c = sep then esc :: c :: escape rest else c :: escape rest

/-- Each escape is dropped and what follows it kept. The flag tells that an escape came last. -/
def unescape : Bool → List α → List α
  | _, [] => []
  | true, c :: rest => c :: unescape false rest
  | false, c :: rest => if c = esc then unescape true rest else c :: unescape false rest

/-- The fields between separators, without their escapes; `cur` has been read of the first. -/
def split (cur : List α) : Bool → List α → List (List α)
  | _, [] => [cur]
  | true, c :: rest => split (cur ++ [c]) false rest
  | false, c :: rest =>
    if c = esc then split cur true rest
    else if c = sep then cur :: split [] false rest
    else split (cur ++ [c]) false rest

def join (fields : List (List α)) : List α := [sep].intercalate fields

variable {esc sep}

variable {field : List α}

theorem escape_of_plain (noEsc : esc ∉ field) (noSep : sep ∉ field) :
    escape esc sep field = field := by
  induction field with
  | nil => rfl
  | cons c rest ih =>
    obtain ⟨notEsc, restEsc⟩ := not_or.mp (mem_cons.not.mp noEsc)
    obtain ⟨notSep, restSep⟩ := not_or.mp (mem_cons.not.mp noSep)
    have neither : ¬(c = esc ∨ c = sep) :=
      not_or.mpr ⟨fun same => notEsc same.symm, fun same => notSep same.symm⟩
    rw [escape, if_neg neither, ih restEsc restSep]

theorem mem_escape {c : α} (member : c ∈ escape esc sep field) : c = esc ∨ c ∈ field := by
  induction field with
  | nil => exact (not_mem_nil member).elim
  | cons d rest ih =>
    rw [escape] at member
    split at member
    · rcases mem_cons.mp member with same | later
      · exact .inl same
      rcases mem_cons.mp later with same | further
      · exact .inr (same ▸ mem_cons_self)
      · exact (ih further).imp_right (List.mem_cons_of_mem _)
    · rcases mem_cons.mp member with same | later
      · exact .inr (same ▸ mem_cons_self)
      · exact (ih later).imp_right (List.mem_cons_of_mem _)

theorem split_field (cur field more : List α) :
    split esc sep cur false (escape esc sep field ++ more) =
      split esc sep (cur ++ field) false more := by
  induction field generalizing cur with
  | nil => rw [escape, List.nil_append, List.append_nil]
  | cons c rest ih =>
    have appended : cur ++ c :: rest = cur ++ [c] ++ rest := by
      rw [List.append_assoc, List.singleton_append]
    rw [escape, appended, ← ih]
    split
    · rw [cons_append, cons_append, split, if_pos rfl, split]
    · rename_i neither
      obtain ⟨notEsc, notSep⟩ := not_or.mp neither
      rw [cons_append, split, if_neg notEsc, if_neg notSep]

theorem split_join (apart : esc ≠ sep) (first : List α) (rest : List (List α)) :
    split esc sep [] false (join sep ((first :: rest).map (escape esc sep))) = first :: rest := by
  induction rest generalizing first with
  | nil =>
    have single : split esc sep [] false (escape esc sep first ++ []) = _ :=
      split_field [] first []
    rw [List.append_nil] at single
    rw [join, List.map_singleton, List.intercalate_singleton, single]
    rfl
  | cons second rest ih =>
    have parts : join sep ((first :: second :: rest).map (escape esc sep)) =
        escape esc sep first ++ sep :: join sep ((second :: rest).map (escape esc sep)) := by
      rw [join, List.map_cons, List.map_cons, List.intercalate_cons_cons]
      simp [join]
    rw [parts, split_field, split, if_neg (fun same => apart same.symm), if_pos rfl, ih]
    rfl

omit [DecidableEq α] in
theorem mem_join {c : α} {fields : List (List α)} (member : c ∈ join sep fields) :
    c = sep ∨ ∃ field ∈ fields, c ∈ field := by
  induction fields with
  | nil => exact (not_mem_nil member).elim
  | cons first rest ih =>
    cases rest with
    | nil =>
      rw [join, List.intercalate_singleton] at member
      exact .inr ⟨first, mem_cons_self, member⟩
    | cons second rest =>
      rw [join, List.intercalate_cons_cons] at member
      rcases List.mem_append.mp member with early | later
      · rcases List.mem_append.mp early with inFirst | atSep
        · exact .inr ⟨first, mem_cons_self, inFirst⟩
        · exact .inl (List.mem_singleton.mp atSep)
      · rcases ih later with atSep | ⟨field, isField, inField⟩
        · exact .inl atSep
        · exact .inr ⟨field, List.mem_cons_of_mem _ isField, inField⟩

theorem unescape_length (flag : Bool) (field : List α) :
    (unescape esc flag field).length ≤ field.length := by
  induction field generalizing flag with
  | nil => cases flag <;> exact Nat.le_refl _
  | cons c rest ih =>
    have kept := ih false
    have dropped := ih true
    cases flag with
    | true =>
      rw [unescape, length_cons, length_cons]
      omega
    | false =>
      rw [unescape]
      split
      · rw [length_cons]
        omega
      · rw [length_cons, length_cons]
        omega

theorem unescape_eq_self : unescape esc false field = field ↔ esc ∉ field := by
  induction field with
  | nil => exact ⟨fun _ => not_mem_nil, fun _ => rfl⟩
  | cons c rest ih =>
    rw [unescape]
    by_cases isEsc : c = esc
    · rw [if_pos isEsc]
      constructor
      · intro same
        have shorter : (unescape esc true rest).length ≤ rest.length :=
          unescape_length true rest
        rw [same, length_cons] at shorter
        omega
      · intro absent
        exact absurd (isEsc ▸ mem_cons_self) absent
    · rw [if_neg isEsc, List.cons_inj_right, ih, mem_cons, not_or]
      exact ⟨fun absent => ⟨fun same => isEsc same.symm, absent⟩, And.right⟩

end GraniteDb.Lib.EscapedFields
