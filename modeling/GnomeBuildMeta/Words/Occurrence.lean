import Mathlib.Data.List.Infix

/-!
# Where a text occurs

A text without a certain symbol does not occur across that symbol, and it begins
behind a text that does not have its first symbol.
-/

namespace GnomeBuildMeta.Words

variable {α : Type} {word before after : List α} {c : α}

theorem infix_append_cons (absent : c ∉ word) (occurs : word <:+: before ++ c :: after) :
    word <:+: before ∨ word <:+: after := by
  obtain ⟨front, back, whole⟩ := occurs
  rw [List.append_assoc] at whole
  rcases List.append_eq_append_iff.mp whole with ⟨middle, rfl, tail⟩ | ⟨middle, rfl, tail⟩
  · -- The occurrence begins before the symbol.
    rcases List.append_eq_append_iff.mp tail with ⟨inner, rfl, _⟩ | ⟨inner, rfl, split⟩
    · exact Or.inl ⟨front, inner, List.append_assoc _ _ _⟩
    · cases inner with
      | nil => exact Or.inl ⟨front, [], by simp⟩
      | cons d inner =>
          cases split
          exact absurd (by simp) absent
  · cases middle with
    | nil =>
        cases word with
        | nil => exact Or.inl List.nil_infix
        | cons d word =>
            cases tail
            exact absurd List.mem_cons_self absent
    | cons d middle =>
        cases tail
        exact Or.inr ⟨middle, back, List.append_assoc _ _ _⟩

theorem infix_of_infix_append (absent : c ∉ before) (occurs : c :: word <:+: before ++ after) :
    c :: word <:+: after := by
  induction before with
  | nil => exact occurs
  | cons d before ih =>
      rcases List.infix_cons_iff.mp occurs with first | later
      · exact absurd (List.cons_prefix_cons.mp first).1 (List.ne_of_not_mem_cons absent)
      · exact ih (List.not_mem_of_not_mem_cons absent) later

end GnomeBuildMeta.Words
