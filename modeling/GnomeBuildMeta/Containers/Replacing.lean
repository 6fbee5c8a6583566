import Mathlib.Data.List.Induction
import Mathlib.Data.List.Infix

/-!
# Rows that replace each other

A table has at most one row of a key: a new row replaces the row of its key.  A
row without a key stands beside all others.
-/

namespace GnomeBuildMeta.Containers

variable {ρ κ : Type} [DecidableEq κ] (key : ρ → Option κ)

/-- The two rows cannot stand in one table. -/
def Conflict (a b : ρ) : Prop := key a = key b ∧ (key a).isSome = true

instance (a b : ρ) : Decidable (Conflict key a b) := inferInstanceAs (Decidable (_ ∧ _))

def insertOrReplace (rows : List ρ) (row : ρ) : List ρ :=
  (rows.filter fun old => ¬ Conflict key old row) ++ [row]

def insertAll (rows new : List ρ) : List ρ := new.foldl (insertOrReplace key) rows

variable {key} {rows : List ρ} {row : ρ}

@[simp]
theorem mem_insertOrReplace {new : ρ} :
    row ∈ insertOrReplace key rows new ↔ (row ∈ rows ∧ ¬ Conflict key row new) ∨ row = new := by
  simp [insertOrReplace]

theorem insertAll_concat (new : List ρ) (last : ρ) :
    insertAll key rows (new ++ [last]) = insertOrReplace key (insertAll key rows new) last := by
  rw [insertAll, List.foldl_append]
  rfl

theorem insertAll_append (new more : List ρ) :
    insertAll key rows (new ++ more) = insertAll key (insertAll key rows new) more :=
  List.foldl_append

/-- What the table has in the end: each row that no later one has replaced. -/
theorem mem_insertAll_iff {new : List ρ} : row ∈ insertAll key [] new ↔
    ∃ before after, new = before ++ row :: after ∧ ∀ later ∈ after, ¬ Conflict key row later := by
  induction new using List.reverseRecOn with
  | nil => simp [insertAll]
  | append_singleton new last ih =>
      rw [insertAll_concat, mem_insertOrReplace, ih]
      constructor
      · rintro (⟨⟨before, after, rfl, kept⟩, stays⟩ | rfl)
        · refine ⟨before, after ++ [last], by simp, fun later listed => ?_⟩
          rcases List.mem_append.mp listed with inside | final
          · exact kept later inside
          · rw [List.mem_singleton.mp final]
            exact stays
        · exact ⟨new, [], rfl, fun _ inside => absurd inside List.not_mem_nil⟩
      · rintro ⟨before, after, split, kept⟩
        rcases List.eq_nil_or_concat after with rfl | ⟨init, final, rfl⟩
        · exact Or.inr (List.cons.inj (List.append_inj' split rfl).2).1.symm
        · rw [List.concat_eq_append, ← List.cons_append, ← List.append_assoc] at split
          obtain ⟨same, one⟩ := List.append_inj' split rfl
          refine Or.inl ⟨⟨before, init, same, fun later inside => ?_⟩, ?_⟩
          · exact kept later (by simp [inside])
          · rw [(List.cons.inj one).1]
            exact kept final (by simp)

/-- Of every key that was inserted the table has a row. -/
theorem exists_row_of_mem {new : List ρ} (inside : row ∈ new) :
    ∃ there ∈ insertAll key rows new, key there = key row := by
  induction new using List.reverseRecOn with
  | nil => cases inside
  | append_singleton new last ih =>
      rw [insertAll_concat]
      rcases List.mem_append.mp inside with before | final
      · obtain ⟨there, found, same⟩ := ih before
        by_cases replaced : Conflict key there last
        · exact ⟨last, mem_insertOrReplace.mpr (Or.inr rfl), replaced.1.symm.trans same⟩
        · exact ⟨there, mem_insertOrReplace.mpr (Or.inl ⟨found, replaced⟩), same⟩
      · rw [List.mem_singleton.mp final]
        exact ⟨last, mem_insertOrReplace.mpr (Or.inr rfl), rfl⟩

/-- Where the key is the whole row, only the same row is replaced. -/
theorem mem_insertAll_of_whole (whole : ∀ a b, key a = key b → (key a).isSome = true → a = b)
    {new : List ρ} : row ∈ insertAll key [] new ↔ row ∈ new := by
  induction new using List.reverseRecOn with
  | nil => exact Iff.rfl
  | append_singleton new last ih =>
      rw [insertAll_concat, mem_insertOrReplace, ih, List.mem_append, List.mem_singleton]
      constructor
      · rintro (⟨before, _⟩ | final)
        · exact Or.inl before
        · exact Or.inr final
      · rintro (before | final)
        · by_cases replaced : Conflict key row last
          · exact Or.inr (whole row last replaced.1 replaced.2)
          · exact Or.inl ⟨before, replaced⟩
        · exact Or.inr final

end GnomeBuildMeta.Containers
