import Mathlib.Data.List.Forall2

/-!
# Enough fuel

A recursion that is cut off by its fuel has a value if it has it with any fuel
from some amount on.
-/

namespace GnomeBuildMeta.Control

variable {α β : Type} {f g : Nat → α} {a b : α}

def Eventually (f : Nat → α) (a : α) : Prop := ∃ n, ∀ fuel ≥ n, f fuel = a

theorem Eventually.unique (first : Eventually f a) (second : Eventually f b) : a = b := by
  obtain ⟨n, fromN⟩ := first
  obtain ⟨m, fromM⟩ := second
  rw [← fromN (max n m) (Nat.le_max_left n m), fromM (max n m) (Nat.le_max_right n m)]

/-- A call that spends one unit of its fuel. -/
theorem Eventually.succ (call : ∀ fuel, f (fuel + 1) = g fuel) (later : Eventually g a) : Eventually f a := by
  obtain ⟨n, fromN⟩ := later
  refine ⟨n + 1, fun fuel enough => ?_⟩
  obtain ⟨fuel, rfl⟩ := Nat.exists_eq_add_one_of_ne_zero (show fuel ≠ 0 by omega)
  rw [call, fromN fuel (by omega)]

theorem Eventually.of_add (n : Nat) (always : ∀ fuel, f (fuel + n) = a) : Eventually f a :=
  ⟨n, fun fuel enough => by rw [← Nat.sub_add_cancel enough, always]⟩

theorem Eventually.of_forall (always : ∀ fuel, f fuel = a) : Eventually f a := ⟨0, fun fuel _ => always fuel⟩

theorem Eventually.map (op : α → β) (first : Eventually f a) : Eventually (fun fuel => op (f fuel)) (op a) := by
  obtain ⟨n, fromN⟩ := first
  exact ⟨n, fun fuel enough => congrArg op (fromN fuel enough)⟩

theorem Eventually.map₂ {γ : Type} {h : Nat → β} {b : β} (op : α → β → γ) (first : Eventually f a)
    (second : Eventually h b) : Eventually (fun fuel => op (f fuel) (h fuel)) (op a b) := by
  obtain ⟨n, fromN⟩ := first
  obtain ⟨m, fromM⟩ := second
  refine ⟨max n m, fun fuel enough => ?_⟩
  exact congrArg₂ op (fromN fuel (Nat.le_trans (Nat.le_max_left n m) enough))
    (fromM fuel (Nat.le_trans (Nat.le_max_right n m) enough))

/-- What is done with a value that comes eventually. -/
theorem Eventually.bind {k : Nat → α → β} {b : β} (first : Eventually f a)
    (later : Eventually (fun fuel => k fuel a) b) : Eventually (fun fuel => k fuel (f fuel)) b := by
  obtain ⟨n, fromN⟩ := first
  obtain ⟨m, fromM⟩ := later
  refine ⟨max n m, fun fuel enough => ?_⟩
  change k fuel (f fuel) = b
  rw [fromN fuel (Nat.le_trans (Nat.le_max_left n m) enough)]
  exact fromM fuel (Nat.le_trans (Nat.le_max_right n m) enough)

end GnomeBuildMeta.Control
