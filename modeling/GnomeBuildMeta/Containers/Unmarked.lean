import Mathlib.Data.List.Basic
import Mathlib.Data.List.Count

/-!
# Searches that mark what they have seen

A search that stays in a finite list and marks something new in every round that
does not only shorten its queue comes to an end.  The list can be closed under a
function whose values get smaller until they stay.
-/

namespace GnomeBuildMeta.Containers

variable {α : Type}

/-- How much of the list is not marked yet. -/
def unmarked (space : List α) (marked : α → Bool) : Nat := space.countP fun x => !marked x

variable {space : List α} {marked marked' : α → Bool}

theorem unmarked_le (grows : ∀ x, marked x = true → marked' x = true) :
    unmarked space marked' ≤ unmarked space marked := by
  refine List.countP_mono_left fun x _ left => ?_
  cases before : marked x with
  | false => rfl
  | true =>
      rw [grows x before] at left
      cases left

theorem unmarked_lt (grows : ∀ x, marked x = true → marked' x = true) {x : α} (inside : x ∈ space)
    (fresh : marked x = false) (now : marked' x = true) :
    unmarked space marked' < unmarked space marked := by
  induction space with
  | nil => cases inside
  | cons y rest ih =>
      rw [unmarked, unmarked, List.countP_cons, List.countP_cons]
      have smaller : unmarked rest marked' ≤ unmarked rest marked := unmarked_le grows
      rw [unmarked, unmarked] at smaller
      rcases List.mem_cons.mp inside with rfl | later
      · simp only [fresh, now]
        simp
        omega
      · have less := ih later
        rw [unmarked, unmarked] at less
        cases here : marked y with
        | false =>
            cases there : marked' y <;> simp <;> omega
        | true =>
            rw [grows y here]
            simp
            omega

/-- Something is in a finite list that is closed under the function. -/
theorem exists_closed {f : α → α} {size : α → Nat}
    (settles : ∀ x, size (f x) < size x ∨ f (f x) = f x) (x : α) :
    ∃ list : List α, x ∈ list ∧ ∀ y ∈ list, f y ∈ list := by
  induction n : size x using Nat.strongRecOn generalizing x with
  | ind n ih =>
      rcases settles x with smaller | stays
      · obtain ⟨list, inside, closed⟩ := ih _ (n ▸ smaller) (f x) rfl
        refine ⟨x :: list, List.mem_cons_self, fun y member => ?_⟩
        rcases List.mem_cons.mp member with rfl | later
        · exact List.mem_cons_of_mem _ inside
        · exact List.mem_cons_of_mem _ (closed y later)
      · refine ⟨[x, f x], List.mem_cons_self, fun y member => ?_⟩
        rcases List.mem_cons.mp member with rfl | last
        · simp
        · rw [List.mem_singleton.mp last, stays]
          simp

theorem exists_closed_list {f : α → α} {size : α → Nat}
    (settles : ∀ x, size (f x) < size x ∨ f (f x) = f x) (start : List α) :
    ∃ list : List α, (∀ x ∈ start, x ∈ list) ∧ ∀ y ∈ list, f y ∈ list := by
  induction start with
  | nil => exact ⟨[], fun _ member => member, fun _ member => (List.not_mem_nil member).elim⟩
  | cons x start ih =>
      obtain ⟨first, here, closed⟩ := exists_closed settles x
      obtain ⟨rest, inside, closed'⟩ := ih
      refine ⟨first ++ rest, fun y member => ?_, fun y member => ?_⟩
      · rcases List.mem_cons.mp member with rfl | later
        · exact List.mem_append_left _ here
        · exact List.mem_append_right _ (inside y later)
      · rcases List.mem_append.mp member with one | two
        · exact List.mem_append_left _ (closed y one)
        · exact List.mem_append_right _ (closed' y two)

end GnomeBuildMeta.Containers
