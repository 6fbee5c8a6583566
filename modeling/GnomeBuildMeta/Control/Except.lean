import Mathlib.Data.List.Basic
import Mathlib.Data.List.Forall2

/-!
# Runs that may stop with an error

Facts about a completed run of a loop in the `Except` monad: what every step
preserves holds at the end, and what one step of the list establishes is still
there when the loop is over.
-/

namespace GnomeBuildMeta.Control

variable {ε σ β : Type}

theorem bind_ok_iff {γ : Type} {x : Except ε σ} {f : σ → Except ε γ} {c : γ} :
    x >>= f = .ok c ↔ ∃ s, x = .ok s ∧ f s = .ok c := by
  cases x with
  | error e =>
      constructor
      · intro impossible
        cases impossible
      · rintro ⟨s, impossible, _⟩
        cases impossible
  | ok s =>
      constructor
      · intro done
        exact ⟨s, rfl, done⟩
      · rintro ⟨s', same, done⟩
        cases same
        exact done

theorem mapM_ok_iff {γ : Type} {f : β → Except ε γ} {list : List β} {results : List γ} :
    list.mapM f = .ok results ↔ List.Forall₂ (fun x y => f x = .ok y) list results := by
  induction list generalizing results with
  | nil => cases results <;> simp [pure, Except.pure]
  | cons x rest ih =>
      rw [List.mapM_cons, bind_ok_iff]
      constructor
      · rintro ⟨y, first, others⟩
        obtain ⟨ys, later, done⟩ := bind_ok_iff.mp others
        cases done
        exact .cons first (ih.mp later)
      · intro related
        cases related with
        | cons first later => exact ⟨_, first, bind_ok_iff.mpr ⟨_, ih.mpr later, rfl⟩⟩

/-- A loop of rounds that each give one value, or fail. -/
theorem mapM_iff {γ : Type} {f : β → Except ε γ} {P : β → Prop} {g : β → γ}
    (each : ∀ x y, f x = .ok y ↔ P x ∧ y = g x) {list : List β} {results : List γ} :
    list.mapM f = .ok results ↔ (∀ x ∈ list, P x) ∧ results = list.map g := by
  rw [mapM_ok_iff]
  constructor
  · intro related
    induction related with
    | nil => exact ⟨List.forall_mem_nil _, rfl⟩
    | cons first later ih =>
        obtain ⟨holds, rfl⟩ := (each _ _).mp first
        obtain ⟨others, rfl⟩ := ih
        exact ⟨List.forall_mem_cons.mpr ⟨holds, others⟩, rfl⟩
  · rintro ⟨all, rfl⟩
    induction list with
    | nil => exact .nil
    | cons x rest ih =>
        obtain ⟨holds, others⟩ := List.forall_mem_cons.mp all
        exact .cons ((each _ _).mpr ⟨holds, rfl⟩) (ih others)

/-- Every result of a loop comes from an element, and every element gives a result. -/
theorem mapM_mem {γ : Type} {f : β → Except ε γ} {list : List β} {results : List γ}
    (run : list.mapM f = .ok results) :
    (∀ y ∈ results, ∃ x ∈ list, f x = .ok y) ∧ ∀ x ∈ list, ∃ y ∈ results, f x = .ok y := by
  rw [mapM_ok_iff] at run
  induction run with
  | nil => exact ⟨fun _ member => (nomatch member), fun _ member => (nomatch member)⟩
  | cons first later ih =>
      constructor
      · intro y member
        rcases List.mem_cons.mp member with rfl | inside
        · exact ⟨_, List.mem_cons_self, first⟩
        · obtain ⟨x, there, same⟩ := ih.1 y inside
          exact ⟨x, List.mem_cons_of_mem _ there, same⟩
      · intro x member
        rcases List.mem_cons.mp member with rfl | inside
        · exact ⟨_, List.mem_cons_self, first⟩
        · obtain ⟨y, there, same⟩ := ih.2 x inside
          exact ⟨y, List.mem_cons_of_mem _ there, same⟩

/-- Another loop whose rounds give the same results. -/
theorem mapM_ok_congr {γ : Type} {f g : β → Except ε γ} {list : List β} {results : List γ}
    (run : list.mapM f = .ok results)
    (each : ∀ x ∈ list, ∀ y ∈ results, f x = .ok y → g x = .ok y) : list.mapM g = .ok results := by
  rw [mapM_ok_iff] at run ⊢
  induction run with
  | nil => exact .nil
  | cons first later ih =>
      refine .cons (each _ List.mem_cons_self _ List.mem_cons_self first) (ih fun x inside y listed => ?_)
      exact each x (List.mem_cons_of_mem _ inside) y (List.mem_cons_of_mem _ listed)

theorem mapM_error {γ : Type} {f : β → Except ε γ} {list : List β} {e : ε}
    (run : list.mapM f = .error e) : ∃ x ∈ list, f x = .error e := by
  induction list with
  | nil => cases run
  | cons x rest ih =>
      rw [List.mapM_cons] at run
      cases first : f x with
      | error e' =>
          rw [first] at run
          cases run
          exact ⟨x, List.mem_cons_self, first⟩
      | ok y =>
          rw [first] at run
          cases later : rest.mapM f with
          | error e' =>
              change (rest.mapM f >>= fun ys => pure (y :: ys)) = _ at run
              rw [later] at run
              cases run
              obtain ⟨z, inside, fails⟩ := ih later
              exact ⟨z, List.mem_cons_of_mem _ inside, fails⟩
          | ok ys =>
              change (rest.mapM f >>= fun ys => pure (y :: ys)) = _ at run
              rw [later] at run
              cases run

/-- What every step of a loop preserves holds after a completed run. -/
theorem foldlM_invariant {f : σ → β → Except ε σ} {I : σ → Prop} {list : List β}
    (step : ∀ s x s', x ∈ list → I s → f s x = .ok s' → I s') {s s' : σ}
    (start : I s) (run : list.foldlM f s = .ok s') : I s' := by
  induction list generalizing s with
  | nil =>
      cases run
      exact start
  | cons x rest ih =>
      rw [List.foldlM_cons, bind_ok_iff] at run
      obtain ⟨middle, first, later⟩ := run
      refine ih (fun s x s' inside => step s x s' (List.mem_cons_of_mem _ inside)) ?_ later
      exact step s x middle List.mem_cons_self start first

/-- What one step of a loop establishes and no step destroys holds after a completed run. -/
theorem foldlM_progress {f : σ → β → Except ε σ} {I Q : σ → Prop} {list : List β}
    (step : ∀ s x s', x ∈ list → I s → f s x = .ok s' → I s')
    (kept : ∀ s x s', x ∈ list → I s → f s x = .ok s' → Q s → Q s') {x : β} (inside : x ∈ list)
    (hit : ∀ s s', I s → f s x = .ok s' → Q s') {s s' : σ}
    (start : I s) (run : list.foldlM f s = .ok s') : Q s' := by
  induction list generalizing s with
  | nil => cases inside
  | cons y rest ih =>
      rw [List.foldlM_cons, bind_ok_iff] at run
      obtain ⟨middle, first, later⟩ := run
      have invariant := step s y middle List.mem_cons_self start first
      have stepRest := fun s x s' (member : x ∈ rest) =>
        step s x s' (List.mem_cons_of_mem _ member)
      have keptRest := fun s x s' (member : x ∈ rest) =>
        kept s x s' (List.mem_cons_of_mem _ member)
      rcases List.mem_cons.mp inside with rfl | member
      · have reached : Q middle := hit s middle start first
        refine (foldlM_invariant (I := fun s => I s ∧ Q s) ?_ ⟨invariant, reached⟩ later).2
        rintro s x s' member ⟨holds, has⟩ one
        exact ⟨stepRest s x s' member holds one, keptRest s x s' member holds one has⟩
      · exact ih stepRest keptRest member invariant later

/-- A loop in the `Option` monad all of whose rounds give a value. -/
theorem mapM_eq_map {γ : Type} {f : β → Option γ} {g : β → γ} {list : List β}
    (each : ∀ x ∈ list, f x = some (g x)) : list.mapM f = some (list.map g) := by
  induction list with
  | nil => rfl
  | cons x list ih =>
      rw [List.mapM_cons, each x List.mem_cons_self,
        ih fun y member => each y (List.mem_cons_of_mem _ member)]
      rfl

/-- Every value of such a loop comes from an element. -/
theorem exists_of_mapM {γ : Type} {f : β → Option γ} {list : List β} {found : List γ}
    (all : list.mapM f = some found) : ∀ y ∈ found, ∃ x ∈ list, f x = some y := by
  induction list generalizing found with
  | nil =>
      cases all
      exact fun _ impossible => absurd impossible List.not_mem_nil
  | cons x list ih =>
      simp only [List.mapM_cons, Option.bind_eq_bind, Option.bind_eq_some_iff] at all
      obtain ⟨first, here, rest, later, same⟩ := all
      cases same
      intro y listed
      rcases List.mem_cons.mp listed with rfl | inside
      · exact ⟨x, List.mem_cons_self, here⟩
      · obtain ⟨x', there, value⟩ := ih later y inside
        exact ⟨x', List.mem_cons_of_mem x there, value⟩

end GnomeBuildMeta.Control
