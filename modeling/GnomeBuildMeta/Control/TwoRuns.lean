import Mathlib.Data.List.Basic
import Mathlib.Data.List.Forall2

/-!
# Two runs

Two computations that may fail are compared: both fail with the same error, or
both complete with related results.
-/

namespace GnomeBuildMeta.Control

variable {ε σ σ' τ τ' β : Type} {R : σ → σ' → Prop} {S : τ → τ' → Prop}

inductive Agree (R : σ → σ' → Prop) : Except ε σ → Except ε σ' → Prop where
  | error (e : ε) : Agree R (.error e) (.error e)
  | ok {s : σ} {s' : σ'} (related : R s s') : Agree R (.ok s) (.ok s')

namespace Agree

variable {x : Except ε σ} {x' : Except ε σ'}

theorem bind {f : σ → Except ε τ} {f' : σ' → Except ε τ'} (first : Agree R x x')
    (next : ∀ s s', R s s' → Agree S (f s) (f' s')) : Agree S (x >>= f) (x' >>= f') := by
  cases first with
  | error e => exact .error e
  | ok related => exact next _ _ related

theorem map {f : σ → τ} {f' : σ' → τ'} (first : Agree R x x')
    (next : ∀ s s', R s s' → S (f s) (f' s')) : Agree S (x.map f) (x'.map f') := by
  cases first with
  | error e => exact .error e
  | ok related => exact .ok (next _ _ related)

/-- The same computation on both sides. -/
theorem refl (x : Except ε σ) : Agree (fun s s' => s = s') x x := by
  cases x with
  | error e => exact .error e
  | ok s => exact .ok rfl

theorem eq {x x' : Except ε σ} (agree : Agree (fun s s' => s = s') x x') : x = x' := by
  cases agree with
  | error e => rfl
  | ok same => rw [same]

/-- Loops over the same list whose rounds keep the relation. -/
theorem foldlM {f : σ → β → Except ε σ} {f' : σ' → β → Except ε σ'} {list : List β} {s : σ} {s' : σ'}
    (round : ∀ s s' x, R s s' → Agree R (f s x) (f' s' x)) (start : R s s') :
    Agree R (list.foldlM f s) (list.foldlM f' s') := by
  induction list generalizing s s' with
  | nil => exact .ok start
  | cons x list ih =>
      rw [List.foldlM_cons, List.foldlM_cons]
      exact (round s s' x start).bind fun _ _ related => ih related

end Agree

end GnomeBuildMeta.Control
