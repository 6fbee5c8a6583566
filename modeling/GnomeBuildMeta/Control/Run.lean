import Mathlib.Data.List.Basic
import Mathlib.Data.List.Induction

/-!
# Runs of a transition system

A run is recorded by the labels of its steps.  It grows at its end, so an
invariant may speak about everything that has happened so far.
-/

namespace GnomeBuildMeta.Control

variable {σ ε : Type}

/-- The steps labelled `es`, in order, lead from `s` to the last state. -/
inductive Run (step : σ → ε → σ → Prop) (s : σ) : List ε → σ → Prop where
  | nil : Run step s [] s
  | snoc {es : List ε} {s' : σ} {e : ε} {s'' : σ} :
      Run step s es s' → step s' e s'' → Run step s (es ++ [e]) s''

namespace Run

variable {step : σ → ε → σ → Prop} {s s' s'' : σ}

/-- What holds at the start and is kept by each step holds after every run. -/
theorem invariant {I : List ε → σ → Prop} (start : I [] s)
    (kept : ∀ es s' e s'', I es s' → step s' e s'' → I (es ++ [e]) s'') {es : List ε}
    (run : Run step s es s') : I es s' := by
  induction run with
  | nil => exact start
  | snoc _ last ih => exact kept _ _ _ _ ih last

/-- What a view of the state becomes in each step, it becomes over a whole run. -/
theorem follows {τ : Type} {good : ε → Prop} {f : τ → ε → τ} (view : τ → σ → Prop)
    (each : ∀ s e s' t, step s e s' → good e → view t s → view (f t e) s') {es : List ε}
    (run : Run step s es s') (all : ∀ e ∈ es, good e) {t : τ} (start : view t s) : view (es.foldl f t) s' := by
  induction run with
  | nil => exact start
  | @snoc es _ e _ _ last ih =>
      rw [List.foldl_append]
      refine each _ e _ _ last (all e (by simp)) (ih fun other member => ?_)
      exact all other (List.mem_append_left _ member)

theorem nil_iff : Run step s [] s' ↔ s' = s := by
  constructor
  · intro run
    generalize list : ([] : List ε) = es at run
    cases run with
    | nil => rfl
    | snoc _ _ => simp at list
  · rintro rfl
    exact .nil

/-- The last step of a run. -/
theorem snoc_iff {es : List ε} {e : ε} : Run step s (es ++ [e]) s'' ↔ ∃ s', Run step s es s' ∧ step s' e s'' := by
  constructor
  · intro run
    generalize list : es ++ [e] = labels at run
    cases run with
    | nil => simp at list
    | snoc before last =>
        obtain ⟨rfl, same⟩ := List.append_inj' list rfl
        cases same
        exact ⟨_, before, last⟩
  · rintro ⟨s', before, last⟩
    exact .snoc before last

/-- A run is also one for every step relation that allows its steps. -/
theorem mono {wider : σ → ε → σ → Prop} (allowed : ∀ s e s', step s e s' → wider s e s')
    {es : List ε} (run : Run step s es s') : Run wider s es s' := by
  induction run with
  | nil => exact .nil
  | snoc _ last ih => exact .snoc ih (allowed _ _ _ last)

/-- What a state shows makes a run, so a run of what is shown is shown by one. -/
theorem simulated {τ : Type} {step' : τ → ε → τ → Prop} (shown : τ → σ) {t : τ}
    (lift : ∀ t e s', step (shown t) e s' → ∃ t', step' t e t' ∧ shown t' = s') {es : List ε}
    (run : Run step (shown t) es s') : ∃ t', Run step' t es t' ∧ shown t' = s' := by
  induction run with
  | nil => exact ⟨t, .nil, rfl⟩
  | snoc _ last ih =>
      obtain ⟨middle, before, rfl⟩ := ih
      obtain ⟨t', moved, same⟩ := lift _ _ _ last
      exact ⟨t', .snoc before moved, same⟩

/-- Computing one step after the other gives a run. -/
theorem of_foldlM {next : σ → ε → Option σ} {es : List ε} (computed : es.foldlM next s = some s') :
    Run (fun s e s' => next s e = some s') s es s' := by
  induction es using List.reverseRecOn generalizing s' with
  | nil =>
      cases computed
      exact .nil
  | append_singleton es e ih =>
      rw [List.foldlM_append, Option.bind_eq_bind, Option.bind_eq_some_iff] at computed
      obtain ⟨middle, before, last⟩ := computed
      refine .snoc (ih before) ?_
      simpa using last

end Run

/-- A label of a longer trace is its last one or lies in the trace before. -/
theorem snoc_eq_append_cons {trace pre post : List ε} {e x : ε}
    (split : trace ++ [e] = pre ++ x :: post) :
    (post = [] ∧ pre = trace ∧ x = e) ∨
      ∃ post', post = post' ++ [e] ∧ trace = pre ++ x :: post' := by
  rcases List.eq_nil_or_concat post with rfl | ⟨init, last, rfl⟩
  · obtain ⟨same, equal⟩ := List.append_inj' split rfl
    exact Or.inl ⟨rfl, same.symm, (List.cons.inj equal).1.symm⟩
  · have joined : pre ++ x :: (init ++ [last]) = (pre ++ x :: init) ++ [last] := by simp
    rw [List.concat_eq_append, joined] at split
    obtain ⟨same, equal⟩ := List.append_inj' split rfl
    rw [List.concat_eq_append, (List.cons.inj equal).1]
    exact Or.inr ⟨init, rfl, same⟩

end GnomeBuildMeta.Control
