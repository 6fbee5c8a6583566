import GnomeBuildMeta.Control.Except

/-!
# What a loop does on its way

The rounds of a loop may do something that their results do not tell.  `During`
collects what happens in the rounds that a run comes to, the last one of a run
that stops with an error included.
-/

namespace GnomeBuildMeta.Control

variable {ε σ β τ : Type} {f : σ → β → Except ε σ} {does : σ → β → τ → Prop}

/-- What a round does, for a round that the loop over the list comes to. -/
inductive During (f : σ → β → Except ε σ) (does : σ → β → τ → Prop) : σ → List β → τ → Prop where
  | here {s : σ} {x : β} {rest : List β} {t : τ} (happens : does s x t) : During f does s (x :: rest) t
  | later {s s' : σ} {x : β} {rest : List β} {t : τ} (done : f s x = .ok s')
      (during : During f does s' rest t) : During f does s (x :: rest) t

/--
By induction on what is left of the list: rounds that succeed from the invariant
of the elements done, and do nothing but what is allowed.
-/
theorem foldlM_of_prefix {I : List β → σ → Prop} {Q : τ → Prop} {list : List β}
    (round : ∀ done x rest s, list = done ++ x :: rest → I done s →
      (∃ s', f s x = .ok s' ∧ I (done ++ [x]) s') ∧ ∀ t, does s x t → Q t) {s : σ} (start : I [] s) :
    (∃ s', list.foldlM f s = .ok s' ∧ I list s') ∧ ∀ t, During f does s list t → Q t := by
  have general : ∀ rest done s, list = done ++ rest → I done s →
      (∃ s', rest.foldlM f s = .ok s' ∧ I list s') ∧ ∀ t, During f does s rest t → Q t := by
    intro rest
    induction rest with
    | nil =>
        intro done s split holds
        rw [List.append_nil] at split
        exact ⟨⟨s, rfl, split ▸ holds⟩, fun _ during => nomatch during⟩
    | cons x rest ih =>
        intro done s split holds
        obtain ⟨⟨middle, one, holds'⟩, allowed⟩ := round done x rest s split holds
        obtain ⟨⟨s', run, last⟩, later⟩ := ih (done ++ [x]) middle (by rw [split]; simp) holds'
        refine ⟨⟨s', ?_, last⟩, fun t during => ?_⟩
        · rw [List.foldlM_cons, one]
          exact run
        · cases during with
          | here happens => exact allowed t happens
          | later done' during =>
              cases one.symm.trans done'
              exact later t during
  exact general list [] s rfl start

/-- What the second part of a loop does after the first one is done. -/
theorem During.append {first second : List β} {s s' : σ} {t : τ}
    (run : first.foldlM f s = .ok s') (during : During f does s' second t) :
    During f does s (first ++ second) t := by
  induction first generalizing s with
  | nil =>
      cases run
      exact during
  | cons x first ih =>
      rw [List.foldlM_cons, bind_ok_iff] at run
      obtain ⟨middle, one, later⟩ := run
      exact .later one (ih later)

/-- A completed loop has come to each of its elements. -/
theorem foldlM_during {list : List β} {s s' : σ} (run : list.foldlM f s = .ok s') {x : β}
    (inside : x ∈ list) :
    ∃ (done : List β) (middle after : σ), done.foldlM f s = .ok middle ∧ f middle x = .ok after ∧
      ∀ t, does middle x t → During f does s list t := by
  induction list generalizing s with
  | nil => cases inside
  | cons y rest ih =>
      rw [List.foldlM_cons, bind_ok_iff] at run
      obtain ⟨next, first, later⟩ := run
      rcases List.mem_cons.mp inside with rfl | member
      · exact ⟨[], s, next, rfl, first, fun _ happens => .here happens⟩
      · obtain ⟨done, middle, after, before, one, during⟩ := ih later member
        refine ⟨y :: done, middle, after, ?_, one, ?_⟩
        · rw [List.foldlM_cons, first]
          exact before
        · exact fun t happens => .later first (during t happens)

end GnomeBuildMeta.Control
