/-!
# Loops that run until a round leaves them

A round leaves the loop with a result, goes on with another state, or stops with
an error.  The fuel bounds the number of rounds; a measure that every round
makes smaller is fuel enough.
-/

namespace GnomeBuildMeta.Control

variable {ε σ α : Type} {out : ε} {body : σ → Except ε (σ ⊕ α)}

/-- The rounds of a loop; `out` is the error when there is no fuel left. -/
def whileLoop (out : ε) (body : σ → Except ε (σ ⊕ α)) : Nat → σ → Except ε α
  | 0, _ => .error out
  | fuel + 1, s =>
      match body s with
      | .error e => .error e
      | .ok (.inl s') => whileLoop out body fuel s'
      | .ok (.inr a) => .ok a

/-- What a round comes to, with what is asked of its outcome. -/
inductive Round (I : σ → Prop) (Q : Except ε α → Prop) (smaller : σ → Prop) :
    Except ε (σ ⊕ α) → Prop where
  | fails {e : ε} (ends : Q (.error e)) : Round I Q smaller (.error e)
  | goesOn {s : σ} (holds : I s) (less : smaller s) : Round I Q smaller (.ok (.inl s))
  | leaves {a : α} (ends : Q (.ok a)) : Round I Q smaller (.ok (.inr a))

/-- By induction on the fuel: with enough of it a loop ends as its rounds may end it. -/
theorem whileLoop_ends {I : σ → Prop} {Q : Except ε α → Prop} (measure : σ → Nat)
    (round : ∀ s, I s → Round I Q (fun s' => measure s' < measure s) (body s)) {fuel : Nat} {s : σ}
    (holds : I s) (enough : measure s < fuel) : Q (whileLoop out body fuel s) := by
  induction fuel generalizing s with
  | zero => exact absurd enough (Nat.not_lt_zero _)
  | succ fuel ih =>
      have outcome := round s holds
      rw [whileLoop]
      generalize body s = next at outcome ⊢
      cases outcome with
      | fails ends => exact ends
      | goesOn holds' less => exact ih holds' (by omega)
      | leaves ends => exact ends

/-- A loop on another form of the state, and what it leaves with. -/
theorem whileLoop_map {σ' β : Type} {body' : σ' → Except ε (σ' ⊕ β)} {f : σ → σ'} {g : α → β}
    (round : ∀ s, body' (f s) = (body s).map (Sum.map f g)) (fuel : Nat) (s : σ) :
    whileLoop out body' fuel (f s) = (whileLoop out body fuel s).map g := by
  induction fuel generalizing s with
  | zero => rfl
  | succ fuel ih =>
      rw [whileLoop, whileLoop, round]
      cases body s with
      | error e => rfl
      | ok next =>
          cases next with
          | inl s' => exact ih s'
          | inr a => rfl

end GnomeBuildMeta.Control
