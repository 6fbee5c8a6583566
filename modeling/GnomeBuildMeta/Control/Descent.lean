import Mathlib.Data.Fintype.Card
import Mathlib.Data.Set.Finite.Basic
import Mathlib.Logic.Relation

/-!
# Descending a finite relation

What follows from a start is finite and never comes back, so an induction may go
against the relation.
-/

namespace GnomeBuildMeta.Control

open Relation

variable {α : Type} {next : α → α → Prop} {start : α}

/-- Nothing that is reached is reached again from itself. -/
def NeverBack (next : α → α → Prop) (start : α) : Prop := ∀ a, ReflTransGen next start a → ¬ TransGen next a a

/-- What is reached from the start. -/
abbrev Reached (next : α → α → Prop) (start : α) : Type := {a // ReflTransGen next start a}

/-- One thing is reached from another. -/
def Behind (b a : Reached next start) : Prop := TransGen next a.1 b.1

instance : IsTrans (Reached next start) Behind := ⟨fun _ _ _ first second => TransGen.trans second first⟩

theorem NeverBack.wellFounded (neverBack : NeverBack next start) [Finite (Reached next start)] :
    WellFounded (@Behind α next start) := by
  have irreflexive : Std.Irrefl (@Behind α next start) :=
    ⟨fun a back => neverBack a.1 a.2 back⟩
  exact Finite.wellFounded_of_trans_of_irrefl _

theorem NeverBack.induction {P : α → Prop} (neverBack : NeverBack next start)
    (finite : {a | ReflTransGen next start a}.Finite)
    (step : ∀ a, ReflTransGen next start a → (∀ b, next a b → P b) → P a) : P start := by
  have finite' : Finite (Reached next start) := finite
  have all : ∀ a : Reached next start, P a.1 := by
    intro a
    induction a using neverBack.wellFounded.induction with
    | _ a ih =>
        refine step a.1 a.2 fun b one => ?_
        exact ih ⟨b, a.2.tail one⟩ (TransGen.single one)
  exact all ⟨start, ReflTransGen.refl⟩

end GnomeBuildMeta.Control
