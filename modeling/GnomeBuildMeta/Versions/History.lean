import Mathlib.Data.List.Basic
import Mathlib.Data.List.Count
import Mathlib.Data.List.Perm.Subperm
import Mathlib.Logic.Relation

/-!
# Histories

A history is an acyclic graph of commits.  What is reachable from a commit
grows strictly along it, and so does every count of reachable commits that
counts the new one.
-/

namespace GnomeBuildMeta.Versions

/-- Commits with their parents; none is its own ancestor. -/
structure History (Commit : Type) where
  parents : Commit → List Commit
  acyclic : ∀ c, ¬ Relation.TransGen (fun a b => a ∈ parents b) c c

namespace History

variable {Commit : Type} (h : History Commit)

def ProperAncestor (a b : Commit) : Prop := Relation.TransGen (fun a b => a ∈ h.parents b) a b

def Ancestor (a b : Commit) : Prop := Relation.ReflTransGen (fun a b => a ∈ h.parents b) a b

variable {h} {a b : Commit}

theorem ProperAncestor.not_ancestor (proper : h.ProperAncestor a b) : ¬ h.Ancestor b a := by
  intro back
  exact h.acyclic a (proper.trans_left back)

/-- A listing of what is reachable from each commit, the commit itself first. -/
structure Lists (h : History Commit) (log : Commit → List Commit) : Prop where
  mem_iff : ∀ a b, a ∈ log b ↔ h.Ancestor a b
  nodup : ∀ b, (log b).Nodup
  head : ∀ b, (log b).head? = some b

variable {log : Commit → List Commit}

theorem Lists.eq_cons (lists : Lists h log) (b : Commit) : ∃ rest, log b = b :: rest := by
  obtain ⟨rest, same⟩ := List.head?_eq_some_iff.mp (lists.head b)
  exact ⟨rest, same⟩

/-- A later commit reaches everything that an earlier one does, and itself. -/
theorem Lists.countP_lt (lists : Lists h log) (proper : h.ProperAncestor a b) {p : Commit → Bool}
    (counts : p b = true) : (log a).countP p < (log b).countP p := by
  obtain ⟨rest, same⟩ := lists.eq_cons b
  have nodup := same ▸ lists.nodup b
  have inRest : log a ⊆ rest := by
    intro x reached
    have before : h.Ancestor x a := (lists.mem_iff x a).mp reached
    have listed : x ∈ log b := (lists.mem_iff x b).mpr (before.trans proper.to_reflTransGen)
    rw [same] at listed
    rcases List.mem_cons.mp listed with rfl | later
    · exact absurd before proper.not_ancestor
    · exact later
  have fewer := ((lists.nodup a).subperm inRest).countP_le p
  rw [same, List.countP_cons_of_pos counts]
  omega

end History

end GnomeBuildMeta.Versions
